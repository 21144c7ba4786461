import Mathlib.Data.List.Basic
import JackVM.Proofs.Layout.Lexemes
import JackVM.Token.Stream

/-!
# Tokens that wait in a buffer

The grammar is read from a list of lexemes that is there as a whole. Here tokens are
fetched from a cursor when they are looked at, and wait in a buffer until they are
consumed. No token is lost, repeated or passed over, at most two wait, and what is
read is the same.
-/

namespace JackVM

def Lexeme.token? : Lexeme → Option Token
  | .token t => some t
  | .malformed _ _ => none

@[simp] theorem Lexeme.token?_token (t : Token) : (token t).token? = some t := rfl

@[simp] theorem Lexeme.token?_comp_token : token? ∘ token = some := rfl

@[simp] theorem Lexeme.filterMap_malformed (span : Span) (reason : LexicalError)
    (rest : List Lexeme) :
    (malformed span reason :: rest).filterMap token? = rest.filterMap token? :=
  List.filterMap_cons_none rfl

-- ---------------------------------------------------------------------------
-- Cursors
-- ---------------------------------------------------------------------------

namespace Cursor

variable {c : Cursor} {l : Lexeme} {rest : List Lexeme}

def lexemes (c : Cursor) : List Lexeme := Lexeme.allFrom c.offset c.rest []

theorem dropWhile_of_lexemes_nil (h : c.lexemes = []) : c.rest.dropWhile Text.isBlank = [] := by
  cases hd : c.rest.dropWhile Text.isBlank with
  | nil => rfl
  | cons first others =>
    rw [lexemes, Lexeme.allFrom_of_cons hd, Lexeme.allFrom_eq] at h
    simp at h

theorem more_nil (h : c.lexemes = []) : c.more.1 = false ∧ c.more.2.lexemes = [] := by
  have hd := dropWhile_of_lexemes_nil h
  refine ⟨by simp [more, skipBlank, hd], ?_⟩
  rw [lexemes, more, skipBlank, hd, Lexeme.allFrom_nil]

theorem more_cons (h : c.lexemes = l :: rest) :
    c.more.1 = true ∧ c.more.2.next.1 = l.result ∧ c.more.2.next.2.lexemes = rest := by
  cases hd : c.rest.dropWhile Text.isBlank with
  | nil => simp [lexemes, Lexeme.allFrom_of_nil hd] at h
  | cons first others =>
    rw [lexemes, Lexeme.allFrom_of_cons hd, Lexeme.allFrom_eq] at h
    obtain ⟨rfl, rfl⟩ := List.cons.inj h
    rw [next_more hd]
    exact ⟨by simp [more, skipBlank, hd], rfl, rfl⟩

theorem source_next (c : Cursor) : c.next.2.source = c.source := by
  unfold next
  dsimp only
  split
  · rfl
  · generalize Lexeme.next _ _ _ = found
    obtain ⟨_ | _, _⟩ := found <;> rfl

end Cursor

-- ---------------------------------------------------------------------------
-- Operations
-- ---------------------------------------------------------------------------

def maxLookahead : Nat := 2

structure Lookahead where
  cursor : Cursor
  /-- What has been fetched and not been consumed. -/
  buffer : List Token := []
  /-- What has been consumed, first token first. -/
  consumed : List Token := []

abbrev Fetching := EStateM (CompileError Nat) Lookahead

namespace Fetching

def more : Fetching Bool := fun s => .ok s.cursor.more.1 { s with cursor := s.cursor.more.2 }

def advance : Fetching Token := fun s =>
  match s.cursor.next with
  | (.ok t, cursor) => .ok t { s with cursor }
  | (.error e, cursor) => .error e { s with cursor }

/-- Adds tokens to the buffer, as many as there is room for. -/
def fetch : Nat → Fetching Unit
  | 0 => return ()
  | room + 1 => do
    if ← more then
      let t ← advance
      modify fun s => { s with buffer := s.buffer ++ [t] }
      fetch room

/-- Fills the buffer up to `n` tokens; false if there are not so many. -/
def fill (n : Nat) : Fetching Bool := do
  fetch (n - (← get).buffer.length)
  return n ≤ (← get).buffer.length

def peek : Fetching (Option Token) := do
  let _ ← fill 1
  return (← get).buffer.head?

def check (kind : TokenKind) : Fetching Bool := do
  return (← peek).any (·.kind = kind)

def remove : Fetching Unit := modify fun s =>
  { s with buffer := s.buffer.tail, consumed := s.consumed ++ s.buffer.head?.toList }

def eat (kind : TokenKind) : Fetching Bool := do
  if ← check kind then
    remove
    return true
  else
    return false

def expect (expected : Expectation) : Fetching Token := do
  match ← peek with
  | some t => remove; return t
  | none => throw (.inSource (← get).cursor.source.utf8ByteSize (.unexpected expected none))

def left {α : Type} : EStateM.Result (CompileError Nat) Lookahead α → Lookahead
  | .ok _ s | .error _ s => s

inductive Operation
  | fill (n : Nat) (le : n ≤ maxLookahead)
  | peek
  | check (kind : TokenKind)
  | eat (kind : TokenKind)
  | expect (expected : Expectation)
  | remove

namespace Operation

def looks : Operation → Bool
  | .fill .. | .peek | .check _ => true
  | .eat _ | .expect _ | .remove => false

def width : Operation → Nat
  | .fill n _ => n
  | .remove => 0
  | _ => 1

def Answer : Operation → Type
  | .fill .. | .check _ | .eat _ => Bool
  | .peek => Option Token
  | .expect _ => Token
  | .remove => Unit

def perform : (o : Operation) → Fetching o.Answer
  | .fill n _ => Fetching.fill n
  | .peek => Fetching.peek
  | .check kind => Fetching.check kind
  | .eat kind => Fetching.eat kind
  | .expect expected => Fetching.expect expected
  | .remove => Fetching.remove

def read : (o : Operation) → Reading o.Answer
  | .fill n _ => return decide (n ≤ (← Reading.ahead n).length)
  | .peek => Reading.peek
  | .check kind => Reading.isNext kind
  | .eat kind => Reading.accept kind
  | .expect expected => Reading.take expected
  | .remove => Reading.skip

/-- What an operation leaves, also if it fails. -/
def after (o : Operation) (s : Lookahead) : Lookahead := left (o.perform s)

end Operation

-- ---------------------------------------------------------------------------
-- Filling
-- ---------------------------------------------------------------------------

end Fetching

namespace Lookahead

variable {s s' : Lookahead} {passed : List Lexeme}

/-- Lexemes have been fetched, and the tokens among them wait. -/
structure Fetched (s : Lookahead) (passed : List Lexeme) (s' : Lookahead) : Prop where
  source : s'.cursor.source = s.cursor.source
  lexemes : s.cursor.lexemes = passed ++ s'.cursor.lexemes
  buffer : s'.buffer = s.buffer ++ passed.filterMap Lexeme.token?
  consumed : s'.consumed = s.consumed

theorem Fetched.trans {s'' : Lookahead} {more : List Lexeme} (h : s.Fetched passed s')
    (h' : s'.Fetched more s'') : s.Fetched (passed ++ more) s'' where
  source := h'.source.trans h.source
  lexemes := by rw [h.lexemes, h'.lexemes, List.append_assoc]
  buffer := by rw [h'.buffer, h.buffer, List.filterMap_append, List.append_assoc]
  consumed := h'.consumed.trans h.consumed

end Lookahead

namespace Fetching

inductive Filling (s : Lookahead) (room : Nat) :
    EStateM.Result (CompileError Nat) Lookahead Unit → Prop
  | done (ts : List Token) {s' : Lookahead} : s.Fetched (ts.map .token) s' → ts.length ≤ room →
    (ts.length = room ∨ s'.cursor.lexemes = []) → Filling s room (.ok () s')
  | failed (ts : List Token) {span : Span} {reason : LexicalError} {s' : Lookahead} :
    s.Fetched (ts.map .token ++ [.malformed span reason]) s' → ts.length < room →
    Filling s room (.error (.inSource span.start (.lexical reason)) s')

theorem fetch_succ (room : Nat) (s : Lookahead) :
    fetch (room + 1) s = match s.cursor.more with
      | (false, cursor) => .ok () { s with cursor }
      | (true, between) =>
        match between.next with
        | (.ok t, cursor) => fetch room { s with cursor, buffer := s.buffer ++ [t] }
        | (.error e, cursor) => .error e { s with cursor } := by
  rw [fetch]
  simp only [bind, EStateM.bind, more]
  obtain ⟨found, between⟩ := s.cursor.more
  cases found with
  | false => rfl
  | true =>
    simp only [↓reduceIte, EStateM.bind, advance]
    obtain ⟨_ | _, _⟩ := between.next <;> rfl

theorem Filling.cons {s between : Lookahead} {t : Token} {room : Nat}
    {r : EStateM.Result (CompileError Nat) Lookahead Unit} (hfirst : s.Fetched [.token t] between)
    (h : Filling between room r) : Filling s (room + 1) r := by
  cases h with
  | done ts hf hle hend =>
    exact .done (t :: ts) (hfirst.trans hf) (Nat.succ_le_succ hle)
      (hend.imp_left fun h => congrArg Nat.succ h)
  | failed ts hf hlt =>
    exact .failed (t :: ts) (hfirst.trans hf) (Nat.succ_lt_succ hlt)

theorem fetch_filling (room : Nat) (s : Lookahead) : Filling s room (fetch room s) := by
  induction room generalizing s with
  | zero =>
    exact .done [] ⟨rfl, by simp, by simp, rfl⟩ (Nat.le_refl _) (.inl rfl)
  | succ room ih =>
    rw [fetch_succ]
    cases hl : s.cursor.lexemes with
    | nil =>
      obtain ⟨hmore, hleft⟩ := Cursor.more_nil hl
      rw [← Prod.eta s.cursor.more, hmore]
      exact .done [] ⟨rfl, by simp [hl, hleft], by simp, rfl⟩ (Nat.zero_le _) (.inr hleft)
    | cons l rest =>
      obtain ⟨hmore, hnext, hleft⟩ := Cursor.more_cons hl
      have hsource : s.cursor.more.2.next.2.source = s.cursor.source := Cursor.source_next _
      rw [← Prod.eta s.cursor.more, hmore]
      dsimp only
      rw [← Prod.eta s.cursor.more.2.next, hnext]
      cases l with
      | malformed span reason =>
        exact .failed [] ⟨hsource, by simp [hl, hleft], by simp, rfl⟩
          (Nat.succ_pos _)
      | token t =>
        have hfirst : s.Fetched [.token t]
            { s with cursor := s.cursor.more.2.next.2, buffer := s.buffer ++ [t] } :=
          ⟨hsource, by simp [hl, hleft], by simp [Lexeme.token?], rfl⟩
        exact .cons hfirst (ih _)

end Fetching

-- ---------------------------------------------------------------------------
-- What operations do
-- ---------------------------------------------------------------------------

namespace Lookahead

variable {s s' : Lookahead} {passed : List Lexeme}

def removed (s : Lookahead) : Lookahead :=
  { s with buffer := s.buffer.tail, consumed := s.consumed ++ s.buffer.head?.toList }

def stream (s : Lookahead) : TokenStream :=
  ⟨s.buffer.map .token ++ s.cursor.lexemes, s.cursor.source.utf8ByteSize⟩

def pending (s : Lookahead) : List Token := s.stream.lexemes.filterMap Lexeme.token?

/-- What fetching gives, seen on the stream. An error leaves the stream as it was. -/
def onStream {α : Type} (s : Lookahead) :
    EStateM.Result (CompileError Nat) Lookahead α → EStateM.Result (CompileError Nat) TokenStream α
  | .ok a s' => .ok a s'.stream
  | .error e _ => .error e s.stream

theorem pending_eq (s : Lookahead) :
    s.pending = s.buffer ++ s.cursor.lexemes.filterMap Lexeme.token? := by
  simp [pending, stream]

theorem Fetched.pending (h : s.Fetched passed s') : s'.pending = s.pending := by
  rw [pending_eq, pending_eq, h.buffer, h.lexemes, List.filterMap_append, List.append_assoc]

theorem Fetched.stream {ts : List Token} (h : s.Fetched (ts.map .token) s') :
    s'.stream = s.stream := by
  simp [Lookahead.stream, h.source, h.lexemes, h.buffer]

theorem skip_stream {t : Token} (h : s.buffer.head? = some t) :
    Reading.skip s.stream = .ok () s.removed.stream := by
  obtain ⟨rest, hb⟩ := List.head?_eq_some_iff.mp h
  show EStateM.Result.ok () { s.stream with lexemes := s.stream.lexemes.tail } = _
  simp [stream, removed, hb]

end Lookahead

namespace Fetching

section
variable (s : Lookahead)

theorem fill_eq (n : Nat) :
    fill n s = match fetch (n - s.buffer.length) s with
      | .ok _ s' => .ok (decide (n ≤ s'.buffer.length)) s'
      | .error e s' => .error e s' := by
  show (fetch (n - s.buffer.length) >>= fun _ => _) s = _
  simp only [bind, EStateM.bind]
  cases fetch (n - s.buffer.length) s <;> rfl

theorem peek_eq :
    peek s = match fetch (1 - s.buffer.length) s with
      | .ok _ s' => .ok s'.buffer.head? s'
      | .error e s' => .error e s' := by
  simp only [peek, bind, EStateM.bind, fill_eq]
  cases fetch (1 - s.buffer.length) s <;> rfl

theorem check_eq (kind : TokenKind) :
    check kind s = match peek s with
      | .ok t s' => .ok (t.any (·.kind = kind)) s'
      | .error e s' => .error e s' := by
  simp only [check, bind, EStateM.bind]
  cases peek s <;> rfl

theorem eat_eq (kind : TokenKind) :
    eat kind s = match peek s with
      | .ok t s' => if t.any (·.kind = kind) then .ok true s'.removed else .ok false s'
      | .error e s' => .error e s' := by
  simp only [eat, bind, EStateM.bind, check_eq]
  cases peek s with
  | error e s' => rfl
  | ok t s' =>
    dsimp only
    cases t.any (·.kind = kind) <;> rfl

theorem expect_eq (expected : Expectation) :
    expect expected s = match peek s with
      | .ok (some t) s' => .ok t s'.removed
      | .ok none s' =>
        .error (.inSource s'.cursor.source.utf8ByteSize (.unexpected expected none)) s'
      | .error e s' => .error e s' := by
  simp only [expect, bind, EStateM.bind]
  obtain ⟨_ | _, _⟩ | ⟨_, _⟩ := peek s <;> rfl

end

theorem left_fetch (room : Nat) (s : Lookahead) :
    ∃ passed, s.Fetched passed (left (fetch room s)) ∧
      (left (fetch room s)).buffer.length ≤ s.buffer.length + room := by
  have hfilling := fetch_filling room s
  generalize fetch room s = r at hfilling ⊢
  cases hfilling with
  | done ts hf hle _ => exact ⟨_, hf, by simp [left, hf.buffer, hle]⟩
  | failed ts hf hlt => exact ⟨_, hf, by simp [left, hf.buffer, Nat.le_of_lt hlt]⟩

theorem fetch_ok {s s' : Lookahead} {room : Nat} (h : fetch room s = .ok () s') :
    s'.stream = s.stream := by
  have hfilling := fetch_filling room s
  rw [h] at hfilling
  cases hfilling with
  | done ts hf _ _ => exact hf.stream

section
variable {s between : Lookahead} {o : Operation}

theorem perform_error {e : CompileError Nat}
    (h : fetch (o.width - s.buffer.length) s = .error e between) :
    o.perform s = .error e between := by
  cases o with
  | remove =>
    rw [Operation.width, Nat.zero_sub] at h
    cases h
  | _ =>
    simp only [Operation.width] at h
    simp only [Operation.perform, expect_eq, eat_eq, check_eq, peek_eq, fill_eq, h]
    rfl

/-- Once the buffer is filled up, an operation consumes the token in front or nothing. -/
theorem after_of_fetch (h : fetch (o.width - s.buffer.length) s = .ok () between) :
    o.after s = between ∨ o.looks = false ∧ o.after s = between.removed := by
  cases o with
  | remove =>
    rw [Operation.width, Nat.zero_sub] at h
    cases h
    exact .inr ⟨rfl, rfl⟩
  | fill n le =>
    have hf : fetch (n - s.buffer.length) s = .ok () between := h
    refine .inl (show left (fill n s) = between from ?_)
    rw [fill_eq, hf]
    rfl
  | _ =>
    have hf : fetch (1 - s.buffer.length) s = .ok () between := h
    simp only [Operation.after, Operation.perform, expect_eq, eat_eq, check_eq, peek_eq, hf]
    first
    | exact .inl rfl
    | split
      · exact .inr ⟨rfl, rfl⟩
      · exact .inl rfl
    | cases between.buffer.head? with
      | none => exact .inl rfl
      | some t => exact .inr ⟨rfl, rfl⟩

end

/-- The buffer is filled up, and perhaps the token in front is consumed then. -/
theorem after_cases (o : Operation) (s : Lookahead) :
    ∃ passed between, s.Fetched passed between ∧
      between.buffer.length ≤ max maxLookahead s.buffer.length ∧
      (o.after s = between ∨ o.looks = false ∧ o.after s = between.removed) ∧
      ∀ a s', o.perform s = .ok a s' → between.stream = s.stream := by
  have hwidth : o.width ≤ maxLookahead := by
    cases o with
    | fill n le => exact le
    | _ => simp [Operation.width, maxLookahead]
  obtain ⟨passed, hf, hlen⟩ := left_fetch (o.width - s.buffer.length) s
  refine ⟨passed, _, hf, by omega, ?_⟩
  cases h : fetch (o.width - s.buffer.length) s with
  | error e m =>
    have hperform := perform_error h
    refine ⟨.inl ?_, fun a s' ha => by simp [hperform] at ha⟩
    rw [Operation.after, hperform]
    rfl
  | ok _ m => exact ⟨after_of_fetch h, fun _ _ _ => fetch_ok h⟩

-- ---------------------------------------------------------------------------
-- Reading from the stream
-- ---------------------------------------------------------------------------

theorem tokens_append (ts : List Token) (rest : List Lexeme) (n : Nat) :
    Reading.tokens n (ts.map .token ++ rest) =
      if n ≤ ts.length then .ok (ts.take n)
      else (Reading.tokens (n - ts.length) rest).map (ts ++ ·) := by
  induction ts generalizing n with
  | nil =>
    cases n with
    | zero => cases rest <;> rfl
    | succ n => cases hr : Reading.tokens (n + 1) rest <;> simp [hr, Except.map]
  | cons t ts ih =>
    cases n with
    | zero => rfl
    | succ n =>
      simp only [List.map_cons, List.cons_append, Reading.tokens, ih, List.length_cons,
        Nat.add_le_add_iff_right, Nat.add_sub_add_right]
      split
      · rfl
      · cases Reading.tokens (n - ts.length) rest <;> rfl

theorem ahead_stream (n : Nat) (s : Lookahead) :
    Reading.ahead n s.stream = match fetch (n - s.buffer.length) s with
      | .ok _ s' => .ok (s'.buffer.take n) s'.stream
      | .error e _ => .error e s.stream := by
  have hfilling := fetch_filling (n - s.buffer.length) s
  generalize fetch (n - s.buffer.length) s = r at hfilling ⊢
  cases hfilling with
  | @done ts s' hf hle hend =>
    have htokens : Reading.tokens n s.stream.lexemes = .ok (s'.buffer.take n) := by
      rw [← hf.stream, Lookahead.stream, tokens_append]
      split
      · rfl
      · next hn =>
        have hlength : s'.buffer.length = s.buffer.length + ts.length := by simp [hf.buffer]
        have hnil : s'.cursor.lexemes = [] := hend.resolve_left (by omega)
        have hnone : Reading.tokens (n - s'.buffer.length) [] = .ok [] := by
          cases n - s'.buffer.length <;> rfl
        simp [hnil, hnone, Except.map, List.take_of_length_le (by omega : s'.buffer.length ≤ n)]
    simp only [Reading.ahead, htokens, hf.stream]
  | @failed ts span reason s' hf hlt =>
    have htokens : Reading.tokens n s.stream.lexemes =
        .error (.inSource span.start (.lexical reason)) := by
      have hsplit : s.stream.lexemes =
          (s.buffer ++ ts).map .token ++ .malformed span reason :: s'.cursor.lexemes := by
        simp [Lookahead.stream, hf.lexemes]
      have hlength : (s.buffer ++ ts).length < n := by
        rw [List.length_append]
        omega
      obtain ⟨k, hk⟩ : ∃ k, n - (s.buffer ++ ts).length = k + 1 :=
        ⟨n - (s.buffer ++ ts).length - 1, by omega⟩
      rw [hsplit, tokens_append, if_neg (Nat.not_le.mpr hlength), hk]
      rfl
    simp only [Reading.ahead, htokens]

theorem peek_stream (s : Lookahead) : Reading.peek s.stream = s.onStream (peek s) := by
  simp only [Reading.peek, bind, EStateM.bind, ahead_stream, peek_eq]
  cases fetch (1 - s.buffer.length) s with
  | error e s' => rfl
  | ok _ s' => simp [pure, EStateM.pure, Lookahead.onStream, List.head?_take]

theorem peek_ok {s s' : Lookahead} {t : Option Token} (h : peek s = .ok t s') :
    t = s'.buffer.head? ∧ s'.stream = s.stream := by
  rw [peek_eq] at h
  cases hf : fetch (1 - s.buffer.length) s with
  | error e m => simp [hf] at h
  | ok _ m =>
    simp only [hf, EStateM.Result.ok.injEq] at h
    obtain ⟨rfl, rfl⟩ := h
    exact ⟨rfl, fetch_ok hf⟩

theorem read_stream (o : Operation) (s : Lookahead) (h : o = .remove → s.buffer ≠ []) :
    o.read s.stream = s.onStream (o.perform s) := by
  cases o with
  | fill n le =>
    simp only [Operation.read, Operation.perform, fill_eq, bind, EStateM.bind, ahead_stream]
    cases fetch (n - s.buffer.length) s with
    | error e s' => rfl
    | ok _ s' =>
      show EStateM.Result.ok (decide (n ≤ (s'.buffer.take n).length)) s'.stream =
        .ok (decide (n ≤ s'.buffer.length)) s'.stream
      have hlength : n ≤ (s'.buffer.take n).length ↔ n ≤ s'.buffer.length := by
        rw [List.length_take]
        omega
      simp only [hlength]
  | peek => exact peek_stream s
  | check kind =>
    simp only [Operation.read, Operation.perform, Reading.isNext, check_eq, bind, EStateM.bind,
      peek_stream]
    cases peek s <;> rfl
  | eat kind =>
    simp only [Operation.read, Operation.perform, Reading.accept, Reading.isNext, eat_eq, bind,
      EStateM.bind, peek_stream]
    cases hp : peek s with
    | error e s' => rfl
    | ok t s' =>
      obtain ⟨rfl, hs⟩ := peek_ok hp
      cases hb : s'.buffer.head? with
      | none => rfl
      | some t =>
        simp only [Lookahead.onStream, Option.any_some, pure, EStateM.pure]
        by_cases hk : t.kind = kind
        · simp only [hk, EStateM.bind, Lookahead.skip_stream hb, decide_true, ↓reduceIte]
          rfl
        · simp only [hk, decide_false, ↓reduceIte, Bool.false_eq_true]
          rfl
  | expect expected =>
    simp only [Operation.read, Operation.perform, Reading.take, expect_eq, bind,
      EStateM.bind, peek_stream]
    cases hp : peek s with
    | error e s' => rfl
    | ok t s' =>
      obtain ⟨rfl, hs⟩ := peek_ok hp
      cases hb : s'.buffer.head? with
      | none => exact congrArg (EStateM.Result.error _) hs
      | some t =>
        show EStateM.bind Reading.skip (fun _ => pure t) s'.stream = .ok t s'.removed.stream
        rw [EStateM.bind, Lookahead.skip_stream hb]
        rfl
  | remove =>
    obtain ⟨t, rest, hb⟩ := List.exists_cons_of_ne_nil (h rfl)
    exact Lookahead.skip_stream (by rw [hb]; rfl)

-- ---------------------------------------------------------------------------
-- Runs
-- ---------------------------------------------------------------------------

def run (os : List Operation) (s : Lookahead) : Lookahead := os.foldl (fun s o => o.after s) s

/-- Lexemes have been passed, and the tokens among them are consumed or wait. -/
structure Kept (s : Lookahead) (passed : List Lexeme) (s' : Lookahead) : Prop where
  source : s'.cursor.source = s.cursor.source
  lexemes : s.cursor.lexemes = passed ++ s'.cursor.lexemes
  tokens : s'.consumed ++ s'.buffer = s.consumed ++ s.buffer ++ passed.filterMap Lexeme.token?
  buffer : s'.buffer.length ≤ max maxLookahead s.buffer.length

theorem Kept.refl (s : Lookahead) : Kept s [] s :=
  ⟨rfl, rfl, by simp, Nat.le_max_right ..⟩

theorem Kept.trans {s s' s'' : Lookahead} {passed more : List Lexeme} (h : Kept s passed s')
    (h' : Kept s' more s'') : Kept s (passed ++ more) s'' where
  source := h'.source.trans h.source
  lexemes := by rw [h.lexemes, h'.lexemes, List.append_assoc]
  tokens := by rw [h'.tokens, h.tokens, List.filterMap_append, List.append_assoc]
  buffer := Nat.le_trans h'.buffer (Nat.max_le.mpr ⟨Nat.le_max_left .., h.buffer⟩)

theorem after_kept (o : Operation) (s : Lookahead) : ∃ passed, Kept s passed (o.after s) := by
  obtain ⟨passed, between, hf, hlen, ho, -⟩ := after_cases o s
  have hbetween : Kept s passed between :=
    ⟨hf.source, hf.lexemes, by rw [hf.consumed, hf.buffer, List.append_assoc], hlen⟩
  refine ⟨passed, ?_⟩
  rcases ho with ho | ⟨-, ho⟩
  · rwa [ho]
  · rw [ho]
    refine ⟨hf.source, hf.lexemes, ?_, ?_⟩
    · rw [← hbetween.tokens]
      cases hb : between.buffer <;> simp [Lookahead.removed, hb]
    · exact Nat.le_trans (by simp [Lookahead.removed]) hlen

theorem run_kept (os : List Operation) (s : Lookahead) : ∃ passed, Kept s passed (run os s) := by
  induction os generalizing s with
  | nil => exact ⟨[], .refl s⟩
  | cons o os ih =>
    obtain ⟨passed, hfirst⟩ := after_kept o s
    obtain ⟨more, hrest⟩ := ih (o.after s)
    exact ⟨_, hfirst.trans hrest⟩

theorem lexemes_ofSource {source : String} {c : Cursor} {found : List Lexeme}
    (hl : lexemes source = .ok found) (hc : Cursor.ofSource source = .ok c) :
    c.lexemes = found ∧ c.source = source := by
  unfold JackVM.lexemes at hl
  unfold Cursor.ofSource at hc
  cases hu : uncommented source with
  | error e => simp [hu, Except.map] at hl
  | ok text =>
    simp only [hu, Except.map, Except.ok.injEq] at hl hc
    subst hc
    exact ⟨hl, rfl⟩

def Succeed : List Operation → Lookahead → Prop
  | [], _ => True
  | o :: os, s => (∃ a s', o.perform s = .ok a s') ∧ Succeed os (o.after s)

/-- What is consumed and what is left to be read make up the same until something fails. -/
theorem after_whole {o : Operation} {s : Lookahead} (h : ∃ a s', o.perform s = .ok a s') :
    (o.after s).consumed.map Lexeme.token ++ (o.after s).stream.lexemes =
      s.consumed.map Lexeme.token ++ s.stream.lexemes := by
  obtain ⟨passed, between, hf, -, ho, hstream⟩ := after_cases o s
  obtain ⟨a, s', ha⟩ := h
  rw [← hstream a s' ha, ← hf.consumed]
  rcases ho with ho | ⟨-, ho⟩
  · rw [ho]
  · rw [ho]
    cases hb : between.buffer <;> simp [Lookahead.removed, Lookahead.stream, hb]

theorem run_whole {os : List Operation} {s : Lookahead} (h : Succeed os s) :
    (run os s).consumed.map Lexeme.token ++ (run os s).stream.lexemes =
      s.consumed.map Lexeme.token ++ s.stream.lexemes := by
  induction os generalizing s with
  | nil => rfl
  | cons o os ih => exact (ih h.2).trans (after_whole h.1)

/-- From the start of a source, whatever operations are performed, also after some that
failed. -/
theorem run_keeps {source : String} {c : Cursor} {found : List Lexeme}
    (hl : lexemes source = .ok found) (hc : Cursor.ofSource source = .ok c)
    {os : List Operation} {s : Lookahead} (hs : s = run os { cursor := c }) :
    -- What has been consumed and what waits are the first tokens of the source, and
    -- its first lexemes unless there was a malformed one.
    s.consumed ++ s.buffer <+: found.filterMap Lexeme.token? ∧
    (Succeed os { cursor := c } → (s.consumed ++ s.buffer).map Lexeme.token <+: found) ∧
    s.consumed ++ s.pending = found.filterMap Lexeme.token? ∧
    s.buffer.length ≤ maxLookahead ∧
    -- To look changes nothing in what is still to be consumed; other operations consume
    -- the first token of that or nothing.
    (∀ o : Operation, o.looks →
      (o.after s).consumed = s.consumed ∧ (o.after s).pending = s.pending) ∧
    (∀ o : Operation, ∃ taken, taken.length ≤ 1 ∧ (o.after s).consumed = s.consumed ++ taken ∧
      s.pending = taken ++ (o.after s).pending) ∧
    -- The answers and errors are those of reading from the list of lexemes.
    Lookahead.stream { cursor := c } = ⟨found, source.utf8ByteSize⟩ ∧
    ∀ o : Operation, (o = .remove → s.buffer ≠ []) →
      o.read s.stream = s.onStream (o.perform s) := by
  obtain ⟨hfound, hsource⟩ := lexemes_ofSource hl hc
  obtain ⟨passed, hk⟩ := run_kept os { cursor := c }
  rw [← hs] at hk
  have hpassed : found = passed ++ s.cursor.lexemes := hfound.symm.trans hk.lexemes
  have htokens : s.consumed ++ s.buffer = passed.filterMap Lexeme.token? := by simpa using hk.tokens
  have hstream : Lookahead.stream { cursor := c } = ⟨found, source.utf8ByteSize⟩ := by
    simp [Lookahead.stream, hfound, hsource]
  refine ⟨?_, fun hsucceed => ?_, ?_, by simpa using hk.buffer, fun o ho => ?_, fun o => ?_,
    hstream, fun o => read_stream o s⟩
  · rw [htokens, hpassed, List.filterMap_append]
    exact List.prefix_append ..
  · have hwhole := run_whole hsucceed
    rw [← hs, hstream] at hwhole
    refine ⟨s.cursor.lexemes, ?_⟩
    simpa [Lookahead.stream] using hwhole
  · rw [Lookahead.pending_eq, ← List.append_assoc, htokens, hpassed, List.filterMap_append]
  · obtain ⟨_, between, hf, -, hcases, -⟩ := after_cases o s
    have hafter : o.after s = between := hcases.resolve_right (by simp [ho])
    exact hafter ▸ ⟨hf.consumed, hf.pending⟩
  · obtain ⟨_, between, hf, -, hcases, -⟩ := after_cases o s
    rcases hcases with hafter | ⟨-, hafter⟩
    · exact ⟨[], Nat.zero_le _, by simp [hafter, hf.consumed], by simp [hafter, hf.pending]⟩
    · refine ⟨between.buffer.head?.toList, ?_, ?_, ?_⟩
      · cases between.buffer <;> simp
      · simp [hafter, Lookahead.removed, hf.consumed]
      · rw [← hf.pending, hafter, Lookahead.pending_eq, Lookahead.pending_eq]
        cases hb : between.buffer <;> simp [Lookahead.removed, hb]

def wideNumber : String := "x ( 99999 y"

def aroundNumber : List Operation :=
  [.fill 2 (Nat.le_refl _), .expect .anyToken, .fill 2 (Nat.le_refl _), .eat (.symbol '('),
    .check (.symbol ')'), .expect .anyToken]

theorem run_keeps_around :
    (run aroundNumber { cursor := ⟨wideNumber, 0, wideNumber.toList⟩ }).consumed ++
        (run aroundNumber { cursor := ⟨wideNumber, 0, wideNumber.toList⟩ }).buffer <+:
      [⟨.identifier "x", ⟨0, 1⟩⟩, ⟨.symbol '(', ⟨2, 3⟩⟩, ⟨.identifier "y", ⟨10, 11⟩⟩] := by
  have hl : lexemes wideNumber = .ok [.token ⟨.identifier "x", ⟨0, 1⟩⟩,
      .token ⟨.symbol '(', ⟨2, 3⟩⟩, .malformed ⟨4, 9⟩ (.integerRange "99999"),
      .token ⟨.identifier "y", ⟨10, 11⟩⟩] := by
    decide +kernel
  have hu : uncommented wideNumber = .ok wideNumber.toList := by decide
  have hc : Cursor.ofSource wideNumber = .ok ⟨wideNumber, 0, wideNumber.toList⟩ := by
    simp [Cursor.ofSource, hu, Except.map]
  exact (run_keeps hl hc rfl).1

end Fetching

end JackVM
