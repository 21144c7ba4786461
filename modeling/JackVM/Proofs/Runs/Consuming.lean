import JackVM.Proofs.Grammar.ClassSound
import JackVM.Proofs.Prediction.Reading

/-!
# Tokens that are passed

A step that succeeds has passed some tokens and nothing else. `SameAfter` compares two
steps wherever enough tokens have been passed since some place, and says how many more
those pass that succeed. Its rules count on what has been passed.
-/

namespace JackVM

namespace TokenStream

variable {s t u : TokenStream} {k l : Nat}

/-- `t` is what is left of `s` when `k` tokens or more have been passed. -/
def Passed (s : TokenStream) (k : Nat) (t : TokenStream) : Prop :=
  ∃ us, Reads us s t ∧ k ≤ us.length

theorem Passed.refl (s : TokenStream) : s.Passed 0 s := ⟨[], rfl, Nat.le_refl 0⟩

theorem Passed.mono (h : s.Passed k t) (hl : l ≤ k) : s.Passed l t :=
  let ⟨us, hs, hk⟩ := h
  ⟨us, hs, Nat.le_trans hl hk⟩

theorem Passed.trans (h : s.Passed k t) (h' : t.Passed l u) : s.Passed (k + l) u := by
  obtain ⟨us, hs, hk⟩ := h
  obtain ⟨vs, ht, hl⟩ := h'
  exact ⟨us ++ vs, hs.trans ht, by rw [List.length_append]; exact Nat.add_le_add hk hl⟩

theorem Next.passed {kind : TokenKind} (h : s.Next kind t) : s.Passed 1 t :=
  ⟨[kind], h.reads, Nat.le_refl 1⟩

theorem passed_of_eq (h : t = s) : s.Passed 0 t := h ▸ .refl s

theorem Passed.lexemes_le (h : s.Passed k t) : t.lexemes.length + k ≤ s.lexemes.length := by
  obtain ⟨us, hs, hk⟩ := h
  have := hs.length_le
  omega

theorem Passed.kinds_le (h : s.Passed k t) : t.kinds.length + k ≤ s.kinds.length := by
  obtain ⟨us, hs, hk⟩ := h
  rw [hs.kinds, List.length_append]
  omega

end TokenStream

namespace Compile

open TokenStream

variable {ω α β γ : Type} {start : TokenStream} {k l : Nat}

/-- Once `k` tokens have been passed since `start`, both steps are the same, and one that
succeeds with `a` passes `m a` more of them at least. -/
structure SameAfter (start : TokenStream) (k : Nat) (m : α → Nat) (x y : Compile ω α) : Prop where
  eq : ∀ s, start.Passed k s.tokens → x s = y s
  passes : ∀ s a s', start.Passed k s.tokens → x s = .ok a s' → s.tokens.Passed (m a) s'.tokens

-- ---------------------------------------------------------------------------
-- Rules
-- ---------------------------------------------------------------------------

section
variable {m : α → Nat} {p : β → Nat} {x y : Compile ω α} {f g : α → Compile ω β}

theorem bind_same {s : CompileState ω} (h : x s = y s)
    (h' : ∀ a t, x s = .ok a t → f a t = g a t) : (x >>= f) s = (y >>= g) s := by
  show EStateM.bind x f s = EStateM.bind y g s
  unfold EStateM.bind
  rw [← h]
  cases hx : x s with
  | ok a t => exact h' a t hx
  | error e t => rfl

theorem SameAfter.mono {n : α → Nat} (h : SameAfter start k m x y) (hn : ∀ a, n a ≤ m a) :
    SameAfter start k n x y where
  eq := h.eq
  passes s a s' hs hx := (h.passes s a s' hs hx).mono (hn a)

theorem SameAfter.bind {q : α → β → Nat} (h : SameAfter start k m x y)
    (h' : ∀ a, SameAfter start (k + m a) (q a) (f a) (g a)) (hp : ∀ a b, p b ≤ m a + q a b) :
    SameAfter start k p (x >>= f) (y >>= g) := by
  constructor
  · exact fun s hs => bind_same (h.eq s hs) fun a t hx =>
      (h' a).eq t (hs.trans (h.passes s a t hs hx))
  · intro s b s' hs hb
    obtain ⟨a, t, hx, hf⟩ := bind_ok.mp hb
    have hfirst := h.passes s a t hs hx
    exact (hfirst.trans ((h' a).passes t b s' (hs.trans hfirst) hf)).mono (hp a b)

/-- What is passed later counts. -/
theorem SameAfter.then (h : SameAfter start k m x y)
    (h' : ∀ a, SameAfter start (k + m a) p (f a) (g a)) :
    SameAfter start k p (x >>= f) (y >>= g) := h.bind h' fun _ _ => Nat.le_add_left ..

/-- What is passed first counts. -/
theorem SameAfter.past (h : SameAfter start k (fun _ => 1) x y)
    (h' : ∀ a, SameAfter start (k + 1) (fun _ => 0) (f a) (g a)) (hp : ∀ b, p b ≤ 1) :
    SameAfter start k p (x >>= f) (y >>= g) := h.bind h' fun _ b => hp b

theorem SameAfter.ifSome {x y : Compile ω (Option γ)} {f g : Option γ → Compile ω β}
    (h : SameAfter start k (·.isSome.toNat) x y)
    (hs : ∀ a, SameAfter start (k + 1) (fun _ => 0) (f (some a)) (g (some a)))
    (hn : SameAfter start k p (f none) (g none)) (hp : ∀ b, p b ≤ 1) :
    SameAfter start k p (x >>= f) (y >>= g) := by
  refine h.bind (q := fun found b => if found.isSome then 0 else p b) (fun found => ?_)
    fun found b => ?_
  · cases found with
    | some a => exact hs a
    | none => exact hn
  · cases found with
    | some a => exact hp b
    | none => exact Nat.le_add_left ..

theorem SameAfter.ifTrue {x y : Compile ω Bool} {f g : Bool → Compile ω β}
    (h : SameAfter start k Bool.toNat x y)
    (ht : SameAfter start (k + 1) (fun _ => 0) (f true) (g true))
    (hf : SameAfter start k p (f false) (g false)) (hp : ∀ b, p b ≤ 1) :
    SameAfter start k p (x >>= f) (y >>= g) := by
  refine h.bind (q := fun found b => if found then 0 else p b) (fun found => ?_) fun found b => ?_
  · cases found with
    | true => exact ht
    | false => exact hf
  · cases found with
    | true => exact hp b
    | false => exact Nat.le_add_left ..

theorem same_pure {a : α} (h : m a = 0) : SameAfter start k m (pure a : Compile ω α) (pure a) where
  eq _ _ := rfl
  passes s b s' _ hb := by
    obtain ⟨rfl, rfl⟩ := pure_ok.mp hb
    rw [h]
    exact .refl _

theorem same_keep (h : ∀ s a s', x s = .ok a s' → s'.tokens = s.tokens) :
    SameAfter start k (fun _ => 0) x x where
  eq _ _ := rfl
  passes s a s' _ hx := passed_of_eq (h s a s' hx)

theorem same_lift {r : Reading α} (h : ∀ t a t', r t = .ok a t' → t.Passed (m a) t') :
    SameAfter start k m (liftM r : Compile ω α) (liftM r) where
  eq _ _ := rfl
  passes := by
    rintro ⟨tokens, context, out⟩ a s' - hx
    simp only [liftM, monadLift, MonadLift.monadLift] at hx
    cases hr : r tokens with
    | ok b t =>
      rw [hr] at hx
      cases hx
      exact h tokens a t hr
    | error e t =>
      rw [hr] at hx
      cases hx

end

-- ---------------------------------------------------------------------------
-- Reading
-- ---------------------------------------------------------------------------

section
variable {m : α → Nat}

theorem same_unexpected (expected : Expectation) (t : Token) :
    SameAfter start k m (liftM (Reading.unexpected expected t : Reading α) : Compile ω α)
      (liftM (Reading.unexpected expected t : Reading α)) :=
  same_lift fun _ _ _ h => (Reading.unexpected_ok.mp h).elim

theorem same_take (expected : Expectation) :
    SameAfter start k (fun _ => 1) (liftM (Reading.take expected) : Compile ω Token)
      (liftM (Reading.take expected)) :=
  same_lift fun _ _ _ h => (Reading.next_of_take h).passed

theorem same_symbol (c : Char) :
    SameAfter start k (fun _ => 1) (liftM (Reading.symbol c) : Compile ω Unit)
      (liftM (Reading.symbol c)) :=
  same_lift fun _ _ _ h => (Reading.symbol_ok.mp h).passed

theorem same_keyword (word : Keyword) :
    SameAfter start k (fun _ => 1) (liftM (Reading.keyword word) : Compile ω Unit)
      (liftM (Reading.keyword word)) :=
  same_lift fun _ _ _ h => (Reading.keyword_ok.mp h).passed

theorem same_name (expected : Expectation) :
    SameAfter start k (fun _ => 1) (liftM (Reading.name expected) : Compile ω Reading.Named)
      (liftM (Reading.name expected)) :=
  same_lift fun _ _ _ h => (Reading.name_ok h).passed

theorem same_accept (kind : TokenKind) :
    SameAfter start k Bool.toNat (liftM (Reading.accept kind) : Compile ω Bool)
      (liftM (Reading.accept kind)) := by
  refine same_lift fun t found t' h => ?_
  rcases Reading.accept_ok h with ⟨rfl, hn⟩ | ⟨rfl, rfl⟩
  · exact hn.passed
  · exact .refl _

theorem same_isNext (kind : TokenKind) :
    SameAfter start k (fun _ => 0) (liftM (Reading.isNext kind) : Compile ω Bool)
      (liftM (Reading.isNext kind)) :=
  same_lift fun _ _ _ h => passed_of_eq (Reading.isNext_ok h).1

theorem same_nextKeyword :
    SameAfter start k (fun _ => 0) (liftM Reading.nextKeyword : Compile ω (Option Keyword))
      (liftM Reading.nextKeyword) :=
  same_lift fun _ _ _ h => passed_of_eq (Reading.nextKeyword_ok h).1

theorem same_peek :
    SameAfter start k (fun _ => 0) (liftM Reading.peek : Compile ω (Option Token))
      (liftM Reading.peek) :=
  same_lift fun _ _ _ h => passed_of_eq (Reading.peek_ok h)

theorem same_atCall :
    SameAfter start k (fun _ => 0) (liftM atCall : Compile ω Bool) (liftM atCall) :=
  same_lift fun _ _ _ h => passed_of_eq (readCall_ok h)

theorem same_typeName :
    SameAfter start k (fun _ => 1) (liftM typeName : Compile ω String) (liftM typeName) :=
  same_lift fun _ _ _ h =>
    let ⟨_, _, hn⟩ := readType_ok h
    hn.passed

theorem same_returnType :
    SameAfter start k (fun _ => 1) (liftM returnType : Compile ω Bool) (liftM returnType) :=
  same_lift fun _ _ _ h =>
    let ⟨_, _, hn⟩ := readReturnType_ok h
    hn.passed

theorem same_pick {pick : TokenKind → Option α} {r : Reading (Option α)}
    (hr : Prediction.Picks pick r) :
    SameAfter start k (·.isSome.toNat) (liftM r : Compile ω (Option α)) (liftM r) := by
  refine same_lift ?_
  rintro ⟨_ | ⟨⟨kind, span⟩ | ⟨span, reason⟩, rest⟩, stop⟩ found t h
  · rw [hr.stop] at h
    cases h
    exact .refl _
  · rw [hr.token] at h
    cases hp : pick kind with
    | some a =>
      rw [hp] at h
      cases h
      have hn : TokenStream.Next kind ⟨.token ⟨kind, span⟩ :: rest, stop⟩ ⟨rest, stop⟩ :=
        ⟨span, rfl, rfl⟩
      exact hn.passed
    | none =>
      rw [hp] at h
      cases h
      exact .refl _
  · obtain ⟨s, hs⟩ := hr.malformed span reason rest stop
    rw [hs] at h
    cases h

end

-- ---------------------------------------------------------------------------
-- Steps that read nothing
-- ---------------------------------------------------------------------------

section
variable {m : α → Nat}

theorem same_fail (offset : Nat) (error : SemanticError) :
    SameAfter start k m (fail offset error : Compile ω α) (fail offset error) where
  eq _ _ := rfl
  passes _ _ _ _ h := (throw_ok.mp h).elim

theorem same_context : SameAfter start k (fun _ => 0) (context : Compile ω Context) context :=
  same_keep fun _ _ _ h => by cases h; rfl

theorem same_modifyContext (f : Context → Context) :
    SameAfter start k (fun _ => 0) (modifyContext f : Compile ω Unit) (modifyContext f) :=
  same_keep fun _ _ _ h => by cases h; rfl

theorem same_find? (name : String) :
    SameAfter start k (fun _ => 0) (find? name : Compile ω (Option Variable)) (find? name) :=
  same_keep fun _ _ _ h => by cases h; rfl

theorem same_newLabel : SameAfter start k (fun _ => 0) (newLabel : Compile ω String) newLabel :=
  same_keep fun _ _ _ h => by cases h; rfl

theorem same_onSink (x : EStateM SinkError ω α) :
    SameAfter start k (fun _ => 0) (onSink x : Compile ω α) (onSink x) := by
  refine same_keep ?_
  rintro ⟨tokens, context, out⟩ a s' h
  unfold onSink at h
  cases hx : x out with
  | ok b out' =>
    simp only [hx] at h
    cases h
    rfl
  | error e out' =>
    simp only [hx] at h
    cases h

theorem same_lookup (v : Reading.Named) :
    SameAfter start k (fun _ => 0) (lookup v : Compile ω Variable) (lookup v) := by
  refine (same_find? v.name).then fun found => ?_
  cases found with
  | some found => exact same_pure rfl
  | none => exact same_fail _ _

theorem same_declare (v : Reading.Named) (type : String) (kind : VariableKind) :
    SameAfter start k (fun _ => 0) (declare v type kind : Compile ω Unit)
      (declare v type kind) := by
  refine same_context.then fun c => ?_
  cases c.declarations.declare? v.name type kind with
  | some found => exact same_modifyContext _
  | none => exact same_fail _ _

theorem same_declareReceiver (kind : SubroutineKind) (offset : Nat) :
    SameAfter start k (fun _ => 0) (declareReceiver kind offset : Compile ω Unit)
      (declareReceiver kind offset) := by
  unfold declareReceiver
  split
  · exact same_context.then fun c => same_declare _ c.className .arg
  · exact same_pure rfl

theorem same_addInWord (a b : Nat) :
    SameAfter start k (fun _ => 0) (addInWord a b : Compile ω Nat) (addInWord a b) := by
  unfold addInWord
  split
  · exact same_pure rfl
  · exact same_keep fun _ _ _ h => (throw_ok.mp h).elim

end

section
variable [InstructionSink ω]

theorem same_emit (i : Instruction) :
    SameAfter start k (fun _ => 0) (emit i : Compile ω Unit) (emit i) := same_onSink _

theorem same_emitPointAt :
    SameAfter start k (fun _ => 0) (emitPointAt : Compile ω Unit) emitPointAt :=
  (same_emit _).then fun _ => same_emit _

theorem same_emitCharacters (offset : Nat) (cs : List Char) :
    SameAfter start k (fun _ => 0) (emitCharacters offset cs : Compile ω Unit)
      (emitCharacters offset cs) := by
  induction cs with
  | nil => exact same_pure rfl
  | cons c cs ih =>
    have hrest := (same_emit (.push .constant c.toNat)).then fun _ =>
      (same_emit (.call "String.appendChar" 2)).then fun _ => ih
    unfold emitCharacters
    split
    · exact (same_fail (m := fun _ => 0) _ _).then fun _ => hrest
    · exact hrest

theorem same_stringTerm (value : String) (offset : Nat) :
    SameAfter start k (fun _ => 0) (stringTerm value offset : Compile ω Unit)
      (stringTerm value offset) := by
  have hcharacters : SameAfter start k (fun _ => 0)
      (emitCharacters offset value.toList : Compile ω Unit) (emitCharacters offset value.toList) :=
    same_emitCharacters offset value.toList
  have hrest := (same_emit (.push .constant value.length)).then fun _ =>
    (same_emit (.call "String.new" 1)).then fun _ => hcharacters
  unfold stringTerm
  split
  · exact (same_fail (m := fun _ => 0) _ _).then fun _ => hrest
  · exact hrest

theorem same_prologue (kind : SubroutineKind) :
    SameAfter start k (fun _ => 0) (prologue kind : Compile ω Unit) (prologue kind) := by
  cases kind with
  | constructor =>
    exact same_context.then fun _ => (same_emit _).then fun _ => (same_emit _).then fun _ =>
      same_emit _
  | method => exact (same_emit _).then fun _ => same_emit _
  | function => exact same_pure rfl

end

-- ---------------------------------------------------------------------------
-- Names, and what they name
-- ---------------------------------------------------------------------------

theorem same_declareName (expected : Expectation) (type : String) (kind : VariableKind) :
    SameAfter start k (fun _ => 1) (declareName expected type kind : Compile ω Unit)
      (declareName expected type kind) :=
  (same_name _).past (fun v => same_declare v type kind) fun _ => Nat.le_refl 1

theorem same_callee [InstructionSink ω] :
    SameAfter start k (fun _ => 1) (callee : Compile ω (String × Nat)) callee := by
  refine (same_name _).past (fun v => ?_) fun _ => Nat.le_refl 1
  refine (same_accept _).ifTrue ?_ ?_ fun _ => Nat.zero_le 1
  · refine (same_name _).then fun m => (same_find? v.name).then fun receiver => ?_
    cases receiver with
    | none => exact same_pure rfl
    | some receiver => exact (same_emit _).then fun _ => same_pure rfl
  · refine (same_find? v.name).then fun found => ?_
    have hpush {l : Nat} : SameAfter start l (fun _ => 0)
        (do emit (.push .pointer 0); return ((← context).className ++ "." ++ v.name, 1) :
          Compile ω (String × Nat))
        (do emit (.push .pointer 0); return ((← context).className ++ "." ++ v.name, 1)) :=
      (same_emit _).then fun _ => same_context.then fun _ => same_pure rfl
    cases found with
    | none => exact hpush
    | some _ => exact (same_fail (m := fun _ => 0) _ _).then fun _ => hpush

end Compile

end JackVM
