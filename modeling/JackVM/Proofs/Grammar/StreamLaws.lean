import JackVM.Token.Stream

/-!
# Reading tokens

What each reading step needs to succeed and what it leaves. `Next` and `Reads`
say which tokens a stream starts with, `Stops` which it does not start with.
Only the kinds of tokens count, never the places they were read from.
-/

namespace JackVM

-- ---------------------------------------------------------------------------
-- Steps that may fail
-- ---------------------------------------------------------------------------

section
variable {ε σ α β : Type} {x : EStateM ε σ α} {f : α → EStateM ε σ β} {s s' : σ}

theorem bind_ok {b : β} :
    (x >>= f) s = .ok b s' ↔ ∃ a m, x s = .ok a m ∧ f a m = .ok b s' := by
  show EStateM.bind x f s = .ok b s' ↔ _
  unfold EStateM.bind
  cases x s with
  | ok a m =>
    constructor
    · exact fun h => ⟨a, m, rfl, h⟩
    · rintro ⟨_, _, h, h'⟩; cases h; exact h'
  | error e m => simp

theorem bind_error {e : ε} :
    (x >>= f) s = .error e s' ↔ x s = .error e s' ∨ ∃ a m, x s = .ok a m ∧ f a m = .error e s' := by
  show EStateM.bind x f s = .error e s' ↔ _
  unfold EStateM.bind
  cases x s with
  | ok a m => simp [and_assoc]
  | error e m => simp

theorem bind_run {a : α} {m : σ} (h : x s = .ok a m) : (x >>= f) s = f a m := by
  show EStateM.bind x f s = f a m
  simp [EStateM.bind, h]

theorem bind_to {a : α} {m : σ} {r : EStateM.Result ε σ β} (h : x s = .ok a m) (h' : f a m = r) :
    (x >>= f) s = r := (bind_run h).trans h'

theorem pure_ok {a b : α} : (pure a : EStateM ε σ α) s = .ok b s' ↔ b = a ∧ s' = s := by
  show EStateM.Result.ok a s = .ok b s' ↔ _
  simp [eq_comm]

theorem throw_ok {e : ε} {a : α} : (throw e : EStateM ε σ α) s = .ok a s' ↔ False := by
  constructor <;> intro h <;> cases h

end

-- ---------------------------------------------------------------------------
-- Streams
-- ---------------------------------------------------------------------------

namespace TokenStream

/-- The first token has this kind, and `t` is what follows it. -/
def Next (kind : TokenKind) (s t : TokenStream) : Prop :=
  ∃ span, s.lexemes = .token ⟨kind, span⟩ :: t.lexemes ∧ t.stop = s.stop

/-- The stream starts with tokens of these kinds, and `t` is what follows them. -/
def Reads : List TokenKind → TokenStream → TokenStream → Prop
  | [], s, t => t = s
  | kind :: kinds, s, t => ∃ m, s.Next kind m ∧ Reads kinds m t

/-- The stream is at its end or at a token of none of these kinds. -/
def Stops (kinds : List TokenKind) (s : TokenStream) : Prop :=
  match s.lexemes with
  | [] => True
  | .token t :: _ => t.kind ∉ kinds
  | .malformed _ _ :: _ => False

theorem Next.unique {kind kind' : TokenKind} {s t t' : TokenStream} (h : s.Next kind t)
    (h' : s.Next kind' t') : t = t' := by
  obtain ⟨ls, stop⟩ := s
  obtain ⟨ls, stop⟩ := t
  obtain ⟨ls', stop'⟩ := t'
  obtain ⟨span, hs, rfl⟩ := h
  obtain ⟨span', hs', rfl⟩ := h'
  cases hs.symm.trans hs'
  rfl

theorem Next.reads {kind : TokenKind} {s t : TokenStream} (h : s.Next kind t) :
    Reads [kind] s t := ⟨t, h, rfl⟩

theorem reads_append {kinds more : List TokenKind} {s t : TokenStream} :
    Reads (kinds ++ more) s t ↔ ∃ m, Reads kinds s m ∧ Reads more m t := by
  induction kinds generalizing s with
  | nil => simp [Reads]
  | cons kind kinds ih => simp only [List.cons_append, Reads, ih]; grind

theorem Reads.trans {kinds more : List TokenKind} {s m t : TokenStream} (h : Reads kinds s m)
    (h' : Reads more m t) : Reads (kinds ++ more) s t := reads_append.mpr ⟨m, h, h'⟩

theorem Next.stops {kind : TokenKind} {kinds : List TokenKind} {s t : TokenStream}
    (h : s.Next kind t) (hk : kind ∉ kinds) : s.Stops kinds := by
  obtain ⟨span, hs, -⟩ := h
  simpa [Stops, hs] using hk

theorem Reads.next {kind : TokenKind} {kinds : List TokenKind} {s t : TokenStream}
    (h : Reads (kind :: kinds) s t) : ∃ m, s.Next kind m :=
  h.imp fun _ hm => hm.1

theorem Reads.stops {kind : TokenKind} {kinds more : List TokenKind} {s t : TokenStream}
    (h : Reads (kind :: kinds) s t) (hk : kind ∉ more) : s.Stops more :=
  h.choose_spec.1.stops hk

/-- Before tokens there is no malformed lexeme. -/
theorem Reads.stops_nil {kinds : List TokenKind} {s t : TokenStream} (h : Reads kinds s t)
    (ht : t.Stops []) : s.Stops [] := by
  cases kinds with
  | nil => exact h ▸ ht
  | cons kind kinds => exact h.stops List.not_mem_nil

theorem Stops.cases {kinds : List TokenKind} {s : TokenStream} (h : s.Stops kinds) :
    s.lexemes = [] ∨ ∃ kind t, s.Next kind t ∧ kind ∉ kinds := by
  obtain ⟨_ | ⟨l | l, rest⟩, stop⟩ := s
  · exact .inl rfl
  · exact .inr ⟨l.kind, ⟨rest, stop⟩, ⟨l.span, rfl, rfl⟩, h⟩
  · exact h.elim

theorem Stops.mono {kinds fewer : List TokenKind} {s : TokenStream} (h : s.Stops kinds)
    (hsub : fewer ⊆ kinds) : s.Stops fewer := by
  unfold Stops at h ⊢
  split <;> simp_all
  exact fun hm => h (hsub hm)

theorem reads_all (ts : List Token) (stop : Nat) :
    Reads (ts.map Token.kind) ⟨ts.map Lexeme.token, stop⟩ ⟨[], stop⟩ := by
  induction ts with
  | nil => rfl
  | cons t ts ih => exact ⟨⟨ts.map Lexeme.token, stop⟩, ⟨t.span, rfl, rfl⟩, ih⟩

theorem Reads.split {kinds : List TokenKind} {s t : TokenStream} (h : Reads kinds s t) :
    ∃ ts : List Token, s.lexemes = ts.map Lexeme.token ++ t.lexemes ∧ ts.map Token.kind = kinds ∧
      t.stop = s.stop := by
  induction kinds generalizing s with
  | nil => exact ⟨[], by rw [show t = s from h]; rfl, rfl, by rw [show t = s from h]⟩
  | cons kind kinds ih =>
    obtain ⟨m, ⟨span, hs, hstop⟩, hm⟩ := h
    obtain ⟨ts, hl, hk, ht⟩ := ih hm
    exact ⟨⟨kind, span⟩ :: ts, by simp [hs, hl], by simp [hk], ht.trans hstop⟩

theorem Reads.to_end {kinds : List TokenKind} {s : TokenStream} {stop : Nat}
    (h : Reads kinds s ⟨[], stop⟩) :
    ∃ ts : List Token, s.lexemes = ts.map Lexeme.token ∧ ts.map Token.kind = kinds := by
  obtain ⟨ts, hl, hk, -⟩ := h.split
  exact ⟨ts, by rw [hl, List.append_nil], hk⟩

theorem Reads.length_le {kinds : List TokenKind} {s t : TokenStream} (h : Reads kinds s t) :
    kinds.length + t.lexemes.length = s.lexemes.length := by
  induction kinds generalizing s with
  | nil => rw [show t = s from h]; simp
  | cons kind kinds ih =>
    obtain ⟨m, ⟨span, hs, -⟩, hm⟩ := h
    rw [hs, List.length_cons, List.length_cons, ← ih hm]
    omega

end TokenStream

-- ---------------------------------------------------------------------------
-- Reading steps
-- ---------------------------------------------------------------------------

namespace Reading

open TokenStream

variable {s t m : TokenStream}

theorem peek_next {kind : TokenKind} (h : s.Next kind t) :
    ∃ span, peek s = .ok (some ⟨kind, span⟩) s := by
  obtain ⟨span, hs, -⟩ := h
  obtain ⟨ls, stop⟩ := s
  subst hs
  exact ⟨span, rfl⟩

theorem peek_ok {found : Option Token} (h : peek s = .ok found t) : t = s := by
  obtain ⟨_ | ⟨l | l, rest⟩, stop⟩ := s <;> cases h <;> rfl

theorem peek_none (h : peek s = .ok none t) : s.lexemes = [] := by
  obtain ⟨_ | ⟨l | l, rest⟩, stop⟩ := s
  · rfl
  · cases h
  · cases h

theorem ahead_last {kind : TokenKind} (h : s.Next kind t) (ht : t.lexemes = []) :
    ∃ span, ahead 2 s = .ok [⟨kind, span⟩] s := by
  obtain ⟨span, hs, -⟩ := h
  obtain ⟨ls, stop⟩ := s
  subst hs
  exact ⟨span, by simp only [ahead, ht]; rfl⟩

theorem ahead_next {kind next : TokenKind} (h : s.Next kind t) (ht : t.Next next m) :
    ∃ span span', ahead 2 s = .ok [⟨kind, span⟩, ⟨next, span'⟩] s := by
  obtain ⟨span, hs, -⟩ := h
  obtain ⟨span', ht, -⟩ := ht
  obtain ⟨ls, stop⟩ := s
  subst hs
  exact ⟨span, span', by simp only [ahead, ht]; rfl⟩

theorem take_ok {expected : Expectation} {found : Token} :
    take expected s = .ok found t ↔
      s.lexemes = .token found :: t.lexemes ∧ t.stop = s.stop := by
  obtain ⟨_ | ⟨l | l, rest⟩, stop⟩ := s
  · constructor
    · intro h; cases h
    · rintro ⟨h, -⟩; cases h
  · rw [take_token]
    constructor
    · intro h; cases h; exact ⟨rfl, rfl⟩
    · rintro ⟨h, h'⟩; cases h; cases t; cases h'; rfl
  · constructor
    · intro h; cases h
    · rintro ⟨h, -⟩; cases h

theorem next_of_take {expected : Expectation} {found : Token}
    (h : take expected s = .ok found t) : s.Next found.kind t :=
  ⟨found.span, (take_ok.mp h).1, (take_ok.mp h).2⟩

theorem take_next (expected : Expectation) {kind : TokenKind} (h : s.Next kind t) :
    ∃ span, take expected s = .ok ⟨kind, span⟩ t := by
  obtain ⟨span, h⟩ := h
  exact ⟨span, take_ok.mpr h⟩

theorem unexpected_ok {α : Type} {expected : Expectation} {found : Token} {a : α} :
    unexpected expected found s = .ok a t ↔ False := throw_ok

theorem symbol_ok {c : Char} {u : Unit} : symbol c s = .ok u t ↔ s.Next (.symbol c) t := by
  simp only [symbol, bind_ok]
  constructor
  · rintro ⟨found, m, hm, h⟩
    split at h
    · next hk => exact hk ▸ (pure_ok.mp h).2 ▸ next_of_take hm
    · exact (unexpected_ok.mp h).elim
  · intro h
    obtain ⟨span, hm⟩ := take_next _ h
    exact ⟨_, _, hm, by simp [pure_ok]⟩

theorem keyword_ok {word : Keyword} {u : Unit} :
    keyword word s = .ok u t ↔ s.Next (.keyword word) t := by
  simp only [keyword, bind_ok]
  constructor
  · rintro ⟨found, m, hm, h⟩
    split at h
    · next hk => exact hk ▸ (pure_ok.mp h).2 ▸ next_of_take hm
    · exact (unexpected_ok.mp h).elim
  · intro h
    obtain ⟨span, hm⟩ := take_next _ h
    exact ⟨_, _, hm, by simp [pure_ok]⟩

theorem name_ok {expected : Expectation} {named : Named} (h : name expected s = .ok named t) :
    s.Next (.identifier named.name) t := by
  simp only [name, bind_ok] at h
  obtain ⟨found, m, hm, h⟩ := h
  have hn := next_of_take hm
  obtain ⟨kind, span⟩ := found
  cases kind with
  | identifier x =>
    obtain ⟨rfl, rfl⟩ := pure_ok.mp h
    exact hn
  | _ => exact (unexpected_ok.mp h).elim

theorem name_next (expected : Expectation) {x : String} (h : s.Next (.identifier x) t) :
    ∃ offset, name expected s = .ok ⟨x, offset⟩ t := by
  obtain ⟨span, hm⟩ := take_next expected h
  exact ⟨span.start, bind_ok.mpr ⟨_, _, hm, rfl⟩⟩

theorem skip_next {kind : TokenKind} (h : s.Next kind t) : skip s = .ok () t := by
  obtain ⟨span, hs, ht⟩ := h
  obtain ⟨ls, stop⟩ := s
  obtain ⟨ls', stop'⟩ := t
  cases hs
  cases ht
  rfl

theorem isNext_next {kind : TokenKind} (h : s.Next kind t) : isNext kind s = .ok true s := by
  obtain ⟨span, hp⟩ := peek_next h
  exact bind_ok.mpr ⟨_, _, hp, by simp [pure_ok]⟩

theorem isNext_stops {kind : TokenKind} (h : s.Stops [kind]) : isNext kind s = .ok false s := by
  obtain ⟨_ | ⟨l | l, rest⟩, stop⟩ := s
  · rfl
  · have hk : l.kind ≠ kind := by simpa [Stops] using h
    exact bind_ok.mpr ⟨_, _, peek_token .., by simp [pure_ok, hk]⟩
  · exact h.elim

theorem isNext_ok {kind : TokenKind} {b : Bool} (h : isNext kind s = .ok b t) :
    t = s ∧ (b = true → ∃ m, s.Next kind m) := by
  simp only [isNext, bind_ok] at h
  obtain ⟨found, m, hm, h⟩ := h
  obtain ⟨rfl, rfl⟩ := pure_ok.mp h
  obtain rfl := peek_ok hm
  refine ⟨rfl, fun hb => ?_⟩
  obtain ⟨_ | ⟨l | l, rest⟩, stop⟩ := t
  · cases hm; simp at hb
  · cases hm
    obtain rfl : l.kind = kind := by simpa using hb
    exact ⟨⟨rest, stop⟩, l.span, rfl, rfl⟩
  · cases hm

theorem accept_next {kind : TokenKind} (h : s.Next kind t) : accept kind s = .ok true t :=
  bind_ok.mpr ⟨_, _, isNext_next h, bind_ok.mpr ⟨_, _, skip_next h, rfl⟩⟩

theorem accept_stops {kind : TokenKind} (h : s.Stops [kind]) : accept kind s = .ok false s :=
  bind_ok.mpr ⟨_, _, isNext_stops h, rfl⟩

theorem accept_ok {kind : TokenKind} {b : Bool} (h : accept kind s = .ok b t) :
    (b = true ∧ s.Next kind t) ∨ (b = false ∧ t = s) := by
  simp only [accept, bind_ok] at h
  obtain ⟨found, m, hm, h⟩ := h
  obtain ⟨rfl, hn⟩ := isNext_ok hm
  cases found
  · exact .inr (pure_ok.mp h)
  · obtain ⟨t', hn⟩ := hn rfl
    simp only [↓reduceIte, bind_ok, pure_ok, skip_next hn] at h
    obtain ⟨_, _, h, rfl, rfl⟩ := h
    cases h
    exact .inl ⟨rfl, hn⟩

theorem nextKeyword_next {word : Keyword} (h : s.Next (.keyword word) t) :
    nextKeyword s = .ok (some word) s := by
  obtain ⟨span, hp⟩ := peek_next h
  exact bind_ok.mpr ⟨_, _, hp, rfl⟩

theorem nextKeyword_ok {word : Option Keyword} (h : nextKeyword s = .ok word t) :
    t = s ∧ ∀ w, word = some w → ∃ m, s.Next (.keyword w) m := by
  obtain ⟨_ | ⟨⟨k, span⟩ | l, rest⟩, stop⟩ := s
  · cases h; simp
  · cases k <;> cases h <;> simp
    exact ⟨⟨rest, stop⟩, span, rfl, rfl⟩
  · cases h

theorem nextKeyword_stops {words : List Keyword} (h : s.Stops (words.map .keyword)) :
    ∃ word, nextKeyword s = .ok word s ∧ ∀ w ∈ words, word ≠ some w := by
  obtain ⟨_ | ⟨⟨k, span⟩ | l, rest⟩, stop⟩ := s
  · exact ⟨none, rfl, by simp⟩
  · cases k with
    | keyword w =>
      refine ⟨some w, rfl, ?_⟩
      intro w' hw heq
      cases heq
      exact h (List.mem_map_of_mem hw)
    | _ => exact ⟨none, rfl, by simp⟩
  · exact h.elim

theorem accept_token (kind : TokenKind) (span : Span) (rest : List Lexeme) (stop : Nat) :
    accept kind ⟨.token ⟨kind, span⟩ :: rest, stop⟩ = .ok true ⟨rest, stop⟩ :=
  accept_next ⟨span, rfl, rfl⟩

theorem accept_other {found kind : TokenKind} (h : found ≠ kind) (span : Span)
    (rest : List Lexeme) (stop : Nat) :
    accept kind ⟨.token ⟨found, span⟩ :: rest, stop⟩ =
      .ok false ⟨.token ⟨found, span⟩ :: rest, stop⟩ :=
  accept_stops fun hm => h (List.mem_singleton.mp hm)

theorem nextKeyword_token (word : Keyword) (span : Span) (rest : List Lexeme)
    (stop : Nat) :
    nextKeyword ⟨.token ⟨.keyword word, span⟩ :: rest, stop⟩ =
      .ok (some word) ⟨.token ⟨.keyword word, span⟩ :: rest, stop⟩ := rfl

end Reading

end JackVM
