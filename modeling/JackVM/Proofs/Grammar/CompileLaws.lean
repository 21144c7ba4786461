import JackVM.Proofs.Grammar.StreamLaws
import JackVM.Proofs.Syntax.Scope

/-!
# Steps of a compilation

What each step of the compiler needs to succeed and what it leaves, when the
code goes to a listing. A state reached from `s` by reading up to `t`, writing
`code` and drawing `labels` labels is `s.after t code labels`; that is all an
expression or a statement does.
-/

namespace JackVM

namespace CompileState

variable {s : CompileState Listing}

/-- The state after reading up to `tokens`, writing `code` and drawing `labels`
labels. -/
def after (s : CompileState Listing) (tokens : TokenStream) (code : List Instruction)
    (labels : Nat) : CompileState Listing where
  tokens
  context := { s.context with nextLabel := s.context.nextLabel + labels }
  out := s.out ++ code.toArray

@[simp] theorem after_tokens (t : TokenStream) (code : List Instruction) (n : Nat) :
    (s.after t code n).tokens = t := rfl

@[simp] theorem after_out (t : TokenStream) (code : List Instruction) (n : Nat) :
    (s.after t code n).out = s.out ++ code.toArray := rfl

@[simp] theorem after_declarations (t : TokenStream) (code : List Instruction) (n : Nat) :
    (s.after t code n).context.declarations = s.context.declarations := rfl

@[simp] theorem after_className (t : TokenStream) (code : List Instruction) (n : Nat) :
    (s.after t code n).context.className = s.context.className := rfl

@[simp] theorem after_options (t : TokenStream) (code : List Instruction) (n : Nat) :
    (s.after t code n).context.options = s.context.options := rfl

@[simp] theorem after_returnsVoid (t : TokenStream) (code : List Instruction) (n : Nat) :
    (s.after t code n).context.returnsVoid = s.context.returnsVoid := rfl

@[simp] theorem after_nextLabel (t : TokenStream) (code : List Instruction) (n : Nat) :
    (s.after t code n).context.nextLabel = s.context.nextLabel + n := rfl

@[simp] theorem after_after (t t' : TokenStream) (code code' : List Instruction) (n n' : Nat) :
    (s.after t code n).after t' code' n' = s.after t' (code ++ code') (n + n') := by
  simp [after, Nat.add_assoc, Array.append_assoc]

theorem after_self : s.after s.tokens [] 0 = s := by
  simp [after]

def scope (s : CompileState Listing) : Syntax.Scope where
  className := s.context.className
  find? := s.context.declarations.find?
  returnsVoid := s.context.returnsVoid
  label := s.context.options.label

def Declares (s : CompileState Listing) (name : String) : Prop :=
  (s.context.declarations.find? name).isSome

@[simp] theorem after_scope (t : TokenStream) (code : List Instruction) (n : Nat) :
    (s.after t code n).scope = s.scope := rfl

@[simp] theorem after_declares (t : TokenStream) (code : List Instruction) (n : Nat) :
    (s.after t code n).Declares = s.Declares := rfl

end CompileState

namespace Compile

open TokenStream

variable {s s' : CompileState Listing} {t : TokenStream} {α : Type}

theorem lift_run {x : Reading α} {a : α} (h : x s.tokens = .ok a t) :
    (liftM x : Compile Listing α) s = .ok a (s.after t [] 0) := by
  obtain ⟨tokens, context, out⟩ := s
  simp only [liftM, monadLift, MonadLift.monadLift, h]
  simp [CompileState.after]

theorem lift_ok {x : Reading α} {a : α} (h : (liftM x : Compile Listing α) s = .ok a s') :
    ∃ t, x s.tokens = .ok a t ∧ s' = s.after t [] 0 := by
  cases hx : x s.tokens with
  | ok b t =>
    rw [lift_run hx] at h
    cases h
    exact ⟨t, rfl, rfl⟩
  | error e t =>
    obtain ⟨tokens, context, out⟩ := s
    simp only [liftM, monadLift, MonadLift.monadLift, hx] at h
    cases h

theorem emit_run (i : Instruction) : emit i s = .ok () (s.after s.tokens [i] 0) := by
  obtain ⟨tokens, context, out⟩ := s
  simp [emit_listing, CompileState.after]

theorem emit_ok {i : Instruction} {u : Unit} (h : emit i s = .ok u s') :
    s' = s.after s.tokens [i] 0 := by
  rw [emit_run] at h
  cases h
  rfl

theorem fail_ok {offset : Nat} {error : SemanticError} {a : α} :
    fail offset error s = .ok a s' ↔ False := throw_ok

theorem addInWord_run {a b : Nat} (h : a + b ≤ maxWord) : addInWord a b s = .ok (a + b) s := by
  rw [addInWord, if_pos h]
  rfl

theorem addInWord_ok {a b n : Nat} (h : addInWord a b s = .ok n s') :
    n = a + b ∧ s' = s ∧ a + b ≤ maxWord := by
  rw [addInWord] at h
  split at h
  · next hfits =>
    obtain ⟨rfl, rfl⟩ := pure_ok.mp h
    exact ⟨rfl, rfl, hfits⟩
  · exact (throw_ok.mp h).elim

theorem symbol_ok {c : Char} {u : Unit}
    (h : (liftM (Reading.symbol c) : Compile Listing Unit) s = .ok u s') :
    ∃ t, s.tokens.Next (.symbol c) t ∧ s' = s.after t [] 0 := by
  obtain ⟨t, ht, rfl⟩ := lift_ok h
  exact ⟨t, Reading.symbol_ok.mp ht, rfl⟩

theorem symbol_run {c : Char} (h : s.tokens.Next (.symbol c) t) :
    (liftM (Reading.symbol c) : Compile Listing Unit) s = .ok () (s.after t [] 0) :=
  lift_run (Reading.symbol_ok.mpr h)

theorem keyword_ok {word : Keyword} {u : Unit}
    (h : (liftM (Reading.keyword word) : Compile Listing Unit) s = .ok u s') :
    ∃ t, s.tokens.Next (.keyword word) t ∧ s' = s.after t [] 0 := by
  obtain ⟨t, ht, rfl⟩ := lift_ok h
  exact ⟨t, Reading.keyword_ok.mp ht, rfl⟩

theorem keyword_run {word : Keyword} (h : s.tokens.Next (.keyword word) t) :
    (liftM (Reading.keyword word) : Compile Listing Unit) s = .ok () (s.after t [] 0) :=
  lift_run (Reading.keyword_ok.mpr h)

theorem name_ok {expected : Expectation} {named : Reading.Named}
    (h : (liftM (Reading.name expected) : Compile Listing Reading.Named) s = .ok named s') :
    ∃ t, s.tokens.Next (.identifier named.name) t ∧ s' = s.after t [] 0 := by
  obtain ⟨t, ht, rfl⟩ := lift_ok h
  exact ⟨t, Reading.name_ok ht, rfl⟩

theorem accept_ok {kind : TokenKind} {b : Bool}
    (h : (liftM (Reading.accept kind) : Compile Listing Bool) s = .ok b s') :
    (b = true ∧ ∃ t, s.tokens.Next kind t ∧ s' = s.after t [] 0) ∨ (b = false ∧ s' = s) := by
  obtain ⟨t, ht, rfl⟩ := lift_ok h
  rcases Reading.accept_ok ht with ⟨rfl, hn⟩ | ⟨rfl, rfl⟩
  · exact .inl ⟨rfl, t, hn, rfl⟩
  · exact .inr ⟨rfl, s.after_self⟩

theorem accept_run {kind : TokenKind} (h : s.tokens.Next kind t) :
    (liftM (Reading.accept kind) : Compile Listing Bool) s = .ok true (s.after t [] 0) :=
  lift_run (Reading.accept_next h)

theorem accept_stops {kind : TokenKind} (h : s.tokens.Stops [kind]) :
    (liftM (Reading.accept kind) : Compile Listing Bool) s = .ok false s := by
  rw [lift_run (Reading.accept_stops h), s.after_self]

theorem isNext_ok {kind : TokenKind} {b : Bool}
    (h : (liftM (Reading.isNext kind) : Compile Listing Bool) s = .ok b s') :
    s' = s ∧ (b = true → ∃ t, s.tokens.Next kind t) := by
  obtain ⟨t, ht, rfl⟩ := lift_ok h
  obtain ⟨rfl, hn⟩ := Reading.isNext_ok ht
  exact ⟨s.after_self, hn⟩

theorem isNext_run {kind : TokenKind} (h : s.tokens.Next kind t) :
    (liftM (Reading.isNext kind) : Compile Listing Bool) s = .ok true s := by
  rw [lift_run (Reading.isNext_next h), s.after_self]

theorem isNext_stops {kind : TokenKind} (h : s.tokens.Stops [kind]) :
    (liftM (Reading.isNext kind) : Compile Listing Bool) s = .ok false s := by
  rw [lift_run (Reading.isNext_stops h), s.after_self]

theorem nextKeyword_ok {word : Option Keyword}
    (h : (liftM Reading.nextKeyword : Compile Listing (Option Keyword)) s = .ok word s') :
    s' = s ∧ ∀ w, word = some w → ∃ t, s.tokens.Next (.keyword w) t := by
  obtain ⟨t, ht, rfl⟩ := lift_ok h
  obtain ⟨rfl, hn⟩ := Reading.nextKeyword_ok ht
  exact ⟨s.after_self, hn⟩

theorem nextKeyword_stops (words : List Keyword) (h : s.tokens.Stops (words.map .keyword)) :
    ∃ word, (liftM Reading.nextKeyword : Compile Listing (Option Keyword)) s = .ok word s ∧
      ∀ w ∈ words, word ≠ some w := by
  obtain ⟨word, hk, hne⟩ := Reading.nextKeyword_stops h
  exact ⟨word, by rw [lift_run hk, s.after_self], hne⟩

theorem skip_run {kind : TokenKind} (h : s.tokens.Next kind t) :
    (liftM Reading.skip : Compile Listing Unit) s = .ok () (s.after t [] 0) :=
  lift_run (Reading.skip_next h)

theorem nextKeyword_run {word : Keyword} (h : s.tokens.Next (.keyword word) t) :
    (liftM Reading.nextKeyword : Compile Listing (Option Keyword)) s = .ok (some word) s := by
  rw [lift_run (Reading.nextKeyword_next h), s.after_self]

/-- What holds before a loop and is kept by each of its rounds holds after it. -/
theorem repeatWhile_ok {P : CompileState Listing → Prop} {step : Compile Listing Bool}
    {bound : Nat} {u : Unit} (h : repeatWhile bound step s = .ok u s') (start : P s)
    (round : ∀ a b, P a → step a = .ok true b → P b)
    (stop : ∀ a b, P a → step a = .ok false b → P b) : P s' := by
  induction bound generalizing s with
  | zero => exact (pure_ok.mp h).2 ▸ start
  | succ bound ih =>
    simp only [repeatWhile, bind_ok] at h
    obtain ⟨again, m, hm, h⟩ := h
    cases again with
    | true => exact ih h (round s m start hm)
    | false => exact (pure_ok.mp h).2 ▸ stop s m start hm

theorem repeatWhile_stop {step : Compile Listing Bool} (h : step s = .ok false s) (bound : Nat) :
    repeatWhile bound step s = .ok () s := by
  cases bound with
  | zero => rfl
  | succ bound => exact bind_to h rfl

theorem repeatWhile_next {step : Compile Listing Bool} (h : step s = .ok true s') (bound : Nat) :
    repeatWhile (bound + 1) step s = repeatWhile bound step s' := bind_to h rfl

theorem context_run : context s = .ok s.context s := rfl

theorem find?_run (name : String) :
    find? name s = .ok (s.context.declarations.find? name) s := rfl

theorem lookup_run {v : Reading.Named} {found : Variable}
    (h : s.context.declarations.find? v.name = some found) : lookup v s = .ok found s := by
  rw [lookup, bind_run (find?_run v.name), h]
  rfl

theorem lookup_ok {v : Reading.Named} {found : Variable} (h : lookup v s = .ok found s') :
    s.context.declarations.find? v.name = some found ∧ s' = s := by
  rw [lookup, bind_run (find?_run v.name)] at h
  cases hf : s.context.declarations.find? v.name with
  | some _ => rw [hf] at h; cases h; exact ⟨rfl, rfl⟩
  | none => rw [hf] at h; cases h

theorem newLabel_run :
    newLabel s = .ok (s.context.options.label s.context.nextLabel) (s.after s.tokens [] 1) := by
  obtain ⟨tokens, context, out⟩ := s
  simp only [CompileState.after, Array.append_empty]
  rfl

/-- A loop whose rounds read items one after another has read a list of them. -/
theorem repeatWhile_list {β : Type}
    {P : List β → CompileState Listing → CompileState Listing → Prop}
    {step : Compile Listing Bool} {bound : Nat} {u : Unit}
    (h : repeatWhile bound step s = .ok u s') (nil : ∀ a, P [] a a)
    (round : ∀ a b again, step a = .ok again b →
      (again = true ∧ ∃ x, ∀ xs c, P xs b c → P (x :: xs) a c) ∨ (again = false ∧ b = a)) :
    ∃ xs, P xs s s' := by
  induction bound generalizing s with
  | zero => exact ⟨[], (pure_ok.mp h).2 ▸ nil s⟩
  | succ bound ih =>
    simp only [repeatWhile, bind_ok] at h
    obtain ⟨again, m, hm, h⟩ := h
    rcases round s m again hm with ⟨rfl, x, hx⟩ | ⟨rfl, rfl⟩
    · obtain ⟨xs, hxs⟩ := ih h
      exact ⟨x :: xs, hx xs s' hxs⟩
    · exact ⟨[], (pure_ok.mp h).2 ▸ nil m⟩

theorem repeatWhile_all {β : Type} {P : List β → CompileState Listing → CompileState Listing → Prop}
    {step : Compile Listing Bool} {bound : Nat} {xs : List β} (h : P xs s s')
    (hb : xs.length ≤ bound) (nil : ∀ a c, P [] a c → step a = .ok false a ∧ c = a)
    (cons : ∀ x xs a c, P (x :: xs) a c → ∃ b, step a = .ok true b ∧ P xs b c) :
    repeatWhile bound step s = .ok () s' := by
  induction xs generalizing s bound with
  | nil =>
    obtain ⟨hs, rfl⟩ := nil s s' h
    exact repeatWhile_stop hs bound
  | cons x xs ih =>
    obtain ⟨bound, rfl⟩ := Nat.exists_eq_add_one_of_ne_zero (Nat.ne_zero_of_lt hb)
    obtain ⟨b, hs, hp⟩ := cons x xs s s' h
    rw [repeatWhile_next hs]
    exact ih hp (Nat.le_of_succ_le_succ hb)

end Compile

end JackVM
