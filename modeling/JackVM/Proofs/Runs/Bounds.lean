import JackVM.Compile.Basic
import JackVM.Proofs.Runs.Descent

/-!
# The bound is never reached

A compilation is given a bound on nesting and rounds. Every call of a construct comes
after a token or is of lower rank than the one it is made from. So calls nest no deeper
than five for each token ahead and the rank of the first, and any bound that is not less
than the number of lexemes gives the same compilation.
-/

namespace JackVM

/-- How many tokens are ahead, up to the first lexeme that is none. Those that have been
looked at already are among them. -/
def CompileState.unconsumed {ω : Type} (s : CompileState ω) : Nat := s.tokens.kinds.length

namespace Compile

open TokenStream

variable {ω : Type} {c c' : Construct} {s s' : CompileState ω}

/-- An upper bound on how deep the calls nest inside a construct. -/
def Construct.depth (c : Construct) (s : CompileState ω) : Nat := 5 * s.unconsumed + c.rank

theorem depth_later (h : s.tokens.Passed 1 s'.tokens) : c'.depth s' < c.depth s := by
  have hless : s'.unconsumed + 1 ≤ s.unconsumed := h.kinds_le
  have := c'.rank_le
  unfold Construct.depth
  omega

theorem depth_lower (h : s.tokens.Passed 0 s'.tokens) (hr : c'.rank < c.rank) :
    c'.depth s' < c.depth s := by
  have hless : s'.unconsumed ≤ s.unconsumed := h.kinds_le
  unfold Construct.depth
  omega

variable [InstructionSink ω] {inner : (c : Construct) → Compile ω c.Result}

/-- From here the construct is compiled as it is with any bound that is great enough, and
success passes as many tokens as it has to. -/
structure Descends (inner : (c : Construct) → Compile ω c.Result) (c : Construct)
    (s : CompileState ω) : Prop where
  eq : ∀ {r b : Nat}, s.left < r → s.left < b → inner c s = constructAt r b c s
  passes : ∀ a s', inner c s = .ok a s' → s.tokens.Passed (c.least a) s'.tokens

theorem same_of_descends {start : TokenStream} {k r b : Nat}
    (h : ∀ s, start.Passed k s.tokens → Descends inner c s) (hr : start.lexemes.length < r + k)
    (hb : start.lexemes.length < b + k) :
    SameAfter start k c.least (inner c) (constructAt r b c) where
  eq s hs :=
    have hleft : s.left + k ≤ start.lexemes.length := hs.lexemes_le
    (h s hs).eq (by omega) (by omega)
  passes s a s' hs := (h s hs).passes a s'

/-- One call, given what those made inside it do. -/
theorem descends_constructWith
    (later : ∀ c' s', s.tokens.Passed 1 s'.tokens → Descends inner c' s')
    (lower : ∀ c' s', s.tokens.Passed 0 s'.tokens → c'.rank < c.rank → Descends inner c' s') :
    Descends (constructWith inner) c s := by
  have hsame {r b : Nat} (hr : s.left ≤ r) (hb : s.left ≤ b) :
      SameAfter s.tokens 0 c.least (constructWith inner c) (constructAt (r + 1) (b + 1) c) := by
    refine same_constructWith c hr hb (fun hr hb c' k => ?_) fun c' hrank => ?_
    · exact same_of_descends (fun s' h => later c' s' (h.mono (Nat.le_add_left ..)))
        (Nat.lt_of_le_of_lt hr (Nat.lt_add_of_pos_right (Nat.succ_pos k)))
        (Nat.lt_of_le_of_lt hb (Nat.lt_add_of_pos_right (Nat.succ_pos k)))
    · exact same_of_descends (fun s' h => lower c' s' h hrank) (Nat.lt_succ_of_le hb)
        (Nat.lt_succ_of_le hb)
  constructor
  · intro r b hr hb
    obtain ⟨r, rfl⟩ := Nat.exists_eq_succ_of_ne_zero (Nat.ne_of_gt (Nat.zero_lt_of_lt hr))
    obtain ⟨b, rfl⟩ := Nat.exists_eq_succ_of_ne_zero (Nat.ne_of_gt (Nat.zero_lt_of_lt hb))
    exact (hsame (Nat.le_of_lt_succ hr) (Nat.le_of_lt_succ hb)).eq s (.refl _)
  · intro a s' hx
    exact (hsame (Nat.le_refl _) (Nat.le_refl _)).passes s a s' (.refl _) hx

theorem descends_nested (stop : (c : Construct) → Compile ω c.Result) {n : Nat}
    (h : c.depth s < n) : Descends (nested stop n) c s := by
  induction n generalizing c s with
  | zero => exact (Nat.not_lt_zero _ h).elim
  | succ n ih =>
    have hn : c.depth s ≤ n := Nat.le_of_lt_succ h
    exact descends_constructWith
      (fun c' s' hs => ih (Nat.lt_of_lt_of_le (depth_later hs) hn))
      fun c' s' hs hr => ih (Nat.lt_of_lt_of_le (depth_lower hs hr) hn)

/-- Calls that may nest so deep do what the compiler does. -/
theorem nested_eq (stop : (c : Construct) → Compile ω c.Result) {n : Nat} (h : c.depth s < n) :
    nested stop n c s = construct c s :=
  (descends_nested stop h).eq (Nat.lt_succ_self _) (Nat.lt_succ_self _)

theorem constructAt_eq {r b : Nat} (hr : s.left < r) (hb : s.left < b) :
    constructAt r b c s = construct c s := by
  have h := descends_nested (s := s) (c := c) construct (Nat.lt_succ_self _)
  rw [← h.eq hr hb, nested_eq construct (Nat.lt_succ_self _)]

theorem descends_construct : Descends construct c s := by
  have h := descends_nested (s := s) (c := c) construct (Nat.lt_succ_self _)
  refine ⟨fun hr hb => (constructAt_eq hr hb).symm, fun a s' hx => h.passes a s' ?_⟩
  rw [nested_eq construct (Nat.lt_succ_self _), hx]

end Compile

open Compile

/-- Any bound that is not less than the number of lexemes gives the same compilation. -/
theorem compileUnit_bound {ω : Type} [InstructionSink ω] {s : CompileState ω} {b b' : Nat}
    (hb : s.left ≤ b) (hb' : s.left ≤ b') : compileUnit b s = compileUnit b' s := by
  have hclass {b : Nat} (hb : s.left ≤ b) :
      classDeclaration b s = construct .classDeclaration s :=
    constructAt_eq (c := .classDeclaration) (Nat.lt_succ_of_le hb) (Nat.lt_succ_of_le hb)
  exact bind_same ((hclass hb).trans (hclass hb').symm) fun _ _ _ => rfl

end JackVM
