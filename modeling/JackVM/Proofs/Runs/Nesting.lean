import JackVM.Proofs.Runs.Bounds
import JackVM.Proofs.Runs.Relocation

/-!
# Compilation ends

Calls of constructs nest no deeper than five for each token of the source, whatever the
source is. Each round of a loop is a call inside the one before, so loops end as well.
-/

namespace JackVM.Compile

open TokenStream

variable {ω : Type} [InstructionSink ω]

/-- Compiles a source with calls that nest inside its class as deep as five times the
number of tokens; those further in are `stop`. -/
def compileNested (stop : (c : Construct) → Compile ω c.Result) (out : ω) (options : Options)
    (source : String) : Except (CompileError Position) Unit × ω :=
  match lexemes source with
  | .error e => (.error (e.locate source), out)
  | .ok found =>
    let s : CompileState ω := ⟨⟨found, source.utf8ByteSize⟩, { options }, out⟩
    located source ((do
      nested stop (5 * s.unconsumed + 1) .classDeclaration
      onSink InstructionSink.flush : Compile ω Unit) s)

/-- Compilation ends, whatever the source is: a construct that is read has passed tokens; what
is called inside it comes after a token or is of lower rank, so the next round of a loop comes
after a token; and nothing is called further in than five times the number of tokens. -/
theorem compileInto_descends :
    (∀ (c : Construct) (s s' : CompileState ω) (a : c.Result), construct c s = .ok a s' →
      s'.unconsumed + c.least a ≤ s.unconsumed) ∧
    (∀ (c : Construct) (s : CompileState ω) (inner : (c : Construct) → Compile ω c.Result),
      (∀ c' s', s.tokens.Passed 1 s'.tokens → inner c' s' = construct c' s') →
      (∀ c' s', s.tokens.Passed 0 s'.tokens → c'.rank < c.rank →
        inner c' s' = construct c' s') →
      constructWith inner c s = construct c s) ∧
    (∀ (stop : (c : Construct) → Compile ω c.Result) (c : Construct) (s : CompileState ω)
      (n : Nat), 5 * s.unconsumed + c.rank < n → nested stop n c s = construct c s) ∧
    ∀ (stop : (c : Construct) → Compile ω c.Result) (out : ω) (options : Options)
      (source : String),
      compileInto out options source = compileNested stop out options source := by
  refine ⟨fun c s s' a h => (descends_construct.passes a s' h).kinds_le,
    fun c s inner later lower => ?_, fun stop c s n => nested_eq stop,
    fun stop out options source => ?_⟩
  · have hinner {c' : Construct} {s' : CompileState ω} (h : inner c' s' = construct c' s') :
        Descends inner c' s' :=
      ⟨fun hr hb => h.trans (constructAt_eq hr hb).symm,
        fun a t hx => descends_construct.passes a t (h.symm.trans hx)⟩
    exact (descends_constructWith (fun c' s' h => hinner (later c' s' h))
      fun c' s' h hr => hinner (lower c' s' h hr)).eq (Nat.lt_succ_self _) (Nat.lt_succ_self _)
  · unfold compileNested
    cases h : lexemes source with
    | error e => simp only [compileInto, h]
    | ok found =>
      rw [compileInto_found out options h]
      refine congrArg _ (bind_same ?_ fun _ _ _ => rfl).symm
      exact (nested_eq stop (Nat.lt_succ_self _)).trans
        (constructAt_eq (c := .classDeclaration) (Nat.lt_succ_self _) (Nat.lt_succ_self _)).symm

def minusOne : CompileState Listing :=
  ⟨⟨[.token ⟨.symbol '-', ⟨0, 1⟩⟩, .token ⟨.integer 1, ⟨1, 2⟩⟩], 2⟩, {}, #[]⟩

theorem compileInto_descends_minusOne :
    let stop : (c : Construct) → Compile Listing c.Result := fun _ => fail 0 .longString
    let s' : CompileState Listing := ⟨⟨[], 2⟩, {}, #[.push .constant 1, .operate .neg]⟩
    construct .expression minusOne = .ok () s' ∧ s'.unconsumed + 1 ≤ minusOne.unconsumed ∧
      constructWith (nested stop 13) .expression minusOne = .ok () s' ∧
      nested stop 14 .expression minusOne = .ok () s' := by
  intro stop s'
  obtain ⟨passes, calls, nests, -⟩ := compileInto_descends (ω := Listing)
  have hrun : construct .expression minusOne = .ok () s' := rfl
  refine ⟨hrun, passes .expression _ _ () hrun, (calls .expression _ _ ?_ ?_).trans hrun,
    (nests stop .expression _ 14 (by decide)).trans hrun⟩
  · exact fun c' s' h => nests stop c' s' 13 (depth_later (c := .expression) h)
  · exact fun c' s' h hr => nests stop c' s' 13 (depth_lower h hr)

end JackVM.Compile
