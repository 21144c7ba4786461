import JackVM.Compile.Class

/-!
# The words that members start with

A variable of a class and a subroutine are told by their first word, which is
looked at and then passed. Looking and passing are one step here.
-/

namespace JackVM.Compile

variable {ω α : Type}

def acceptWord (choose : Keyword → Option α) : Reading (Option α) := do
  match (← Reading.nextKeyword).bind choose with
  | some a => Reading.skip; return some a
  | none => return none

def variableKind? : Keyword → Option VariableKind
  | .staticWord => some .static
  | .fieldWord => some .field
  | _ => none

theorem classVariable_eq (bound : Nat) :
    classVariable (ω := ω) bound = do
      match ← acceptWord variableKind? with
      | some kind => declarators kind bound; return true
      | none => return false := by
  funext ⟨⟨lexemes, stop⟩, context, out⟩
  obtain _ | ⟨⟨kind, span⟩ | _, rest⟩ := lexemes
  · rfl
  · cases kind with
    | keyword word => cases word <;> rfl
    | _ => rfl
  · rfl

theorem nextSubroutine_eq [InstructionSink ω] (bound : Nat) :
    nextSubroutine (ω := ω) bound = do
      match ← acceptWord SubroutineKind.ofKeyword? with
      | some kind => subroutine kind bound; return true
      | none => return false := by
  funext ⟨⟨lexemes, stop⟩, context, out⟩
  obtain _ | ⟨⟨kind, span⟩ | _, rest⟩ := lexemes
  · rfl
  · cases kind with
    | keyword word => cases word <;> rfl
    | _ => rfl
  · rfl

end JackVM.Compile
