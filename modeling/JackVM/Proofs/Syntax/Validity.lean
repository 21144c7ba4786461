import JackVM.Proofs.Syntax.Code

/-!
# Static conditions

What is asked of a class besides its grammar. Names used as variables are
declared, no variable is called, a subroutine that returns a value returns one
everywhere, and what ends up in a 16-bit word fits into it.
-/

namespace JackVM.Syntax

open Compile (maxWord)

/-- The length and the codes of a string constant are constants of the code. -/
def FitsWords (value : String) : Prop :=
  value.length ≤ maxWord ∧ ∀ c ∈ value.toList, c.toNat ≤ maxWord

section
variable (declared : String → Prop)

/-- What is called with so many arguments. They are counted in one word with the
receiver, which is a variable's value or the current object. -/
def Callee.Valid : Callee → Nat → Prop
  | .own subroutine, arguments => ¬declared subroutine ∧ arguments < maxWord
  | .member owner _, arguments => arguments ≤ maxWord ∧ (declared owner → arguments < maxWord)

mutual
def Term.Valid : Term → Prop
  | .integer _ | .constant _ => True
  | .string value => FitsWords value
  | .variable name => declared name
  | .element array index => declared array ∧ index.Valid
  | .group inner => inner.Valid
  | .unary _ operand => operand.Valid
  | .call call => call.Valid
def Operand.Valid : Operand → Prop
  | .term single => single.Valid
  | .product left _ right => left.Valid ∧ right.Valid
def Expression.Valid : Expression → Prop
  | .operand single => single.Valid
  | .sum left _ right => left.Valid ∧ right.Valid
def Call.Valid : Call → Prop
  | .mk callee args => callee.Valid declared args.length ∧ Arguments.Valid args
def Arguments.Valid : List Expression → Prop
  | [] => True
  | first :: others => first.Valid ∧ Arguments.Valid others
end

variable (returnsVoid : Bool)

mutual
def Statement.Valid : Statement → Prop
  | .assign target value => declared target ∧ value.Valid declared
  | .assignElement array index value =>
    declared array ∧ index.Valid declared ∧ value.Valid declared
  | .ifThen condition body => condition.Valid declared ∧ Statements.Valid body
  | .ifElse condition body otherwise =>
    condition.Valid declared ∧ Statements.Valid body ∧ Statements.Valid otherwise
  | .whileLoop condition body => condition.Valid declared ∧ Statements.Valid body
  | .run call => call.Valid declared
  | .leave none => returnsVoid
  | .leave (some value) => value.Valid declared
def Statements.Valid : List Statement → Prop
  | [] => True
  | first :: others => first.Valid ∧ Statements.Valid others
end

end

theorem Callee.valid_own {scope : Scope} {subroutine : String} {n : Nat} :
    (Callee.own subroutine).Valid scope.Declares n ↔
      ¬scope.Declares subroutine ∧ (Callee.own subroutine).receivers scope + n ≤ maxWord := by
  simp only [Callee.Valid, Callee.receivers, Callee.receiverCode, List.length_singleton,
    Nat.one_add_le_iff]

theorem Callee.valid_member {scope : Scope} {owner subroutine : String} {n : Nat} :
    (Callee.member owner subroutine).Valid scope.Declares n ↔
      (Callee.member owner subroutine).receivers scope + n ≤ maxWord := by
  simp only [Callee.Valid, Callee.receivers, Callee.receiverCode, Scope.push, Scope.Declares]
  cases scope.find? owner with
  | none => simp
  | some v =>
    simp only [Option.isSome_some, forall_const, Option.toList_some, List.map_singleton,
      List.length_singleton, Nat.one_add_le_iff]
    exact and_iff_right_of_imp Nat.le_of_lt

theorem Callee.Valid.counted {scope : Scope} {callee : Callee} {n : Nat}
    (h : callee.Valid scope.Declares n) : callee.receivers scope + n ≤ maxWord := by
  cases callee with
  | own subroutine => exact (Callee.valid_own.mp h).2
  | member owner subroutine => exact Callee.valid_member.mp h

structure Subroutine.Valid (c : JackClass) (s : Subroutine) : Prop where
  fits : Fits (s.declarations c.name)
  body : Statements.Valid (c.Declares s) s.returnsVoid s.body

structure JackClass.Valid (c : JackClass) : Prop where
  fits : Fits c.declarations
  subroutines : ∀ s ∈ c.subroutines, s.Valid c

end JackVM.Syntax
