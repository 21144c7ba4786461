import JackVM.Proofs.Syntax.Scope

/-!
# The code of a tree

A code generator by recursion on trees. It looks at nothing but the tree, the
scope and, for statements, the number of the first free label.
-/

namespace JackVM.Syntax

open Compile (SubroutineKind)

def Scope.push (scope : Scope) (name : String) : List Instruction :=
  (scope.find? name).toList.map Variable.push

def Scope.pop (scope : Scope) (name : String) : List Instruction :=
  (scope.find? name).toList.map Variable.pop

def Constant.code : Constant → List Instruction
  | .true => [.push .constant 1, .operate .neg]
  | .false | .null => [.push .constant 0]
  | .this => [.push .pointer 0]

def stringCode (value : String) : List Instruction :=
  .push .constant value.length :: .call "String.new" 1 ::
    value.toList.flatMap fun c => [.push .constant c.toNat, .call "String.appendChar" 2]

def pointAt : List Instruction := [.operate .add, .pop .pointer 1]

def Callee.receiverCode (scope : Scope) : Callee → List Instruction
  | .own _ => [.push .pointer 0]
  | .member owner _ => scope.push owner

/-- What is called: a method of the variable's type, a subroutine of the class
that is named, or a method of the class in hand. -/
def Callee.label (scope : Scope) : Callee → String
  | .own subroutine => scope.className ++ "." ++ subroutine
  | .member owner subroutine =>
    ((scope.find? owner).map Variable.type).getD owner ++ "." ++ subroutine

def Callee.receivers (scope : Scope) (callee : Callee) : Nat := (callee.receiverCode scope).length

section
variable (scope : Scope)

mutual
def Term.code : Term → List Instruction
  | .integer value => [.push .constant value]
  | .string value => stringCode value
  | .constant word => word.code
  | .variable name => scope.push name
  | .element array index => scope.push array ++ index.code ++ pointAt ++ [.push .that 0]
  | .group inner => inner.code
  | .unary op operand => operand.code ++ [op.instruction]
  | .call call => call.code
def Operand.code : Operand → List Instruction
  | .term single => single.code
  | .product left op right => left.code ++ right.code ++ [op.1.instruction]
def Expression.code : Expression → List Instruction
  | .operand single => single.code
  | .sum left op right => left.code ++ right.code ++ [op.1.instruction]
def Call.code : Call → List Instruction
  | .mk callee args =>
    callee.receiverCode scope ++ Arguments.code args ++
      [.call (callee.label scope) (callee.receivers scope + args.length)]
def Arguments.code : List Expression → List Instruction
  | [] => []
  | first :: others => first.code ++ Arguments.code others
end

end

-- ---------------------------------------------------------------------------
-- Statements
-- ---------------------------------------------------------------------------

mutual
/-- Labels that a statement uses: two for every `if` and `while` in it. -/
def Statement.labels : Statement → Nat
  | .assign _ _ | .assignElement _ _ _ | .run _ | .leave _ => 0
  | .ifThen _ body => 2 + Statements.labels body
  | .ifElse _ body otherwise => 2 + Statements.labels body + Statements.labels otherwise
  | .whileLoop _ body => 2 + Statements.labels body
def Statements.labels : List Statement → Nat
  | [] => 0
  | first :: others => first.labels + Statements.labels others
end

/-- Both branches of an `if`, given their code, with the labels `n` and `n + 1`. -/
def branchCode (scope : Scope) (n : Nat) (condition : Expression)
    (body otherwise : List Instruction) : List Instruction :=
  condition.code scope ++ [.operate .not, .ifGoto (scope.label n)] ++ body ++
    [.goto (scope.label (n + 1)), .label (scope.label n)] ++ otherwise ++
    [.label (scope.label (n + 1))]

def loopCode (scope : Scope) (n : Nat) (condition : Expression) (body : List Instruction) :
    List Instruction :=
  .label (scope.label n) :: condition.code scope ++
    [.operate .not, .ifGoto (scope.label (n + 1))] ++ body ++
    [.goto (scope.label n), .label (scope.label (n + 1))]

/-- A void subroutine returns 0, also when it computes another value first. -/
def leaveCode (scope : Scope) (value : List Instruction) : List Instruction :=
  value ++ (if scope.returnsVoid then [.push .constant 0] else []) ++ [.ret]

section
variable (scope : Scope)

mutual
/-- The code of a statement whose first label has the number `n`. -/
def Statement.code (n : Nat) : Statement → List Instruction
  | .assign target value => value.code scope ++ scope.pop target
  | .assignElement array index value =>
    scope.push array ++ index.code scope ++ pointAt ++ value.code scope ++ [.pop .that 0]
  | .ifThen condition body => branchCode scope n condition (Statements.code (n + 2) body) []
  | .ifElse condition body otherwise =>
    branchCode scope n condition (Statements.code (n + 2) body)
      (Statements.code (n + 2 + Statements.labels body) otherwise)
  | .whileLoop condition body => loopCode scope n condition (Statements.code (n + 2) body)
  | .run call => call.code scope ++ [.pop .temp 0]
  | .leave none => leaveCode scope []
  | .leave (some value) => leaveCode scope (value.code scope)
def Statements.code (n : Nat) : List Statement → List Instruction
  | [] => []
  | first :: others => first.code n ++ Statements.code (n + first.labels) others
end

end

-- ---------------------------------------------------------------------------
-- Subroutines
-- ---------------------------------------------------------------------------

def prologueCode (fields : Nat) : SubroutineKind → List Instruction
  | .constructor => [.push .constant fields, .call "Memory.alloc" 1, .pop .pointer 0]
  | .method => [.push .argument 0, .pop .pointer 0]
  | .function => []

def Subroutine.code (c : JackClass) (options : Options) (n : Nat) (s : Subroutine) :
    List Instruction :=
  .function (c.name ++ "." ++ s.name) (countKind .var (s.declarations c.name)) ::
    prologueCode (countKind .field c.declarations) s.kind ++
    Statements.code (c.scope options s) n s.body

def firstLabel (options : Options) (used : Nat) : Nat := if options.resetLabels then 0 else used

def Subroutines.code (c : JackClass) (options : Options) (used : Nat) :
    List Subroutine → List Instruction
  | [] => []
  | first :: others =>
    let n := firstLabel options used
    first.code c options n ++ Subroutines.code c options (n + Statements.labels first.body) others

def JackClass.code (options : Options) (c : JackClass) : List Instruction :=
  Subroutines.code c options 0 c.subroutines

end JackVM.Syntax
