import JackVM.VM.Instruction

/-!
# Operators

Binary operators have two levels. `*` and `/` bind tighter than the others;
within a level, operators associate to the left.
-/

namespace JackVM

inductive OperatorLevel
  | sum
  | product
  deriving DecidableEq, Repr

inductive BinaryOperator
  | add
  | sub
  | and
  | or
  | lt
  | gt
  | eq
  | mul
  | div
  deriving DecidableEq, Repr

namespace BinaryOperator

def symbol : BinaryOperator → Char
  | .add => '+'
  | .sub => '-'
  | .and => '&'
  | .or => '|'
  | .lt => '<'
  | .gt => '>'
  | .eq => '='
  | .mul => '*'
  | .div => '/'

def all : List BinaryOperator := [.add, .sub, .and, .or, .lt, .gt, .eq, .mul, .div]

def level : BinaryOperator → OperatorLevel
  | .mul | .div => .product
  | _ => .sum

def ofSymbol? (level : OperatorLevel) (c : Char) : Option BinaryOperator :=
  all.find? fun op => op.level = level && op.symbol == c

theorem ofSymbol?_symbol (op : BinaryOperator) : ofSymbol? op.level op.symbol = some op := by
  cases op <;> decide

theorem level_symbol_of_ofSymbol? {level : OperatorLevel} {c : Char} {op : BinaryOperator}
    (h : ofSymbol? level c = some op) : op.level = level ∧ op.symbol = c := by
  simpa using List.find?_some h

def instruction : BinaryOperator → Instruction
  | .add => .operate .add
  | .sub => .operate .sub
  | .and => .operate .and
  | .or => .operate .or
  | .lt => .operate .lt
  | .gt => .operate .gt
  | .eq => .operate .eq
  | .mul => .call "Math.multiply" 2
  | .div => .call "Math.divide" 2

end BinaryOperator

inductive UnaryOperator
  | neg
  | not
  deriving DecidableEq, Repr

namespace UnaryOperator

def symbol : UnaryOperator → Char
  | .neg => '-'
  | .not => '~'

def instruction : UnaryOperator → Instruction
  | .neg => .operate .neg
  | .not => .operate .not

end UnaryOperator

end JackVM
