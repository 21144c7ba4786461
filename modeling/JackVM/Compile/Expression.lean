import JackVM.Compile.Monad
import JackVM.Operator

/-!
# Expressions

The code of an expression leaves its value on the stack. Operands come before
their operator, from left to right, and arguments before their call.
-/

namespace JackVM.Compile

variable {ω : Type} [InstructionSink ω]

def acceptOperator (level : OperatorLevel) : Reading (Option BinaryOperator) := do
  match ← Reading.peek with
  | some ⟨.symbol c, _⟩ =>
    match BinaryOperator.ofSymbol? level c with
    | some op => Reading.skip; return some op
    | none => return none
  | _ => return none

def chainLink (level : OperatorLevel) (operand : Compile ω Unit) : Compile ω Bool := do
  match ← acceptOperator level with
  | some op =>
    operand
    emit op.instruction
    return true
  | none => return false

/-- Reads `operand (op operand)*` with operators of one level. -/
def chain (level : OperatorLevel) (operand : Compile ω Unit) (bound : Nat) : Compile ω Unit := do
  operand
  repeatWhile bound (chainLink level operand)

def expressionOf (term : Compile ω Unit) (bound : Nat) : Compile ω Unit :=
  chain .sum (chain .product term bound) bound

def maxWord : Nat := 65535

/-- Adds in a word of 16 bits. A sum that overflows it stops the program. -/
def addInWord (a b : Nat) : Compile ω Nat :=
  if a + b ≤ maxWord then return a + b else throw (.inSink .overflow)

def moreArguments (expression : Compile ω Unit) (bound count : Nat) : Compile ω Nat :=
  match bound with
  | 0 => return count
  | bound + 1 => do
    if ← Reading.accept (.symbol ',') then
      expression
      moreArguments expression bound (← addInWord count 1)
    else
      return count

def arguments (expression : Compile ω Unit) (bound : Nat) : Compile ω Nat := do
  if ← Reading.isNext (.symbol ')') then return 0
  expression
  moreArguments expression bound 1

/-- The name to call and the number of receivers pushed. A call on a variable
goes to the variable's type, a call without receiver to the current object. -/
def callee : Compile ω (String × Nat) := do
  let named ← Reading.name .callee
  if ← Reading.accept (.symbol '.') then
    let method ← Reading.name .subroutineName
    match ← find? named.name with
    | some receiver =>
      emit receiver.push
      return (receiver.type ++ "." ++ method.name, 1)
    | none => return (named.name ++ "." ++ method.name, 0)
  else
    if (← find? named.name).isSome then fail named.offset (.variableCalled named.name)
    emit (.push .pointer 0)
    return ((← context).className ++ "." ++ named.name, 1)

def subroutineCall (expression : Compile ω Unit) (bound : Nat) : Compile ω Unit := do
  let (name, receivers) ← callee
  Reading.symbol '('
  let count ← arguments expression bound
  Reading.symbol ')'
  emit (.call name (← addInWord receivers count))

def emitPointAt : Compile ω Unit := do
  emit (.operate .add)
  emit (.pop .pointer 1)

def variableTerm (expression : Compile ω Unit) (named : Reading.Named) : Compile ω Unit := do
  emit (← lookup named).push
  if ← Reading.accept (.symbol '[') then
    expression
    Reading.symbol ']'
    emitPointAt
    emit (.push .that 0)

def emitCharacters (offset : Nat) : List Char → Compile ω Unit
  | [] => return ()
  | c :: cs => do
    if maxWord < c.toNat then fail offset (.wideCharacter c)
    emit (.push .constant c.toNat)
    emit (.call "String.appendChar" 2)
    emitCharacters offset cs

/-- A string constant is built when the program runs, character by character. -/
def stringTerm (value : String) (offset : Nat) : Compile ω Unit := do
  if maxWord < value.length then fail offset .longString
  emit (.push .constant value.length)
  emit (.call "String.new" 1)
  emitCharacters offset value.toList

def atCall : Reading Bool := do
  match ← Reading.ahead 2 with
  | [⟨.identifier _, _⟩, ⟨.symbol c, _⟩] => return c = '(' || c = '.'
  | _ => return false

/-- The rest of a term that is no call and starts with `t`, given how to compile
the terms and expressions inside it. -/
def termFrom (term expression : Compile ω Unit) (t : Token) : Compile ω Unit := do
  match t.kind with
  | .integer value => emit (.push .constant value)
  | .string value => stringTerm value t.span.start
  | .keyword .trueWord =>
    emit (.push .constant 1)
    emit (.operate .neg)
  | .keyword .falseWord | .keyword .nullWord => emit (.push .constant 0)
  | .keyword .thisWord => emit (.push .pointer 0)
  | .identifier name => variableTerm expression ⟨name, t.span.start⟩
  | .symbol '(' =>
    expression
    Reading.symbol ')'
  | .symbol '-' =>
    term
    emit UnaryOperator.neg.instruction
  | .symbol '~' =>
    term
    emit UnaryOperator.not.instruction
  | _ => Reading.unexpected .term t

def term : Nat → Compile ω Unit
  | 0 => do Reading.unexpected .term (← Reading.take .term)
  | bound + 1 => do
    if ← atCall then
      subroutineCall (expressionOf (term bound) bound) bound
    else
      termFrom (term bound) (expressionOf (term bound) bound) (← Reading.take .term)

def expression (bound : Nat) : Compile ω Unit := expressionOf (term bound) bound

end JackVM.Compile
