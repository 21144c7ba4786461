import JackVM.Compile.Expression

/-!
# Statements

The stack is as high after a statement as before it. `if` and `while` take
their two labels when they are entered, so before those nested inside.
-/

namespace JackVM.Compile

variable {ω : Type} [InstructionSink ω]

/-- Reads `let name ('[' expression ']')? '=' expression ';'`. The address of
an indexed target is in `pointer 1` before the right-hand side is evaluated. -/
def letStatement (bound : Nat) : Compile ω Unit := do
  Reading.keyword .letWord
  let target ← lookup (← Reading.name .variableName)
  if ← Reading.accept (.symbol '[') then
    emit target.push
    expression bound
    Reading.symbol ']'
    emitPointAt
    Reading.symbol '='
    expression bound
    Reading.symbol ';'
    emit (.pop .that 0)
  else
    Reading.symbol '='
    expression bound
    Reading.symbol ';'
    emit target.pop

def condition (bound : Nat) (target : String) : Compile ω Unit := do
  Reading.symbol '('
  expression bound
  Reading.symbol ')'
  emit (.operate .not)
  emit (.ifGoto target)

def block (statements : Compile ω Unit) : Compile ω Unit := do
  Reading.symbol '{'
  statements
  Reading.symbol '}'

/-- Reads `if '(' expression ')' block ('else' block)?`. -/
def ifStatement (statements : Compile ω Unit) (bound : Nat) : Compile ω Unit := do
  Reading.keyword .ifWord
  let otherwise ← newLabel
  let done ← newLabel
  condition bound otherwise
  block statements
  emit (.goto done)
  emit (.label otherwise)
  if ← Reading.accept (.keyword .elseWord) then block statements
  emit (.label done)

def whileStatement (statements : Compile ω Unit) (bound : Nat) : Compile ω Unit := do
  Reading.keyword .whileWord
  let again ← newLabel
  let done ← newLabel
  emit (.label again)
  condition bound done
  block statements
  emit (.goto again)
  emit (.label done)

/-- Reads `do call ';'`. Every call leaves a value, which is dropped. -/
def doStatement (bound : Nat) : Compile ω Unit := do
  Reading.keyword .doWord
  subroutineCall (expression bound) bound
  Reading.symbol ';'
  emit (.pop .temp 0)

/-- Reads `return expression? ';'`. Only a void subroutine may do without the
expression; it returns 0. -/
def returnStatement (bound : Nat) : Compile ω Unit := do
  Reading.keyword .returnWord
  let returnsVoid := (← context).returnsVoid
  if ← Reading.isNext (.symbol ';') then
    if !returnsVoid then Reading.unexpected .expression (← Reading.take .expression)
  else
    expression bound
  Reading.symbol ';'
  if returnsVoid then emit (.push .constant 0)
  emit .ret

def statement (statements : Compile ω Unit) (bound : Nat) : Compile ω Bool := do
  match ← Reading.nextKeyword with
  | some .letWord => letStatement bound; return true
  | some .ifWord => ifStatement statements bound; return true
  | some .whileWord => whileStatement statements bound; return true
  | some .doWord => doStatement bound; return true
  | some .returnWord => returnStatement bound; return true
  | _ => return false

/-- Statements nested at most `bound` deep, up to the first token that starts
none. -/
def statements : Nat → Compile ω Unit
  | 0 => return ()
  | bound + 1 => repeatWhile (bound + 1) (statement (statements bound) bound)

end JackVM.Compile
