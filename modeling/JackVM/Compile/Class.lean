import JackVM.Compile.Statement

/-!
# Classes

A class is its variables followed by its subroutines, and nothing after it.
The first instruction of a subroutine tells how many locals it has, so its
code starts when they have all been declared.
-/

namespace JackVM.Compile

variable {ω : Type} [InstructionSink ω]

def typeName : Reading String := do
  let t ← Reading.take .typeName
  match t.kind with
  | .keyword .intWord => return Keyword.intWord.spelling
  | .keyword .charWord => return Keyword.charWord.spelling
  | .keyword .booleanWord => return Keyword.booleanWord.spelling
  | .identifier name => return name
  | _ => Reading.unexpected .typeName t

def declareName (expected : Expectation) (type : String) (kind : VariableKind) :
    Compile ω Unit := do
  declare (← Reading.name expected) type kind

/-- Reads `type name (',' name)* ';'`. -/
def declarators (kind : VariableKind) (bound : Nat) : Compile ω Unit := do
  let type ← typeName
  declareName .variableName type kind
  repeatAfter bound (.symbol ',') (declareName .variableName type kind)
  Reading.symbol ';'

/-- Reads `('static' | 'field') declarators` if it comes next. -/
def classVariable (bound : Nat) : Compile ω Bool := do
  match ← Reading.nextKeyword with
  | some .staticWord => Reading.skip; declarators .static bound; return true
  | some .fieldWord => Reading.skip; declarators .field bound; return true
  | _ => return false

def classVariables (bound : Nat) : Compile ω Unit := repeatWhile bound (classVariable bound)

def localVariables (bound : Nat) : Compile ω Unit :=
  repeatAfter bound (.keyword .varWord) (declarators .var bound)

def parameter : Compile ω Unit := do
  let type ← typeName
  declareName .parameterName type .arg

/-- Reads `(type name (',' type name)*)?`. -/
def parameters (bound : Nat) : Compile ω Unit := do
  if ← Reading.isNext (.symbol ')') then return ()
  parameter
  repeatAfter bound (.symbol ',') parameter

inductive SubroutineKind
  | constructor
  | function
  | method
  deriving DecidableEq, Repr

def SubroutineKind.ofKeyword? : Keyword → Option SubroutineKind
  | .constructorWord => some .constructor
  | .functionWord => some .function
  | .methodWord => some .method
  | _ => none

/-- Makes `pointer 0` the current object: a new one in a constructor, the
first argument in a method. -/
def prologue (kind : SubroutineKind) : Compile ω Unit := do
  match kind with
  | .constructor =>
    emit (.push .constant ((← context).declarations.count .field))
    emit (.call "Memory.alloc" 1)
    emit (.pop .pointer 0)
  | .method =>
    emit (.push .argument 0)
    emit (.pop .pointer 0)
  | .function => return ()

/-- Reads `'{' localVariables statements '}'`. -/
def subroutineBody (kind : SubroutineKind) (name : String) (bound : Nat) : Compile ω Unit := do
  Reading.symbol '{'
  localVariables bound
  let c ← context
  emit (.function (c.className ++ "." ++ name) (c.declarations.count .var))
  prologue kind
  statements bound
  Reading.symbol '}'

def returnType : Reading Bool := do
  if ← Reading.accept (.keyword .voidWord) then return true
  let _ ← typeName
  return false

def enterSubroutine (returnsVoid : Bool) : Compile ω Unit :=
  modifyContext fun c =>
    { c with
      returnsVoid
      declarations := c.declarations.enterSubroutine
      nextLabel := if c.options.resetLabels then 0 else c.nextLabel }

/-- In a method, `this` is the first argument. -/
def declareReceiver (kind : SubroutineKind) (offset : Nat) : Compile ω Unit := do
  if kind = .method then
    declare ⟨Keyword.thisWord.spelling, offset⟩ (← context).className .arg

/-- Reads `('void' | type) name '(' parameters ')' body`. -/
def subroutine (kind : SubroutineKind) (bound : Nat) : Compile ω Unit := do
  let returnsVoid ← returnType
  let named ← Reading.name .subroutineName
  enterSubroutine returnsVoid
  declareReceiver kind named.offset
  Reading.symbol '('
  parameters bound
  Reading.symbol ')'
  subroutineBody kind named.name bound

def nextSubroutine (bound : Nat) : Compile ω Bool := do
  match (← Reading.nextKeyword).bind SubroutineKind.ofKeyword? with
  | some kind => Reading.skip; subroutine kind bound; return true
  | none => return false

def subroutines (bound : Nat) : Compile ω Unit := repeatWhile bound (nextSubroutine bound)

/-- Reads `'class' name '{' classVariables subroutines '}'` and the end of the
input. -/
def classDeclaration (bound : Nat) : Compile ω Unit := do
  Reading.keyword .classWord
  let named ← Reading.name .className
  modifyContext fun c => { c with className := named.name }
  Reading.symbol '{'
  classVariables bound
  subroutines bound
  Reading.symbol '}'
  match ← Reading.peek with
  | some t => Reading.unexpected .endOfInput t
  | none => return ()

end JackVM.Compile
