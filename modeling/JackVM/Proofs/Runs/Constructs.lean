import JackVM.Proofs.Grammar.MemberLaws

/-!
# The constructs of the grammar and their calls

The functions that compile a construct call each other, and each loop is a construct that
calls itself for its next round. `constructWith` is one call of one of them, given how to
compile the constructs inside it. `nested` lets the calls nest so many deep and no deeper.

`constructAt` is what the compiler does with some bound on rounds and levels, `construct`
with one that is enough.
-/

namespace JackVM

def CompileState.left {ω : Type} (s : CompileState ω) : Nat := s.tokens.lexemes.length

namespace Compile

variable {ω : Type}

-- ---------------------------------------------------------------------------
-- Constructs
-- ---------------------------------------------------------------------------

/-- A function that compiles a construct, or the rounds of a loop from one of them on. -/
inductive Construct
  | classDeclaration
  | classVariables
  | classVariable
  | declarators (kind : VariableKind)
  | moreDeclarators (type : String) (kind : VariableKind)
  | subroutines
  | nextSubroutine
  | subroutine (kind : SubroutineKind)
  | parameters
  | parameter
  | moreParameters
  | subroutineBody (kind : SubroutineKind) (name : String)
  | localVariables
  | statements
  | statement
  | letStatement
  | ifStatement
  | whileStatement
  | doStatement
  | returnStatement
  | condition (target : String)
  | block
  | expression
  | operand
  | operators (level : OperatorLevel)
  | term
  | call
  | arguments
  | moreArguments (count : Nat)

/-- What is answered: whether there has been a round, or how many arguments there are. -/
abbrev Construct.Result : Construct → Type
  | .classVariable | .nextSubroutine | .statement => Bool
  | .arguments | .moreArguments _ => Nat
  | _ => Unit

/-- How many tokens are passed at least when the answer is this. A loop may end at once. -/
def Construct.least : (c : Construct) → c.Result → Nat
  | .classVariable | .nextSubroutine | .statement => Bool.toNat
  | .classVariables | .moreDeclarators _ _ | .subroutines | .parameters | .moreParameters
  | .localVariables | .statements | .operators _ | .arguments | .moreArguments _ => fun _ => 0
  | _ => fun _ => 1

/-- Before it has passed a token, a construct is only entered from those of higher rank. -/
def Construct.rank : Construct → Nat
  | .arguments => 4
  | .expression => 3
  | .operand | .statements => 2
  | .term | .statement | .classVariables | .subroutines | .parameters => 1
  | _ => 0

theorem Construct.rank_le (c : Construct) : c.rank ≤ 4 := by
  unfold Construct.rank
  split <;> decide

-- ---------------------------------------------------------------------------
-- One call
-- ---------------------------------------------------------------------------

def roundAfter (kind : TokenKind) (item : Compile ω Unit) : Compile ω Bool := do
  if ← Reading.accept kind then
    item
    return true
  else
    return false

variable [InstructionSink ω]

def constructWith (inner : (c : Construct) → Compile ω c.Result) :
    (c : Construct) → Compile ω c.Result
  | .classDeclaration => do
    Reading.keyword .classWord
    let named ← Reading.name .className
    modifyContext fun c => { c with className := named.name }
    Reading.symbol '{'
    inner .classVariables
    inner .subroutines
    Reading.symbol '}'
    match ← Reading.peek with
    | some t => Reading.unexpected .endOfInput t
    | none => return ()
  | .classVariables => do
    if ← inner .classVariable then inner .classVariables
  | .classVariable => do
    match ← acceptWord variableKind? with
    | some kind => inner (.declarators kind); return true
    | none => return false
  | .declarators kind => do
    let type ← typeName
    declareName .variableName type kind
    inner (.moreDeclarators type kind)
    Reading.symbol ';'
  | .moreDeclarators type kind => do
    if ← roundAfter (.symbol ',') (declareName .variableName type kind) then
      inner (.moreDeclarators type kind)
  | .subroutines => do
    if ← inner .nextSubroutine then inner .subroutines
  | .nextSubroutine => do
    match ← acceptWord SubroutineKind.ofKeyword? with
    | some kind => inner (.subroutine kind); return true
    | none => return false
  | .subroutine kind => do
    let returnsVoid ← returnType
    let named ← Reading.name .subroutineName
    enterSubroutine returnsVoid
    declareReceiver kind named.offset
    Reading.symbol '('
    inner .parameters
    Reading.symbol ')'
    inner (.subroutineBody kind named.name)
  | .parameters => do
    if ← Reading.isNext (.symbol ')') then return ()
    inner .parameter
    inner .moreParameters
  | .parameter => do
    let type ← typeName
    declareName .parameterName type .arg
  | .moreParameters => do
    if ← roundAfter (.symbol ',') (inner .parameter) then inner .moreParameters
  | .subroutineBody kind name => do
    Reading.symbol '{'
    inner .localVariables
    let c ← context
    emit (.function (c.className ++ "." ++ name) (c.declarations.count .var))
    prologue kind
    inner .statements
    Reading.symbol '}'
  | .localVariables => do
    if ← roundAfter (.keyword .varWord) (inner (.declarators .var)) then inner .localVariables
  | .statements => do
    if ← inner .statement then inner .statements
  | .statement => do
    match ← Reading.nextKeyword with
    | some .letWord => inner .letStatement; return true
    | some .ifWord => inner .ifStatement; return true
    | some .whileWord => inner .whileStatement; return true
    | some .doWord => inner .doStatement; return true
    | some .returnWord => inner .returnStatement; return true
    | _ => return false
  | .letStatement => do
    Reading.keyword .letWord
    let target ← lookup (← Reading.name .variableName)
    if ← Reading.accept (.symbol '[') then
      emit target.push
      inner .expression
      Reading.symbol ']'
      emitPointAt
      Reading.symbol '='
      inner .expression
      Reading.symbol ';'
      emit (.pop .that 0)
    else
      Reading.symbol '='
      inner .expression
      Reading.symbol ';'
      emit target.pop
  | .ifStatement => do
    Reading.keyword .ifWord
    let otherwise ← newLabel
    let done ← newLabel
    inner (.condition otherwise)
    inner .block
    emit (.goto done)
    emit (.label otherwise)
    if ← Reading.accept (.keyword .elseWord) then inner .block
    emit (.label done)
  | .whileStatement => do
    Reading.keyword .whileWord
    let again ← newLabel
    let done ← newLabel
    emit (.label again)
    inner (.condition done)
    inner .block
    emit (.goto again)
    emit (.label done)
  | .doStatement => do
    Reading.keyword .doWord
    inner .call
    Reading.symbol ';'
    emit (.pop .temp 0)
  | .returnStatement => do
    Reading.keyword .returnWord
    let returnsVoid := (← context).returnsVoid
    if ← Reading.isNext (.symbol ';') then
      if !returnsVoid then Reading.unexpected .expression (← Reading.take .expression)
    else
      inner .expression
    Reading.symbol ';'
    if returnsVoid then emit (.push .constant 0)
    emit .ret
  | .condition target => do
    Reading.symbol '('
    inner .expression
    Reading.symbol ')'
    emit (.operate .not)
    emit (.ifGoto target)
  | .block => block (inner .statements)
  | .expression => do
    inner .operand
    inner (.operators .sum)
  | .operand => do
    inner .term
    inner (.operators .product)
  | .operators .sum => do
    if ← chainLink .sum (inner .operand) then inner (.operators .sum)
  | .operators .product => do
    if ← chainLink .product (inner .term) then inner (.operators .product)
  | .term => do
    if ← atCall then inner .call
    else termFrom (inner .term) (inner .expression) (← Reading.take .term)
  | .call => do
    let (name, receivers) ← callee
    Reading.symbol '('
    let count ← inner .arguments
    Reading.symbol ')'
    emit (.call name (← addInWord receivers count))
  | .arguments => do
    if ← Reading.isNext (.symbol ')') then return 0
    inner .expression
    inner (.moreArguments 1)
  | .moreArguments count => do
    if ← Reading.accept (.symbol ',') then
      inner .expression
      inner (.moreArguments (← addInWord count 1))
    else
      return count

def nested (stop : (c : Construct) → Compile ω c.Result) : Nat → (c : Construct) →
    Compile ω c.Result
  | 0 => stop
  | n + 1 => constructWith (nested stop n)

-- ---------------------------------------------------------------------------
-- What the compiler does
-- ---------------------------------------------------------------------------

/-- What the compiler does for a construct, with one bound for the rounds of a loop that is
entered here and one for all that is inside. Where a construct starts with a token of its
own, the compiler has counted it already. -/
def constructAt (rounds bound : Nat) : (c : Construct) → Compile ω c.Result
  | .classDeclaration => classDeclaration (bound - 1)
  | .classVariables => repeatWhile rounds (classVariable bound)
  | .classVariable => classVariable bound
  | .declarators kind => declarators kind bound
  | .moreDeclarators type kind =>
    repeatAfter rounds (.symbol ',') (declareName .variableName type kind)
  | .subroutines => repeatWhile rounds (nextSubroutine bound)
  | .nextSubroutine => nextSubroutine bound
  | .subroutine kind => subroutine kind bound
  | .parameters => parameters bound
  | .parameter => parameter
  | .moreParameters => repeatAfter rounds (.symbol ',') parameter
  | .subroutineBody kind name => subroutineBody kind name bound
  | .localVariables => repeatAfter rounds (.keyword .varWord) (declarators .var bound)
  | .statements => repeatWhile rounds (statement (statements (bound - 1)) (bound - 1))
  | .statement => statement (statements (bound - 1)) (bound - 1)
  | .letStatement => letStatement (bound - 1)
  | .ifStatement => ifStatement (statements (bound - 1)) (bound - 1)
  | .whileStatement => whileStatement (statements (bound - 1)) (bound - 1)
  | .doStatement => doStatement (bound - 1)
  | .returnStatement => returnStatement (bound - 1)
  | .condition target => condition bound target
  | .block => block (statements bound)
  | .expression => expression bound
  | .operand => chain .product (term bound) bound
  | .operators .sum => repeatWhile rounds (chainLink .sum (chain .product (term bound) bound))
  | .operators .product => repeatWhile rounds (chainLink .product (term bound))
  | .term => term bound
  | .call => subroutineCall (expression (bound - 1)) (bound - 1)
  | .arguments => arguments (expression bound) bound
  | .moreArguments count => moreArguments (expression bound) rounds count

/-- One round and one level more than there are lexemes left are enough. -/
def construct (c : Construct) : Compile ω c.Result :=
  fun s => constructAt (s.left + 1) (s.left + 1) c s

theorem statements_eq (bound : Nat) : statements (ω := ω) bound =
    repeatWhile bound (statement (statements (bound - 1)) (bound - 1)) := by
  cases bound <;> rfl

end Compile

end JackVM
