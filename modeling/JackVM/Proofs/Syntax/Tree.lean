import JackVM.Compile.Class

/-!
# Syntax trees

Trees of the class grammar and the tokens that spell them. Compiling builds no
tree; a tree says what a compiled text means.

The chains of operators are left-recursive: `a - b + c` is the sum of the
expression `a - b` and the operand `c`, so that the shape of a tree is its
grouping.
-/

namespace JackVM.Syntax

open Compile (SubroutineKind)

abbrev OperatorOf (level : OperatorLevel) := { op : BinaryOperator // op.level = level }

def plus : OperatorOf .sum := ⟨.add, rfl⟩

def minus : OperatorOf .sum := ⟨.sub, rfl⟩

def times : OperatorOf .product := ⟨.mul, rfl⟩

inductive Constant
  | true
  | false
  | null
  | this
  deriving DecidableEq, Repr

inductive Callee
  | own (subroutine : String)
  | member (owner subroutine : String)
  deriving DecidableEq, Repr

mutual
inductive Term
  | integer (value : Nat)
  | string (value : String)
  | constant (word : Constant)
  | variable (name : String)
  | element (array : String) (index : Expression)
  | group (inner : Expression)
  | unary (op : UnaryOperator) (operand : Term)
  | call (call : Call)
inductive Operand
  | term (single : Term)
  | product (left : Operand) (op : OperatorOf .product) (right : Term)
inductive Expression
  | operand (single : Operand)
  | sum (left : Expression) (op : OperatorOf .sum) (right : Operand)
inductive Call
  | mk (callee : Callee) (arguments : List Expression)
end

inductive Statement
  | assign (target : String) (value : Expression)
  | assignElement (array : String) (index value : Expression)
  | ifThen (condition : Expression) (body : List Statement)
  | ifElse (condition : Expression) (body otherwise : List Statement)
  | whileLoop (condition : Expression) (body : List Statement)
  | run (call : Call)
  | leave (value : Option Expression)

inductive TypeName
  | int
  | char
  | boolean
  | named (name : String)
  deriving DecidableEq, Repr

/-- One type and the names declared with it, at least one. -/
structure Declarators where
  type : TypeName
  first : String
  others : List String

inductive ClassStorage
  | static
  | field
  deriving DecidableEq, Repr

structure ClassVariables where
  storage : ClassStorage
  declarators : Declarators

structure Parameter where
  type : TypeName
  name : String

structure Subroutine where
  kind : SubroutineKind
  /-- `none` for `void`. -/
  returnType : Option TypeName
  name : String
  parameters : List Parameter
  locals : List Declarators
  body : List Statement

structure JackClass where
  name : String
  vars : List ClassVariables
  subroutines : List Subroutine

-- ---------------------------------------------------------------------------
-- Tokens
-- ---------------------------------------------------------------------------

def inParens (kinds : List TokenKind) : List TokenKind := .symbol '(' :: (kinds ++ [.symbol ')'])

def inBraces (kinds : List TokenKind) : List TokenKind := .symbol '{' :: (kinds ++ [.symbol '}'])

@[simp] theorem length_inParens (kinds : List TokenKind) :
    (inParens kinds).length = kinds.length + 2 := by simp [inParens]

@[simp] theorem length_inBraces (kinds : List TokenKind) :
    (inBraces kinds).length = kinds.length + 2 := by simp [inBraces]

def Constant.word : Constant → Keyword
  | .true => .trueWord
  | .false => .falseWord
  | .null => .nullWord
  | .this => .thisWord

def Callee.tokens : Callee → List TokenKind
  | .own subroutine => [.identifier subroutine]
  | .member owner subroutine => [.identifier owner, .symbol '.', .identifier subroutine]

mutual
def Term.tokens : Term → List TokenKind
  | .integer value => [.integer value]
  | .string value => [.string value]
  | .constant word => [.keyword word.word]
  | .variable name => [.identifier name]
  | .element array index =>
    .identifier array :: .symbol '[' :: (index.tokens ++ [.symbol ']'])
  | .group inner => inParens inner.tokens
  | .unary op operand => .symbol op.symbol :: operand.tokens
  | .call call => call.tokens
def Operand.tokens : Operand → List TokenKind
  | .term single => single.tokens
  | .product left op right => left.tokens ++ .symbol op.1.symbol :: right.tokens
def Expression.tokens : Expression → List TokenKind
  | .operand single => single.tokens
  | .sum left op right => left.tokens ++ .symbol op.1.symbol :: right.tokens
def Call.tokens : Call → List TokenKind
  | .mk callee args => callee.tokens ++ inParens (Arguments.tokens args)
def Arguments.tokens : List Expression → List TokenKind
  | [] => []
  | first :: others => first.tokens ++ Arguments.moreTokens others
def Arguments.moreTokens : List Expression → List TokenKind
  | [] => []
  | next :: others => .symbol ',' :: (next.tokens ++ Arguments.moreTokens others)
end

mutual
def Statement.tokens : Statement → List TokenKind
  | .assign target value =>
    .keyword .letWord :: .identifier target :: .symbol '=' :: (value.tokens ++ [.symbol ';'])
  | .assignElement array index value =>
    .keyword .letWord :: .identifier array :: .symbol '[' ::
      (index.tokens ++ .symbol ']' :: .symbol '=' :: (value.tokens ++ [.symbol ';']))
  | .ifThen condition body =>
    .keyword .ifWord :: (inParens condition.tokens ++ inBraces (Statements.tokens body))
  | .ifElse condition body otherwise =>
    .keyword .ifWord :: (inParens condition.tokens ++ (inBraces (Statements.tokens body) ++
      .keyword .elseWord :: inBraces (Statements.tokens otherwise)))
  | .whileLoop condition body =>
    .keyword .whileWord :: (inParens condition.tokens ++ inBraces (Statements.tokens body))
  | .run call => .keyword .doWord :: (call.tokens ++ [.symbol ';'])
  | .leave none => [.keyword .returnWord, .symbol ';']
  | .leave (some value) => .keyword .returnWord :: (value.tokens ++ [.symbol ';'])
def Statements.tokens : List Statement → List TokenKind
  | [] => []
  | first :: others => first.tokens ++ Statements.tokens others
end

def TypeName.token : TypeName → TokenKind
  | .int => .keyword .intWord
  | .char => .keyword .charWord
  | .boolean => .keyword .booleanWord
  | .named name => .identifier name

def Declarators.tokens (d : Declarators) : List TokenKind :=
  d.type.token :: .identifier d.first ::
    (d.others.flatMap (fun name => [.symbol ',', .identifier name]) ++ [.symbol ';'])

def ClassStorage.word : ClassStorage → Keyword
  | .static => .staticWord
  | .field => .fieldWord

def ClassVariables.tokens (v : ClassVariables) : List TokenKind :=
  .keyword v.storage.word :: v.declarators.tokens

def Parameter.tokens (p : Parameter) : List TokenKind := [p.type.token, .identifier p.name]

def Parameters.tokens : List Parameter → List TokenKind
  | [] => []
  | first :: others => first.tokens ++ others.flatMap fun p => .symbol ',' :: p.tokens

def kindWord : SubroutineKind → Keyword
  | .constructor => .constructorWord
  | .function => .functionWord
  | .method => .methodWord

def returnToken : Option TypeName → TokenKind
  | none => .keyword .voidWord
  | some type => type.token

def bodyTokens (locals : List Declarators) (body : List Statement) : List TokenKind :=
  inBraces (locals.flatMap (fun d => .keyword .varWord :: d.tokens) ++ Statements.tokens body)

def Subroutine.tokens (s : Subroutine) : List TokenKind :=
  .keyword (kindWord s.kind) :: returnToken s.returnType :: .identifier s.name ::
    (inParens (Parameters.tokens s.parameters) ++ bodyTokens s.locals s.body)

def JackClass.tokens (c : JackClass) : List TokenKind :=
  .keyword .classWord :: .identifier c.name ::
    inBraces (c.vars.flatMap ClassVariables.tokens ++ c.subroutines.flatMap Subroutine.tokens)

end JackVM.Syntax
