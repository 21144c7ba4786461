import JackVM.Variable
import JackVM.Token.Lexeme
import JackVM.VM.Sink

/-!
# Why a class does not compile

An error is a cause and a place. While compiling, the place is a byte offset;
`locate` turns it into a position in the source. What keeps an instruction from
being written, a sink that fails or an operand that overflows, has no place.
-/

namespace JackVM

def LexicalError.message : LexicalError → String
  | .openComment => "unterminated block comment"
  | .openString => "unterminated string constant"
  | .brokenString => "string constant contains a line break"
  | .integerRange word =>
    "integer constant " ++ word ++ " is out of range 0..=" ++ toString maxInteger
  | .unknownWord word => "unknown token '" ++ word ++ "'"

inductive Expectation
  | symbol (c : Char)
  | keyword (word : Keyword)
  | className
  | typeName
  | variableName
  | parameterName
  | subroutineName
  | callee
  | term
  | expression
  | anyToken
  | endOfInput
  deriving DecidableEq, Repr

def Expectation.describe : Expectation → String
  | .symbol c => "'" ++ String.singleton c ++ "'"
  | .keyword word => "'" ++ word.spelling ++ "'"
  | .className => "class name"
  | .typeName => "type"
  | .variableName => "variable name"
  | .parameterName => "parameter name"
  | .subroutineName => "subroutine name"
  | .callee => "subroutine, class or variable name"
  | .term => "term"
  | .expression => "expression"
  | .anyToken => "a token"
  | .endOfInput => "end of input"

inductive SemanticError
  | noFreeSlot (kind : VariableKind) (name : String)
  | undefinedVariable (name : String)
  | variableCalled (name : String)
  | longString
  | wideCharacter (c : Char)
  deriving DecidableEq, Repr

def SemanticError.message : SemanticError → String
  | .noFreeSlot kind name =>
    "too many " ++ kind.word ++ " variables, '" ++ name ++ "' has no free slot"
  | .undefinedVariable name => "undefined variable '" ++ name ++ "'"
  | .variableCalled name => "'" ++ name ++ "' is a variable and cannot be called"
  | .longString => "string constant is too long"
  | .wideCharacter c => "character '" ++ String.singleton c ++ "' has no 16-bit code"

inductive Cause
  | lexical (error : LexicalError)
  /-- At the end of the input, `found` is `none`. -/
  | unexpected (expected : Expectation) (found : Option TokenKind)
  | semantic (error : SemanticError)
  deriving DecidableEq, Repr

def Cause.message : Cause → String
  | .lexical error => "LexicalError: " ++ error.message
  | .unexpected expected found =>
    "SyntaxError: expected " ++ expected.describe ++ ", found " ++
      (found.map TokenKind.describe).getD "end of input"
  | .semantic error => "SemanticError: " ++ error.message

inductive CompileError (Place : Type)
  | inSource (place : Place) (cause : Cause)
  | inSink (error : SinkError)
  deriving DecidableEq, Repr

namespace CompileError

def locate (source : String) : CompileError Nat → CompileError Position
  | .inSource offset cause => .inSource (.ofOffset source offset) cause
  | .inSink error => .inSink error

def message : CompileError Position → String
  | .inSource position cause => position.text ++ ": " ++ cause.message
  | .inSink error => "IOError: " ++ error.message

end CompileError

end JackVM
