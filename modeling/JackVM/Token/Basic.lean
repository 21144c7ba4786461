import JackVM.Token.Keyword

/-!
# Tokens

What a class is written in. A token remembers the bytes it was read from;
its kind alone decides what is compiled.
-/

namespace JackVM

structure Span where
  start : Nat
  stop : Nat
  deriving DecidableEq, Repr

def Span.length (s : Span) : Nat := s.stop - s.start

inductive TokenKind
  | keyword (word : Keyword)
  | symbol (c : Char)
  | identifier (name : String)
  | integer (value : Nat)
  | string (value : String)
  deriving DecidableEq, Repr

structure Token where
  kind : TokenKind
  span : Span
  deriving DecidableEq, Repr

def symbols : List Char :=
  ['{', '}', '(', ')', '[', ']', '.', ',', ';', '+', '-', '*', '/', '&', '|', '<', '>', '=', '~']

def isSymbol (c : Char) : Bool := symbols.contains c

def maxInteger : Nat := 32767

def TokenKind.describe : TokenKind → String
  | .keyword word => "keyword '" ++ word.spelling ++ "'"
  | .symbol c => "'" ++ String.singleton c ++ "'"
  | .identifier name => "identifier '" ++ name ++ "'"
  | .integer value => "integer " ++ toString value
  | .string value => "string \"" ++ value ++ "\""

end JackVM
