/-!
# Reserved words
-/

namespace JackVM

inductive Keyword
  | classWord
  | constructorWord
  | functionWord
  | methodWord
  | fieldWord
  | staticWord
  | varWord
  | intWord
  | charWord
  | booleanWord
  | voidWord
  | trueWord
  | falseWord
  | nullWord
  | thisWord
  | letWord
  | doWord
  | ifWord
  | elseWord
  | whileWord
  | returnWord
  deriving DecidableEq, Repr

namespace Keyword

def all : List Keyword :=
  [.classWord, .constructorWord, .functionWord, .methodWord, .fieldWord, .staticWord, .varWord,
    .intWord, .charWord, .booleanWord, .voidWord, .trueWord, .falseWord, .nullWord, .thisWord,
    .letWord, .doWord, .ifWord, .elseWord, .whileWord, .returnWord]

def spelling : Keyword → String
  | .classWord => "class"
  | .constructorWord => "constructor"
  | .functionWord => "function"
  | .methodWord => "method"
  | .fieldWord => "field"
  | .staticWord => "static"
  | .varWord => "var"
  | .intWord => "int"
  | .charWord => "char"
  | .booleanWord => "boolean"
  | .voidWord => "void"
  | .trueWord => "true"
  | .falseWord => "false"
  | .nullWord => "null"
  | .thisWord => "this"
  | .letWord => "let"
  | .doWord => "do"
  | .ifWord => "if"
  | .elseWord => "else"
  | .whileWord => "while"
  | .returnWord => "return"

/-- Case matters: `Class` is no keyword. -/
def ofWord? (word : String) : Option Keyword := all.find? (·.spelling == word)

theorem ofWord?_spelling (k : Keyword) : ofWord? k.spelling = some k := by
  cases k <;> decide

theorem spelling_of_ofWord? {word : String} {k : Keyword} (h : ofWord? word = some k) :
    k.spelling = word := by
  simpa using List.find?_some h

end Keyword

end JackVM
