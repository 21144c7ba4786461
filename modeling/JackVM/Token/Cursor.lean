import JackVM.Error
import JackVM.Text.Comment

/-!
# Reading a source

`lexemes` is a source as the compiler sees it. A `Cursor` hands the same
lexemes out one at a time and answers for positions in the source.
-/

namespace JackVM

def uncommented (source : String) : Except (CompileError Nat) (List Char) :=
  match Comment.blankAll source.toList with
  | .ok text => .ok text
  | .error opener => .error (.inSource opener (.lexical .openComment))

def lexemes (source : String) : Except (CompileError Nat) (List Lexeme) :=
  (uncommented source).map Lexeme.all

structure Cursor where
  source : String
  /-- Offset of the first byte of `rest`. -/
  offset : Nat
  /-- What is left of the source without its comments. -/
  rest : List Char

namespace Cursor

def ofSource (source : String) : Except (CompileError Nat) Cursor :=
  (uncommented source).map fun text => ⟨source, 0, text⟩

def skipBlank (c : Cursor) : Cursor :=
  { c with
    offset := c.offset + Text.byteLength (c.rest.takeWhile Text.isBlank)
    rest := c.rest.dropWhile Text.isBlank }

def more (c : Cursor) : Bool × Cursor := (!c.skipBlank.rest.isEmpty, c.skipBlank)

def next (c : Cursor) : Except (CompileError Nat) Token × Cursor :=
  let c := c.skipBlank
  match c.rest with
  | [] => (.error (.inSource c.offset (.unexpected .anyToken none)), c)
  | first :: others =>
    let (found, rest) := Lexeme.next c.offset first others
    let c := { c with offset := found.span.stop, rest }
    match found with
    | .token t => (.ok t, c)
    | .malformed span reason => (.error (.inSource span.start (.lexical reason)), c)

def position (c : Cursor) (offset : Nat) : Position := .ofOffset c.source offset

def endPosition (c : Cursor) : Position := c.position c.source.utf8ByteSize

end Cursor

end JackVM
