import JackVM.Text.Position

/-!
# Comments

Comments are blanked rather than removed: a space for every byte, line feeds
kept. So an offset into the blanked text is an offset into the source.

A comment opens only outside string constants and other comments. For this
purpose a line feed ends a string constant as a quote does.
-/

namespace JackVM.Comment

inductive Region
  | code
  | string
  | line
  /-- A block comment, with the offset of the slash that opens it. -/
  | block (opener : Nat)
  deriving DecidableEq, Repr

def blank (c : Char) : List Char :=
  if c = '\n' then ['\n'] else List.replicate c.utf8Size ' '

theorem byteLength_blank (c : Char) : Text.byteLength (blank c) = c.utf8Size := by
  unfold blank
  split
  · next h => subst h; rfl
  · have hs : ' '.utf8Size = 1 := rfl
    rw [Text.byteLength_replicate, hs, Nat.mul_one]

/-- Blanks a text that starts in `region` at byte `offset`; `out` is what comes
before it, last character first. -/
def blankFrom (region : Region) (offset : Nat) (out : List Char) (text : List Char) :
    Except Nat (List Char) :=
  match region, text with
  | .block opener, [] => .error opener
  | _, [] => .ok out.reverse
  | .code, '/' :: '/' :: cs => blankFrom .line (offset + 2) (' ' :: ' ' :: out) cs
  | .code, '/' :: '*' :: cs => blankFrom (.block offset) (offset + 2) (' ' :: ' ' :: out) cs
  | .code, c :: cs =>
    blankFrom (if c = '"' then .string else .code) (offset + c.utf8Size) (c :: out) cs
  | .string, c :: cs =>
    blankFrom (if c = '"' ∨ c = '\n' then .code else .string) (offset + c.utf8Size) (c :: out) cs
  | .line, c :: cs =>
    blankFrom (if c = '\n' then .code else .line) (offset + c.utf8Size) (blank c ++ out) cs
  | .block _, '*' :: '/' :: cs => blankFrom .code (offset + 2) (' ' :: ' ' :: out) cs
  | .block opener, c :: cs =>
    blankFrom (.block opener) (offset + c.utf8Size) (blank c ++ out) cs

/-- The source with its comments blanked, or the offset of the block comment
that is never closed. -/
def blankAll (source : List Char) : Except Nat (List Char) := blankFrom .code 0 [] source

end JackVM.Comment
