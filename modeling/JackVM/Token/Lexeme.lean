import JackVM.Text.Blank
import JackVM.Text.Position
import JackVM.Token.Basic

/-!
# Lexemes

A text without comments is a sequence of lexemes with white space between
them. A lexeme that is no token is reported and passed over; the next one
starts where it ends.
-/

namespace JackVM

inductive LexicalError
  | openComment
  | openString
  /-- A line feed or carriage return before the closing quote. -/
  | brokenString
  | integerRange (word : String)
  | unknownWord (word : String)
  deriving DecidableEq, Repr

inductive Lexeme
  | token (t : Token)
  | malformed (span : Span) (reason : LexicalError)
  deriving DecidableEq, Repr

namespace Lexeme

def span : Lexeme → Span
  | .token t => t.span
  | .malformed s _ => s

def isDigit (c : Char) : Bool := '0' ≤ c && c ≤ '9'

def isNameStart (c : Char) : Bool := ('a' ≤ c && c ≤ 'z') || ('A' ≤ c && c ≤ 'Z') || c == '_'

def isName : List Char → Bool
  | [] => false
  | c :: cs => isNameStart c && cs.all fun d => isNameStart d || isDigit d

def digitsValue (ds : List Char) : Nat := ds.foldl (fun n d => 10 * n + (d.toNat - '0'.toNat)) 0

/-- A word runs to the next white space or symbol. A quote does not end it. -/
def isWordPart (c : Char) : Bool := !Text.isBlank c && !isSymbol c

/-- A string constant runs to its closing quote or to the end of the line. -/
def isStringPart (c : Char) : Bool := c ≠ '"' && c ≠ '\n' && c ≠ '\r'

def ofWord (span : Span) (word : List Char) : Lexeme :=
  let spelling := String.ofList word
  match Keyword.ofWord? spelling with
  | some k => .token ⟨.keyword k, span⟩
  | none =>
    if word.all isDigit then
      if digitsValue word ≤ maxInteger then .token ⟨.integer (digitsValue word), span⟩
      else .malformed span (.integerRange spelling)
    else if isName word then .token ⟨.identifier spelling, span⟩
    else .malformed span (.unknownWord spelling)

def ofQuote (start : Nat) (cs : List Char) : Lexeme × List Char :=
  let body := cs.takeWhile isStringPart
  let stop := start + 1 + Text.byteLength body
  match cs.dropWhile isStringPart with
  | [] => (.malformed ⟨start, stop⟩ .openString, [])
  | c :: rest =>
    if c = '"' then (.token ⟨.string (String.ofList body), ⟨start, stop + 1⟩⟩, rest)
    else (.malformed ⟨start, stop + 1⟩ .brokenString, rest)

/-- The lexeme that starts with `c` at `start`, and the text after it; `c` is
no white space. -/
def next (start : Nat) (c : Char) (cs : List Char) : Lexeme × List Char :=
  if c = '"' then ofQuote start cs
  else if isSymbol c then (.token ⟨.symbol c, ⟨start, start + c.utf8Size⟩⟩, cs)
  else
    let word := c :: cs.takeWhile isWordPart
    (ofWord ⟨start, start + Text.byteLength word⟩ word, cs.dropWhile isWordPart)

theorem length_dropWhile_le (p : Char → Bool) (cs : List Char) :
    (cs.dropWhile p).length ≤ cs.length :=
  (List.dropWhile_sublist p).length_le

/-- What is left after a lexeme is no longer than what followed its first
character. -/
theorem length_next_le (start : Nat) (c : Char) (cs : List Char) :
    (next start c cs).2.length ≤ cs.length := by
  have hs := length_dropWhile_le isStringPart cs
  have hw := length_dropWhile_le isWordPart cs
  unfold next
  split
  · unfold ofQuote
    split
    · simp
    · next h =>
      rw [h] at hs
      split <;> exact Nat.le_of_succ_le hs
  · split
    · exact Nat.le_refl _
    · exact hw

/-- All lexemes of a text whose first byte has offset `offset`; `done` are
those before it, last one first. -/
def allFrom (offset : Nat) (cs : List Char) (done : List Lexeme) : List Lexeme :=
  match _h : cs.dropWhile Text.isBlank with
  | [] => done.reverse
  | c :: rest =>
    let start := offset + Text.byteLength (cs.takeWhile Text.isBlank)
    let found := next start c rest
    allFrom found.1.span.stop found.2 (found.1 :: done)
termination_by cs.length
decreasing_by
  have hb := length_dropWhile_le Text.isBlank cs
  have hn := length_next_le (offset + Text.byteLength (cs.takeWhile Text.isBlank)) c rest
  rw [_h, List.length_cons] at hb
  omega

def all (text : List Char) : List Lexeme := allFrom 0 text []

end Lexeme

end JackVM
