import JackVM.Token.Cursor

/-!
# The tokens ahead

The grammar is read with at most two tokens of lookahead. A lexeme that is no
token is an error as soon as it is looked at, and not before.
-/

namespace JackVM

structure TokenStream where
  lexemes : List Lexeme
  /-- Offset of the end of the source. -/
  stop : Nat

abbrev Reading := EStateM (CompileError Nat) TokenStream

namespace Reading

/-- The first `n` tokens of a list of lexemes, fewer if it ends before. -/
def tokens : Nat → List Lexeme → Except (CompileError Nat) (List Token)
  | 0, _ | _ + 1, [] => .ok []
  | n + 1, .token t :: rest => (tokens n rest).map (t :: ·)
  | _ + 1, .malformed span reason :: _ => .error (.inSource span.start (.lexical reason))

def ahead (n : Nat) : Reading (List Token) := fun s =>
  match tokens n s.lexemes with
  | .ok ts => .ok ts s
  | .error e => .error e s

def peek : Reading (Option Token) := do return (← ahead 1).head?

theorem peek_token (t : Token) (rest : List Lexeme) (stop : Nat) :
    peek ⟨.token t :: rest, stop⟩ = .ok (some t) ⟨.token t :: rest, stop⟩ := rfl

def skip : Reading Unit := modify fun s => { s with lexemes := s.lexemes.tail }

def fail {α : Type} (offset : Nat) (cause : Cause) : Reading α := throw (.inSource offset cause)

def unexpected {α : Type} (expected : Expectation) (found : Token) : Reading α :=
  fail found.span.start (.unexpected expected (some found.kind))

def take (expected : Expectation) : Reading Token := do
  match ← peek with
  | some t => skip; return t
  | none => fail (← get).stop (.unexpected expected none)

theorem take_token (expected : Expectation) (t : Token) (rest : List Lexeme) (stop : Nat) :
    take expected ⟨.token t :: rest, stop⟩ = .ok t ⟨rest, stop⟩ := rfl

def symbol (c : Char) : Reading Unit := do
  let t ← take (.symbol c)
  if t.kind = .symbol c then return () else unexpected (.symbol c) t

def keyword (word : Keyword) : Reading Unit := do
  let t ← take (.keyword word)
  if t.kind = .keyword word then return () else unexpected (.keyword word) t

structure Named where
  name : String
  offset : Nat

def name (expected : Expectation) : Reading Named := do
  let t ← take expected
  match t.kind with
  | .identifier name => return ⟨name, t.span.start⟩
  | _ => unexpected expected t

def isNext (kind : TokenKind) : Reading Bool := do
  return (← peek).any (·.kind = kind)

def accept (kind : TokenKind) : Reading Bool := do
  if ← isNext kind then
    skip
    return true
  else
    return false

def nextKeyword : Reading (Option Keyword) := do
  match ← peek with
  | some ⟨.keyword word, _⟩ => return some word
  | _ => return none

end Reading

end JackVM
