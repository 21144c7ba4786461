import JackVM.Toml.Lexical
import JackVM.Toml.Value

/-!
# TOML documents

A document is read to the entries of its root table. `none` stands for a text
that is no document: one that breaks a rule of the format, defines something
twice or nests too deep.
-/

namespace JackVM.Toml

def isScalarPart (c : Char) : Bool := isBareKey c || c = '+' || c = '.' || c = ':'

/-- A value that is a single word, or a date and a time with a space between. -/
def scalar : Reader Value := fun cs =>
  let word := cs.takeWhile isScalarPart
  let rest := cs.dropWhile isScalarPart
  let written := String.ofList word
  if written = "true" then some (.boolean true, rest)
  else if written = "false" then some (.boolean false, rest)
  else if isDateTime word then
    match rest with
    | ' ' :: more =>
      let both := word ++ ' ' :: more.takeWhile isScalarPart
      if isDateTime both then
        some (.dateTime (String.ofList both), more.dropWhile isScalarPart)
      else some (.dateTime written, rest)
    | _ => some (.dateTime written, rest)
  else if isFloat word then some (.float written, rest)
  else (integer? word).map fun n => (.integer n, rest)

def elements (value : Reader Value) : Nat → List Value → Reader (List Value)
  | 0, _, _ => none
  | bound + 1, read, cs =>
    match skipLines false cs with
    | ']' :: rest => some (read.reverse, rest)
    | cs => do
      let (v, cs) ← value cs
      match skipLines false cs with
      | ',' :: rest => elements value bound (v :: read) rest
      | ']' :: rest => some ((v :: read).reverse, rest)
      | _ => none

def keyValue (value : Reader Value) (put : List String → String → Value → Option Entries) :
    Reader Entries := fun cs => do
  let ((path, key), cs) ← keyPath cs
  let '=' :: cs := cs | none
  let (v, cs) ← value (skipSpace cs)
  return (← put path key v, cs)

def inlineEntries (value : Reader Value) : Nat → Entries → Reader Entries
  | 0, _, _ => none
  | bound + 1, es, cs => do
    let (es, cs) ← keyValue value (fun path key v => es.insert path key v .inline) cs
    match skipSpace cs with
    | ',' :: rest => inlineEntries value bound es rest
    | '}' :: rest => some (es, rest)
    | _ => none

/-- A value in which arrays and inline tables nest at most `depth` deep. -/
def value : Nat → Reader Value
  | _, '"' :: cs => (stringAfter '"' cs).map fun (s, rest) => (.string s, rest)
  | _, '\'' :: cs => (stringAfter '\'' cs).map fun (s, rest) => (.string s, rest)
  | 0, '[' :: _ | 0, '{' :: _ => none
  | depth + 1, '[' :: cs =>
    (elements (value depth) (cs.length + 1) [] cs).map fun (vs, rest) => (.array vs, rest)
  | depth + 1, '{' :: cs =>
    match skipSpace cs with
    | '}' :: rest => some (.table .inline [], rest)
    | _ =>
      (inlineEntries (value depth) (cs.length + 1) [] cs).map fun (es, rest) =>
        (.table .inline es, rest)
  | _, cs => scalar cs

def maxDepth : Nat := 79

/-- What has been read, and the path to the table that the last header
opened. -/
structure Progress where
  root : Entries := []
  current : List String := []

def Progress.insert (p : Progress) (path : List String) (key : String) (v : Value) :
    Option Entries :=
  p.root.update false (fun origin es => es.insert path key v origin) p.current .header

def Progress.openAt (p : Progress) (path : List String) (key : String)
    (opening : String → Entries → Option Entries) : Option Progress := do
  let root ← p.root.update false (fun _ es => opening key es) path .header
  return ⟨root, path ++ [key]⟩

def line? (p : Progress) (cs : List Char) : Option (Progress × List Char) :=
  match cs with
  | '[' :: '[' :: cs => do
    let ((path, key), cs) ← keyPath cs
    let ']' :: ']' :: cs := cs | none
    return (← p.openAt path key Entries.openElement, ← endLine? cs)
  | '[' :: cs => do
    let ((path, key), cs) ← keyPath cs
    let ']' :: cs := cs | none
    return (← p.openAt path key Entries.openTable, ← endLine? cs)
  | cs => do
    let (root, cs) ← keyValue (value maxDepth) p.insert cs
    return ({ p with root }, ← endLine? cs)

def lines? : Nat → Progress → List Char → Option Entries
  | 0, _, _ => none
  | bound + 1, p, cs =>
    match skipSpace cs with
    | [] => some p.root
    | c :: cs => do
      if c = '#' || c = '\n' || c = '\r' then
        lines? bound p (← endLine? (c :: cs))
      else
        let (p, rest) ← line? p (c :: cs)
        lines? bound p rest

/-- A byte order mark in front is passed over. -/
def parse? (text : String) : Option Entries :=
  let cs := match text.toList with
    | '\uFEFF' :: cs => cs
    | cs => cs
  lines? (cs.length + 1) {} cs

end JackVM.Toml
