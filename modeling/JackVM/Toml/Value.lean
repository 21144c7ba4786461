/-!
# TOML values and tables

How a table came to be decides whether it may still grow: a header may fill in
a table that so far was only passed through by other headers, dotted keys may
extend a table made by dotted keys, and nothing extends an inline table.
-/

namespace JackVM.Toml

inductive Origin
  /-- Written between braces. -/
  | inline
  /-- Opened by a header of its own. -/
  | header
  /-- Passed through by a longer header. -/
  | implied
  /-- Made by a dotted key. -/
  | dotted
  deriving DecidableEq, Repr

/-- Numbers that are no integers, and dates and times, are kept as written. -/
inductive Value
  | string (s : String)
  | integer (n : Int)
  | float (written : String)
  | boolean (b : Bool)
  | dateTime (written : String)
  | array (elements : List Value)
  | table (origin : Origin) (entries : List (String × Value))
  /-- Tables under one repeated header, never none. -/
  | tables (elements : List (List (String × Value)))

abbrev Entries := List (String × Value)

namespace Entries

def find? (es : Entries) (key : String) : Option Value := List.lookup key es

def put (es : Entries) (key : String) (v : Value) : Entries :=
  if es.any (·.1 == key) then es.map fun e => if e.1 == key then (key, v) else e
  else es ++ [(key, v)]

/-- Changes the table that a path of keys leads to from a table of the given
origin, making those that are missing on the way. A repeated header's tables
stand for the last of them. -/
def update (byDottedKey : Bool) (change : Origin → Entries → Option Entries) :
    List String → Origin → Entries → Option Entries
  | [], origin, es => change origin es
  | key :: path, _, es =>
    match es.find? key with
    | none => do
      let origin : Origin := if byDottedKey then .dotted else .implied
      let inner ← update byDottedKey change path origin []
      return put es key (.table origin inner)
    | some (.table origin inner) =>
      if origin = .inline || byDottedKey && origin = .header then none
      else do
        let inner ← update byDottedKey change path origin inner
        return put es key (.table origin inner)
    | some (.tables elements) =>
      match elements.reverse with
      | [] => none
      | last :: earlier => do
        let last ← update byDottedKey change path .header last
        return put es key (.tables (last :: earlier).reverse)
    | some _ => none

/-- Adds `path.key = v` to a table of the given origin. The table that the
path leads to must have been made by a dotted key, and the key must be new. -/
def insert (path : List String) (key : String) (v : Value) (origin : Origin) (es : Entries) :
    Option Entries :=
  let add (origin : Origin) (es : Entries) : Option Entries :=
    if decide (origin = .dotted) == path.isEmpty then none
    else if (es.find? key).isSome then none
    else some (es ++ [(key, v)])
  update true add path origin es

def openTable (key : String) (es : Entries) : Option Entries :=
  match es.find? key with
  | none => some (es ++ [(key, .table .header [])])
  | some (.table .implied inner) => some (put es key (.table .header inner))
  | some _ => none

def openElement (key : String) (es : Entries) : Option Entries :=
  match es.find? key with
  | none => some (es ++ [(key, .tables [[]])])
  | some (.tables elements) => some (put es key (.tables (elements ++ [[]])))
  | some _ => none

end Entries

end JackVM.Toml
