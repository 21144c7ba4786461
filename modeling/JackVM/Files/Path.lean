/-!
# Paths

A path is a text. Slashes divide it into pieces; empty pieces and single dots
change nothing and two dots lead to the parent directory. `components` is a
path without what changes nothing, except that a dot in front is kept.

Paths and names are made of characters. Names whose bytes are no UTF-8, which some
systems allow, are left out here and in what is built on paths.
-/

namespace JackVM

inductive PathStep
  | root
  | here
  | up
  | name (n : String)
  deriving DecidableEq, Repr

structure Path where
  text : String
  deriving DecidableEq, Repr

namespace Path

/-- What lies between the slashes; one piece more than there are slashes. -/
def split : List Char → List (List Char)
  | [] => [[]]
  | c :: cs =>
    if c = '/' then [] :: split cs
    else match split cs with
      | [] => [[c]]
      | piece :: pieces => (c :: piece) :: pieces

def join : List (List Char) → List Char
  | [] => []
  | [piece] => piece
  | piece :: pieces => piece ++ '/' :: join pieces

theorem split_ne_nil (cs : List Char) : split cs ≠ [] := by
  cases cs with
  | nil => simp [split]
  | cons c cs => unfold split; repeat' split <;> simp

theorem join_cons_cons (c : Char) (piece : List Char) (pieces : List (List Char)) :
    join ((c :: piece) :: pieces) = c :: join (piece :: pieces) := by
  cases pieces <;> simp [join]

theorem join_split (cs : List Char) : join (split cs) = cs := by
  induction cs with
  | nil => rfl
  | cons c cs ih =>
    cases hs : split cs with
    | nil => exact absurd hs (split_ne_nil cs)
    | cons piece pieces =>
      rw [hs] at ih
      by_cases hc : c = '/'
      · simp [split, hs, hc, join, ih]
      · simp [split, hs, hc, join_cons_cons, ih]

def pieces (p : Path) : List (List Char) := split p.text.toList

def step? (piece : List Char) : Option PathStep :=
  if piece = [] then none
  else if piece = ['.'] then some .here
  else if piece = ['.', '.'] then some .up
  else some (.name (String.ofList piece))

def isAbsolute (p : Path) : Bool := p.text.toList.head? = some '/'

def endsInSlash (p : Path) : Bool := p.text.toList.getLast? = some '/'

def steps (p : Path) : List PathStep :=
  let inside := p.pieces.filterMap step?
  if p.isAbsolute then .root :: inside else inside

def components (p : Path) : List PathStep :=
  match p.steps with
  | [] => []
  | first :: rest => first :: rest.filter (· ≠ .here)

def fileName? (p : Path) : Option String :=
  match p.components.getLast? with
  | some (.name n) => some n
  | _ => none

/-- A name at its last dot. A dot in front divides nothing. -/
def splitName (name : List Char) : List Char × Option (List Char) :=
  match name.reverse.dropWhile (· ≠ '.') with
  | [] | [_] => (name, none)
  | _ :: stem => (stem.reverse, some (name.reverse.takeWhile (· ≠ '.')).reverse)

theorem splitName_append (name : List Char) :
    (splitName name).1 ++ ((splitName name).2.map ('.' :: ·)).getD [] = name := by
  unfold splitName
  split
  · simp
  · simp
  · next d stem _ h =>
    have hd : d = '.' := by
      have hfirst := List.head?_dropWhile_not (· ≠ '.') name.reverse
      rw [h] at hfirst
      simpa using hfirst
    have hwhole : name.reverse.takeWhile (· ≠ '.') ++ d :: stem = name.reverse := by
      rw [← h]
      exact List.takeWhile_append_dropWhile
    rw [hd] at hwhole
    simpa using congrArg List.reverse hwhole

def stem? (p : Path) : Option String :=
  p.fileName?.map fun n => String.ofList (splitName n.toList).1

def extension? (p : Path) : Option String :=
  p.fileName?.bind fun n => (splitName n.toList).2.map String.ofList

def replaceAfterStem (p : Path) (ending : String) : Path :=
  match p.fileName?, p.pieces.reverse.dropWhile fun piece => piece = [] || piece = ['.'] with
  | some _, name :: before =>
    let named := (splitName name).1 ++ ending.toList
    ⟨String.ofList (join (named :: before).reverse)⟩
  | _, _ => p

/-- The text first loses as many characters at its end as the old extension
has, then what follows the stem is replaced. So `..jack` becomes `..`, which
has no file name any more. -/
def withExtension (p : Path) (extension : String) : Path :=
  let shortened : Path :=
    match p.extension? with
    | some old => ⟨String.ofList (p.text.toList.take (p.text.length - old.length))⟩
    | none => p
  shortened.replaceAfterStem ("." ++ extension)

def child (directory : Path) (name : String) : Path :=
  if directory.text.isEmpty then ⟨name⟩
  else if directory.endsInSlash then ⟨directory.text ++ name⟩
  else ⟨directory.text ++ "/" ++ name⟩

end Path

end JackVM
