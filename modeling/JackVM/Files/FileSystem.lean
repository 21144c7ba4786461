import JackVM.Files.Path

/-!
# File systems

A file system lists its directories and files by where they are, in no
particular order. A path is followed step by step from the working directory;
every step starts in a directory that may be entered. At each place entering,
reading or writing may be refused, whatever is there.

There are no links: a place leads nowhere else, and what is written at one place
shows at no other.
-/

namespace JackVM

inductive FileError
  | notFound
  | alreadyExists
  | notDirectory
  | isDirectory
  | notPermitted
  /-- A name, or the path as a whole, has too many bytes. -/
  | longName
  /-- The path holds a zero character. -/
  | zeroInPath
  /-- The bytes of the file are not UTF-8. -/
  | notText
  /-- Any other reason the surroundings give. -/
  | other (message : String)
  deriving DecidableEq, Repr

def FileError.message : FileError → String
  | .notFound => "No such file or directory (os error 2)"
  | .alreadyExists => "File exists (os error 17)"
  | .notDirectory => "Not a directory (os error 20)"
  | .isDirectory => "Is a directory (os error 21)"
  | .notPermitted => "Permission denied (os error 13)"
  | .longName => "File name too long (os error 36)"
  | .zeroInPath => "file name contained an unexpected NUL byte"
  | .notText => "stream did not contain valid UTF-8"
  | .other message => message

inductive EntryKind
  | directory
  | file
  /-- Neither, such as a device. A file system that is a value holds none. -/
  | other
  deriving DecidableEq, Repr

inductive Entry
  | directory
  | file (bytes : ByteArray)

def Entry.kind : Entry → EntryKind
  | .directory => .directory
  | .file _ => .file

def Entry.text : Entry → Except FileError String
  | .directory => .error .isDirectory
  | .file bytes =>
    match String.fromUTF8? bytes with
    | some text => .ok text
    | none => .error .notText

inductive Access
  /-- Following a path on from a directory. -/
  | enter
  /-- Reading a file or listing a directory. -/
  | read
  /-- Making a file or a directory, or replacing the content of a file. -/
  | write
  deriving DecidableEq, Repr

abbrev Location := List String

structure FileSystem where
  entries : List (Location × Entry) := []
  workingDirectory : Location := []
  /-- Why an access is refused, if it is. -/
  refusal? : Access → Location → Option FileError := fun _ _ => none

namespace FileSystem

def maxName : Nat := 255

def find? (fs : FileSystem) (l : Location) : Option Entry :=
  if l = [] then some .directory else fs.entries.lookup l

def kind? (fs : FileSystem) (l : Location) : Option EntryKind := (fs.find? l).map Entry.kind

def put (fs : FileSystem) (l : Location) (e : Entry) : FileSystem :=
  if (fs.entries.lookup l).isSome then
    { fs with entries := fs.entries.map fun (k, old) => (k, if k = l then e else old) }
  else { fs with entries := fs.entries ++ [(l, e)] }

theorem lookup_map_replace (entries : List (Location × Entry)) (l k : Location) (e : Entry) :
    (entries.map fun (k, old) => (k, if k = l then e else old)).lookup k =
      (entries.lookup k).map fun old => if k = l then e else old := by
  induction entries with
  | nil => rfl
  | cons entry entries ih =>
    obtain ⟨k', old⟩ := entry
    simp only [List.map_cons, List.lookup_cons]
    split
    · next h => simp [eq_of_beq h]
    · exact ih

theorem find?_put (fs : FileSystem) (l k : Location) (e : Entry) (h : k ≠ []) :
    (fs.put l e).find? k = if k = l then some e else fs.find? k := by
  simp only [find?, if_neg h]
  unfold put
  by_cases hl : (fs.entries.lookup l).isSome
  · rw [if_pos hl, lookup_map_replace]
    by_cases hk : k = l
    · subst hk
      obtain ⟨old, hold⟩ := Option.isSome_iff_exists.1 hl
      simp [hold]
    · simp [hk]
  · rw [if_neg hl, List.lookup_append]
    by_cases hk : k = l
    · subst hk
      simp [Option.not_isSome_iff_eq_none.1 hl]
    · simp [hk, List.lookup_cons, beq_false_of_ne hk]

def permit (fs : FileSystem) (a : Access) (l : Location) : Except FileError Unit :=
  match fs.refusal? a l with
  | none => .ok ()
  | some e => .error e

def requireDirectory (fs : FileSystem) (l : Location) : Except FileError Unit :=
  match fs.kind? l with
  | none => .error .notFound
  | some .directory => .ok ()
  | some _ => .error .notDirectory

def enter (fs : FileSystem) (l : Location) : Except FileError Unit := do
  fs.requireDirectory l
  fs.permit .enter l

/-- A step to the root starts nowhere. -/
def step (fs : FileSystem) (l : Location) : PathStep → Except FileError Location
  | .root => .ok []
  | .here => do
    fs.enter l
    return l
  | .up => do
    fs.enter l
    return l.dropLast
  | .name n => do
    fs.enter l
    if maxName < n.utf8ByteSize then throw .longName
    if (fs.kind? (l ++ [n])).isNone then throw .notFound
    return l ++ [n]

def walk (fs : FileSystem) (l : Location) (steps : List PathStep) : Except FileError Location :=
  steps.foldlM fs.step l

/-- Longest path, in bytes, counting also what changes nothing in it. -/
def maxPath : Nat := 4095

def checkPath (p : Path) : Except FileError Unit :=
  if p.text.toList.contains '\x00' then .error .zeroInPath
  else if maxPath < p.text.utf8ByteSize then .error .longName
  else .ok ()

/-- Where a path leads. The empty path leads nowhere; after a slash at the end
there must be a directory. -/
def locate (fs : FileSystem) (p : Path) : Except FileError Location := do
  checkPath p
  if p.text.isEmpty then throw .notFound
  let l ← fs.walk fs.workingDirectory p.steps
  if p.endsInSlash then fs.requireDirectory l
  return l

def entryAt (fs : FileSystem) (p : Path) : Except FileError Entry := do
  let l ← fs.locate p
  match fs.find? l with
  | some e => .ok e
  | none => .error .notFound

def kindAt? (fs : FileSystem) (p : Path) : Option EntryKind :=
  match fs.entryAt p with
  | .ok e => some e.kind
  | .error _ => none

def isDirectory (fs : FileSystem) (p : Path) : Bool := fs.kindAt? p = some .directory

def isFile (fs : FileSystem) (p : Path) : Bool := fs.kindAt? p = some .file

def fileNames (fs : FileSystem) (l : Location) : List String :=
  fs.entries.filterMap fun (k, e) =>
    match k.getLast?, e with
    | some n, .file _ => if k.dropLast = l then some n else none
    | _, _ => none

def fileNamesAt (fs : FileSystem) (p : Path) : Except FileError (List String) := do
  let l ← fs.locate p
  fs.requireDirectory l
  fs.permit .read l
  return fs.fileNames l

def read (fs : FileSystem) (p : Path) : Except FileError String := do
  let l ← fs.locate p
  match fs.find? l with
  | none => .error .notFound
  | some e => do
    fs.permit .read l
    e.text

/-- Where the last of some steps would put a new name, unless it leads back to
a directory that is there. -/
def newLocation (fs : FileSystem) (taken : FileError) (steps : List PathStep) :
    Except FileError Location := do
  let parent ← fs.walk fs.workingDirectory (steps.dropLast ++ [.here])
  match steps.getLast? with
  | some (.name n) => if maxName < n.utf8ByteSize then .error .longName else .ok (parent ++ [n])
  | some _ => .error taken
  | none => .error .notFound

def outlet (fs : FileSystem) (p : Path) : Except FileError Location := do
  checkPath p
  let l ← fs.newLocation .isDirectory p.steps
  if p.endsInSlash || fs.kind? l = some .directory then throw .isDirectory
  fs.permit .write l
  return l

def write (fs : FileSystem) (p : Path) (text : String) : Except FileError FileSystem := do
  return fs.put (← fs.outlet p) (.file text.toByteArray)

def makeDirectory (fs : FileSystem) (steps : List PathStep) : Except FileError FileSystem := do
  let l ← fs.newLocation .alreadyExists steps
  if (fs.kind? l).isSome then throw .alreadyExists
  fs.permit .write l
  return fs.put l .directory

/-- What comes of a directory that could not be made. One that is there is as good. -/
def orPresent (fs : FileSystem) (steps : List PathStep) (e : FileError) :
    Except FileError FileSystem :=
  match fs.walk fs.workingDirectory steps >>= fs.requireDirectory with
  | .ok _ => .ok fs
  | .error _ => .error e

/-- Makes a directory. If something on the way to it is missing, `makeParent`
is run and it is tried again. -/
def ensureDirectory (steps : List PathStep)
    (makeParent : FileSystem → Except FileError FileSystem) (fs : FileSystem) :
    Except FileError FileSystem :=
  match fs.makeDirectory steps with
  | .ok fs => .ok fs
  | .error .notFound => do
    let fs ← makeParent fs
    match fs.makeDirectory steps with
    | .ok fs => .ok fs
    | .error e => fs.orPresent steps e
  | .error e => fs.orPresent steps e

def ensureComponents : List PathStep → FileSystem → Except FileError FileSystem
  | [], fs => .ok fs
  | last :: before, fs => ensureDirectory (last :: before).reverse (ensureComponents before) fs

/-- Makes a directory and those on the way to it. There is nothing to make for
the empty path. -/
def makeDirectories (fs : FileSystem) (p : Path) : Except FileError FileSystem := do
  checkPath p
  if p.text.isEmpty then return fs
  ensureDirectory p.steps (ensureComponents p.components.dropLast.reverse) fs

end FileSystem

end JackVM
