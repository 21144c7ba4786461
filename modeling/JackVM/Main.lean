import JackVM.Batch.Program

/-!
# The command

Runs the program on the files, the environment and the streams of the system. A
stream that takes no text stops it, as an overflow does.
-/

namespace JackVM.Command

/-- The error with this number; some calls report it negated. -/
def numbered (code : UInt32) (e : IO.Error) : FileError :=
  let code := if code < 0x80000000 then code else 0 - code
  if code = 20 then .notDirectory
  else if code = 21 then .isDirectory
  else if code = 36 then .longName
  else .other (toString e)

def fileError (e : IO.Error) : FileError :=
  match e with
  | .noFileOrDirectory .. => .notFound
  | .alreadyExists .. => .alreadyExists
  | .permissionDenied .. => .notPermitted
  | .inappropriateType _ code _ => numbered code e
  | .invalidArgument _ code _ => numbered code e
  | _ => .other (toString e)

def attempt {α : Type} (p : Path) (action : IO α) : IO (Except FileError α) := do
  match FileSystem.checkPath p with
  | .error e => return .error e
  | .ok _ =>
    try
      return .ok (← action)
    catch e =>
      return .error (fileError e)

/-- Links are followed. -/
def kindAt? (p : Path) : IO (Option EntryKind) := do
  if p.text.isEmpty then return none
  match ← attempt p (IO.FS.DirEntry.mk p.text "").root.metadata with
  | .error _ => return none
  | .ok found =>
    match found.type with
    | .dir => return some .directory
    | .file => return some .file
    | _ => return some .other

/-- Links are not followed, so they are no regular files. -/
def fileNamesAt (p : Path) : IO (Except FileError (List String)) :=
  attempt p do
    let entries ← (IO.FS.DirEntry.mk p.text "").root.readDir
    let files ← entries.filterM fun entry =>
      return (← entry.path.symlinkMetadata).type == .file
    return (files.map IO.FS.DirEntry.fileName).toList

def read (p : Path) : IO (Except FileError String) := do
  match ← attempt p (IO.FS.readBinFile p.text) with
  | .error e => return .error e
  | .ok bytes =>
    match String.fromUTF8? bytes with
    | some text => return .ok text
    | none => return .error .notText

def makeDirectories (p : Path) : IO (Except FileError Unit) := do
  if p.text.isEmpty then return .ok ()
  match ← attempt p (IO.FS.createDir p.text) with
  | .ok _ => return .ok ()
  | .error .notFound => attempt p (IO.FS.createDirAll p.text)
  | .error e =>
    if (← kindAt? p) = some .directory then return .ok () else return .error e

instance : Host IO where
  kindAt? := kindAt?
  fileNamesAt := fileNamesAt
  read := read
  makeDirectories := makeDirectories
  write p text := attempt p (IO.FS.writeFile p.text text)
  print text := do
    let out ← IO.getStdout
    out.putStr text
    out.flush
  report r := do (← IO.getStderr).putStr r.text
  stop := throw (IO.userError SinkError.overflow.message)

def tell (e : IO.Error) : IO Unit := do
  try
    (← IO.getStderr).putStr (toString e ++ "\n")
  catch _ =>
    return ()

end JackVM.Command

def main (args : List String) : IO UInt32 := do
  let env : JackVM.Environment :=
    { labelPrefix := ← IO.getEnv "JACKC_LABEL_PREFIX"
      outDir := ← IO.getEnv "JACKC_OUT_DIR" }
  try
    JackVM.Batch.program args env
  catch e =>
    JackVM.Command.tell e
    return JackVM.Batch.stopCode
