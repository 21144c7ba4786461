import JackVM.Files.FileSystem

/-!
# What a batch run asks of its surroundings

`Host` lists the operations. `World` is a host that is a value: a file system,
what has been printed and what has been reported. Its streams take every text and
it cannot be stopped.
-/

namespace JackVM

inductive Report
  | failure (message : String)
  /-- A text that is shown as it is. -/
  | plain (text : String)
  deriving DecidableEq, Repr

/-- What a failure's text starts with: a word in bold red. -/
def Report.failureMark : String := "\x1b[1m\x1b[31merror\x1b[39m\x1b[0m: "

def Report.text : Report → String
  | .failure message => failureMark ++ message ++ "\n"
  | .plain text => text

class Host (m : Type → Type) where
  /-- What a path leads to, if anything. -/
  kindAt? : Path → m (Option EntryKind)
  /-- Names of the regular files right inside a directory, in any order. -/
  fileNamesAt : Path → m (Except FileError (List String))
  read : Path → m (Except FileError String)
  makeDirectories : Path → m (Except FileError Unit)
  /-- Creates a file or replaces its content. -/
  write : Path → String → m (Except FileError Unit)
  print : String → m Unit
  report : Report → m Unit
  /-- Ends the program, which cannot go on. A host that cannot be stopped goes on
  as after a failure. -/
  stop : m Unit

/-- Reports are listed latest first. -/
structure World where
  files : FileSystem := {}
  printed : String := ""
  reports : List Report := []

namespace World

def change (f : FileSystem → Except FileError FileSystem) : StateM World (Except FileError Unit) :=
  modifyGet fun w =>
    match f w.files with
    | .ok files => (.ok (), { w with files })
    | .error e => (.error e, w)

instance : Host (StateM World) where
  kindAt? p := return (← get).files.kindAt? p
  fileNamesAt p := return (← get).files.fileNamesAt p
  read p := return (← get).files.read p
  makeDirectories p := change fun fs => fs.makeDirectories p
  write p text := change fun fs => fs.write p text
  print text := modify fun w => { w with printed := w.printed ++ text }
  report r := modify fun w => { w with reports := r :: w.reports }
  stop := pure ()

end World

instance {m : Type → Type} {ε : Type} [Monad m] [Host m] : Host (ExceptT ε m) where
  kindAt? p := ExceptT.lift (Host.kindAt? p)
  fileNamesAt p := ExceptT.lift (Host.fileNamesAt p)
  read p := ExceptT.lift (Host.read p)
  makeDirectories p := ExceptT.lift (Host.makeDirectories p)
  write p text := ExceptT.lift (Host.write p text)
  print text := ExceptT.lift (Host.print text)
  report r := ExceptT.lift (Host.report r)
  stop := ExceptT.lift Host.stop

end JackVM
