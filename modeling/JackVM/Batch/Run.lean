import JackVM.Batch.Config
import JackVM.Compile.Basic

/-!
# Compiling many files

All sources are read and compiled before the first output is written. Outputs
are then dealt with in the order of the sources. A source that fails is
reported and, unless the run is to fail fast, passed over; an output that
cannot be written ends the run.
-/

namespace JackVM

structure Summary where
  compiled : Nat := 0
  failed : Nat := 0
  skipped : Nat := 0
  deriving DecidableEq, Repr

def Summary.isSuccess (s : Summary) : Bool := s.failed = 0 && s.skipped = 0

def Summary.total (s : Summary) : Nat := s.compiled + s.failed + s.skipped

namespace Batch

def sourceExtension : String := "jack"

def outputExtension : String := "vm"

/-- The names of sources among the names in a directory, ordered by their
bytes. -/
def sourceNames (names : List String) : List String :=
  (names.filter fun n => (⟨n⟩ : Path).extension? = some sourceExtension).mergeSort

/-- Where the code of a source goes: beside it, or into the output directory. -/
def target (source : Path) (outDir : Option Path) : Path :=
  let output := source.withExtension outputExtension
  match outDir, output.fileName? with
  | some dir, some name => dir.child name
  | _, _ => output

variable {m : Type → Type} [Monad m] [Host m]

/-- The sources that an input stands for: a file for itself, a directory for
the sources right inside it. -/
def sourcesAt (input : Path) : Batch m (List Path) := do
  match ← Host.kindAt? input with
  | some .directory =>
    match ← Host.fileNamesAt input with
    | .ok names => return (sourceNames names).map input.child
    | .error e => throw (.inputUnreadable input e)
  | some .file => return [input]
  | some .other | none => throw (.inputMissing input)

def sources : List Path → Batch m (List Path)
  | [] => return []
  | input :: rest => return (← sourcesAt input) ++ (← sources rest)

/-- An overflow stops more than the compilation. -/
def compileFile (options : Options) (p : Path) : Batch m String := do
  match ← Host.read p with
  | .error e => throw (.sourceUnreadable p e)
  | .ok source =>
    match compileText options source with
    | .ok code => return code
    | .error e =>
      if e = .inSink .overflow then Host.stop
      throw (.sourceRejected p e)

def writeOutput (p : Path) (code : String) : Batch m Unit := do
  match ← Host.write p code with
  | .ok _ => return ()
  | .error e => throw (.outputNotWritten p e)

/-- Deals with compiled sources in order; `s` counts those before them. -/
def deliver (config : Config) (toStdout : Bool) :
    List (Path × Except BatchError String) → Summary → Batch m Summary
  | [], s => return s
  | (source, .ok code) :: rest, s => do
    if toStdout then Host.print code
    else writeOutput (target source config.outDir) code
    deliver config toStdout rest { s with compiled := s.compiled + 1 }
  | (_, .error e) :: rest, s => do
    Host.report (.failure e.message)
    if config.failFast then return { s with failed := s.failed + 1, skipped := rest.length }
    else deliver config toStdout rest { s with failed := s.failed + 1 }

def makeOutputDirectory (config : Config) : Batch m Unit := do
  match config.outDir with
  | none => return ()
  | some dir =>
    match ← Host.makeDirectories dir with
    | .ok _ => return ()
    | .error e => throw (.directoryNotMade dir e)

def outcome (options : Options) (p : Path) : m (Path × Except BatchError String) :=
  (p, ·) <$> (compileFile options p).run

def compileFiles (files : List Path) (config : Config) (toStdout : Bool) : Batch m Summary := do
  if !toStdout then makeOutputDirectory config
  let outcomes ← (files.mapM (outcome config.compile) : m _)
  deliver config toStdout outcomes {}

end Batch

end JackVM
