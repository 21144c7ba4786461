import JackVM.Batch.CommandLine
import JackVM.Batch.Error
import JackVM.Batch.Host
import JackVM.Options

/-!
# Configuration

Settings come in layers: the defaults, a configuration file, the environment,
the command line. A later layer wins where it says something; a flag that the
file or the command line sets stays set. What a file says is up to a reader of
its text, which may find it invalid.
-/

namespace JackVM

structure Config where
  outDir : Option Path := none
  failFast : Bool := false
  compile : Options := {}
  deriving DecidableEq, Repr

structure Environment where
  labelPrefix : Option String := none
  outDir : Option String := none

namespace Config

def withEnvironment (c : Config) (env : Environment) : Config :=
  { c with
    outDir := (env.outDir.map Path.mk).or c.outDir
    compile := { c.compile with labelPrefix := env.labelPrefix.getD c.compile.labelPrefix } }

def withCommandLine (c : Config) (l : CommandLine) : Config :=
  { outDir := l.outDir.or c.outDir
    failFast := c.failFast || l.failFast
    compile :=
      { labelPrefix := l.labelPrefix.getD c.compile.labelPrefix
        resetLabels := c.compile.resetLabels || l.resetLabels } }

/-- Looked up in the working directory when the command line names no file. -/
def defaultFile : Path := ⟨"jackc.toml"⟩

variable {m : Type → Type} [Monad m] [Host m] (reader : String → Option Config)

def readFile (p : Path) : Batch m Config := do
  match ← Host.read p with
  | .error e => throw (.configUnreadable p e)
  | .ok text =>
    match reader text with
    | some c => return c
    | none => throw (.configInvalid p)

def loadWith (l : CommandLine) (env : Environment) : Batch m Config := do
  let fromFile ← match l.config with
    | some p => readFile reader p
    | none => do
      if (← Host.kindAt? defaultFile).isSome then readFile reader defaultFile else pure {}
  return (fromFile.withEnvironment env).withCommandLine l

end Config

end JackVM
