import JackVM.Batch.Run

/-!
# Executing a command line

From a command line to the exit code: 0 if every source was compiled and 1 if
something failed. All that may keep a run from starting comes before its first
effect.
-/

namespace JackVM.Batch

variable {m : Type → Type} [Monad m] [Host m] (reader : String → Option Config)

/-- The configuration and the sources that a command line asks for; there must be
one. -/
def prepare (l : CommandLine) (env : Environment) : Batch m (Config × List Path) := do
  let config ← Config.loadWith reader l env
  let files ← sources l.inputs
  if files.isEmpty then throw .noSources
  return (config, files)

def runCommandLine (l : CommandLine) (env : Environment) : Batch m Summary := do
  let (config, files) ← prepare reader l env
  compileFiles files config l.toStdout

def execute (l : CommandLine) (env : Environment) : m UInt32 := do
  match ← (runCommandLine reader l env).run with
  | .error e =>
    Host.report (.failure e.message)
    return 1
  | .ok s =>
    if s.isSuccess then return 0
    else
      Host.report (.failure
        (toString s.failed ++ " of " ++ toString s.total ++ " file(s) failed"))
      return 1

def stopCode : UInt32 := 101

end JackVM.Batch
