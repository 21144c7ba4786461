import JackVM.Batch.Execution
import JackVM.Command.Arguments
import JackVM.Command.Settings

/-!
# The program

From the arguments to the exit code, which is 2 if the arguments make no command
line.
-/

namespace JackVM.Batch

variable {m : Type → Type} [Monad m] [Host m]

def program (args : List String) (env : Environment) : m UInt32 := do
  match CommandLine.parse args with
  | .ok l => execute Config.ofText? l env
  | .error refusal =>
    if refusal.isAnswer then
      Host.print refusal.message
      return 0
    else
      Host.report (.plain ("error: " ++ refusal.message ++ "\n"))
      return 2

end JackVM.Batch
