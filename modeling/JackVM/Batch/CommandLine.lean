import JackVM.Files.Path

/-!
# The command line

What a command line asks for, once its arguments have been read.
-/

namespace JackVM

structure CommandLine where
  inputs : List Path := []
  outDir : Option Path := none
  failFast : Bool := false
  labelPrefix : Option String := none
  resetLabels : Bool := false
  config : Option Path := none
  toStdout : Bool := false
  verbose : Bool := false
  deriving DecidableEq, Repr

end JackVM
