/-!
# Compile options
-/

namespace JackVM

structure Options where
  labelPrefix : String := "L"
  /-- Number the labels of every subroutine from 0, not those of the class. -/
  resetLabels : Bool := false
  deriving DecidableEq, Repr

def Options.label (o : Options) (n : Nat) : String := o.labelPrefix ++ toString n

end JackVM
