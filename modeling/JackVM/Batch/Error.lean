import JackVM.Error
import JackVM.Files.FileSystem

/-!
# Why a batch run stops

An error names the path that it is about and, where there is one, its cause.
-/

namespace JackVM

inductive BatchError
  | configUnreadable (path : Path) (error : FileError)
  | configInvalid (path : Path)
  | inputMissing (path : Path)
  | inputUnreadable (path : Path) (error : FileError)
  | noSources
  | sourceUnreadable (path : Path) (error : FileError)
  | sourceRejected (path : Path) (error : CompileError Position)
  | directoryNotMade (path : Path) (error : FileError)
  | outputNotWritten (path : Path) (error : FileError)
  deriving DecidableEq, Repr

def BatchError.message : BatchError → String
  | .configUnreadable path error =>
    "failed to read config file " ++ path.text ++ ": " ++ error.message
  | .configInvalid path => "invalid config file " ++ path.text
  | .inputMissing path => "no such file or directory: " ++ path.text
  | .inputUnreadable path error =>
    "failed to read " ++ path.text ++ ": IO error for operation on " ++ path.text ++ ": " ++
      error.message ++ ": " ++ error.message
  | .noSources => "no .jack files found"
  | .sourceUnreadable path error => "failed to read " ++ path.text ++ ": " ++ error.message
  | .sourceRejected path error => path.text ++ ": " ++ error.message
  | .directoryNotMade path error => "failed to create " ++ path.text ++ ": " ++ error.message
  | .outputNotWritten path error => "failed to write " ++ path.text ++ ": " ++ error.message

abbrev Batch (m : Type → Type) := ExceptT BatchError m

end JackVM
