import JackVM.Batch.Config
import JackVM.Toml.Document

/-!
# Settings in a file

Reads a configuration from the text of a file. Like the reader of documents that
it uses, this stands in for a library: a configuration is loaded with any reader.
-/

namespace JackVM.Config

open Toml

def setting {α : Type} (read : Value → Option α) (default : α) : Option Value → Option α
  | none => some default
  | some v => read v

def string? : Value → Option String
  | .string s => some s
  | _ => none

def boolean? : Value → Option Bool
  | .boolean b => some b
  | _ => none

/-- Compile options: a table, or the values alone in their order. A date is
taken for a table without known keys. -/
def options? : Value → Option Options
  | .table _ es =>
    ofValues (Entries.find? es "label_prefix") (Entries.find? es "reset_labels_per_subroutine")
  | .array vs => ofValues vs[0]? vs[1]?
  | .dateTime _ => some {}
  | _ => none
where
  ofValues (labelPrefix resetLabels : Option Value) : Option Options := do
    let default : Options := {}
    return {
      labelPrefix := ← setting string? default.labelPrefix labelPrefix
      resetLabels := ← setting boolean? default.resetLabels resetLabels }

/-- Keys that are not known are passed over. -/
def ofEntries? (es : Entries) : Option Config := do
  return {
    outDir := ← setting (fun v => (string? v).map fun s => some ⟨s⟩) none (es.find? "out_dir")
    failFast := ← setting boolean? false (es.find? "fail_fast")
    compile := ← setting options? {} (es.find? "compile") }

def ofText? (text : String) : Option Config := (parse? text).bind ofEntries?

def load {m : Type → Type} [Monad m] [Host m] (l : CommandLine) (env : Environment) :
    Batch m Config :=
  loadWith ofText? l env

end JackVM.Config
