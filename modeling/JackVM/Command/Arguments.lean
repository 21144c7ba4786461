import JackVM.Batch.CommandLine

/-!
# Arguments

Turns arguments into a command line. This stands in for the library that the
program takes its command line from; a batch run starts from what comes out.

Arguments are read from left to right. A value given as an argument of its own
and the inputs in a row are pending: they take effect, and their faults show,
only when the next option or the end of the line settles them. A fault of the
argument in hand that is found before settling comes first.
-/

namespace JackVM

inductive Refusal
  | helpAsked
  | versionAsked
  | missingInput
  | unknownArgument
  | invalidValue
  | repeated
  | needlessValue
  deriving DecidableEq, Repr

namespace CommandLine

inductive Setting
  | outDir
  | labelPrefix
  | config
  deriving DecidableEq, Repr

inductive Flag
  | failFast
  | resetLabels
  | toStdout
  | verbose
  deriving DecidableEq, Repr

inductive Switch
  | setting (s : Setting)
  | flag (f : Flag)
  | help
  | version
  deriving DecidableEq, Repr

def Switch.ofLong? (word : String) : Option Switch :=
  match word with
  | "out-dir" => some (.setting .outDir)
  | "label-prefix" => some (.setting .labelPrefix)
  | "config" => some (.setting .config)
  | "fail-fast" => some (.flag .failFast)
  | "reset-labels" => some (.flag .resetLabels)
  | "stdout" => some (.flag .toStdout)
  | "verbose" => some (.flag .verbose)
  | "help" => some .help
  | "version" => some .version
  | _ => none

def Switch.ofShort? (c : Char) : Option Switch :=
  match c with
  | 'o' => some (.setting .outDir)
  | 'c' => some (.setting .config)
  | 'v' => some (.flag .verbose)
  | 'h' => some .help
  | 'V' => some .version
  | _ => none

/-- An option is given at most once. Only the label prefix may be empty. -/
def assign (l : CommandLine) (s : Setting) (value : String) : Except Refusal CommandLine :=
  match s with
  | .outDir =>
    if l.outDir.isSome then .error .repeated
    else if value.isEmpty then .error .invalidValue
    else .ok { l with outDir := some ⟨value⟩ }
  | .labelPrefix =>
    if l.labelPrefix.isSome then .error .repeated
    else .ok { l with labelPrefix := some value }
  | .config =>
    if l.config.isSome then .error .repeated
    else if value.isEmpty then .error .invalidValue
    else .ok { l with config := some ⟨value⟩ }

def raise (l : CommandLine) (f : Flag) : Except Refusal CommandLine :=
  match f with
  | .failFast => if l.failFast then .error .repeated else .ok { l with failFast := true }
  | .resetLabels => if l.resetLabels then .error .repeated else .ok { l with resetLabels := true }
  | .toStdout => if l.toStdout then .error .repeated else .ok { l with toStdout := true }
  | .verbose => if l.verbose then .error .repeated else .ok { l with verbose := true }

inductive Pending
  | nothing
  /-- An option whose value is the next argument, and that argument. -/
  | setting (s : Setting) (value : Option String)
  | inputs (values : List String)

structure Progress where
  line : CommandLine := {}
  pending : Pending := .nothing
  /-- Set by `--`: what follows are inputs. -/
  onlyInputs : Bool := false

namespace Progress

def settle (p : Progress) : Except Refusal Progress :=
  match p.pending with
  | .nothing => .ok p
  | .setting _ none => .error .invalidValue
  | .setting s (some value) => do
    return { p with line := ← p.line.assign s value, pending := .nothing }
  | .inputs values =>
    if values.any String.isEmpty then .error .invalidValue
    else
      let inputs := p.line.inputs ++ values.map Path.mk
      .ok { p with line := { p.line with inputs }, pending := .nothing }

def switch (p : Progress) (s : Switch) : Except Refusal Progress := do
  let p ← p.settle
  match s with
  | .setting s => return { p with pending := .setting s none }
  | .flag f => return { p with line := ← p.line.raise f }
  | .help => throw .helpAsked
  | .version => throw .versionAsked

def attached (p : Progress) (s : Setting) (value : String) : Except Refusal Progress := do
  let p ← p.settle
  return { p with line := ← p.line.assign s value }

def long (p : Progress) (cs : List Char) : Except Refusal Progress :=
  let word := String.ofList (cs.takeWhile (· ≠ '='))
  match Switch.ofLong? word, cs.dropWhile (· ≠ '=') with
  | none, _ => .error .unknownArgument
  | some s, [] => p.switch s
  | some (.setting s), _ :: value => p.attached s (String.ofList value)
  | some _, _ :: _ => .error .needlessValue

/-- What follows `-`: switches of one letter, the last of them perhaps with
its value, before which an equals sign may stand. -/
def short (p : Progress) : List Char → Except Refusal Progress
  | [] => .ok p
  | c :: cs =>
    match Switch.ofShort? c, cs with
    | none, _ => .error .unknownArgument
    | some (.setting s), '=' :: value => p.attached s (String.ofList value)
    | some (.setting s), d :: value => p.attached s (String.ofList (d :: value))
    | some s, cs => do (← p.switch s).short cs

def input (p : Progress) (value : String) : Except Refusal Progress :=
  match p.pending with
  | .inputs values => .ok { p with pending := .inputs (values ++ [value]) }
  | _ => do return { ← p.settle with pending := .inputs [value] }

/-- A lone dash is a value like any other. -/
def argument (p : Progress) (arg : String) : Except Refusal Progress :=
  if p.onlyInputs then p.input arg
  else
    match arg.toList with
    | ['-', '-'] => .ok { p with onlyInputs := true }
    | '-' :: '-' :: cs => p.long cs
    | '-' :: c :: cs => p.short (c :: cs)
    | _ =>
      match p.pending with
      | .setting s none => .ok { p with pending := .setting s (some arg) }
      | _ => p.input arg

end Progress

def parse (args : List String) : Except Refusal CommandLine := do
  let p ← args.foldlM Progress.argument {}
  let p ← p.settle
  if p.line.inputs.isEmpty then throw .missingInput
  return p.line

def version : String := "jackc 0.1.0\n"

def usage : String := "Usage: jackc [OPTIONS] <INPUT>...\n"

def help : String :=
  "jackc - compiles Jack classes to stack-machine VM code\n\n" ++ usage ++
  "\nArguments:\n" ++
  "  <INPUT>...  `.jack` files, or directories whose `.jack` files are compiled\n" ++
  "\nOptions:\n" ++
  "  -o, --out-dir <DIR>          Write `.vm` files here instead of next to their sources\n" ++
  "      --fail-fast              Stop at the first file that fails to compile\n" ++
  "      --label-prefix <PREFIX>  Prefix for generated labels\n" ++
  "      --reset-labels           Restart label numbering in every subroutine\n" ++
  "  -c, --config <FILE>          Configuration file (default: ./jackc.toml if present)\n" ++
  "      --stdout                 Print VM code to stdout instead of writing files\n" ++
  "  -v, --verbose                Enable verbose output\n" ++
  "  -h, --help                   Print help\n" ++
  "  -V, --version                Print version\n"

end CommandLine

def Refusal.message : Refusal → String
  | .helpAsked => CommandLine.help
  | .versionAsked => CommandLine.version
  | .missingInput => "an input is required\n\n" ++ CommandLine.usage
  | .unknownArgument => "unexpected argument\n\n" ++ CommandLine.usage
  | .invalidValue => "a value is missing or empty\n\n" ++ CommandLine.usage
  | .repeated => "an option is given more than once\n\n" ++ CommandLine.usage
  | .needlessValue => "an option takes no value\n\n" ++ CommandLine.usage

def Refusal.isAnswer : Refusal → Bool
  | .helpAsked | .versionAsked => true
  | _ => false

end JackVM
