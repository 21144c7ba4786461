import JackVM.Options
import JackVM.Token.Stream

/-!
# The state of a compilation

A class is compiled in one pass: tokens are read, declarations recorded and
instructions written as the grammar is recognised. A write that the sink
refuses ends the compilation at once.

There is no syntax tree to recurse on, so the nesting of constructs and the
number of rounds of a loop are bounded by a number that the caller gives. The
number of tokens is enough, since every construct that is entered again and
every round but the last reads one.
-/

namespace JackVM

/-- What the code of a construct depends on besides its own tokens. -/
structure Context where
  options : Options := {}
  className : String := ""
  declarations : Declarations := .empty
  returnsVoid : Bool := false
  /-- Number of the next label. -/
  nextLabel : Nat := 0

structure CompileState (ω : Type) where
  tokens : TokenStream
  context : Context
  out : ω

/-- Steps of a compilation that writes to a sink of type `ω`. -/
abbrev Compile (ω : Type) := EStateM (CompileError Nat) (CompileState ω)

namespace Compile

variable {ω α : Type}

instance : MonadLift Reading (Compile ω) where
  monadLift x := fun ⟨tokens, context, out⟩ =>
    match x tokens with
    | .ok a tokens => .ok a ⟨tokens, context, out⟩
    | .error e tokens => .error e ⟨tokens, context, out⟩

def onSink (x : EStateM SinkError ω α) : Compile ω α := fun ⟨tokens, context, out⟩ =>
  match x out with
  | .ok a out => .ok a ⟨tokens, context, out⟩
  | .error e out => .error (.inSink e) ⟨tokens, context, out⟩

def emit [InstructionSink ω] (i : Instruction) : Compile ω Unit :=
  onSink (InstructionSink.write i)

theorem emit_listing (i : Instruction) (tokens : TokenStream) (context : Context)
    (out : Listing) : emit i ⟨tokens, context, out⟩ = .ok () ⟨tokens, context, out.push i⟩ := rfl

def fail (offset : Nat) (error : SemanticError) : Compile ω α :=
  throw (.inSource offset (.semantic error))

def context : Compile ω Context := return (← get).context

def modifyContext (f : Context → Context) : Compile ω Unit :=
  modify fun s => { s with context := f s.context }

def newLabel : Compile ω String := do
  let c ← context
  modifyContext fun c => { c with nextLabel := c.nextLabel + 1 }
  return c.options.label c.nextLabel

def declare (v : Reading.Named) (type : String) (kind : VariableKind) : Compile ω Unit := do
  match (← context).declarations.declare? v.name type kind with
  | some (_, declarations) => modifyContext fun c => { c with declarations }
  | none => fail v.offset (.noFreeSlot kind v.name)

def find? (name : String) : Compile ω (Option Variable) :=
  return (← context).declarations.find? name

def lookup (v : Reading.Named) : Compile ω Variable := do
  match ← find? v.name with
  | some found => return found
  | none => fail v.offset (.undefinedVariable v.name)

def repeatWhile (bound : Nat) (step : Compile ω Bool) : Compile ω Unit :=
  match bound with
  | 0 => return ()
  | bound + 1 => do if ← step then repeatWhile bound step

def repeatAfter (bound : Nat) (kind : TokenKind) (item : Compile ω Unit) : Compile ω Unit :=
  repeatWhile bound do
    if ← Reading.accept kind then
      item
      return true
    else
      return false

end Compile

end JackVM
