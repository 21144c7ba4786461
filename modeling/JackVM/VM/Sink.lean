import JackVM.VM.Instruction

/-!
# Where instructions go

A sink takes instructions one after another and may refuse one. `Listing`
keeps them and never refuses; `CodeWriter` renders them into a `ByteSink`,
which takes bytes until it is full. What a refused write got rid of before it
failed stays in the sink.
-/

namespace JackVM

inductive SinkError
  | full
  | flushFailed
  /-- An operand that does not fit into 16 bits. No sink is asked to take it:
  the program that computes it stops. -/
  | overflow
  deriving DecidableEq, Repr

def SinkError.message : SinkError → String
  | .full => "sink full"
  | .flushFailed => "flush failed"
  | .overflow => "attempt to add with overflow"

class InstructionSink (ω : Type) where
  write : Instruction → EStateM SinkError ω Unit
  /-- Asked for once, after the last instruction. -/
  flush : EStateM SinkError ω Unit

abbrev Listing := Array Instruction

instance : InstructionSink Listing where
  write i := modify (·.push i)
  flush := pure ()

structure ByteSink where
  /-- Bytes taken in total; `none` for no limit. -/
  capacity : Option Nat := none
  flushFails : Bool := false
  bytes : ByteArray := .empty

namespace ByteSink

def room (s : ByteSink) (wanted : Nat) : Nat :=
  match s.capacity with
  | none => wanted
  | some n => min wanted (n - s.bytes.size)

def write (chunk : ByteArray) : EStateM SinkError ByteSink Unit := fun s =>
  let fitting := s.room chunk.size
  if fitting = chunk.size then .ok () { s with bytes := s.bytes ++ chunk }
  else .error .full { s with bytes := s.bytes ++ chunk.extract 0 fitting }

def flush : EStateM SinkError ByteSink Unit := fun s =>
  if s.flushFails then .error .flushFailed s else .ok () s

end ByteSink

structure CodeWriter where
  sink : ByteSink := {}
  /-- Number of lines that went in completely. -/
  written : Nat := 0

namespace CodeWriter

def write (i : Instruction) : EStateM SinkError CodeWriter Unit := fun w =>
  match ByteSink.write i.line.toByteArray w.sink with
  | .ok _ s => .ok () ⟨s, w.written + 1⟩
  | .error e s => .error e { w with sink := s }

def flush : EStateM SinkError CodeWriter Unit := fun w =>
  match ByteSink.flush w.sink with
  | .ok _ s => .ok () { w with sink := s }
  | .error e s => .error e { w with sink := s }

instance : InstructionSink CodeWriter where
  write := write
  flush := flush

end CodeWriter

end JackVM
