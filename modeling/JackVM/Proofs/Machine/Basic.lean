import Mathlib.Logic.Function.Basic
import JackVM.VM.Instruction

/-!
# The stack machine

What the instructions that do not jump do, on words of 16 bits. Memory, static
variables and `temp` are shared by all subroutines; the rest of a machine
belongs to the subroutine that runs. A call counts as one step, and what it
does is a parameter: it makes a result and a new store from its arguments
and the old one.
-/

namespace JackVM

abbrev Word := BitVec 16

structure Store where
  memory : Word → Word
  statics : Nat → Word
  temps : Nat → Word

structure Frame where
  locals : Nat → Word
  arguments : Nat → Word
  /-- The current object, in `pointer 0`. -/
  this : Word

structure Machine where
  /-- Top first. -/
  stack : List Word
  frame : Frame
  /-- The cell that `that 0` stands for, in `pointer 1`. -/
  that : Word
  store : Store

abbrev Calls := String → List Word → Store → Word × Store

/-- Calls alone have made one store into the other. -/
inductive Store.ByCalls (calls : Calls) (s : Store) : Store → Prop
  | refl : ByCalls calls s s
  | call {t : Store} (h : ByCalls calls s t) (callee : String) (arguments : List Word) :
    ByCalls calls s (calls callee arguments t).2

theorem Store.ByCalls.trans {calls : Calls} {s t u : Store} (h : s.ByCalls calls t)
    (h' : t.ByCalls calls u) : s.ByCalls calls u := by
  induction h' with
  | refl => exact h
  | call _ callee arguments ih => exact ih.call callee arguments

def truth (b : Bool) : Word := if b then -1 else 0

def Operation.apply : Operation → List Word → Option (List Word)
  | .neg, x :: rest => some (-x :: rest)
  | .not, x :: rest => some (~~~x :: rest)
  | .add, y :: x :: rest => some ((x + y) :: rest)
  | .sub, y :: x :: rest => some ((x - y) :: rest)
  | .and, y :: x :: rest => some ((x &&& y) :: rest)
  | .or, y :: x :: rest => some ((x ||| y) :: rest)
  | .eq, y :: x :: rest => some (truth (x == y) :: rest)
  | .gt, y :: x :: rest => some (truth (y.slt x) :: rest)
  | .lt, y :: x :: rest => some (truth (x.slt y) :: rest)
  | _, _ => none

def Store.set (s : Store) (address value : Word) : Store :=
  { s with memory := Function.update s.memory address value }

namespace Machine

def read (m : Machine) : Segment → Nat → Option Word
  | .constant, i => some (.ofNat 16 i)
  | .argument, i => some (m.frame.arguments i)
  | .locals, i => some (m.frame.locals i)
  | .static, i => some (m.store.statics i)
  | .this, i => some (m.store.memory (m.frame.this + .ofNat 16 i))
  | .that, i => some (m.store.memory (m.that + .ofNat 16 i))
  | .pointer, 0 => some m.frame.this
  | .pointer, 1 => some m.that
  | .pointer, _ => none
  | .temp, i => some (m.store.temps i)

def write (m : Machine) (value : Word) : Segment → Nat → Option Machine
  | .constant, _ => none
  | .argument, i =>
    some { m with frame.arguments := Function.update m.frame.arguments i value }
  | .locals, i => some { m with frame.locals := Function.update m.frame.locals i value }
  | .static, i => some { m with store.statics := Function.update m.store.statics i value }
  | .this, i => some { m with store := m.store.set (m.frame.this + .ofNat 16 i) value }
  | .that, i => some { m with store := m.store.set (m.that + .ofNat 16 i) value }
  | .pointer, 0 => some { m with frame.this := value }
  | .pointer, 1 => some { m with that := value }
  | .pointer, _ => none
  | .temp, i => some { m with store.temps := Function.update m.store.temps i value }

def push (m : Machine) (value : Word) : Machine := { m with stack := value :: m.stack }

def step (calls : Calls) (m : Machine) : Instruction → Option Machine
  | .push segment i => (m.read segment i).map m.push
  | .pop segment i =>
    match m.stack with
    | [] => none
    | value :: rest => write { m with stack := rest } value segment i
  | .operate op => (op.apply m.stack).map fun stack => { m with stack }
  | .call callee n =>
    if n ≤ m.stack.length then
      let (value, store) := calls callee (m.stack.take n).reverse m.store
      some { m with stack := value :: m.stack.drop n, store }
    else none
  | .label _ | .goto _ | .ifGoto _ | .function _ _ | .ret => none

def exec (calls : Calls) : List Instruction → Machine → Option Machine
  | [], m => some m
  | i :: code, m => (m.step calls i).bind (exec calls code)

variable {calls : Calls} {m : Machine}

@[simp] theorem exec_nil : exec calls [] m = some m := rfl

theorem exec_cons (i : Instruction) (code : List Instruction) :
    exec calls (i :: code) m = (m.step calls i).bind (exec calls code) := rfl

theorem exec_append (code more : List Instruction) :
    exec calls (code ++ more) m = (exec calls code m).bind (exec calls more) := by
  induction code generalizing m with
  | nil => rfl
  | cons i code ih =>
    rw [List.cons_append, exec_cons, exec_cons]
    cases m.step calls i with
    | none => rfl
    | some m' => exact ih

theorem exec_trans {code more : List Instruction} {m' : Machine} {r : Option Machine}
    (h : exec calls code m = some m') (h' : exec calls more m' = r) :
    exec calls (code ++ more) m = r := by
  rw [exec_append, h]
  exact h'

theorem exec_push {segment : Segment} {i : Nat} {value : Word}
    (h : m.read segment i = some value) :
    exec calls [.push segment i] m = some (m.push value) := by
  simp [exec, step, h]

theorem exec_call (callee : String) (arguments stack : List Word) (frame : Frame) (that : Word)
    (store : Store) :
    exec calls [.call callee arguments.length] ⟨arguments.reverse ++ stack, frame, that, store⟩ =
      some ⟨(calls callee arguments store).1 :: stack, frame, that,
        (calls callee arguments store).2⟩ := by
  have hlen : arguments.length = arguments.reverse.length := List.length_reverse.symm
  simp [exec, step, hlen, -List.length_reverse]

end Machine

end JackVM
