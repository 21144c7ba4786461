import JackVM.VM.Instruction

/-!
# Variables and their slots

Two scopes are open while a class is compiled, that of the class and that of
the subroutine in hand. Each kind of variable numbers its slots from 0. A name
may be declared again: the latest declaration counts, but the slots of the
earlier ones stay taken. A scope keeps all its variables, an index of their
names into them, and the number of slots taken by each kind.
-/

namespace JackVM

inductive VariableKind
  | static
  | field
  | arg
  | var
  deriving DecidableEq, Repr

namespace VariableKind

def word : VariableKind → String
  | .static => "static"
  | .field => "field"
  | .arg => "arg"
  | .var => "var"

/-- The fields are those of the object that `this` stands for. -/
def segment : VariableKind → Segment
  | .static => .static
  | .field => .this
  | .arg => .argument
  | .var => .locals

def ofClass : VariableKind → Bool
  | .static | .field => true
  | .arg | .var => false

end VariableKind

structure Variable where
  name : String
  type : String
  kind : VariableKind
  index : Nat
  deriving DecidableEq, Repr

namespace Variable

def segment (v : Variable) : Segment := v.kind.segment

def push (v : Variable) : Instruction := .push v.segment v.index

def pop (v : Variable) : Instruction := .pop v.segment v.index

end Variable

def maxSlots : Nat := 65535

def countOne (kind : VariableKind) : List (VariableKind × Nat) → List (VariableKind × Nat)
  | [] => [(kind, 1)]
  | (k, n) :: rest => if k = kind then (k, n + 1) :: rest else (k, n) :: countOne kind rest

theorem lookup_countOne (kind k : VariableKind) (taken : List (VariableKind × Nat)) :
    ((countOne kind taken).lookup k).getD 0 =
      (taken.lookup k).getD 0 + if kind = k then 1 else 0 := by
  induction taken with
  | nil => grind [countOne]
  | cons entry rest ih =>
    obtain ⟨k', n⟩ := entry
    unfold countOne
    split <;> grind

structure VariableScope where
  /-- In the order of their declarations. -/
  declared : Array Variable := #[]
  /-- Where in `declared` the latest one of a name is; of two places for a name
  the first counts. -/
  places : List (String × Nat) := []
  /-- How many slots are taken, for the kinds that have any. -/
  taken : List (VariableKind × Nat) := []

namespace VariableScope

def count (s : VariableScope) (kind : VariableKind) : Nat := (s.taken.lookup kind).getD 0

def add (s : VariableScope) (v : Variable) : VariableScope where
  declared := s.declared.push v
  places := (v.name, s.declared.size) :: s.places
  taken := countOne v.kind s.taken

theorem count_add (s : VariableScope) (v : Variable) (kind : VariableKind) :
    (s.add v).count kind = s.count kind + if v.kind = kind then 1 else 0 :=
  lookup_countOne v.kind kind s.taken

def find? (s : VariableScope) (name : String) : Option Variable :=
  (s.places.lookup name).bind fun place => s.declared[place]?

end VariableScope

structure Declarations where
  inClass : VariableScope := {}
  inSubroutine : VariableScope := {}

namespace Declarations

def empty : Declarations := {}

def enterSubroutine (d : Declarations) : Declarations := { d with inSubroutine := {} }

def scope (d : Declarations) (kind : VariableKind) : VariableScope :=
  if kind.ofClass then d.inClass else d.inSubroutine

def count (d : Declarations) (kind : VariableKind) : Nat := (d.scope kind).count kind

def add (d : Declarations) (v : Variable) : Declarations :=
  if v.kind.ofClass then { d with inClass := d.inClass.add v }
  else { d with inSubroutine := d.inSubroutine.add v }

theorem count_add (d : Declarations) (v : Variable) (kind : VariableKind) :
    (d.add v).count kind = d.count kind + if v.kind = kind then 1 else 0 := by
  rcases v with ⟨_, _, k, _⟩
  cases k <;> cases kind <;> simp [add, count, scope, VariableKind.ofClass, VariableScope.count_add]

/-- The slot given to the new variable, or `none` when no slot is free. -/
def declare? (d : Declarations) (name type : String) (kind : VariableKind) :
    Option (Nat × Declarations) :=
  let index := d.count kind
  if index < maxSlots then some (index, d.add ⟨name, type, kind, index⟩) else none

/-- The subroutine's names hide those of the class. -/
def find? (d : Declarations) (name : String) : Option Variable :=
  (d.inSubroutine.find? name).or (d.inClass.find? name)

end Declarations

end JackVM
