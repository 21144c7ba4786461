import JackVM.Proofs.Syntax.Tree

/-!
# Declarations of a tree

The declarations of a class and of each subroutine, in the order of the text,
and the slots they get. A slot's number is the number of earlier declarations
of its kind, so it is told by the position of a declaration alone.
-/

namespace JackVM.Syntax

open Compile (SubroutineKind)

structure Declaration where
  name : String
  type : String
  kind : VariableKind
  deriving DecidableEq, Repr

def countKind (kind : VariableKind) (ds : List Declaration) : Nat := ds.countP (·.kind = kind)

/-- Slots of declarations that are given and returned latest first. -/
def slots : List Declaration → List Variable
  | [] => []
  | d :: earlier => ⟨d.name, d.type, d.kind, countKind d.kind earlier⟩ :: slots earlier

def latest? (ds : List Declaration) (name : String) : Option Variable :=
  (slots ds.reverse).find? (·.name == name)

def Fits (ds : List Declaration) : Prop := ∀ kind, countKind kind ds ≤ maxSlots

/-- What the code of a construct depends on besides its own tree. -/
structure Scope where
  className : String
  find? : String → Option Variable
  returnsVoid : Bool
  label : Nat → String

def Scope.Declares (scope : Scope) (name : String) : Prop := (scope.find? name).isSome

def TypeName.text : TypeName → String
  | .int => Keyword.intWord.spelling
  | .char => Keyword.charWord.spelling
  | .boolean => Keyword.booleanWord.spelling
  | .named name => name

def Declarators.names (d : Declarators) : List String := d.first :: d.others

def Declarators.declarations (kind : VariableKind) (d : Declarators) : List Declaration :=
  d.names.map fun name => ⟨name, d.type.text, kind⟩

def ClassStorage.kind : ClassStorage → VariableKind
  | .static => .static
  | .field => .field

def ClassVariables.declarations (v : ClassVariables) : List Declaration :=
  v.declarators.declarations v.storage.kind

def Parameter.declaration (p : Parameter) : Declaration := ⟨p.name, p.type.text, .arg⟩

def receiver (className : String) : SubroutineKind → List Declaration
  | .method => [⟨Keyword.thisWord.spelling, className, .arg⟩]
  | _ => []

def Subroutine.declarations (className : String) (s : Subroutine) : List Declaration :=
  receiver className s.kind ++ s.parameters.map Parameter.declaration ++
    s.locals.flatMap (Declarators.declarations .var)

def Subroutine.returnsVoid (s : Subroutine) : Bool := s.returnType.isNone

def JackClass.declarations (c : JackClass) : List Declaration :=
  c.vars.flatMap ClassVariables.declarations

/-- The subroutine's names hide those of the class. -/
def JackClass.find? (c : JackClass) (s : Subroutine) (name : String) : Option Variable :=
  (latest? (s.declarations c.name) name).or (latest? c.declarations name)

def JackClass.scope (c : JackClass) (options : Options) (s : Subroutine) : Scope where
  className := c.name
  find? := c.find? s
  returnsVoid := s.returnsVoid
  label := options.label

def JackClass.Declares (c : JackClass) (s : Subroutine) (name : String) : Prop :=
  name ∈ (s.declarations c.name).map Declaration.name ∨ name ∈ c.declarations.map Declaration.name

theorem countKind_cons (kind : VariableKind) (d : Declaration) (ds : List Declaration) :
    countKind kind (d :: ds) = countKind kind ds + if d.kind = kind then 1 else 0 := by
  simp [countKind, List.countP_cons]

theorem countKind_append (kind : VariableKind) (ds es : List Declaration) :
    countKind kind (ds ++ es) = countKind kind ds + countKind kind es := by
  simp [countKind]

theorem fits_nil : Fits [] := fun _ => Nat.zero_le _

theorem names_slots (ds : List Declaration) : (slots ds).map Variable.name = ds.map (·.name) := by
  induction ds with
  | nil => rfl
  | cons d earlier ih => simp [slots, ih]

theorem isSome_latest? {ds : List Declaration} {name : String} :
    (latest? ds name).isSome ↔ name ∈ ds.map Declaration.name := by
  have h : name ∈ (slots ds.reverse).map Variable.name ↔ name ∈ ds.map Declaration.name := by
    rw [names_slots, List.map_reverse, List.mem_reverse]
  rw [latest?, List.find?_isSome, ← h]
  simp

theorem JackClass.isSome_find? {c : JackClass} {s : Subroutine} {name : String} :
    (c.find? s name).isSome ↔ c.Declares s name := by
  simp only [JackClass.find?, Option.isSome_or, Bool.or_eq_true, isSome_latest?, JackClass.Declares]

end JackVM.Syntax
