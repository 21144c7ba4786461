import JackVM.Proofs.Code.Blocks

/-!
# Slots in use

A slot is told by the position of a declaration, so it is below the number of
declarations of its kind, whatever is declared again or hidden. The code of a
subroutine therefore stays inside its frame, the object and the statics.
-/

namespace JackVM

/-- How many slots of a segment there are, given how many each kind of variable
has; constants have no limit. -/
def Segment.limit? (counts : VariableKind → Nat) : Segment → Option Nat
  | .constant => none
  | .argument => some (counts .arg)
  | .locals => some (counts .var)
  | .static => some (counts .static)
  | .this => some (counts .field)
  | .that => some 1
  | .pointer => some 2
  | .temp => some 1

/-- What is pushed and popped is inside its segment, and no constant is popped. -/
def Instruction.StaysIn (counts : VariableKind → Nat) : Instruction → Prop
  | .push segment index => ∀ limit ∈ segment.limit? counts, index < limit
  | .pop segment index => segment ≠ .constant ∧ ∀ limit ∈ segment.limit? counts, index < limit
  | _ => True

namespace Syntax

variable {c : JackClass} {sub : Subroutine} {v : Variable}

theorem lt_of_mem_limit? {counts : VariableKind → Nat} (hv : v.index < counts v.kind) :
    ∀ limit ∈ v.segment.limit? counts, v.index < limit := by
  obtain ⟨name, type, kind, index⟩ := v
  intro limit hl
  cases kind <;> cases hl <;> exact hv

theorem segment_ne_constant (v : Variable) : v.segment ≠ .constant := by
  obtain ⟨name, type, kind, index⟩ := v
  cases kind <;> nofun

section
variable {counts : VariableKind → Nat} {scope : Scope} {i : Instruction}
  (hcounts : ∀ name v, scope.find? name = some v → v.index < counts v.kind)
include hcounts

theorem Scope.Straight.staysIn (h : scope.Straight i) : i.StaysIn counts := by
  cases h with
  | constant value => nofun
  | «variable» h => exact lt_of_mem_limit? (hcounts _ _ h)
  | object | element => simp [Instruction.StaysIn, Segment.limit?]
  | point => simp [Instruction.StaysIn, Segment.limit?]
  | operate | call => trivial

theorem Scope.Plain.staysIn (h : scope.Plain i) : i.StaysIn counts := by
  cases h with
  | straight h => exact h.staysIn hcounts
  | assign h => exact ⟨segment_ne_constant _, lt_of_mem_limit? (hcounts _ _ h)⟩
  | store | drop => simp [Instruction.StaysIn, Segment.limit?]

theorem Scope.Emits.staysIn (h : scope.Emits i) : i.StaysIn counts := by
  cases h with
  | plain h => exact h.staysIn hcounts
  | label | goto | ifGoto | ret => trivial

end

-- ---------------------------------------------------------------------------
-- Slots and declarations
-- ---------------------------------------------------------------------------

theorem index_lt_of_mem_slots {ds : List Declaration} (h : v ∈ Syntax.slots ds) :
    v.index < countKind v.kind ds := by
  induction ds with
  | nil => cases h
  | cons d earlier ih =>
    rw [countKind_cons]
    rcases List.mem_cons.mp h with rfl | h
    · simp
    · exact Nat.lt_add_right _ (ih h)

theorem index_lt_of_latest? {ds : List Declaration} {name : String}
    (h : latest? ds name = some v) : v.index < countKind v.kind ds := by
  have hlt := index_lt_of_mem_slots (List.mem_of_find?_eq_some h)
  rwa [countKind, List.countP_reverse] at hlt

/-- Whichever declaration a name stands for, its slot is below the number of
declarations of its kind in the subroutine and the class together. -/
theorem JackClass.index_lt_of_find? {name : String}
    (h : c.find? sub name = some v) :
    v.index < countKind v.kind (sub.declarations c.name) + countKind v.kind c.declarations := by
  rcases Option.or_eq_some_iff.mp h with h | ⟨-, h⟩
  · exact Nat.lt_add_right _ (index_lt_of_latest? h)
  · exact Nat.lt_add_left _ (index_lt_of_latest? h)

-- ---------------------------------------------------------------------------
-- Counting declarations
-- ---------------------------------------------------------------------------

def JackClass.names (c : JackClass) (kind : VariableKind) : List String :=
  (c.vars.filter (·.storage.kind = kind)).flatMap (·.declarators.names)

def JackClass.counts (c : JackClass) (sub : Subroutine) (locals : Nat) : VariableKind → Nat
  | .static => (c.names .static).length
  | .field => (c.names .field).length
  | .arg => sub.parameters.length + if sub.kind = .method then 1 else 0
  | .var => locals

theorem countKind_of_forall {kind : VariableKind} {ds : List Declaration} (kind' : VariableKind)
    (h : ∀ d ∈ ds, d.kind = kind') : countKind kind ds = if kind' = kind then ds.length else 0 := by
  induction ds with
  | nil => simp [countKind]
  | cons d ds ih =>
    rw [countKind_cons, ih fun x hx => h x (List.mem_cons_of_mem d hx), h d List.mem_cons_self]
    split <;> rfl

theorem kind_of_mem_declarations {d : Declaration} {ds : Declarators} {kind : VariableKind}
    (h : d ∈ ds.declarations kind) : d.kind = kind := by
  obtain ⟨name, -, rfl⟩ := List.mem_map.mp h
  rfl

theorem countKind_declarators (kind kind' : VariableKind) (ds : Declarators) :
    countKind kind (ds.declarations kind') = if kind' = kind then ds.names.length else 0 := by
  rw [countKind_of_forall kind' fun d hd => kind_of_mem_declarations hd, Declarators.declarations,
    List.length_map]

theorem JackClass.countKind_declarations (c : JackClass) (kind : VariableKind) :
    countKind kind c.declarations = (c.names kind).length := by
  unfold JackClass.declarations JackClass.names
  induction c.vars with
  | nil => rfl
  | cons v vs ih =>
    rw [List.flatMap_cons, countKind_append, ih, ClassVariables.declarations,
      countKind_declarators]
    by_cases h : v.storage.kind = kind
    · simp [h]
    · simp [h]

theorem countKind_receiver (className : String) (kind : Compile.SubroutineKind) :
    countKind .arg (receiver className kind) = if kind = .method then 1 else 0 := by
  cases kind <;> rfl

theorem Subroutine.countKind_arg (className : String) (sub : Subroutine) :
    countKind .arg (sub.declarations className) =
      sub.parameters.length + if sub.kind = .method then 1 else 0 := by
  have hp : countKind .arg (sub.parameters.map Parameter.declaration) = sub.parameters.length := by
    rw [countKind_of_forall .arg (by simp [Parameter.declaration]), if_pos rfl,
      List.length_map]
  have hl : countKind .arg (sub.locals.flatMap (Declarators.declarations .var)) = 0 := by
    rw [countKind_of_forall .var, if_neg nofun]
    intro d hd
    obtain ⟨ds, -, hd⟩ := List.mem_flatMap.mp hd
    exact kind_of_mem_declarations hd
  rw [Subroutine.declarations, countKind_append, countKind_append, hp, hl, countKind_receiver,
    Nat.add_zero, Nat.add_comm]

theorem Subroutine.countKind_storage (className : String) (sub : Subroutine)
    (storage : ClassStorage) : countKind storage.kind (sub.declarations className) = 0 := by
  refine List.countP_eq_zero.mpr fun d hd => ?_
  rcases sub.ofSubroutine className d hd with h | h <;> cases storage <;>
    simp [h, ClassStorage.kind]

theorem JackClass.countKind_own {kind : VariableKind} (h : kind = .arg ∨ kind = .var) :
    countKind kind c.declarations = 0 := by
  refine List.countP_eq_zero.mpr fun d hd => ?_
  rcases c.ofClass d hd with hd | hd <;> rcases h with rfl | rfl <;> simp [hd]

theorem JackClass.countKind_both (c : JackClass) (sub : Subroutine) (kind : VariableKind) :
    countKind kind (sub.declarations c.name) + countKind kind c.declarations =
      c.counts sub (countKind .var (sub.declarations c.name)) kind := by
  cases kind with
  | static =>
    have h : countKind .static (sub.declarations c.name) = 0 := sub.countKind_storage _ .static
    rw [h, Nat.zero_add, c.countKind_declarations, JackClass.counts]
  | field =>
    have h : countKind .field (sub.declarations c.name) = 0 := sub.countKind_storage _ .field
    rw [h, Nat.zero_add, c.countKind_declarations, JackClass.counts]
  | arg =>
    rw [JackClass.countKind_own (.inl rfl), Nat.add_zero, sub.countKind_arg, JackClass.counts]
  | var => rw [JackClass.countKind_own (.inr rfl), Nat.add_zero, JackClass.counts]

-- ---------------------------------------------------------------------------
-- Blocks
-- ---------------------------------------------------------------------------

theorem prologue_staysIn (c : JackClass) (sub : Subroutine) (locals fields : Nat) :
    ∀ i ∈ prologueCode fields sub.kind, i.StaysIn (c.counts sub locals) := by
  unfold JackClass.counts
  cases sub.kind <;> simp [prologueCode, Instruction.StaysIn, Segment.limit?]

/-- This is what a frame, an object and the statics of a class hold. -/
structure FitsFrame (c : JackClass) (sub : Subroutine) (block : List Instruction) : Prop where
  inside : ∃ locals rest, block = .function (c.name ++ "." ++ sub.name) locals :: rest ∧
    ∀ i ∈ rest, i.StaysIn (c.counts sub locals)
  allocates : sub.kind = .constructor → ∃ head rest,
    block = head :: .push .constant (c.names .field).length :: .call "Memory.alloc" 1 :: rest

theorem Subroutine.fitsFrame_code (c : JackClass) (options : Options) (sub : Subroutine) (n : Nat) :
    FitsFrame c sub (sub.code c options n) := by
  constructor
  · have hs : ∀ name v, (c.scope options sub).find? name = some v →
        v.index < c.counts sub (countKind .var (sub.declarations c.name)) v.kind := by
      intro name v h
      rw [← c.countKind_both]
      exact JackClass.index_lt_of_find? h
    refine ⟨_, _, rfl, List.forall_mem_append.mpr ⟨prologue_staysIn c sub _ _, fun i hi => ?_⟩⟩
    exact (Statements.emits sub.body i hi).staysIn hs
  · intro hk
    rw [Subroutine.code, hk, c.countKind_declarations]
    exact ⟨_, _, rfl⟩

end Syntax

open Syntax

/-- No block reaches outside its frame, the fields of an object or the statics
of the class, however often names are declared again. -/
theorem compile_fitsFrame {options : Options} {source : String} {code : List Instruction}
    (h : compile options source = .ok code) :
    ∃ c, Spells source c ∧ c.Valid ∧
      Blockwise code c fun _ sub block => FitsFrame c sub block := by
  obtain ⟨c, hs, hv, rfl⟩ := compile_ok h
  exact ⟨c, hs, hv, blockwise_code fun _ sub _ => sub.fitsFrame_code ..⟩

theorem compile_fitsFrame_tally :
    compile {} tallySource = .ok (tally.code {}) ∧
      FitsFrame tally tallyNew (tallyNew.code tally {} 0) ∧
      FitsFrame tally tallyRun (tallyRun.code tally {} 0) ∧
      [VariableKind.static, .field, .arg, .var].map (tally.counts tallyRun 1) = [1, 2, 2, 1] ∧
      tallyNew.code tally {} 0 = [.function "Tally.new" 0, .push .constant 2,
        .call "Memory.alloc" 1, .pop .pointer 0, .push .argument 0, .pop .this 1, .push .static 0,
        .push .constant 1, .operate .add, .pop .static 0, .push .pointer 0, .ret] := by
  obtain ⟨c, hs, -, hb⟩ := compile_fitsFrame compile_tally
  obtain rfl := hs.unique spells_tally
  have hnew : FitsFrame tally tallyNew (tallyNew.code tally {} 0) :=
    hb.block 0 tallyNew _ rfl (by decide +kernel)
  have hrun : FitsFrame tally tallyRun (tallyRun.code tally {} 0) :=
    hb.block 1 tallyRun _ rfl (by decide +kernel)
  exact ⟨compile_tally, hnew, hrun, by decide +kernel, by decide +kernel⟩

end JackVM
