import Mathlib.Data.List.Nodup
import JackVM.Proofs.Code.Blocks

/-!
# Labels and jumps

Every `if` and `while` takes the next two numbers for its labels before those
of the statements in it, and writes both labels itself. The labels of the code
are therefore an interval of numbers, in some order, and no jump leaves the
statement that it belongs to.
-/

namespace JackVM

def Instruction.label? : Instruction → Option String
  | .label name => some name
  | _ => none

def Instruction.target? : Instruction → Option String
  | .goto name | .ifGoto name => some name
  | _ => none

def definedLabels (code : List Instruction) : List String := code.filterMap Instruction.label?

def jumpTargets (code : List Instruction) : List String := code.filterMap Instruction.target?

section
variable (i : Instruction) (code more : List Instruction)

@[simp] theorem definedLabels_nil : definedLabels [] = [] := rfl

@[simp] theorem jumpTargets_nil : jumpTargets [] = [] := rfl

@[simp] theorem definedLabels_append :
    definedLabels (code ++ more) = definedLabels code ++ definedLabels more :=
  List.filterMap_append

@[simp] theorem jumpTargets_append :
    jumpTargets (code ++ more) = jumpTargets code ++ jumpTargets more :=
  List.filterMap_append

theorem definedLabels_cons :
    definedLabels (i :: code) = i.label?.toList ++ definedLabels code := by
  unfold definedLabels
  cases h : i.label? with
  | none => rw [List.filterMap_cons_none h]; rfl
  | some name => rw [List.filterMap_cons_some h]; rfl

theorem jumpTargets_cons : jumpTargets (i :: code) = i.target?.toList ++ jumpTargets code := by
  unfold jumpTargets
  cases h : i.target? with
  | none => rw [List.filterMap_cons_none h]; rfl
  | some name => rw [List.filterMap_cons_some h]; rfl

end

theorem Options.label_injective (options : Options) : Function.Injective options.label := by
  intro m n h
  have hr : m.repr = n.repr := (String.append_right_inj _).mp h
  have hd : Nat.toDigits 10 m = Nat.toDigits 10 n := by
    rw [← Nat.toList_repr, ← Nat.toList_repr, hr]
  rw [← Nat.ofDigitChars_ten_toDigits (n := m), hd, Nat.ofDigitChars_ten_toDigits]

namespace Syntax

-- ---------------------------------------------------------------------------
-- The number of labels
-- ---------------------------------------------------------------------------

mutual
/-- The `if` and `while` statements in a statement, itself included. -/
def Statement.conditionals : Statement → Nat
  | .assign _ _ | .assignElement _ _ _ | .run _ | .leave _ => 0
  | .ifThen _ body => 1 + Statements.conditionals body
  | .ifElse _ body otherwise => 1 + Statements.conditionals body + Statements.conditionals otherwise
  | .whileLoop _ body => 1 + Statements.conditionals body
def Statements.conditionals : List Statement → Nat
  | [] => 0
  | first :: others => first.conditionals + Statements.conditionals others
end

mutual
theorem Statement.labels_eq : (st : Statement) → st.labels = 2 * st.conditionals
  | .assign _ _ | .assignElement _ _ _ | .run _ | .leave _ => rfl
  | .ifThen _ body => by
    rw [Statement.labels, Statement.conditionals, Statements.labels_eq body, Nat.mul_add]
  | .ifElse _ body otherwise => by
    rw [Statement.labels, Statement.conditionals, Statements.labels_eq body,
      Statements.labels_eq otherwise, Nat.mul_add, Nat.mul_add]
  | .whileLoop _ body => by
    rw [Statement.labels, Statement.conditionals, Statements.labels_eq body, Nat.mul_add]
theorem Statements.labels_eq : (body : List Statement) →
    Statements.labels body = 2 * Statements.conditionals body
  | [] => rfl
  | first :: others => by
    rw [Statements.labels, Statements.conditionals, first.labels_eq, Statements.labels_eq others,
      Nat.mul_add]
end

def Subroutines.conditionals : List Subroutine → Nat
  | [] => 0
  | first :: others => Statements.conditionals first.body + Subroutines.conditionals others

theorem Subroutines.labels_eq (subs : List Subroutine) :
    Subroutines.labels subs = 2 * Subroutines.conditionals subs := by
  induction subs with
  | nil => rfl
  | cons first others ih =>
    rw [Subroutines.labels, Subroutines.conditionals, Statements.labels_eq, ih, Nat.mul_add]

-- ---------------------------------------------------------------------------
-- The labels of statements
-- ---------------------------------------------------------------------------

def labelRange (label : Nat → String) (first count : Nat) : List String :=
  (List.range' first count).map label

theorem labelRange_add (label : Nat → String) (n k l : Nat) :
    labelRange label n (k + l) = labelRange label n k ++ labelRange label (n + k) l := by
  rw [labelRange, ← List.range'_append_1, List.map_append, labelRange, labelRange]

/-- The code has the labels with these numbers, and jumps to no others. -/
structure Scope.Closes (scope : Scope) (first count : Nat) (code : List Instruction) : Prop where
  labels : (definedLabels code).Perm (labelRange scope.label first count)
  targets : jumpTargets code ⊆ definedLabels code

section
variable {scope : Scope} {n k l : Nat} {code more : List Instruction}

theorem Scope.Plain.no_label {i : Instruction} (h : scope.Plain i) :
    i.label? = none ∧ i.target? = none := by
  cases h with
  | straight h => cases h <;> exact ⟨rfl, rfl⟩
  | _ => exact ⟨rfl, rfl⟩

theorem definedLabels_plain (h : ∀ i ∈ code, scope.Plain i) : definedLabels code = [] :=
  List.filterMap_eq_nil_iff.mpr fun i hi => (h i hi).no_label.1

theorem jumpTargets_plain (h : ∀ i ∈ code, scope.Plain i) : jumpTargets code = [] :=
  List.filterMap_eq_nil_iff.mpr fun i hi => (h i hi).no_label.2

theorem Scope.closes_plain (h : ∀ i ∈ code, scope.Plain i) : scope.Closes n 0 code := by
  constructor
  · rw [definedLabels_plain h]
    exact .nil
  · rw [jumpTargets_plain h]
    exact List.nil_subset _

theorem Scope.Closes.nil : scope.Closes n 0 [] := ⟨.nil, nofun⟩

theorem Scope.Closes.append (h : scope.Closes n k code) (h' : scope.Closes (n + k) l more) :
    scope.Closes n (k + l) (code ++ more) := by
  constructor
  · rw [definedLabels_append, labelRange_add]
    exact h.labels.append h'.labels
  · rw [definedLabels_append, jumpTargets_append]
    exact List.append_subset.mpr ⟨List.subset_append_of_subset_left _ h.targets,
      List.subset_append_of_subset_right _ h'.targets⟩

theorem Scope.closes_leave (value : Option Expression) :
    scope.Closes n 0 ((Statement.leave value).code scope n) := by
  rw [code_leave]
  have hv : scope.Closes n 0 (returned scope value) :=
    Scope.closes_plain (Scope.plain_of_straight (straight_returned value))
  have hr : scope.Closes n 0 [.ret] := ⟨.nil, List.nil_subset _⟩
  exact hv.append hr

theorem Scope.closes_branch (condition : Expression) (h : scope.Closes (n + 2) k code)
    (h' : scope.Closes (n + 2 + k) l more) :
    scope.Closes n (2 + k + l) (branchCode scope n condition code more) := by
  have hd : definedLabels (branchCode scope n condition code more) =
      definedLabels code ++ scope.label n :: (definedLabels more ++ [scope.label (n + 1)]) := by
    simp [branchCode, definedLabels_cons, Instruction.label?,
      definedLabels_plain (Scope.plain_of_straight condition.straight)]
  have hj : jumpTargets (branchCode scope n condition code more) =
      scope.label n :: (jumpTargets code ++ scope.label (n + 1) :: jumpTargets more) := by
    simp [branchCode, jumpTargets_cons, Instruction.target?,
      jumpTargets_plain (Scope.plain_of_straight condition.straight)]
  have hp : labelRange scope.label n (2 + k + l) = scope.label n :: scope.label (n + 1) ::
      (labelRange scope.label (n + 2) k ++ labelRange scope.label (n + 2 + k) l) := by
    rw [Nat.add_assoc, labelRange_add, labelRange_add]
    rfl
  constructor
  · rw [hd, hp]
    refine List.perm_middle.trans (.cons _ ?_)
    rw [← List.append_assoc]
    refine (List.perm_append_singleton ..).trans (.cons _ ?_)
    exact h.labels.append h'.labels
  · rw [hd, hj]
    intro name hm
    simp only [List.mem_cons, List.mem_append, List.not_mem_nil, or_false] at hm ⊢
    rcases hm with rfl | hm | rfl | hm
    · exact .inr (.inl rfl)
    · exact .inl (h.targets hm)
    · exact .inr (.inr (.inr rfl))
    · exact .inr (.inr (.inl (h'.targets hm)))

theorem Scope.closes_loop (condition : Expression) (h : scope.Closes (n + 2) k code) :
    scope.Closes n (2 + k) (loopCode scope n condition code) := by
  have hd : definedLabels (loopCode scope n condition code) =
      scope.label n :: (definedLabels code ++ [scope.label (n + 1)]) := by
    simp [loopCode, definedLabels_cons, Instruction.label?,
      definedLabels_plain (Scope.plain_of_straight condition.straight)]
  have hj : jumpTargets (loopCode scope n condition code) =
      scope.label (n + 1) :: (jumpTargets code ++ [scope.label n]) := by
    simp [loopCode, jumpTargets_cons, Instruction.target?,
      jumpTargets_plain (Scope.plain_of_straight condition.straight)]
  constructor
  · rw [hd, labelRange_add]
    exact .cons _ ((List.perm_append_singleton ..).trans (.cons _ h.labels))
  · rw [hd, hj]
    intro name hm
    simp only [List.mem_cons, List.mem_append, List.not_mem_nil, or_false] at hm ⊢
    rcases hm with rfl | hm | rfl
    · exact .inr (.inr rfl)
    · exact .inr (.inl (h.targets hm))
    · exact .inl rfl

mutual
theorem Statement.closes : (st : Statement) → {n : Nat} →
    scope.Closes n st.labels (st.code scope n)
  | .assign target value, _ => Scope.closes_plain (plain_assign target value)
  | .assignElement array index value, _ =>
    Scope.closes_plain (plain_assignElement array index value)
  | .ifThen condition body, _ => Scope.closes_branch condition (Statements.closes body) .nil
  | .ifElse condition body otherwise, _ =>
    Scope.closes_branch condition (Statements.closes body) (Statements.closes otherwise)
  | .whileLoop condition body, _ => Scope.closes_loop condition (Statements.closes body)
  | .run call, _ => Scope.closes_plain (plain_run call)
  | .leave value, _ => Scope.closes_leave value
theorem Statements.closes : (body : List Statement) → {n : Nat} →
    scope.Closes n (Statements.labels body) (Statements.code scope n body)
  | [], _ => .nil
  | first :: others, _ => first.closes.append (Statements.closes others)
end

end

-- ---------------------------------------------------------------------------
-- The labels of a block and of a class
-- ---------------------------------------------------------------------------

section
variable {c : JackClass} {options : Options}

theorem definedLabels_prologue (fields : Nat) (kind : Compile.SubroutineKind) :
    definedLabels (prologueCode fields kind) = [] := by
  cases kind <;> rfl

theorem jumpTargets_prologue (fields : Nat) (kind : Compile.SubroutineKind) :
    jumpTargets (prologueCode fields kind) = [] := by
  cases kind <;> rfl

theorem Subroutine.closes_code (c : JackClass) (options : Options) (n : Nat) (sub : Subroutine) :
    (c.scope options sub).Closes n (Statements.labels sub.body) (sub.code c options n) := by
  have h : (c.scope options sub).Closes n (Statements.labels sub.body)
      (Statements.code (c.scope options sub) n sub.body) := Statements.closes sub.body
  constructor
  · simpa [Subroutine.code, definedLabels_cons, definedLabels_prologue, Instruction.label?]
      using h.labels
  · simpa [Subroutine.code, definedLabels_cons, definedLabels_prologue, jumpTargets_cons,
      jumpTargets_prologue, Instruction.label?, Instruction.target?] using h.targets

/-- Numbered through, the labels of all subroutines are one interval. -/
theorem Subroutines.labels_code (h : options.resetLabels = false) (used : Nat)
    (subs : List Subroutine) : (definedLabels (Subroutines.code c options used subs)).Perm
      (labelRange options.label used (Subroutines.labels subs)) := by
  induction subs generalizing used with
  | nil => exact .nil
  | cons first others ih =>
    have hf : firstLabel options used = used := by simp [firstLabel, h]
    rw [Subroutines.code, definedLabels_append, hf, Subroutines.labels, labelRange_add]
    exact (first.closes_code c options used).labels.append (ih _)

end

end Syntax

open Syntax

/-- The labels are numbered from `first` on, each is defined once, and so is
every target of a jump. -/
structure NumbersLabels (options : Options) (first count : Nat) (code : List Instruction) :
    Prop where
  numbers : (definedLabels code).Perm
    ((List.range' first count).map fun n => options.labelPrefix ++ toString n)
  nodup : (definedLabels code).Nodup
  targets : ∀ name ∈ jumpTargets code, (definedLabels code).count name = 1

theorem nodup_labelRange (options : Options) (first count : Nat) :
    (labelRange options.label first count).Nodup :=
  List.Nodup.map options.label_injective List.nodup_range'

theorem Syntax.Subroutine.numbersLabels_code (c : JackClass) (options : Options) (n : Nat)
    (sub : Subroutine) :
    NumbersLabels options n (2 * Statements.conditionals sub.body) (sub.code c options n) := by
  have h := sub.closes_code c options n
  rw [Statements.labels_eq] at h
  have hn : (definedLabels (sub.code c options n)).Nodup :=
    h.labels.nodup_iff.mpr (nodup_labelRange options ..)
  exact ⟨h.labels, hn, fun name hm => List.count_eq_one_of_mem hn (h.targets hm)⟩

/-- Every function has its own interval of labels, two for each `if` and
`while`. Unless the options start it at 0, it follows those of the functions
before. -/
theorem compile_numbersLabels {options : Options} {source : String} {code : List Instruction}
    (h : compile options source = .ok code) :
    ∃ c, Spells source c ∧ c.Valid ∧
      (Blockwise code c fun earlier sub block =>
        NumbersLabels options
          (if options.resetLabels then 0 else 2 * Subroutines.conditionals earlier)
          (2 * Statements.conditionals sub.body) block) ∧
      (options.resetLabels = false → (definedLabels code).Nodup) := by
  obtain ⟨c, hs, hv, rfl⟩ := compile_ok h
  refine ⟨c, hs, hv, blockwise_code fun earlier sub _ => ?_, fun hr => ?_⟩
  · rw [← Subroutines.labels_eq]
    exact sub.numbersLabels_code ..
  · exact (Subroutines.labels_code hr 0 c.subroutines).nodup_iff.mpr (nodup_labelRange options ..)

theorem compile_numbersLabels_tally :
    compile {} tallySource = .ok (tally.code {}) ∧
      NumbersLabels {} 0 4 (tallyRun.code tally {} 0) ∧
      NumbersLabels {} 4 0 (tallyCount.code tally {} 4) ∧
      definedLabels (tallyRun.code tally {} 0) = ["L0", "L2", "L3", "L1"] ∧
      jumpTargets (tallyRun.code tally {} 0) = ["L1", "L2", "L3", "L0"] ∧
      (definedLabels (tally.code {})).Nodup := by
  obtain ⟨c, hs, -, hb, hn⟩ := compile_numbersLabels compile_tally
  obtain rfl := hs.unique spells_tally
  have hrun : NumbersLabels {} 0 4 (tallyRun.code tally {} 0) :=
    hb.block 1 tallyRun _ rfl (by decide +kernel)
  have hcount : NumbersLabels {} 4 0 (tallyCount.code tally {} 4) :=
    hb.block 2 tallyCount _ rfl (by decide +kernel)
  exact ⟨compile_tally, hrun, hcount, by decide +kernel, by decide +kernel, hn rfl⟩

end JackVM
