import Mathlib.Data.List.SplitBy
import JackVM.Proofs.Code.Instructions
import JackVM.Proofs.Grammar.Acceptance

/-!
# The functions of the code

Code is cut into blocks in front of every `function`. The code of a class has
one block for each of its subroutines, in the order of the text, so that what
holds of the code of every subroutine holds of every block.
-/

namespace JackVM

def Instruction.isFunction : Instruction → Bool
  | .function _ _ => true
  | _ => false

/-- The code, cut in front of every `function`. -/
def functionBlocks (code : List Instruction) : List (List Instruction) :=
  code.splitBy fun _ next => !next.isFunction

theorem functionBlocks_append {code more : List Instruction}
    (h : ∀ i ∈ more.head?, i.isFunction = true) :
    functionBlocks (code ++ more) = functionBlocks code ++ functionBlocks more := by
  refine List.splitBy_append fun _ _ i hi => ?_
  rw [h i hi, Bool.not_true]

theorem functionBlocks_cons {i : Instruction} {code : List Instruction}
    (h : ∀ j ∈ code, j.isFunction = false) : functionBlocks (i :: code) = [i :: code] := by
  have hp : (i :: code).Pairwise fun _ next => !next.isFunction := by
    refine List.pairwise_cons.mpr ⟨fun j hj => by simp [h j hj], ?_⟩
    exact List.pairwise_of_forall_mem_list fun _ _ j hj => by simp [h j hj]
  exact List.splitBy_of_isChain nofun hp.isChain

namespace Syntax

variable {c : JackClass} {options : Options} {scope : Scope} {i : Instruction}

theorem Scope.Straight.not_function (h : scope.Straight i) : i.isFunction = false := by
  cases h <;> rfl

theorem Scope.Plain.not_function (h : scope.Plain i) : i.isFunction = false := by
  cases h with
  | straight h => exact h.not_function
  | _ => rfl

theorem Scope.Emits.not_function (h : scope.Emits i) : i.isFunction = false := by
  cases h with
  | plain h => exact h.not_function
  | _ => rfl

theorem prologue_not_function (fields : Nat) (kind : Compile.SubroutineKind) :
    ∀ i ∈ prologueCode fields kind, i.isFunction = false := by
  cases kind <;> simp [prologueCode, Instruction.isFunction]

-- ---------------------------------------------------------------------------
-- The blocks of a class
-- ---------------------------------------------------------------------------

def Subroutines.labels : List Subroutine → Nat
  | [] => 0
  | first :: others => Statements.labels first.body + Subroutines.labels others

def Subroutines.blocks (c : JackClass) (options : Options) (used : Nat) :
    List Subroutine → List (List Instruction)
  | [] => []
  | first :: others =>
    let n := firstLabel options used
    first.code c options n ::
      Subroutines.blocks c options (n + Statements.labels first.body) others

theorem Subroutines.length_blocks (used : Nat) (subs : List Subroutine) :
    (Subroutines.blocks c options used subs).length = subs.length := by
  induction subs generalizing used with
  | nil => rfl
  | cons first others ih => rw [blocks, List.length_cons, ih, List.length_cons]

theorem firstLabel_add (used more : Nat) :
    firstLabel options (firstLabel options used + more) = firstLabel options (used + more) := by
  unfold firstLabel
  split <;> rfl

/-- Where a block starts to number its labels is told by those of the earlier ones. -/
theorem Subroutines.getElem?_blocks (used i : Nat) (subs : List Subroutine) :
    (Subroutines.blocks c options used subs)[i]? =
      subs[i]?.map fun sub =>
        sub.code c options (firstLabel options (used + Subroutines.labels (subs.take i))) := by
  induction subs generalizing used i with
  | nil => rfl
  | cons first others ih =>
    cases i with
    | zero => rfl
    | succ i =>
      rw [blocks, List.getElem?_cons_succ, ih, List.getElem?_cons_succ, List.take_succ_cons]
      simp only [Nat.add_assoc, firstLabel_add]
      rfl

theorem Subroutine.functionBlocks_code (sub : Subroutine) (n : Nat) :
    functionBlocks (sub.code c options n) = [sub.code c options n] := by
  refine functionBlocks_cons (List.forall_mem_append.mpr ⟨prologue_not_function _ _, ?_⟩)
  intro i hi
  exact (Statements.emits sub.body i hi).not_function

theorem Subroutines.head_code (used : Nat) (subs : List Subroutine) :
    ∀ i ∈ (Subroutines.code c options used subs).head?, i.isFunction = true := by
  intro i hi
  cases subs with
  | nil => cases hi
  | cons first others => cases hi; rfl

theorem Subroutines.functionBlocks_code (used : Nat) (subs : List Subroutine) :
    functionBlocks (Subroutines.code c options used subs) =
      Subroutines.blocks c options used subs := by
  induction subs generalizing used with
  | nil => rfl
  | cons first others ih =>
    rw [Subroutines.code, functionBlocks_append (Subroutines.head_code _ others),
      first.functionBlocks_code, ih]
    rfl

end Syntax

-- ---------------------------------------------------------------------------
-- What holds of every block
-- ---------------------------------------------------------------------------

open Syntax

/-- The code has a block for each subroutine of the class. `P` holds of the
subroutines before it, the subroutine and its block. -/
structure Blockwise (code : List Instruction) (c : JackClass)
    (P : List Subroutine → Subroutine → List Instruction → Prop) : Prop where
  length : (functionBlocks code).length = c.subroutines.length
  block : ∀ i sub block, c.subroutines[i]? = some sub → (functionBlocks code)[i]? = some block →
    P (c.subroutines.take i) sub block

theorem blockwise_code {c : JackClass} {options : Options}
    {P : List Subroutine → Subroutine → List Instruction → Prop}
    (h : ∀ earlier, ∀ sub ∈ c.subroutines,
      P earlier sub (sub.code c options (firstLabel options (Subroutines.labels earlier)))) :
    Blockwise (c.code options) c P := by
  constructor
  · rw [JackClass.code, Subroutines.functionBlocks_code, Subroutines.length_blocks]
  · intro i sub block hs hb
    rw [JackClass.code, Subroutines.functionBlocks_code, Subroutines.getElem?_blocks, hs,
      Nat.zero_add] at hb
    cases hb
    exact h _ sub (List.mem_of_getElem? hs)

-- ---------------------------------------------------------------------------
-- A class with three functions
-- ---------------------------------------------------------------------------

def tallySource : String :=
  "class Tally { static int made; field int n, step; constructor Tally new(int by) { let step = by; let made = made + 1; return this; } method void run(int limit) { var int i; while (i < limit) { if (i = step) { do note(i, n); } else { let n = n + i; } let i = i + 1; } return n; } function int count() { return made; } }"

def named (name : String) : Expression := .operand (.term (.variable name))

def less : OperatorOf .sum := ⟨.lt, rfl⟩

def equals : OperatorOf .sum := ⟨.eq, rfl⟩

def tallyNew : Subroutine where
  kind := .constructor
  returnType := some (.named "Tally")
  name := "new"
  parameters := [⟨.int, "by"⟩]
  locals := []
  body := [
    .assign "step" (named "by"),
    .assign "made" (.sum (named "made") plus (.term (.integer 1))),
    .leave (some (.operand (.term (.constant .this))))]

def tallyRun : Subroutine where
  kind := .method
  returnType := none
  name := "run"
  parameters := [⟨.int, "limit"⟩]
  locals := [⟨.int, "i", []⟩]
  body := [
    .whileLoop (.sum (named "i") less (.term (.variable "limit"))) [
      .ifElse (.sum (named "i") equals (.term (.variable "step")))
        [.run (.mk (.own "note") [named "i", named "n"])]
        [.assign "n" (.sum (named "n") plus (.term (.variable "i")))],
      .assign "i" (.sum (named "i") plus (.term (.integer 1)))],
    .leave (some (named "n"))]

def tallyCount : Subroutine where
  kind := .function
  returnType := some .int
  name := "count"
  parameters := []
  locals := []
  body := [.leave (some (named "made"))]

def tally : JackClass where
  name := "Tally"
  vars := [⟨.static, .int, "made", []⟩, ⟨.field, .int, "n", ["step"]⟩]
  subroutines := [tallyNew, tallyRun, tallyCount]

set_option maxRecDepth 2000 in
theorem spells_tally : Spells tallySource tally := by
  refine ⟨tallySource.toList, (Lexeme.all tallySource.toList).filterMap token?, ?_, ?_, ?_⟩
  · rw [tallySource, String.toList_ofList]
    rfl
  · rw [tallySource, String.toList_ofList]
    decide +kernel
  · rw [tallySource, String.toList_ofList]
    decide +kernel

theorem valid_tallyNew : tallyNew.Valid tally where
  fits := by intro kind; cases kind <;> decide
  body := by
    have hs : tally.Declares tallyNew "step" := .inr (by decide)
    have hb : tally.Declares tallyNew "by" := .inl (by decide)
    have hm : tally.Declares tallyNew "made" := .inr (by decide)
    exact ⟨⟨hs, hb⟩, ⟨hm, hm, trivial⟩, trivial, trivial⟩

theorem valid_tallyRun : tallyRun.Valid tally where
  fits := by intro kind; cases kind <;> decide
  body := by
    have hi : tally.Declares tallyRun "i" := .inl (by decide)
    have hl : tally.Declares tallyRun "limit" := .inl (by decide)
    have hn : tally.Declares tallyRun "n" := .inr (by decide)
    have hs : tally.Declares tallyRun "step" := .inr (by decide)
    have hc : (Callee.own "note").Valid (tally.Declares tallyRun) 2 :=
      ⟨not_or.mpr ⟨by decide, by decide⟩, by decide⟩
    exact ⟨⟨⟨hi, hl⟩, ⟨⟨hi, hs⟩, ⟨⟨hc, hi, hn, trivial⟩, trivial⟩, ⟨hn, hn, hi⟩, trivial⟩,
      ⟨hi, hi, trivial⟩, trivial⟩, hn, trivial⟩

theorem valid_tallyCount : tallyCount.Valid tally where
  fits := by intro kind; cases kind <;> decide
  body := ⟨.inr (by decide), trivial⟩

theorem valid_tally : tally.Valid where
  fits := by intro kind; cases kind <;> decide
  subroutines := by
    simp only [tally, List.forall_mem_cons]
    exact ⟨valid_tallyNew, valid_tallyRun, valid_tallyCount, nofun⟩

theorem compile_tally : compile {} tallySource = .ok (tally.code {}) :=
  compile_run spells_tally valid_tally

end JackVM
