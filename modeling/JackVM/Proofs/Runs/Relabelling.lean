import JackVM.Proofs.Code.Labels
import JackVM.Proofs.Runs.Lockstep

/-!
# The same source under other options

Options only choose the names of labels. Errors are told by running both
compilations side by side, code by the tree that both compile: a statement's
code is the same up to where its labels start.
-/

namespace JackVM

open Compile Syntax

-- ---------------------------------------------------------------------------
-- Errors
-- ---------------------------------------------------------------------------

def anyOptions : Coupling Listing Listing where
  Tokens := Eq
  Place := Eq
  Numbering _ _ _ _ := True
  Label _ _ := True
  Out _ _ := True
  Stopped _ _ _ := False
  Later _ _ := True

namespace Coupling

theorem heads_self {ω₁ ω₂ : Type} {C : Coupling ω₁ ω₂} (tokens : ∀ s, C.Tokens s s)
    (place : ∀ o, C.Place o o) (s : TokenStream) : C.Heads s s := by
  obtain ⟨_ | ⟨⟨kind, span⟩ | _, rest⟩, stop⟩ := s
  · exact .stop (place stop)
  · exact .token kind (place span.start) (tokens ⟨rest, stop⟩)
  · exact .malformed _ (place _)

instance : anyOptions.Lawful where
  heads h := h ▸ heads_self (fun _ => rfl) (fun _ => rfl) _
  place_total b := ⟨b, rfl⟩
  label_total b := ⟨b, trivial⟩
  draw _ := ⟨trivial, trivial⟩
  restart _ := trivial
  write _ _ := .ok trivial
  later_refl _ := trivial
  later_trans _ _ := trivial
  later_write _ _ := trivial
  stopped_later h _ := h

end Coupling

theorem compileUnit_error {bound : Nat} {s t : CompileState Listing}
    (h : anyOptions.InStep s t) {e : CompileError Nat} {s' : CompileState Listing}
    (hs : compileUnit bound s = .error e s') :
    ∃ t', compileUnit bound t = .error e t' := by
  have hr := (Coupling.matches_classDeclaration (C := anyOptions) bound).ran s t h
  unfold compileUnit at hs ⊢
  show ∃ t', EStateM.bind _ _ t = _
  replace hs : EStateM.bind _ _ s = _ := hs
  unfold EStateM.bind at hs ⊢
  generalize classDeclaration bound s = r, classDeclaration bound t = q at hr hs
  cases hr with
  | ok => cases hs
  | error h =>
    cases hs
    cases h with
    | inSource cause h => exact ⟨_, by rw [h]⟩
    | inSink e => exact ⟨_, rfl⟩
  | stopped h => exact h.elim

theorem compile_error {o₁ : Options} (o₂ : Options) {source : String}
    {e : CompileError Position} (h : compile o₁ source = .error e) :
    compile o₂ source = .error e := by
  unfold compile compileInto at h ⊢
  cases hl : lexemes source with
  | error e => simpa [hl] using h
  | ok found =>
    simp only [hl, EStateM.run] at h ⊢
    cases hu : compileUnit found.length
        ⟨⟨found, source.utf8ByteSize⟩, { options := o₁ }, (#[] : Listing)⟩ with
    | ok u s => simp [hu] at h
    | error e s =>
      have hs : anyOptions.InStep
          ⟨⟨found, source.utf8ByteSize⟩, { options := o₁ }, #[]⟩
          ⟨⟨found, source.utf8ByteSize⟩, { options := o₂ }, #[]⟩ :=
        ⟨rfl, rfl, rfl, rfl, trivial, trivial⟩
      obtain ⟨t, ht⟩ := compileUnit_error hs hu
      simpa only [hu, ht] using h

-- ---------------------------------------------------------------------------
-- Code
-- ---------------------------------------------------------------------------

theorem Instruction.alike_self {label : String → String → Prop} {i : Instruction}
    (h : i.label? = none ∧ i.target? = none) : i.Alike label i := by
  cases i with
  | label | goto | ifGoto => simp [Instruction.label?, Instruction.target?] at h
  | _ => constructor

namespace Syntax

def Scope.relabel (scope : Scope) (label : Nat → String) : Scope := { scope with label }

section
variable (scope : Scope) (label : Nat → String)

mutual
theorem Term.code_relabel : (t : Term) → t.code (scope.relabel label) = t.code scope
  | .integer _ | .string _ | .constant _ | .variable _ => rfl
  | .element array index => by
    rw [Term.code, Term.code, index.code_relabel]
    rfl
  | .group inner => by rw [Term.code, Term.code, inner.code_relabel]
  | .unary op operand => by rw [Term.code, Term.code, operand.code_relabel]
  | .call call => by rw [Term.code, Term.code, call.code_relabel]
theorem Operand.code_relabel : (o : Operand) → o.code (scope.relabel label) = o.code scope
  | .term single => by rw [Operand.code, Operand.code, single.code_relabel]
  | .product left op right => by
    rw [Operand.code, Operand.code, left.code_relabel, right.code_relabel]
theorem Expression.code_relabel : (e : Expression) → e.code (scope.relabel label) = e.code scope
  | .operand single => by rw [Expression.code, Expression.code, single.code_relabel]
  | .sum left op right => by
    rw [Expression.code, Expression.code, left.code_relabel, right.code_relabel]
theorem Call.code_relabel : (c : Call) → c.code (scope.relabel label) = c.code scope
  | .mk callee args => by
    rw [Call.code, Call.code, Arguments.code_relabel args]
    cases callee <;> rfl
theorem Arguments.code_relabel : (args : List Expression) →
    Arguments.code (scope.relabel label) args = Arguments.code scope args
  | [] => rfl
  | first :: others => by
    rw [Arguments.code, Arguments.code, first.code_relabel, Arguments.code_relabel others]
end

end

abbrev Alike (L : String → String → Prop) : List Instruction → List Instruction → Prop :=
  List.Forall₂ (Instruction.Alike L)

section
variable {scope : Scope} {label : Nat → String} {L : String → String → Prop} {m n : Nat}
  {code code' more more' : List Instruction}

theorem alike_plain (h : ∀ i ∈ code, scope.Plain i) : Alike L code code :=
  List.forall₂_same.mpr fun i hi => Instruction.alike_self (h i hi).no_label

theorem alike_expression (value : Expression) :
    Alike L (value.code scope) (value.code (scope.relabel label)) := by
  rw [value.code_relabel]
  exact alike_plain (Scope.plain_of_straight value.straight)

theorem alike_append (h : Alike L code code') (h' : Alike L more more') :
    Alike L (code ++ more) (code' ++ more') := List.rel_append h h'

theorem alike_branch (h : ∀ i, L (scope.label (n + i)) (label (m + i))) (condition : Expression)
    (hc : Alike L code code') (hm : Alike L more more') :
    Alike L (branchCode scope n condition code more)
      (branchCode (scope.relabel label) m condition code' more') := by
  have htest : Alike L [.operate .not, .ifGoto (scope.label n)]
      [.operate .not, .ifGoto (label m)] := .cons (.operate _) (.cons (.ifGoto (h 0)) .nil)
  have hbetween : Alike L [.goto (scope.label (n + 1)), .label (scope.label n)]
      [.goto (label (m + 1)), .label (label m)] := .cons (.goto (h 1)) (.cons (.label (h 0)) .nil)
  have hend : Alike L [.label (scope.label (n + 1))] [.label (label (m + 1))] :=
    .cons (.label (h 1)) .nil
  exact alike_append (alike_append (alike_append (alike_append (alike_append
    (alike_expression condition) htest) hc) hbetween) hm) hend

theorem alike_loop (h : ∀ i, L (scope.label (n + i)) (label (m + i))) (condition : Expression)
    (hc : Alike L code code') :
    Alike L (loopCode scope n condition code)
      (loopCode (scope.relabel label) m condition code') := by
  have htest : Alike L [.operate .not, .ifGoto (scope.label (n + 1))]
      [.operate .not, .ifGoto (label (m + 1))] := .cons (.operate _) (.cons (.ifGoto (h 1)) .nil)
  have hend : Alike L [.goto (scope.label n), .label (scope.label (n + 1))]
      [.goto (label m), .label (label (m + 1))] := .cons (.goto (h 0)) (.cons (.label (h 1)) .nil)
  exact .cons (.label (h 0)) (alike_append (alike_append (alike_append
    (alike_expression condition) htest) hc) hend)

theorem labels_shift (h : ∀ i, L (scope.label (n + i)) (label (m + i))) (k : Nat) :
    ∀ i, L (scope.label (n + k + i)) (label (m + k + i)) := fun i => by
  rw [Nat.add_assoc, Nat.add_assoc]
  exact h (k + i)

mutual
theorem Statement.alike_code : (st : Statement) → {m n : Nat} →
    (∀ i, L (scope.label (n + i)) (label (m + i))) →
    Alike L (st.code scope n) (st.code (scope.relabel label) m)
  | .assign target value, _, n, _ => by
    rw [Statement.code, Statement.code, value.code_relabel]
    exact alike_plain (plain_assign (n := n) target value)
  | .assignElement array index value, _, n, _ => by
    rw [Statement.code, Statement.code, value.code_relabel, index.code_relabel]
    exact alike_plain (plain_assignElement (n := n) array index value)
  | .ifThen condition body, _, _, h =>
    alike_branch h condition (Statements.alike_code body (labels_shift h 2)) .nil
  | .ifElse condition body otherwise, _, _, h =>
    alike_branch h condition (Statements.alike_code body (labels_shift h 2))
      (Statements.alike_code otherwise (labels_shift (labels_shift h 2) _))
  | .whileLoop condition body, _, _, h =>
    alike_loop h condition (Statements.alike_code body (labels_shift h 2))
  | .run call, _, n, _ => by
    rw [Statement.code, Statement.code, call.code_relabel]
    exact alike_plain (plain_run (n := n) call)
  | .leave value, _, _, _ => by
    have hv : returned (scope.relabel label) value = returned scope value := by
      cases value with
      | none => rfl
      | some value =>
        show value.code _ ++ _ = value.code _ ++ _
        rw [value.code_relabel]
        rfl
    rw [code_leave, code_leave, hv]
    exact alike_append (alike_plain (Scope.plain_of_straight (straight_returned value)))
      (.cons .ret .nil)
theorem Statements.alike_code : (body : List Statement) → {m n : Nat} →
    (∀ i, L (scope.label (n + i)) (label (m + i))) →
    Alike L (Statements.code scope n body) (Statements.code (scope.relabel label) m body)
  | [], _, _, _ => .nil
  | first :: others, _, _, h =>
    alike_append (first.alike_code h) (Statements.alike_code others (labels_shift h _))
end

end

theorem Subroutine.alike_code {L : String → String → Prop} {o₁ o₂ : Options} {m n : Nat}
    (c : JackClass) (sub : Subroutine) (h : ∀ i, L (o₁.label (n + i)) (o₂.label (m + i))) :
    Alike L (sub.code c o₁ n) (sub.code c o₂ m) := by
  have hp : Alike L (prologueCode (countKind .field c.declarations) sub.kind)
      (prologueCode (countKind .field c.declarations) sub.kind) :=
    List.forall₂_same.mpr fun i hi => by
      cases hk : sub.kind <;> simp only [hk, prologueCode, List.mem_cons, List.not_mem_nil,
        or_false] at hi
      all_goals rcases hi with rfl | rfl | rfl <;> constructor
  have hb : Alike L (Statements.code (c.scope o₁ sub) n sub.body)
      (Statements.code ((c.scope o₁ sub).relabel o₂.label) m sub.body) :=
    Statements.alike_code sub.body h
  exact .cons (.function ..) (alike_append hp hb)

end Syntax

-- ---------------------------------------------------------------------------
-- Both
-- ---------------------------------------------------------------------------

/-- How far apart two option sets number the labels of a function, where the
functions before it define that many. -/
def labelOffset (o₁ o₂ : Options) (earlier : Nat) : Int :=
  if o₁.resetLabels = o₂.resetLabels then 0 else if o₁.resetLabels then earlier else -earlier

/-- The labels with some number of one option set and with that number plus `d`
of the other. -/
def ShiftedLabel (o₁ o₂ : Options) (d : Int) (a b : String) : Prop :=
  ∃ m n : Nat, (n : Int) = m + d ∧ a = o₁.labelPrefix ++ toString m ∧
    b = o₂.labelPrefix ++ toString n

/-- Function for function, the two codes are the same up to the names of
labels, and these differ by one offset in each function. -/
structure Relabelled (o₁ o₂ : Options) (code₁ code₂ : List Instruction) : Prop where
  length : code₁.length = code₂.length
  functions : (functionBlocks code₁).length = (functionBlocks code₂).length
  block : ∀ i block₁ block₂, (functionBlocks code₁)[i]? = some block₁ →
    (functionBlocks code₂)[i]? = some block₂ →
    Alike (ShiftedLabel o₁ o₂ (labelOffset o₁ o₂
      (definedLabels ((functionBlocks code₁).take i).flatten).length)) block₁ block₂

theorem firstLabel_offset (o₁ o₂ : Options) (earlier : Nat) :
    (firstLabel o₂ earlier : Int) = firstLabel o₁ earlier + labelOffset o₁ o₂ earlier := by
  unfold firstLabel labelOffset
  cases o₁.resetLabels <;> cases o₂.resetLabels
  case false.true => exact (Int.add_right_neg _).symm
  all_goals simp

theorem Syntax.Subroutine.alike_options (c : JackClass) (o₁ o₂ : Options) (sub : Subroutine)
    (earlier : Nat) :
    Alike (ShiftedLabel o₁ o₂ (labelOffset o₁ o₂ earlier))
      (sub.code c o₁ (firstLabel o₁ earlier)) (sub.code c o₂ (firstLabel o₂ earlier)) := by
  refine sub.alike_code c fun i => ⟨_, _, ?_, rfl, rfl⟩
  have h := firstLabel_offset o₁ o₂ earlier
  omega

theorem Syntax.Subroutine.length_labels (c : JackClass) (options : Options) (n : Nat)
    (sub : Subroutine) :
    (definedLabels (sub.code c options n)).length = Statements.labels sub.body := by
  rw [(sub.closes_code c options n).labels.length_eq, labelRange, List.length_map,
    List.length_range']

theorem Syntax.Subroutines.length_labels (c : JackClass) (options : Options) (used i : Nat)
    (subs : List Subroutine) :
    (definedLabels ((Subroutines.blocks c options used subs).take i).flatten).length =
      Subroutines.labels (subs.take i) := by
  induction subs generalizing used i with
  | nil => simp [Subroutines.blocks, Subroutines.labels]
  | cons first others ih =>
    cases i with
    | zero => rfl
    | succ i =>
      rw [Subroutines.blocks, List.take_succ_cons, List.take_succ_cons, List.flatten_cons,
        definedLabels_append, List.length_append, ih, first.length_labels]
      rfl

theorem Syntax.Subroutines.length_code (c : JackClass) (o₁ o₂ : Options) (used used' : Nat)
    (subs : List Subroutine) :
    (Subroutines.code c o₁ used subs).length = (Subroutines.code c o₂ used' subs).length := by
  induction subs generalizing used used' with
  | nil => rfl
  | cons first others ih =>
    have hf : (first.code c o₁ (firstLabel o₁ used)).length =
        (first.code c o₂ (firstLabel o₂ used')).length :=
      (first.alike_code c (L := fun _ _ => True) fun _ => trivial).length_eq
    rw [Subroutines.code, Subroutines.code, List.length_append, List.length_append, hf, ih]

theorem Syntax.JackClass.relabelled_code (c : JackClass) (o₁ o₂ : Options) :
    Relabelled o₁ o₂ (c.code o₁) (c.code o₂) where
  length := Subroutines.length_code ..
  functions := by
    rw [JackClass.code, JackClass.code, Subroutines.functionBlocks_code,
      Subroutines.functionBlocks_code, Subroutines.length_blocks, Subroutines.length_blocks]
  block i block₁ block₂ h₁ h₂ := by
    rw [JackClass.code, Subroutines.functionBlocks_code, Subroutines.getElem?_blocks,
      Nat.zero_add] at h₁ h₂
    rw [JackClass.code, Subroutines.functionBlocks_code, Subroutines.length_labels]
    obtain ⟨sub, hs, rfl⟩ := Option.map_eq_some_iff.mp h₁
    rw [hs] at h₂
    cases h₂
    exact sub.alike_options ..

/-- Under other options a source fails with the same error, or it compiles to
the same code with the labels renumbered. -/
theorem compileText_relabelled (o₁ o₂ : Options) (source : String) :
    match compileText o₁ source, compileText o₂ source with
    | .ok text₁, .ok text₂ => ∃ code₁ code₂, compile o₁ source = .ok code₁ ∧
        compile o₂ source = .ok code₂ ∧ text₁ = codeText code₁ ∧ text₂ = codeText code₂ ∧
        Relabelled o₁ o₂ code₁ code₂
    | .error e₁, .error e₂ => e₁ = e₂
    | _, _ => False := by
  unfold compileText
  cases h : compile o₁ source with
  | error e =>
    rw [compile_error o₂ h]
    rfl
  | ok code =>
    obtain ⟨c, hs, hv, rfl⟩ := compile_ok h
    rw [compile_run hs hv]
    exact ⟨_, _, rfl, rfl, rfl, rfl, c.relabelled_code o₁ o₂⟩

end JackVM
