import JackVM.Proofs.Code.Naming
import JackVM.Proofs.Code.Operands
import JackVM.Proofs.Code.Slots

/-!
# Numbers in the code

Slots come from declarations, constants from tokens and strings, and the arguments
of a call are counted in a word. So every number in the code fits into a word.
-/

namespace JackVM

open Compile (maxWord SubroutineKind)

def Instruction.InWord : Instruction → Prop
  | .push _ n | .pop _ n | .call _ n | .function _ n => n ≤ maxWord
  | _ => True

instance (i : Instruction) : Decidable i.InWord := by
  cases i <;> unfold Instruction.InWord <;> infer_instance

namespace Syntax

def Scope.InWord (scope : Scope) : Prop := ∀ name, ∀ v ∈ scope.find? name, v.index ≤ maxWord

section
variable {scope : Scope}

theorem Scope.InWord.push (h : scope.InWord) (name : String) : ∀ i ∈ scope.push name, i.InWord := by
  intro i hi
  obtain ⟨v, hv, rfl⟩ := List.mem_map.mp hi
  exact h name v (Option.mem_toList.mp hv)

theorem Scope.InWord.pop (h : scope.InWord) (name : String) : ∀ i ∈ scope.pop name, i.InWord := by
  intro i hi
  obtain ⟨v, hv, rfl⟩ := List.mem_map.mp hi
  exact h name v (Option.mem_toList.mp hv)

theorem inWord_pointAt : ∀ i ∈ pointAt, i.InWord := by decide

theorem Constant.inWord (word : Constant) : ∀ i ∈ word.code, i.InWord := by
  cases word <;> decide

theorem inWord_unary (op : UnaryOperator) : op.instruction.InWord := by
  cases op <;> decide

theorem inWord_binary (op : BinaryOperator) : op.instruction.InWord := by
  cases op <;> decide

theorem inWord_string {value : String} (h : FitsWords value) :
    ∀ i ∈ stringCode value, i.InWord := by
  simp only [stringCode, List.forall_mem_cons]
  refine ⟨h.1, (by decide : 1 ≤ maxWord), fun i hi => ?_⟩
  obtain ⟨c, hc, hi⟩ := List.mem_flatMap.mp hi
  simp only [List.mem_cons, List.not_mem_nil, or_false] at hi
  rcases hi with rfl | rfl
  · exact h.2 c hc
  · exact (by decide : 2 ≤ maxWord)

theorem Callee.inWord_receiver (h : scope.InWord) (callee : Callee) :
    ∀ i ∈ callee.receiverCode scope, i.InWord := by
  cases callee with
  | own subroutine => exact List.forall_mem_singleton.mpr (Nat.zero_le _)
  | member owner subroutine => exact h.push owner

-- ---------------------------------------------------------------------------
-- Expressions
-- ---------------------------------------------------------------------------

mutual
theorem Term.inWord (h : scope.InWord) : (e : Term) → e.Valid scope.Declares →
    (∀ kind ∈ e.tokens, kind.Proper) → ∀ i ∈ e.code scope, i.InWord
  | .integer value, _, hk => by
    have hvalue : value ≤ maxInteger := hk _ (List.mem_singleton_self _)
    exact List.forall_mem_singleton.mpr (hvalue.trans (by decide))
  | .string _, hv, _ => inWord_string hv
  | .constant word, _, _ => word.inWord
  | .variable name, _, _ => h.push name
  | .element array index, hv, hk => by
    simp only [Term.tokens, List.forall_mem_cons, List.forall_mem_append] at hk
    simp only [Term.code, List.forall_mem_append, List.forall_mem_singleton]
    exact ⟨⟨⟨h.push array, index.inWord h hv.2 hk.2.2.1⟩, inWord_pointAt⟩, Nat.zero_le _⟩
  | .group inner, hv, hk => inner.inWord h hv (proper_inParens hk)
  | .unary op operand, hv, hk => by
    simp only [Term.code, List.forall_mem_append, List.forall_mem_singleton]
    exact ⟨operand.inWord h hv (List.forall_mem_cons.mp hk).2, inWord_unary op⟩
  | .call call, hv, hk => call.inWord h hv hk
theorem Operand.inWord (h : scope.InWord) : (o : Operand) → o.Valid scope.Declares →
    (∀ kind ∈ o.tokens, kind.Proper) → ∀ i ∈ o.code scope, i.InWord
  | .term single, hv, hk => single.inWord h hv hk
  | .product left op right, hv, hk => by
    simp only [Operand.tokens, List.forall_mem_append, List.forall_mem_cons] at hk
    simp only [Operand.code, List.forall_mem_append, List.forall_mem_singleton]
    exact ⟨⟨left.inWord h hv.1 hk.1, right.inWord h hv.2 hk.2.2⟩, inWord_binary op.1⟩
theorem Expression.inWord (h : scope.InWord) : (e : Expression) → e.Valid scope.Declares →
    (∀ kind ∈ e.tokens, kind.Proper) → ∀ i ∈ e.code scope, i.InWord
  | .operand single, hv, hk => single.inWord h hv hk
  | .sum left op right, hv, hk => by
    simp only [Expression.tokens, List.forall_mem_append, List.forall_mem_cons] at hk
    simp only [Expression.code, List.forall_mem_append, List.forall_mem_singleton]
    exact ⟨⟨left.inWord h hv.1 hk.1, right.inWord h hv.2 hk.2.2⟩, inWord_binary op.1⟩
theorem Call.inWord (h : scope.InWord) : (c : Call) → c.Valid scope.Declares →
    (∀ kind ∈ c.tokens, kind.Proper) → ∀ i ∈ c.code scope, i.InWord
  | .mk callee args, hv, hk => by
    simp only [Call.tokens, List.forall_mem_append] at hk
    simp only [Call.code, List.forall_mem_append, List.forall_mem_singleton]
    exact ⟨⟨callee.inWord_receiver h, Arguments.inWord h args hv.2 (proper_inParens hk.2)⟩,
      hv.1.counted⟩
theorem Arguments.inWord (h : scope.InWord) : (args : List Expression) →
    Arguments.Valid scope.Declares args → (∀ kind ∈ Arguments.tokens args, kind.Proper) →
    ∀ i ∈ Arguments.code scope args, i.InWord
  | [], _, _ => nofun
  | first :: others, hv, hk => by
    simp only [Arguments.tokens, List.forall_mem_append] at hk
    simp only [Arguments.code, List.forall_mem_append]
    exact ⟨first.inWord h hv.1 hk.1, Arguments.inWord h others hv.2 (Arguments.proper hk.2)⟩
end

-- ---------------------------------------------------------------------------
-- Statements
-- ---------------------------------------------------------------------------

theorem Scope.framed_inWord (scope : Scope) : scope.Framed Instruction.InWord where
  operate _ := trivial
  label _ := trivial
  goto _ := trivial
  ifGoto _ := trivial
  zero := Nat.zero_le _
  ret := trivial

mutual
theorem Statement.inWord (h : scope.InWord) : (st : Statement) →
    st.Valid scope.Declares scope.returnsVoid → (∀ kind ∈ st.tokens, kind.Proper) → (n : Nat) →
    ∀ i ∈ st.code scope n, i.InWord
  | .assign target value, hv, hk, n => by
    simp only [Statement.tokens, List.forall_mem_cons, List.forall_mem_append] at hk
    simp only [Statement.code, List.forall_mem_append]
    exact ⟨value.inWord h hv.2 hk.2.2.2.1, h.pop target⟩
  | .assignElement array index value, hv, hk, n => by
    simp only [Statement.tokens, List.forall_mem_cons, List.forall_mem_append] at hk
    obtain ⟨-, -, -, hi, -, -, hk, -⟩ := hk
    simp only [Statement.code, List.forall_mem_append, List.forall_mem_singleton]
    exact ⟨⟨⟨⟨h.push array, index.inWord h hv.2.1 hi⟩, inWord_pointAt⟩,
      value.inWord h hv.2.2 hk⟩, Nat.zero_le _⟩
  | .ifThen condition body, hv, hk, n => by
    simp only [Statement.tokens, List.forall_mem_cons, List.forall_mem_append] at hk
    obtain ⟨-, hc, hb⟩ := hk
    exact scope.framed_inWord.branch (condition.inWord h hv.1 (proper_inParens hc))
      (Statements.inWord h body hv.2 (proper_inBraces hb) _) (List.forall_mem_nil _)
  | .ifElse condition body otherwise, hv, hk, n => by
    simp only [Statement.tokens, List.forall_mem_cons, List.forall_mem_append] at hk
    obtain ⟨-, hc, hb, -, ho⟩ := hk
    exact scope.framed_inWord.branch (condition.inWord h hv.1 (proper_inParens hc))
      (Statements.inWord h body hv.2.1 (proper_inBraces hb) _)
      (Statements.inWord h otherwise hv.2.2 (proper_inBraces ho) _)
  | .whileLoop condition body, hv, hk, n => by
    simp only [Statement.tokens, List.forall_mem_cons, List.forall_mem_append] at hk
    obtain ⟨-, hc, hb⟩ := hk
    exact scope.framed_inWord.loop (condition.inWord h hv.1 (proper_inParens hc))
      (Statements.inWord h body hv.2 (proper_inBraces hb) _)
  | .run call, hv, hk, n => by
    simp only [Statement.tokens, List.forall_mem_cons, List.forall_mem_append] at hk
    simp only [Statement.code, List.forall_mem_append, List.forall_mem_singleton]
    exact ⟨call.inWord h hv hk.2.1, Nat.zero_le _⟩
  | .leave none, _, _, _ => scope.framed_inWord.leave (List.forall_mem_nil _)
  | .leave (some value), hv, hk, n => by
    simp only [Statement.tokens, List.forall_mem_cons, List.forall_mem_append] at hk
    exact scope.framed_inWord.leave (value.inWord h hv hk.2.1)
theorem Statements.inWord (h : scope.InWord) : (body : List Statement) →
    Statements.Valid scope.Declares scope.returnsVoid body →
    (∀ kind ∈ Statements.tokens body, kind.Proper) → (n : Nat) →
    ∀ i ∈ Statements.code scope n body, i.InWord
  | [], _, _, _ => nofun
  | first :: others, hv, hk, n => by
    simp only [Statements.tokens, List.forall_mem_append] at hk
    simp only [Statements.code, List.forall_mem_append]
    exact ⟨first.inWord h hv.1 hk.1 n, Statements.inWord h others hv.2 hk.2 _⟩
end

end

-- ---------------------------------------------------------------------------
-- Classes
-- ---------------------------------------------------------------------------

section
variable {c : JackClass} {options : Options}

theorem Fits.inWord_latest? {ds : List Declaration} (h : Fits ds) (name : String) :
    ∀ v ∈ latest? ds name, v.index ≤ maxWord := by
  intro v hv
  have hslots : v.index < maxSlots := (index_lt_of_latest? hv).trans_le (h v.kind)
  exact hslots.le

theorem JackClass.inWord_scope (hc : c.Valid) {s : Subroutine} (hs : s ∈ c.subroutines) :
    (c.scope options s).InWord := by
  intro name v hv
  rcases Option.or_eq_some_iff.mp hv with hv | ⟨-, hv⟩
  · exact (hc.subroutines s hs).fits.inWord_latest? name v hv
  · exact hc.fits.inWord_latest? name v hv

theorem inWord_prologue {fields : Nat} (h : fields ≤ maxWord) (kind : SubroutineKind) :
    ∀ i ∈ prologueCode fields kind, i.InWord := by
  cases kind with
  | constructor => exact List.forall_mem_cons.mpr ⟨h, by decide⟩
  | method => simp [prologueCode, Instruction.InWord]
  | function => exact List.forall_mem_nil _

theorem Subroutine.inWord_code (hc : c.Valid) (h : ∀ kind ∈ c.tokens, kind.Proper)
    {s : Subroutine} (hs : s ∈ c.subroutines) (n : Nat) : ∀ i ∈ s.code c options n, i.InWord := by
  obtain ⟨-, -, hsub⟩ := JackClass.proper_parts h
  have ht := hsub s hs
  simp only [Subroutine.tokens, bodyTokens, List.forall_mem_cons, List.forall_mem_append] at ht
  obtain ⟨-, -, -, -, hb⟩ := ht
  have hbody := fun kind hk => proper_inBraces hb kind (List.mem_append_right _ hk)
  have hv := hc.subroutines s hs
  refine List.forall_mem_append.mpr ⟨List.forall_mem_cons.mpr ⟨hv.fits .var, ?_⟩, ?_⟩
  · exact inWord_prologue (hc.fits .field) s.kind
  · have hscope : (c.scope options s).InWord := JackClass.inWord_scope hc hs
    exact Statements.inWord hscope s.body hv.statements hbody n

theorem Subroutines.inWord_code (hc : c.Valid) (h : ∀ kind ∈ c.tokens, kind.Proper)
    {subs : List Subroutine} (hs : subs ⊆ c.subroutines) (used : Nat) :
    ∀ i ∈ Subroutines.code c options used subs, i.InWord := by
  induction subs generalizing used with
  | nil => nofun
  | cons first others ih =>
    obtain ⟨hf, ho⟩ := List.cons_subset.mp hs
    exact List.forall_mem_append.mpr ⟨Subroutine.inWord_code hc h hf _, ih ho _⟩

end

end Syntax

open Syntax

/-- No number in the code of a class is cut when it is kept in a word. -/
theorem compile_inWord {options : Options} {source : String} {code : List Instruction}
    (h : compile options source = .ok code) : ∀ i ∈ code, i.InWord := by
  obtain ⟨c, hs, hv, rfl⟩ := compile_ok h
  exact Subroutines.inWord_code hv hs.proper (List.Subset.refl _) 0

end JackVM
