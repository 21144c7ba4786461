import JackVM.Proofs.Grammar.StatementComplete
import JackVM.Proofs.Grammar.StatementSound
import JackVM.Proofs.Machine.ExpressionCode

/-!
# Assignment to an element

The address of the target is in `pointer 1` before the right-hand side is
evaluated, but every element that is read there leaves its own address. What
is written in the end is the element read last, and the target if none was.
-/

namespace JackVM

theorem Store.set_eq_set_iff {s : Store} {a b value : Word} :
    s.set a value = s.set b value ↔ a = b ∨ s.memory a = value ∧ s.memory b = value := by
  constructor
  · intro h
    by_cases hab : a = b
    · exact .inl hab
    · have hm : Function.update s.memory a value = Function.update s.memory b value :=
        congrArg Store.memory h
      have ha := congrFun hm a
      have hb := congrFun hm b
      rw [Function.update_self, Function.update_of_ne hab] at ha
      rw [Function.update_self, Function.update_of_ne (Ne.symm hab)] at hb
      exact .inr ⟨ha.symm, hb⟩
  · rintro (rfl | ⟨ha, hb⟩)
    · rfl
    · rw [Store.set, Store.set, Function.update_eq_iff.mpr ⟨ha.symm, fun _ _ => rfl⟩,
        Function.update_eq_iff.mpr ⟨hb.symm, fun _ _ => rfl⟩]

namespace Syntax

open Machine

variable {calls : Calls} {scope : Scope} {m : Machine}

/-- The cell written by an assignment to `target` whose right-hand side reads
these elements. -/
def written (target : Word) (reads : List Word) : Word := reads.getLastD target

theorem written_eq_target {target : Word} {reads : List Word} :
    written target reads = target ↔ reads = [] ∨ reads.getLast? = some target := by
  rw [written, List.getLastD_eq_getLast?]
  cases h : reads.getLast? with
  | none => simp [List.getLast?_eq_none_iff.mp h]
  | some cell =>
    have hr : reads ≠ [] := by rintro rfl; cases h
    simp [hr]

theorem exec_assignElement {array : String} {index value : Expression} {base : Word}
    (hb : scope.value? m.frame m.store array = some base) (hi : index.Valid scope.Declares)
    (hv : value.Valid scope.Declares) :
    let i := index.eval calls scope m.frame m.store
    let x := value.eval calls scope m.frame i.store
    let cell := written (base + i.value) x.reads
    exec calls (scope.push array ++ index.code scope ++ pointAt ++ value.code scope ++
        [.pop .that 0]) m =
      some ⟨m.stack, m.frame, cell, x.store.set cell x.value⟩ := by
  refine exec_trans (exec_trans (exec_trans (exec_trans (exec_scopePush hb) (index.exec_code hi))
    (exec_pointAt ..)) (value.exec_code hv)) ?_
  simp [exec, step, write, written, Machine.gain, Machine.push]

end Syntax

namespace Compile

open Syntax Machine TokenStream

/-- From `s` to `s'`, code is written that evaluates the index and then the
value, and stores the value in one cell. The last equivalence tells when this
is what a write to the target does, whose address is found before the value. -/
def StoresElement (calls : Calls) (array : String) (index value : Expression)
    (s s' : CompileState Listing) : Prop :=
  ∃ code : List Instruction, s'.out = s.out ++ code.toArray ∧ ∀ m : Machine,
    ∃ base, s.scope.value? m.frame m.store array = some base ∧
      let i := index.eval calls s.scope m.frame m.store
      let x := value.eval calls s.scope m.frame i.store
      let target := base + i.value
      let cell := written target x.reads
      exec calls code m = some ⟨m.stack, m.frame, cell, x.store.set cell x.value⟩ ∧
        m.store.ByCalls calls x.store ∧
        (x.store.set cell x.value = x.store.set target x.value ↔
          value.readsElement = false ∨ x.reads.getLast? = some target ∨
            x.store.memory cell = x.value ∧ x.store.memory target = x.value)

theorem storesElement_after {calls : Calls} {array : String} {index value : Expression}
    {s : CompileState Listing} {t : TokenStream} (ha : s.Declares array)
    (hi : index.Valid s.Declares) (hv : value.Valid s.Declares) :
    StoresElement calls array index value s (s.after t
      (s.scope.push array ++ index.code s.scope ++ pointAt ++ value.code s.scope ++
        [.pop .that 0]) 0) := by
  refine ⟨_, rfl, fun m => ?_⟩
  have ha' : s.scope.Declares array := ha
  have hb := value?_of_declares ha' m.frame m.store
  refine ⟨_, hb, ?_, ?_, ?_⟩
  · exact exec_assignElement hb hi hv
  · exact (index.eval_byCalls _).trans (value.eval_byCalls _)
  · rw [Store.set_eq_set_iff, written_eq_target, value.reads_eq_nil, or_assoc]

/-- An assignment to an element stores the right-hand side in the element read
last, and so in its target if the right-hand side reads no element or that
very one last. -/
theorem letStatement_stores (calls : Calls) (bound : Nat) (s : CompileState Listing) :
    (∀ s', letStatement bound s = .ok () s' →
      (∃ name value, s.tokens.Reads (Statement.tokens (.assign name value)) s'.tokens) ∨
      ∃ array index value,
        s.tokens.Reads (Statement.tokens (.assignElement array index value)) s'.tokens ∧
        s.Declares array ∧ index.Valid s.Declares ∧ value.Valid s.Declares ∧
        StoresElement calls array index value s s') ∧
    ∀ (array : String) (index value : Expression) (t : TokenStream),
      s.tokens.Reads (Statement.tokens (.assignElement array index value)) t →
      s.Declares array → index.Valid s.Declares → value.Valid s.Declares →
      (Statement.tokens (.assignElement array index value)).length ≤ bound →
      ∃ s', letStatement bound s = .ok () s' ∧ s'.tokens = t ∧
        StoresElement calls array index value s s' := by
  constructor
  · intro s' h
    rcases letStatement_ok h with ⟨name, value, t, hr, -, rfl⟩ |
      ⟨array, index, value, t, hr, ⟨ha, hi, hv⟩, rfl⟩
    · exact .inl ⟨name, value, hr⟩
    · exact .inr ⟨array, index, value, hr, ha, hi, hv, storesElement_after ha hi hv⟩
  · intro array index value t hr ha hi hv hl
    simp only [Statement.tokens, List.length_cons, List.length_append] at hl
    exact ⟨_, letElement_run hr ha hi hv (by omega) (by omega), rfl,
      storesElement_after ha hi hv⟩

def storeFirst (value : Expression) : List TokenKind :=
  Statement.tokens (.assignElement "x" (.operand (.term (.integer 0))) value)

def third : Expression := .operand (.term (.element "y" (.operand (.term (.integer 2)))))

theorem letStatement_stores_plain :
    ∃ s', letStatement 9 (unread (storeFirst (.operand (.term (.variable "y")))) ["x", "y"]) =
        .ok () s' ∧
      exec multiply s'.out.toList idle =
        some { idle with that := 10, store := idle.store.set 10 100 } := by
  obtain ⟨s', h, -, code, hout, hrun⟩ := (letStatement_stores multiply 9 (unread _ _)).2 "x"
    (.operand (.term (.integer 0))) (.operand (.term (.variable "y"))) ⟨[], 0⟩
    (reads_unread (storeFirst (.operand (.term (.variable "y")))) ["x", "y"])
    rfl trivial rfl (by decide)
  have hcode : s'.out.toList = code := by simp [hout, unread]
  obtain ⟨_, hb, hexec, -⟩ := hrun idle
  cases hb
  refine ⟨s', h, ?_⟩
  rw [hcode, hexec]
  rfl

/-- After `let x[0] = y[2];` cell 10, for which it was meant, is still 0. -/
theorem letStatement_misses_target :
    (unread (storeFirst third) ["x", "y"]).scope.value? idle.frame idle.store "x" = some 10 ∧
      third.eval multiply (unread (storeFirst third) ["x", "y"]).scope idle.frame idle.store =
        ⟨2, idle.store, [102]⟩ ∧
      ∃ s', letStatement 12 (unread (storeFirst third) ["x", "y"]) = .ok () s' ∧
        ∃ m, exec multiply s'.out.toList idle = some m ∧ m.store.memory 10 = 0 := by
  refine ⟨rfl, rfl, _, letElement_run (reads_unread ..) rfl trivial ⟨rfl, trivial⟩ (by decide)
    (by decide), _, rfl, rfl⟩

end Compile

end JackVM
