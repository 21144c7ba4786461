import JackVM.Proofs.Code.Labels

/-!
# Stack depths

A depth for every place in the code is balanced if no instruction takes more
than there is and the depths at both ends of every edge of the flow agree. Code
that is at depth 0 wherever the flow joins can be checked in one pass in the
order of the text, and the depths that this pass meets are balanced.
-/

namespace JackVM

def Operation.operands : Operation → Nat
  | .neg | .not => 1
  | _ => 2

/-- How many words an instruction needs on the stack, all of which it removes. -/
def Instruction.takes : Instruction → Nat
  | .push _ _ | .label _ | .goto _ | .function _ _ => 0
  | .pop _ _ | .ifGoto _ | .ret => 1
  | .operate op => op.operands
  | .call _ arguments => arguments

def Instruction.leaves : Instruction → Nat
  | .push _ _ | .operate _ | .call _ _ => 1
  | _ => 0

def Instruction.falls : Instruction → Bool
  | .goto _ | .ret => false
  | _ => true

/-- Places between which the flow may go, within one function. -/
inductive Edge (block : List Instruction) : Nat → Nat → Prop
  | fall {k : Nat} {i : Instruction} (h : block[k]? = some i) (hf : i.falls = true) :
    Edge block k (k + 1)
  | jump {k l : Nat} {i : Instruction} {name : String} (h : block[k]? = some i)
    (ht : i.target? = some name) (hl : block[l]? = some (.label name)) : Edge block k l

/-- The depth in front of each instruction. Place `block.length` is the end. -/
structure Balanced (block : List Instruction) (depth : Nat → Nat) : Prop where
  entry : depth 0 = 0
  enough : ∀ k i, block[k]? = some i → i.takes ≤ depth k
  edge : ∀ k l i, block[k]? = some i → Edge block k l → depth l = depth k - i.takes + i.leaves
  label : ∀ k name, block[k]? = some (.label name) → depth k = 0

theorem Instruction.isLabel {i : Instruction} (h : i.label?.isSome) : ∃ name, i = .label name := by
  cases i with
  | label name => exact ⟨name, rfl⟩
  | _ => cases h

/-- Behind a jump or a `return` stands a label, if anything. -/
def Live (block : List Instruction) : Prop :=
  block.IsChain fun i next => i.falls = true ∨ next.label?.isSome

instance (block : List Instruction) : Decidable (Live block) :=
  inferInstanceAs (Decidable (List.IsChain _ _))

theorem Balanced.unique {block : List Instruction} {depth depth' : Nat → Nat}
    (h : Balanced block depth) (h' : Balanced block depth') (hlive : Live block) {k : Nat}
    (hk : k < block.length) : depth k = depth' k := by
  induction k with
  | zero => rw [h.entry, h'.entry]
  | succ k ih =>
    have hi : block[k]? = some block[k] := List.getElem?_eq_getElem _
    obtain hfalls | hlabel := List.isChain_iff_getElem.mp hlive k hk
    · have hedge : Edge block k (k + 1) := .fall hi hfalls
      rw [h.edge k (k + 1) _ hi hedge, h'.edge k (k + 1) _ hi hedge, ih (by omega)]
    · obtain ⟨name, hname⟩ := Instruction.isLabel hlabel
      have hl : block[k + 1]? = some (.label name) := by
        rw [List.getElem?_eq_getElem hk, hname]
      rw [h.label _ name hl, h'.label _ name hl]

-- ---------------------------------------------------------------------------
-- The pass over the code
-- ---------------------------------------------------------------------------

/-- Labels and jumps must use up all that is on the stack. -/
def Instruction.joins (i : Instruction) : Bool := i.label?.isSome || i.target?.isSome

/-- The depth after an instruction in the order of the text; after a `return`
it starts again at 0. -/
def Instruction.after? (i : Instruction) (depth : Nat) : Option Nat :=
  if i.takes ≤ depth ∧ (i.joins = true → depth = i.takes) then
    some (if i = .ret then 0 else depth - i.takes + i.leaves)
  else none

def walk : List Instruction → Nat → Option Nat
  | [], depth => some depth
  | i :: code, depth => (i.after? depth).bind (walk code)

section
variable {code more : List Instruction} {i : Instruction} {d e : Nat}

theorem walk_cons : walk (i :: code) d = (i.after? d).bind (walk code) := rfl

theorem walk_singleton : walk [i] d = i.after? d := by
  rw [walk_cons]
  cases i.after? d <;> rfl

theorem walk_append : walk (code ++ more) d = (walk code d).bind (walk more) := by
  induction code generalizing d with
  | nil => rfl
  | cons i code ih =>
    rw [List.cons_append, walk_cons, walk_cons]
    cases i.after? d with
    | none => rfl
    | some d' => exact ih

theorem walk_trans {r : Option Nat} (h : walk code d = some e) (h' : walk more e = r) :
    walk (code ++ more) d = r := by
  rw [walk_append, h]
  exact h'

theorem after?_of_straight (hj : i.joins = false) (hr : i ≠ .ret) (h : i.takes ≤ d) :
    i.after? d = some (d - i.takes + i.leaves) := by
  simp [Instruction.after?, h, hj, hr]

theorem after?_ok (h : i.after? d = some e) :
    i.takes ≤ d ∧ (i.joins = true → d = i.takes) ∧ (i ≠ .ret → e = d - i.takes + i.leaves) := by
  unfold Instruction.after? at h
  split at h
  case isTrue ht =>
    refine ⟨ht.1, ht.2, fun hr => ?_⟩
    rw [if_neg hr] at h
    exact (Option.some.inj h).symm
  case isFalse => cases h

def depthAt (code : List Instruction) (k : Nat) : Nat := (walk (code.take k) 0).getD 0

theorem depthAt_of_append {k : Nat} (hk : k = code.length) (h : walk code 0 = some d) :
    depthAt (code ++ more) k = d := by
  rw [depthAt, hk, List.take_left, h, Option.getD_some]

theorem walk_at {k : Nat} (h : walk code 0 = some e) (hi : code[k]? = some i) :
    i.after? (depthAt code k) = some (depthAt code (k + 1)) := by
  obtain ⟨hk, rfl⟩ := List.getElem?_eq_some_iff.mp hi
  have hs : code.take k ++ code[k] :: code.drop (k + 1) = code := by simp
  have hn : code.take (k + 1) = code.take k ++ [code[k]] := by simp
  rw [← hs, walk_append] at h
  obtain ⟨d, hd, h⟩ := Option.bind_eq_some_iff.mp h
  obtain ⟨d', hd', -⟩ := Option.bind_eq_some_iff.mp h
  rw [depthAt, depthAt, hn, walk_append, hd, Option.bind_some, walk_singleton, Option.getD_some,
    hd', Option.getD_some]

theorem ne_ret_of_falls (h : i.falls = true) : i ≠ .ret := by
  rintro rfl
  cases h

theorem leaves_of_target? {name : String} (h : i.target? = some name) : i.leaves = 0 := by
  cases i <;> first | rfl | cases h

theorem balanced_of_walk {block : List Instruction} (h : walk block 0 = some e) :
    Balanced block (depthAt block) := by
  have hlabel : ∀ k name, block[k]? = some (.label name) → depthAt block k = 0 :=
    fun k name hk => (after?_ok (walk_at h hk)).2.1 rfl
  constructor
  case entry => rfl
  case enough => exact fun k i hi => (after?_ok (walk_at h hi)).1
  case label => exact hlabel
  case edge =>
    intro k l i hi he
    obtain ⟨-, hjoin, hafter⟩ := after?_ok (walk_at h hi)
    cases he with
    | fall hi' hf =>
      cases hi.symm.trans hi'
      exact hafter (ne_ret_of_falls hf)
    | jump hi' ht hl =>
      cases hi.symm.trans hi'
      have hj : i.joins = true := by simp [Instruction.joins, ht]
      rw [hlabel l _ hl, hjoin hj, Nat.sub_self, leaves_of_target? ht]

end

end JackVM
