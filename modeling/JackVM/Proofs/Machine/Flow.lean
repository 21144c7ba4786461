import Mathlib.Logic.Relation
import JackVM.Proofs.Code.Labels
import JackVM.Proofs.Machine.Basic

/-!
# The flow of control

The machine inside one function, with the place of the next instruction. Labels
are those of the function, `if-goto` jumps on every value but 0, and there is no
step from a `return` or from the end.
-/

namespace JackVM

structure Running where
  next : Nat
  machine : Machine

section
variable (calls : Calls) (code : List Instruction)

def Running.step (r : Running) : Option Running :=
  match code[r.next]? with
  | none => none
  | some (.label _) => some ⟨r.next + 1, r.machine⟩
  | some (.goto name) => (code.idxOf? (.label name)).map fun place => ⟨place, r.machine⟩
  | some (.ifGoto name) =>
    match r.machine.stack with
    | [] => none
    | value :: rest =>
      let m := { r.machine with stack := rest }
      if value = 0 then some ⟨r.next + 1, m⟩
      else (code.idxOf? (.label name)).map fun place => ⟨place, m⟩
  | some i => (r.machine.step calls i).map fun m => ⟨r.next + 1, m⟩

def Reaches : Running → Running → Prop :=
  Relation.ReflTransGen fun r r' => r.step calls code = some r'

end

def CodeAt (code : List Instruction) (start : Nat) (part : List Instruction) : Prop :=
  ∃ before after, code = before ++ part ++ after ∧ before.length = start

section
variable {calls : Calls} {code a b : List Instruction} {k l : Nat} {i : Instruction}
  {name : String} {m m' : Machine} {r r' r'' : Running}

theorem CodeAt.left (h : CodeAt code k (a ++ b)) : CodeAt code k a := by
  obtain ⟨before, after, rfl, hk⟩ := h
  exact ⟨before, b ++ after, by simp, hk⟩

theorem CodeAt.right (h : CodeAt code k (a ++ b)) : CodeAt code (k + a.length) b := by
  obtain ⟨before, after, rfl, rfl⟩ := h
  exact ⟨before ++ a, after, by simp, List.length_append⟩

theorem CodeAt.head (h : CodeAt code k (i :: a)) : code[k]? = some i := by
  obtain ⟨before, after, rfl, rfl⟩ := h
  simp

theorem CodeAt.tail (h : CodeAt code k (i :: a)) : CodeAt code (k + 1) a :=
  CodeAt.right (a := [i]) h

-- ---------------------------------------------------------------------------
-- Single steps
-- ---------------------------------------------------------------------------

theorem idxOf?_label (hn : (definedLabels code).Nodup) (h : code[k]? = some (.label name)) :
    code.idxOf? (.label name) = some k := by
  induction code generalizing k with
  | nil => cases h
  | cons i rest ih =>
    rw [definedLabels_cons] at hn
    rw [List.idxOf?_cons]
    cases k with
    | zero =>
      cases h
      simp
    | succ k =>
      have hm : name ∈ definedLabels rest :=
        List.mem_filterMap.mpr ⟨_, List.mem_of_getElem? h, rfl⟩
      have hi : i ≠ .label name := by
        rintro rfl
        exact (List.nodup_cons.mp hn).1 hm
      simp [hi, ih hn.of_append_right h]

theorem Reaches.refl : Reaches calls code r r := Relation.ReflTransGen.refl

theorem Reaches.trans (h : Reaches calls code r r') (h' : Reaches calls code r' r'') :
    Reaches calls code r r'' := Relation.ReflTransGen.trans h h'

theorem reaches_step (h : r.step calls code = some r') : Reaches calls code r r' :=
  Relation.ReflTransGen.single h

theorem reaches_label (h : code[k]? = some (.label name)) :
    Reaches calls code ⟨k, m⟩ ⟨k + 1, m⟩ := by
  refine reaches_step ?_
  simp [Running.step, h]

section
variable (hn : (definedLabels code).Nodup) (hl : code[l]? = some (.label name))
include hn hl

theorem reaches_goto (h : code[k]? = some (.goto name)) :
    Reaches calls code ⟨k, m⟩ ⟨l + 1, m⟩ := by
  have hs : Running.step calls code ⟨k, m⟩ = some ⟨l, m⟩ := by
    simp [Running.step, h, idxOf?_label hn hl]
  exact (reaches_step hs).trans (reaches_label hl)

theorem reaches_ifGoto (h : code[k]? = some (.ifGoto name)) (value : Word) (stack : List Word)
    (hs : m.stack = value :: stack) :
    Reaches calls code ⟨k, m⟩ ⟨if value = 0 then k + 1 else l + 1, { m with stack }⟩ := by
  by_cases hv : value = 0
  · refine reaches_step ?_
    simp [Running.step, h, hs, hv]
  · have hstep : Running.step calls code ⟨k, m⟩ = some ⟨l, { m with stack }⟩ := by
      simp only [Running.step, h, hs, if_neg hv, idxOf?_label hn hl, Option.map_some]
    rw [if_neg hv]
    exact (reaches_step hstep).trans (reaches_label hl)

end

/-- Instructions that the machine can execute alone do not control the flow. -/
theorem step_of_machine (h : code[k]? = some i) (hs : m.step calls i = some m') :
    Running.step calls code ⟨k, m⟩ = some ⟨k + 1, m'⟩ := by
  cases i with
  | label | goto | ifGoto => cases hs
  | _ => simp [Running.step, h, hs]

theorem reaches_exec (hc : CodeAt code k a) (h : Machine.exec calls a m = some m') :
    Reaches calls code ⟨k, m⟩ ⟨k + a.length, m'⟩ := by
  induction a generalizing k m with
  | nil =>
    cases h
    exact .refl
  | cons i rest ih =>
    obtain ⟨m₁, hs, h⟩ := Option.bind_eq_some_iff.mp h
    have hrest : Reaches calls code ⟨k + 1, m₁⟩ ⟨k + 1 + rest.length, m'⟩ := ih hc.tail h
    rw [List.length_cons, Nat.add_comm rest.length, ← Nat.add_assoc]
    exact (reaches_step (step_of_machine hc.head hs)).trans hrest

end

end JackVM
