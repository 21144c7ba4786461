import JackVM.Variable

/-!
# What a scope holds

A scope keeps its variables in three ways that every declaration changes
together. `Holds` says that they agree with one list of variables, the latest
first; what is looked up and counted then comes from that list.
-/

namespace JackVM.VariableScope

variable {s : VariableScope} {vs : List Variable}

structure Holds (s : VariableScope) (vs : List Variable) : Prop where
  declared : s.declared = vs.reverse.toArray
  /-- A place leads to the latest variable of its name. -/
  leads {name : String} {place : Nat} : s.places.lookup name = some place →
    ∃ v, s.declared[place]? = some v ∧ vs.find? (·.name == name) = some v
  absent {name : String} : s.places.lookup name = none → vs.find? (·.name == name) = none
  count (kind : VariableKind) : s.count kind = vs.countP (·.kind = kind)

theorem holds_empty : Holds {} [] := ⟨rfl, nofun, fun _ => rfl, fun _ => rfl⟩

theorem Holds.add (h : s.Holds vs) (v : Variable) : (s.add v).Holds (v :: vs) where
  declared := by simp [VariableScope.add, h.declared]
  leads {name place} hplace := by
    rw [VariableScope.add, List.lookup_cons] at hplace
    rw [List.find?_cons]
    cases hn : name == v.name with
    | true =>
      rw [hn] at hplace
      obtain rfl := Option.some.inj hplace
      exact ⟨v, by simp [VariableScope.add], by simp [eq_of_beq hn]⟩
    | false =>
      rw [hn] at hplace
      obtain ⟨w, hw, hfind⟩ := h.leads hplace
      refine ⟨w, ?_, by rw [BEq.comm, hn]; exact hfind⟩
      -- What is added stands behind all that was there.
      obtain ⟨hlt, rfl⟩ := Array.getElem?_eq_some_iff.mp hw
      rw [VariableScope.add, Array.getElem?_push_lt hlt]
  absent {name} hnone := by
    rw [VariableScope.add, List.lookup_cons] at hnone
    rw [List.find?_cons]
    cases hn : name == v.name with
    | true => simp [hn] at hnone
    | false =>
      rw [hn] at hnone
      rw [BEq.comm, hn]
      exact h.absent hnone
  count kind := by
    rw [count_add, h.count, List.countP_cons]
    simp

/-- The latest variable of a name is the one that is found. -/
theorem Holds.find?_eq (h : s.Holds vs) (name : String) :
    s.find? name = vs.find? (·.name == name) := by
  unfold VariableScope.find?
  cases hplace : s.places.lookup name with
  | none => rw [h.absent hplace, Option.bind_none]
  | some place =>
    obtain ⟨v, hv, hfind⟩ := h.leads hplace
    rw [hfind, Option.bind_some, hv]

theorem Holds.place_lt (h : s.Holds vs) {name : String} {place : Nat}
    (hplace : s.places.lookup name = some place) : place < s.declared.size :=
  have ⟨_, hv, _⟩ := h.leads hplace
  (Array.getElem?_eq_some_iff.mp hv).1

end JackVM.VariableScope
