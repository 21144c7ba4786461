import JackVM.Proofs.Variables.Scopes

/-!
# A table of declarations and its history

Whatever is done to a table, its answers can be read off what was done and
answered before. A variable gets the number of those of its kind that its scope
has been given since it was last cleared, as long as that is a slot. A name
stands for the latest of them, in the subroutine before in the class.
-/

namespace JackVM.Declarations

-- ---------------------------------------------------------------------------
-- Steps and their history
-- ---------------------------------------------------------------------------

inductive Step
  | enterClass
  | enterSubroutine
  | declare (name type : String) (kind : VariableKind)
  deriving DecidableEq, Repr

/-- The slot that a step is given, if any, and the table after it. -/
def perform (d : Declarations) : Step → Option Nat × Declarations
  | .enterClass => (none, .empty)
  | .enterSubroutine => (none, d.enterSubroutine)
  | .declare name type kind =>
    match d.declare? name type kind with
    | some (slot, d) => (some slot, d)
    | none => (none, d)

/-- Steps with what they were given, the latest first. -/
abbrev History := List (Step × Option Nat)

def advance (past : Declarations × History) (step : Step) : Declarations × History :=
  ((past.1.perform step).2, (step, (past.1.perform step).1) :: past.2)

def performAll (steps : List Step) : Declarations × History := steps.foldl advance (.empty, [])

def Step.clears (ofClass : Bool) : Step → Bool
  | .enterClass => true
  | .enterSubroutine => !ofClass
  | .declare .. => false

/-- The variable that a step declared in a scope; without a slot there is none. -/
def declared? (ofClass : Bool) : Step × Option Nat → Option Variable
  | (.declare name type kind, some slot) =>
    if kind.ofClass = ofClass then some ⟨name, type, kind, slot⟩ else none
  | _ => none

namespace History

/-- The variables declared in a scope since it was last cleared, the latest first. -/
def live (h : History) (ofClass : Bool) : List Variable :=
  (h.takeWhile fun e => !e.1.clears ofClass).filterMap (declared? ofClass)

def taken (h : History) (kind : VariableKind) : Nat :=
  (h.live kind.ofClass).countP (·.kind = kind)

end History

/-- The table answers as its history says. -/
structure Follows (d : Declarations) (h : History) : Prop where
  slot (name type : String) (kind : VariableKind) :
    (d.perform (.declare name type kind)).1 =
      if h.taken kind < maxSlots then some (h.taken kind) else none
  /-- Without a slot the table stays as it is. -/
  full (name type : String) {kind : VariableKind} :
    maxSlots ≤ h.taken kind → (d.perform (.declare name type kind)).2 = d
  count (kind : VariableKind) : d.count kind = h.taken kind ∧ h.taken kind ≤ maxSlots
  find? (name : String) :
    d.find? name =
      ((h.live false).find? (·.name == name)).or ((h.live true).find? (·.name == name))
  /-- Variables of one kind have slots of their own, hidden ones too. -/
  apart (ofClass : Bool) :
    (h.live ofClass).Pairwise fun v w => v.kind = w.kind → v.index ≠ w.index
  /-- What is looked up under a name is there. -/
  inBounds (kind : VariableKind) {name : String} {place : Nat} :
    (d.scope kind).places.lookup name = some place → place < (d.scope kind).declared.size

-- ---------------------------------------------------------------------------
-- Live variables
-- ---------------------------------------------------------------------------

section
variable {d : Declarations} {h : History} {step : Step} {slot : Option Nat} {ofClass : Bool}

theorem live_clear (hc : step.clears ofClass = true) :
    History.live ((step, slot) :: h) ofClass = [] := by
  simp [History.live, hc]

theorem live_cons (hc : step.clears ofClass = false) :
    History.live ((step, slot) :: h) ofClass =
      (declared? ofClass (step, slot)).toList ++ h.live ofClass := by
  rw [History.live, List.takeWhile_cons_of_pos (by simp [hc]), List.filterMap_cons]
  cases declared? ofClass (step, slot) <;> rfl

theorem scope_add (d : Declarations) (v : Variable) (kind : VariableKind) :
    (d.add v).scope kind =
      if v.kind.ofClass = kind.ofClass then (d.scope kind).add v else d.scope kind := by
  unfold add scope
  cases v.kind.ofClass <;> cases kind.ofClass <;> rfl

theorem scope_enterSubroutine (d : Declarations) (kind : VariableKind) :
    d.enterSubroutine.scope kind = if kind.ofClass then d.scope kind else {} := by
  unfold enterSubroutine scope
  cases kind.ofClass <;> rfl

-- ---------------------------------------------------------------------------
-- Slots
-- ---------------------------------------------------------------------------

/-- Each slot is the number of earlier variables of the kind; the latest come first. -/
def Numbered : List Variable → Prop
  | [] => True
  | v :: earlier => v.index = earlier.countP (·.kind = v.kind) ∧ Numbered earlier

theorem Numbered.index_lt {vs : List Variable} (hn : Numbered vs) {v : Variable} (hv : v ∈ vs) :
    v.index < vs.countP (·.kind = v.kind) := by
  induction vs with
  | nil => cases hv
  | cons w earlier ih =>
    rw [List.countP_cons]
    rcases List.mem_cons.mp hv with rfl | hv
    · simp [hn.1]
    · exact Nat.lt_add_right _ (ih hn.2 hv)

theorem Numbered.pairwise {vs : List Variable} (hn : Numbered vs) :
    vs.Pairwise fun v w => v.kind = w.kind → v.index ≠ w.index := by
  induction vs with
  | nil => exact .nil
  | cons v earlier ih =>
    refine .cons (fun w hw hk => ?_) (ih hn.2)
    have hlt := hn.2.index_lt hw
    rw [← hk, ← hn.1] at hlt
    exact (Nat.ne_of_lt hlt).symm

-- ---------------------------------------------------------------------------
-- What every step keeps
-- ---------------------------------------------------------------------------

/-- The scopes of a table hold what is live, in slots of their own. -/
structure Keeps (d : Declarations) (h : History) : Prop where
  holds (kind : VariableKind) : (d.scope kind).Holds (h.live kind.ofClass)
  numbered (ofClass : Bool) : Numbered (h.live ofClass)
  fits (kind : VariableKind) : h.taken kind ≤ maxSlots

theorem keeps_empty : Keeps .empty [] where
  holds kind := by
    unfold scope
    cases kind.ofClass <;> exact VariableScope.holds_empty
  numbered _ := trivial
  fits _ := Nat.zero_le _

theorem Keeps.count_eq (hk : d.Keeps h) (kind : VariableKind) : d.count kind = h.taken kind :=
  (hk.holds kind).count kind

theorem Keeps.declare_some (hk : d.Keeps h) {kind : VariableKind} (name type : String)
    (hroom : h.taken kind < maxSlots) :
    d.perform (.declare name type kind) =
      (some (h.taken kind), d.add ⟨name, type, kind, h.taken kind⟩) := by
  simp [perform, declare?, hk.count_eq, hroom]

theorem Keeps.declare_none (hk : d.Keeps h) {kind : VariableKind} (name type : String)
    (hfull : ¬h.taken kind < maxSlots) : d.perform (.declare name type kind) = (none, d) := by
  simp [perform, declare?, hk.count_eq, hfull]

theorem keeps_cleared (h : History) : Keeps .empty ((.enterClass, none) :: h) := by
  have hlive (ofClass : Bool) : History.live ((.enterClass, none) :: h) ofClass = [] :=
    live_clear rfl
  refine ⟨fun kind => ?_, fun ofClass => ?_, fun kind => ?_⟩
  · rw [hlive]
    exact keeps_empty.holds kind
  · rw [hlive]
    trivial
  · rw [History.taken, hlive]
    exact Nat.zero_le _

theorem Keeps.enterSubroutine (hk : d.Keeps h) :
    Keeps d.enterSubroutine ((.enterSubroutine, none) :: h) := by
  have hlive (ofClass : Bool) : History.live ((.enterSubroutine, none) :: h) ofClass =
      if ofClass then h.live ofClass else [] := by
    cases ofClass with
    | true => exact live_cons rfl
    | false => exact live_clear rfl
  refine ⟨fun kind => ?_, fun ofClass => ?_, fun kind => ?_⟩
  · rw [hlive, scope_enterSubroutine]
    split
    · exact hk.holds kind
    · exact VariableScope.holds_empty
  · rw [hlive]
    split
    · exact hk.numbered ofClass
    · trivial
  · rw [History.taken, hlive]
    split
    · exact hk.fits kind
    · exact Nat.zero_le _

/-- A declaration that is given no slot leaves nothing in the history to see. -/
theorem Keeps.refused (hk : d.Keeps h) (name type : String) (kind : VariableKind) :
    Keeps d ((.declare name type kind, none) :: h) := by
  have hlive (ofClass : Bool) :
      History.live ((.declare name type kind, none) :: h) ofClass = h.live ofClass := live_cons rfl
  refine ⟨fun k => ?_, fun ofClass => ?_, fun k => ?_⟩
  · rw [hlive]
    exact hk.holds k
  · rw [hlive]
    exact hk.numbered ofClass
  · rw [History.taken, hlive]
    exact hk.fits k

theorem Keeps.declared (hk : d.Keeps h) {kind : VariableKind} (name type : String)
    (hroom : h.taken kind < maxSlots) :
    Keeps (d.add ⟨name, type, kind, h.taken kind⟩)
      ((.declare name type kind, some (h.taken kind)) :: h) := by
  have hlive (ofClass : Bool) :
      History.live ((.declare name type kind, some (h.taken kind)) :: h) ofClass =
        if kind.ofClass = ofClass then ⟨name, type, kind, h.taken kind⟩ :: h.live ofClass
        else h.live ofClass := by
    rw [live_cons rfl, declared?]
    split <;> rfl
  refine ⟨fun k => ?_, fun ofClass => ?_, fun k => ?_⟩
  · rw [hlive, scope_add]
    split
    · exact (hk.holds k).add _
    · exact hk.holds k
  · rw [hlive]
    split
    · next hc => exact ⟨hc ▸ rfl, hk.numbered ofClass⟩
    · exact hk.numbered ofClass
  · rw [History.taken, hlive]
    split
    · rw [List.countP_cons]
      split
      · next hkind =>
        obtain rfl : kind = k := of_decide_eq_true hkind
        exact hroom
      · exact hk.fits k
    · exact hk.fits k

theorem Keeps.perform (hk : d.Keeps h) (step : Step) :
    Keeps (d.perform step).2 ((step, (d.perform step).1) :: h) := by
  cases step with
  | enterClass => exact keeps_cleared h
  | enterSubroutine => exact hk.enterSubroutine
  | declare name type kind =>
    by_cases hroom : h.taken kind < maxSlots
    · rw [hk.declare_some name type hroom]
      exact hk.declared name type hroom
    · rw [hk.declare_none name type hroom]
      exact hk.refused name type kind

theorem Keeps.performAll (hk : d.Keeps h) (steps : List Step) :
    Keeps (steps.foldl advance (d, h)).1 (steps.foldl advance (d, h)).2 := by
  induction steps generalizing d h with
  | nil => exact hk
  | cons step steps ih => exact ih (hk.perform step)

end

/-- After any steps a table answers as their history says. -/
theorem performAll_follows (steps : List Step) :
    Follows (performAll steps).1 (performAll steps).2 := by
  have hk : Keeps (performAll steps).1 (performAll steps).2 := keeps_empty.performAll steps
  refine ⟨fun name type kind => ?_, fun name type kind hfull => ?_, fun kind => ?_,
    fun name => ?_, fun ofClass => (hk.numbered ofClass).pairwise,
    fun kind _ _ hplace => (hk.holds kind).place_lt hplace⟩
  · split
    · next hroom => rw [hk.declare_some name type hroom]
    · next hroom => rw [hk.declare_none name type hroom]
  · rw [hk.declare_none name type (Nat.not_lt.mpr hfull)]
  · exact ⟨hk.count_eq kind, hk.fits kind⟩
  · have hs : (performAll steps).1.inSubroutine.find? name = _ := (hk.holds .var).find?_eq name
    have hc : (performAll steps).1.inClass.find? name = _ := (hk.holds .static).find?_eq name
    rw [Declarations.find?, hs, hc]
    rfl

/-- A name declared twice stands for the later variable until its scope is left. -/
example :
    let steps : List Step := [.declare "x" "int" .field, .declare "x" "int" .var,
      .declare "x" "Array" .var, .enterSubroutine]
    ((performAll (steps.take 3)).1.find? "x", (performAll steps).1.find? "x") =
      (some ⟨"x", "Array", .var, 1⟩, some ⟨"x", "int", .field, 0⟩) := by
  decide

end JackVM.Declarations
