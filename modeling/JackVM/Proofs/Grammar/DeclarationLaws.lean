import JackVM.Proofs.Grammar.CompileLaws
import JackVM.Proofs.Variables.Scopes

/-!
# Declaring variables

The table of declarations is a record of the declarations made: `Records` says
of which. A declaration succeeds while its kind has a slot left, so a list of
them succeeds if and only if no kind gets too many.
-/

namespace JackVM

open Syntax

namespace Declarations

variable {d : Declarations}

def addAll (d : Declarations) (new : List Declaration) : Declarations :=
  new.foldl (fun d x => d.add ⟨x.name, x.type, x.kind, d.count x.kind⟩) d

/-- Each kind of the new declarations has slots for them. -/
def HasRoom (d : Declarations) (new : List Declaration) : Prop :=
  ∀ kind, 0 < countKind kind new → d.count kind + countKind kind new ≤ maxSlots

theorem count_addAll (new : List Declaration) (kind : VariableKind) :
    (d.addAll new).count kind = d.count kind + countKind kind new := by
  induction new generalizing d with
  | nil => rfl
  | cons x new ih =>
    rw [addAll, List.foldl_cons, ← addAll, ih, count_add, countKind_cons]
    dsimp only
    omega

theorem addAll_append (new more : List Declaration) :
    d.addAll (new ++ more) = (d.addAll new).addAll more := List.foldl_append

theorem hasRoom_nil : d.HasRoom [] := fun _ h => absurd h (by simp [countKind])

theorem hasRoom_append {new more : List Declaration} :
    d.HasRoom (new ++ more) ↔ d.HasRoom new ∧ (d.addAll new).HasRoom more := by
  simp only [HasRoom, countKind_append, count_addAll]
  constructor
  · intro h
    refine ⟨fun kind hk => ?_, fun kind hk => ?_⟩ <;> have := h kind (by omega) <;> omega
  · rintro ⟨h, h'⟩ kind hk
    by_cases hm : 0 < countKind kind more
    · have := h' kind hm; omega
    · have := h kind (by omega); omega

theorem hasRoom_singleton {x : Declaration} : d.HasRoom [x] ↔ d.count x.kind < maxSlots := by
  have hc (kind : VariableKind) : countKind kind [x] = if x.kind = kind then 1 else 0 := by
    simp [countKind, List.countP_singleton]
  simp only [HasRoom, hc]
  constructor
  · intro h
    have hx := h x.kind
    rw [if_pos rfl] at hx
    exact hx Nat.one_pos
  · intro h kind hk
    by_cases hx : x.kind = kind
    · subst hx
      rw [if_pos rfl]
      exact h
    · rw [if_neg hx] at hk
      cases hk

-- ---------------------------------------------------------------------------
-- The declarations on record
-- ---------------------------------------------------------------------------

def OfClass (ds : List Declaration) : Prop := ∀ d ∈ ds, d.kind = .static ∨ d.kind = .field

def OfSubroutine (ds : List Declaration) : Prop := ∀ d ∈ ds, d.kind = .arg ∨ d.kind = .var

/-- The class has made the first declarations, the subroutine in hand the second. -/
structure Records (d : Declarations) (ofClass ofSubroutine : List Declaration) : Prop where
  inClass : d.inClass.Holds (slots ofClass.reverse)
  inSubroutine : d.inSubroutine.Holds (slots ofSubroutine.reverse)

theorem countP_slots (kind : VariableKind) (ds : List Declaration) :
    (slots ds).countP (·.kind = kind) = countKind kind ds := by
  induction ds with
  | nil => rfl
  | cons x ds ih => simp [slots, ih, countKind, List.countP_cons]

theorem slots_concat (ds : List Declaration) (x : Declaration) :
    slots (ds ++ [x]).reverse =
      ⟨x.name, x.type, x.kind, countKind x.kind ds⟩ :: slots ds.reverse := by
  simp [slots, countKind, List.countP_reverse]

section
variable {cs ss new : List Declaration}

theorem records_empty : Records .empty [] [] :=
  ⟨VariableScope.holds_empty, VariableScope.holds_empty⟩

theorem Records.enterSubroutine (h : d.Records cs ss) : d.enterSubroutine.Records cs [] :=
  ⟨h.inClass, VariableScope.holds_empty⟩

theorem Records.count_eq (h : d.Records cs ss) (kind : VariableKind) :
    d.count kind = countKind kind (if kind.ofClass then cs else ss) := by
  unfold count scope
  split
  · rw [h.inClass.count, countP_slots, countKind, List.countP_reverse]
    rfl
  · rw [h.inSubroutine.count, countP_slots, countKind, List.countP_reverse]
    rfl

theorem Records.addAll_class (h : d.Records cs ss) (hn : OfClass new) :
    (d.addAll new).Records (cs ++ new) ss := by
  induction new generalizing d cs with
  | nil => simpa [addAll] using h
  | cons x new ih =>
    rw [← List.singleton_append, ← List.append_assoc, addAll_append]
    refine ih ?_ fun y hy => hn y (List.mem_cons_of_mem _ hy)
    have hkind : x.kind.ofClass = true := by
      rcases hn x List.mem_cons_self with hk | hk <;> rw [hk] <;> rfl
    have hcount := h.count_eq x.kind
    rw [if_pos hkind] at hcount
    show (d.add ⟨x.name, x.type, x.kind, d.count x.kind⟩).Records (cs ++ [x]) ss
    rw [add, if_pos hkind, hcount]
    exact ⟨slots_concat cs x ▸ h.inClass.add _, h.inSubroutine⟩

theorem Records.addAll_subroutine (h : d.Records cs ss) (hn : OfSubroutine new) :
    (d.addAll new).Records cs (ss ++ new) := by
  induction new generalizing d ss with
  | nil => simpa [addAll] using h
  | cons x new ih =>
    rw [← List.singleton_append, ← List.append_assoc, addAll_append]
    refine ih ?_ fun y hy => hn y (List.mem_cons_of_mem _ hy)
    have hkind : ¬x.kind.ofClass = true := by
      rcases hn x List.mem_cons_self with hk | hk <;> rw [hk] <;> decide
    have hcount := h.count_eq x.kind
    rw [if_neg hkind] at hcount
    show (d.add ⟨x.name, x.type, x.kind, d.count x.kind⟩).Records cs (ss ++ [x])
    rw [add, if_neg hkind, hcount]
    exact ⟨h.inClass, slots_concat ss x ▸ h.inSubroutine.add _⟩

/-- The latest declaration counts, and one of the subroutine before one of the class. -/
theorem Records.find?_eq (h : d.Records cs ss) (name : String) :
    d.find? name = (latest? ss name).or (latest? cs name) := by
  rw [find?, h.inClass.find?_eq, h.inSubroutine.find?_eq, latest?, latest?]

theorem hasRoom_iff {old : List Declaration} (hf : Fits old)
    (hc : ∀ x ∈ new, d.count x.kind = countKind x.kind old) :
    d.HasRoom new ↔ Fits (old ++ new) := by
  simp only [HasRoom, Fits, countKind_append]
  refine forall_congr' fun kind => ?_
  have hk := hf kind
  by_cases hn : 0 < countKind kind new
  · obtain ⟨x, hx, hxk⟩ := List.countP_pos_iff.mp hn
    obtain rfl := of_decide_eq_true hxk
    rw [hc x hx]
    omega
  · omega

theorem Records.hasRoom_class (h : d.Records cs ss) (hn : OfClass new) (hf : Fits cs) :
    d.HasRoom new ↔ Fits (cs ++ new) := by
  refine hasRoom_iff hf fun x hx => ?_
  rw [h.count_eq]
  rcases hn x hx with hk | hk <;> rw [hk] <;> rfl

theorem Records.hasRoom_subroutine (h : d.Records cs ss) (hn : OfSubroutine new) (hf : Fits ss) :
    d.HasRoom new ↔ Fits (ss ++ new) := by
  refine hasRoom_iff hf fun x hx => ?_
  rw [h.count_eq]
  rcases hn x hx with hk | hk <;> rw [hk] <;> rfl

end

end Declarations

-- ---------------------------------------------------------------------------
-- Steps that declare
-- ---------------------------------------------------------------------------

namespace CompileState

def declared (s : CompileState Listing) (tokens : TokenStream) (new : List Declaration) :
    CompileState Listing :=
  { s with
    tokens
    context := { s.context with declarations := s.context.declarations.addAll new } }

variable {s : CompileState Listing} {t t' : TokenStream} {new more : List Declaration}

@[simp] theorem declared_tokens : (s.declared t new).tokens = t := rfl

@[simp] theorem declared_declarations :
    (s.declared t new).context.declarations = s.context.declarations.addAll new := rfl

@[simp] theorem declared_returnsVoid :
    (s.declared t new).context.returnsVoid = s.context.returnsVoid := rfl

@[simp] theorem declared_declared :
    (s.declared t new).declared t' more = s.declared t' (new ++ more) := by
  simp [declared, Declarations.addAll_append]

theorem after_eq_declared : s.after t [] 0 = s.declared t [] := by
  simp [after, declared, Declarations.addAll]

@[simp] theorem after_declared : (s.after t [] 0).declared t' new = s.declared t' new := by
  simp [after_eq_declared]

@[simp] theorem declared_after : (s.declared t new).after t' [] 0 = s.declared t' new := by
  simp [after_eq_declared]

/-- Between the states, these tokens are read and these declarations made. -/
def Introduces (kinds : List TokenKind) (new : List Declaration) (s s' : CompileState Listing) :
    Prop :=
  ∃ t, s.tokens.Reads kinds t ∧ s.context.declarations.HasRoom new ∧ s' = s.declared t new

section
variable {kind : TokenKind} {kinds rest : List TokenKind} {a b c : CompileState Listing}

theorem introduces_nil : Introduces [] [] s s :=
  ⟨s.tokens, rfl, Declarations.hasRoom_nil, by rw [← after_eq_declared, after_self]⟩

theorem introduces_next (h : s.tokens.Next kind t) : Introduces [kind] [] s (s.after t [] 0) :=
  ⟨t, h.reads, Declarations.hasRoom_nil, after_eq_declared⟩

theorem Introduces.trans (h : Introduces kinds new a b) (h' : Introduces rest more b c) :
    Introduces (kinds ++ rest) (new ++ more) a c := by
  obtain ⟨t, hr, hn, rfl⟩ := h
  obtain ⟨t', hr', hn', rfl⟩ := h'
  exact ⟨t', hr.trans hr', Declarations.hasRoom_append.mpr ⟨hn, hn'⟩, declared_declared⟩

theorem Introduces.split (h : Introduces (kinds ++ rest) (new ++ more) a c) :
    ∃ b, Introduces kinds new a b ∧ Introduces rest more b c := by
  obtain ⟨t, hr, hn, rfl⟩ := h
  obtain ⟨m, hr, hr'⟩ := TokenStream.reads_append.mp hr
  obtain ⟨hn, hn'⟩ := Declarations.hasRoom_append.mp hn
  exact ⟨a.declared m new, ⟨m, hr, hn, rfl⟩, t, hr', hn', by simp⟩

/-- A first token belongs to no declaration yet. -/
theorem Introduces.next (h : Introduces (kind :: kinds) new a c) :
    ∃ t, a.tokens.Next kind t ∧ Introduces kinds new (a.after t [] 0) c := by
  obtain ⟨t, ⟨m, hk, hr⟩, hn, rfl⟩ := h
  exact ⟨m, hk, t, hr, hn, by simp⟩

theorem Introduces.eq_of_nil (h : Introduces [] [] a c) : c = a := by
  obtain ⟨t, hr, -, rfl⟩ := h
  rw [show t = a.tokens from hr, ← after_eq_declared, after_self]

end

end CompileState

namespace Compile

variable {s s' : CompileState Listing}

theorem declare_run {v : Reading.Named} {type : String} {kind : VariableKind}
    (h : s.context.declarations.count kind < maxSlots) :
    declare v type kind s = .ok () (s.declared s.tokens [⟨v.name, type, kind⟩]) := by
  rw [declare, bind_run context_run]
  simp only [Declarations.declare?, h, ↓reduceIte]
  rfl

theorem declare_ok {v : Reading.Named} {type : String} {kind : VariableKind}
    (h : declare v type kind s = .ok () s') :
    s.context.declarations.HasRoom [⟨v.name, type, kind⟩] ∧
      s' = s.declared s.tokens [⟨v.name, type, kind⟩] := by
  by_cases hc : s.context.declarations.count kind < maxSlots
  · rw [declare_run hc] at h
    cases h
    exact ⟨Declarations.hasRoom_singleton.mpr hc, rfl⟩
  · rw [declare, bind_run context_run] at h
    simp only [Declarations.declare?, hc, ↓reduceIte] at h
    cases h

end Compile

end JackVM
