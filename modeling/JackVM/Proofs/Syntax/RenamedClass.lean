import Mathlib.Data.List.Find
import JackVM.Proofs.Syntax.Renaming

/-!
# A class with a renamed subroutine

The renamed declarations get the slots that they had before, in the order in
which they stand. So each name of the subroutine finds what it found before,
also where it hides a variable of the class.
-/

namespace JackVM.Syntax

-- ---------------------------------------------------------------------------
-- Declarations
-- ---------------------------------------------------------------------------

def Declaration.rename (x y : String) (d : Declaration) : Declaration :=
  { d with name := renameTo x y d.name }

section
variable {x y : String} {ds : List Declaration}

theorem renameTo_inj {a b : String} (ha : a ≠ y) (hb : b ≠ y) :
    renameTo x y a = renameTo x y b ↔ a = b := by
  unfold renameTo
  split
  · next hax =>
    split
    · next hbx => simp [hax, hbx]
    · next hbx => simp [hax, Ne.symm hb, Ne.symm hbx]
  · next hax =>
    split
    · next hbx => simp [hbx, ha, hax]
    · exact Iff.rfl

theorem countKind_rename (kind : VariableKind) (ds : List Declaration) :
    countKind kind (ds.map (Declaration.rename x y)) = countKind kind ds := List.countP_map

theorem slots_rename (ds : List Declaration) :
    slots (ds.map (Declaration.rename x y)) =
      (slots ds).map fun v => { v with name := renameTo x y v.name } := by
  induction ds with
  | nil => rfl
  | cons d ds ih =>
    rw [List.map_cons, slots, slots, List.map_cons, ih]
    congr 2
    exact countKind_rename _ ds

theorem latest?_rename {z : String} (hy : y ∉ ds.map Declaration.name) (hz : z ≠ y) :
    (latest? (ds.map (Declaration.rename x y)) (renameTo x y z)).map Variable.unnamed =
      (latest? ds z).map Variable.unnamed := by
  have hsame : ∀ v ∈ slots ds.reverse, (renameTo x y v.name == renameTo x y z) = (v.name == z) := by
    intro v hv
    have hm : v.name ∈ (slots ds.reverse).map Variable.name := List.mem_map.mpr ⟨v, hv, rfl⟩
    rw [names_slots, List.map_reverse, List.mem_reverse] at hm
    rw [Bool.eq_iff_iff, beq_iff_eq, beq_iff_eq, renameTo_inj (ne_of_mem_of_not_mem hm hy) hz]
  unfold latest?
  rw [← List.map_reverse, slots_rename, List.find?_map, Option.map_map]
  exact congrArg (Option.map Variable.unnamed) (List.find?_congr hsame)

theorem Declarators.mem_tokens {d : Declarators} {name : String} (h : name ∈ d.names) :
    .identifier name ∈ d.tokens := by
  rcases List.mem_cons.mp h with rfl | ho
  · simp [Declarators.tokens]
  · simp [Declarators.tokens, ho]

theorem Parameters.mem_tokens {ps : List Parameter} {p : Parameter} (h : p ∈ ps) :
    .identifier p.name ∈ Parameters.tokens ps := by
  cases ps with
  | nil => nomatch h
  | cons first others =>
    rcases List.mem_cons.mp h with rfl | ho
    · simp [Parameters.tokens, Parameter.tokens]
    · refine List.mem_append_right _ (List.mem_flatMap.mpr ⟨p, ho, ?_⟩)
      simp [Parameter.tokens]

theorem Subroutine.mem_tokens {s : Subroutine} {name : String} (h : name ∈ s.ownNames) :
    .identifier name ∈ s.tokens := by
  simp only [Subroutine.tokens, bodyTokens, List.mem_cons, List.mem_append,
    identifier_mem_inParens, identifier_mem_inBraces]
  rcases List.mem_append.mp h with hp | hl
  · obtain ⟨p, hm, rfl⟩ := List.mem_map.mp hp
    exact .inr (.inr (.inr (.inl (Parameters.mem_tokens hm))))
  · obtain ⟨d, hd, hn⟩ := List.mem_flatMap.mp hl
    refine .inr (.inr (.inr (.inr (.inl (List.mem_flatMap.mpr ⟨d, hd, ?_⟩)))))
    exact List.mem_cons_of_mem _ (Declarators.mem_tokens hn)

theorem Declarators.names_rename (d : Declarators) :
    (d.rename x y).names = d.names.map (renameTo x y) := rfl

theorem Declarators.declarations_rename (kind : VariableKind) (d : Declarators) :
    (d.rename x y).declarations kind = (d.declarations kind).map (Declaration.rename x y) := by
  rw [Declarators.declarations, names_rename, List.map_map, Declarators.declarations, List.map_map]
  rfl

theorem Subroutine.declarations_rename {className : String} {s : Subroutine}
    (hx : x ≠ Keyword.thisWord.spelling) :
    (s.rename x y).declarations className =
      (s.declarations className).map (Declaration.rename x y) := by
  have hr : (receiver className s.kind).map (Declaration.rename x y) =
      receiver className s.kind := by
    cases s.kind with
    | method => simp [receiver, Declaration.rename, renameTo, hx.symm]
    | _ => rfl
  unfold Subroutine.declarations
  rw [List.map_append, List.map_append, hr, List.map_map, List.map_flatMap]
  simp only [Subroutine.rename, List.map_map, List.flatMap_map, Declarators.declarations_rename]
  rfl

theorem Subroutine.names_declarations (className : String) (s : Subroutine) :
    (s.declarations className).map Declaration.name =
      (receiver className s.kind).map Declaration.name ++ s.ownNames := by
  simp [Subroutine.declarations, Subroutine.ownNames, List.map_flatMap, Declarators.declarations,
    Function.comp_def, Parameter.declaration]

end

-- ---------------------------------------------------------------------------
-- Scopes
-- ---------------------------------------------------------------------------

/-- What a new name has to meet: the subroutine declares `x`, and `y` is no name
of it so far. No subroutine can declare `this`. -/
structure Subroutine.Renameable (x y : String) (s : Subroutine) : Prop where
  declared : x ∈ s.ownNames
  notThis : x ≠ Keyword.thisWord.spelling
  keepsThis : y ≠ Keyword.thisWord.spelling
  fresh : .identifier y ∉ s.tokens

section
variable {x y : String} {c c' : JackClass} {s : Subroutine}

theorem Subroutine.Renameable.not_mem_names (h : s.Renameable x y) (className : String) :
    y ∉ (s.declarations className).map Declaration.name := by
  rw [Subroutine.names_declarations, List.mem_append]
  rintro (hr | ho)
  · cases hk : s.kind with
    | method =>
      rw [hk] at hr
      exact h.keepsThis (List.mem_singleton.mp hr)
    | _ => rw [hk] at hr; nomatch hr
  · exact h.fresh (Subroutine.mem_tokens ho)

theorem Subroutine.Renameable.isSome_latest? (h : s.Renameable x y) (className : String) :
    (latest? (s.declarations className) x).isSome := by
  rw [Syntax.isSome_latest?, Subroutine.names_declarations]
  exact List.mem_append_right _ h.declared

theorem JackClass.declarations_congr (hv : c'.vars = c.vars) :
    c'.declarations = c.declarations := by
  rw [JackClass.declarations, hv]
  rfl

theorem Subroutine.Renameable.scopes (h : s.Renameable x y) (options : Options)
    (hn : c'.name = c.name) (hv : c'.vars = c.vars) :
    Scope.Renames x y (c.scope options s) (c'.scope options (s.rename x y)) where
  className := hn
  returnsVoid := rfl
  label := rfl
  declares := by
    show (Option.or _ _).isSome
    rw [Option.isSome_or, h.isSome_latest?, Bool.true_or]
  find z hz := by
    have hd := JackClass.declarations_congr hv
    show (Option.or _ _).map _ = (Option.or _ _).map _
    rw [Option.map_or, Option.map_or, hn, hd, Subroutine.declarations_rename h.notThis,
      latest?_rename (h.not_mem_names c.name) hz]
    by_cases hzx : z = x
    · -- The name is declared here, so nothing is looked up in the class.
      subst hzx
      obtain ⟨v, hv⟩ := Option.isSome_iff_exists.mp (h.isSome_latest? c.name)
      rw [hv]
      rfl
    · rw [renameTo, if_neg hzx]

theorem Subroutine.Renameable.not_mem_body (h : s.Renameable x y) :
    .identifier y ∉ Statements.tokens s.body := by
  intro hm
  apply h.fresh
  simp [Subroutine.tokens, bodyTokens, hm]

theorem Subroutine.code_rename (h : s.Renameable x y) (options : Options) (n : Nat)
    (hn : c'.name = c.name) (hv : c'.vars = c.vars) :
    (s.rename x y).code c' options n = s.code c options n := by
  unfold Subroutine.code
  rw [hn, Subroutine.declarations_rename h.notThis, countKind_rename,
    JackClass.declarations_congr hv]
  have hb := Statements.code_rename (h.scopes options hn hv) s.body n h.not_mem_body
  exact congrArg (_ :: prologueCode _ _ ++ ·) hb

theorem JackClass.declares_scope (options : Options) :
    (c.scope options s).Declares = c.Declares s :=
  funext fun _ => propext JackClass.isSome_find?

theorem Subroutine.valid_rename (h : s.Renameable x y) (hn : c'.name = c.name)
    (hv : c'.vars = c.vars) (hs : s.Valid c) : (s.rename x y).Valid c' where
  fits kind := by
    rw [hn, Subroutine.declarations_rename h.notThis, countKind_rename]
    exact hs.fits kind
  body := by
    have hb := hs.body
    rw [← JackClass.declares_scope {}] at hb ⊢
    exact Statements.valid_rename (h.scopes {} hn hv) s.body h.not_mem_body hb

end

-- ---------------------------------------------------------------------------
-- Classes
-- ---------------------------------------------------------------------------

section
variable {x y : String} {c c' : JackClass} {s : Subroutine} (hn : c'.name = c.name)
  (hv : c'.vars = c.vars)
include hn hv

/-- A subroutine knows the name and the variables of its class and nothing else. -/
theorem Subroutine.code_congr (t : Subroutine) (options : Options) (n : Nat) :
    t.code c' options n = t.code c options n := by
  obtain ⟨name, vars, subs⟩ := c
  obtain ⟨name', vars', subs'⟩ := c'
  cases hn
  cases hv
  rfl

theorem Subroutine.valid_congr {t : Subroutine} (ht : t.Valid c) : t.Valid c' := by
  obtain ⟨name, vars, subs⟩ := c
  obtain ⟨name', vars', subs'⟩ := c'
  cases hn
  cases hv
  exact ⟨ht.fits, ht.body⟩

theorem Subroutines.code_congr (options : Options) (used : Nat) (subs : List Subroutine) :
    Subroutines.code c' options used subs = Subroutines.code c options used subs := by
  induction subs generalizing used with
  | nil => rfl
  | cons first others ih =>
    rw [Subroutines.code, Subroutines.code, first.code_congr hn hv, ih]

theorem Subroutines.code_rename (h : s.Renameable x y) (options : Options) (used : Nat)
    (before after : List Subroutine) :
    Subroutines.code c' options used (before ++ s.rename x y :: after) =
      Subroutines.code c options used (before ++ s :: after) := by
  induction before generalizing used with
  | nil =>
    have hl : Statements.labels (s.rename x y).body = Statements.labels s.body :=
      Statements.labels_rename s.body
    rw [List.nil_append, List.nil_append, Subroutines.code, Subroutines.code,
      Subroutine.code_rename h options _ hn hv, hl, Subroutines.code_congr hn hv]
  | cons first others ih =>
    rw [List.cons_append, List.cons_append, Subroutines.code, Subroutines.code,
      first.code_congr hn hv, ih]

variable {before after : List Subroutine} (hc : c.subroutines = before ++ s :: after)
  (hc' : c'.subroutines = before ++ s.rename x y :: after)
include hc hc'

/-- Renaming a variable of one subroutine changes no code. -/
theorem JackClass.code_rename (h : s.Renameable x y) (options : Options) :
    c'.code options = c.code options := by
  rw [JackClass.code, JackClass.code, hc, hc']
  exact Subroutines.code_rename hn hv h options 0 before after

theorem JackClass.valid_rename (h : s.Renameable x y) (hvalid : c.Valid) : c'.Valid where
  fits := by
    rw [JackClass.declarations_congr hv]
    exact hvalid.fits
  subroutines t ht := by
    have hall := hvalid.subroutines
    rw [hc, List.forall_mem_append, List.forall_mem_cons] at hall
    obtain ⟨hbefore, hs, hafter⟩ := hall
    rw [hc', List.mem_append, List.mem_cons] at ht
    rcases ht with ht | rfl | ht
    · exact Subroutine.valid_congr hn hv (hbefore t ht)
    · exact Subroutine.valid_rename h hn hv hs
    · exact Subroutine.valid_congr hn hv (hafter t ht)

end

end JackVM.Syntax
