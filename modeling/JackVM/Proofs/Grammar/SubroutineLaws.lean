import JackVM.Proofs.Grammar.DeclarationLaws
import JackVM.Proofs.Syntax.Code
import JackVM.Proofs.Syntax.Validity

/-!
# From one subroutine to the next

A subroutine starts with no variables of its own and, as the options say, with
fresh labels. What it leaves is told by its tree and the class around it, so
the states before two subroutines differ in nothing else.
-/

namespace JackVM

open Syntax
open Compile (SubroutineKind)

namespace CompileState

variable {s : CompileState Listing} {t t' : TokenStream} {new : List Declaration}

def bodyCode (s : CompileState Listing) (kind : SubroutineKind) (name : String)
    (body : List Statement) : List Instruction :=
  .function (s.context.className ++ "." ++ name) (s.context.declarations.count .var) ::
    prologueCode (s.context.declarations.count .field) kind ++
    Statements.code s.scope s.context.nextLabel body

def afterBody (s : CompileState Listing) (kind : SubroutineKind) (name : String)
    (body : List Statement) : CompileState Listing :=
  s.after s.tokens (s.bodyCode kind name body) (Statements.labels body)

/-- The state when a subroutine has been entered and declares nothing yet. -/
def entered (s : CompileState Listing) (returnsVoid : Bool) : CompileState Listing :=
  { s with
    context :=
      { s.context with
        returnsVoid
        declarations := s.context.declarations.enterSubroutine
        nextLabel := firstLabel s.context.options s.context.nextLabel } }

@[simp] theorem entered_tokens {v : Bool} : (s.entered v).tokens = s.tokens := rfl

@[simp] theorem entered_className {v : Bool} :
    (s.entered v).context.className = s.context.className := rfl

@[simp] theorem entered_returnsVoid {v : Bool} : (s.entered v).context.returnsVoid = v := rfl

@[simp] theorem entered_declarations {v : Bool} :
    (s.entered v).context.declarations = s.context.declarations.enterSubroutine := rfl

/-- What is read before does not show once a token after it is read. -/
@[simp] theorem after_entered_declared {v : Bool} :
    ((s.after t [] 0).entered v).declared t' new = (s.entered v).declared t' new := by
  simp [entered, declared, after]

def inSubroutine (s : CompileState Listing) (sub : Subroutine) (tokens : TokenStream) :
    CompileState Listing :=
  (s.entered sub.returnsVoid).declared tokens (sub.declarations s.context.className)

def afterSubroutine (s : CompileState Listing) (sub : Subroutine) (tokens : TokenStream) :
    CompileState Listing :=
  (s.inSubroutine sub tokens).afterBody sub.kind sub.name sub.body

structure Within (c : JackClass) (s : CompileState Listing) : Prop where
  className : s.context.className = c.name
  records : ∃ ss, s.context.declarations.Records c.declarations ss

def ReadsSubroutine (sub : Subroutine) (s s' : CompileState Listing) : Prop :=
  ∃ t, s.tokens.Reads sub.tokens t ∧
    s.context.declarations.enterSubroutine.HasRoom (sub.declarations s.context.className) ∧
    Statements.Valid (s.inSubroutine sub t).Declares sub.returnsVoid sub.body ∧
    s' = s.afterSubroutine sub t

def ReadsSubroutines : List Subroutine → CompileState Listing → CompileState Listing → Prop
  | [], s, s' => s' = s
  | first :: others, s, s' => ∃ m, ReadsSubroutine first s m ∧ ReadsSubroutines others m s'

end CompileState

namespace Syntax

theorem Subroutine.ofSubroutine (className : String) (sub : Subroutine) :
    Declarations.OfSubroutine (sub.declarations className) := by
  intro d hd
  simp only [Subroutine.declarations, List.mem_append, List.mem_map, List.mem_flatMap] at hd
  rcases hd with (hr | ⟨p, -, rfl⟩) | ⟨ds, -, hd⟩
  · obtain ⟨kind, _⟩ := sub
    cases kind <;> simp_all [receiver]
  · exact .inl rfl
  · obtain ⟨name, -, rfl⟩ := List.mem_map.mp hd
    exact .inr rfl

theorem JackClass.ofClass (c : JackClass) : Declarations.OfClass c.declarations := by
  intro d hd
  obtain ⟨⟨storage, ds⟩, -, hd⟩ := List.mem_flatMap.mp hd
  obtain ⟨name, -, rfl⟩ := List.mem_map.mp hd
  cases storage
  · exact .inl rfl
  · exact .inr rfl

end Syntax

namespace CompileState.Within

variable {c : JackClass} {s : CompileState Listing} {sub : Subroutine} {t : TokenStream}

theorem records_inSubroutine (h : s.Within c) (sub : Subroutine) (t : TokenStream) :
    (s.inSubroutine sub t).context.declarations.Records c.declarations
      (sub.declarations c.name) := by
  obtain ⟨hc, ss, hr⟩ := h
  exact hc ▸ hr.enterSubroutine.addAll_subroutine (sub.ofSubroutine _)

theorem hasRoom_iff (h : s.Within c) :
    s.context.declarations.enterSubroutine.HasRoom (sub.declarations s.context.className) ↔
      Fits (sub.declarations c.name) := by
  obtain ⟨hc, ss, hr⟩ := h
  rw [hr.enterSubroutine.hasRoom_subroutine (sub.ofSubroutine _) fits_nil,
    List.nil_append, hc]

theorem scope_inSubroutine (h : s.Within c) :
    (s.inSubroutine sub t).scope = c.scope s.context.options sub := by
  have hf : (s.inSubroutine sub t).context.declarations.find? = c.find? sub :=
    funext (h.records_inSubroutine sub t).find?_eq
  simp only [scope, hf, JackClass.scope, ← h.className]
  rfl

theorem declares_inSubroutine (h : s.Within c) :
    (s.inSubroutine sub t).Declares = c.Declares sub := by
  funext name
  rw [Declares, (h.records_inSubroutine sub t).find?_eq]
  exact propext JackClass.isSome_find?

theorem bodyCode_inSubroutine (h : s.Within c) :
    (s.inSubroutine sub t).bodyCode sub.kind sub.name sub.body =
      sub.code c s.context.options (firstLabel s.context.options s.context.nextLabel) := by
  have hr := h.records_inSubroutine sub t
  have hv : (s.inSubroutine sub t).context.declarations.count .var =
    countKind .var (sub.declarations c.name) := hr.count_eq .var
  have hf : (s.inSubroutine sub t).context.declarations.count .field =
    countKind .field c.declarations := hr.count_eq .field
  rw [bodyCode, h.scope_inSubroutine, hv, hf, Subroutine.code, ← h.className]
  rfl

theorem afterSubroutine (h : s.Within c) : (s.afterSubroutine sub t).Within c :=
  ⟨h.className, _, h.records_inSubroutine sub t⟩

end CompileState.Within

namespace CompileState

variable {c : JackClass} {s s' : CompileState Listing} {subs : List Subroutine}

theorem ReadsSubroutines.reads (h : ReadsSubroutines subs s s') (hw : s.Within c) :
    s.tokens.Reads (subs.flatMap Subroutine.tokens) s'.tokens ∧ (∀ sub ∈ subs, sub.Valid c) ∧
    s'.out = s.out ++
      (Subroutines.code c s.context.options s.context.nextLabel subs).toArray := by
  induction subs generalizing s with
  | nil =>
    obtain rfl := h
    exact ⟨rfl, by simp, by simp [Subroutines.code]⟩
  | cons sub subs ih =>
    obtain ⟨_, ⟨t, hr, hroom, hv, rfl⟩, hs⟩ := h
    obtain ⟨hrs, hvs, hout⟩ := ih hs hw.afterSubroutine
    refine ⟨hr.trans hrs, ?_, ?_⟩
    · intro x hx
      rcases List.mem_cons.mp hx with rfl | hx
      · exact ⟨hw.hasRoom_iff.mp hroom, hw.declares_inSubroutine ▸ hv⟩
      · exact hvs x hx
    · rw [hout]
      simp [afterSubroutine, afterBody, hw.bodyCode_inSubroutine, Subroutines.code]
      rfl

theorem Within.readsSubroutines {t : TokenStream} (hw : s.Within c)
    (hr : s.tokens.Reads (subs.flatMap Subroutine.tokens) t) (hv : ∀ sub ∈ subs, sub.Valid c) :
    ∃ s', s'.tokens = t ∧ ReadsSubroutines subs s s' := by
  induction subs generalizing s with
  | nil => exact ⟨s, hr.symm, rfl⟩
  | cons sub subs ih =>
    obtain ⟨m, hr, hrs⟩ := TokenStream.reads_append.mp hr
    obtain ⟨hfits, hbody⟩ := hv sub List.mem_cons_self
    obtain ⟨s', ht, hs⟩ := ih (s := s.afterSubroutine sub m) hw.afterSubroutine hrs
      fun x hx => hv x (List.mem_cons_of_mem _ hx)
    refine ⟨s', ht, _, ⟨m, hr, hw.hasRoom_iff.mpr hfits, ?_, rfl⟩, hs⟩
    rw [hw.declares_inSubroutine]
    exact hbody

end CompileState

namespace Compile

variable {s : CompileState Listing}

theorem modifyContext_run {f : Context → Context} :
    modifyContext f s = .ok () { s with context := f s.context } := rfl

theorem ofKeyword?_kindWord (kind : SubroutineKind) :
    SubroutineKind.ofKeyword? (kindWord kind) = some kind := by
  cases kind <;> rfl

theorem kindWord_of_ofKeyword? {word : Keyword} {kind : SubroutineKind}
    (h : SubroutineKind.ofKeyword? word = some kind) : word = kindWord kind := by
  cases word <;> cases h <;> rfl

theorem enterSubroutine_run (returnsVoid : Bool) :
    enterSubroutine returnsVoid s = .ok () (s.entered returnsVoid) := modifyContext_run

end Compile

end JackVM
