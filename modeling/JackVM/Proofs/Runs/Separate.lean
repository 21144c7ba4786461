import Mathlib.Data.List.Flatten
import Mathlib.Data.List.Forall2
import JackVM.Proofs.Grammar.Acceptance

/-!
# Compiling subroutines one at a time

A subroutine is compiled with a fresh scope and, when the options say so, with
labels numbered from 0. Its code is then the same as in a class that has no
other subroutine, and the code of a class is put together from such pieces.
-/

namespace JackVM

open Syntax

variable {options : Options} {source : String} {name : String} {vars : List ClassVariables}
  {subs subs' : List Subroutine} {sources : List String}

-- ---------------------------------------------------------------------------
-- Code
-- ---------------------------------------------------------------------------

def Syntax.Subroutine.ownCode (options : Options) (name : String) (vars : List ClassVariables)
    (s : Subroutine) : List Instruction := s.code ⟨name, vars, [s]⟩ options 0

theorem Syntax.Subroutines.code_reset (h : options.resetLabels = true) (used : Nat) :
    Subroutines.code ⟨name, vars, subs'⟩ options used subs =
      (subs.map (Subroutine.ownCode options name vars)).flatten := by
  induction subs generalizing used with
  | nil => rfl
  | cons first others ih =>
    have hf : firstLabel options used = 0 := by simp [firstLabel, h]
    rw [Subroutines.code, hf, ih, List.map_cons, List.flatten_cons]
    rfl

theorem Syntax.JackClass.code_reset (h : options.resetLabels = true) :
    (⟨name, vars, subs⟩ : JackClass).code options =
      (subs.map (Subroutine.ownCode options name vars)).flatten :=
  Subroutines.code_reset h 0

theorem codeText_flatten (codes : List (List Instruction)) :
    codeText codes.flatten = String.join (codes.map codeText) := by
  induction codes with
  | nil => rfl
  | cons first others ih =>
    rw [List.flatten_cons, codeText_eq, List.map_append, String.join_append, ← codeText_eq,
      ← codeText_eq, ih, List.map_cons, String.join_cons]

theorem compileText_ok {text : String} :
    compileText options source = .ok text ↔
      ∃ code, compile options source = .ok code ∧ codeText code = text := by
  unfold compileText
  cases compile options source <;> simp [Except.map]

-- ---------------------------------------------------------------------------
-- One class and many
-- ---------------------------------------------------------------------------

def alone (name : String) (vars : List ClassVariables) (s : Subroutine) : JackClass :=
  ⟨name, vars, [s]⟩

/-- The static conditions ask nothing of two subroutines together. -/
theorem valid_iff_alone (hne : subs ≠ []) :
    (⟨name, vars, subs⟩ : JackClass).Valid ↔ ∀ s ∈ subs, (alone name vars s).Valid := by
  constructor
  · intro h s hs
    obtain ⟨hf, hb⟩ := h.subroutines s hs
    exact ⟨h.fits, List.forall_mem_singleton.mpr ⟨hf, hb⟩⟩
  · intro h
    obtain ⟨first, hfirst⟩ := List.exists_mem_of_ne_nil subs hne
    refine ⟨(h first hfirst).fits, fun s hs => ?_⟩
    obtain ⟨hf, hb⟩ := (h s hs).subroutines s List.mem_cons_self
    exact ⟨hf, hb⟩

theorem compile_each (hr : options.resetLabels = true)
    (hss : List.Forall₂ (fun source s => Spells source (alone name vars s)) sources subs)
    {codes : List (List Instruction)} :
    List.Forall₂ (fun source code => compile options source = .ok code) sources codes ↔
      (∀ s ∈ subs, (alone name vars s).Valid) ∧
        subs.map (Subroutine.ownCode options name vars) = codes := by
  induction hss generalizing codes with
  | nil =>
    rw [List.forall₂_nil_left_iff]
    exact ⟨fun h => ⟨nofun, h.symm⟩, fun h => h.2.symm⟩
  | @cons source s sources subs hs _ ih =>
    have hcode : (alone name vars s).code options = s.ownCode options name vars := by
      rw [alone, JackClass.code_reset hr, List.map_singleton, List.flatten_singleton]
    rw [List.forall₂_cons_left_iff, List.forall_mem_cons, List.map_cons]
    constructor
    · rintro ⟨code, codes, h, hcodes, rfl⟩
      obtain ⟨hv, rfl⟩ := hs.compile_iff.mp h
      obtain ⟨hvs, rfl⟩ := ih.mp hcodes
      exact ⟨⟨hv, hvs⟩, by rw [hcode]⟩
    · rintro ⟨⟨hv, hvs⟩, rfl⟩
      exact ⟨_, _, hs.compile_iff.mpr ⟨hv, hcode⟩, ih.mpr ⟨hvs, rfl⟩, rfl⟩

/-- When every subroutine numbers its labels from 0, a class compiles if and only
if the classes with one of its subroutines each do, and its code is theirs, one
after another. -/
theorem compile_subroutines (hr : options.resetLabels = true) (hne : subs ≠ [])
    (hs : Spells source ⟨name, vars, subs⟩)
    (hss : List.Forall₂ (fun source s => Spells source (alone name vars s)) sources subs)
    {code : List Instruction} :
    compile options source = .ok code ↔
      ∃ codes, List.Forall₂ (fun source code => compile options source = .ok code) sources codes ∧
        codes.flatten = code := by
  simp only [compile_each hr hss]
  rw [hs.compile_iff, valid_iff_alone hne, JackClass.code_reset hr]
  constructor
  · rintro ⟨hv, rfl⟩
    exact ⟨_, ⟨hv, rfl⟩, rfl⟩
  · rintro ⟨_, ⟨hv, rfl⟩, rfl⟩
    exact ⟨hv, rfl⟩

theorem compileText_each {texts : List String} :
    List.Forall₂ (fun source text => compileText options source = .ok text) sources texts ↔
      ∃ codes, List.Forall₂ (fun source code => compile options source = .ok code) sources codes ∧
        codes.map codeText = texts := by
  induction sources generalizing texts with
  | nil =>
    constructor
    · intro h
      cases h
      exact ⟨[], .nil, rfl⟩
    · rintro ⟨codes, hc, rfl⟩
      cases hc
      exact .nil
  | cons source sources ih =>
    constructor
    · rintro (_ | ⟨h, ht⟩)
      obtain ⟨code, hc, rfl⟩ := compileText_ok.mp h
      obtain ⟨codes, hcs, rfl⟩ := ih.mp ht
      exact ⟨code :: codes, .cons hc hcs, rfl⟩
    · rintro ⟨_, _ | ⟨h, ht⟩, rfl⟩
      exact .cons (compileText_ok.mpr ⟨_, h, rfl⟩) (ih.mpr ⟨_, ht, rfl⟩)

/-- With labels numbered from 0 in every subroutine, a class compiles if and only
if the classes with one of its subroutines each do, and its text is theirs,
joined in order. -/
theorem compileText_subroutines (hr : options.resetLabels = true) (hne : subs ≠ [])
    (hs : Spells source ⟨name, vars, subs⟩)
    (hss : List.Forall₂ (fun source s => Spells source ⟨name, vars, [s]⟩) sources subs)
    (text : String) :
    compileText options source = .ok text ↔
      ∃ texts, List.Forall₂ (fun source text => compileText options source = .ok text)
          sources texts ∧ String.join texts = text := by
  simp only [compileText_each]
  rw [compileText_ok]
  simp only [compile_subroutines hr hne hs hss]
  constructor
  · rintro ⟨_, ⟨codes, hc, rfl⟩, rfl⟩
    exact ⟨_, ⟨codes, hc, rfl⟩, (codeText_flatten codes).symm⟩
  · rintro ⟨_, ⟨codes, hc, rfl⟩, rfl⟩
    exact ⟨_, ⟨codes, hc, rfl⟩, codeText_flatten codes⟩

-- A class with labels in both of its subroutines, and the two parts.

def pairSource : String :=
  "class Pair { static int n; function void set(int k) { if (k) { let n = k; } return; } function int get() { while (n) { } return n; } }"

def setSource : String :=
  "class Pair { static int n; function void set(int k) { if (k) { let n = k; } return; } }"

def getSource : String :=
  "class Pair { static int n; function int get() { while (n) { } return n; } }"

def pairSet : Subroutine where
  kind := .function
  returnType := none
  name := "set"
  parameters := [⟨.int, "k"⟩]
  locals := []
  body := [
    .ifThen (.operand (.term (.variable "k"))) [.assign "n" (.operand (.term (.variable "k")))],
    .leave none]

def pairGet : Subroutine where
  kind := .function
  returnType := some .int
  name := "get"
  parameters := []
  locals := []
  body := [
    .whileLoop (.operand (.term (.variable "n"))) [],
    .leave (some (.operand (.term (.variable "n"))))]

def pairVars : List ClassVariables := [⟨.static, .int, "n", []⟩]

theorem spells_plain {text : List Char} {c : JackClass} (hb : Comment.blankAll text = .ok text)
    (hl : Lexeme.all text = ((Lexeme.all text).filterMap token?).map .token)
    (hk : ((Lexeme.all text).filterMap token?).map Token.kind = c.tokens) :
    Spells (String.ofList text) c :=
  ⟨text, _, by rw [String.toList_ofList, hb], hl, hk⟩

set_option maxRecDepth 2000 in
theorem spells_pair : Spells pairSource ⟨"Pair", pairVars, [pairSet, pairGet]⟩ :=
  spells_plain rfl (by decide +kernel) (by decide +kernel)

set_option maxRecDepth 2000 in
theorem spells_set : Spells setSource ⟨"Pair", pairVars, [pairSet]⟩ :=
  spells_plain rfl (by decide +kernel) (by decide +kernel)

set_option maxRecDepth 2000 in
theorem spells_get : Spells getSource ⟨"Pair", pairVars, [pairGet]⟩ :=
  spells_plain rfl (by decide +kernel) (by decide +kernel)

theorem valid_set : (alone "Pair" pairVars pairSet).Valid where
  fits := by intro kind; cases kind <;> decide
  subroutines := by
    refine List.forall_mem_singleton.mpr ⟨by intro kind; cases kind <;> decide, ?_⟩
    have hk : (alone "Pair" pairVars pairSet).Declares pairSet "k" := .inl (by decide)
    have hn : (alone "Pair" pairVars pairSet).Declares pairSet "n" := .inr (by decide)
    exact ⟨⟨hk, ⟨hn, hk⟩, trivial⟩, rfl, trivial⟩

theorem valid_get : (alone "Pair" pairVars pairGet).Valid where
  fits := by intro kind; cases kind <;> decide
  subroutines := by
    refine List.forall_mem_singleton.mpr ⟨by intro kind; cases kind <;> decide, ?_⟩
    have hn : (alone "Pair" pairVars pairGet).Declares pairGet "n" := .inr (by decide)
    exact ⟨⟨hn, trivial⟩, hn, trivial⟩

theorem compileText_subroutines_pair :
    Spells pairSource ⟨"Pair", pairVars, [pairSet, pairGet]⟩ ∧
    Spells setSource ⟨"Pair", pairVars, [pairSet]⟩ ∧
    Spells getSource ⟨"Pair", pairVars, [pairGet]⟩ ∧
    ∃ set get, compileText { resetLabels := true } setSource = .ok set ∧
      compileText { resetLabels := true } getSource = .ok get ∧
      compileText { resetLabels := true } pairSource = .ok (String.join [set, get]) := by
  have hset := compileText_eq_code { resetLabels := true } spells_set valid_set
  have hget := compileText_eq_code { resetLabels := true } spells_get valid_get
  refine ⟨spells_pair, spells_set, spells_get, _, _, hset, hget, ?_⟩
  exact (compileText_subroutines rfl (List.cons_ne_nil _ _) spells_pair
    (.cons spells_set (.cons spells_get .nil)) _).mpr ⟨_, .cons hset (.cons hget .nil), rfl⟩

end JackVM
