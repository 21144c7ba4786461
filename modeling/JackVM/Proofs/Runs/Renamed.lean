import JackVM.Proofs.Layout.Replacing
import JackVM.Proofs.Layout.Strings
import JackVM.Proofs.Runs.Separate
import JackVM.Proofs.Syntax.RenamedClass

/-!
# Compiling after a variable is renamed

The names of parameters and locals leave no trace in the code: with another
name in their place, a class compiles to the same text.
-/

namespace JackVM

open Lexeme Syntax

variable {source : String} {tokens : List Token} {c c' : JackClass}

theorem Spells.of_lexemes (hl : lexemes source = .ok (tokens.map .token))
    (hk : tokens.map Token.kind = c.tokens) : Spells source c := by
  obtain ⟨text, hb, ha⟩ := lexemes_ok.mp hl
  exact ⟨text, tokens, hb, ha.symm, hk⟩

theorem not_keyword_of_mem (hl : lexemes source = .ok (tokens.map .token)) {name : String}
    (h : .identifier name ∈ tokens.map Token.kind) : Keyword.ofWord? name = none := by
  obtain ⟨t, ht, hkind⟩ := List.mem_map.mp h
  obtain ⟨-, word, -, -, hw, -⟩ := (lexemes_eq_ok_iff.mp hl).writtenAt ht
  rw [hkind] at hw
  cases hw with
  | word h =>
    cases h with
    | identifier _ hk => exact hk

theorem ne_this {name : String} (h : Keyword.ofWord? name = none) :
    name ≠ Keyword.thisWord.spelling := by
  rintro rfl
  rw [Keyword.ofWord?_spelling] at h
  cases h

theorem Syntax.JackClass.mem_tokens {s : Subroutine} {kind : TokenKind} (hs : s ∈ c.subroutines)
    (h : kind ∈ s.tokens) : kind ∈ c.tokens := by
  refine List.mem_cons_of_mem _ (List.mem_cons_of_mem _ (List.mem_cons_of_mem _ ?_))
  exact List.mem_append_left _ (List.mem_append_right _ (List.mem_flatMap.mpr ⟨s, hs, h⟩))

/-- With a new name in the place of one that a subroutine declares, wherever the
subroutine uses it for a variable, a class compiles to the same text. -/
theorem compileText_renamed (options : Options) {before after : List Subroutine} {s : Subroutine}
    {x y : String} (hl : lexemes source = .ok (tokens.map .token))
    (hk : tokens.map Token.kind = c.tokens) (hv : c.Valid)
    (hc : c.subroutines = before ++ s :: after) (hx : x ∈ s.ownNames) (hy : isName y.toList)
    (hword : Keyword.ofWord? y = none) (hfresh : .identifier y ∉ c.tokens)
    (hc' : c' = { c with subroutines := before ++ s.rename x y :: after }) :
    Spells (respelled source y tokens c'.tokens) c' ∧
      ∃ out, compileText options source = .ok out ∧
        ∀ source', Spells source' c' → compileText options source' = .ok out := by
  have hs : s ∈ c.subroutines := by simp [hc]
  have hxmem : .identifier x ∈ tokens.map Token.kind :=
    hk ▸ JackClass.mem_tokens hs (Subroutine.mem_tokens hx)
  have hrename : s.Renameable x y :=
    ⟨hx, ne_this (not_keyword_of_mem hl hxmem), ne_this hword,
      fun hm => hfresh (JackClass.mem_tokens hs hm)⟩
  have hn : c'.name = c.name := by rw [hc']
  have hvars : c'.vars = c.vars := by rw [hc']
  have hsubs : c'.subroutines = before ++ s.rename x y :: after := by rw [hc']
  have hv' : c'.Valid := JackClass.valid_rename hn hvars hc hsubs hrename hv
  refine ⟨?_, _, compileText_eq_code options (.of_lexemes hl hk) hv, fun source' hspells => ?_⟩
  · have hr : List.Forall₂ (Respelled x y) (tokens.map Token.kind) c'.tokens := by
      obtain ⟨name, vars, subs⟩ := c
      cases hc
      rw [hk, hc']
      exact JackClass.tokens_rename
    obtain ⟨tokens', hlaid, hkinds, -⟩ := (lexemes_eq_ok_iff.mp hl).replaced hy hword hr 0
    refine .of_lexemes (lexemes_eq_ok_iff.mpr ?_) hkinds
    rwa [respelled, String.toList_ofList]
  · rw [compileText_eq_code options hspells hv',
      JackClass.code_rename hn hvars hc hsubs hrename options]

-- A subroutine, its class, a field and a local variable of one name.

def nodeSource : String :=
  "class Node { field int Node; method Node Node(int k) { var Node Node; let Node = Node.Node(k); return Node; } }"

def nodeSourceRenamed : String :=
  "class Node { field int Node; method Node Node(int k) { var Node nn; let nn = nn.Node(k); return nn; } }"

def nodeStep : Subroutine where
  kind := .method
  returnType := some (.named "Node")
  name := "Node"
  parameters := [⟨.int, "k"⟩]
  locals := [⟨.named "Node", "Node", []⟩]
  body := [
    .assign "Node" (.operand (.term (.call
      (.mk (.member "Node" "Node") [.operand (.term (.variable "k"))])))),
    .leave (some (.operand (.term (.variable "Node"))))]

def nodeClass (step : Subroutine) : JackClass where
  name := "Node"
  vars := [⟨.field, .int, "Node", []⟩]
  subroutines := [step]

def nodeTokens : List Token := (Lexeme.all nodeSource.toList).filterMap token?

theorem lexemes_node : lexemes nodeSource = .ok (nodeTokens.map .token) := by
  have ha : Lexeme.all nodeSource.toList = nodeTokens.map .token := by
    unfold nodeTokens
    rw [nodeSource, String.toList_ofList]
    decide +kernel
  rw [← ha]
  exact lexemes_ok.mpr ⟨_, by rw [nodeSource, String.toList_ofList]; rfl, rfl⟩

theorem kinds_node : nodeTokens.map Token.kind = (nodeClass nodeStep).tokens := by
  unfold nodeTokens
  rw [nodeSource, String.toList_ofList]
  decide +kernel

theorem respelled_node :
    respelled nodeSource "nn" nodeTokens (nodeClass (nodeStep.rename "Node" "nn")).tokens =
      nodeSourceRenamed := by
  unfold respelled nodeTokens
  rw [nodeSource, nodeSourceRenamed, String.toList_ofList]
  congr 1
  decide +kernel

theorem valid_node : (nodeClass nodeStep).Valid where
  fits := by intro kind; cases kind <;> decide
  subroutines := by
    refine List.forall_mem_singleton.mpr ⟨by intro kind; cases kind <;> decide, ?_⟩
    have hnode : (nodeClass nodeStep).Declares nodeStep "Node" := .inl (by decide)
    have hk : (nodeClass nodeStep).Declares nodeStep "k" := .inl (by decide)
    have hcallee : (Callee.member "Node" "Node").Valid ((nodeClass nodeStep).Declares nodeStep) 1 :=
      ⟨by decide, fun _ => by decide⟩
    exact ⟨⟨hnode, hcallee, hk, trivial⟩, hnode, trivial⟩

theorem compileText_renamed_node :
    lexemes nodeSource = .ok (nodeTokens.map .token) ∧
      respelled nodeSource "nn" nodeTokens (nodeClass (nodeStep.rename "Node" "nn")).tokens =
        nodeSourceRenamed ∧
      ∃ out, compileText {} nodeSource = .ok out ∧ compileText {} nodeSourceRenamed = .ok out := by
  have hfresh : .identifier "nn" ∉ (nodeClass nodeStep).tokens := by decide
  obtain ⟨hspells, out, hout, hsame⟩ := compileText_renamed {} lexemes_node kinds_node valid_node
    (List.nil_append [nodeStep]).symm (by decide : "Node" ∈ nodeStep.ownNames)
    (by decide : isName "nn".toList) (by decide) hfresh rfl
  rw [← respelled_node]
  exact ⟨lexemes_node, rfl, out, hout, hsame _ hspells⟩

end JackVM
