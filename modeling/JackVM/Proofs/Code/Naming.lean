import JackVM.Proofs.Code.Blocks
import JackVM.Proofs.Code.Decoding
import JackVM.Proofs.Layout.Regions

/-!
# Names in the code

A subroutine is named by a class and by what the class calls it. Both come from
the tokens of the source, the class also as the type of a variable, so each is an
identifier; a label is the prefix and a number. With a prefix that holds no white
space, every name in the code is a word, and the code can be read back from its text.
-/

namespace JackVM

open Compile (SubroutineKind)

def Qualified (name : String) : Prop :=
  ∃ owner member : String, Lexeme.isName owner.toList ∧ Lexeme.isName member.toList ∧
    name = owner ++ "." ++ member

def Instruction.NamedBy (label : Nat → String) : Instruction → Prop
  | .label name | .goto name | .ifGoto name => ∃ n, name = label n
  | .call name _ | .function name _ => Qualified name
  | _ => True

/-- What tokens of a source are: identifiers are names, and integers are in range. -/
def TokenKind.Proper : TokenKind → Prop
  | .identifier name => Lexeme.isName name.toList
  | .integer value => value ≤ maxInteger
  | _ => True

theorem Qualified.isWord {name : String} (h : Qualified name) : IsWord name := by
  obtain ⟨owner, member, ho, hm, rfl⟩ := h
  refine ⟨fun he => ?_, fun c hc => ?_⟩
  · have hdot : '.' ∈ (owner ++ "." ++ member).toList := by simp
    simp [he] at hdot
  · simp only [String.toList_append, List.mem_append] at hc
    rcases hc with (hc | hc) | hc
    · exact not_isBlank_of_isNamePart (isNamePart_of_isName ho c hc)
    · obtain rfl : c = '.' := by simpa using hc
      decide
    · exact not_isBlank_of_isNamePart (isNamePart_of_isName hm c hc)

theorem Options.isWord_label {options : Options}
    (h : ∀ c ∈ options.labelPrefix.toList, Text.isBlank c = false) (n : Nat) :
    IsWord (options.label n) := by
  obtain ⟨hne, hn⟩ := isWord_toString n
  refine ⟨fun he => hne (String.append_eq_empty_iff.mp he).2, fun c hc => ?_⟩
  rcases List.mem_append.mp (String.toList_append ▸ hc) with hc | hc
  · exact h c hc
  · exact hn c hc

theorem Instruction.NamedBy.wordNamed {label : Nat → String} (hl : ∀ n, IsWord (label n))
    {i : Instruction} (h : i.NamedBy label) : i.WordNamed := by
  intro name hn
  cases i with
  | label | goto | ifGoto =>
    obtain rfl := Option.some_inj.mp hn
    obtain ⟨n, rfl⟩ := h
    exact hl n
  | call | function =>
    obtain rfl := Option.some_inj.mp hn
    exact Qualified.isWord h
  | _ => nomatch hn

namespace Syntax

-- ---------------------------------------------------------------------------
-- Expressions
-- ---------------------------------------------------------------------------

/-- What stands for a class is a name. -/
structure Scope.Named (scope : Scope) : Prop where
  className : Lexeme.isName scope.className.toList
  type : ∀ name, ∀ v ∈ scope.find? name, Lexeme.isName v.type.toList

section
variable {scope : Scope} {label : Nat → String}

theorem Callee.qualified_label (h : scope.Named) {callee : Callee}
    (hc : ∀ kind ∈ callee.tokens, kind.Proper) : Qualified (callee.label scope) := by
  cases callee with
  | own subroutine =>
    have hs : (TokenKind.identifier subroutine).Proper := hc _ (List.mem_singleton_self _)
    exact ⟨_, _, h.className, hs, rfl⟩
  | member owner subroutine =>
    simp only [Callee.tokens, List.forall_mem_cons] at hc
    obtain ⟨ho, -, hs, -⟩ := hc
    refine ⟨_, _, ?_, hs, rfl⟩
    cases hf : scope.find? owner with
    | none => exact ho
    | some v => exact h.type owner v hf

theorem Scope.namedBy_push (name : String) : ∀ i ∈ scope.push name, i.NamedBy label := by
  intro i hi
  obtain ⟨v, -, rfl⟩ := List.mem_map.mp hi
  trivial

theorem Scope.namedBy_pop (name : String) : ∀ i ∈ scope.pop name, i.NamedBy label := by
  intro i hi
  obtain ⟨v, -, rfl⟩ := List.mem_map.mp hi
  trivial

theorem namedBy_pointAt : ∀ i ∈ pointAt, i.NamedBy label := by
  simp [pointAt, Instruction.NamedBy]

theorem Constant.namedBy (word : Constant) : ∀ i ∈ word.code, i.NamedBy label := by
  cases word <;> simp [Constant.code, Instruction.NamedBy]

theorem namedBy_string (value : String) : ∀ i ∈ stringCode value, i.NamedBy label := by
  have hn : Qualified "String.new" := ⟨"String", "new", by decide, by decide, by decide⟩
  have ha : Qualified "String.appendChar" :=
    ⟨"String", "appendChar", by decide, by decide, by decide⟩
  simp only [stringCode, List.forall_mem_cons]
  refine ⟨trivial, hn, fun i hi => ?_⟩
  obtain ⟨c, -, hi⟩ := List.mem_flatMap.mp hi
  simp only [List.mem_cons, List.not_mem_nil, or_false] at hi
  rcases hi with rfl | rfl
  · trivial
  · exact ha

theorem namedBy_unary (op : UnaryOperator) : op.instruction.NamedBy label := by
  cases op <;> trivial

theorem namedBy_binary (op : BinaryOperator) : op.instruction.NamedBy label := by
  cases op with
  | mul => exact ⟨"Math", "multiply", by decide, by decide, by decide⟩
  | div => exact ⟨"Math", "divide", by decide, by decide, by decide⟩
  | _ => trivial

theorem Callee.namedBy_receiver (callee : Callee) :
    ∀ i ∈ callee.receiverCode scope, i.NamedBy label := by
  cases callee with
  | own subroutine => exact List.forall_mem_singleton.mpr trivial
  | member owner subroutine => exact scope.namedBy_push owner

theorem proper_inParens {kinds : List TokenKind} (h : ∀ kind ∈ inParens kinds, kind.Proper) :
    ∀ kind ∈ kinds, kind.Proper := fun kind hk => h kind (by simp [inParens, hk])

theorem proper_inBraces {kinds : List TokenKind} (h : ∀ kind ∈ inBraces kinds, kind.Proper) :
    ∀ kind ∈ kinds, kind.Proper := fun kind hk => h kind (by simp [inBraces, hk])

theorem Arguments.proper {args : List Expression}
    (h : ∀ kind ∈ Arguments.moreTokens args, kind.Proper) :
    ∀ kind ∈ Arguments.tokens args, kind.Proper := by
  cases args with
  | nil => exact h
  | cons first others => exact (List.forall_mem_cons.mp h).2

mutual
theorem Term.namedBy (h : scope.Named) : (e : Term) → (∀ kind ∈ e.tokens, kind.Proper) →
    ∀ i ∈ e.code scope, i.NamedBy label
  | .integer _, _ => List.forall_mem_singleton.mpr trivial
  | .string value, _ => namedBy_string value
  | .constant word, _ => word.namedBy
  | .variable name, _ => scope.namedBy_push name
  | .element array index, hk => by
    simp only [Term.tokens, List.forall_mem_cons, List.forall_mem_append] at hk
    simp only [Term.code, List.forall_mem_append, List.forall_mem_singleton]
    exact ⟨⟨⟨scope.namedBy_push array, index.namedBy h hk.2.2.1⟩, namedBy_pointAt⟩, trivial⟩
  | .group inner, hk => inner.namedBy h (proper_inParens hk)
  | .unary op operand, hk => by
    simp only [Term.code, List.forall_mem_append, List.forall_mem_singleton]
    exact ⟨operand.namedBy h (List.forall_mem_cons.mp hk).2, namedBy_unary op⟩
  | .call call, hk => call.namedBy h hk
theorem Operand.namedBy (h : scope.Named) : (o : Operand) → (∀ kind ∈ o.tokens, kind.Proper) →
    ∀ i ∈ o.code scope, i.NamedBy label
  | .term single, hk => single.namedBy h hk
  | .product left op right, hk => by
    simp only [Operand.tokens, List.forall_mem_append, List.forall_mem_cons] at hk
    simp only [Operand.code, List.forall_mem_append, List.forall_mem_singleton]
    exact ⟨⟨left.namedBy h hk.1, right.namedBy h hk.2.2⟩, namedBy_binary op.1⟩
theorem Expression.namedBy (h : scope.Named) : (e : Expression) →
    (∀ kind ∈ e.tokens, kind.Proper) → ∀ i ∈ e.code scope, i.NamedBy label
  | .operand single, hk => single.namedBy h hk
  | .sum left op right, hk => by
    simp only [Expression.tokens, List.forall_mem_append, List.forall_mem_cons] at hk
    simp only [Expression.code, List.forall_mem_append, List.forall_mem_singleton]
    exact ⟨⟨left.namedBy h hk.1, right.namedBy h hk.2.2⟩, namedBy_binary op.1⟩
theorem Call.namedBy (h : scope.Named) : (c : Call) → (∀ kind ∈ c.tokens, kind.Proper) →
    ∀ i ∈ c.code scope, i.NamedBy label
  | .mk callee args, hk => by
    simp only [Call.tokens, List.forall_mem_append] at hk
    simp only [Call.code, List.forall_mem_append, List.forall_mem_singleton]
    exact ⟨⟨callee.namedBy_receiver, Arguments.namedBy h args (proper_inParens hk.2)⟩,
      callee.qualified_label h hk.1⟩
theorem Arguments.namedBy (h : scope.Named) : (args : List Expression) →
    (∀ kind ∈ Arguments.tokens args, kind.Proper) →
    ∀ i ∈ Arguments.code scope args, i.NamedBy label
  | [], _ => nofun
  | first :: others, hk => by
    simp only [Arguments.tokens, List.forall_mem_append] at hk
    simp only [Arguments.code, List.forall_mem_append]
    exact ⟨first.namedBy h hk.1, Arguments.namedBy h others (Arguments.proper hk.2)⟩
end

end

-- ---------------------------------------------------------------------------
-- Statements
-- ---------------------------------------------------------------------------

section
variable {scope : Scope}

theorem Scope.framed_namedBy (scope : Scope) : scope.Framed (·.NamedBy scope.label) where
  operate _ := trivial
  label n := ⟨n, rfl⟩
  goto n := ⟨n, rfl⟩
  ifGoto n := ⟨n, rfl⟩
  zero := trivial
  ret := trivial

mutual
theorem Statement.namedBy (h : scope.Named) : (st : Statement) →
    (∀ kind ∈ st.tokens, kind.Proper) → (n : Nat) → ∀ i ∈ st.code scope n, i.NamedBy scope.label
  | .assign target value, hk, n => by
    simp only [Statement.tokens, List.forall_mem_cons, List.forall_mem_append] at hk
    simp only [Statement.code, List.forall_mem_append]
    exact ⟨value.namedBy h hk.2.2.2.1, scope.namedBy_pop target⟩
  | .assignElement array index value, hk, n => by
    simp only [Statement.tokens, List.forall_mem_cons, List.forall_mem_append] at hk
    obtain ⟨-, -, -, hi, -, -, hv, -⟩ := hk
    simp only [Statement.code, List.forall_mem_append, List.forall_mem_singleton]
    exact ⟨⟨⟨⟨scope.namedBy_push array, index.namedBy h hi⟩, namedBy_pointAt⟩,
      value.namedBy h hv⟩, trivial⟩
  | .ifThen condition body, hk, n => by
    simp only [Statement.tokens, List.forall_mem_cons, List.forall_mem_append] at hk
    obtain ⟨-, hc, hb⟩ := hk
    exact scope.framed_namedBy.branch (condition.namedBy h (proper_inParens hc))
      (Statements.namedBy h body (proper_inBraces hb) _) (List.forall_mem_nil _)
  | .ifElse condition body otherwise, hk, n => by
    simp only [Statement.tokens, List.forall_mem_cons, List.forall_mem_append] at hk
    obtain ⟨-, hc, hb, -, ho⟩ := hk
    exact scope.framed_namedBy.branch (condition.namedBy h (proper_inParens hc))
      (Statements.namedBy h body (proper_inBraces hb) _)
      (Statements.namedBy h otherwise (proper_inBraces ho) _)
  | .whileLoop condition body, hk, n => by
    simp only [Statement.tokens, List.forall_mem_cons, List.forall_mem_append] at hk
    obtain ⟨-, hc, hb⟩ := hk
    exact scope.framed_namedBy.loop (condition.namedBy h (proper_inParens hc))
      (Statements.namedBy h body (proper_inBraces hb) _)
  | .run call, hk, n => by
    simp only [Statement.tokens, List.forall_mem_cons, List.forall_mem_append] at hk
    simp only [Statement.code, List.forall_mem_append, List.forall_mem_singleton]
    exact ⟨call.namedBy h hk.2.1, trivial⟩
  | .leave none, _, _ => scope.framed_namedBy.leave (List.forall_mem_nil _)
  | .leave (some value), hk, n => by
    simp only [Statement.tokens, List.forall_mem_cons, List.forall_mem_append] at hk
    exact scope.framed_namedBy.leave (value.namedBy h hk.2.1)
theorem Statements.namedBy (h : scope.Named) : (body : List Statement) →
    (∀ kind ∈ Statements.tokens body, kind.Proper) → (n : Nat) →
    ∀ i ∈ Statements.code scope n body, i.NamedBy scope.label
  | [], _, _ => nofun
  | first :: others, hk, n => by
    simp only [Statements.tokens, List.forall_mem_append] at hk
    simp only [Statements.code, List.forall_mem_append]
    exact ⟨first.namedBy h hk.1 n, Statements.namedBy h others hk.2 _⟩
end

end

-- ---------------------------------------------------------------------------
-- Declarations
-- ---------------------------------------------------------------------------

theorem TypeName.isName_text {type : TypeName} (h : type.token.Proper) :
    Lexeme.isName type.text.toList := by
  cases type with
  | named name => exact h
  | _ => decide

theorem exists_declaration {ds : List Declaration} {v : Variable} (h : v ∈ slots ds) :
    ∃ d ∈ ds, d.type = v.type := by
  induction ds with
  | nil => nomatch h
  | cons d earlier ih =>
    rcases List.mem_cons.mp h with rfl | h
    · exact ⟨d, List.mem_cons_self, rfl⟩
    · obtain ⟨e, he, ht⟩ := ih h
      exact ⟨e, List.mem_cons_of_mem _ he, ht⟩

theorem isName_latest? {ds : List Declaration} (h : ∀ d ∈ ds, Lexeme.isName d.type.toList)
    (name : String) : ∀ v ∈ latest? ds name, Lexeme.isName v.type.toList := by
  intro v hv
  obtain ⟨d, hd, ht⟩ := exists_declaration (List.mem_of_find?_eq_some hv)
  rw [← ht]
  exact h d (List.mem_reverse.mp hd)

theorem Declarators.isName_type {d : Declarators} (h : ∀ kind ∈ d.tokens, kind.Proper)
    (kind : VariableKind) : ∀ x ∈ d.declarations kind, Lexeme.isName x.type.toList := by
  intro x hx
  obtain ⟨name, -, rfl⟩ := List.mem_map.mp hx
  exact TypeName.isName_text (h _ List.mem_cons_self)

theorem Parameters.proper {ps : List Parameter} (h : ∀ kind ∈ Parameters.tokens ps, kind.Proper) :
    ∀ p ∈ ps, ∀ kind ∈ p.tokens, kind.Proper := by
  intro p hp kind hk
  cases ps with
  | nil => nomatch hp
  | cons first others =>
    rcases List.mem_cons.mp hp with rfl | ho
    · exact h kind (List.mem_append_left _ hk)
    · exact h kind (List.mem_append_right _
        (List.mem_flatMap.mpr ⟨p, ho, List.mem_cons_of_mem _ hk⟩))

theorem Subroutine.isName_type {className : String} (hc : Lexeme.isName className.toList)
    {s : Subroutine} (h : ∀ kind ∈ s.tokens, kind.Proper) :
    ∀ d ∈ s.declarations className, Lexeme.isName d.type.toList := by
  simp only [Subroutine.tokens, bodyTokens, List.forall_mem_cons, List.forall_mem_append] at h
  obtain ⟨-, -, -, hp, hb⟩ := h
  have hl := fun kind hk => proper_inBraces hb kind (List.mem_append_left _ hk)
  intro d hd
  simp only [Subroutine.declarations, List.mem_append, List.mem_map, List.mem_flatMap] at hd
  rcases hd with (hd | ⟨p, hm, rfl⟩) | ⟨ds, hds, hd⟩
  · cases hkind : s.kind with
    | method =>
      rw [hkind] at hd
      obtain rfl := List.mem_singleton.mp hd
      exact hc
    | _ =>
      rw [hkind] at hd
      cases hd
  · exact TypeName.isName_text (Parameters.proper (proper_inParens hp) p hm _ List.mem_cons_self)
  · refine Declarators.isName_type (fun kind hk => hl kind ?_) .var d hd
    exact List.mem_flatMap.mpr ⟨ds, hds, List.mem_cons_of_mem _ hk⟩

-- ---------------------------------------------------------------------------
-- Classes
-- ---------------------------------------------------------------------------

section
variable {c : JackClass} {options : Options}

theorem JackClass.proper_parts (h : ∀ kind ∈ c.tokens, kind.Proper) :
    Lexeme.isName c.name.toList ∧ (∀ d ∈ c.declarations, Lexeme.isName d.type.toList) ∧
      ∀ s ∈ c.subroutines, ∀ kind ∈ s.tokens, kind.Proper := by
  simp only [JackClass.tokens, List.forall_mem_cons] at h
  obtain ⟨-, hc, hm⟩ := h
  have hm := List.forall_mem_append.mp (proper_inBraces hm)
  refine ⟨hc, fun d hd => ?_, fun s hs kind hk => hm.2 kind (List.mem_flatMap.mpr ⟨s, hs, hk⟩)⟩
  obtain ⟨v, hv, hd⟩ := List.mem_flatMap.mp hd
  refine Declarators.isName_type (fun kind hk => hm.1 kind ?_) _ d hd
  exact List.mem_flatMap.mpr ⟨v, hv, List.mem_cons_of_mem _ hk⟩

theorem JackClass.named_scope (h : ∀ kind ∈ c.tokens, kind.Proper) {s : Subroutine}
    (hs : s ∈ c.subroutines) : (c.scope options s).Named := by
  obtain ⟨hc, hd, hsub⟩ := JackClass.proper_parts h
  refine ⟨hc, fun name v hv => ?_⟩
  rcases Option.or_eq_some_iff.mp hv with hv | ⟨-, hv⟩
  · exact isName_latest? (Subroutine.isName_type hc (hsub s hs)) name v hv
  · exact isName_latest? hd name v hv

theorem namedBy_prologue (label : Nat → String) (fields : Nat) (kind : SubroutineKind) :
    ∀ i ∈ prologueCode fields kind, i.NamedBy label := by
  have ha : Qualified "Memory.alloc" := ⟨"Memory", "alloc", by decide, by decide, by decide⟩
  cases kind with
  | constructor => simp [prologueCode, Instruction.NamedBy, ha]
  | _ => simp [prologueCode, Instruction.NamedBy]

theorem Subroutine.namedBy_code (h : ∀ kind ∈ c.tokens, kind.Proper) {s : Subroutine}
    (hs : s ∈ c.subroutines) (n : Nat) : ∀ i ∈ s.code c options n, i.NamedBy options.label := by
  obtain ⟨hc, -, hsub⟩ := JackClass.proper_parts h
  have ht := hsub s hs
  simp only [Subroutine.tokens, bodyTokens, List.forall_mem_cons, List.forall_mem_append] at ht
  obtain ⟨-, -, hname, -, hb⟩ := ht
  have hbody := fun kind hk => proper_inBraces hb kind (List.mem_append_right _ hk)
  refine List.forall_mem_append.mpr ⟨List.forall_mem_cons.mpr ⟨?_, namedBy_prologue _ _ _⟩, ?_⟩
  · exact ⟨c.name, s.name, hc, hname, rfl⟩
  · exact Statements.namedBy (JackClass.named_scope h hs) s.body hbody n

theorem Subroutines.namedBy_code (h : ∀ kind ∈ c.tokens, kind.Proper) {subs : List Subroutine}
    (hs : subs ⊆ c.subroutines) (used : Nat) :
    ∀ i ∈ Subroutines.code c options used subs, i.NamedBy options.label := by
  induction subs generalizing used with
  | nil => nofun
  | cons first others ih =>
    obtain ⟨hf, ho⟩ := List.cons_subset.mp hs
    exact List.forall_mem_append.mpr ⟨Subroutine.namedBy_code h hf _, ih ho _⟩

end

end Syntax

open Syntax

variable {options : Options} {source : String} {code : List Instruction}

theorem Spells.proper {c : JackClass} (h : Spells source c) : ∀ kind ∈ c.tokens, kind.Proper := by
  obtain ⟨text, tokens, -, hl, hk⟩ := h
  intro kind hm
  rw [← hk] at hm
  obtain ⟨t, ht, rfl⟩ := List.mem_map.mp hm
  have hmem : Lexeme.token t ∈ Lexeme.allFrom 0 text [] := by
    rw [show Lexeme.allFrom 0 text [] = _ from hl]
    exact List.mem_map_of_mem ht
  obtain ⟨before, word, rest, -, hw, -⟩ := (lexed_allFrom 0 text).exists_place hmem
  obtain ⟨kind, span⟩ := t
  have hwritten : Written kind word := hw.spelled.1
  cases hwritten with
  | word hword =>
    cases hword with
    | identifier hname => exact hname
    | integer _ hvalue => exact hvalue
    | keyword _ => trivial
  | _ => trivial

theorem compile_namedBy (h : compile options source = .ok code) :
    ∀ i ∈ code, i.NamedBy options.label := by
  obtain ⟨c, hs, -, rfl⟩ := compile_ok h
  exact Subroutines.namedBy_code hs.proper (List.Subset.refl _) 0

/-- Code whose names are words can be read back from the text that a writer makes of
it, so no other such code has this text. All code of a compilation is of this kind
unless the prefix of labels holds white space, and its subroutines are qualified names. -/
theorem codeText_decodes (options : Options)
    (h : ∀ c ∈ options.labelPrefix.toList, Text.isBlank c = false) :
    (∀ code, (∀ i ∈ code, i.WordNamed) →
      (∃ w, code.forM CodeWriter.write {} = .ok () w ∧
        w.sink.bytes = (codeText code).toByteArray) ∧
      decode? (codeText code) = some code) ∧
    (∀ code code', (∀ i ∈ code, i.WordNamed) → (∀ i ∈ code', i.WordNamed) →
      codeText code = codeText code' → code = code') ∧
    ∀ source code, compile options source = .ok code →
      (∀ i ∈ code, i.WordNamed ∧ i.NamedBy options.label) ∧
      (compileInto ({} : CodeWriter) options source).2.sink.bytes = (codeText code).toByteArray ∧
      decode? (codeText code) = some code := by
  refine ⟨fun code hw => ⟨?_, decode?_codeText hw⟩, fun _ _ => codeText_injective,
    fun source code hc => ?_⟩
  · obtain ⟨w, hrun, hh⟩ := Holds.empty.forM code
    exact ⟨w, hrun, by simpa using hh.bytes⟩
  · have hnamed := compile_namedBy hc
    have hword : ∀ i ∈ code, i.WordNamed := fun i hi =>
      (hnamed i hi).wordNamed (options.isWord_label h)
    exact ⟨fun i hi => ⟨hword i hi, hnamed i hi⟩, bytes_of_compile hc, decode?_codeText hword⟩

/-- Names may look like mnemonics and numbers, and a class compiles with the prefix `L`. -/
theorem codeText_decodes_tally :
    (∀ c ∈ ({} : Options).labelPrefix.toList, Text.isBlank c = false) ∧
    decode? "label push\ncall 7 0\n" = some [.label "push", .call "7" 0] ∧
    decode? (codeText (tally.code {})) = some (tally.code {}) := by
  have hshown : ∀ c ∈ ({} : Options).labelPrefix.toList, Text.isBlank c = false :=
    List.forall_mem_singleton.mpr (by decide)
  obtain ⟨hread, -, hcompiled⟩ := codeText_decodes {} hshown
  have hwords : ∀ i ∈ [Instruction.label "push", .call "7" 0], i.WordNamed := by
    simp only [List.forall_mem_cons, Instruction.WordNamed, Instruction.name?, Option.mem_some_iff,
      forall_eq']
    exact ⟨by decide, by decide, List.forall_mem_nil _⟩
  exact ⟨hshown, (hread _ hwords).2, (hcompiled _ _ compile_tally).2.2⟩

end JackVM
