import Mathlib.Data.List.Basic
import JackVM.Proofs.Syntax.Spelling

/-!
# One tree for a spelling

A tree can be told from its tokens even if more tokens follow, so long as none of
them could continue it. A chain of operators is told by its links, from the left.
-/

namespace JackVM.Syntax

variable {α β : Type} {t : TokenKind} {stops ends w w' : List TokenKind}

/-- Nothing else is spelled as this is and then goes on, unless with one of `stops`. -/
def Determined (spell : α → List TokenKind) (stops : List TokenKind) (a : α) : Prop :=
  ∀ a' w w', spell a ++ w = spell a' ++ w' → Clear stops w → Clear stops w' → a = a' ∧ w = w'

-- ---------------------------------------------------------------------------
-- Lists
-- ---------------------------------------------------------------------------

section
variable {spell : α → List TokenKind} {mark : β → TokenKind}

def linkTokens (spell : α → List TokenKind) (mark : β → TokenKind) (links : List (β × α)) :
    List TokenKind :=
  links.flatMap fun link => mark link.1 :: spell link.2

theorem linkTokens_cons (link : β × α) (links : List (β × α)) :
    linkTokens spell mark (link :: links) =
      mark link.1 :: (spell link.2 ++ linkTokens spell mark links) := rfl

theorem clear_linkTokens (hmark : ∀ b, mark b ∉ stops) (links : List (β × α))
    (hw : Clear stops w) : Clear stops (linkTokens spell mark links ++ w) := by
  cases links with
  | nil => exact hw
  | cons link links => exact clear_cons (hmark link.1)

/-- Links are determined where neither the last of them nor the chain can go on. -/
theorem links_determined (hinj : Function.Injective mark) (hstops : ∀ b, mark b ∉ stops)
    (hends : ∀ b, mark b ∈ ends) (hsub : stops ⊆ ends) {links : List (β × α)}
    (hlinks : ∀ link ∈ links, Determined spell stops link.2) :
    Determined (linkTokens spell mark) ends links := by
  induction links with
  | nil =>
    intro links' w w' h hw _
    cases links' with
    | nil => exact ⟨rfl, h⟩
    | cons link' _ =>
      obtain rfl : w = _ := h
      exact absurd (hends link'.1) (hw _ rfl)
  | cons link links ih =>
    intro links' w w' h hw hw'
    obtain ⟨hlink, hlinks⟩ := List.forall_mem_cons.mp hlinks
    cases links' with
    | nil =>
      obtain rfl : _ = w' := h
      exact absurd (hends link.1) (hw' _ rfl)
    | cons link' links' =>
      rw [linkTokens_cons, linkTokens_cons, List.cons_append, List.cons_append,
        List.append_assoc, List.append_assoc] at h
      obtain ⟨hmark, hrest⟩ := List.cons.inj h
      obtain ⟨hpart, hmore⟩ := hlink _ _ _ hrest (clear_linkTokens hstops _ (hw.mono hsub))
        (clear_linkTokens hstops _ (hw'.mono hsub))
      obtain ⟨rfl, rfl⟩ := ih hlinks links' w w' hmore hw hw'
      exact ⟨congrArg (· :: links) (Prod.ext (hinj hmark) hpart), rfl⟩

theorem chain_determined (hinj : Function.Injective mark) (hstops : ∀ b, mark b ∉ stops)
    (hends : ∀ b, mark b ∈ ends) (hsub : stops ⊆ ends) {a : α} {links : List (β × α)}
    (ha : Determined spell stops a) (hlinks : ∀ link ∈ links, Determined spell stops link.2) :
    Determined (fun c : α × List (β × α) => spell c.1 ++ linkTokens spell mark c.2) ends
      (a, links) := by
  rintro ⟨a', links'⟩ w w' h hw hw'
  rw [List.append_assoc, List.append_assoc] at h
  obtain ⟨rfl, hrest⟩ := ha _ _ _ h (clear_linkTokens hstops _ (hw.mono hsub))
    (clear_linkTokens hstops _ (hw'.mono hsub))
  obtain ⟨rfl, rfl⟩ := links_determined hinj hstops hends hsub hlinks _ _ _ hrest hw hw'
  exact ⟨rfl, rfl⟩

def separated (spell : α → List TokenKind) (mark : TokenKind) : List α → List TokenKind
  | [] => []
  | first :: others => spell first ++ linkTokens spell (fun _ : Unit => mark) (others.map ((), ·))

theorem separated_determined {c t : TokenKind} (hstarts : ∀ a : α, (spell a).head?.any (· != c))
    (hstops : t ∉ stops) (hc : c ∉ t :: stops) {l : List α}
    (hl : ∀ a ∈ l, Determined spell stops a) :
    ∀ l' w w', separated spell t l ++ c :: w = separated spell t l' ++ c :: w' →
      l = l' ∧ w = w' := by
  have hne (first : α) (others : List α) (v v' : List TokenKind) :
      ¬c :: v = separated spell t (first :: others) ++ v' := by
    have hfirst := hstarts first
    rw [separated]
    cases hs : spell first with
    | nil => simp [hs] at hfirst
    | cons t' ts =>
      intro he
      obtain ⟨rfl, -⟩ := List.cons.inj he
      simp [hs] at hfirst
  intro l' w w' he
  cases l with
  | nil =>
    cases l' with
    | nil => exact ⟨rfl, (List.cons.inj he).2⟩
    | cons first' others' => exact (hne _ _ _ _ he).elim
  | cons first others =>
    cases l' with
    | nil => exact (hne _ _ _ _ he.symm).elim
    | cons first' others' =>
      obtain ⟨hfirst, hothers⟩ := List.forall_mem_cons.mp hl
      have hchain : Determined (fun c : α × List (Unit × α) =>
          spell c.1 ++ linkTokens spell (fun _ => t) c.2) (t :: stops)
          (first, others.map ((), ·)) :=
        chain_determined (fun _ _ _ => rfl) (fun _ => hstops) (fun _ => List.mem_cons_self)
          (List.subset_cons_self ..) hfirst (by simpa using hothers)
      obtain ⟨hparts, hrest⟩ := hchain (first', others'.map ((), ·)) _ _ he (clear_cons hc)
        (clear_cons hc)
      obtain ⟨rfl, hmore⟩ := Prod.mk.inj hparts
      have hinj : Function.Injective fun a : α => ((), a) := fun _ _ h => (Prod.mk.inj h).2
      exact ⟨congrArg _ (List.map_injective_iff.mpr hinj hmore), (List.cons.inj hrest).2⟩

theorem clear_flatMap (h : ∀ a : α, ∃ t ts, spell a = t :: ts ∧ t ∉ stops) (l : List α)
    (hw : Clear stops w) : Clear stops (l.flatMap spell ++ w) := by
  cases l with
  | nil => exact hw
  | cons a l =>
    obtain ⟨t, ts, hs, ht⟩ := h a
    rw [List.flatMap_cons, hs]
    exact clear_cons ht

/-- A list is determined if its parts start with tokens that what follows does not. -/
theorem flatMap_determined (starts : List TokenKind)
    (hstarts : ∀ a : α, ∃ t ts, spell a = t :: ts ∧ t ∈ starts ∧ t ∉ stops) {l : List α}
    (hl : ∀ a ∈ l, Determined spell stops a) :
    Determined (List.flatMap spell) (starts ++ stops) l := by
  have hclear (l : List α) {w : List TokenKind} (hw : Clear (starts ++ stops) w) :
      Clear stops (l.flatMap spell ++ w) := by
    refine clear_flatMap (fun a => ?_) l (hw.mono (List.subset_append_right ..))
    obtain ⟨t, ts, hs, -, ht⟩ := hstarts a
    exact ⟨t, ts, hs, ht⟩
  have hnil (a : α) (l : List α) {w w' : List TokenKind} (hw : Clear (starts ++ stops) w) :
      w ≠ (a :: l).flatMap spell ++ w' := by
    obtain ⟨t, ts, hs, ht, -⟩ := hstarts a
    rintro rfl
    rw [List.flatMap_cons, hs] at hw
    exact hw t rfl (List.mem_append_left _ ht)
  induction l with
  | nil =>
    intro l' w w' h hw hw'
    cases l' with
    | nil => exact ⟨rfl, h⟩
    | cons a' l' => exact absurd h (hnil a' l' hw)
  | cons a l ih =>
    intro l' w w' h hw hw'
    obtain ⟨ha, hl⟩ := List.forall_mem_cons.mp hl
    cases l' with
    | nil => exact absurd h.symm (hnil a l hw')
    | cons a' l' =>
      rw [List.flatMap_cons, List.flatMap_cons, List.append_assoc, List.append_assoc] at h
      obtain ⟨rfl, hrest⟩ := ha _ _ _ h (hclear l hw) (hclear l' hw')
      obtain ⟨rfl, rfl⟩ := ih hl l' w w' hrest hw hw'
      exact ⟨rfl, rfl⟩

end

-- ---------------------------------------------------------------------------
-- Chains of operators
-- ---------------------------------------------------------------------------

theorem mark_injective (level : OperatorLevel) :
    Function.Injective fun op : OperatorOf level => TokenKind.symbol op.1.symbol := by
  rintro ⟨op, rfl⟩ ⟨op', h⟩ hs
  have hsymbol : op.symbol = op'.symbol := TokenKind.symbol.inj hs
  have hfound := BinaryOperator.ofSymbol?_symbol op'
  rw [h, ← hsymbol, BinaryOperator.ofSymbol?_symbol op] at hfound
  exact Subtype.ext (Option.some.inj hfound)

def Operand.head : Operand → Term
  | .term single => single
  | .product left _ _ => left.head

def Operand.chain : Operand → List (OperatorOf .product × Term)
  | .term _ => []
  | .product left op right => left.chain ++ [(op, right)]

def Expression.head : Expression → Operand
  | .operand single => single
  | .sum left _ _ => left.head

def Expression.chain : Expression → List (OperatorOf .sum × Operand)
  | .operand _ => []
  | .sum left op right => left.chain ++ [(op, right)]

theorem Operand.foldl_chain (o : Operand) :
    o.chain.foldl (fun left link => .product left link.1 link.2) (.term o.head) = o := by
  cases o with
  | term single => rfl
  | product left op right =>
    rw [chain, List.foldl_append, head, left.foldl_chain]
    rfl

theorem Expression.foldl_chain (e : Expression) :
    e.chain.foldl (fun left link => .sum left link.1 link.2) (.operand e.head) = e := by
  cases e with
  | operand single => rfl
  | sum left op right =>
    rw [chain, List.foldl_append, head, left.foldl_chain]
    rfl

theorem Operand.tokens_eq (o : Operand) : o.tokens = o.head.tokens ++
    linkTokens Term.tokens (fun op : OperatorOf .product => .symbol op.1.symbol) o.chain := by
  cases o with
  | term single => exact (List.append_nil single.tokens).symm
  | product left op right =>
    rw [tokens, left.tokens_eq, head, chain, linkTokens, linkTokens, List.flatMap_append,
      List.append_assoc]
    simp

theorem Expression.tokens_eq (e : Expression) : e.tokens = e.head.tokens ++
    linkTokens Operand.tokens (fun op : OperatorOf .sum => .symbol op.1.symbol) e.chain := by
  cases e with
  | operand single => exact (List.append_nil single.tokens).symm
  | sum left op right =>
    rw [tokens, left.tokens_eq, head, chain, linkTokens, linkTokens, List.flatMap_append,
      List.append_assoc]
    simp

theorem mem_afterOperand (op : OperatorOf .product) : .symbol op.1.symbol ∈ afterOperand := by
  have h := mem_operatorKinds op.1
  rw [op.2] at h
  exact List.mem_append_left _ h

theorem mem_afterExpression (op : OperatorOf .sum) : .symbol op.1.symbol ∈ afterExpression := by
  have h := mem_operatorKinds op.1
  rw [op.2] at h
  exact List.mem_append_left _ h

theorem Operand.determined_of_chain (o : Operand)
    (h : Determined Term.tokens afterTerm o.head ∧
      ∀ link ∈ o.chain, Determined Term.tokens afterTerm link.2) :
    Determined Operand.tokens afterOperand o := by
  intro o' w w' he hw hw'
  rw [o.tokens_eq, o'.tokens_eq] at he
  obtain ⟨hparts, rfl⟩ := chain_determined (mark_injective .product) product_not_mem_afterTerm
    mem_afterOperand (List.subset_append_right ..) h.1 h.2 (o'.head, o'.chain) _ _ he hw hw'
  obtain ⟨hhead, hchain⟩ := Prod.mk.inj hparts
  refine ⟨?_, rfl⟩
  rw [← o.foldl_chain, ← o'.foldl_chain, hhead, hchain]

theorem Expression.determined_of_chain (e : Expression)
    (h : Determined Operand.tokens afterOperand e.head ∧
      ∀ link ∈ e.chain, Determined Operand.tokens afterOperand link.2) :
    Determined Expression.tokens afterExpression e := by
  intro e' w w' he hw hw'
  rw [e.tokens_eq, e'.tokens_eq] at he
  obtain ⟨hparts, rfl⟩ := chain_determined (mark_injective .sum) sum_not_mem_afterOperand
    mem_afterExpression (List.subset_append_right ..) h.1 h.2 (e'.head, e'.chain) _ _ he hw hw'
  obtain ⟨hhead, hchain⟩ := Prod.mk.inj hparts
  refine ⟨?_, rfl⟩
  rw [← e.foldl_chain, ← e'.foldl_chain, hhead, hchain]

-- ---------------------------------------------------------------------------
-- Terms
-- ---------------------------------------------------------------------------

/-- Behind an expression stands a token that cannot continue it. -/
theorem Determined.closed {value : Expression}
    (h : Determined Expression.tokens afterExpression value) {value' : Expression} {c c' : Char}
    (hc : .symbol c ∈ closers) (hc' : .symbol c' ∈ closers)
    (he : value.tokens ++ .symbol c :: w = value'.tokens ++ .symbol c' :: w') :
    value = value' ∧ c = c' ∧ w = w' := by
  obtain ⟨rfl, hrest⟩ := h _ _ _ he (clear_closer hc) (clear_closer hc')
  obtain ⟨hsymbol, rfl⟩ := List.cons.inj hrest
  exact ⟨rfl, TokenKind.symbol.inj hsymbol, rfl⟩

theorem Arguments.tokens_eq (args : List Expression) :
    Arguments.tokens args = separated Expression.tokens (.symbol ',') args := by
  have hmore (others : List Expression) : Arguments.moreTokens others =
      linkTokens Expression.tokens (fun _ : Unit => .symbol ',') (others.map ((), ·)) := by
    induction others with
    | nil => rfl
    | cons next others ih => rw [Arguments.moreTokens, ih]; rfl
  cases args with
  | nil => rfl
  | cons first others => rw [Arguments.tokens, hmore, separated]

theorem arguments_determined {args : List Expression}
    (h : ∀ e ∈ args, Determined Expression.tokens afterExpression e) (args' : List Expression)
    (he : Arguments.tokens args ++ .symbol ')' :: w =
      Arguments.tokens args' ++ .symbol ')' :: w') : args = args' ∧ w = w' := by
  rw [Arguments.tokens_eq, Arguments.tokens_eq] at he
  refine separated_determined (fun e => ?_) (by decide) (by decide) h args' w w' he
  obtain ⟨t, ts, hs, ht⟩ := e.starts
  have hne : t ≠ .symbol ')' := by
    rintro rfl
    exact ht (by decide)
  simp [hs, hne]

theorem Call.determined_of_arguments {callee : Callee} {args : List Expression}
    (h : ∀ e ∈ args, Determined Expression.tokens afterExpression e) :
    Determined Call.tokens [] (.mk callee args) := by
  rintro ⟨callee', args'⟩ w w' he - -
  cases callee <;> cases callee' <;>
    simp only [Call.tokens, Callee.tokens, inParens, List.cons_append, List.nil_append,
      List.append_assoc, List.cons.injEq, TokenKind.identifier.injEq, TokenKind.symbol.injEq,
      Char.reduceEq, true_and, false_and, and_false] at he
  · obtain ⟨rfl, hargs⟩ := he
    obtain ⟨rfl, rfl⟩ := arguments_determined h _ hargs
    exact ⟨rfl, rfl⟩
  · obtain ⟨rfl, rfl, hargs⟩ := he
    obtain ⟨rfl, rfl⟩ := arguments_determined h _ hargs
    exact ⟨rfl, rfl⟩

theorem Constant.word_injective : Function.Injective Constant.word := by
  intro word word' h
  cases word <;> cases word' <;> cases h <;> rfl

inductive TermForm
  | integer
  | string
  | constant
  | «variable»
  | element
  | group
  | unary
  | call

def Term.form : Term → TermForm
  | .integer _ => .integer
  | .string _ => .string
  | .constant _ => .constant
  | .variable _ => .variable
  | .element _ _ => .element
  | .group _ => .group
  | .unary _ _ => .unary
  | .call _ => .call

/-- The form of the term that the tokens start with, told by two of them. -/
def formOf : List TokenKind → TermForm
  | .integer _ :: _ => .integer
  | .string _ :: _ => .string
  | .keyword _ :: _ => .constant
  | .identifier _ :: .symbol '[' :: _ => .element
  | .identifier _ :: .symbol '(' :: _ | .identifier _ :: .symbol '.' :: _ => .call
  | .symbol '(' :: _ => .group
  | .symbol _ :: _ => .unary
  | _ => .variable

theorem formOf_tokens (e : Term) (hw : Clear afterTerm w) : formOf (e.tokens ++ w) = e.form := by
  cases e with
  | «variable» name =>
    cases w with
    | nil => rfl
    | cons t ts =>
      have ht : t ∉ afterTerm := hw t rfl
      show formOf (.identifier name :: t :: ts) = .variable
      unfold formOf
      split <;> simp_all [afterTerm]
  | unary op operand => cases op <;> rfl
  | call c =>
    obtain ⟨callee, args⟩ := c
    cases callee <;> rfl
  | _ => rfl

theorem same_form {e e' : Term} (he : e.tokens ++ w = e'.tokens ++ w') (hw : Clear afterTerm w)
    (hw' : Clear afterTerm w') : e.form = e'.form := by
  rw [← formOf_tokens e hw, he, formOf_tokens e' hw']

theorem unarySymbol_injective : Function.Injective UnaryOperator.symbol := by
  intro op op' h
  cases op <;> cases op' <;> cases h <;> rfl

theorem Term.group_determined {inner : Expression}
    (h : Determined Expression.tokens afterExpression inner) :
    Determined Term.tokens afterTerm (.group inner) := by
  intro e' w w' he hw hw'
  cases e' <;> cases same_form he hw hw'
  case group inner' =>
  simp only [Term.tokens, inParens, List.cons_append, List.append_assoc, List.nil_append,
    List.cons.injEq, true_and] at he
  obtain ⟨rfl, -, rfl⟩ := h.closed (by decide) (by decide) he
  exact ⟨rfl, rfl⟩

theorem Term.element_determined {array : String} {index : Expression}
    (h : Determined Expression.tokens afterExpression index) :
    Determined Term.tokens afterTerm (.element array index) := by
  intro e' w w' he hw hw'
  cases e' <;> cases same_form he hw hw'
  case element array' index' =>
  simp only [Term.tokens, List.cons_append, List.append_assoc, List.nil_append,
    List.cons.injEq, TokenKind.identifier.injEq, true_and] at he
  obtain ⟨rfl, hindex⟩ := he
  obtain ⟨rfl, -, rfl⟩ := h.closed (by decide) (by decide) hindex
  exact ⟨rfl, rfl⟩

theorem Term.unary_determined {op : UnaryOperator} {operand : Term}
    (h : Determined Term.tokens afterTerm operand) :
    Determined Term.tokens afterTerm (.unary op operand) := by
  intro e' w w' he hw hw'
  cases e' <;> cases same_form he hw hw'
  case unary op' operand' =>
  obtain ⟨hsymbol, hrest⟩ := List.cons.inj he
  obtain rfl := unarySymbol_injective (TokenKind.symbol.inj hsymbol)
  obtain ⟨rfl, rfl⟩ := h _ _ _ hrest hw hw'
  exact ⟨rfl, rfl⟩

theorem Term.call_determined {c : Call} (h : Determined Call.tokens [] c) :
    Determined Term.tokens afterTerm (.call c) := by
  intro e' w w' he hw hw'
  cases e' <;> cases same_form he hw hw'
  case call c' =>
  obtain ⟨rfl, rfl⟩ := h c' w w' he (hw.mono (List.nil_subset _)) (hw'.mono (List.nil_subset _))
  exact ⟨rfl, rfl⟩

theorem Term.determined_of_token {e : Term} (h : e.tokens = [t])
    (hinj : ∀ e' : Term, e'.form = e.form → ∃ t', e'.tokens = [t'] ∧ (t = t' → e = e')) :
    Determined Term.tokens afterTerm e := by
  intro e' w w' he hw hw'
  obtain ⟨t', ht', heq⟩ := hinj e' (same_form he hw hw').symm
  rw [h, ht'] at he
  obtain ⟨htoken, rfl⟩ := List.cons.inj he
  exact ⟨heq htoken, rfl⟩

mutual
theorem Term.determined : (e : Term) → Determined Term.tokens afterTerm e
  | .integer value => Term.determined_of_token rfl fun e' hf => by
    cases e' <;> cases hf
    exact ⟨_, rfl, by rintro ⟨⟩; rfl⟩
  | .string value => Term.determined_of_token rfl fun e' hf => by
    cases e' <;> cases hf
    exact ⟨_, rfl, by rintro ⟨⟩; rfl⟩
  | .constant word => Term.determined_of_token rfl fun e' hf => by
    cases e' <;> cases hf
    exact ⟨_, rfl, fun h => congrArg _ (Constant.word_injective (TokenKind.keyword.inj h))⟩
  | .variable name => Term.determined_of_token rfl fun e' hf => by
    cases e' <;> cases hf
    exact ⟨_, rfl, by rintro ⟨⟩; rfl⟩
  | .element _ index => Term.element_determined (index.determined_of_chain index.chain_determined)
  | .group inner => Term.group_determined (inner.determined_of_chain inner.chain_determined)
  | .unary _ operand => Term.unary_determined operand.determined
  | .call call => Term.call_determined call.determined
theorem Call.determined : (c : Call) → Determined Call.tokens [] c
  | .mk _ args => Call.determined_of_arguments (Arguments.determined args)
theorem Operand.chain_determined : (o : Operand) → Determined Term.tokens afterTerm o.head ∧
    ∀ link ∈ o.chain, Determined Term.tokens afterTerm link.2
  | .term single => ⟨single.determined, nofun⟩
  | .product left _ right => by
    obtain ⟨hhead, hchain⟩ := left.chain_determined
    exact ⟨hhead, List.forall_mem_append.mpr
      ⟨hchain, List.forall_mem_singleton.mpr right.determined⟩⟩
theorem Expression.chain_determined :
    (e : Expression) → Determined Operand.tokens afterOperand e.head ∧
      ∀ link ∈ e.chain, Determined Operand.tokens afterOperand link.2
  | .operand single => ⟨single.determined_of_chain single.chain_determined, nofun⟩
  | .sum left _ right => by
    obtain ⟨hhead, hchain⟩ := left.chain_determined
    exact ⟨hhead, List.forall_mem_append.mpr ⟨hchain,
      List.forall_mem_singleton.mpr (right.determined_of_chain right.chain_determined)⟩⟩
theorem Arguments.determined : (es : List Expression) →
    ∀ e ∈ es, Determined Expression.tokens afterExpression e
  | [] => nofun
  | first :: others => List.forall_mem_cons.mpr
      ⟨first.determined_of_chain first.chain_determined, Arguments.determined others⟩
end

theorem Expression.determined (e : Expression) : Determined Expression.tokens afterExpression e :=
  e.determined_of_chain e.chain_determined

-- ---------------------------------------------------------------------------
-- Statements
-- ---------------------------------------------------------------------------

theorem braces_determined {spell : α → List TokenKind} {a a' : α}
    (h : Determined spell ends a) (hends : .symbol '}' ∉ ends)
    (he : inBraces (spell a) ++ w = inBraces (spell a') ++ w') : a = a' ∧ w = w' := by
  simp only [inBraces, List.cons_append, List.append_assoc, List.nil_append, List.cons.injEq,
    true_and] at he
  obtain ⟨rfl, hrest⟩ := h _ _ _ he (clear_cons hends) (clear_cons hends)
  exact ⟨rfl, (List.cons.inj hrest).2⟩

def Statement.word : Statement → Keyword
  | .assign _ _ | .assignElement _ _ _ => .letWord
  | .ifThen _ _ | .ifElse _ _ _ => .ifWord
  | .whileLoop _ _ => .whileWord
  | .run _ => .doWord
  | .leave _ => .returnWord

theorem Statement.opens (st : Statement) : ∃ rest, st.tokens = .keyword st.word :: rest := by
  cases st with
  | leave value => cases value <;> exact ⟨_, rfl⟩
  | _ => exact ⟨_, rfl⟩

theorem same_word {st st' : Statement} (he : st.tokens ++ w = st'.tokens ++ w') :
    st.word = st'.word := by
  obtain ⟨rest, hs⟩ := st.opens
  obtain ⟨rest', hs'⟩ := st'.opens
  rw [hs, hs'] at he
  exact TokenKind.keyword.inj (List.cons.inj he).1

def statementWords : List TokenKind :=
  [.keyword .letWord, .keyword .ifWord, .keyword .whileWord, .keyword .doWord, .keyword .returnWord]

theorem Statement.starts (st : Statement) :
    ∃ t ts, st.tokens = t :: ts ∧ t ∈ statementWords ∧ t ∉ [TokenKind.keyword .elseWord] := by
  obtain ⟨rest, hs⟩ := st.opens
  refine ⟨_, rest, hs, ?_⟩
  cases st <;> simp [word, statementWords]

theorem Statements.tokens_eq (body : List Statement) :
    Statements.tokens body = body.flatMap Statement.tokens := by
  induction body with
  | nil => rfl
  | cons first others ih => rw [Statements.tokens, ih, List.flatMap_cons]

theorem block_determined {body body' : List Statement}
    (h : ∀ st ∈ body, Determined Statement.tokens [.keyword .elseWord] st)
    (he : inBraces (Statements.tokens body) ++ w = inBraces (Statements.tokens body') ++ w') :
    body = body' ∧ w = w' := by
  rw [Statements.tokens_eq, Statements.tokens_eq] at he
  exact braces_determined (flatMap_determined statementWords Statement.starts h) (by decide) he

theorem condition_determined {condition condition' : Expression}
    (he : inParens condition.tokens ++ w = inParens condition'.tokens ++ w') :
    condition = condition' ∧ w = w' := by
  simp only [inParens, List.cons_append, List.append_assoc, List.nil_append, List.cons.injEq,
    true_and] at he
  obtain ⟨rfl, -, rfl⟩ := condition.determined.closed (by decide) (by decide) he
  exact ⟨rfl, rfl⟩

theorem value_determined {value value' : Expression}
    (he : value.tokens ++ .symbol ';' :: w = value'.tokens ++ .symbol ';' :: w') :
    value = value' ∧ w = w' := by
  obtain ⟨rfl, -, rfl⟩ := value.determined.closed (by decide) (by decide) he
  exact ⟨rfl, rfl⟩

theorem Statement.assign_determined {target : String} {value : Expression} :
    Determined Statement.tokens [.keyword .elseWord] (.assign target value) := by
  intro st' w w' he _ _
  cases st' <;> cases same_word he
  case assign =>
    simp only [Statement.tokens, List.cons_append, List.append_assoc, List.nil_append,
      List.cons.injEq, TokenKind.identifier.injEq, true_and] at he
    obtain ⟨rfl, hvalue⟩ := he
    obtain ⟨rfl, rfl⟩ := value_determined hvalue
    exact ⟨rfl, rfl⟩
  case assignElement => simp [Statement.tokens] at he

theorem Statement.assignElement_determined {array : String} {index value : Expression} :
    Determined Statement.tokens [.keyword .elseWord] (.assignElement array index value) := by
  intro st' w w' he _ _
  cases st' <;> cases same_word he
  case assign => simp [Statement.tokens] at he
  case assignElement =>
    simp only [Statement.tokens, List.cons_append, List.append_assoc, List.nil_append,
      List.cons.injEq, TokenKind.identifier.injEq, true_and] at he
    obtain ⟨rfl, hindex⟩ := he
    obtain ⟨rfl, -, hrest⟩ := index.determined.closed (by decide) (by decide) hindex
    obtain ⟨rfl, rfl⟩ := value_determined (List.cons.inj hrest).2
    exact ⟨rfl, rfl⟩

theorem Statement.ifThen_determined {condition : Expression} {body : List Statement}
    (h : ∀ st ∈ body, Determined Statement.tokens [.keyword .elseWord] st) :
    Determined Statement.tokens [.keyword .elseWord] (.ifThen condition body) := by
  intro st' w w' he hw _
  cases st' <;> cases same_word he
  case ifThen =>
    simp only [Statement.tokens, List.cons_append, List.append_assoc, List.cons.injEq,
      true_and] at he
    obtain ⟨rfl, hbody⟩ := condition_determined he
    obtain ⟨rfl, rfl⟩ := block_determined h hbody
    exact ⟨rfl, rfl⟩
  case ifElse =>
    simp only [Statement.tokens, List.cons_append, List.append_assoc, List.cons.injEq,
      true_and] at he
    obtain ⟨-, hbody⟩ := condition_determined he
    obtain ⟨-, rfl⟩ := block_determined h hbody
    exact absurd List.mem_cons_self (hw _ rfl)

theorem Statement.ifElse_determined {condition : Expression} {body otherwise : List Statement}
    (h : ∀ st ∈ body, Determined Statement.tokens [.keyword .elseWord] st)
    (ho : ∀ st ∈ otherwise, Determined Statement.tokens [.keyword .elseWord] st) :
    Determined Statement.tokens [.keyword .elseWord] (.ifElse condition body otherwise) := by
  intro st' w w' he _ hw'
  cases st' <;> cases same_word he
  case ifThen =>
    simp only [Statement.tokens, List.cons_append, List.append_assoc, List.cons.injEq,
      true_and] at he
    obtain ⟨-, hbody⟩ := condition_determined he
    obtain ⟨-, rfl⟩ := block_determined h hbody
    exact absurd List.mem_cons_self (hw' _ rfl)
  case ifElse =>
    simp only [Statement.tokens, List.cons_append, List.append_assoc, List.cons.injEq,
      true_and] at he
    obtain ⟨rfl, hbody⟩ := condition_determined he
    obtain ⟨rfl, hrest⟩ := block_determined h hbody
    obtain ⟨rfl, rfl⟩ := block_determined ho (List.cons.inj hrest).2
    exact ⟨rfl, rfl⟩

theorem Statement.whileLoop_determined {condition : Expression} {body : List Statement}
    (h : ∀ st ∈ body, Determined Statement.tokens [.keyword .elseWord] st) :
    Determined Statement.tokens [.keyword .elseWord] (.whileLoop condition body) := by
  intro st' w w' he _ _
  cases st' <;> cases same_word he
  case whileLoop =>
    simp only [Statement.tokens, List.cons_append, List.append_assoc, List.cons.injEq,
      true_and] at he
    obtain ⟨rfl, hbody⟩ := condition_determined he
    obtain ⟨rfl, rfl⟩ := block_determined h hbody
    exact ⟨rfl, rfl⟩

theorem Statement.run_determined (c : Call) :
    Determined Statement.tokens [.keyword .elseWord] (.run c) := by
  intro st' w w' he _ _
  cases st' <;> cases same_word he
  case run =>
    simp only [Statement.tokens, List.cons_append, List.append_assoc, List.nil_append,
      List.cons.injEq, true_and] at he
    obtain ⟨rfl, hrest⟩ := c.determined _ _ _ he (fun _ _ => List.not_mem_nil)
      (fun _ _ => List.not_mem_nil)
    exact ⟨rfl, (List.cons.inj hrest).2⟩

theorem leave_ne_leave (value : Expression) :
    (Statement.leave none).tokens ++ w ≠ (Statement.leave (some value)).tokens ++ w' := by
  obtain ⟨t, ts, hs, ht⟩ := value.starts
  intro he
  simp only [Statement.tokens, hs, List.cons_append, List.cons.injEq, true_and] at he
  exact ht (he.1 ▸ by decide)

theorem Statement.leave_determined (value : Option Expression) :
    Determined Statement.tokens [.keyword .elseWord] (.leave value) := by
  intro st' w w' he _ _
  cases st' <;> cases same_word he
  case leave value' =>
    cases value with
    | none =>
      cases value' with
      | none =>
        simp only [Statement.tokens, List.cons_append, List.nil_append, List.cons.injEq,
          true_and] at he
        exact ⟨rfl, he⟩
      | some value' => exact (leave_ne_leave _ he).elim
    | some value =>
      cases value' with
      | none => exact (leave_ne_leave _ he.symm).elim
      | some value' =>
        simp only [Statement.tokens, List.cons_append, List.append_assoc, List.nil_append,
          List.cons.injEq, true_and] at he
        obtain ⟨rfl, rfl⟩ := value_determined he
        exact ⟨rfl, rfl⟩

mutual
theorem Statement.determined :
    (st : Statement) → Determined Statement.tokens [.keyword .elseWord] st
  | .assign _ _ => Statement.assign_determined
  | .assignElement _ _ _ => Statement.assignElement_determined
  | .ifThen _ body => Statement.ifThen_determined (Statements.determined body)
  | .ifElse _ body otherwise =>
    Statement.ifElse_determined (Statements.determined body) (Statements.determined otherwise)
  | .whileLoop _ body => Statement.whileLoop_determined (Statements.determined body)
  | .run call => Statement.run_determined call
  | .leave value => Statement.leave_determined value
theorem Statements.determined : (body : List Statement) →
    ∀ st ∈ body, Determined Statement.tokens [.keyword .elseWord] st
  | [] => nofun
  | first :: others => List.forall_mem_cons.mpr ⟨first.determined, Statements.determined others⟩
end

-- ---------------------------------------------------------------------------
-- Classes
-- ---------------------------------------------------------------------------

theorem TypeName.token_injective : Function.Injective TypeName.token := by
  intro type type' h
  cases type <;> cases type' <;> cases h <;> rfl

theorem returnToken_injective : Function.Injective returnToken := by
  intro type type' h
  cases type with
  | none =>
    cases type' with
    | none => rfl
    | some type' => exact absurd h.symm type'.token_ne_void
  | some type =>
    cases type' with
    | none => exact absurd h type.token_ne_void
    | some type' => exact congrArg some (TypeName.token_injective h)

theorem kindWord_injective : Function.Injective kindWord := by
  intro kind kind' h
  cases kind <;> cases kind' <;> cases h <;> rfl

theorem ClassStorage.word_injective : Function.Injective ClassStorage.word := by
  intro storage storage' h
  cases storage <;> cases storage' <;> cases h <;> rfl

theorem name_determined (name : String) :
    Determined (fun name => [TokenKind.identifier name]) [] name := by
  intro name' w w' he _ _
  obtain ⟨hname, hrest⟩ := List.cons.inj he
  exact ⟨TokenKind.identifier.inj hname, hrest⟩

theorem Declarators.tokens_eq (d : Declarators) : d.tokens = d.type.token ::
    (separated (fun name => [.identifier name]) (.symbol ',') (d.first :: d.others) ++
      [.symbol ';']) := by
  rw [separated, linkTokens, List.flatMap_map]
  rfl

theorem Declarators.determined (d : Declarators) : Determined Declarators.tokens [] d := by
  intro d' w w' he _ _
  rw [d.tokens_eq, d'.tokens_eq] at he
  simp only [List.cons_append, List.append_assoc, List.nil_append, List.cons.injEq] at he
  obtain ⟨htype, hnames⟩ := he
  obtain ⟨hall, rfl⟩ := separated_determined (fun _ => rfl) List.not_mem_nil (by decide)
    (fun name _ => name_determined name) (d'.first :: d'.others) w w' hnames
  obtain ⟨hfirst, hothers⟩ := List.cons.inj hall
  obtain ⟨type, first, others⟩ := d
  obtain ⟨type', first', others'⟩ := d'
  obtain rfl : type = type' := TypeName.token_injective htype
  obtain rfl : first = first' := hfirst
  exact ⟨congrArg _ hothers, rfl⟩

theorem ClassVariables.determined (v : ClassVariables) :
    Determined ClassVariables.tokens [] v := by
  intro v' w w' he hw hw'
  obtain ⟨hword, hrest⟩ := List.cons.inj he
  obtain ⟨hdeclarators, rfl⟩ := v.declarators.determined _ _ _ hrest hw hw'
  obtain ⟨storage, declarators⟩ := v
  obtain ⟨storage', declarators'⟩ := v'
  obtain rfl := ClassStorage.word_injective (TokenKind.keyword.inj hword)
  exact ⟨congrArg _ hdeclarators, rfl⟩

theorem Parameter.determined (p : Parameter) : Determined Parameter.tokens [] p := by
  intro p' w w' he _ _
  obtain ⟨type, name⟩ := p
  obtain ⟨type', name'⟩ := p'
  obtain ⟨htype, hrest⟩ := List.cons.inj he
  obtain ⟨hname, rfl⟩ := List.cons.inj hrest
  obtain rfl : type = type' := TypeName.token_injective htype
  exact ⟨congrArg _ (TokenKind.identifier.inj hname), rfl⟩

theorem Parameters.tokens_eq (ps : List Parameter) :
    Parameters.tokens ps = separated Parameter.tokens (.symbol ',') ps := by
  cases ps with
  | nil => rfl
  | cons first others =>
    rw [separated, linkTokens, List.flatMap_map]
    rfl

theorem parameters_determined {ps ps' : List Parameter}
    (he : inParens (Parameters.tokens ps) ++ w = inParens (Parameters.tokens ps') ++ w') :
    ps = ps' ∧ w = w' := by
  rw [Parameters.tokens_eq, Parameters.tokens_eq] at he
  simp only [inParens, List.cons_append, List.append_assoc, List.nil_append, List.cons.injEq,
    true_and] at he
  refine separated_determined (fun p => ?_) List.not_mem_nil (by decide)
    (fun p _ => p.determined) ps' w w' he
  simp [Parameter.tokens, p.type.token_ne_symbol]

theorem body_determined {locals locals' : List Declarators} {body body' : List Statement}
    (he : bodyTokens locals body ++ w = bodyTokens locals' body' ++ w') :
    locals = locals' ∧ body = body' ∧ w = w' := by
  have hclear (body : List Statement) (w : List TokenKind) :
      Clear [.keyword .varWord] (Statements.tokens body ++ .symbol '}' :: w) := by
    rw [Statements.tokens_eq]
    refine clear_flatMap (fun st => ?_) body (clear_cons (by decide))
    obtain ⟨rest, hs⟩ := st.opens
    exact ⟨_, rest, hs, by cases st <;> simp [Statement.word]⟩
  have hlocal (d : Declarators) :
      Determined (fun d : Declarators => .keyword .varWord :: d.tokens) [] d :=
    fun d' w w' he hw hw' => d.determined d' w w' (List.cons.inj he).2 hw hw'
  simp only [bodyTokens, inBraces, List.cons_append, List.append_assoc, List.nil_append,
    List.cons.injEq, true_and] at he
  obtain ⟨rfl, hbody⟩ := flatMap_determined [.keyword .varWord]
    (fun _ => ⟨_, _, rfl, List.mem_cons_self, List.not_mem_nil⟩) (fun d _ => hlocal d) _ _ _ he
    (hclear _ _) (hclear _ _)
  have hblock : inBraces (Statements.tokens body) ++ w =
      inBraces (Statements.tokens body') ++ w' := by
    simpa [inBraces] using hbody
  obtain ⟨rfl, rfl⟩ := block_determined (Statements.determined body) hblock
  exact ⟨rfl, rfl, rfl⟩

theorem Subroutine.determined (s : Subroutine) : Determined Subroutine.tokens [] s := by
  intro s' w w' he _ _
  simp only [Subroutine.tokens, List.cons_append, List.append_assoc, List.cons.injEq,
    TokenKind.keyword.injEq, TokenKind.identifier.injEq] at he
  obtain ⟨hkind, htype, hname, hrest⟩ := he
  obtain ⟨hparameters, hrest⟩ := parameters_determined hrest
  obtain ⟨hlocals, hbody, rfl⟩ := body_determined hrest
  obtain ⟨kind, returnType, name, parameters, locals, body⟩ := s
  obtain ⟨kind', returnType', name', parameters', locals', body'⟩ := s'
  obtain rfl : kind = kind' := kindWord_injective hkind
  obtain rfl : returnType = returnType' := returnToken_injective htype
  obtain rfl : name = name' := hname
  obtain rfl : parameters = parameters' := hparameters
  obtain rfl : locals = locals' := hlocals
  obtain rfl : body = body' := hbody
  exact ⟨rfl, rfl⟩

/-- Classes that are spelled alike are the same. -/
theorem JackClass.tokens_injective : Function.Injective JackClass.tokens := by
  intro c c' he
  have hclear (subs : List Subroutine) : Clear [.keyword .staticWord, .keyword .fieldWord]
      (subs.flatMap Subroutine.tokens ++ [.symbol '}']) := by
    refine clear_flatMap (fun sub => ⟨_, _, rfl, ?_⟩) subs (clear_cons (by decide))
    cases sub.kind <;> decide
  simp only [JackClass.tokens, inBraces, List.append_assoc, List.cons.injEq, true_and,
    TokenKind.identifier.injEq] at he
  obtain ⟨hname, hrest⟩ := he
  obtain ⟨hvars, hrest⟩ := flatMap_determined [.keyword .staticWord, .keyword .fieldWord]
    (fun v => ⟨_, _, rfl, by cases v.storage <;> decide, List.not_mem_nil⟩)
    (fun v _ => ClassVariables.determined v) _ _ _ hrest (hclear _) (hclear _)
  obtain ⟨hsubs, -⟩ := flatMap_determined
    [.keyword .constructorWord, .keyword .functionWord, .keyword .methodWord]
    (fun sub => ⟨_, _, rfl, by cases sub.kind <;> decide, List.not_mem_nil⟩)
    (fun sub _ => Subroutine.determined sub) _ _ _ hrest (clear_cons (by decide))
    (clear_cons (by decide))
  obtain ⟨name, vars, subroutines⟩ := c
  obtain ⟨name', vars', subroutines'⟩ := c'
  obtain rfl : name = name' := hname
  obtain rfl : vars = vars' := hvars
  exact congrArg _ hsubs

end JackVM.Syntax
