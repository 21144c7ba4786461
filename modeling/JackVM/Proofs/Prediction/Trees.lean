import JackVM.Proofs.Prediction.Sentences
import JackVM.Proofs.Syntax.Spelling

/-!
# Every tree fits

The tokens of a tree come one after another as the table predicts them, and
what they leave of the stack is what was below. Where a construct may go on, it
depends on the next token whether it has ended.
-/

namespace JackVM

open Syntax

namespace Prediction

open Compile (SubroutineKind)

variable {item : Item} {items stack : List Item} {kind t : TokenKind} {kinds w : List TokenKind}
  {returnsVoid : Bool}

theorem misfit_take (h : item.expand t = some []) :
    misfit (item :: stack) (t :: w) = misfit stack w := misfit_expand h

theorem misfit_kind : misfit (.kind kind :: stack) (kind :: w) = misfit stack w :=
  misfit_take (if_pos rfl)

theorem misfit_symbol {c : Char} : misfit (symbol c :: stack) (.symbol c :: w) = misfit stack w :=
  misfit_kind

theorem misfit_name {name : String} :
    misfit (.name :: stack) (.identifier name :: w) = misfit stack w := misfit_take rfl

theorem misfit_parens (h : ∀ stack w, misfit (items ++ symbol ')' :: stack)
      (kinds ++ .symbol ')' :: w) = misfit stack w) :
    misfit (parens items ++ stack) (inParens kinds ++ w) = misfit stack w := by
  simp only [parens, inParens, List.cons_append, List.append_assoc, List.nil_append]
  rw [misfit_symbol, h]

theorem misfit_braces (h : ∀ stack w, misfit (items ++ symbol '}' :: stack)
      (kinds ++ .symbol '}' :: w) = misfit stack w) :
    misfit (braces items ++ stack) (inBraces kinds ++ w) = misfit stack w := by
  simp only [braces, inBraces, List.cons_append, List.append_assoc, List.nil_append]
  rw [misfit_symbol, h]

-- ---------------------------------------------------------------------------
-- Expressions
-- ---------------------------------------------------------------------------

/-- The tokens start with a term. With `before` below the rest of that term, they
leave `after`, unless the next token is one of `stops`. -/
def Opens (before after : List Item) (stops kinds : List TokenKind) : Prop :=
  ∃ t ts items, kinds = t :: ts ∧ termItems .termTail t = some items ∧
    ∀ stack w, Clear stops w →
      misfit (items ++ (before ++ stack)) (ts ++ w) = misfit (after ++ stack) w

section
variable {before after : List Item} {stops : List TokenKind}

theorem Opens.single {ts : List TokenKind} (h : termItems .termTail t = some items)
    (hs : ∀ stack w, Clear stops w → misfit (items ++ stack) (ts ++ w) = misfit stack w) :
    Opens [] [] stops (t :: ts) := ⟨t, ts, items, rfl, h, hs⟩

theorem Opens.fits (h : Opens before after stops kinds) (hw : Clear stops w) :
    misfit (.term :: (before ++ stack)) (kinds ++ w) = misfit (after ++ stack) w := by
  obtain ⟨t, ts, items, rfl, ht, hs⟩ := h
  rw [List.cons_append, misfit_expand (show Item.term.expand t = some items from ht)]
  exact hs stack w hw

theorem Opens.append {more : List TokenKind} {later : List Item} {laterStops : List TokenKind}
    (h : Opens before after stops kinds) (ht : t ∉ stops)
    (hs : ∀ stack w, Clear laterStops w →
      misfit (after ++ stack) (t :: (more ++ w)) = misfit (later ++ stack) w) :
    Opens before later laterStops (kinds ++ t :: more) := by
  obtain ⟨t', ts, items, rfl, hi, hf⟩ := h
  refine ⟨t', ts ++ t :: more, items, rfl, hi, fun stack w hw => ?_⟩
  rw [List.append_assoc, List.cons_append, hf stack _ (clear_cons ht)]
  exact hs stack w hw

end

theorem no_operator {level : OperatorLevel} (h : t ∉ operatorKinds level) :
    (char? t).bind (BinaryOperator.ofSymbol? level) = none := by
  cases ho : (char? t).bind (BinaryOperator.ofSymbol? level) with
  | none => rfl
  | some op =>
    obtain ⟨rfl, rfl⟩ := operator_eq ho
    exact absurd (mem_operatorKinds op) h

theorem operator_symbol {level : OperatorLevel} (op : OperatorOf level) :
    (char? (.symbol op.1.symbol)).bind (BinaryOperator.ofSymbol? level) = some op.1 := by
  obtain ⟨op, rfl⟩ := op
  exact BinaryOperator.ofSymbol?_symbol op

theorem pass_factors (h : Clear afterOperand w) :
    misfit (.factors :: stack) w = misfit stack w := by
  refine misfit_pass rfl fun t ht => ?_
  have hn := no_operator fun hm => h t ht (List.mem_append_left _ hm)
  simp only [Item.expand, hn, Option.map_none]

theorem pass_operands (h : Clear afterExpression w) :
    misfit (.operands :: stack) w = misfit stack w := by
  refine misfit_pass rfl fun t ht => ?_
  have hn := no_operator fun hm => h t ht (List.mem_append_left _ hm)
  simp only [Item.expand, hn, Option.map_none]

theorem pass_termTail (h : Clear afterTerm w) :
    misfit (.termTail :: stack) w = misfit stack w := by
  refine misfit_pass rfl fun t ht => ?_
  have hn := h t ht
  simp only [afterTerm, List.mem_cons, List.not_mem_nil, or_false, not_or] at hn
  simp only [Item.expand, callItems, hn, ↓reduceIte]

theorem misfit_factor (op : OperatorOf .product) :
    misfit (.factors :: stack) (.symbol op.1.symbol :: w) =
      misfit (.term :: .factors :: stack) w := by
  have h : Item.factors.expand (.symbol op.1.symbol) = some [.term, .factors] := by
    rw [Item.expand, operator_symbol op]
    rfl
  exact misfit_expand h

theorem misfit_operand (op : OperatorOf .sum) :
    misfit (.operands :: stack) (.symbol op.1.symbol :: w) =
      misfit (.term :: .factors :: .operands :: stack) w := by
  have h : Item.operands.expand (.symbol op.1.symbol) = some [.term, .factors, .operands] := by
    rw [Item.expand, operator_symbol op]
    rfl
  exact misfit_expand h

/-- What follows the first name of a call fits where a call must go on and where a
term may. -/
theorem misfit_call (callee : Callee)
    (h : ∀ stack w, misfit (.arguments :: symbol ')' :: stack) (kinds ++ .symbol ')' :: w) =
      misfit stack w) :
    ∃ name rest, callee.tokens ++ inParens kinds = .identifier name :: rest ∧
      ∀ tail stack w, tail = .callTail ∨ tail = .termTail →
        misfit (tail :: stack) (rest ++ w) = misfit stack w := by
  have hargs (w : List TokenKind) :
      inParens kinds ++ w = .symbol '(' :: (kinds ++ .symbol ')' :: w) := by simp [inParens]
  cases callee with
  | own name =>
    refine ⟨name, inParens kinds, rfl, fun tail stack w htail => ?_⟩
    have hopen : tail.expand (.symbol '(') = some [.arguments, symbol ')'] := by
      rcases htail with rfl | rfl <;> rfl
    rw [hargs, misfit_expand hopen]
    exact h stack w
  | member owner name =>
    refine ⟨owner, .symbol '.' :: .identifier name :: inParens kinds, rfl,
      fun tail stack w htail => ?_⟩
    have hdot : tail.expand (.symbol '.') = some (.name :: parens [.arguments]) := by
      rcases htail with rfl | rfl <;> rfl
    rw [List.cons_append, misfit_expand hdot, List.cons_append, List.cons_append, misfit_name,
      hargs]
    exact misfit_symbol.trans (h stack w)

theorem misfit_index (h : misfit (expressionItems ++ symbol ']' :: stack)
      (kinds ++ .symbol ']' :: w) = misfit (symbol ']' :: stack) (.symbol ']' :: w)) :
    misfit (indexItems ++ stack) (kinds ++ .symbol ']' :: w) = misfit stack w := by
  rw [indexItems, List.append_assoc]
  exact h.trans misfit_symbol

/-- An operand starts an expression, and is all of it if none of its operators
follows. -/
theorem opens_operand (h : Opens [.factors] [.factors] afterTerm kinds) :
    Opens [.factors, .operands] [.operands] afterOperand kinds := by
  obtain ⟨t, ts, items, rfl, hi, hf⟩ := h
  refine ⟨t, ts, items, rfl, hi, fun stack w hw => ?_⟩
  have hc : Clear afterTerm w := hw.mono (List.subset_append_right ..)
  exact (hf (.operands :: stack) w hc).trans (pass_factors hw)

theorem opens_term (h : Opens [] [] afterTerm kinds) :
    Opens [.factors] [.factors] afterTerm kinds := by
  obtain ⟨t, ts, items, rfl, hi, hf⟩ := h
  exact ⟨t, ts, items, rfl, hi, fun stack w hw => hf (.factors :: stack) w hw⟩

/-- A whole expression fits where its end is told by the next token. -/
theorem Opens.expression (h : Opens [.factors, .operands] [.operands] afterOperand kinds)
    (ht : t ∈ closers) :
    misfit (expressionItems ++ stack) (kinds ++ t :: w) = misfit stack (t :: w) := by
  have hc : Clear afterOperand (t :: w) := (clear_closer ht).mono (List.subset_append_right ..)
  exact (h.fits hc).trans (pass_operands (clear_closer ht))

theorem more_closes (others : List Expression) :
    ∃ t ∈ closers, ∃ ts, Arguments.moreTokens others ++ .symbol ')' :: w = t :: ts := by
  cases others with
  | nil => exact ⟨.symbol ')', by decide, w, rfl⟩
  | cons next others => exact ⟨.symbol ',', by decide, _, rfl⟩

-- The first token of a term is apart from the rest, since arguments and the value
-- of a `return` are predicted by it too.
mutual
theorem term_opens : (e : Term) → Opens [] [] afterTerm e.tokens
  | .integer _ => .single rfl fun _ _ _ => rfl
  | .string _ => .single rfl fun _ _ _ => rfl
  | .constant word => by cases word <;> exact .single rfl fun _ _ _ => rfl
  | .variable _ => .single rfl fun _ _ hw => pass_termTail hw
  | .element _ index => .single rfl fun stack w _ => by
    have h : Item.termTail.expand (.symbol '[') = some indexItems := rfl
    refine (misfit_expand h).trans ?_
    show misfit (indexItems ++ stack) (index.tokens ++ [.symbol ']'] ++ w) = misfit stack w
    rw [List.append_assoc]
    exact misfit_index ((expression_opens index).expression (by decide))
  | .group inner => .single rfl fun stack w _ => by
    rw [List.append_assoc, List.append_assoc]
    exact ((expression_opens inner).expression (by decide)).trans misfit_symbol
  | .unary op operand => by
    have h : termItems .termTail (.symbol op.symbol) = some [.term] := by cases op <;> rfl
    exact .single h fun stack w hw => (term_opens operand).fits hw
  | .call call => call_opens call
theorem call_opens : (c : Call) → Opens [] [] afterTerm c.tokens
  | .mk callee args => by
    obtain ⟨name, rest, ht, hs⟩ := misfit_call callee fun _ _ => arguments_fit args
    rw [Call.tokens, ht]
    exact .single rfl fun stack w _ => hs _ stack w (.inr rfl)
theorem operand_opens : (o : Operand) → Opens [.factors] [.factors] afterTerm o.tokens
  | .term single => opens_term (term_opens single)
  | .product left op right =>
    (operand_opens left).append (product_not_mem_afterTerm op) fun _ _ hw =>
      (misfit_factor op).trans ((opens_term (term_opens right)).fits hw)
theorem expression_opens :
    (e : Expression) → Opens [.factors, .operands] [.operands] afterOperand e.tokens
  | .operand single => opens_operand (operand_opens single)
  | .sum left op right =>
    (expression_opens left).append (sum_not_mem_afterOperand op) fun _ _ hw =>
      (misfit_operand op).trans ((opens_operand (operand_opens right)).fits hw)
theorem arguments_fit : (args : List Expression) → {stack : List Item} → {w : List TokenKind} →
    misfit (.arguments :: symbol ')' :: stack) (Arguments.tokens args ++ .symbol ')' :: w) =
      misfit stack w
  | [], _, _ => (misfit_pass rfl (by rintro _ ⟨⟩; rfl)).trans misfit_symbol
  | first :: others, stack, w => by
    obtain ⟨t, ts, items, ht, hi, hf⟩ := expression_opens first
    have h : Item.arguments.expand t = some (items ++ [.factors, .operands, .moreArguments]) := by
      rw [Item.expand, hi]
      rfl
    obtain ⟨t', ht', ts', hts⟩ := more_closes (w := w) others
    have hc : Clear afterOperand (t' :: ts') :=
      (clear_closer ht').mono (List.subset_append_right ..)
    rw [Arguments.tokens, ht, List.append_assoc, List.cons_append, misfit_expand h, hts,
      List.append_assoc]
    refine (hf (.moreArguments :: symbol ')' :: stack) _ hc).trans ?_
    refine (pass_operands (clear_closer ht')).trans ?_
    rw [← hts]
    exact moreArguments_fit others
theorem moreArguments_fit : (args : List Expression) → {stack : List Item} →
    {w : List TokenKind} →
    misfit (.moreArguments :: symbol ')' :: stack)
      (Arguments.moreTokens args ++ .symbol ')' :: w) = misfit stack w
  | [], _, _ => (misfit_pass rfl (by rintro _ ⟨⟩; rfl)).trans misfit_symbol
  | next :: others, stack, w => by
    have h : Item.moreArguments.expand (.symbol ',') =
      some (expressionItems ++ [.moreArguments]) := rfl
    obtain ⟨t, ht, ts, hts⟩ := more_closes (w := w) others
    rw [Arguments.moreTokens, List.cons_append, misfit_expand h, List.append_assoc,
      List.append_assoc, hts, (expression_opens next).expression ht, ← hts]
    exact moreArguments_fit others
end

-- ---------------------------------------------------------------------------
-- Statements
-- ---------------------------------------------------------------------------

theorem expression_fits (value : Expression) {c : Char} (h : .symbol c ∈ closers) :
    misfit (expressionItems ++ symbol c :: stack) (value.tokens ++ .symbol c :: w) =
      misfit stack w :=
  ((expression_opens value).expression h).trans misfit_symbol

theorem condition_fits (condition : Expression) :
    misfit (parens expressionItems ++ stack) (inParens condition.tokens ++ w) = misfit stack w :=
  misfit_parens fun _ _ => expression_fits condition (by decide)

theorem call_fits (c : Call) : ∃ name rest, c.tokens = .identifier name :: rest ∧
    ∀ stack w, misfit (.callTail :: stack) (rest ++ w) = misfit stack w := by
  obtain ⟨callee, args⟩ := c
  obtain ⟨name, rest, ht, hs⟩ := misfit_call callee fun _ _ => arguments_fit args
  exact ⟨name, rest, ht, fun stack w => hs _ stack w (.inl rfl)⟩

theorem assign_fits (value : Expression) :
    misfit (.letTail :: stack) (.symbol '=' :: (value.tokens ++ [.symbol ';']) ++ w) =
      misfit stack w := by
  have h : Item.letTail.expand (.symbol '=') = some (expressionItems ++ [symbol ';']) := rfl
  rw [List.cons_append, misfit_expand h, List.append_assoc, List.append_assoc]
  exact expression_fits value (by decide)

theorem assignElement_fits (index value : Expression) :
    misfit (.letTail :: stack) (.symbol '[' :: (index.tokens ++ .symbol ']' :: .symbol '=' ::
      (value.tokens ++ [.symbol ';'])) ++ w) = misfit stack w := by
  have h : Item.letTail.expand (.symbol '[') =
    some (indexItems ++ symbol '=' :: (expressionItems ++ [symbol ';'])) := rfl
  rw [List.cons_append, misfit_expand h, List.append_assoc, List.append_assoc]
  refine (misfit_index ((expression_opens index).expression (by decide))).trans ?_
  refine misfit_symbol.trans ?_
  show misfit (expressionItems ++ symbol ';' :: stack) (value.tokens ++ [.symbol ';'] ++ w) = _
  rw [List.append_assoc]
  exact expression_fits value (by decide)

theorem returnValue_fits (value : Expression) :
    misfit (.returnTail returnsVoid :: stack) (value.tokens ++ [.symbol ';'] ++ w) =
      misfit stack w := by
  obtain ⟨t, ts, items, ht, hi, hf⟩ := expression_opens value
  have h : (Item.returnTail returnsVoid).expand t =
      some (items ++ [.factors, .operands, symbol ';']) := by
    have hne : t ≠ .symbol ';' := by
      rintro rfl
      cases hi
    rw [Item.expand, if_neg hne, hi]
    rfl
  have hc : Clear afterOperand (.symbol ';' :: w) := clear_cons (by decide)
  rw [ht, List.append_assoc, List.cons_append, misfit_expand h, List.append_assoc]
  refine (hf (symbol ';' :: stack) _ hc).trans ?_
  exact (pass_operands (clear_closer (by decide))).trans misfit_symbol

/-- The first word of a statement tells what follows, and that fits unless an
`else` comes next. -/
def Begins (returnsVoid : Bool) (kinds : List TokenKind) : Prop :=
  ∃ word rest items, kinds = .keyword word :: rest ∧ statementItems returnsVoid word = some items ∧
    ∀ stack w, Clear [.keyword .elseWord] w → misfit (items ++ stack) (rest ++ w) = misfit stack w

theorem Begins.clear (h : Begins returnsVoid kinds) : Clear [.keyword .elseWord] (kinds ++ w) := by
  obtain ⟨word, rest, items, rfl, hi, -⟩ := h
  refine clear_cons fun hm => ?_
  cases List.mem_singleton.mp hm
  cases hi

theorem Begins.fits (h : Begins returnsVoid kinds) (hw : Clear [.keyword .elseWord] w) :
    misfit (.statements returnsVoid :: stack) (kinds ++ w) =
      misfit (.statements returnsVoid :: stack) w := by
  obtain ⟨word, rest, items, rfl, hi, hf⟩ := h
  have h : (Item.statements returnsVoid).expand (.keyword word) =
      some (items ++ [.statements returnsVoid]) := by
    rw [Item.expand, word?, Option.bind_some, hi]
    rfl
  rw [List.cons_append, misfit_expand h, List.append_assoc]
  exact hf _ w hw

theorem pass_elseTail (h : Clear [.keyword .elseWord] w) :
    misfit (.elseTail returnsVoid :: stack) w = misfit stack w :=
  misfit_pass rfl fun t ht => if_neg fun he => h t ht (List.mem_singleton.mpr he)

mutual
theorem statement_begins : (st : Statement) → st.Leaves returnsVoid →
    Begins returnsVoid st.tokens
  | .assign _ value, _ => ⟨_, _, _, rfl, rfl, fun _ _ _ => assign_fits value⟩
  | .assignElement _ index value, _ =>
    ⟨_, _, _, rfl, rfl, fun _ _ _ => assignElement_fits index value⟩
  | .ifThen condition body, h => by
    refine ⟨_, _, _, rfl, rfl, fun stack w hw => ?_⟩
    rw [List.append_assoc, List.append_assoc, List.append_assoc, condition_fits,
      block_fits body h]
    exact pass_elseTail hw
  | .ifElse condition body otherwise, h => by
    have helse : (Item.elseTail returnsVoid).expand (.keyword .elseWord) =
      some (braces [.statements returnsVoid]) := rfl
    refine ⟨_, _, _, rfl, rfl, fun stack w _ => ?_⟩
    rw [List.append_assoc, List.append_assoc, List.append_assoc, condition_fits,
      List.append_assoc, block_fits body h.1]
    exact (misfit_expand helse).trans (block_fits otherwise h.2)
  | .whileLoop condition body, h => by
    refine ⟨_, _, _, rfl, rfl, fun stack w _ => ?_⟩
    rw [List.append_assoc, List.append_assoc, condition_fits]
    exact block_fits body h
  | .run call, _ => by
    obtain ⟨name, rest, ht, hs⟩ := call_fits call
    refine ⟨.doWord, _, _, by rw [Statement.tokens, ht], rfl, fun stack w _ => ?_⟩
    rw [List.append_assoc]
    exact misfit_name.trans ((hs _ _).trans misfit_symbol)
  | .leave none, h => by
    have hend : (Item.returnTail returnsVoid).expand (.symbol ';') = some [] := if_pos h
    exact ⟨_, _, _, rfl, rfl, fun _ _ _ => misfit_take hend⟩
  | .leave (some value), _ => ⟨_, _, _, rfl, rfl, fun _ _ _ => returnValue_fits value⟩
theorem block_fits : (body : List Statement) → Statements.Leaves returnsVoid body →
    {stack : List Item} → {w : List TokenKind} →
    misfit (braces [.statements returnsVoid] ++ stack)
      (inBraces (Statements.tokens body) ++ w) = misfit stack w
  | body, h, _, _ => misfit_braces fun _ _ => statements_fit body h
theorem statements_fit : (body : List Statement) → Statements.Leaves returnsVoid body →
    {stack : List Item} → {w : List TokenKind} →
    misfit (.statements returnsVoid :: symbol '}' :: stack)
      (Statements.tokens body ++ .symbol '}' :: w) = misfit stack w
  | [], _, _, _ => (misfit_pass rfl (by rintro _ ⟨⟩; rfl)).trans misfit_symbol
  | first :: others, h, _, w => by
    have hc : Clear [.keyword .elseWord] (Statements.tokens others ++ .symbol '}' :: w) := by
      cases others with
      | nil => exact clear_cons (by decide)
      | cons next others =>
        rw [Statements.tokens, List.append_assoc]
        exact (statement_begins next h.2.1).clear
    rw [Statements.tokens, List.append_assoc]
    exact ((statement_begins first h.1).fits hc).trans (statements_fit others h.2)
end

-- ---------------------------------------------------------------------------
-- Classes
-- ---------------------------------------------------------------------------

theorem startsType_token (type : TypeName) : startsType type.token = true := by
  cases type <;> rfl

theorem type_fits (type : TypeName) :
    misfit (.type :: stack) (type.token :: w) = misfit stack w :=
  misfit_take (if_pos (startsType_token type))

theorem names_fit (names : List String) :
    misfit (.moreNames :: symbol ';' :: stack)
      (names.flatMap (fun name => [.symbol ',', .identifier name]) ++ .symbol ';' :: w) =
        misfit stack w := by
  induction names with
  | nil => exact (misfit_pass rfl (by rintro _ ⟨⟩; rfl)).trans misfit_symbol
  | cons name names ih =>
    have h : Item.moreNames.expand (.symbol ',') = some [.name, .moreNames] := rfl
    rw [List.flatMap_cons, List.append_assoc, List.cons_append, misfit_expand h]
    exact misfit_name.trans ih

theorem declarators_fit (d : Declarators) :
    misfit (declaratorItems ++ stack) (d.tokens ++ w) = misfit stack w := by
  simp only [declaratorItems, Declarators.tokens, List.cons_append, List.nil_append,
    List.append_assoc]
  rw [type_fits, misfit_name]
  exact names_fit d.others

theorem classVariables_fit (vars : List ClassVariables) :
    misfit (.classVariables :: stack) (vars.flatMap ClassVariables.tokens ++ w) =
      misfit (.classVariables :: stack) w := by
  induction vars with
  | nil => rfl
  | cons first others ih =>
    have h : Item.classVariables.expand (.keyword first.storage.word) =
        some (declaratorItems ++ [.classVariables]) := by
      cases first.storage <;> rfl
    rw [List.flatMap_cons, List.append_assoc, ClassVariables.tokens, List.cons_append,
      misfit_expand h, List.append_assoc, declarators_fit]
    exact ih

theorem locals_fit (ds : List Declarators) :
    misfit (.locals :: stack) (ds.flatMap (fun d => .keyword .varWord :: d.tokens) ++ w) =
      misfit (.locals :: stack) w := by
  induction ds with
  | nil => rfl
  | cons first others ih =>
    have h : Item.locals.expand (.keyword .varWord) = some (declaratorItems ++ [.locals]) := rfl
    rw [List.flatMap_cons, List.append_assoc, List.cons_append, misfit_expand h,
      List.append_assoc, declarators_fit]
    exact ih

theorem moreParameters_fit (ps : List Parameter) :
    misfit (.moreParameters :: symbol ')' :: stack)
      (ps.flatMap (fun p => .symbol ',' :: p.tokens) ++ .symbol ')' :: w) = misfit stack w := by
  induction ps with
  | nil => exact (misfit_pass rfl (by rintro _ ⟨⟩; rfl)).trans misfit_symbol
  | cons first others ih =>
    have h : Item.moreParameters.expand (.symbol ',') =
      some [.type, .name, .moreParameters] := rfl
    rw [List.flatMap_cons, List.append_assoc, List.cons_append, misfit_expand h]
    exact (type_fits first.type).trans (misfit_name.trans ih)

theorem parameters_fit (ps : List Parameter) :
    misfit (.parameters :: symbol ')' :: stack) (Parameters.tokens ps ++ .symbol ')' :: w) =
      misfit stack w := by
  cases ps with
  | nil => exact (misfit_pass rfl (by rintro _ ⟨⟩; rfl)).trans misfit_symbol
  | cons first others =>
    have h : Item.parameters.expand first.type.token = some [.name, .moreParameters] :=
      if_pos (startsType_token first.type)
    rw [Parameters.tokens, List.append_assoc, Parameter.tokens, List.cons_append,
      misfit_expand h]
    exact misfit_name.trans (moreParameters_fit others)

theorem body_fits (locals : List Declarators) {body : List Statement}
    (h : Statements.Leaves returnsVoid body) :
    misfit (braces [.locals, .statements returnsVoid] ++ stack) (bodyTokens locals body ++ w) =
      misfit stack w := by
  refine misfit_braces fun stack w => ?_
  have hc : ∀ t ∈ (Statements.tokens body ++ .symbol '}' :: w).head?,
      Item.locals.expand t = none := by
    intro t ht
    cases body with
    | nil =>
      cases ht
      rfl
    | cons first others =>
      obtain ⟨word, rest, items, hk, hi, -⟩ := statement_begins first h.1
      rw [Statements.tokens, hk] at ht
      cases ht
      refine if_neg fun hw => ?_
      cases hw
      cases hi
  rw [List.append_assoc]
  exact (locals_fit locals).trans ((misfit_pass rfl hc).trans (statements_fit body h))

theorem subroutine_fits {sub : Subroutine} (h : sub.Leaves) :
    misfit (.subroutines :: stack) (sub.tokens ++ w) = misfit (.subroutines :: stack) w := by
  have hword : Item.subroutines.expand (.keyword (kindWord sub.kind)) =
      some [.signature, .subroutines] := by
    cases sub.kind <;> rfl
  have hreturn : Item.signature.expand (returnToken sub.returnType) =
      some (subroutineItems sub.returnType.isNone) := by
    cases sub.returnType with
    | none => rfl
    | some type => cases type <;> rfl
  rw [Subroutine.tokens, List.cons_append, misfit_expand hword]
  show misfit (.signature :: .subroutines :: stack) (returnToken sub.returnType ::
    .identifier sub.name :: (inParens (Parameters.tokens sub.parameters) ++
      bodyTokens sub.locals sub.body ++ w)) = _
  rw [misfit_expand hreturn, subroutineItems, List.cons_append, misfit_name, List.append_assoc,
    List.append_assoc, misfit_parens fun _ _ => parameters_fit sub.parameters]
  exact body_fits sub.locals h

theorem subroutines_fit {subs : List Subroutine} (h : ∀ s ∈ subs, s.Leaves) :
    misfit (.subroutines :: stack) (subs.flatMap Subroutine.tokens ++ w) =
      misfit (.subroutines :: stack) w := by
  induction subs with
  | nil => rfl
  | cons first others ih =>
    obtain ⟨hf, ho⟩ := List.forall_mem_cons.mp h
    rw [List.flatMap_cons, List.append_assoc, subroutine_fits hf, ih ho]

theorem sentence_fits (h : Sentence kinds) : misfit classItems kinds = none := by
  obtain ⟨c, hl, rfl⟩ := h
  have hbraces : misfit (braces [.classVariables, .subroutines] ++ [])
      (inBraces (c.vars.flatMap ClassVariables.tokens ++
        c.subroutines.flatMap Subroutine.tokens) ++ []) = misfit [] [] := by
    refine misfit_braces fun stack w => ?_
    have hc : ∀ t ∈ (c.subroutines.flatMap Subroutine.tokens ++ TokenKind.symbol '}' :: w).head?,
        Item.classVariables.expand t = none := by
      intro t ht
      cases hs : c.subroutines with
      | nil =>
        rw [hs] at ht
        cases ht
        rfl
      | cons first others =>
        rw [hs] at ht
        cases ht
        cases first.kind <;> rfl
    rw [List.append_assoc]
    refine (classVariables_fit c.vars).trans ((misfit_pass rfl hc).trans ?_)
    refine (subroutines_fit hl).trans ((misfit_pass rfl ?_).trans misfit_symbol)
    rintro _ ⟨⟩
    rfl
  rw [List.append_nil, List.append_nil] at hbraces
  rw [classItems, JackClass.tokens, misfit_kind, misfit_name, hbraces]
  rfl

end Prediction

end JackVM
