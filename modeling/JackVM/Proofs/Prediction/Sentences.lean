import JackVM.Proofs.Prediction.Table
import JackVM.Proofs.Syntax.Tree

/-!
# Every stack can be completed

What the table predicts is what the trees spell: each item stands for the
tokens of some part of a tree, and replacing an item by what follows its first
token is right for such parts. So whatever the table lets through is the
beginning of a class.
-/

namespace JackVM

namespace Syntax

mutual
/-- A bare `return` stands only where no value is returned. -/
def Statement.Leaves (returnsVoid : Bool) : Statement → Prop
  | .assign _ _ | .assignElement _ _ _ | .run _ | .leave (some _) => True
  | .leave none => returnsVoid = true
  | .ifThen _ body | .whileLoop _ body => Statements.Leaves returnsVoid body
  | .ifElse _ body otherwise =>
    Statements.Leaves returnsVoid body ∧ Statements.Leaves returnsVoid otherwise
def Statements.Leaves (returnsVoid : Bool) : List Statement → Prop
  | [] => True
  | first :: others => first.Leaves returnsVoid ∧ Statements.Leaves returnsVoid others
end

def Subroutine.Leaves (s : Subroutine) : Prop := Statements.Leaves s.returnType.isNone s.body

end Syntax

open Syntax

/-- The tokens of a class in which a bare `return;` stands in void subroutines
only. -/
def Sentence (kinds : List TokenKind) : Prop :=
  ∃ c : JackClass, (∀ s ∈ c.subroutines, s.Leaves) ∧ c.tokens = kinds

/-- The tokens can be continued to a class. -/
def Viable (kinds : List TokenKind) : Prop := ∃ more, Sentence (kinds ++ more)

namespace Prediction

open Compile (SubroutineKind)

/-- What an item stands for. An item that ends a construct stands for what makes
a construct of any beginning. -/
def Item.Spells (item : Item) (w : List TokenKind) : Prop :=
  match item with
  | .kind expected => w = [expected]
  | .name => ∃ name, w = [.identifier name]
  | .type => ∃ type : TypeName, w = [type.token]
  | .classVariables => ∃ vars : List ClassVariables, w = vars.flatMap ClassVariables.tokens
  | .moreNames =>
    ∃ names : List String, w = names.flatMap fun name => [.symbol ',', .identifier name]
  | .subroutines =>
    ∃ subs : List Subroutine, (∀ s ∈ subs, s.Leaves) ∧ w = subs.flatMap Subroutine.tokens
  | .signature =>
    ∀ kind, ∃ s : Subroutine, s.Leaves ∧ s.tokens = .keyword (kindWord kind) :: w
  | .parameters => ∃ ps, w = Parameters.tokens ps
  | .moreParameters => ∃ ps : List Parameter, w = ps.flatMap fun p => .symbol ',' :: p.tokens
  | .locals => ∃ ds : List Declarators, w = ds.flatMap fun d => .keyword .varWord :: d.tokens
  | .statements returnsVoid =>
    ∃ body, Statements.Leaves returnsVoid body ∧ w = Statements.tokens body
  | .letTail =>
    ∀ target, ∃ st : Statement, (∀ returnsVoid, st.Leaves returnsVoid) ∧
      st.tokens = .keyword .letWord :: .identifier target :: w
  | .elseTail returnsVoid =>
    ∀ (condition : Expression) (body : List Statement), Statements.Leaves returnsVoid body →
      ∃ st : Statement, st.Leaves returnsVoid ∧ st.tokens = .keyword .ifWord ::
        (inParens condition.tokens ++ (inBraces (Statements.tokens body) ++ w))
  | .returnTail returnsVoid =>
    ∃ st : Statement, st.Leaves returnsVoid ∧ st.tokens = .keyword .returnWord :: w
  | .callTail => ∀ name, ∃ c : Call, c.tokens = .identifier name :: w
  | .arguments => ∃ args, w = Arguments.tokens args
  | .moreArguments => ∃ args, w = Arguments.moreTokens args
  | .term | .simpleTerm => ∃ e : Term, w = e.tokens
  | .termTail | .index => ∀ name, ∃ e : Term, e.tokens = .identifier name :: w
  | .factors => ∀ o : Operand, ∃ o' : Operand, o'.tokens = o.tokens ++ w
  | .operands => ∀ e : Expression, ∃ e' : Expression, e'.tokens = e.tokens ++ w

def Spells : List Item → List TokenKind → Prop
  | [], w => w = []
  | item :: stack, w => ∃ u v, item.Spells u ∧ Spells stack v ∧ w = u ++ v

variable {item : Item} {items stack after : List Item} {kind t : TokenKind}
  {u v w : List TokenKind} {returnsVoid : Bool}

-- ---------------------------------------------------------------------------
-- Parts of a stack
-- ---------------------------------------------------------------------------

theorem spells_append :
    Spells (items ++ stack) w ↔ ∃ u v, Spells items u ∧ Spells stack v ∧ w = u ++ v := by
  induction items generalizing w with
  | nil => simp [Spells]
  | cons item items ih =>
    simp only [List.cons_append, Spells, ih]
    constructor
    · rintro ⟨u, _, hu, ⟨v, v', hv, hv', rfl⟩, rfl⟩
      exact ⟨u ++ v, v', ⟨u, v, hu, hv, rfl⟩, hv', (List.append_assoc ..).symm⟩
    · rintro ⟨_, v', ⟨u, v, hu, hv, rfl⟩, hv', rfl⟩
      exact ⟨u, v ++ v', hu, ⟨v, v', hv, hv', rfl⟩, List.append_assoc ..⟩

theorem spells_singleton : Spells [item] w ↔ item.Spells w := by
  constructor
  · rintro ⟨u, _, hu, rfl, rfl⟩
    rwa [List.append_nil]
  · exact fun h => ⟨w, [], h, rfl, (List.append_nil w).symm⟩

theorem spells_kind : Spells (.kind kind :: stack) w ↔ ∃ v, Spells stack v ∧ w = kind :: v := by
  constructor
  · rintro ⟨_, v, rfl, hv, rfl⟩
    exact ⟨v, hv, rfl⟩
  · rintro ⟨v, hv, rfl⟩
    exact ⟨[kind], v, rfl, hv, rfl⟩

theorem spells_symbol {c : Char} :
    Spells (symbol c :: stack) w ↔ ∃ v, Spells stack v ∧ w = .symbol c :: v := spells_kind

theorem spells_name :
    Spells (.name :: stack) w ↔ ∃ name v, Spells stack v ∧ w = .identifier name :: v := by
  constructor
  · rintro ⟨_, v, ⟨name, rfl⟩, hv, rfl⟩
    exact ⟨name, v, hv, rfl⟩
  · rintro ⟨name, v, hv, rfl⟩
    exact ⟨[.identifier name], v, ⟨name, rfl⟩, hv, rfl⟩

theorem spells_close {c : Char} :
    Spells (items ++ [symbol c]) w ↔ ∃ u, Spells items u ∧ w = u ++ [.symbol c] := by
  rw [spells_append]
  constructor
  · rintro ⟨u, _, hu, hv, rfl⟩
    obtain ⟨_, rfl, rfl⟩ := spells_symbol.mp hv
    exact ⟨u, hu, rfl⟩
  · rintro ⟨u, hu, rfl⟩
    exact ⟨u, _, hu, spells_symbol.mpr ⟨[], rfl, rfl⟩, rfl⟩

theorem spells_parens : Spells (parens items) w ↔ ∃ u, Spells items u ∧ w = inParens u := by
  rw [parens, spells_symbol]
  constructor
  · rintro ⟨_, hv, rfl⟩
    obtain ⟨u, hu, rfl⟩ := spells_close.mp hv
    exact ⟨u, hu, rfl⟩
  · rintro ⟨u, hu, rfl⟩
    exact ⟨_, spells_close.mpr ⟨u, hu, rfl⟩, rfl⟩

theorem spells_braces : Spells (braces items) w ↔ ∃ u, Spells items u ∧ w = inBraces u := by
  rw [braces, spells_symbol]
  constructor
  · rintro ⟨_, hv, rfl⟩
    obtain ⟨u, hu, rfl⟩ := spells_close.mp hv
    exact ⟨u, hu, rfl⟩
  · rintro ⟨u, hu, rfl⟩
    exact ⟨_, spells_close.mpr ⟨u, hu, rfl⟩, rfl⟩

-- ---------------------------------------------------------------------------
-- Expressions
-- ---------------------------------------------------------------------------

theorem spells_chain {e : Term} (h : Spells [.factors, .operands] w) :
    ∃ value : Expression, value.tokens = e.tokens ++ w := by
  obtain ⟨u, _, hu, hv, rfl⟩ := h
  rw [spells_singleton] at hv
  obtain ⟨o, ho⟩ := hu (.term e)
  obtain ⟨value, hvalue⟩ := hv (.operand o)
  exact ⟨value, by rw [hvalue, Expression.tokens, ho, Operand.tokens, List.append_assoc]⟩

theorem spells_expression (h : Spells expressionItems w) :
    ∃ value : Expression, value.tokens = w := by
  obtain ⟨_, v, ⟨e, rfl⟩, hv, rfl⟩ := h
  exact spells_chain hv

theorem spells_index (h : Spells indexItems w) :
    ∃ index : Expression, w = index.tokens ++ [.symbol ']'] := by
  obtain ⟨_, hu, rfl⟩ := spells_close.mp h
  obtain ⟨index, rfl⟩ := spells_expression hu
  exact ⟨index, rfl⟩

theorem spells_call (h : callItems t = some items) (hw : Spells items w) (name : String) :
    ∃ c : Call, c.tokens = .identifier name :: t :: w := by
  unfold callItems at h
  split at h
  · next ht =>
    cases h
    subst ht
    obtain ⟨_, _, ⟨args, rfl⟩, hv, rfl⟩ := hw
    obtain ⟨_, rfl, rfl⟩ := spells_symbol.mp hv
    exact ⟨.mk (.own name) args, rfl⟩
  · split at h
    · next ht =>
      cases h
      subst ht
      obtain ⟨method, _, hv, rfl⟩ := spells_name.mp hw
      obtain ⟨_, hu, rfl⟩ := spells_parens.mp hv
      obtain ⟨args, rfl⟩ := spells_singleton.mp hu
      exact ⟨.mk (.member name method) args, rfl⟩
    · cases h

theorem spells_term (tail : Item) (htail : ∀ w, tail.Spells w ↔ Item.termTail.Spells w)
    (h : termItems tail t = some items) (hw : Spells items w) :
    ∃ e : Term, e.tokens = t :: w := by
  unfold termItems at h
  split at h
  case h_1 value => cases h; cases hw; exact ⟨.integer value, rfl⟩
  case h_2 value => cases h; cases hw; exact ⟨.string value, rfl⟩
  case h_3 => cases h; cases hw; exact ⟨.constant .true, rfl⟩
  case h_4 => cases h; cases hw; exact ⟨.constant .false, rfl⟩
  case h_5 => cases h; cases hw; exact ⟨.constant .null, rfl⟩
  case h_6 => cases h; cases hw; exact ⟨.constant .this, rfl⟩
  case h_7 name => cases h; exact (htail w).mp (spells_singleton.mp hw) name
  case h_8 =>
    cases h
    obtain ⟨_, hu, rfl⟩ := spells_close.mp hw
    obtain ⟨inner, rfl⟩ := spells_expression hu
    exact ⟨.group inner, rfl⟩
  case h_9 =>
    cases h
    obtain ⟨operand, rfl⟩ := spells_singleton.mp hw
    exact ⟨.unary .neg operand, rfl⟩
  case h_10 =>
    cases h
    obtain ⟨operand, rfl⟩ := spells_singleton.mp hw
    exact ⟨.unary .not operand, rfl⟩
  case h_11 => cases h

-- ---------------------------------------------------------------------------
-- Statements and declarations
-- ---------------------------------------------------------------------------

theorem spells_block (h : Spells (braces [.statements returnsVoid]) w) :
    ∃ body, Statements.Leaves returnsVoid body ∧ w = inBraces (Statements.tokens body) := by
  obtain ⟨_, hu, rfl⟩ := spells_braces.mp h
  obtain ⟨body, hb, rfl⟩ := spells_singleton.mp hu
  exact ⟨body, hb, rfl⟩

theorem spells_condition (h : Spells (parens expressionItems) w) :
    ∃ condition : Expression, w = inParens condition.tokens := by
  obtain ⟨_, hu, rfl⟩ := spells_parens.mp h
  obtain ⟨condition, rfl⟩ := spells_expression hu
  exact ⟨condition, rfl⟩

theorem spells_statement {word : Keyword} (h : statementItems returnsVoid word = some items)
    (hw : Spells items w) :
    ∃ st : Statement, st.Leaves returnsVoid ∧ st.tokens = .keyword word :: w := by
  cases word with
  | letWord =>
    cases h
    obtain ⟨target, _, hv, rfl⟩ := spells_name.mp hw
    obtain ⟨st, hl, ht⟩ := spells_singleton.mp hv target
    exact ⟨st, hl _, ht⟩
  | ifWord =>
    cases h
    obtain ⟨_, _, hu, hv, rfl⟩ := spells_append.mp hw
    obtain ⟨_, _, hc, hb, rfl⟩ := spells_append.mp hu
    obtain ⟨condition, rfl⟩ := spells_condition hc
    obtain ⟨body, hbody, rfl⟩ := spells_block hb
    obtain ⟨st, hl, ht⟩ := spells_singleton.mp hv condition body hbody
    exact ⟨st, hl, by rw [ht, List.append_assoc]⟩
  | whileWord =>
    cases h
    obtain ⟨_, _, hc, hb, rfl⟩ := spells_append.mp hw
    obtain ⟨condition, rfl⟩ := spells_condition hc
    obtain ⟨body, hbody, rfl⟩ := spells_block hb
    exact ⟨.whileLoop condition body, hbody, rfl⟩
  | doWord =>
    cases h
    obtain ⟨name, _, hv, rfl⟩ := spells_name.mp hw
    obtain ⟨_, _, hc, hend, rfl⟩ := hv
    obtain ⟨_, rfl, rfl⟩ := spells_symbol.mp hend
    obtain ⟨call, hcall⟩ := hc name
    exact ⟨.run call, trivial, by rw [Statement.tokens, hcall]; rfl⟩
  | returnWord =>
    cases h
    exact spells_singleton.mp hw
  | _ => cases h

theorem spells_declarators (h : Spells declaratorItems w) :
    ∃ d : Declarators, w = d.tokens := by
  obtain ⟨_, _, ⟨type, rfl⟩, hname, rfl⟩ := h
  obtain ⟨first, _, hmore, rfl⟩ := spells_name.mp hname
  obtain ⟨_, _, ⟨others, rfl⟩, hend, rfl⟩ := hmore
  obtain ⟨_, rfl, rfl⟩ := spells_symbol.mp hend
  exact ⟨⟨type, first, others⟩, rfl⟩

theorem type_of_startsType (h : startsType t = true) : ∃ type : TypeName, t = type.token := by
  unfold startsType at h
  split at h
  case h_1 => exact ⟨.int, rfl⟩
  case h_2 => exact ⟨.char, rfl⟩
  case h_3 => exact ⟨.boolean, rfl⟩
  case h_4 name => exact ⟨.named name, rfl⟩
  case h_5 => cases h

theorem spells_subroutine (returnType : Option TypeName)
    (h : Spells (subroutineItems returnType.isNone) w) :
    Item.signature.Spells (returnToken returnType :: w) := by
  intro kind
  obtain ⟨name, _, hrest, rfl⟩ := spells_name.mp h
  obtain ⟨_, _, hparens, hbraces, rfl⟩ := spells_append.mp hrest
  obtain ⟨_, hp, rfl⟩ := spells_parens.mp hparens
  obtain ⟨parameters, rfl⟩ := spells_singleton.mp hp
  obtain ⟨_, hinner, rfl⟩ := spells_braces.mp hbraces
  obtain ⟨_, _, ⟨locals, rfl⟩, hbody, rfl⟩ := hinner
  obtain ⟨body, hl, rfl⟩ := spells_singleton.mp hbody
  exact ⟨⟨kind, returnType, name, parameters, locals, body⟩, hl, rfl⟩

theorem word?_eq {word : Keyword} (h : word? t = some word) : t = .keyword word := by
  cases t with
  | keyword word' =>
    obtain rfl := Option.some_inj.mp h
    rfl
  | _ => nomatch h

theorem char?_eq {c : Char} (h : char? t = some c) : t = .symbol c := by
  cases t with
  | symbol c' =>
    obtain rfl := Option.some_inj.mp h
    rfl
  | _ => nomatch h

theorem operator_eq {level : OperatorLevel} {op : BinaryOperator}
    (h : (char? t).bind (BinaryOperator.ofSymbol? level) = some op) :
    op.level = level ∧ t = .symbol op.symbol := by
  obtain ⟨c, hc, ho⟩ := Option.bind_eq_some_iff.mp h
  obtain ⟨hl, hs⟩ := BinaryOperator.level_symbol_of_ofSymbol? ho
  exact ⟨hl, by rw [char?_eq hc, hs]⟩

-- ---------------------------------------------------------------------------
-- Items
-- ---------------------------------------------------------------------------

theorem Item.spells_nil (h : item.nullable = true) : item.Spells [] := by
  cases item with
  | classVariables => exact ⟨[], rfl⟩
  | moreNames => exact ⟨[], rfl⟩
  | subroutines => exact ⟨[], nofun, rfl⟩
  | parameters => exact ⟨[], rfl⟩
  | moreParameters => exact ⟨[], rfl⟩
  | locals => exact ⟨[], rfl⟩
  | statements returnsVoid => exact ⟨[], trivial, rfl⟩
  | elseTail returnsVoid => exact fun c body h => ⟨.ifThen c body, h, by simp [Statement.tokens]⟩
  | arguments => exact ⟨[], rfl⟩
  | moreArguments => exact ⟨[], rfl⟩
  | termTail => exact fun name => ⟨.variable name, rfl⟩
  | index => exact fun name => ⟨.variable name, rfl⟩
  | factors => exact fun o => ⟨o, (List.append_nil _).symm⟩
  | operands => exact fun e => ⟨e, (List.append_nil _).symm⟩
  | _ => cases h

/-- What may follow the first token of an item makes the item. -/
theorem spells_expand (h : item.expand t = some items) (hw : Spells items w) :
    item.Spells (t :: w) := by
  cases item with
  | kind expected =>
    obtain ⟨rfl, ⟨⟩⟩ := Option.ite_none_right_eq_some.mp h
    cases hw
    rfl
  | name =>
    obtain ⟨ht, ⟨⟩⟩ := Option.ite_none_right_eq_some.mp h
    cases hw
    cases t <;> cases ht
    exact ⟨_, rfl⟩
  | type =>
    obtain ⟨ht, ⟨⟩⟩ := Option.ite_none_right_eq_some.mp h
    cases hw
    obtain ⟨type, rfl⟩ := type_of_startsType ht
    exact ⟨type, rfl⟩
  | classVariables =>
    obtain ⟨kind, hk, rfl⟩ := Option.map_eq_some_iff.mp h
    obtain ⟨word, ht, hk⟩ := Option.bind_eq_some_iff.mp hk
    obtain ⟨_, _, hd, hv, rfl⟩ := spells_append.mp hw
    obtain ⟨d, rfl⟩ := spells_declarators hd
    obtain ⟨vars, rfl⟩ := spells_singleton.mp hv
    rw [word?_eq ht]
    cases word with
    | staticWord => exact ⟨⟨.static, d⟩ :: vars, rfl⟩
    | fieldWord => exact ⟨⟨.field, d⟩ :: vars, rfl⟩
    | _ => cases hk
  | moreNames =>
    obtain ⟨rfl, ⟨⟩⟩ := Option.ite_none_right_eq_some.mp h
    obtain ⟨name, _, hv, rfl⟩ := spells_name.mp hw
    obtain ⟨names, rfl⟩ := spells_singleton.mp hv
    exact ⟨name :: names, rfl⟩
  | subroutines =>
    obtain ⟨kind, hk, rfl⟩ := Option.map_eq_some_iff.mp h
    obtain ⟨word, ht, hk⟩ := Option.bind_eq_some_iff.mp hk
    obtain ⟨_, _, hu, hv, rfl⟩ := hw
    obtain ⟨sub, hs, htokens⟩ := hu kind
    obtain ⟨subs, hsubs, rfl⟩ := spells_singleton.mp hv
    have hword : word = kindWord kind := by cases word <;> cases hk <;> rfl
    refine ⟨sub :: subs, List.forall_mem_cons.mpr ⟨hs, hsubs⟩, ?_⟩
    rw [List.flatMap_cons, htokens, word?_eq ht, hword]
    rfl
  | signature =>
    simp only [Item.expand] at h
    split at h
    · next ht =>
      cases h
      subst ht
      exact spells_subroutine none hw
    · obtain ⟨ht, ⟨⟩⟩ := Option.ite_none_right_eq_some.mp h
      obtain ⟨type, rfl⟩ := type_of_startsType ht
      exact spells_subroutine (some type) hw
  | parameters =>
    obtain ⟨ht, ⟨⟩⟩ := Option.ite_none_right_eq_some.mp h
    obtain ⟨type, rfl⟩ := type_of_startsType ht
    obtain ⟨name, _, hv, rfl⟩ := spells_name.mp hw
    obtain ⟨others, rfl⟩ := spells_singleton.mp hv
    exact ⟨⟨type, name⟩ :: others, rfl⟩
  | moreParameters =>
    obtain ⟨rfl, ⟨⟩⟩ := Option.ite_none_right_eq_some.mp h
    obtain ⟨_, _, ⟨type, rfl⟩, hname, rfl⟩ := hw
    obtain ⟨name, _, hv, rfl⟩ := spells_name.mp hname
    obtain ⟨others, rfl⟩ := spells_singleton.mp hv
    exact ⟨⟨type, name⟩ :: others, rfl⟩
  | locals =>
    obtain ⟨rfl, ⟨⟩⟩ := Option.ite_none_right_eq_some.mp h
    obtain ⟨_, _, hd, hv, rfl⟩ := spells_append.mp hw
    obtain ⟨d, rfl⟩ := spells_declarators hd
    obtain ⟨others, rfl⟩ := spells_singleton.mp hv
    exact ⟨d :: others, rfl⟩
  | statements returnsVoid =>
    obtain ⟨first, hf, rfl⟩ := Option.map_eq_some_iff.mp h
    obtain ⟨word, ht, hf⟩ := Option.bind_eq_some_iff.mp hf
    obtain ⟨_, _, hu, hv, rfl⟩ := spells_append.mp hw
    obtain ⟨st, hl, hst⟩ := spells_statement hf hu
    obtain ⟨body, hb, rfl⟩ := spells_singleton.mp hv
    exact ⟨st :: body, ⟨hl, hb⟩, by rw [Statements.tokens, hst, word?_eq ht]; rfl⟩
  | letTail =>
    intro target
    simp only [Item.expand] at h
    split at h
    · next ht =>
      cases h
      subst ht
      obtain ⟨_, hv, rfl⟩ := spells_close.mp hw
      obtain ⟨value, rfl⟩ := spells_expression hv
      exact ⟨.assign target value, fun _ => trivial, rfl⟩
    · obtain ⟨rfl, ⟨⟩⟩ := Option.ite_none_right_eq_some.mp h
      obtain ⟨_, _, hi, hv, rfl⟩ := spells_append.mp hw
      obtain ⟨index, rfl⟩ := spells_index hi
      obtain ⟨_, hend, rfl⟩ := spells_symbol.mp hv
      obtain ⟨_, hvalue, rfl⟩ := spells_close.mp hend
      obtain ⟨value, rfl⟩ := spells_expression hvalue
      exact ⟨.assignElement target index value, fun _ => trivial, by simp [Statement.tokens]⟩
  | elseTail returnsVoid =>
    obtain ⟨rfl, ⟨⟩⟩ := Option.ite_none_right_eq_some.mp h
    obtain ⟨otherwise, ho, rfl⟩ := spells_block hw
    exact fun condition body hb => ⟨.ifElse condition body otherwise, ⟨hb, ho⟩, rfl⟩
  | returnTail returnsVoid =>
    simp only [Item.expand] at h
    split at h
    · next ht =>
      obtain ⟨hvoid, ⟨⟩⟩ := Option.ite_none_right_eq_some.mp h
      subst ht
      cases hw
      exact ⟨.leave none, hvoid, rfl⟩
    · obtain ⟨first, hf, rfl⟩ := Option.map_eq_some_iff.mp h
      obtain ⟨_, _, hu, hv, rfl⟩ := spells_append.mp hw
      obtain ⟨e, he⟩ := spells_term .termTail (fun _ => .rfl) hf hu
      obtain ⟨_, hc, rfl⟩ := spells_close.mp
        (show Spells ([.factors, .operands] ++ [symbol ';']) _ from hv)
      obtain ⟨value, hvalue⟩ := spells_chain (e := e) hc
      refine ⟨.leave (some value), trivial, ?_⟩
      rw [Statement.tokens, hvalue, he, List.cons_append, List.cons_append, List.append_assoc]
  | callTail => exact spells_call h hw
  | arguments =>
    obtain ⟨first, hf, rfl⟩ := Option.map_eq_some_iff.mp h
    obtain ⟨_, _, hu, hv, rfl⟩ := spells_append.mp hw
    obtain ⟨e, he⟩ := spells_term .termTail (fun _ => .rfl) hf hu
    obtain ⟨_, _, hc, hm, rfl⟩ := spells_append.mp
      (show Spells ([.factors, .operands] ++ [.moreArguments]) _ from hv)
    obtain ⟨value, hvalue⟩ := spells_chain (e := e) hc
    obtain ⟨others, rfl⟩ := spells_singleton.mp hm
    refine ⟨value :: others, ?_⟩
    rw [Arguments.tokens, hvalue, he, List.cons_append, List.cons_append, List.append_assoc]
  | moreArguments =>
    obtain ⟨rfl, ⟨⟩⟩ := Option.ite_none_right_eq_some.mp h
    obtain ⟨_, _, hu, hv, rfl⟩ := spells_append.mp hw
    obtain ⟨next, rfl⟩ := spells_expression hu
    obtain ⟨others, rfl⟩ := spells_singleton.mp hv
    exact ⟨next :: others, rfl⟩
  | term =>
    obtain ⟨e, he⟩ := spells_term .termTail (fun _ => .rfl) h hw
    exact ⟨e, he.symm⟩
  | termTail =>
    intro name
    simp only [Item.expand] at h
    split at h
    · next ht =>
      cases h
      subst ht
      obtain ⟨index, rfl⟩ := spells_index hw
      exact ⟨.element name index, rfl⟩
    · obtain ⟨c, hc⟩ := spells_call h hw name
      exact ⟨.call c, hc⟩
  | simpleTerm =>
    obtain ⟨e, he⟩ := spells_term .index (fun _ => .rfl) h hw
    exact ⟨e, he.symm⟩
  | index =>
    obtain ⟨rfl, ⟨⟩⟩ := Option.ite_none_right_eq_some.mp h
    obtain ⟨index, rfl⟩ := spells_index hw
    exact fun name => ⟨.element name index, rfl⟩
  | factors =>
    obtain ⟨op, ho, rfl⟩ := Option.map_eq_some_iff.mp h
    obtain ⟨hl, rfl⟩ := operator_eq ho
    obtain ⟨_, _, ⟨right, rfl⟩, hv, rfl⟩ := hw
    intro o
    obtain ⟨o', ho'⟩ := spells_singleton.mp hv (.product o ⟨op, hl⟩ right)
    exact ⟨o', by rw [ho', Operand.tokens]; simp⟩
  | operands =>
    obtain ⟨op, ho, rfl⟩ := Option.map_eq_some_iff.mp h
    obtain ⟨hl, rfl⟩ := operator_eq ho
    obtain ⟨_, _, ⟨right, rfl⟩, hv, rfl⟩ := hw
    obtain ⟨_, _, hf, hrest, rfl⟩ := hv
    intro e
    obtain ⟨o, hfactors⟩ := hf (.term right)
    obtain ⟨e', he'⟩ := spells_singleton.mp hrest (.sum e ⟨op, hl⟩ o)
    exact ⟨e', by rw [he', Expression.tokens, hfactors, Operand.tokens]; simp⟩

theorem exists_spells (item : Item) : ∃ w, item.Spells w := by
  cases item with
  | kind expected => exact ⟨[expected], rfl⟩
  | name => exact ⟨_, "x", rfl⟩
  | type => exact ⟨_, .int, rfl⟩
  | signature =>
    exact ⟨(⟨.function, none, "f", [], [], []⟩ : Subroutine).tokens.tail,
      fun kind => ⟨⟨kind, none, "f", [], [], []⟩, trivial, rfl⟩⟩
  | letTail =>
    exact ⟨_, fun target => ⟨.assign target (.operand (.term (.integer 0))), fun _ => trivial, rfl⟩⟩
  | returnTail returnsVoid =>
    exact ⟨_, .leave (some (.operand (.term (.integer 0)))), trivial, rfl⟩
  | callTail => exact ⟨_, fun name => ⟨.mk (.own name) [], rfl⟩⟩
  | term | simpleTerm => exact ⟨_, .integer 0, rfl⟩
  | _ => exact ⟨[], Item.spells_nil rfl⟩

-- ---------------------------------------------------------------------------
-- Stacks
-- ---------------------------------------------------------------------------

theorem spells_advance (h : advance stack t = some after) (hw : Spells after w) :
    Spells stack (t :: w) := by
  induction stack with
  | nil => cases h
  | cons item stack ih =>
    unfold advance at h
    split at h
    · next items he =>
      cases h
      obtain ⟨u, v, hu, hv, rfl⟩ := spells_append.mp hw
      exact ⟨t :: u, v, spells_expand he hu, hv, rfl⟩
    · split at h
      · next hn => exact ⟨[], t :: w, Item.spells_nil hn, ih h, rfl⟩
      · cases h

theorem exists_spells_stack (stack : List Item) : ∃ w, Spells stack w := by
  induction stack with
  | nil => exact ⟨[], rfl⟩
  | cons item stack ih =>
    obtain ⟨u, hu⟩ := exists_spells item
    obtain ⟨v, hv⟩ := ih
    exact ⟨u ++ v, u, v, hu, hv, rfl⟩

/-- Tokens that can come one after another can be continued. -/
theorem spells_advanceAll {us : List TokenKind} (h : advanceAll stack us = some after) :
    ∃ w, Spells stack (us ++ w) := by
  induction us generalizing stack with
  | nil => exact exists_spells_stack stack
  | cons u us ih =>
    obtain ⟨next, ha, h⟩ := Option.bind_eq_some_iff.mp h
    obtain ⟨w, hw⟩ := ih h
    exact ⟨w, spells_advance ha hw⟩

theorem sentence_of_spells (h : Spells classItems w) : Sentence w := by
  obtain ⟨_, hname, rfl⟩ := spells_kind.mp h
  obtain ⟨name, _, hbraces, rfl⟩ := spells_name.mp hname
  obtain ⟨_, hinner, rfl⟩ := spells_braces.mp hbraces
  obtain ⟨_, _, ⟨vars, rfl⟩, hsubs, rfl⟩ := hinner
  obtain ⟨subs, hl, rfl⟩ := spells_singleton.mp hsubs
  exact ⟨⟨name, vars, subs⟩, hl, rfl⟩

theorem viable_of_advanceAll {us : List TokenKind} (h : advanceAll classItems us = some after) :
    Viable us :=
  (spells_advanceAll h).imp fun _ hw => sentence_of_spells hw

end Prediction

end JackVM
