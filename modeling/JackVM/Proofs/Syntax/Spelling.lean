import JackVM.Proofs.Syntax.Tree

/-!
# How the spelling of a tree starts and ends

With one or two tokens of lookahead, what comes next is told by the tokens that
a construct can start with and by those that may follow it.
-/

namespace JackVM.Syntax

def operatorKinds (level : OperatorLevel) : List TokenKind :=
  (BinaryOperator.all.filter (·.level = level)).map fun op => .symbol op.symbol

/-- Tokens that continue a term, an operand or an expression. -/
def afterTerm : List TokenKind := [.symbol '(', .symbol '.', .symbol '[']

def afterOperand : List TokenKind := operatorKinds .product ++ afterTerm

def afterExpression : List TokenKind := operatorKinds .sum ++ afterOperand

def closers : List TokenKind := [.symbol ')', .symbol ']', .symbol ',', .symbol ';']

theorem mem_operatorKinds (op : BinaryOperator) : .symbol op.symbol ∈ operatorKinds op.level := by
  cases op <;> decide

theorem sum_not_mem_afterOperand (op : OperatorOf .sum) :
    .symbol op.1.symbol ∉ afterOperand := by
  obtain ⟨op, h⟩ := op
  show TokenKind.symbol op.symbol ∉ afterOperand
  cases op with
  | mul | div => cases h
  | _ => decide

theorem product_not_mem_afterTerm (op : OperatorOf .product) :
    .symbol op.1.symbol ∉ afterTerm := by
  obtain ⟨op, h⟩ := op
  show TokenKind.symbol op.symbol ∉ afterTerm
  cases op with
  | mul | div => decide
  | _ => cases h

theorem closer_not_mem_afterExpression {kind : TokenKind} (h : kind ∈ closers) :
    kind ∉ afterExpression := by
  simp only [closers, List.mem_cons, List.not_mem_nil, or_false] at h
  rcases h with rfl | rfl | rfl | rfl <;> decide

section
variable {t : TokenKind} {kinds w : List TokenKind}

/-- The next token is none of these. -/
def Clear (kinds w : List TokenKind) : Prop := ∀ t ∈ w.head?, t ∉ kinds

theorem clear_nil : Clear kinds [] := nofun

theorem clear_cons (h : t ∉ kinds) : Clear kinds (t :: w) := by
  rintro _ ⟨⟩
  exact h

theorem clear_closer (h : t ∈ closers) : Clear afterExpression (t :: w) :=
  clear_cons (closer_not_mem_afterExpression h)

theorem Clear.mono {more : List TokenKind} (h : Clear more w) (hs : kinds ⊆ more) :
    Clear kinds w := fun t ht hk => h t ht (hs hk)

theorem Clear.ne {kind : TokenKind} (h : Clear [kind] w) (ht : t ∈ w.head?) : t ≠ kind :=
  fun he => h t ht (List.mem_singleton.mpr he)

end

theorem Term.starts (e : Term) : ∃ kind kinds, e.tokens = kind :: kinds ∧ kind ∉ closers := by
  cases e with
  | unary op _ => exact ⟨_, _, rfl, by cases op <;> decide⟩
  | constant word => exact ⟨_, _, rfl, by simp [closers]⟩
  | call c =>
    obtain ⟨callee, args⟩ := c
    cases callee <;> exact ⟨_, _, rfl, by simp [closers]⟩
  | _ => exact ⟨_, _, rfl, by simp [closers]⟩

theorem Operand.starts : (o : Operand) → ∃ kind kinds, o.tokens = kind :: kinds ∧ kind ∉ closers
  | .term single => single.starts
  | .product left _ _ => by
    obtain ⟨kind, kinds, h, hk⟩ := left.starts
    exact ⟨kind, _, congrArg (· ++ _) h, hk⟩

theorem Expression.starts :
    (e : Expression) → ∃ kind kinds, e.tokens = kind :: kinds ∧ kind ∉ closers
  | .operand single => single.starts
  | .sum left _ _ => by
    obtain ⟨kind, kinds, h, hk⟩ := left.starts
    exact ⟨kind, _, congrArg (· ++ _) h, hk⟩

theorem Term.tokens_pos (e : Term) : 0 < e.tokens.length := by
  obtain ⟨kind, kinds, h, -⟩ := e.starts
  simp [h]

theorem TypeName.token_ne_symbol (type : TypeName) (c : Char) : type.token ≠ .symbol c := by
  cases type <;> nofun

theorem TypeName.token_ne_void (type : TypeName) : type.token ≠ .keyword .voidWord := by
  cases type <;> nofun

/-- How many operators of its own level a chain has. -/
def Operand.links : Operand → Nat
  | .term _ => 0
  | .product left _ _ => left.links + 1

def Expression.links : Expression → Nat
  | .operand _ => 0
  | .sum left _ _ => left.links + 1

theorem Operand.links_le : (o : Operand) → o.links ≤ o.tokens.length
  | .term _ => Nat.zero_le _
  | .product left _ _ => by
    have := left.links_le
    simp only [links, Operand.tokens, List.length_append, List.length_cons]
    omega

theorem Expression.links_le : (e : Expression) → e.links ≤ e.tokens.length
  | .operand _ => Nat.zero_le _
  | .sum left _ _ => by
    have := left.links_le
    simp only [links, Expression.tokens, List.length_append, List.length_cons]
    omega

end JackVM.Syntax
