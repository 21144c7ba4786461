import JackVM.Proofs.Syntax.Code
import JackVM.Proofs.Syntax.Validity

/-!
# What the code of a tree is made of

The code of an expression is made of few kinds of instructions, none of which
controls the flow. Assignments and calls add those that store or drop a value,
other statements add labels, jumps and returns. Whatever is asked of each
instruction alone is told by these lists.
-/

namespace JackVM.Syntax

inductive Scope.Straight (scope : Scope) : Instruction → Prop
  | constant (value : Nat) : scope.Straight (.push .constant value)
  | object : scope.Straight (.push .pointer 0)
  | variable {name : String} {v : Variable} (h : scope.find? name = some v) :
    scope.Straight (.push v.segment v.index)
  | point : scope.Straight (.pop .pointer 1)
  | element : scope.Straight (.push .that 0)
  | operate (op : Operation) : scope.Straight (.operate op)
  | call (callee : String) (arguments : Nat) : scope.Straight (.call callee arguments)

/-- The instructions of statements that do not control the flow. -/
inductive Scope.Plain (scope : Scope) : Instruction → Prop
  | straight {i : Instruction} (h : scope.Straight i) : scope.Plain i
  | assign {name : String} {v : Variable} (h : scope.find? name = some v) :
    scope.Plain (.pop v.segment v.index)
  | store : scope.Plain (.pop .that 0)
  | drop : scope.Plain (.pop .temp 0)

inductive Scope.Emits (scope : Scope) : Instruction → Prop
  | plain {i : Instruction} (h : scope.Plain i) : scope.Emits i
  | label (n : Nat) : scope.Emits (.label (scope.label n))
  | goto (n : Nat) : scope.Emits (.goto (scope.label n))
  | ifGoto (n : Nat) : scope.Emits (.ifGoto (scope.label n))
  | ret : scope.Emits .ret

section
variable {scope : Scope}

-- ---------------------------------------------------------------------------
-- Expressions
-- ---------------------------------------------------------------------------

theorem Scope.straight_push (name : String) : ∀ i ∈ scope.push name, scope.Straight i := by
  intro i hi
  obtain ⟨v, hv, rfl⟩ := List.mem_map.mp hi
  exact .variable (Option.mem_toList.mp hv)

theorem straight_pointAt : ∀ i ∈ pointAt, scope.Straight i := by
  simp only [pointAt, List.forall_mem_cons]
  exact ⟨.operate _, .point, nofun⟩

theorem Constant.straight (word : Constant) : ∀ i ∈ word.code, scope.Straight i := by
  cases word with
  | «true» =>
    simp only [Constant.code, List.forall_mem_cons]
    exact ⟨.constant _, .operate _, nofun⟩
  | «false» | null => exact List.forall_mem_singleton.mpr (.constant _)
  | this => exact List.forall_mem_singleton.mpr .object

theorem straight_string (value : String) : ∀ i ∈ stringCode value, scope.Straight i := by
  have hc : ∀ i ∈ value.toList.flatMap fun c =>
      [.push .constant c.toNat, .call "String.appendChar" 2], scope.Straight i := by
    intro i hi
    obtain ⟨c, -, hi⟩ := List.mem_flatMap.mp hi
    simp only [List.mem_cons, List.not_mem_nil, or_false] at hi
    rcases hi with rfl | rfl
    · exact .constant _
    · exact .call ..
  simp only [stringCode, List.forall_mem_cons]
  exact ⟨.constant _, .call .., hc⟩

theorem straight_unary (op : UnaryOperator) : scope.Straight op.instruction := by
  cases op with
  | neg | not => exact .operate _

theorem straight_binary (op : BinaryOperator) : scope.Straight op.instruction := by
  cases op with
  | mul | div => exact .call ..
  | _ => exact .operate _

theorem Callee.straight_receiver (callee : Callee) :
    ∀ i ∈ callee.receiverCode scope, scope.Straight i := by
  cases callee with
  | own subroutine => exact List.forall_mem_singleton.mpr .object
  | member owner subroutine => exact scope.straight_push owner

mutual
theorem Term.straight : (e : Term) → ∀ i ∈ e.code scope, scope.Straight i
  | .integer _ => List.forall_mem_singleton.mpr (.constant _)
  | .string value => straight_string value
  | .constant word => word.straight
  | .variable name => scope.straight_push name
  | .element array index => by
    simp only [Term.code, List.forall_mem_append, List.forall_mem_singleton]
    exact ⟨⟨⟨scope.straight_push array, index.straight⟩, straight_pointAt⟩, .element⟩
  | .group inner => inner.straight
  | .unary op operand => by
    simp only [Term.code, List.forall_mem_append, List.forall_mem_singleton]
    exact ⟨operand.straight, straight_unary op⟩
  | .call call => call.straight
theorem Operand.straight : (o : Operand) → ∀ i ∈ o.code scope, scope.Straight i
  | .term single => single.straight
  | .product left op right => by
    simp only [Operand.code, List.forall_mem_append, List.forall_mem_singleton]
    exact ⟨⟨left.straight, right.straight⟩, straight_binary op.1⟩
theorem Expression.straight : (e : Expression) → ∀ i ∈ e.code scope, scope.Straight i
  | .operand single => single.straight
  | .sum left op right => by
    simp only [Expression.code, List.forall_mem_append, List.forall_mem_singleton]
    exact ⟨⟨left.straight, right.straight⟩, straight_binary op.1⟩
theorem Call.straight : (c : Call) → ∀ i ∈ c.code scope, scope.Straight i
  | .mk callee args => by
    simp only [Call.code, List.forall_mem_append, List.forall_mem_singleton]
    exact ⟨⟨callee.straight_receiver, Arguments.straight args⟩, .call ..⟩
theorem Arguments.straight : (es : List Expression) →
    ∀ i ∈ Arguments.code scope es, scope.Straight i
  | [] => nofun
  | first :: others => by
    simp only [Arguments.code, List.forall_mem_append]
    exact ⟨first.straight, Arguments.straight others⟩
end

-- ---------------------------------------------------------------------------
-- Statements
-- ---------------------------------------------------------------------------

theorem Scope.plain_of_straight {code : List Instruction} (h : ∀ i ∈ code, scope.Straight i) :
    ∀ i ∈ code, scope.Plain i := fun i hi => .straight (h i hi)

theorem Scope.emits_of_plain {code : List Instruction} (h : ∀ i ∈ code, scope.Plain i) :
    ∀ i ∈ code, scope.Emits i := fun i hi => .plain (h i hi)

theorem Scope.plain_pop (name : String) : ∀ i ∈ scope.pop name, scope.Plain i := by
  intro i hi
  obtain ⟨v, hv, rfl⟩ := List.mem_map.mp hi
  exact .assign (Option.mem_toList.mp hv)

section
variable {n : Nat}

def testCode (scope : Scope) (condition : Expression) (n : Nat) : List Instruction :=
  condition.code scope ++ [.operate .not, .ifGoto (scope.label n)]

theorem branchCode_eq (condition : Expression) (body otherwise : List Instruction) :
    branchCode scope n condition body otherwise = testCode scope condition n ++ body ++
      [.goto (scope.label (n + 1)), .label (scope.label n)] ++ otherwise ++
      [.label (scope.label (n + 1))] := rfl

theorem loopCode_eq (condition : Expression) (body : List Instruction) :
    loopCode scope n condition body = [.label (scope.label n)] ++
      testCode scope condition (n + 1) ++ body ++
      [.goto (scope.label n), .label (scope.label (n + 1))] := rfl

/-- What is said of every instruction that statements add to those of their
expressions and variables. -/
structure Scope.Framed (scope : Scope) (P : Instruction → Prop) : Prop where
  operate : ∀ op, P (.operate op)
  label : ∀ n, P (.label (scope.label n))
  goto : ∀ n, P (.goto (scope.label n))
  ifGoto : ∀ n, P (.ifGoto (scope.label n))
  zero : P (.push .constant 0)
  ret : P .ret

section
variable {P : Instruction → Prop} {condition : Expression} {value body otherwise : List Instruction}

theorem Scope.Framed.test (h : scope.Framed P) (hc : ∀ i ∈ condition.code scope, P i) :
    ∀ i ∈ testCode scope condition n, P i := by
  simp only [testCode, List.forall_mem_append, List.forall_mem_cons]
  exact ⟨hc, h.operate _, h.ifGoto n, List.forall_mem_nil _⟩

theorem Scope.Framed.branch (h : scope.Framed P) (hc : ∀ i ∈ condition.code scope, P i)
    (hb : ∀ i ∈ body, P i) (ho : ∀ i ∈ otherwise, P i) :
    ∀ i ∈ branchCode scope n condition body otherwise, P i := by
  simp only [branchCode_eq, List.forall_mem_append, List.forall_mem_cons]
  exact ⟨⟨⟨⟨h.test hc, hb⟩, h.goto _, h.label _, List.forall_mem_nil _⟩, ho⟩, h.label _,
    List.forall_mem_nil _⟩

theorem Scope.Framed.loop (h : scope.Framed P) (hc : ∀ i ∈ condition.code scope, P i)
    (hb : ∀ i ∈ body, P i) : ∀ i ∈ loopCode scope n condition body, P i := by
  simp only [loopCode_eq, List.forall_mem_append, List.forall_mem_cons]
  exact ⟨⟨⟨⟨h.label _, List.forall_mem_nil _⟩, h.test hc⟩, hb⟩, h.goto _, h.label _,
    List.forall_mem_nil _⟩

theorem Scope.Framed.leave (h : scope.Framed P) (hv : ∀ i ∈ value, P i) :
    ∀ i ∈ leaveCode scope value, P i := by
  simp only [leaveCode, List.forall_mem_append, List.forall_mem_singleton]
  refine ⟨⟨hv, ?_⟩, h.ret⟩
  split
  · exact List.forall_mem_singleton.mpr h.zero
  · exact List.forall_mem_nil _

end

theorem plain_assign (target : String) (value : Expression) :
    ∀ i ∈ (Statement.assign target value).code scope n, scope.Plain i := by
  simp only [Statement.code, List.forall_mem_append]
  exact ⟨Scope.plain_of_straight value.straight, scope.plain_pop target⟩

theorem plain_assignElement (array : String) (index value : Expression) :
    ∀ i ∈ (Statement.assignElement array index value).code scope n, scope.Plain i := by
  simp only [Statement.code, List.forall_mem_append, List.forall_mem_singleton]
  exact ⟨⟨⟨⟨Scope.plain_of_straight (scope.straight_push array),
    Scope.plain_of_straight index.straight⟩, Scope.plain_of_straight straight_pointAt⟩,
    Scope.plain_of_straight value.straight⟩, .store⟩

theorem plain_run (call : Call) : ∀ i ∈ (Statement.run call).code scope n, scope.Plain i := by
  simp only [Statement.code, List.forall_mem_append, List.forall_mem_singleton]
  exact ⟨Scope.plain_of_straight call.straight, .drop⟩

/-- What a `return` pushes, the 0 of a void subroutine last. -/
def returned (scope : Scope) (value : Option Expression) : List Instruction :=
  value.elim [] (·.code scope) ++ if scope.returnsVoid then [.push .constant 0] else []

theorem code_leave (value : Option Expression) :
    (Statement.leave value).code scope n = returned scope value ++ [.ret] := by
  cases value <;> rfl

theorem straight_returned (value : Option Expression) :
    ∀ i ∈ returned scope value, scope.Straight i := by
  refine List.forall_mem_append.mpr ⟨?_, ?_⟩
  · cases value with
    | none => nofun
    | some value => exact value.straight
  · split
    · exact List.forall_mem_singleton.mpr (.constant _)
    · nofun

end

theorem Scope.framed_emits (scope : Scope) : scope.Framed scope.Emits where
  operate op := .plain (.straight (.operate op))
  label := .label
  goto := .goto
  ifGoto := .ifGoto
  zero := .plain (.straight (.constant 0))
  ret := .ret

theorem Expression.emits (e : Expression) : ∀ i ∈ e.code scope, scope.Emits i :=
  Scope.emits_of_plain (Scope.plain_of_straight e.straight)

mutual
theorem Statement.emits : (st : Statement) → {n : Nat} → ∀ i ∈ st.code scope n, scope.Emits i
  | .assign target value, _ => Scope.emits_of_plain (plain_assign target value)
  | .assignElement array index value, _ =>
    Scope.emits_of_plain (plain_assignElement array index value)
  | .ifThen condition body, _ =>
    scope.framed_emits.branch condition.emits (Statements.emits body) (List.forall_mem_nil _)
  | .ifElse condition body otherwise, _ =>
    scope.framed_emits.branch condition.emits (Statements.emits body) (Statements.emits otherwise)
  | .whileLoop condition body, _ =>
    scope.framed_emits.loop condition.emits (Statements.emits body)
  | .run call, _ => Scope.emits_of_plain (plain_run call)
  | .leave none, _ => scope.framed_emits.leave (List.forall_mem_nil _)
  | .leave (some value), _ => scope.framed_emits.leave value.emits
theorem Statements.emits : (body : List Statement) → {n : Nat} →
    ∀ i ∈ Statements.code scope n body, scope.Emits i
  | [], _ => nofun
  | first :: others, _ => by
    simp only [Statements.code, List.forall_mem_append]
    exact ⟨first.emits, Statements.emits others⟩
end

theorem segment_ne_temp (v : Variable) : v.segment ≠ .temp := by
  obtain ⟨name, type, kind, index⟩ := v
  cases kind <;> nofun

/-- What a statement leaves in `temp` is never read. -/
theorem Scope.Emits.ne_push_temp {i : Instruction} (h : scope.Emits i) (index : Nat) :
    i ≠ .push .temp index := by
  intro hi
  cases h with
  | plain h =>
    cases h with
    | straight h =>
      cases h with
      | «variable» h => exact segment_ne_temp _ (Instruction.push.inj hi).1
      | _ => cases hi
    | _ => cases hi
  | _ => cases hi

end

end JackVM.Syntax
