import JackVM.Proofs.Code.Operands

/-!
# Places of statements and calls

Where the code of a statement stands in that of the statements around it, how
deep it may be nested, that every `return` in the code is that of a statement,
and that the code of every call in the text is there.
-/

namespace JackVM.Syntax

/-- In the code of these statements, whose first label has the number `n`, the
code of a statement whose first label has the number `m` stands after `before`. -/
inductive Scope.Contains (scope : Scope) :
    List Statement → Nat → List Instruction → Statement → Nat → Prop
  | head {st : Statement} {others : List Statement} {n : Nat} :
    scope.Contains (st :: others) n [] st n
  | tail {st first : Statement} {others : List Statement} {n m : Nat} {before : List Instruction}
    (h : scope.Contains others (n + first.labels) before st m) :
    scope.Contains (first :: others) n (first.code scope n ++ before) st m
  | onlyBranch {st : Statement} {condition : Expression} {body others : List Statement} {n m : Nat}
    {before : List Instruction} (h : scope.Contains body (n + 2) before st m) :
    scope.Contains (.ifThen condition body :: others) n (testCode scope condition n ++ before) st m
  | thenBranch {st : Statement} {condition : Expression} {body otherwise others : List Statement}
    {n m : Nat} {before : List Instruction} (h : scope.Contains body (n + 2) before st m) :
    scope.Contains (.ifElse condition body otherwise :: others) n
      (testCode scope condition n ++ before) st m
  | elseBranch {st : Statement} {condition : Expression} {body otherwise others : List Statement}
    {n m : Nat} {before : List Instruction}
    (h : scope.Contains otherwise (n + 2 + Statements.labels body) before st m) :
    scope.Contains (.ifElse condition body otherwise :: others) n
      (testCode scope condition n ++ Statements.code scope (n + 2) body ++
        [.goto (scope.label (n + 1)), .label (scope.label n)] ++ before) st m
  | loopBody {st : Statement} {condition : Expression} {body others : List Statement} {n m : Nat}
    {before : List Instruction} (h : scope.Contains body (n + 2) before st m) :
    scope.Contains (.whileLoop condition body :: others) n
      ([.label (scope.label n)] ++ testCode scope condition (n + 1) ++ before) st m

section
variable {scope : Scope} {body : List Statement} {st : Statement} {n m : Nat}
  {before a b : List Instruction}

theorem Scope.Contains.code_eq (h : scope.Contains body n before st m) :
    ∃ after, Statements.code scope n body = before ++ st.code scope m ++ after := by
  induction h with
  | head => exact ⟨_, rfl⟩
  | tail _ ih | onlyBranch _ ih | thenBranch _ ih | elseBranch _ ih | loopBody _ ih =>
    obtain ⟨after, h⟩ := ih
    simp only [Statements.code, Statement.code, branchCode_eq, loopCode_eq, h, List.append_assoc]
    exact ⟨_, rfl⟩

/-- Only whole statements, tests, labels and jumps over branches stand in front
of a statement. -/
theorem Scope.Contains.complete (h : scope.Contains body n before st m)
    (hv : Statements.Valid scope.Declares scope.returnsVoid body) :
    Complete before ∧ st.Valid scope.Declares scope.returnsVoid := by
  induction h with
  | head => exact ⟨.nil, hv.1⟩
  | tail _ ih =>
    obtain ⟨hf, ho⟩ := hv
    exact ⟨(Statement.complete _ hf).append (ih ho).1, (ih ho).2⟩
  | onlyBranch _ ih =>
    obtain ⟨⟨hc, hb⟩, -⟩ := hv
    exact ⟨(complete_test hc _).append (ih hb).1, (ih hb).2⟩
  | thenBranch _ ih =>
    obtain ⟨⟨hc, hb, -⟩, -⟩ := hv
    exact ⟨(complete_test hc _).append (ih hb).1, (ih hb).2⟩
  | elseBranch _ ih =>
    obtain ⟨⟨hc, hb, ho⟩, -⟩ := hv
    exact ⟨(((complete_test hc _).append (Statements.complete _ hb)).append
      (.append (.goto _) (.label _))).append (ih ho).1, (ih ho).2⟩
  | loopBody _ ih =>
    obtain ⟨⟨hc, hb⟩, -⟩ := hv
    exact ⟨((Complete.label _).append (complete_test hc _)).append (ih hb).1, (ih hb).2⟩

-- ---------------------------------------------------------------------------
-- Returns
-- ---------------------------------------------------------------------------

/-- In front of a `return` stands what it pushes, and before that a place where
the statement may be. -/
def Returns (scope : Scope) (place : List Instruction → Option Expression → Prop)
    (before : List Instruction) (i : Instruction) : Prop :=
  i = .ret → ∃ front value, place front value ∧ before = front ++ returned scope value

variable {p q : List Instruction → Option Expression → Prop}

theorem returns_append (h : AtEach (Returns scope p) a) (h' : AtEach (Returns scope q) b)
    (hq : ∀ front value, q front value → p (a ++ front) value) :
    AtEach (Returns scope p) (a ++ b) := by
  refine h.append fun k i hi hr => ?_
  obtain ⟨front, value, hp, hb⟩ := h' k i hi hr
  exact ⟨a ++ front, value, hq _ _ hp, by rw [hb, List.append_assoc]⟩

theorem returns_none (h : ∀ i ∈ a, i ≠ .ret) : AtEach (Returns scope p) a :=
  atEach_of_forall fun i hi _ hr => (h i hi hr).elim

theorem returns_append_none (h : AtEach (Returns scope p) a) (hb : ∀ i ∈ b, i ≠ .ret) :
    AtEach (Returns scope p) (a ++ b) := by
  have hn : AtEach (Returns scope fun _ _ => False) b := returns_none hb
  exact returns_append h hn fun _ _ => False.elim

theorem Scope.Plain.ne_ret {i : Instruction} (h : scope.Plain i) : i ≠ .ret := by
  rintro rfl
  cases h with
  | straight h => cases h

theorem returns_plain (h : ∀ i ∈ a, scope.Plain i) : AtEach (Returns scope p) a :=
  returns_none fun i hi => (h i hi).ne_ret

theorem test_ne_ret (condition : Expression) (n : Nat) :
    ∀ i ∈ testCode scope condition n, i ≠ .ret := by
  refine List.forall_mem_append.mpr ⟨?_, by simp⟩
  exact fun i hi => (Scope.Plain.straight (condition.straight i hi)).ne_ret

def Leaves (scope : Scope) (body : List Statement) (n : Nat) (front : List Instruction)
    (value : Option Expression) : Prop :=
  ∃ m, scope.Contains body n front (.leave value) m

theorem returns_branch {condition : Expression} {r : List Instruction → Option Expression → Prop}
    (h : AtEach (Returns scope p) a) (h' : AtEach (Returns scope q) b)
    (hp : ∀ front value, p front value → r (testCode scope condition n ++ front) value)
    (hq : ∀ front value, q front value → r (testCode scope condition n ++ a ++
      [.goto (scope.label (n + 1)), .label (scope.label n)] ++ front) value) :
    AtEach (Returns scope r) (branchCode scope n condition a b) := by
  have hbody : AtEach (Returns scope r) (testCode scope condition n ++ a) :=
    returns_append (returns_none (test_ne_ret condition n)) h hp
  have hjump : AtEach (Returns scope r) (testCode scope condition n ++ a ++
      [.goto (scope.label (n + 1)), .label (scope.label n)]) :=
    returns_append_none hbody (by simp)
  exact returns_append_none (returns_append hjump h' hq) (by simp)

theorem returns_loop {condition : Expression}
    (h : AtEach (Returns scope q) a)
    (hq : ∀ front value, q front value →
      p ([.label (scope.label n)] ++ testCode scope condition (n + 1) ++ front) value) :
    AtEach (Returns scope p) (loopCode scope n condition a) := by
  have htest : ∀ i ∈ [.label (scope.label n)] ++ testCode scope condition (n + 1), i ≠ .ret :=
    List.forall_mem_cons.mpr ⟨nofun, test_ne_ret condition (n + 1)⟩
  exact returns_append_none (returns_append (returns_none htest) h hq) (by simp)

theorem returns_leave (value : Option Expression) (others : List Statement) :
    AtEach (Returns scope (Leaves scope (.leave value :: others) n))
      ((Statement.leave value).code scope n) := by
  rw [code_leave]
  have hv : ∀ i ∈ returned scope value, scope.Plain i :=
    Scope.plain_of_straight (straight_returned value)
  refine (returns_plain hv).append (atEach_singleton fun _ => ⟨[], value, ⟨n, .head⟩, ?_⟩)
  rw [List.append_nil, List.nil_append]

mutual
theorem Statement.returns : (st : Statement) → {n : Nat} → {others : List Statement} →
    AtEach (Returns scope (Leaves scope (st :: others) n)) (st.code scope n)
  | .assign target value, _, _ => returns_plain (plain_assign target value)
  | .assignElement array index value, _, _ => returns_plain (plain_assignElement array index value)
  | .ifThen _ body, _, _ =>
    returns_branch (q := fun _ _ => False) (Statements.returns body) nofun
      (fun _ _ ⟨m, h⟩ => ⟨m, .onlyBranch h⟩) nofun
  | .ifElse _ body otherwise, _, _ =>
    returns_branch (Statements.returns body) (Statements.returns otherwise)
      (fun _ _ ⟨m, h⟩ => ⟨m, .thenBranch h⟩) (fun _ _ ⟨m, h⟩ => ⟨m, .elseBranch h⟩)
  | .whileLoop _ body, _, _ =>
    returns_loop (Statements.returns body) fun _ _ ⟨m, h⟩ => ⟨m, .loopBody h⟩
  | .run call, _, _ => returns_plain (plain_run call)
  | .leave value, _, others => returns_leave value others
theorem Statements.returns : (body : List Statement) → {n : Nat} →
    AtEach (Returns scope (Leaves scope body n)) (Statements.code scope n body)
  | [], _ => nofun
  | first :: others, _ =>
    returns_append first.returns (Statements.returns others) fun _ _ ⟨m, h⟩ => ⟨m, .tail h⟩
end

end

-- ---------------------------------------------------------------------------
-- Calls
-- ---------------------------------------------------------------------------

mutual
def Term.calls : Term → List Call
  | .integer _ | .string _ | .constant _ | .variable _ => []
  | .element _ index => index.calls
  | .group inner => inner.calls
  | .unary _ operand => operand.calls
  | .call call => call.calls
def Operand.calls : Operand → List Call
  | .term single => single.calls
  | .product left _ right => left.calls ++ right.calls
def Expression.calls : Expression → List Call
  | .operand single => single.calls
  | .sum left _ right => left.calls ++ right.calls
def Call.calls : Call → List Call
  | .mk callee args => .mk callee args :: Arguments.calls args
def Arguments.calls : List Expression → List Call
  | [] => []
  | first :: others => first.calls ++ Arguments.calls others
end

mutual
def Statement.calls : Statement → List Call
  | .assign _ value => value.calls
  | .assignElement _ index value => index.calls ++ value.calls
  | .ifThen condition body => condition.calls ++ Statements.calls body
  | .ifElse condition body otherwise =>
    condition.calls ++ Statements.calls body ++ Statements.calls otherwise
  | .whileLoop condition body => condition.calls ++ Statements.calls body
  | .run call => call.calls
  | .leave none => []
  | .leave (some value) => value.calls
def Statements.calls : List Statement → List Call
  | [] => []
  | first :: others => first.calls ++ Statements.calls others
end

def Scope.Makes (scope : Scope) (calls : List Call) (code : List Instruction) : Prop :=
  ∀ call ∈ calls, call.Valid scope.Declares ∧ call.code scope <:+: code

section
variable {scope : Scope} {cs ds : List Call} {a b : List Instruction}

theorem Scope.Makes.left (h : scope.Makes cs a) : scope.Makes cs (a ++ b) :=
  fun call hc => ⟨(h call hc).1, List.infix_append_of_infix_left (h call hc).2⟩

theorem Scope.Makes.right (h : scope.Makes cs b) : scope.Makes cs (a ++ b) :=
  fun call hc => ⟨(h call hc).1, List.infix_append_of_infix_right (h call hc).2⟩

theorem Scope.Makes.append (h : scope.Makes cs a) (h' : scope.Makes ds b) :
    scope.Makes (cs ++ ds) (a ++ b) := List.forall_mem_append.mpr ⟨h.left, h'.right⟩

mutual
theorem Term.makes : (e : Term) → e.Valid scope.Declares → scope.Makes e.calls (e.code scope)
  | .integer _, _ | .string _, _ | .constant _, _ | .variable _, _ => nofun
  | .element _ index, ⟨_, hi⟩ => (index.makes hi).right.left.left
  | .group inner, hv => inner.makes hv
  | .unary _ operand, hv => (operand.makes hv).left
  | .call call, hv => call.makes hv
theorem Operand.makes : (o : Operand) → o.Valid scope.Declares → scope.Makes o.calls (o.code scope)
  | .term single, hv => single.makes hv
  | .product left _ right, ⟨hl, hr⟩ => ((left.makes hl).append (right.makes hr)).left
theorem Expression.makes : (e : Expression) → e.Valid scope.Declares →
    scope.Makes e.calls (e.code scope)
  | .operand single, hv => single.makes hv
  | .sum left _ right, ⟨hl, hr⟩ => ((left.makes hl).append (right.makes hr)).left
theorem Call.makes : (c : Call) → c.Valid scope.Declares → scope.Makes c.calls (c.code scope)
  | .mk _ args, hv =>
    List.forall_mem_cons.mpr ⟨⟨hv, List.infix_refl _⟩, (Arguments.makes args hv.2).right.left⟩
theorem Arguments.makes : (es : List Expression) → Arguments.Valid scope.Declares es →
    scope.Makes (Arguments.calls es) (Arguments.code scope es)
  | [], _ => nofun
  | first :: others, ⟨hv, hvs⟩ => (first.makes hv).append (Arguments.makes others hvs)
end

theorem makes_test {condition : Expression} (h : condition.Valid scope.Declares) (n : Nat) :
    scope.Makes condition.calls (testCode scope condition n) := (condition.makes h).left

theorem makes_branch {condition : Expression} {n : Nat} (h : condition.Valid scope.Declares)
    (ha : scope.Makes cs a) (hb : scope.Makes ds b) :
    scope.Makes (condition.calls ++ cs ++ ds) (branchCode scope n condition a b) := by
  have hbody : scope.Makes (condition.calls ++ cs) (testCode scope condition n ++ a) :=
    (makes_test h n).append ha
  exact (hbody.left.append hb).left

theorem makes_loop {condition : Expression} {n : Nat} (h : condition.Valid scope.Declares)
    (ha : scope.Makes cs a) :
    scope.Makes (condition.calls ++ cs) (loopCode scope n condition a) := by
  rw [loopCode_eq]
  exact ((makes_test h (n + 1)).right.append ha).left

mutual
theorem Statement.makes : (st : Statement) → {n : Nat} →
    st.Valid scope.Declares scope.returnsVoid → scope.Makes st.calls (st.code scope n)
  | .assign _ value, _, ⟨_, hv⟩ => (value.makes hv).left
  | .assignElement _ index value, _, ⟨_, hi, hv⟩ =>
    ((index.makes hi).right.left.append (value.makes hv)).left
  | .ifThen condition body, _, ⟨hc, hb⟩ => by
    have hn : scope.Makes [] [] := nofun
    rw [Statement.calls, ← List.append_nil (condition.calls ++ _)]
    exact makes_branch hc (Statements.makes body hb) hn
  | .ifElse _ body otherwise, _, ⟨hc, hb, ho⟩ =>
    makes_branch hc (Statements.makes body hb) (Statements.makes otherwise ho)
  | .whileLoop _ body, _, ⟨hc, hb⟩ => makes_loop hc (Statements.makes body hb)
  | .run call, _, hv => (call.makes hv).left
  | .leave none, _, _ => nofun
  | .leave (some value), _, hv => (value.makes hv).left.left
theorem Statements.makes : (body : List Statement) → {n : Nat} →
    Statements.Valid scope.Declares scope.returnsVoid body →
    scope.Makes (Statements.calls body) (Statements.code scope n body)
  | [], _, _ => nofun
  | first :: others, _, ⟨hv, hvs⟩ => (first.makes hv).append (Statements.makes others hvs)
end

end

end JackVM.Syntax
