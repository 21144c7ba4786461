import JackVM.Proofs.Code.Depth

/-!
# Operands before their operator

Code in postfix form pushes one value: every command stands after the code of
its operands, one piece for each. A statement is made of such pieces, each
followed by a command that uses its value up.
-/

namespace JackVM

/-- Code that computes one value. -/
inductive PushesOne : List Instruction → Prop
  | push (segment : Segment) (index : Nat) : PushesOne [.push segment index]
  | operate (op : Operation) {parts : List (List Instruction)} (h : ∀ p ∈ parts, PushesOne p)
    (hl : parts.length = op.operands) : PushesOne (parts.flatten ++ [.operate op])
  | call (callee : String) {parts : List (List Instruction)} (h : ∀ p ∈ parts, PushesOne p) :
    PushesOne (parts.flatten ++ [.call callee parts.length])
  | element {address : List Instruction} (h : PushesOne address) :
    PushesOne (address ++ [.pop .pointer 1, .push .that 0])

/-- Code that starts and ends with nothing on the stack. -/
inductive Complete : List Instruction → Prop
  | nil : Complete []
  | append {code more : List Instruction} (h : Complete code) (h' : Complete more) :
    Complete (code ++ more)
  | label (name : String) : Complete [.label name]
  | goto (name : String) : Complete [.goto name]
  | function (name : String) (locals : Nat) : Complete [.function name locals]
  | pop {value : List Instruction} (h : PushesOne value) (segment : Segment) (index : Nat) :
    Complete (value ++ [.pop segment index])
  | ifGoto {value : List Instruction} (h : PushesOne value) (name : String) :
    Complete (value ++ [.ifGoto name])
  | ret {value : List Instruction} (h : PushesOne value) : Complete (value ++ [.ret])
  | retAbove {value other : List Instruction} (h : PushesOne value) (h' : PushesOne other) :
    Complete (value ++ other ++ [.ret])

section
variable {code a b : List Instruction}

theorem PushesOne.unary (op : Operation) (hl : op.operands = 1) (h : PushesOne a) :
    PushesOne (a ++ [.operate op]) := by
  have hs : ∀ p ∈ [a], PushesOne p := List.forall_mem_singleton.mpr h
  simpa using PushesOne.operate op hs hl.symm

theorem forall_pushesOne_pair (h : PushesOne a) (h' : PushesOne b) : ∀ p ∈ [a, b], PushesOne p :=
  List.forall_mem_cons.mpr ⟨h, List.forall_mem_singleton.mpr h'⟩

theorem PushesOne.binary (op : Operation) (hl : op.operands = 2) (h : PushesOne a)
    (h' : PushesOne b) : PushesOne (a ++ b ++ [.operate op]) := by
  simpa using PushesOne.operate op (forall_pushesOne_pair h h') hl.symm

theorem PushesOne.callOn (callee : String) (h : PushesOne a) (h' : PushesOne b) :
    PushesOne (a ++ b ++ [.call callee 2]) := by
  simpa using PushesOne.call callee (forall_pushesOne_pair h h')

-- ---------------------------------------------------------------------------
-- Depth
-- ---------------------------------------------------------------------------

theorem walk_flatten {parts : List (List Instruction)}
    (h : ∀ p ∈ parts, ∀ d, walk p d = some (d + 1)) (d : Nat) :
    walk parts.flatten d = some (d + parts.length) := by
  induction parts generalizing d with
  | nil => rfl
  | cons first others ih =>
    obtain ⟨hf, ho⟩ := List.forall_mem_cons.mp h
    rw [List.flatten_cons, walk_append, hf, Option.bind_some, ih ho, List.length_cons,
      Nat.add_right_comm, Nat.add_assoc]

theorem walk_command {i : Instruction} {n d : Nat} (ht : i.takes = n) (hj : i.joins = false)
    (hr : i ≠ .ret) : walk [i] (d + n) = some (d + i.leaves) := by
  rw [walk_singleton, after?_of_straight hj hr (by omega)]
  congr 1
  omega

theorem PushesOne.walk_eq (h : PushesOne code) : ∀ d, walk code d = some (d + 1) := by
  induction h with
  | push segment index => exact fun d => walk_command rfl rfl nofun
  | operate op _ hl ih =>
    exact fun d => walk_trans (walk_flatten ih d) (walk_command hl.symm rfl nofun)
  | call callee _ ih => exact fun d => walk_trans (walk_flatten ih d) (walk_command rfl rfl nofun)
  | element _ ih =>
    intro d
    refine walk_trans (ih d) ?_
    have hp : walk [.pop .pointer 1] (d + 1) = some d := walk_command rfl rfl nofun
    exact walk_trans hp (walk_command rfl rfl nofun)

theorem Complete.walk_eq (h : Complete code) : walk code 0 = some 0 := by
  induction h with
  | nil | label | goto | function => rfl
  | append _ _ ih ih' => exact walk_trans ih ih'
  | pop h => exact walk_trans (h.walk_eq 0) rfl
  | ifGoto h => exact walk_trans (h.walk_eq 0) rfl
  | ret h => exact walk_trans (h.walk_eq 0) rfl
  | retAbove h h' => exact walk_trans (walk_trans (h.walk_eq 0) (h'.walk_eq 1)) rfl

-- ---------------------------------------------------------------------------
-- What stands in front of a call
-- ---------------------------------------------------------------------------

/-- `Q` relates every instruction to the code in front of it. -/
def AtEach (Q : List Instruction → Instruction → Prop) (code : List Instruction) : Prop :=
  ∀ k i, code[k]? = some i → Q (code.take k) i

theorem AtEach.append {Q : List Instruction → Instruction → Prop} (h : AtEach Q a)
    (h' : AtEach (fun before => Q (a ++ before)) b) : AtEach Q (a ++ b) := by
  intro k i hi
  rcases Nat.lt_or_ge k a.length with hk | hk
  · rw [List.getElem?_append_left hk] at hi
    rw [List.take_append_of_le_length (Nat.le_of_lt hk)]
    exact h k i hi
  · rw [List.getElem?_append_right hk] at hi
    rw [List.take_append, List.take_of_length_le hk]
    exact h' _ i hi

theorem atEach_of_forall {Q : List Instruction → Instruction → Prop}
    (h : ∀ i ∈ code, ∀ before, Q before i) : AtEach Q code :=
  fun _ i hi => h i (List.mem_of_getElem? hi) _

theorem atEach_singleton {Q : List Instruction → Instruction → Prop} {i : Instruction}
    (h : Q [] i) : AtEach Q [i] := by
  intro k j hj
  cases k with
  | zero => cases hj; exact h
  | succ k => cases hj

/-- A call has as many pieces of code in front of it as it has arguments, each
of which computes one value. -/
def Fed (before : List Instruction) (i : Instruction) : Prop :=
  ∀ callee arguments, i = .call callee arguments →
    ∃ (front : List Instruction) (parts : List (List Instruction)),
      before = front ++ parts.flatten ∧ parts.length = arguments ∧ ∀ p ∈ parts, PushesOne p

theorem Fed.prepend {before : List Instruction} {i : Instruction} (h : Fed before i) :
    Fed (a ++ before) i := by
  intro callee arguments hi
  obtain ⟨front, parts, rfl, hl, hp⟩ := h callee arguments hi
  exact ⟨a ++ front, parts, (List.append_assoc ..).symm, hl, hp⟩

theorem fed_append (h : AtEach Fed a) (h' : AtEach Fed b) : AtEach Fed (a ++ b) :=
  h.append fun k i hi => (h' k i hi).prepend

theorem fed_flatten {parts : List (List Instruction)} (h : ∀ p ∈ parts, AtEach Fed p) :
    AtEach Fed parts.flatten := by
  induction parts with
  | nil => nofun
  | cons first others ih =>
    obtain ⟨hf, ho⟩ := List.forall_mem_cons.mp h
    exact fed_append hf (ih ho)

theorem PushesOne.fed (h : PushesOne code) : AtEach Fed code := by
  induction h with
  | push => exact atEach_singleton nofun
  | operate op _ _ ih => exact fed_append (fed_flatten ih) (atEach_singleton nofun)
  | call callee h ih =>
    refine (fed_flatten ih).append (atEach_singleton ?_)
    intro callee arguments hi
    cases hi
    exact ⟨[], _, by simp, rfl, h⟩
  | element _ ih =>
    have hp : AtEach Fed [.pop .pointer 1] := atEach_singleton nofun
    exact fed_append ih (fed_append hp (atEach_singleton nofun))

theorem Complete.fed (h : Complete code) : AtEach Fed code := by
  induction h with
  | nil => nofun
  | append _ _ ih ih' => exact fed_append ih ih'
  | label | goto | function => exact atEach_singleton nofun
  | pop h | ifGoto h | ret h => exact fed_append h.fed (atEach_singleton nofun)
  | retAbove h h' => exact fed_append (fed_append h.fed h'.fed) (atEach_singleton nofun)

end

namespace Syntax

-- ---------------------------------------------------------------------------
-- Expressions
-- ---------------------------------------------------------------------------

section
variable {scope : Scope} {a b : List Instruction}

theorem Scope.pushesOne_push {name : String} (h : scope.Declares name) :
    PushesOne (scope.push name) := by
  obtain ⟨v, hv⟩ := Option.isSome_iff_exists.mp h
  simp only [Scope.push, hv, Option.toList_some, List.map_cons, List.map_nil]
  exact .push ..

theorem Constant.pushesOne (word : Constant) : PushesOne word.code := by
  cases word with
  | «true» => exact .unary .neg rfl (.push ..)
  | «false» | null | this => exact .push ..

theorem pushesOne_characters (cs : List Char) (h : PushesOne a) : PushesOne
    (a ++ cs.flatMap fun c => [.push .constant c.toNat, .call "String.appendChar" 2]) := by
  induction cs generalizing a with
  | nil => simpa using h
  | cons c cs ih =>
    have hc : PushesOne (a ++ [.push .constant c.toNat] ++ [.call "String.appendChar" 2]) :=
      h.callOn _ (.push ..)
    rw [List.append_assoc] at hc
    rw [List.flatMap_cons, ← List.append_assoc]
    exact ih hc

theorem pushesOne_string (value : String) : PushesOne (stringCode value) := by
  have hl : ∀ p ∈ [[Instruction.push .constant value.length]], PushesOne p :=
    List.forall_mem_singleton.mpr (.push ..)
  exact pushesOne_characters value.toList (.call "String.new" hl)

theorem pushesOne_unary (op : UnaryOperator) (h : PushesOne a) :
    PushesOne (a ++ [op.instruction]) := by
  cases op with
  | neg | not => exact h.unary _ rfl

theorem pushesOne_binary (op : BinaryOperator) (h : PushesOne a) (h' : PushesOne b) :
    PushesOne (a ++ b ++ [op.instruction]) := by
  cases op with
  | mul | div => exact h.callOn _ h'
  | _ => exact h.binary _ rfl h'

/-- The code of each argument of a call, the receiver first. -/
def Callee.parts (scope : Scope) (callee : Callee) (args : List Expression) :
    List (List Instruction) :=
  (callee.receiverCode scope).map ([·]) ++ args.map (·.code scope)

theorem Arguments.code_eq_flatten (es : List Expression) :
    Arguments.code scope es = (es.map (·.code scope)).flatten := by
  induction es with
  | nil => rfl
  | cons first others ih => rw [Arguments.code, ih, List.map_cons, List.flatten_cons]

theorem Call.code_eq_flatten (callee : Callee) (args : List Expression) :
    (Call.mk callee args).code scope = (callee.parts scope args).flatten ++
      [.call (callee.label scope) (callee.parts scope args).length] := by
  simp [Call.code, Callee.parts, Callee.receivers, Arguments.code_eq_flatten,
    ← List.flatMap_def]

theorem Callee.pushesOne_receiver (callee : Callee) :
    ∀ p ∈ (callee.receiverCode scope).map ([·]), PushesOne p := by
  intro p hp
  obtain ⟨i, hi, rfl⟩ := List.mem_map.mp hp
  cases callee with
  | own subroutine =>
    cases List.mem_singleton.mp hi
    exact .push ..
  | member owner subroutine =>
    obtain ⟨v, -, rfl⟩ := List.mem_map.mp hi
    exact .push ..

mutual
theorem Term.pushesOne : (e : Term) → e.Valid scope.Declares → PushesOne (e.code scope)
  | .integer _, _ => .push ..
  | .string value, _ => pushesOne_string value
  | .constant word, _ => word.pushesOne
  | .variable _, hv => scope.pushesOne_push hv
  | .element array index, ⟨ha, hi⟩ => by
    have haddress : PushesOne (scope.push array ++ index.code scope ++ [.operate .add]) :=
      (scope.pushesOne_push ha).binary .add rfl (index.pushesOne hi)
    simpa [Term.code, pointAt] using haddress.element
  | .group inner, hv => inner.pushesOne hv
  | .unary op operand, hv => pushesOne_unary op (operand.pushesOne hv)
  | .call call, hv => call.pushesOne hv
theorem Operand.pushesOne : (o : Operand) → o.Valid scope.Declares → PushesOne (o.code scope)
  | .term single, hv => single.pushesOne hv
  | .product left op right, ⟨hl, hr⟩ =>
    pushesOne_binary op.1 (left.pushesOne hl) (right.pushesOne hr)
theorem Expression.pushesOne : (e : Expression) → e.Valid scope.Declares → PushesOne (e.code scope)
  | .operand single, hv => single.pushesOne hv
  | .sum left op right, ⟨hl, hr⟩ =>
    pushesOne_binary op.1 (left.pushesOne hl) (right.pushesOne hr)
theorem Call.pushesOne : (c : Call) → c.Valid scope.Declares → PushesOne (c.code scope)
  | .mk callee args, ⟨_, ha⟩ => by
    rw [Call.code_eq_flatten]
    refine .call _ (List.forall_mem_append.mpr ⟨callee.pushesOne_receiver, ?_⟩)
    exact Arguments.pushesOne args ha
theorem Arguments.pushesOne : (es : List Expression) → Arguments.Valid scope.Declares es →
    ∀ p ∈ es.map (·.code scope), PushesOne p
  | [], _ => nofun
  | first :: others, ⟨hv, hvs⟩ =>
    List.forall_mem_cons.mpr ⟨first.pushesOne hv, Arguments.pushesOne others hvs⟩
end

-- ---------------------------------------------------------------------------
-- Statements
-- ---------------------------------------------------------------------------

theorem complete_scopePop {name : String} (h : scope.Declares name) (hv : PushesOne a) :
    Complete (a ++ scope.pop name) := by
  obtain ⟨v, hf⟩ := Option.isSome_iff_exists.mp h
  simp only [Scope.pop, hf, Option.toList_some, List.map_cons, List.map_nil]
  exact .pop hv ..

theorem complete_test {condition : Expression} (h : condition.Valid scope.Declares) (n : Nat) :
    Complete (testCode scope condition n) := by
  have hn : PushesOne (condition.code scope ++ [.operate .not]) :=
    (condition.pushesOne h).unary _ rfl
  simpa [testCode] using Complete.ifGoto hn (scope.label n)

theorem complete_branch {condition : Expression} {n : Nat} (h : condition.Valid scope.Declares)
    (ha : Complete a) (hb : Complete b) : Complete (branchCode scope n condition a b) :=
  ((((complete_test h n).append ha).append (.append (.goto _) (.label _))).append hb).append
    (.label _)

theorem complete_loop {condition : Expression} {n : Nat} (h : condition.Valid scope.Declares)
    (ha : Complete a) : Complete (loopCode scope n condition a) :=
  (((Complete.label _).append (complete_test h _)).append ha).append (.append (.goto _) (.label _))

/-- Without a value, a `return` is only valid where a 0 is returned. -/
theorem complete_leave {value : Option Expression} {n : Nat}
    (hv : (Statement.leave value).Valid scope.Declares scope.returnsVoid) :
    Complete ((Statement.leave value).code scope n) := by
  cases value with
  | none =>
    have h : scope.returnsVoid = true := hv
    simp only [Statement.code, leaveCode, h]
    exact .ret (.push .constant 0)
  | some value =>
    have h : PushesOne (value.code scope) := value.pushesOne hv
    cases hr : scope.returnsVoid with
    | true =>
      simp only [Statement.code, leaveCode, hr]
      exact .retAbove h (.push .constant 0)
    | false =>
      simp only [Statement.code, leaveCode, hr, Bool.false_eq_true, if_false, List.append_nil]
      exact .ret h

mutual
theorem Statement.complete : (st : Statement) → {n : Nat} →
    st.Valid scope.Declares scope.returnsVoid → Complete (st.code scope n)
  | .assign _ value, _, ⟨ht, hv⟩ => complete_scopePop ht (value.pushesOne hv)
  | .assignElement array index value, _, ⟨ha, hi, hv⟩ => by
    have haddress : PushesOne (scope.push array ++ index.code scope ++ [.operate .add]) :=
      (scope.pushesOne_push ha).binary .add rfl (index.pushesOne hi)
    have hs := (Complete.pop haddress .pointer 1).append (.pop (value.pushesOne hv) .that 0)
    simpa [Statement.code, pointAt] using hs
  | .ifThen _ body, _, ⟨hc, hb⟩ => complete_branch hc (Statements.complete body hb) .nil
  | .ifElse _ body otherwise, _, ⟨hc, hb, ho⟩ =>
    complete_branch hc (Statements.complete body hb) (Statements.complete otherwise ho)
  | .whileLoop _ body, _, ⟨hc, hb⟩ => complete_loop hc (Statements.complete body hb)
  | .run call, _, hv => .pop (call.pushesOne hv) ..
  | .leave _, _, hv => complete_leave hv
theorem Statements.complete : (body : List Statement) → {n : Nat} →
    Statements.Valid scope.Declares scope.returnsVoid body →
    Complete (Statements.code scope n body)
  | [], _, _ => .nil
  | first :: others, _, ⟨hv, hvs⟩ => (first.complete hv).append (Statements.complete others hvs)
end

end

-- ---------------------------------------------------------------------------
-- Subroutines
-- ---------------------------------------------------------------------------

theorem complete_prologue (fields : Nat) (kind : Compile.SubroutineKind) :
    Complete (prologueCode fields kind) := by
  cases kind with
  | constructor =>
    have hl : ∀ p ∈ [[Instruction.push .constant fields]], PushesOne p :=
      List.forall_mem_singleton.mpr (.push ..)
    exact .pop (.call "Memory.alloc" hl) ..
  | method => exact .pop (.push .argument 0) ..
  | function => exact .nil

def Subroutine.entryCode (c : JackClass) (sub : Subroutine) : List Instruction :=
  .function (c.name ++ "." ++ sub.name) (countKind .var (sub.declarations c.name)) ::
    prologueCode (countKind .field c.declarations) sub.kind

theorem Subroutine.code_eq (c : JackClass) (options : Options) (n : Nat) (sub : Subroutine) :
    sub.code c options n =
      sub.entryCode c ++ Statements.code (c.scope options sub) n sub.body := rfl

theorem Subroutine.complete_entry (c : JackClass) (sub : Subroutine) :
    Complete (sub.entryCode c) := (Complete.function ..).append (complete_prologue ..)

theorem JackClass.scope_declares {c : JackClass} {options : Options} {sub : Subroutine} :
    (c.scope options sub).Declares = c.Declares sub := by
  funext name
  exact propext JackClass.isSome_find?

theorem Subroutine.Valid.statements {c : JackClass} {options : Options} {sub : Subroutine}
    (h : sub.Valid c) :
    Statements.Valid (c.scope options sub).Declares (c.scope options sub).returnsVoid sub.body := by
  rw [JackClass.scope_declares]
  exact h.body

theorem Subroutine.complete_code {c : JackClass} {options : Options} {sub : Subroutine} {n : Nat}
    (h : sub.Valid c) : Complete (sub.code c options n) :=
  (sub.complete_entry c).append (Statements.complete sub.body h.statements)

end Syntax

end JackVM
