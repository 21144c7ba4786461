import JackVM.Proofs.Machine.Evaluation

/-!
# An interpreter for statements

Statements act on the variables, the memory and the current object. A condition
holds if its value is -1. A bound on the rounds of each loop makes the
interpreter total; more rounds do not change how a run ends.

The words of `temp` are no part of what statements act on: no statement reads
them, so stores that differ in nothing else are as good as equal.
-/

namespace JackVM

structure Store.Agrees (s t : Store) : Prop where
  memory : s.memory = t.memory
  statics : s.statics = t.statics

/-- What a call gives and does to memory and statics is the same whatever is in
`temp`, as compiled code never reads from there (`Scope.Emits.ne_push_temp`). -/
def Calls.IgnoresTemps (calls : Calls) : Prop :=
  ∀ callee arguments s t, s.Agrees t →
    (calls callee arguments s).1 = (calls callee arguments t).1 ∧
      (calls callee arguments s).2.Agrees (calls callee arguments t).2

theorem Store.Agrees.refl {s : Store} : s.Agrees s := ⟨rfl, rfl⟩

theorem Store.Agrees.set {s t : Store} (h : s.Agrees t) (address value : Word) :
    (s.set address value).Agrees (t.set address value) := by
  constructor
  · rw [Store.set, Store.set, h.memory]
  · exact h.statics

namespace Syntax

structure State where
  frame : Frame
  store : Store

/-- How a run of statements ends. -/
inductive Ending
  | falls (state : State)
  | returns (value : Word) (state : State)

def State.assign (s : State) (v : Variable) (value : Word) : State :=
  match v.kind with
  | .static =>
    { s with store.statics := Function.update s.store.statics v.index value }
  | .field => { s with store := s.store.set (s.frame.this + .ofNat 16 v.index) value }
  | .arg => { s with frame.arguments := Function.update s.frame.arguments v.index value }
  | .var => { s with frame.locals := Function.update s.frame.locals v.index value }

def proceed (s : State) : Option Ending := some (.falls s)

def chain (first next : State → Option Ending) (s : State) : Option Ending :=
  match first s with
  | some (.falls s) => next s
  | other => other

section
variable (calls : Calls) (scope : Scope)

def choose (condition : Expression) (yes no : State → Option Ending) (s : State) :
    Option Ending :=
  let o := condition.eval calls scope s.frame s.store
  if o.value = -1 then yes { s with store := o.store } else no { s with store := o.store }

def repeated (condition : Expression) (body : State → Option Ending) : Nat → State → Option Ending
  | 0 => fun _ => none
  | rounds + 1 =>
    choose calls scope condition (chain body (repeated condition body rounds)) proceed

/-- A void subroutine returns 0, also when it computes another value first. -/
def leaveWith (value : Option Expression) (s : State) : Option Ending :=
  match value with
  | none => some (.returns 0 s)
  | some value =>
    let o := value.eval calls scope s.frame s.store
    some (.returns (if scope.returnsVoid then 0 else o.value) { s with store := o.store })

variable (rounds : Nat)

mutual
def Statement.interpret : Statement → State → Option Ending
  | .assign target value => fun s =>
    let o := value.eval calls scope s.frame s.store
    (scope.find? target).map fun v => .falls (State.assign { s with store := o.store } v o.value)
  | .assignElement array index value => fun s =>
    (scope.value? s.frame s.store array).map fun base =>
      let i := index.eval calls scope s.frame s.store
      let x := value.eval calls scope s.frame i.store
      .falls { s with store := x.store.set (base + i.value) x.value }
  | .ifThen condition body => choose calls scope condition (Statements.interpret body) proceed
  | .ifElse condition body otherwise =>
    choose calls scope condition (Statements.interpret body) (Statements.interpret otherwise)
  | .whileLoop condition body => repeated calls scope condition (Statements.interpret body) rounds
  | .run call => fun s => proceed { s with store := (call.eval calls scope s.frame s.store).store }
  | .leave value => leaveWith calls scope value
def Statements.interpret : List Statement → State → Option Ending
  | [] => proceed
  | first :: others => chain first.interpret (Statements.interpret others)
end

end

-- ---------------------------------------------------------------------------
-- More rounds
-- ---------------------------------------------------------------------------

/-- Where the first comes to an end, the second does, in the same way. -/
def Extends (f g : State → Option Ending) : Prop := ∀ s e, f s = some e → g s = some e

section
variable {calls : Calls} {scope : Scope} {condition : Expression}
  {f f' g g' : State → Option Ending} {n m : Nat}

theorem Extends.refl : Extends f f := fun _ _ h => h

theorem chain_extends (h : Extends f f') (h' : Extends g g') :
    Extends (chain f g) (chain f' g') := by
  intro s e he
  unfold chain at he ⊢
  cases hf : f s with
  | none => simp [hf] at he
  | some first =>
    rw [hf] at he
    rw [h s first hf]
    cases first with
    | falls s' => exact h' s' e he
    | returns value s' => exact he

theorem choose_extends (h : Extends f f') (h' : Extends g g') :
    Extends (choose calls scope condition f g) (choose calls scope condition f' g') := by
  intro s e he
  simp only [choose] at he ⊢
  split at he
  case isTrue ht =>
    rw [if_pos ht]
    exact h _ _ he
  case isFalse hf =>
    rw [if_neg hf]
    exact h' _ _ he

theorem repeated_extends (h : Extends f f') (hle : n ≤ m) :
    Extends (repeated calls scope condition f n) (repeated calls scope condition f' m) := by
  induction n generalizing m with
  | zero => exact nofun
  | succ n ih =>
    cases m with
    | zero => omega
    | succ m => exact choose_extends (chain_extends h (ih (by omega))) .refl

mutual
theorem Statement.interpret_extends (hle : n ≤ m) : (st : Statement) →
    Extends (st.interpret calls scope n) (st.interpret calls scope m)
  | .assign _ _ | .assignElement _ _ _ | .run _ | .leave _ => .refl
  | .ifThen _ body => choose_extends (Statements.interpret_extends hle body) .refl
  | .ifElse _ body otherwise =>
    choose_extends (Statements.interpret_extends hle body)
      (Statements.interpret_extends hle otherwise)
  | .whileLoop _ body => repeated_extends (Statements.interpret_extends hle body) hle
theorem Statements.interpret_extends (hle : n ≤ m) : (body : List Statement) →
    Extends (Statements.interpret calls scope n body) (Statements.interpret calls scope m body)
  | [] => .refl
  | first :: others =>
    chain_extends (first.interpret_extends hle) (Statements.interpret_extends hle others)
end

/-- There is one way to end, however many rounds are granted. -/
theorem Statements.ending_unique {body : List Statement} {s : State} {e e' : Ending}
    (h : Statements.interpret calls scope n body s = some e)
    (h' : Statements.interpret calls scope m body s = some e') : e = e' := by
  have hn := Statements.interpret_extends (Nat.le_max_left n m) body s e h
  have hm := Statements.interpret_extends (Nat.le_max_right n m) body s e' h'
  exact Option.some.inj (hn.symm.trans hm)

end

-- ---------------------------------------------------------------------------
-- Agreement
-- ---------------------------------------------------------------------------

structure Outcome.Agrees {α : Type} (o p : Outcome α) : Prop where
  value : o.value = p.value
  reads : o.reads = p.reads
  store : o.store.Agrees p.store

section
variable {calls : Calls} {scope : Scope} {frame : Frame} {s t : Store}

theorem variableValue_agrees (h : s.Agrees t) (v : Variable) :
    variableValue frame s v = variableValue frame t v := by
  simp only [variableValue, h.memory, h.statics]

theorem value?_agrees (h : s.Agrees t) (name : String) :
    scope.value? frame s name = scope.value? frame t name := by
  simp only [Scope.value?, funext (variableValue_agrees h)]

theorem receiver_agrees (h : s.Agrees t) (callee : Callee) :
    callee.receiver scope frame s = callee.receiver scope frame t := by
  cases callee with
  | own subroutine => rfl
  | member owner subroutine => rw [Callee.receiver, value?_agrees h, Callee.receiver]

theorem applyBinary_agrees (hcalls : calls.IgnoresTemps) (op : BinaryOperator) (x y : Word)
    (h : s.Agrees t) :
    (applyBinary calls op x y s).1 = (applyBinary calls op x y t).1 ∧
      (applyBinary calls op x y s).2.Agrees (applyBinary calls op x y t).2 := by
  cases op with
  | mul | div => exact hcalls _ _ s t h
  | _ => exact ⟨rfl, h⟩

theorem appendAll_agrees (hcalls : calls.IgnoresTemps) (cs : List Char) (text : Word)
    (h : s.Agrees t) :
    (appendAll calls cs text s).1 = (appendAll calls cs text t).1 ∧
      (appendAll calls cs text s).2.Agrees (appendAll calls cs text t).2 := by
  induction cs generalizing text s t with
  | nil => exact ⟨rfl, h⟩
  | cons c cs ih =>
    obtain ⟨hv, hs⟩ := hcalls "String.appendChar" [text, .ofNat 16 c.toNat] s t h
    simp only [appendAll, hv]
    exact ih _ hs

theorem stringValue_agrees (hcalls : calls.IgnoresTemps) (value : String) (h : s.Agrees t) :
    (stringValue calls value s).1 = (stringValue calls value t).1 ∧
      (stringValue calls value s).2.Agrees (stringValue calls value t).2 := by
  obtain ⟨hv, hs⟩ := hcalls "String.new" [.ofNat 16 value.length] s t h
  simp only [stringValue, hv]
  exact appendAll_agrees hcalls _ _ hs

theorem combine_agrees (hcalls : calls.IgnoresTemps) {op : BinaryOperator}
    {x x' : Outcome Word} {y : Store → Outcome Word} (hx : x.Agrees x')
    (hy : (y x.store).Agrees (y x'.store)) :
    (combine calls op x y).Agrees (combine calls op x' y) := by
  obtain ⟨hv, hs⟩ := applyBinary_agrees hcalls op x'.value (y x'.store).value hy.store
  constructor
  · simpa only [combine, hx.value, hy.value] using hv
  · simp only [combine, hx.reads, hy.reads]
  · simpa only [combine, hx.value, hy.value] using hs

mutual
theorem Term.eval_agrees (hcalls : calls.IgnoresTemps) : (e : Term) → {s t : Store} →
    s.Agrees t →
    (e.eval calls scope frame s).Agrees (e.eval calls scope frame t)
  | .integer _, _, _, h | .constant _, _, _, h => ⟨rfl, rfl, h⟩
  | .string value, _, _, h =>
    ⟨(stringValue_agrees hcalls value h).1, rfl, (stringValue_agrees hcalls value h).2⟩
  | .variable name, _, _, h => ⟨by simp only [Term.eval, value?_agrees h], rfl, h⟩
  | .element array index, _, _, h => by
    have hi := index.eval_agrees hcalls h
    constructor
    · simp only [Term.eval, value?_agrees h, hi.value, hi.store.memory]
    · simp only [Term.eval, value?_agrees h, hi.value, hi.reads]
    · exact hi.store
  | .group inner, _, _, h => inner.eval_agrees hcalls h
  | .unary op operand, _, _, h => by
    have ho := operand.eval_agrees hcalls h
    exact ⟨congrArg (applyUnary op) ho.value, ho.reads, ho.store⟩
  | .call call, _, _, h => call.eval_agrees hcalls h
theorem Operand.eval_agrees (hcalls : calls.IgnoresTemps) : (o : Operand) → {s t : Store} →
    s.Agrees t →
    (o.eval calls scope frame s).Agrees (o.eval calls scope frame t)
  | .term single, _, _, h => single.eval_agrees hcalls h
  | .product left _ right, _, _, h =>
    combine_agrees hcalls (left.eval_agrees hcalls h)
      (right.eval_agrees hcalls (left.eval_agrees hcalls h).store)
theorem Expression.eval_agrees (hcalls : calls.IgnoresTemps) : (e : Expression) → {s t : Store} →
    s.Agrees t →
    (e.eval calls scope frame s).Agrees (e.eval calls scope frame t)
  | .operand single, _, _, h => single.eval_agrees hcalls h
  | .sum left _ right, _, _, h =>
    combine_agrees hcalls (left.eval_agrees hcalls h)
      (right.eval_agrees hcalls (left.eval_agrees hcalls h).store)
theorem Call.eval_agrees (hcalls : calls.IgnoresTemps) : (c : Call) → {s t : Store} →
    s.Agrees t →
    (c.eval calls scope frame s).Agrees (c.eval calls scope frame t)
  | .mk callee args, _, t, h => by
    have hargs := Arguments.eval_agrees hcalls args h
    obtain ⟨hv, hs⟩ := hcalls (callee.label scope) (callee.receiver scope frame t ++
      (Arguments.eval calls scope frame args t).value) _ _ hargs.store
    constructor
    · simpa only [Call.eval, receiver_agrees h, hargs.value] using hv
    · exact hargs.reads
    · simpa only [Call.eval, receiver_agrees h, hargs.value] using hs
theorem Arguments.eval_agrees (hcalls : calls.IgnoresTemps) : (es : List Expression) →
    {s t : Store} →
    s.Agrees t →
    (Arguments.eval calls scope frame es s).Agrees (Arguments.eval calls scope frame es t)
  | [], _, _, h => ⟨rfl, rfl, h⟩
  | first :: others, _, _, h => by
    have hf := first.eval_agrees hcalls h
    have ho := Arguments.eval_agrees hcalls others hf.store
    exact ⟨congrArg₂ List.cons hf.value ho.value, congrArg₂ List.append hf.reads ho.reads,
      ho.store⟩
end

end

end Syntax

end JackVM
