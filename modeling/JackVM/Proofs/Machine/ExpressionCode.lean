import JackVM.Proofs.Grammar.ExpressionComplete
import JackVM.Proofs.Grammar.ExpressionSound
import JackVM.Proofs.Machine.Evaluation

/-!
# The code of an expression computes its value

Run from any state, the code pushes the value and does nothing else but what
the calls in it do and leave `pointer 1` at the last element that was read.
-/

namespace JackVM

open Syntax

namespace Machine

def gain (m : Machine) (o : Outcome Word) : Machine where
  stack := o.value :: m.stack
  frame := m.frame
  that := o.reads.getLastD m.that
  store := o.store

def gainAll (m : Machine) (o : Outcome (List Word)) : Machine where
  stack := o.value.reverse ++ m.stack
  frame := m.frame
  that := o.reads.getLastD m.that
  store := o.store

end Machine

namespace Syntax

open Machine

variable {calls : Calls} {scope : Scope} {m : Machine}

-- ---------------------------------------------------------------------------
-- Single steps
-- ---------------------------------------------------------------------------

theorem read_variable (v : Variable) :
    m.read v.segment v.index = some (variableValue m.frame m.store v) := by
  obtain ⟨name, type, kind, index⟩ := v
  cases kind <;> rfl

theorem exec_scopePush {name : String} {value : Word}
    (h : scope.value? m.frame m.store name = some value) :
    exec calls (scope.push name) m = some (m.push value) := by
  obtain ⟨v, hv, rfl⟩ := Option.map_eq_some_iff.mp h
  simp only [Scope.push, hv, Option.toList_some, List.map_cons, List.map_nil]
  exact exec_push (read_variable v)

theorem value?_of_declares {name : String} (h : scope.Declares name) (frame : Frame)
    (store : Store) : scope.value? frame store name =
      some ((scope.value? frame store name).getD 0) := by
  obtain ⟨v, hv⟩ := Option.isSome_iff_exists.mp h
  simp [Scope.value?, hv]

theorem exec_constant (word : Constant) :
    exec calls word.code m = some (m.push (word.value m.frame)) := by
  cases word <;> rfl

section
variable (frame : Frame) (that : Word) (store : Store)

theorem exec_unary (op : UnaryOperator) (x : Word) (stack : List Word) :
    exec calls [op.instruction] ⟨x :: stack, frame, that, store⟩ =
      some ⟨applyUnary op x :: stack, frame, that, store⟩ := by
  cases op <;> rfl

theorem exec_binary (op : BinaryOperator) (x y : Word) (stack : List Word) :
    exec calls [op.instruction] ⟨y :: x :: stack, frame, that, store⟩ =
      some ⟨(applyBinary calls op x y store).1 :: stack, frame, that,
        (applyBinary calls op x y store).2⟩ := by
  cases op with
  | mul => exact exec_call "Math.multiply" [x, y] ..
  | div => exact exec_call "Math.divide" [x, y] ..
  | _ => rfl

theorem exec_pointAt (base i : Word) (stack : List Word) :
    exec calls pointAt ⟨i :: base :: stack, frame, that, store⟩ =
      some ⟨stack, frame, base + i, store⟩ := rfl

end

theorem exec_element :
    exec calls [.push .that 0] m = some (m.push (m.store.memory m.that)) := by
  refine exec_push ?_
  simp [Machine.read]

/-- What the last call made of the string is on the stack before each character. -/
theorem exec_characters (cs : List Char) (text : Word) (stack : List Word) (frame : Frame)
    (that : Word) (store : Store) :
    exec calls
      (cs.flatMap fun c => [.push .constant c.toNat, .call "String.appendChar" 2])
      ⟨text :: stack, frame, that, store⟩ =
    let done := appendAll calls cs text store
    some ⟨done.1 :: stack, frame, that, done.2⟩ := by
  induction cs generalizing text store with
  | nil => rfl
  | cons c cs ih =>
    rw [List.flatMap_cons]
    refine exec_trans ?_ (ih ..)
    exact exec_call "String.appendChar" [text, .ofNat 16 c.toNat] ..

theorem exec_string (value : String) :
    exec calls (stringCode value) m = some (m.gain
      ⟨(stringValue calls value m.store).1, (stringValue calls value m.store).2, []⟩) := by
  have hnew : exec calls [.push .constant value.length, .call "String.new" 1] m = some _ :=
    exec_call "String.new" [.ofNat 16 value.length] ..
  exact exec_trans hnew (exec_characters ..)

theorem exec_receiver (callee : Callee) :
    exec calls (callee.receiverCode scope) m =
      some { m with stack := (callee.receiver scope m.frame m.store).reverse ++ m.stack } := by
  cases callee with
  | own name => rfl
  | member owner name =>
    cases hv : scope.value? m.frame m.store owner with
    | some value =>
      rw [Callee.receiver, hv]
      exact exec_scopePush hv
    | none =>
      have hf : scope.find? owner = none := Option.map_eq_none_iff.mp hv
      simp [Callee.receiverCode, Callee.receiver, Scope.push, hf, hv]

theorem length_receiver (callee : Callee) (frame : Frame) (store : Store) :
    (callee.receiver scope frame store).length = callee.receivers scope := by
  cases callee with
  | own name => rfl
  | member owner name =>
    simp only [Callee.receiver, Callee.receivers, Callee.receiverCode, Scope.value?, Scope.push]
    cases scope.find? owner <;> rfl

theorem length_eval (es : List Expression) (frame : Frame) (store : Store) :
    (Arguments.eval calls scope frame es store).value.length = es.length := by
  induction es generalizing store with
  | nil => rfl
  | cons e es ih => exact congrArg (· + 1) (ih _)

theorem exec_combine {left right : List Instruction} {op : BinaryOperator} {x : Outcome Word}
    {y : Store → Outcome Word} (hl : exec calls left m = some (m.gain x))
    (hr : exec calls right (m.gain x) = some ((m.gain x).gain (y x.store))) :
    exec calls (left ++ right ++ [op.instruction]) m = some (m.gain (combine calls op x y)) := by
  refine exec_trans (exec_trans hl hr) ?_
  refine (exec_binary ..).trans ?_
  simp [Machine.gain, combine]

-- ---------------------------------------------------------------------------
-- Expressions
-- ---------------------------------------------------------------------------

mutual
theorem Term.exec_code : (e : Term) → {m : Machine} → e.Valid scope.Declares →
    exec calls (e.code scope) m = some (m.gain (e.eval calls scope m.frame m.store))
  | .integer _, _, _ => rfl
  | .string value, _, _ => exec_string value
  | .constant word, _, _ => exec_constant word
  | .variable name, m, hv => exec_scopePush (value?_of_declares hv ..)
  | .element array index, m, ⟨ha, hi⟩ => by
    have hp : exec calls (scope.push array) m = some (m.push _) :=
      exec_scopePush (value?_of_declares ha m.frame m.store)
    refine exec_trans (exec_trans (exec_trans hp (index.exec_code hi)) (exec_pointAt ..)) ?_
    refine exec_element.trans ?_
    simp [Machine.gain, Machine.push, Term.eval]
  | .group inner, _, hv => inner.exec_code hv
  | .unary _ operand, _, hv => exec_trans (operand.exec_code hv) (exec_unary ..)
  | .call call, _, hv => call.exec_code hv
theorem Operand.exec_code : (o : Operand) → {m : Machine} → o.Valid scope.Declares →
    exec calls (o.code scope) m = some (m.gain (o.eval calls scope m.frame m.store))
  | .term single, _, hv => single.exec_code hv
  | .product left _ right, _, ⟨hl, hr⟩ =>
    exec_combine (left.exec_code hl) (right.exec_code hr)
theorem Expression.exec_code : (e : Expression) → {m : Machine} → e.Valid scope.Declares →
    exec calls (e.code scope) m = some (m.gain (e.eval calls scope m.frame m.store))
  | .operand single, _, hv => single.exec_code hv
  | .sum left _ right, _, ⟨hl, hr⟩ =>
    exec_combine (left.exec_code hl) (right.exec_code hr)
theorem Call.exec_code : (c : Call) → {m : Machine} → c.Valid scope.Declares →
    exec calls (c.code scope) m = some (m.gain (c.eval calls scope m.frame m.store))
  | .mk callee args, m, ⟨_, ha⟩ => by
    have hlen : callee.receivers scope + args.length =
        (callee.receiver scope m.frame m.store ++
          (Arguments.eval calls scope m.frame args m.store).value).length := by
      rw [List.length_append, length_receiver, length_eval]
    refine exec_trans (exec_trans (exec_receiver callee) (Arguments.exec_code args ha)) ?_
    rw [hlen]
    refine Eq.trans ?_ (exec_call ..)
    simp [Machine.gainAll, Call.eval]
theorem Arguments.exec_code : (es : List Expression) → {m : Machine} →
    Arguments.Valid scope.Declares es →
    exec calls (Arguments.code scope es) m =
      some (m.gainAll (Arguments.eval calls scope m.frame es m.store))
  | [], _, _ => rfl
  | first :: others, m, ⟨hv, hvs⟩ => by
    refine (exec_trans (first.exec_code hv) (Arguments.exec_code others hvs)).trans ?_
    simp [Machine.gain, Machine.gainAll, Arguments.eval]
end

end Syntax

namespace Compile

open Machine TokenStream

/-- From `s` to `s'`, code is written that pushes the value of the expression
and keeps the frame. Only calls change the store, and `pointer 1` is left at the
last element that was read. -/
def Computes (calls : Calls) (e : Expression) (s s' : CompileState Listing) : Prop :=
  ∃ code : List Instruction, s'.out = s.out ++ code.toArray ∧ ∀ m : Machine,
    let o := e.eval calls s.scope m.frame m.store
    exec calls code m = some ⟨o.value :: m.stack, m.frame, o.reads.getLastD m.that, o.store⟩ ∧
      m.store.ByCalls calls o.store

theorem computes_after {calls : Calls} {e : Expression} {s : CompileState Listing}
    {t : TokenStream} (hv : e.Valid s.Declares) :
    Computes calls e s (s.after t (e.code s.scope) 0) :=
  ⟨e.code s.scope, rfl, fun m => ⟨e.exec_code hv, e.eval_byCalls m.store⟩⟩

/-- Whatever is compiled as an expression computes the value of the tree that
its tokens spell, and every tree that meets the static conditions is compiled
so. -/
theorem expression_computes (calls : Calls) (bound : Nat) (s : CompileState Listing) :
    (∀ s', expression bound s = .ok () s' →
      ∃ e : Expression, s.tokens.Reads e.tokens s'.tokens ∧ e.Valid s.Declares ∧
        Computes calls e s s') ∧
    ∀ (e : Expression) (t : TokenStream), s.tokens.Reads e.tokens t → e.Valid s.Declares →
      t.Stops afterExpression → e.tokens.length ≤ bound →
      ∃ s', expression bound s = .ok () s' ∧ s'.tokens = t ∧ Computes calls e s s' := by
  constructor
  · intro s' h
    obtain ⟨e, t, hr, hv, rfl⟩ := expression_ok bound s s' h
    exact ⟨e, hr, hv, computes_after hv⟩
  · intro e t hr hv ht hl
    exact ⟨_, expression_run e bound hr hv ht hl, rfl, computes_after hv⟩

def unread (kinds : List TokenKind) (names : List String) : CompileState Listing where
  tokens := ⟨kinds.map fun kind => .token ⟨kind, ⟨0, 0⟩⟩, 0⟩
  context :=
    { declarations := names.foldl (fun d name => d.add ⟨name, "int", .var, d.count .var⟩) .empty }
  out := #[]

theorem reads_unread (kinds : List TokenKind) (names : List String) :
    (unread kinds names).tokens.Reads kinds ⟨[], 0⟩ := by
  simpa [unread, Function.comp_def] using reads_all (kinds.map (⟨·, ⟨0, 0⟩⟩)) 0

def multiply : Calls
  | "Math.multiply", [x, y], s => (x * y, s)
  | _, _, s => (0, s)

def idle : Machine where
  stack := []
  frame := ⟨fun i => if i = 0 then 10 else 100, fun _ => 0, 0⟩
  that := 0
  store := ⟨fun a => if a = 102 then 2 else 0, fun _ => 0, fun _ => 0⟩

def difference : Expression :=
  .sum (.operand (.term (.variable "x"))) minus
    (.product (.term (.element "y" (.operand (.term (.integer 2))))) times (.integer 3))

theorem valid_difference :
    difference.Valid (unread difference.tokens ["x", "y"]).Declares :=
  ⟨rfl, ⟨rfl, trivial⟩, trivial⟩

theorem expression_computes_difference :
    difference.Valid (unread difference.tokens ["x", "y"]).Declares ∧
    ∃ s', expression 8 (unread difference.tokens ["x", "y"]) = .ok () s' ∧
      exec multiply s'.out.toList idle = some { idle with stack := [4], that := 102 } := by
  obtain ⟨s', h, -, code, hout, hrun⟩ :=
    (expression_computes multiply 8 (unread difference.tokens ["x", "y"])).2 difference ⟨[], 0⟩
      (reads_unread ..) valid_difference trivial (by decide)
  have hvalue : difference.eval multiply (unread difference.tokens ["x", "y"]).scope idle.frame
      idle.store = ⟨4, idle.store, [102]⟩ := by rfl
  have hcode : s'.out.toList = code := by simp [hout, unread]
  refine ⟨valid_difference, s', h, ?_⟩
  rw [hcode, (hrun idle).1, hvalue]
  rfl

end Compile

end JackVM
