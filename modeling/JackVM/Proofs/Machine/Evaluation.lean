import JackVM.Proofs.Machine.Basic
import JackVM.Proofs.Syntax.Code

/-!
# The value of an expression

Evaluation by recursion on trees, from left to right. Besides the value, it
tells what the calls made of the shared store and which cells were
read as elements of arrays, in order.
-/

namespace JackVM.Syntax

structure Outcome (α : Type) where
  value : α
  store : Store
  reads : List Word

/-- A field is a cell of the current object. -/
def variableValue (frame : Frame) (store : Store) (v : Variable) : Word :=
  match v.kind with
  | .static => store.statics v.index
  | .field => store.memory (frame.this + .ofNat 16 v.index)
  | .arg => frame.arguments v.index
  | .var => frame.locals v.index

def Scope.value? (scope : Scope) (frame : Frame) (store : Store) (name : String) : Option Word :=
  (scope.find? name).map (variableValue frame store)

def Constant.value (frame : Frame) : Constant → Word
  | .true => -1
  | .false | .null => 0
  | .this => frame.this

def applyUnary : UnaryOperator → Word → Word
  | .neg, x => -x
  | .not, x => ~~~x

section
variable (calls : Calls)

/-- Multiplication and division are calls. -/
def applyBinary : BinaryOperator → Word → Word → Store → Word × Store
  | .add, x, y, s => (x + y, s)
  | .sub, x, y, s => (x - y, s)
  | .and, x, y, s => (x &&& y, s)
  | .or, x, y, s => (x ||| y, s)
  | .lt, x, y, s => (truth (x.slt y), s)
  | .gt, x, y, s => (truth (y.slt x), s)
  | .eq, x, y, s => (truth (x == y), s)
  | .mul, x, y, s => calls "Math.multiply" [x, y] s
  | .div, x, y, s => calls "Math.divide" [x, y] s

def appendAll : List Char → Word → Store → Word × Store
  | [], text, s => (text, s)
  | c :: cs, text, s =>
    let (text, s) := calls "String.appendChar" [text, .ofNat 16 c.toNat] s
    appendAll cs text s

def stringValue (value : String) (s : Store) : Word × Store :=
  let (text, s) := calls "String.new" [.ofNat 16 value.length] s
  appendAll calls value.toList text s

variable (scope : Scope) (frame : Frame)

def Callee.receiver (store : Store) : Callee → List Word
  | .own _ => [frame.this]
  | .member owner _ => (scope.value? frame store owner).toList

def combine (op : BinaryOperator) (x : Outcome Word) (right : Store → Outcome Word) :
    Outcome Word :=
  let y := right x.store
  let (value, store) := applyBinary calls op x.value y.value y.store
  ⟨value, store, x.reads ++ y.reads⟩

mutual
def Term.eval : Term → Store → Outcome Word
  | .integer value, s => ⟨.ofNat 16 value, s, []⟩
  | .string value, s => ⟨(stringValue calls value s).1, (stringValue calls value s).2, []⟩
  | .constant word, s => ⟨word.value frame, s, []⟩
  | .variable name, s => ⟨(scope.value? frame s name).getD 0, s, []⟩
  | .element array index, s =>
    let base := (scope.value? frame s array).getD 0
    let i := index.eval s
    ⟨i.store.memory (base + i.value), i.store, i.reads ++ [base + i.value]⟩
  | .group inner, s => inner.eval s
  | .unary op operand, s =>
    let x := operand.eval s
    { x with value := applyUnary op x.value }
  | .call call, s => call.eval s
def Operand.eval : Operand → Store → Outcome Word
  | .term single, s => single.eval s
  | .product left op right, s => combine calls op.1 (left.eval s) fun s => right.eval s
def Expression.eval : Expression → Store → Outcome Word
  | .operand single, s => single.eval s
  | .sum left op right, s => combine calls op.1 (left.eval s) fun s => right.eval s
def Call.eval : Call → Store → Outcome Word
  | .mk callee args, s =>
    let values := Arguments.eval args s
    let (value, store) := calls (callee.label scope)
      (callee.receiver scope frame s ++ values.value) values.store
    ⟨value, store, values.reads⟩
def Arguments.eval : List Expression → Store → Outcome (List Word)
  | [], s => ⟨[], s, []⟩
  | first :: others, s =>
    let x := first.eval s
    let xs := Arguments.eval others x.store
    ⟨x.value :: xs.value, xs.store, x.reads ++ xs.reads⟩
end

end

-- ---------------------------------------------------------------------------
-- What is read
-- ---------------------------------------------------------------------------

mutual
/-- Every part of an expression is evaluated, so this is told by its tree. -/
def Term.readsElement : Term → Bool
  | .integer _ | .string _ | .constant _ | .variable _ => false
  | .element _ _ => true
  | .group inner => inner.readsElement
  | .unary _ operand => operand.readsElement
  | .call call => call.readsElement
def Operand.readsElement : Operand → Bool
  | .term single => single.readsElement
  | .product left _ right => left.readsElement || right.readsElement
def Expression.readsElement : Expression → Bool
  | .operand single => single.readsElement
  | .sum left _ right => left.readsElement || right.readsElement
def Call.readsElement : Call → Bool
  | .mk _ args => Arguments.readsElement args
def Arguments.readsElement : List Expression → Bool
  | [] => false
  | first :: others => first.readsElement || Arguments.readsElement others
end

section
variable {calls : Calls} {scope : Scope} {frame : Frame}

theorem combine_reads {op : BinaryOperator} {x : Outcome Word} {y : Store → Outcome Word}
    {l r : Bool} (hx : x.reads = [] ↔ l = false) (hy : (y x.store).reads = [] ↔ r = false) :
    (combine calls op x y).reads = [] ↔ (l || r) = false := by
  rw [combine, List.append_eq_nil_iff, hx, hy, Bool.or_eq_false_iff]

mutual
theorem Term.reads_eq_nil : (e : Term) → (s : Store) →
    ((e.eval calls scope frame s).reads = [] ↔ e.readsElement = false)
  | .integer _, _ | .string _, _ | .constant _, _ | .variable _, _ => ⟨fun _ => rfl, fun _ => rfl⟩
  | .element _ _, _ => ⟨fun h => (List.append_ne_nil_of_right_ne_nil _ (by simp) h).elim, nofun⟩
  | .group inner, s => inner.reads_eq_nil s
  | .unary _ operand, s => operand.reads_eq_nil s
  | .call call, s => call.reads_eq_nil s
theorem Operand.reads_eq_nil : (o : Operand) → (s : Store) →
    ((o.eval calls scope frame s).reads = [] ↔ o.readsElement = false)
  | .term single, s => single.reads_eq_nil s
  | .product left _ right, s => combine_reads (left.reads_eq_nil s) (right.reads_eq_nil _)
theorem Expression.reads_eq_nil : (e : Expression) → (s : Store) →
    ((e.eval calls scope frame s).reads = [] ↔ e.readsElement = false)
  | .operand single, s => single.reads_eq_nil s
  | .sum left _ right, s => combine_reads (left.reads_eq_nil s) (right.reads_eq_nil _)
theorem Call.reads_eq_nil : (c : Call) → (s : Store) →
    ((c.eval calls scope frame s).reads = [] ↔ c.readsElement = false)
  | .mk _ args, s => Arguments.reads_eq_nil args s
theorem Arguments.reads_eq_nil : (es : List Expression) → (s : Store) →
    ((Arguments.eval calls scope frame es s).reads = [] ↔ Arguments.readsElement es = false)
  | [], _ => ⟨fun _ => rfl, fun _ => rfl⟩
  | first :: others, s => by
    rw [Arguments.eval, Arguments.readsElement, List.append_eq_nil_iff, first.reads_eq_nil s,
      Arguments.reads_eq_nil others, Bool.or_eq_false_iff]
end

end

-- ---------------------------------------------------------------------------
-- The store changes by calls alone
-- ---------------------------------------------------------------------------

section
variable {calls : Calls} {scope : Scope} {frame : Frame}

theorem applyBinary_byCalls (op : BinaryOperator) (x y : Word) (s : Store) :
    s.ByCalls calls (applyBinary calls op x y s).2 := by
  cases op with
  | mul | div => exact .call .refl ..
  | _ => exact .refl

theorem appendAll_byCalls (cs : List Char) (text : Word) (s : Store) :
    s.ByCalls calls (appendAll calls cs text s).2 := by
  induction cs generalizing text s with
  | nil => exact .refl
  | cons c cs ih => exact (Store.ByCalls.refl.call ..).trans (ih ..)

theorem stringValue_byCalls (value : String) (s : Store) :
    s.ByCalls calls (stringValue calls value s).2 :=
  (Store.ByCalls.refl.call ..).trans (appendAll_byCalls ..)

theorem combine_byCalls {op : BinaryOperator} {x : Outcome Word} {y : Store → Outcome Word}
    {s : Store} (hx : s.ByCalls calls x.store) (hy : x.store.ByCalls calls (y x.store).store) :
    s.ByCalls calls (combine calls op x y).store :=
  (hx.trans hy).trans (applyBinary_byCalls ..)

mutual
theorem Term.eval_byCalls : (e : Term) → (s : Store) →
    s.ByCalls calls (e.eval calls scope frame s).store
  | .integer _, _ | .constant _, _ | .variable _, _ => .refl
  | .string value, s => stringValue_byCalls value s
  | .element _ index, s => index.eval_byCalls s
  | .group inner, s => inner.eval_byCalls s
  | .unary _ operand, s => operand.eval_byCalls s
  | .call call, s => call.eval_byCalls s
theorem Operand.eval_byCalls : (o : Operand) → (s : Store) →
    s.ByCalls calls (o.eval calls scope frame s).store
  | .term single, s => single.eval_byCalls s
  | .product left _ right, s => combine_byCalls (left.eval_byCalls s) (right.eval_byCalls _)
theorem Expression.eval_byCalls : (e : Expression) → (s : Store) →
    s.ByCalls calls (e.eval calls scope frame s).store
  | .operand single, s => single.eval_byCalls s
  | .sum left _ right, s => combine_byCalls (left.eval_byCalls s) (right.eval_byCalls _)
theorem Call.eval_byCalls : (c : Call) → (s : Store) →
    s.ByCalls calls (c.eval calls scope frame s).store
  | .mk _ args, s => (Arguments.eval_byCalls args s).call ..
theorem Arguments.eval_byCalls : (es : List Expression) → (s : Store) →
    s.ByCalls calls (Arguments.eval calls scope frame es s).store
  | [], _ => .refl
  | first :: others, s => (first.eval_byCalls s).trans (Arguments.eval_byCalls others _)
end

end

end JackVM.Syntax
