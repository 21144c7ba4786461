import JackVM.Proofs.Grammar.ClassComplete
import JackVM.Proofs.Grammar.ClassSound
import JackVM.Proofs.Machine.ElementAssignment
import JackVM.Proofs.Machine.Flow
import JackVM.Proofs.Machine.Interpreter

/-!
# The code of statements does what they say

Wherever the interpreter comes to an end, the machine does so too: behind the
code if the statements fall off their end, else at a `return` with the value on
top of the stack.
-/

namespace JackVM

open Syntax

structure Machine.Matches (m : Machine) (stack : List Word) (s : State) : Prop where
  stack : m.stack = stack
  frame : m.frame = s.frame
  store : m.store.Agrees s.store

/-- From `r`, the machine gets where this ending says. The stack above `stack`
has been used up, but for what a `return` leaves. -/
def Ends (calls : Calls) (code : List Instruction) (stop : Nat) (stack : List Word)
    (r : Running) : Ending → Prop
  | .falls s => ∃ m, Reaches calls code r ⟨stop, m⟩ ∧ m.Matches stack s
  | .returns value s => ∃ place m below, Reaches calls code r ⟨place, m⟩ ∧
      code[place]? = some .ret ∧ m.Matches (value :: (below ++ stack)) s

def Simulates (calls : Calls) (code : List Instruction) (start stop : Nat)
    (f : State → Option Ending) : Prop :=
  ∀ m stack s e, m.Matches stack s → f s = some e → Ends calls code stop stack ⟨start, m⟩ e

section
variable {calls : Calls} {code : List Instruction} {start stop mid : Nat} {stack : List Word}
  {r r' : Running} {e : Ending} {f g : State → Option Ending}

theorem Ends.from (h : Ends calls code stop stack r' e) (hr : Reaches calls code r r') :
    Ends calls code stop stack r e := by
  cases e with
  | falls s =>
    obtain ⟨m, h, hm⟩ := h
    exact ⟨m, hr.trans h, hm⟩
  | returns value s =>
    obtain ⟨place, m, below, h, hp, hm⟩ := h
    exact ⟨place, m, below, hr.trans h, hp, hm⟩

theorem Ends.onto (h : Ends calls code mid stack r e)
    (hr : ∀ m, Reaches calls code ⟨mid, m⟩ ⟨stop, m⟩) : Ends calls code stop stack r e := by
  cases e with
  | falls s =>
    obtain ⟨m, h, hm⟩ := h
    exact ⟨m, h.trans (hr m), hm⟩
  | returns value s => exact h

theorem Simulates.onto (h : Simulates calls code start mid f)
    (hr : ∀ m, Reaches calls code ⟨mid, m⟩ ⟨stop, m⟩) : Simulates calls code start stop f :=
  fun m stack s e hm he => (h m stack s e hm he).onto hr

theorem simulates_proceed : Simulates calls code start start proceed := by
  intro m stack s e hm he
  cases he
  exact ⟨m, .refl, hm⟩

theorem Simulates.chain (h : Simulates calls code start mid f)
    (h' : Simulates calls code mid stop g) : Simulates calls code start stop (chain f g) := by
  intro m stack s e hm he
  unfold Syntax.chain at he
  cases hf : f s with
  | none => simp [hf] at he
  | some first =>
    rw [hf] at he
    have hfirst := h m stack s first hm hf
    cases first with
    | falls s' =>
      obtain ⟨m', hr, hm'⟩ := hfirst
      exact (h' m' stack s' e hm' he).from hr
    | returns value s' =>
      cases he
      exact hfirst

end

namespace Syntax

open Machine

variable {calls : Calls} {scope : Scope} {code a b : List Instruction} {k n l : Nat}
  {f g : State → Option Ending}

-- ---------------------------------------------------------------------------
-- Statements without others in them
-- ---------------------------------------------------------------------------

theorem simulates_exec (hc : CodeAt code k a)
    (h : ∀ m stack s e, m.Matches stack s → f s = some e → ∃ s' m', e = .falls s' ∧
      exec calls a m = some m' ∧ m'.Matches stack s') :
    Simulates calls code k (k + a.length) f := by
  intro m stack s e hm he
  obtain ⟨s', m', rfl, hexec, hm'⟩ := h m stack s e hm he
  exact ⟨m', reaches_exec hc hexec, hm'⟩

theorem gain_matches {m : Machine} {stack : List Word} {s : State} {o o' : Outcome Word}
    (hm : m.Matches stack s) (ho : o.Agrees o') :
    (m.gain o).Matches (o'.value :: stack) { s with store := o'.store } := by
  constructor
  · rw [gain, ho.value, hm.stack]
  · exact hm.frame
  · exact ho.store

theorem exec_expression (hcalls : calls.IgnoresTemps) {e : Expression}
    (hv : e.Valid scope.Declares) {m : Machine} {stack : List Word} {s : State}
    (hm : m.Matches stack s) :
    let o := e.eval calls scope s.frame s.store
    ∃ m', exec calls (e.code scope) m = some m' ∧
      m'.Matches (o.value :: stack) { s with store := o.store } := by
  refine ⟨_, e.exec_code hv, gain_matches hm ?_⟩
  rw [hm.frame]
  exact e.eval_agrees hcalls hm.store

theorem exec_scopePop {name : String} {v : Variable} (hf : scope.find? name = some v) {m : Machine}
    {value : Word} {stack : List Word} {s : State} (hm : m.Matches (value :: stack) s) :
    ∃ m', exec calls (scope.pop name) m = some m' ∧ m'.Matches stack (s.assign v value) := by
  obtain ⟨_, frame, that, store⟩ := m
  obtain ⟨rfl, rfl, hs⟩ := hm
  obtain ⟨name, type, kind, index⟩ := v
  simp only [Scope.pop, hf, Option.toList_some, List.map_cons, List.map_nil]
  cases kind with
  | static =>
    exact ⟨_, rfl, rfl, rfl, hs.memory, congrArg (Function.update · index value) hs.statics⟩
  | field => exact ⟨_, rfl, rfl, rfl, hs.set ..⟩
  | arg | var => exact ⟨_, rfl, rfl, rfl, hs⟩

theorem simulates_assign (hcalls : calls.IgnoresTemps) {rounds : Nat} {target : String}
    {value : Expression} (hv : value.Valid scope.Declares)
    (hc : CodeAt code k ((Statement.assign target value).code scope n)) :
    Simulates calls code k (k + ((Statement.assign target value).code scope n).length)
      ((Statement.assign target value).interpret calls scope rounds) := by
  refine simulates_exec hc fun m stack s e hm he => ?_
  obtain ⟨v, hf, rfl⟩ := Option.map_eq_some_iff.mp he
  obtain ⟨m₁, hexec, hm₁⟩ := exec_expression hcalls hv hm
  obtain ⟨m₂, hpop, hm₂⟩ := exec_scopePop hf hm₁
  exact ⟨_, m₂, rfl, exec_trans hexec hpop, hm₂⟩

/-- As the value reads no element, the address of the target is still there
when the value is stored. -/
theorem simulates_assignElement (hcalls : calls.IgnoresTemps) {rounds : Nat} {array : String}
    {index value : Expression} (hi : index.Valid scope.Declares)
    (hv : value.Valid scope.Declares) (hu : value.readsElement = false)
    (hc : CodeAt code k ((Statement.assignElement array index value).code scope n)) :
    Simulates calls code k
      (k + ((Statement.assignElement array index value).code scope n).length)
      ((Statement.assignElement array index value).interpret calls scope rounds) := by
  refine simulates_exec hc fun m stack s e hm he => ?_
  obtain ⟨base, hb, rfl⟩ := Option.map_eq_some_iff.mp he
  have hbase : scope.value? m.frame m.store array = some base := by
    rw [hm.frame, value?_agrees hm.store, hb]
  refine ⟨_, _, rfl, exec_assignElement hbase hi hv, ?_⟩
  rw [(value.reads_eq_nil _).mpr hu, hm.frame, hm.stack]
  have hia : (index.eval calls scope s.frame m.store).Agrees _ := index.eval_agrees hcalls hm.store
  have hxa : (value.eval calls scope s.frame _).Agrees _ := value.eval_agrees hcalls hia.store
  refine ⟨rfl, rfl, ?_⟩
  simp only [written, List.getLastD_nil, hia.value, hxa.value]
  exact hxa.store.set ..

theorem simulates_run (hcalls : calls.IgnoresTemps) {rounds : Nat} {call : Call}
    (hv : call.Valid scope.Declares) (hc : CodeAt code k ((Statement.run call).code scope n)) :
    Simulates calls code k (k + ((Statement.run call).code scope n).length)
      ((Statement.run call).interpret calls scope rounds) := by
  refine simulates_exec hc fun m stack s e hm he => ?_
  cases he
  have ha : (call.eval calls scope m.frame m.store).Agrees _ := call.eval_agrees hcalls hm.store
  rw [hm.frame] at ha
  refine ⟨_, _, rfl, exec_trans (call.exec_code hv) rfl, hm.stack, hm.frame, ?_⟩
  rw [hm.frame]
  exact ⟨ha.store.memory, ha.store.statics⟩

theorem exec_returned (hcalls : calls.IgnoresTemps) {value : Option Expression}
    (hv : (Statement.leave value).Valid scope.Declares scope.returnsVoid) {m : Machine}
    {stack : List Word} {s : State} {e : Ending} (hm : m.Matches stack s)
    (he : leaveWith calls scope value s = some e) :
    ∃ x s' m' below, e = .returns x s' ∧ exec calls (returned scope value) m = some m' ∧
      m'.Matches (x :: (below ++ stack)) s' := by
  cases value with
  | none =>
    have h : scope.returnsVoid = true := hv
    cases he
    simp only [returned, h]
    exact ⟨0, s, m.push 0, [], rfl, rfl, congrArg _ hm.stack, hm.frame, hm.store⟩
  | some value =>
    obtain ⟨m', hexec, hm'⟩ := exec_expression hcalls hv hm
    cases he
    cases h : scope.returnsVoid with
    | true =>
      simp only [returned, h]
      exact ⟨0, _, m'.push 0, [_], rfl, exec_trans hexec rfl, congrArg _ hm'.stack, hm'.frame,
        hm'.store⟩
    | false =>
      simp only [returned, h]
      exact ⟨_, _, m', [], rfl, exec_trans hexec rfl, hm'⟩

theorem simulates_leave (hcalls : calls.IgnoresTemps) {rounds : Nat} {value : Option Expression}
    (hv : (Statement.leave value).Valid scope.Declares scope.returnsVoid)
    (hc : CodeAt code k ((Statement.leave value).code scope n)) :
    Simulates calls code k (k + ((Statement.leave value).code scope n).length)
      ((Statement.leave value).interpret calls scope rounds) := by
  intro m stack s e hm he
  rw [code_leave] at hc
  obtain ⟨x, s', m', below, rfl, hexec, hm'⟩ := exec_returned hcalls hv hm he
  exact ⟨_, m', below, reaches_exec hc.left hexec, hc.right.head, hm'⟩

-- ---------------------------------------------------------------------------
-- Branches and loops
-- ---------------------------------------------------------------------------

section
variable (hcalls : calls.IgnoresTemps) (hn : (definedLabels code).Nodup)
  {condition : Expression} (hv : condition.Valid scope.Declares)
include hcalls hn hv

theorem reaches_test (hc : CodeAt code k (testCode scope condition n))
    (hl : code[l]? = some (.label (scope.label n))) {m : Machine} {stack : List Word} {s : State}
    (hm : m.Matches stack s) :
    let o := condition.eval calls scope s.frame s.store
    ∃ m', m'.Matches stack { s with store := o.store } ∧ Reaches calls code ⟨k, m⟩
      ⟨if o.value = -1 then k + (testCode scope condition n).length else l + 1, m'⟩ := by
  intro o
  obtain ⟨m₁, hexec, hm₁⟩ := exec_expression hcalls hv hm
  have hnot : exec calls [.operate .not] m₁ = some { m₁ with stack := ~~~o.value :: stack } := by
    simp [exec, step, Operation.apply, hm₁.stack, o]
  have hc' : CodeAt code k (condition.code scope ++ [.operate .not] ++
      [.ifGoto (scope.label n)]) := by
    simpa [testCode] using hc
  have hr := reaches_exec hc'.left (exec_trans hexec hnot)
  have hj : Reaches calls code ⟨_, { m₁ with stack := ~~~o.value :: stack }⟩ _ :=
    reaches_ifGoto hn hl hc'.right.head (~~~o.value) stack rfl
  have hiff : ~~~o.value = 0 ↔ o.value = -1 := by
    rw [BitVec.not_eq_comm]
    exact Iff.rfl
  have hlen : k + (condition.code scope ++ [Instruction.operate .not]).length + 1 =
      k + (testCode scope condition n).length := by
    simp [testCode, Nat.add_assoc]
  simp only [hiff, hlen] at hj
  exact ⟨{ m₁ with stack }, ⟨rfl, hm₁.frame, hm₁.store⟩, hr.trans hj⟩

theorem simulates_choose {stop : Nat} (hc : CodeAt code k (testCode scope condition n))
    (hl : code[l]? = some (.label (scope.label n)))
    (hf : Simulates calls code (k + (testCode scope condition n).length) stop f)
    (hg : Simulates calls code (l + 1) stop g) :
    Simulates calls code k stop (choose calls scope condition f g) := by
  intro m stack s e hm he
  obtain ⟨m', hm', hr⟩ := reaches_test hcalls hn hv hc hl hm
  simp only [choose] at he
  split at he
  case isTrue ht =>
    rw [if_pos ht] at hr
    exact (hf m' stack _ e hm' he).from hr
  case isFalse ht =>
    rw [if_neg ht] at hr
    exact (hg m' stack _ e hm' he).from hr

theorem simulates_branch (hc : CodeAt code k (branchCode scope n condition a b))
    (hf : ∀ {k}, CodeAt code k a → Simulates calls code k (k + a.length) f)
    (hg : ∀ {k}, CodeAt code k b → Simulates calls code k (k + b.length) g) :
    Simulates calls code k (k + (branchCode scope n condition a b).length)
      (choose calls scope condition f g) := by
  have hstop : k + (branchCode scope n condition a b).length =
      k + (testCode scope condition n).length + a.length + 2 + b.length + 1 := by
    simp only [branchCode_eq, List.length_append, List.length_cons, List.length_nil]
    omega
  simp only [branchCode_eq, List.append_assoc] at hc
  have hbody := hc.right
  have hjump := hbody.right
  have hother := hjump.right
  have hend : code[k + (testCode scope condition n).length + a.length + 2 + b.length]? =
      some (.label (scope.label (n + 1))) := hother.right.head
  rw [hstop]
  refine simulates_choose hcalls hn hv hc.left hjump.tail.head ?_ ?_
  · exact (hf hbody.left).onto fun m => reaches_goto hn hend hjump.head
  · exact (hg hother.left).onto fun m => reaches_label hend

/-- By induction on the rounds: after each the machine is in front of the test again. -/
theorem simulates_loop (hc : CodeAt code k (loopCode scope n condition a))
    (hf : ∀ {k}, CodeAt code k a → Simulates calls code k (k + a.length) f) (rounds : Nat) :
    Simulates calls code k (k + (loopCode scope n condition a).length)
      (repeated calls scope condition f rounds) := by
  have hstop : k + (loopCode scope n condition a).length =
      k + 1 + (testCode scope condition (n + 1)).length + a.length + 1 + 1 := by
    simp only [loopCode_eq, List.length_append, List.length_cons, List.length_nil]
    omega
  simp only [loopCode_eq, List.append_assoc] at hc
  have hstart : code[k]? = some (.label (scope.label n)) := hc.head
  have htest : CodeAt code (k + 1) _ := hc.right
  have hbody := htest.right
  have hjump := hbody.right
  have hend := hjump.tail.head
  rw [hstop]
  have hrounds : Simulates calls code (k + 1)
      (k + 1 + (testCode scope condition (n + 1)).length + a.length + 1 + 1)
      (repeated calls scope condition f rounds) := by
    induction rounds with
    | zero =>
      intro m stack s e hm he
      cases he
    | succ rounds ih =>
      refine simulates_choose hcalls hn hv htest.left hend ?_ simulates_proceed
      exact ((hf hbody.left).onto fun m => reaches_goto hn hstart hjump.head).chain ih
  exact fun m stack s e hm he => (hrounds m stack s e hm he).from (reaches_label hstart)

end

-- ---------------------------------------------------------------------------
-- All statements
-- ---------------------------------------------------------------------------

mutual
/-- No value that is stored in an element is computed from other elements. -/
def Statement.Undisturbed : Statement → Prop
  | .assignElement _ _ value => value.readsElement = false
  | .assign _ _ | .run _ | .leave _ => True
  | .ifThen _ body => Statements.Undisturbed body
  | .ifElse _ body otherwise => Statements.Undisturbed body ∧ Statements.Undisturbed otherwise
  | .whileLoop _ body => Statements.Undisturbed body
def Statements.Undisturbed : List Statement → Prop
  | [] => True
  | first :: others => first.Undisturbed ∧ Statements.Undisturbed others
end

mutual
theorem Statement.simulates (hcalls : calls.IgnoresTemps) (hn : (definedLabels code).Nodup)
    (rounds : Nat) : (st : Statement) → {n k : Nat} →
    st.Valid scope.Declares scope.returnsVoid → st.Undisturbed →
    CodeAt code k (st.code scope n) →
    Simulates calls code k (k + (st.code scope n).length) (st.interpret calls scope rounds)
  | .assign _ _, _, _, ⟨_, hv⟩, _, hc => simulates_assign hcalls hv hc
  | .assignElement _ _ _, _, _, ⟨_, hi, hv⟩, hu, hc => simulates_assignElement hcalls hi hv hu hc
  | .ifThen _ body, _, _, ⟨hcond, hb⟩, hu, hc =>
    simulates_branch hcalls hn hcond hc (Statements.simulates hcalls hn rounds body hb hu)
      fun _ => simulates_proceed
  | .ifElse _ body otherwise, _, _, ⟨hcond, hb, ho⟩, ⟨hub, huo⟩, hc =>
    simulates_branch hcalls hn hcond hc (Statements.simulates hcalls hn rounds body hb hub)
      (Statements.simulates hcalls hn rounds otherwise ho huo)
  | .whileLoop _ body, _, _, ⟨hcond, hb⟩, hu, hc =>
    simulates_loop hcalls hn hcond hc (Statements.simulates hcalls hn rounds body hb hu) rounds
  | .run _, _, _, hv, _, hc => simulates_run hcalls hv hc
  | .leave _, _, _, hv, _, hc => simulates_leave hcalls hv hc
theorem Statements.simulates (hcalls : calls.IgnoresTemps) (hn : (definedLabels code).Nodup)
    (rounds : Nat) : (body : List Statement) → {n k : Nat} →
    Statements.Valid scope.Declares scope.returnsVoid body → Statements.Undisturbed body →
    CodeAt code k (Statements.code scope n body) →
    Simulates calls code k (k + (Statements.code scope n body).length)
      (Statements.interpret calls scope rounds body)
  | [], _, _, _, _, _ => simulates_proceed
  | first :: others, n, k, ⟨hv, hvs⟩, ⟨hu, hus⟩, hc => by
    have hfirst := Statement.simulates hcalls hn rounds first hv hu hc.left
    have hothers := Statements.simulates hcalls hn rounds others hvs hus hc.right
    have hlen : k + (Statements.code scope n (first :: others)).length =
        k + (first.code scope n).length +
          (Statements.code scope (n + first.labels) others).length := by
      rw [Statements.code, List.length_append, Nat.add_assoc]
    rw [hlen]
    exact hfirst.chain hothers
end

end Syntax

namespace Compile

open Syntax Machine TokenStream

/-- From `s` to `s'`, the code of a subroutine with these locals and this body is
written. Run from the body's first instruction, in any state, it ends as the
statements do, with the stack as it was or, at a `return`, with the value on top. -/
def RunsBody (calls : Calls) (kind : SubroutineKind) (name : String) (ds : List Declarators)
    (body : List Statement) (s s' : CompileState Listing) : Prop :=
  let d := s.declared s'.tokens (ds.flatMap (Declarators.declarations .var))
  ∃ entry code : List Instruction, s'.out = s.out ++ (entry ++ code).toArray ∧
    entry = .function (d.context.className ++ "." ++ name) (d.context.declarations.count .var) ::
      prologueCode (d.context.declarations.count .field) kind ∧
    (Statements.Undisturbed body → ∀ rounds m stack state ending, m.Matches stack state →
      Statements.interpret calls d.scope rounds body state = some ending →
      Ends calls (entry ++ code) (entry ++ code).length stack ⟨entry.length, m⟩ ending)

theorem nodup_bodyCode (d : CompileState Listing) (kind : SubroutineKind) (name : String)
    (body : List Statement) : (definedLabels (d.bodyCode kind name body)).Nodup := by
  have hcloses : d.scope.Closes d.context.nextLabel (Statements.labels body)
      (Statements.code d.scope d.context.nextLabel body) := Statements.closes body
  rw [CompileState.bodyCode, definedLabels_append, definedLabels_cons, definedLabels_prologue]
  exact hcloses.labels.nodup_iff.mpr (nodup_labelRange d.context.options ..)

theorem bodyCode_simulates {calls : Calls} (hcalls : calls.IgnoresTemps)
    {d : CompileState Listing} (kind : SubroutineKind) (name : String) {body : List Statement}
    (hv : Statements.Valid d.scope.Declares d.scope.returnsVoid body)
    (hu : Statements.Undisturbed body) (rounds : Nat) :
    Simulates calls (d.bodyCode kind name body)
      ((prologueCode (d.context.declarations.count .field) kind).length + 1)
      (d.bodyCode kind name body).length (Statements.interpret calls d.scope rounds body) := by
  have h := Statements.simulates hcalls (nodup_bodyCode d kind name body) rounds body hv hu
    ⟨_, [], (List.append_nil _).symm, rfl⟩
  rwa [← List.length_append] at h

theorem runsBody_after {calls : Calls} (hcalls : calls.IgnoresTemps) {kind : SubroutineKind}
    {name : String} {ds : List Declarators} {body : List Statement} {s : CompileState Listing}
    {t : TokenStream} (hv : Statements.Valid
      (s.declared t (ds.flatMap (Declarators.declarations .var))).Declares
      s.context.returnsVoid body) :
    RunsBody calls kind name ds body s
      ((s.declared t (ds.flatMap (Declarators.declarations .var))).afterBody kind name body) := by
  refine ⟨_, _, rfl, rfl, fun hu rounds => ?_⟩
  exact bodyCode_simulates hcalls kind name hv hu rounds

/-- Whatever is compiled as the body of a subroutine runs as its statements say,
and every body that meets the static conditions is compiled so. -/
theorem subroutineBody_runs {calls : Calls} (hcalls : calls.IgnoresTemps) (kind : SubroutineKind)
    (name : String) (bound : Nat) (s : CompileState Listing) :
    (∀ s', subroutineBody kind name bound s = .ok () s' →
      ∃ ds body, s.tokens.Reads (bodyTokens ds body) s'.tokens ∧
        RunsBody calls kind name ds body s s') ∧
    ∀ (ds : List Declarators) (body : List Statement) (t : TokenStream),
      let new := ds.flatMap (Declarators.declarations .var)
      s.tokens.Reads (bodyTokens ds body) t → s.context.declarations.HasRoom new →
      Statements.Valid (s.declared t new).Declares s.context.returnsVoid body →
      (bodyTokens ds body).length ≤ bound →
      ∃ s', subroutineBody kind name bound s = .ok () s' ∧ s'.tokens = t ∧
        RunsBody calls kind name ds body s s' := by
  constructor
  · intro s' h
    obtain ⟨ds, body, t, hr, -, hv, rfl⟩ := subroutineBody_ok h
    exact ⟨ds, body, hr, runsBody_after hcalls hv⟩
  · intro ds body t new hr hroom hv hl
    exact ⟨_, subroutineBody_run hr hroom hv hl, rfl, runsBody_after hcalls hv⟩

def fill : List Statement := [
  .whileLoop (.sum (named "x") less (.term (.integer 11))) [
    .assignElement "y" (named "x") (.operand (.term (.integer 7))),
    .assign "x" (.sum (named "x") plus (.term (.integer 1)))],
  .leave (some (named "x"))]

def filled : State where
  frame := { idle.frame with locals := Function.update idle.frame.locals 0 11 }
  store := idle.store.set 110 7

theorem multiply_ignoresTemps : multiply.IgnoresTemps := by
  intro callee arguments s t h
  unfold multiply
  split
  · exact ⟨rfl, h⟩
  · exact ⟨rfl, h⟩

theorem subroutineBody_runs_fill :
    multiply.IgnoresTemps ∧
    ∃ s', subroutineBody .function "fill" 40 (unread (bodyTokens [] fill) ["x", "y"]) =
        .ok () s' ∧
      ∃ place m below, Reaches multiply s'.out.toList ⟨1, idle⟩ ⟨place, m⟩ ∧
        s'.out.toList[place]? = some .ret ∧ m.Matches (11 :: below) filled := by
  obtain ⟨s', h, -, entry, code, hout, hentry, hrun⟩ :=
    (subroutineBody_runs multiply_ignoresTemps .function "fill" 40
      (unread (bodyTokens [] fill) ["x", "y"])).2 [] fill ⟨[], 0⟩ (reads_unread ..)
      Declarations.hasRoom_nil ⟨⟨⟨rfl, trivial⟩, ⟨rfl, rfl, trivial⟩, ⟨rfl, rfl, trivial⟩, trivial⟩,
        rfl, trivial⟩ (by decide)
  have hcode : s'.out.toList = entry ++ code := by simp [hout, unread]
  have hone : entry.length = 1 := by rw [hentry]; rfl
  obtain ⟨place, m, below, hr, hp, hm⟩ := hrun ⟨⟨rfl, trivial, trivial⟩, trivial, trivial⟩ 2 idle []
    ⟨idle.frame, idle.store⟩ (.returns 11 filled) ⟨rfl, rfl, .refl⟩ rfl
  rw [hone] at hr
  refine ⟨multiply_ignoresTemps, s', h, place, m, below ++ [], ?_⟩
  rw [hcode]
  exact ⟨hr, hp, hm⟩

end Compile

end JackVM
