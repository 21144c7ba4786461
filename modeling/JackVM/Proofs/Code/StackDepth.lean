import JackVM.Proofs.Code.Places

/-!
# The depth of the stack in the code of a class

The code of every subroutine is complete, so the pass over it finds depths that
are balanced. They are 0 between statements and tell how many values every
`return` and every call finds on the stack.
-/

namespace JackVM

namespace Syntax

variable {c : JackClass} {options : Options} {scope : Scope} {sub : Subroutine} {n : Nat}

theorem walk_returned {value : Option Expression}
    (hv : (Statement.leave value).Valid scope.Declares scope.returnsVoid) :
    walk (returned scope value) 0 = some (if value.isSome && scope.returnsVoid then 2 else 1) := by
  cases value with
  | none =>
    have h : scope.returnsVoid = true := hv
    simp only [returned, h]
    rfl
  | some value =>
    have h : walk (value.code scope) 0 = some 1 := (value.pushesOne hv).walk_eq 0
    cases hr : scope.returnsVoid with
    | true =>
      simp only [returned, hr]
      exact walk_trans h rfl
    | false =>
      simp only [returned, hr]
      exact walk_trans h rfl

theorem Subroutine.entry_ne_ret (c : JackClass) (sub : Subroutine) :
    ∀ i ∈ sub.entryCode c, i ≠ .ret := by
  refine List.forall_mem_cons.mpr ⟨nofun, ?_⟩
  cases sub.kind <;> simp [prologueCode]

theorem Subroutine.returns_code (sub : Subroutine) :
    AtEach (Returns (c.scope options sub) fun front value => ∃ inner m,
      (c.scope options sub).Contains sub.body n inner (.leave value) m ∧
        front = sub.entryCode c ++ inner) (sub.code c options n) := by
  refine returns_append (returns_none (sub.entry_ne_ret c)) (Statements.returns sub.body) ?_
  rintro front value ⟨m, h⟩
  exact ⟨front, m, h, rfl⟩

/-- The depths in the code of a subroutine whose first label has the number `n`. -/
structure Subroutine.Depths (c : JackClass) (options : Options) (n : Nat) (sub : Subroutine)
    (depth : Nat → Nat) : Prop where
  balanced : Balanced (sub.code c options n) depth
  /-- Nothing is left on the stack after a statement, wherever it is nested. -/
  statement : ∀ before st m, (c.scope options sub).Contains sub.body n before st m →
    ∃ after, sub.code c options n =
        sub.entryCode c ++ before ++ st.code (c.scope options sub) m ++ after ∧
      depth (sub.entryCode c ++ before ++ st.code (c.scope options sub) m).length = 0
  ret : ∀ k, (sub.code c options n)[k]? = some .ret →
    ∃ before value m, (c.scope options sub).Contains sub.body n before (.leave value) m ∧
      (sub.code c options n).take k =
        sub.entryCode c ++ before ++ returned (c.scope options sub) value ∧
      depth k = if value.isSome && sub.returnsVoid then 2 else 1
  /-- Every call finds one value for each of its arguments. -/
  fed : AtEach Fed (sub.code c options n)
  /-- The calls of the text get their receiver, if any, and their arguments. -/
  call : ∀ callee args, .mk callee args ∈ Statements.calls sub.body → ∃ before after,
    let parts := callee.parts (c.scope options sub) args
    let arguments := callee.receivers (c.scope options sub) + args.length
    sub.code c options n = before ++ parts.flatten ++
        .call (callee.label (c.scope options sub)) arguments :: after ∧
      depth (before ++ parts.flatten).length = depth before.length + arguments

theorem Callee.length_parts (callee : Callee) (args : List Expression) :
    (callee.parts scope args).length = callee.receivers scope + args.length := by
  simp [Callee.parts, Callee.receivers]

theorem Callee.pushesOne_parts (callee : Callee) {args : List Expression}
    (hv : Arguments.Valid scope.Declares args) : ∀ p ∈ callee.parts scope args, PushesOne p :=
  List.forall_mem_append.mpr ⟨callee.pushesOne_receiver, Arguments.pushesOne args hv⟩

theorem Callee.depthAt_parts {callee : Callee} {args : List Expression} {e : Nat}
    {before after : List Instruction} (hv : Arguments.Valid scope.Declares args)
    (hw : walk (before ++ (callee.parts scope args).flatten ++ after) 0 = some e) :
    depthAt (before ++ (callee.parts scope args).flatten ++ after)
        (before ++ (callee.parts scope args).flatten).length =
      depthAt (before ++ (callee.parts scope args).flatten ++ after) before.length +
        (callee.receivers scope + args.length) := by
  have hparts : ∀ p ∈ callee.parts scope args, ∀ d, walk p d = some (d + 1) :=
    fun p hp => (callee.pushesOne_parts hv p hp).walk_eq
  rw [List.append_assoc, walk_append] at hw
  obtain ⟨d, hd, -⟩ := Option.bind_eq_some_iff.mp hw
  have hall := walk_trans hd (walk_flatten hparts d)
  rw [depthAt_of_append rfl hall, List.append_assoc, depthAt_of_append rfl hd,
    callee.length_parts]

theorem Subroutine.depths_code (h : sub.Valid c) :
    sub.Depths c options n (depthAt (sub.code c options n)) := by
  have hcode : Complete (sub.code c options n) := Subroutine.complete_code h
  constructor
  case balanced => exact balanced_of_walk hcode.walk_eq
  case fed => exact hcode.fed
  case statement =>
    intro before st m hc
    obtain ⟨after, ha⟩ := hc.code_eq
    obtain ⟨hb, hst⟩ := hc.complete h.statements
    have hfront : Complete (sub.entryCode c ++ before ++ st.code (c.scope options sub) m) :=
      ((sub.complete_entry c).append hb).append (st.complete hst)
    have hs : sub.code c options n =
        sub.entryCode c ++ before ++ st.code (c.scope options sub) m ++ after := by
      rw [Subroutine.code_eq, ha, List.append_assoc, List.append_assoc, List.append_assoc]
    refine ⟨after, hs, ?_⟩
    rw [hs]
    exact depthAt_of_append rfl hfront.walk_eq
  case ret =>
    intro k hk
    obtain ⟨_, value, ⟨before, m, hc, rfl⟩, ht⟩ := sub.returns_code k .ret hk rfl
    obtain ⟨hb, hst⟩ := hc.complete h.statements
    refine ⟨before, value, m, hc, ht, ?_⟩
    have hw := walk_trans ((sub.complete_entry c).append hb).walk_eq (walk_returned hst)
    rw [depthAt, ht, hw, Option.getD_some]
    rfl
  case call =>
    intro callee args hc
    obtain ⟨hv, before, after, hs⟩ := (Statements.makes sub.body h.statements (n := n)).right
      (a := sub.entryCode c) _ hc
    rw [Call.code_eq_flatten, callee.length_parts, ← List.append_assoc, List.append_assoc] at hs
    refine ⟨before, after, hs.symm, ?_⟩
    have hw := hcode.walk_eq
    rw [Subroutine.code_eq, ← hs] at hw
    rw [Subroutine.code_eq, ← hs]
    exact Callee.depthAt_parts hv.2 hw

end Syntax

open Syntax

/-- Every function of the code has balanced depths. -/
theorem compile_depths {options : Options} {source : String} {code : List Instruction}
    (h : compile options source = .ok code) :
    ∃ c, Spells source c ∧ c.Valid ∧ Blockwise code c fun _ sub block =>
      ∃ n depth, block = sub.code c options n ∧ sub.Depths c options n depth := by
  obtain ⟨c, hs, hv, rfl⟩ := compile_ok h
  refine ⟨c, hs, hv, blockwise_code fun _ sub hsub => ?_⟩
  exact ⟨_, _, rfl, Subroutine.depths_code (hv.subroutines sub hsub)⟩

def tallyDepths : List (List Nat) := [
  [0, 0, 1, 1, 0, 1, 0, 1, 2, 1, 0, 1],
  [0, 0, 1, 0, 0, 1, 2, 1, 1, 0, 1, 2, 1, 1, 0, 1, 2, 3, 1, 0, 0, 0, 1, 2, 1, 0, 0, 1, 2, 1, 0, 0,
    0, 1, 2],
  [0, 0, 1]]

theorem live_tally : ∀ block ∈ functionBlocks (tally.code {}), Live block := by
  decide +kernel

theorem depthAt_tally : (functionBlocks (tally.code {})).map
    (fun block => (List.range block.length).map (depthAt block)) = tallyDepths := by
  decide +kernel

theorem compile_depths_tally :
    compile {} tallySource = .ok (tally.code {}) ∧
      Blockwise (tally.code {}) tally fun earlier sub block => ∃ n depth,
        block = sub.code tally {} n ∧ sub.Depths tally {} n depth ∧
        tallyDepths[earlier.length]? = some ((List.range block.length).map depth) := by
  obtain ⟨c, hs, -, hb⟩ := compile_depths compile_tally
  obtain rfl := hs.unique spells_tally
  refine ⟨compile_tally, hb.length, fun i sub block hsub hblock => ?_⟩
  obtain ⟨n, depth, rfl, hdepths⟩ := hb.block i sub block hsub hblock
  have hlive : Live (sub.code tally {} n) := live_tally _ (List.mem_of_getElem? hblock)
  have hat : sub.Depths tally {} n (depthAt (sub.code tally {} n)) :=
    Subroutine.depths_code (valid_tally.subroutines sub (List.mem_of_getElem? hsub))
  have hsame : (List.range (sub.code tally {} n).length).map depth =
      (List.range (sub.code tally {} n).length).map (depthAt (sub.code tally {} n)) :=
    List.map_congr_left fun k hk =>
      hdepths.balanced.unique hat.balanced hlive (List.mem_range.mp hk)
  have hi : i < tally.subroutines.length := (List.getElem?_eq_some_iff.mp hsub).1
  refine ⟨n, depth, rfl, hdepths, ?_⟩
  rw [List.length_take_of_le hi.le, hsame, ← depthAt_tally, List.getElem?_map, hblock]
  rfl

end JackVM
