import JackVM.Proofs.Grammar.ExpressionComplete

/-!
# Every statement is compiled

The same for statements. What follows an `if` without `else` must not be an
`else`; in a class, statements are followed by a brace.
-/

namespace JackVM.Compile

open Syntax TokenStream CompileState

variable {s : CompileState Listing} {t : TokenStream}

def statementWords : List Keyword := [.letWord, .ifWord, .whileWord, .doWord, .returnWord]

theorem statement_starts (st : Statement) :
    ∃ word kinds, st.tokens = .keyword word :: kinds ∧ word ∈ statementWords := by
  cases st with
  | leave value => cases value <;> exact ⟨_, _, rfl, by decide⟩
  | _ => exact ⟨_, _, rfl, by decide⟩

theorem letStatement_run {n : Nat} {target : String} {value : Expression}
    (hr : s.tokens.Reads (Statement.tokens (.assign target value)) t) (ht : s.Declares target)
    (hv : value.Valid s.Declares) (hl : value.tokens.length ≤ n) :
    letStatement n s = .ok () (s.after t (value.code s.scope ++ s.scope.pop target) 0) := by
  obtain ⟨_, hk, _, hn, m, he, hr⟩ := hr
  obtain ⟨m1, hr, _, hc, rfl⟩ := reads_append.mp hr
  obtain ⟨offset, xn⟩ := Reading.name_next .variableName hn
  obtain ⟨v, hf, -, hp⟩ := find?_of_declares ht
  refine bind_to (keyword_run hk) (bind_to (lift_run xn) (bind_to (lookup_run hf) ?_))
  refine bind_to (accept_stops (he.stops (by decide))) ?_
  simp only [Bool.false_eq_true, ↓reduceIte]
  refine bind_to (symbol_run he) ?_
  simp only [after_after]
  refine bind_to (expression_after hr hv (stops_closer hc (by decide)) hl) ?_
  refine bind_to (symbol_run hc) ?_
  rw [emit_run]
  simp [hp]

theorem letElement_run {n : Nat} {array : String} {index value : Expression}
    (hr : s.tokens.Reads (Statement.tokens (.assignElement array index value)) t)
    (ha : s.Declares array) (hi : index.Valid s.Declares) (hv : value.Valid s.Declares)
    (hli : index.tokens.length ≤ n) (hlv : value.tokens.length ≤ n) :
    letStatement n s = .ok () (s.after t (s.scope.push array ++ index.code s.scope ++ pointAt ++
      value.code s.scope ++ [.pop .that 0]) 0) := by
  obtain ⟨_, hk, _, hn, m, ho, hr⟩ := hr
  obtain ⟨m1, hri, _, hc, _, he, hr⟩ := reads_append.mp hr
  obtain ⟨m2, hrv, _, hs, rfl⟩ := reads_append.mp hr
  obtain ⟨offset, xn⟩ := Reading.name_next .variableName hn
  obtain ⟨v, hf, hp, -⟩ := find?_of_declares ha
  refine bind_to (keyword_run hk) (bind_to (lift_run xn) (bind_to (lookup_run hf) ?_))
  refine bind_to (accept_run ho) ?_
  simp only [↓reduceIte]
  refine bind_to (emit_run _) ?_
  simp only [after_after]
  refine bind_to (expression_after hri hi (stops_closer hc (by decide)) hli) ?_
  refine bind_to (symbol_run hc) (bind_to emitPointAt_run (bind_to (symbol_run he) ?_))
  simp only [after_after]
  refine bind_to (expression_after hrv hv (stops_closer hs (by decide)) hlv) ?_
  refine bind_to (symbol_run hs) ?_
  rw [emit_run]
  simp [hp]

theorem doStatement_run {n : Nat} {c : Call} (hr : s.tokens.Reads (Statement.tokens (.run c)) t)
    (hv : c.Valid s.Declares) (hl : c.tokens.length ≤ n + 1) :
    doStatement n s = .ok () (s.after t (c.code s.scope ++ [.pop .temp 0]) 0) := by
  obtain ⟨_, hk, hr⟩ := hr
  obtain ⟨m, hr, _, hs, rfl⟩ := reads_append.mp hr
  refine bind_to (keyword_run hk) (bind_to (call_run c hr hv hl) (bind_to (symbol_run hs) ?_))
  rw [emit_run]
  simp

theorem leave_run {v : Bool} {u : TokenStream} (hv : v = s.context.returnsVoid)
    (hs : s.tokens.Next (.symbol ';') u) :
    (do
      Reading.symbol ';'
      if v then emit (.push .constant 0)
      emit .ret : Compile Listing Unit) s =
      .ok () (s.after u (leaveCode s.scope []) 0) := by
  subst hv
  refine bind_to (symbol_run hs) ?_
  cases h : s.context.returnsVoid with
  | true =>
    simp only [↓reduceIte]
    refine bind_to (emit_run _) ?_
    rw [emit_run]
    simp [leaveCode, CompileState.scope, h]
  | false =>
    simp only [Bool.false_eq_true, ↓reduceIte]
    rw [emit_run]
    simp [leaveCode, CompileState.scope, h]

theorem returnBare_run {n : Nat} (hr : s.tokens.Reads (Statement.tokens (.leave none)) t)
    (hv : s.context.returnsVoid) :
    returnStatement n s = .ok () (s.after t (leaveCode s.scope []) 0) := by
  obtain ⟨m, hk, _, hs, rfl⟩ := hr
  refine bind_to (keyword_run hk) (bind_to context_run (bind_to (isNext_run hs) ?_))
  simp only [after_returnsVoid, hv, Bool.not_true, Bool.false_eq_true, ↓reduceIte]
  have h := leave_run (s := s.after m [] 0) hv.symm hs
  simpa using h

theorem returnValue_run {n : Nat} {value : Expression}
    (hr : s.tokens.Reads (Statement.tokens (.leave (some value))) t)
    (hv : value.Valid s.Declares) (hl : value.tokens.length ≤ n) :
    returnStatement n s = .ok () (s.after t (leaveCode s.scope (value.code s.scope)) 0) := by
  obtain ⟨_, hk, hr⟩ := hr
  obtain ⟨m, hr, _, hs, rfl⟩ := reads_append.mp hr
  refine bind_to (keyword_run hk) (bind_to context_run ?_)
  refine bind_to (isNext_stops (expression_stops hr (by decide))) ?_
  simp only [Bool.false_eq_true, ↓reduceIte]
  refine bind_to (expression_after hr hv (stops_closer hs (by decide)) hl) ?_
  refine (leave_run (by rfl) hs).trans ?_
  simp [leaveCode]
  rfl

-- ---------------------------------------------------------------------------
-- Statements that contain statements
-- ---------------------------------------------------------------------------

def CompilesAll (n : Nat) (body : List Statement) : Prop :=
  ∀ {s t u}, s.tokens.Reads (Statements.tokens body) t →
    Statements.Valid s.Declares s.context.returnsVoid body → t.Next (.symbol '}') u →
    (Statements.tokens body).length ≤ n →
    statements n s = .ok () (s.after t (Statements.code s.scope s.context.nextLabel body)
      (Statements.labels body))

theorem condition_after {n k : Nat} {a : TokenStream} {code : List Instruction}
    {target : String} {e : Expression} (hr : a.Reads (inParens e.tokens) t)
    (hv : e.Valid s.Declares) (hl : e.tokens.length ≤ n) :
    condition n target (s.after a code k) =
      .ok () (s.after t (code ++ (e.code s.scope ++ [.operate .not, .ifGoto target])) k) := by
  obtain ⟨_, ho, hr⟩ := hr
  obtain ⟨m, hr, _, hc, rfl⟩ := reads_append.mp hr
  refine bind_to (symbol_run ho) ?_
  simp only [after_after]
  refine bind_to (expression_after hr hv (stops_closer hc (by decide)) hl) ?_
  refine bind_to (symbol_run hc) (bind_to (emit_run _) ?_)
  rw [emit_run]
  simp

theorem statements_after {n k : Nat} {a u : TokenStream} {code : List Instruction}
    {body : List Statement} (hb : CompilesAll n body) (hr : a.Reads (Statements.tokens body) t)
    (hv : Statements.Valid s.Declares s.context.returnsVoid body) (hu : t.Next (.symbol '}') u)
    (hl : (Statements.tokens body).length ≤ n) :
    statements n (s.after a code k) = .ok () (s.after t
      (code ++ Statements.code s.scope (s.context.nextLabel + k) body)
      (k + Statements.labels body)) := by
  have h := hb (s := s.after a code k) hr (by simpa using hv) hu hl
  simpa using h

theorem block_after {n k : Nat} {a : TokenStream} {code : List Instruction}
    {body : List Statement} (hb : CompilesAll n body)
    (hr : a.Reads (inBraces (Statements.tokens body)) t)
    (hv : Statements.Valid s.Declares s.context.returnsVoid body)
    (hl : (Statements.tokens body).length ≤ n) :
    block (statements n) (s.after a code k) = .ok () (s.after t
      (code ++ Statements.code s.scope (s.context.nextLabel + k) body)
      (k + Statements.labels body)) := by
  obtain ⟨_, ho, hr⟩ := hr
  obtain ⟨m, hr, _, hc, rfl⟩ := reads_append.mp hr
  refine bind_to (symbol_run ho) ?_
  simp only [after_after]
  refine bind_to (statements_after hb hr hv hc hl) ?_
  rw [symbol_run hc]
  simp

theorem ifThen_run {n : Nat} {c : Expression} {body : List Statement} (hb : CompilesAll n body)
    (hr : s.tokens.Reads (Statement.tokens (.ifThen c body)) t)
    (hv : Statement.Valid s.Declares s.context.returnsVoid (.ifThen c body))
    (ht : t.Stops [.keyword .elseWord]) (hl : (Statement.tokens (.ifThen c body)).length ≤ n + 1) :
    ifStatement (statements n) n s = .ok ()
      (s.after t (Statement.code s.scope s.context.nextLabel (.ifThen c body))
        (Statement.labels (.ifThen c body))) := by
  obtain ⟨_, hk, hr⟩ := hr
  obtain ⟨m, hrc, hrb⟩ := reads_append.mp hr
  obtain ⟨hvc, hvb⟩ := hv
  simp only [Statement.tokens, List.length_cons, List.length_append, length_inParens,
    length_inBraces] at hl
  refine bind_to (keyword_run hk) (bind_to newLabel_run (bind_to newLabel_run ?_))
  simp only [after_after]
  refine bind_to (condition_after hrc hvc (by omega)) ?_
  refine bind_to (block_after hb hrb hvb (by omega)) ?_
  refine bind_to (emit_run _) (bind_to (emit_run _) (bind_to (accept_stops ht) ?_))
  simp only [Bool.false_eq_true, ↓reduceIte]
  rw [emit_run]
  simp [Statement.code, Statement.labels, branchCode, CompileState.scope]

theorem ifElse_run {n : Nat} {c : Expression} {body otherwise : List Statement}
    (hb : CompilesAll n body) (ho : CompilesAll n otherwise)
    (hr : s.tokens.Reads (Statement.tokens (.ifElse c body otherwise)) t)
    (hv : Statement.Valid s.Declares s.context.returnsVoid (.ifElse c body otherwise))
    (hl : (Statement.tokens (.ifElse c body otherwise)).length ≤ n + 1) :
    ifStatement (statements n) n s = .ok ()
      (s.after t (Statement.code s.scope s.context.nextLabel (.ifElse c body otherwise))
        (Statement.labels (.ifElse c body otherwise))) := by
  obtain ⟨_, hk, hr⟩ := hr
  obtain ⟨m, hrc, hr⟩ := reads_append.mp hr
  obtain ⟨m1, hrb, _, he, hro⟩ := reads_append.mp hr
  obtain ⟨hvc, hvb, hvo⟩ := hv
  simp only [Statement.tokens, List.length_cons, List.length_append, length_inParens,
    length_inBraces] at hl
  refine bind_to (keyword_run hk) (bind_to newLabel_run (bind_to newLabel_run ?_))
  simp only [after_after]
  refine bind_to (condition_after hrc hvc (by omega)) ?_
  refine bind_to (block_after hb hrb hvb (by omega)) ?_
  refine bind_to (emit_run _) (bind_to (emit_run _) (bind_to (accept_run he) ?_))
  simp only [↓reduceIte, after_after]
  refine bind_to (block_after ho hro hvo (by omega)) ?_
  rw [emit_run]
  simp [Statement.code, Statement.labels, branchCode, CompileState.scope, Nat.add_assoc]

theorem whileLoop_run {n : Nat} {c : Expression} {body : List Statement} (hb : CompilesAll n body)
    (hr : s.tokens.Reads (Statement.tokens (.whileLoop c body)) t)
    (hv : Statement.Valid s.Declares s.context.returnsVoid (.whileLoop c body))
    (hl : (Statement.tokens (.whileLoop c body)).length ≤ n + 1) :
    whileStatement (statements n) n s = .ok ()
      (s.after t (Statement.code s.scope s.context.nextLabel (.whileLoop c body))
        (Statement.labels (.whileLoop c body))) := by
  obtain ⟨_, hk, hr⟩ := hr
  obtain ⟨m, hrc, hrb⟩ := reads_append.mp hr
  obtain ⟨hvc, hvb⟩ := hv
  simp only [Statement.tokens, List.length_cons, List.length_append, length_inParens,
    length_inBraces] at hl
  refine bind_to (keyword_run hk) (bind_to newLabel_run (bind_to newLabel_run ?_))
  refine bind_to (emit_run _) ?_
  simp only [after_after]
  refine bind_to (condition_after hrc hvc (by omega)) ?_
  refine bind_to (block_after hb hrb hvb (by omega)) ?_
  refine bind_to (emit_run _) ?_
  rw [emit_run]
  simp [Statement.code, Statement.labels, loopCode, CompileState.scope]

-- ---------------------------------------------------------------------------
-- Statements
-- ---------------------------------------------------------------------------

theorem compilesAll_of_rounds {body : List Statement} {n : Nat}
    (h : ∀ {n bound s t u}, s.tokens.Reads (Statements.tokens body) t →
      Statements.Valid s.Declares s.context.returnsVoid body → t.Next (.symbol '}') u →
      (Statements.tokens body).length ≤ n + 1 → (Statements.tokens body).length ≤ bound →
      repeatWhile bound (statement (statements n) n) s =
        .ok () (s.after t (Statements.code s.scope s.context.nextLabel body)
          (Statements.labels body))) : CompilesAll n body := by
  intro s t u hr hv hu hl
  cases n with
  | succ n => exact h hr hv hu hl hl
  | zero =>
    cases body with
    | nil =>
      obtain rfl := hr
      simp [statements, Statements.code, Statements.labels, after_self, pure_ok]
    | cons first others =>
      obtain ⟨word, kinds, he, -⟩ := statement_starts first
      simp [Statements.tokens, he] at hl

theorem statements_stops {body : List Statement} {word : Keyword} {s t u : TokenStream}
    (h : s.Reads (Statements.tokens body) t) (hu : t.Next (.symbol '}') u)
    (hw : word ∉ statementWords) : s.Stops [.keyword word] := by
  cases body with
  | nil => exact h ▸ hu.stops (by simp)
  | cons first others =>
    obtain ⟨first, kinds, he, hf⟩ := statement_starts first
    rw [Statements.tokens, he] at h
    refine h.stops fun hm => hw ?_
    cases List.mem_singleton.mp hm
    exact hf

theorem statement_stops {n : Nat} {u : TokenStream} (hu : s.tokens.Next (.symbol '}') u) :
    statement (statements n) n s = .ok false s := by
  obtain ⟨word, hk, hne⟩ := nextKeyword_stops statementWords (hu.stops (by decide))
  refine bind_to hk ?_
  cases word with
  | none => rfl
  | some w =>
    cases w with
    | letWord | ifWord | whileWord | doWord | returnWord => exact absurd rfl (hne _ (by decide))
    | _ => rfl

mutual
theorem statement_run : (st : Statement) → {n : Nat} → {s : CompileState Listing} →
    {t : TokenStream} → s.tokens.Reads st.tokens t →
    st.Valid s.Declares s.context.returnsVoid → t.Stops [.keyword .elseWord] →
    st.tokens.length ≤ n + 1 →
    statement (statements n) n s =
      .ok true (s.after t (st.code s.scope s.context.nextLabel) st.labels)
  | .assign target value, n, s, t, hr, ⟨ht, hv⟩, _, hl => by
    obtain ⟨_, hk⟩ := hr.next
    simp only [Statement.tokens, List.length_cons, List.length_append] at hl
    exact bind_to (nextKeyword_run hk) (bind_to (letStatement_run hr ht hv (by omega)) rfl)
  | .assignElement array index value, n, s, t, hr, ⟨ha, hi, hv⟩, _, hl => by
    obtain ⟨_, hk⟩ := hr.next
    simp only [Statement.tokens, List.length_cons, List.length_append] at hl
    exact bind_to (nextKeyword_run hk)
      (bind_to (letElement_run hr ha hi hv (by omega) (by omega)) rfl)
  | .ifThen c body, n, s, t, hr, hv, ht, hl => by
    obtain ⟨_, hk⟩ := hr.next
    have hb : CompilesAll n body := compilesAll_of_rounds (rounds_run body)
    exact bind_to (nextKeyword_run hk) (bind_to (ifThen_run hb hr hv ht hl) rfl)
  | .ifElse c body otherwise, n, s, t, hr, hv, _, hl => by
    obtain ⟨_, hk⟩ := hr.next
    have hb : CompilesAll n body := compilesAll_of_rounds (rounds_run body)
    have ho : CompilesAll n otherwise := compilesAll_of_rounds (rounds_run otherwise)
    exact bind_to (nextKeyword_run hk) (bind_to (ifElse_run hb ho hr hv hl) rfl)
  | .whileLoop c body, n, s, t, hr, hv, _, hl => by
    obtain ⟨_, hk⟩ := hr.next
    have hb : CompilesAll n body := compilesAll_of_rounds (rounds_run body)
    exact bind_to (nextKeyword_run hk) (bind_to (whileLoop_run hb hr hv hl) rfl)
  | .run c, n, s, t, hr, hv, _, hl => by
    obtain ⟨_, hk⟩ := hr.next
    simp only [Statement.tokens, List.length_cons, List.length_append] at hl
    exact bind_to (nextKeyword_run hk) (bind_to (doStatement_run hr hv (by omega)) rfl)
  | .leave none, n, s, t, hr, hv, _, _ => by
    obtain ⟨_, hk⟩ := hr.next
    exact bind_to (nextKeyword_run hk) (bind_to (returnBare_run hr hv) rfl)
  | .leave (some value), n, s, t, hr, hv, _, hl => by
    obtain ⟨_, hk⟩ := hr.next
    simp only [Statement.tokens, List.length_cons, List.length_append] at hl
    exact bind_to (nextKeyword_run hk) (bind_to (returnValue_run hr hv (by omega)) rfl)
theorem rounds_run : (body : List Statement) → {n bound : Nat} → {s : CompileState Listing} →
    {t u : TokenStream} → s.tokens.Reads (Statements.tokens body) t →
    Statements.Valid s.Declares s.context.returnsVoid body → t.Next (.symbol '}') u →
    (Statements.tokens body).length ≤ n + 1 → (Statements.tokens body).length ≤ bound →
    repeatWhile bound (statement (statements n) n) s =
      .ok () (s.after t (Statements.code s.scope s.context.nextLabel body)
        (Statements.labels body))
  | [], n, bound, s, t, u, heq, _, hu, _, _ => by
    obtain rfl := heq
    refine (repeatWhile_stop (statement_stops hu) bound).trans ?_
    simp [Statements.code, Statements.labels, after_self]
  | first :: others, n, bound, s, t, u, hr, ⟨hv, hvs⟩, hu, hl, hb => by
    obtain ⟨m, hf, hr⟩ := reads_append.mp hr
    obtain ⟨word, kinds, he, -⟩ := statement_starts first
    have hpos : 0 < first.tokens.length := by simp [he]
    simp only [Statements.tokens, List.length_append] at hl hb
    obtain ⟨bound, rfl⟩ := Nat.exists_eq_add_one_of_ne_zero (show bound ≠ 0 by omega)
    have hround := statement_run first (n := n) hf hv
      (statements_stops hr hu (by decide)) (by omega)
    have hrest := rounds_run others (n := n)
      (s := s.after m (first.code s.scope s.context.nextLabel) first.labels) hr
      (by simpa using hvs) hu (by omega) (show _ ≤ bound by omega)
    rw [repeatWhile_next hround, hrest]
    simp [Statements.code, Statements.labels]
end

theorem statements_run (body : List Statement) (n : Nat) : CompilesAll n body :=
  compilesAll_of_rounds (rounds_run body)

end JackVM.Compile
