import JackVM.Proofs.Grammar.ExpressionSound

/-!
# What is compiled as a statement is one

The same for statements. A statement may also draw labels; the numbers in its
code start at the first label that is free when it is reached.
-/

namespace JackVM.Compile

open Syntax TokenStream CompileState

variable {s s' : CompileState Listing}

abbrev ReadsStatement (st : Statement) (s s' : CompileState Listing) : Prop :=
  ∃ t, s.tokens.Reads st.tokens t ∧ st.Valid s.Declares s.context.returnsVoid ∧
    s' = s.after t (st.code s.scope s.context.nextLabel) st.labels

abbrev ReadsStatements (body : List Statement) (s s' : CompileState Listing) : Prop :=
  ∃ t, s.tokens.Reads (Statements.tokens body) t ∧
    Statements.Valid s.Declares s.context.returnsVoid body ∧
    s' = s.after t (Statements.code s.scope s.context.nextLabel body) (Statements.labels body)

theorem letStatement_ok {bound : Nat} (h : letStatement bound s = .ok () s') :
    (∃ target value, ReadsStatement (.assign target value) s s') ∨
      ∃ array index value, ReadsStatement (.assignElement array index value) s s' := by
  simp only [letStatement, bind_ok] at h
  obtain ⟨_, m, xk, named, m1, xn, v, m2, xl, found, m3, xf, h⟩ := h
  obtain ⟨t, hk, rfl⟩ := keyword_ok xk
  obtain ⟨t1, hn, rfl⟩ := name_ok xn
  obtain ⟨hl, rfl⟩ := lookup_ok xl
  have hd : s.Declares named.name := by simp_all [CompileState.Declares]
  have hpush : s.scope.push named.name = [v.push] := by simp_all [Scope.push, CompileState.scope]
  have hpop : s.scope.pop named.name = [v.pop] := by simp_all [Scope.pop, CompileState.scope]
  rcases accept_ok xf with ⟨rfl, t2, hb, rfl⟩ | ⟨rfl, rfl⟩
  · simp only [↓reduceIte, bind_ok] at h
    obtain ⟨_, m4, xp, _, m5, xi, _, m6, xc, _, m7, xa, _, m8, xe, _, m9, xv, _, m10, xs, h⟩ := h
    obtain rfl := emit_ok xp
    obtain ⟨index, t3, hr, hvi, rfl⟩ := expression_ok _ _ _ xi
    obtain ⟨t4, hc, rfl⟩ := symbol_ok xc
    obtain rfl := emitPointAt_ok xa
    obtain ⟨t5, he, rfl⟩ := symbol_ok xe
    obtain ⟨value, t6, hr', hvv, rfl⟩ := expression_ok _ _ _ xv
    obtain ⟨t7, hs, rfl⟩ := symbol_ok xs
    simp only [after_declares] at hvi hvv
    refine .inr ⟨named.name, index, value, t7, ?_, ⟨hd, hvi, hvv⟩, ?_⟩
    · exact ⟨t, hk, t1, hn, t2, hb, hr.trans ⟨t4, hc, t5, he, hr'.trans hs.reads⟩⟩
    · simp [emit_ok h, Statement.code, Statement.labels, hpush]
  · simp only [Bool.false_eq_true, ↓reduceIte, bind_ok] at h
    obtain ⟨_, m4, xe, _, m5, xv, _, m6, xs, h⟩ := h
    obtain ⟨t2, he, rfl⟩ := symbol_ok xe
    obtain ⟨value, t3, hr, hvv, rfl⟩ := expression_ok _ _ _ xv
    obtain ⟨t4, hs, rfl⟩ := symbol_ok xs
    refine .inl ⟨named.name, value, t4, ?_, ⟨hd, hvv⟩, ?_⟩
    · exact ⟨t, hk, t1, hn, t2, he, hr.trans hs.reads⟩
    · simp [emit_ok h, Statement.code, Statement.labels, hpop]

theorem doStatement_ok {bound : Nat} (h : doStatement bound s = .ok () s') :
    ∃ st, ReadsStatement st s s' := by
  simp only [doStatement, bind_ok] at h
  obtain ⟨_, m, xk, _, m1, xc, _, m2, xs, h⟩ := h
  obtain ⟨t, hk, rfl⟩ := keyword_ok xk
  obtain ⟨c, t1, hr, hv, rfl⟩ := call_ok _ _ _ xc
  obtain ⟨t2, hs, rfl⟩ := symbol_ok xs
  exact ⟨.run c, t2, ⟨t, hk, hr.trans hs.reads⟩, hv,
    by simp [emit_ok h, Statement.code, Statement.labels]⟩

theorem leave_ok {void : Bool} (hvoid : s.context.returnsVoid = void)
    (h : (do
      liftM (Reading.symbol ';')
      if void = true then emit (.push .constant 0)
      emit .ret : Compile Listing Unit) s = .ok () s') :
    ∃ t, s.tokens.Next (.symbol ';') t ∧ s' = s.after t (leaveCode s.scope []) 0 := by
  subst hvoid
  obtain ⟨_, m, xs, h⟩ := bind_ok.mp h
  obtain ⟨t, hs, rfl⟩ := symbol_ok xs
  refine ⟨t, hs, ?_⟩
  cases hv : s.context.returnsVoid with
  | true =>
    simp only [hv, ↓reduceIte, bind_ok] at h
    obtain ⟨_, m, hm, h⟩ := h
    simp [emit_ok h, emit_ok hm, leaveCode, CompileState.scope, hv]
  | false =>
    simp only [hv, Bool.false_eq_true, ↓reduceIte] at h
    simp [emit_ok h, leaveCode, CompileState.scope, hv]

theorem returnStatement_ok {bound : Nat} (h : returnStatement bound s = .ok () s') :
    ∃ st, ReadsStatement st s s' := by
  simp only [returnStatement, bind_ok] at h
  obtain ⟨_, m, xk, c, m1, xc, bare, m2, xb, h⟩ := h
  obtain ⟨t, hk, rfl⟩ := keyword_ok xk
  cases context_run.symm.trans xc
  obtain ⟨rfl, -⟩ := isNext_ok xb
  cases bare with
  | true =>
    cases hv : s.context.returnsVoid with
    | true =>
      simp only [after_returnsVoid, hv, Bool.not_true, Bool.false_eq_true, ↓reduceIte,
        bind_ok] at h
      obtain ⟨_, m, xs, _, m1, xz, h⟩ := h
      obtain ⟨t', hs, rfl⟩ := symbol_ok xs
      refine ⟨.leave none, t', ⟨t, hk, hs.reads⟩, hv, ?_⟩
      simp [emit_ok h, emit_ok xz, Statement.code, Statement.labels, leaveCode, scope, hv]
    | false =>
      simp only [after_returnsVoid, hv, Bool.not_false, ↓reduceIte, bind_ok] at h
      obtain ⟨_, _, -, _, _, xu, -⟩ := h
      obtain ⟨_, hu, -⟩ := lift_ok xu
      exact (Reading.unexpected_ok.mp hu).elim
  | false =>
    simp only [Bool.false_eq_true, ↓reduceIte] at h
    obtain ⟨_, m, xv, h⟩ := bind_ok.mp h
    obtain ⟨value, t1, hr, hvv, rfl⟩ := expression_ok _ _ _ xv
    obtain ⟨t', hs, rfl⟩ := leave_ok (by rfl) h
    simp only [after_declares] at hvv
    refine ⟨.leave (some value), t', ⟨t, hk, hr.trans hs.reads⟩, hvv, ?_⟩
    simp [Statement.code, Statement.labels, leaveCode]

-- ---------------------------------------------------------------------------
-- Statements that contain statements
-- ---------------------------------------------------------------------------

theorem condition_ok {bound : Nat} {target : String} (h : condition bound target s = .ok () s') :
    ∃ (e : Expression) (t : TokenStream),
      s.tokens.Reads (inParens e.tokens) t ∧ e.Valid s.Declares ∧
      s' = s.after t (e.code s.scope ++ [.operate .not, .ifGoto target]) 0 := by
  simp only [condition, bind_ok] at h
  obtain ⟨_, m, xo, _, m1, xe, _, m2, xc, _, m3, xn, h⟩ := h
  obtain ⟨t, ho, rfl⟩ := symbol_ok xo
  obtain ⟨e, t1, hr, hv, rfl⟩ := expression_ok _ _ _ xe
  obtain ⟨t2, hc, rfl⟩ := symbol_ok xc
  exact ⟨e, t2, ⟨t, ho, hr.trans hc.reads⟩, hv, by simp [emit_ok h, emit_ok xn]⟩

section
variable {statements : Compile Listing Unit}

theorem block_ok (hss : ∀ s s', statements s = .ok () s' → ∃ body, ReadsStatements body s s')
    (h : block statements s = .ok () s') :
    ∃ (body : List Statement) (t : TokenStream),
      s.tokens.Reads (inBraces (Statements.tokens body)) t ∧
      Statements.Valid s.Declares s.context.returnsVoid body ∧
      s' = s.after t (Statements.code s.scope s.context.nextLabel body)
        (Statements.labels body) := by
  simp only [block, bind_ok] at h
  obtain ⟨_, m, xo, _, m1, xb, h⟩ := h
  obtain ⟨t, ho, rfl⟩ := symbol_ok xo
  obtain ⟨body, t1, hr, hv, rfl⟩ := hss _ _ xb
  obtain ⟨t2, hc, rfl⟩ := symbol_ok h
  exact ⟨body, t2, ⟨t, ho, hr.trans hc.reads⟩, hv, by simp⟩

theorem ifStatement_ok (hss : ∀ s s', statements s = .ok () s' → ∃ body, ReadsStatements body s s')
    {bound : Nat} (h : ifStatement statements bound s = .ok () s') :
    ∃ st, ReadsStatement st s s' := by
  simp only [ifStatement, bind_ok] at h
  obtain ⟨_, m, xk, l, m1, xl, l', m2, xl', _, m3, xc, _, m4, xb, _, m5, xg, _, m6, xe,
    found, m7, xf, h⟩ := h
  obtain ⟨t, hk, rfl⟩ := keyword_ok xk
  cases newLabel_run.symm.trans xl
  cases newLabel_run.symm.trans xl'
  obtain ⟨c, t1, hr, hvc, rfl⟩ := condition_ok xc
  obtain ⟨body, t2, hrb, hvb, rfl⟩ := block_ok hss xb
  obtain rfl := emit_ok xg
  obtain rfl := emit_ok xe
  simp only [after_declares, after_returnsVoid] at hvc hvb
  rcases accept_ok xf with ⟨rfl, t3, he, rfl⟩ | ⟨rfl, rfl⟩
  · simp only [↓reduceIte] at h
    obtain ⟨_, m8, xo, h⟩ := bind_ok.mp h
    obtain ⟨otherwise, t4, hro, hvo, rfl⟩ := block_ok hss xo
    simp only [after_declares, after_returnsVoid] at hvo
    refine ⟨.ifElse c body otherwise, t4, ?_, ⟨hvc, hvb, hvo⟩, ?_⟩
    · have h := (hr.trans hrb).trans (Reads.trans he.reads hro)
      simpa [Statement.tokens] using Reads.trans hk.reads h
    · simp [emit_ok h, Statement.code, Statement.labels, branchCode, scope, Nat.add_assoc]
  · refine ⟨.ifThen c body, t2, ?_, ⟨hvc, hvb⟩, ?_⟩
    · simpa [Statement.tokens] using Reads.trans hk.reads (hr.trans hrb)
    · simp only [Bool.false_eq_true, ↓reduceIte] at h
      simp [emit_ok h, Statement.code, Statement.labels, branchCode, scope]

theorem whileStatement_ok
    (hss : ∀ s s', statements s = .ok () s' → ∃ body, ReadsStatements body s s') {bound : Nat}
    (h : whileStatement statements bound s = .ok () s') : ∃ st, ReadsStatement st s s' := by
  simp only [whileStatement, bind_ok] at h
  obtain ⟨_, m, xk, l, m1, xl, l', m2, xl', _, m3, xt, _, m4, xc, _, m5, xb, _, m6, xg, h⟩ := h
  obtain ⟨t, hk, rfl⟩ := keyword_ok xk
  cases newLabel_run.symm.trans xl
  cases newLabel_run.symm.trans xl'
  obtain rfl := emit_ok xt
  obtain ⟨c, t1, hr, hvc, rfl⟩ := condition_ok xc
  obtain ⟨body, t2, hrb, hvb, rfl⟩ := block_ok hss xb
  obtain rfl := emit_ok xg
  simp only [after_declares, after_returnsVoid] at hvc hvb
  refine ⟨.whileLoop c body, t2, ?_, ⟨hvc, hvb⟩, ?_⟩
  · simpa [Statement.tokens] using Reads.trans hk.reads (hr.trans hrb)
  · simp [emit_ok h, Statement.code, Statement.labels, loopCode, scope]

end

theorem ReadsStatement.cons {st : Statement} {body : List Statement}
    {a b c : CompileState Listing} (h : ReadsStatement st a b) (hs : ReadsStatements body b c) :
    ReadsStatements (st :: body) a c := by
  obtain ⟨t, hr, hv, rfl⟩ := h
  obtain ⟨t', hrs, hvs, rfl⟩ := hs
  simp only [after_declares, after_returnsVoid] at hvs
  exact ⟨t', hr.trans hrs, ⟨hv, hvs⟩, by simp [Statements.code, Statements.labels]⟩

theorem statements_ok (bound : Nat) :
    ∀ s s', statements bound s = .ok () s' → ∃ body, ReadsStatements body s s' := by
  induction bound with
  | zero =>
    intro s s' h
    obtain rfl := (pure_ok.mp h).2
    exact ⟨[], s'.tokens, rfl, trivial, s'.after_self.symm⟩
  | succ bound ih =>
    intro s s' h
    refine repeatWhile_list (P := ReadsStatements) h ?_ ?_
    · exact fun a => ⟨a.tokens, rfl, trivial, a.after_self.symm⟩
    · intro a b again hab
      suffices h : (again = true ∧ ∃ st, ReadsStatement st a b) ∨ (again = false ∧ b = a) from
        h.imp_left fun ⟨ht, st, hst⟩ => ⟨ht, st, fun _ _ hs => hst.cons hs⟩
      obtain ⟨word, m, xw, hround⟩ := bind_ok.mp hab
      obtain ⟨rfl, -⟩ := nextKeyword_ok xw
      replace hround : EStateM.run _ m = _ := hround
      split at hround
      case h_6 => exact .inr (pure_ok.mp hround)
      all_goals
        obtain ⟨_, m', h, hend⟩ := bind_ok.mp hround
        obtain ⟨rfl, rfl⟩ := pure_ok.mp hend
        refine .inl ⟨rfl, ?_⟩
      · rcases letStatement_ok h with ⟨_, _, hr⟩ | ⟨_, _, _, hr⟩ <;> exact ⟨_, hr⟩
      · exact ifStatement_ok ih h
      · exact whileStatement_ok ih h
      · exact doStatement_ok h
      · exact returnStatement_ok h

end JackVM.Compile
