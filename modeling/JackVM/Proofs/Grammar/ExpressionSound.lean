import JackVM.Proofs.Grammar.CompileLaws
import JackVM.Proofs.Syntax.Code
import JackVM.Proofs.Syntax.Validity

/-!
# What is compiled as an expression is one

Whenever the compiler gets through an expression, the tokens it has read spell
a tree that meets the static conditions, and the code it has written is the
code of that tree. Each lemma reads one step's success this way.
-/

namespace JackVM.Compile

open Syntax TokenStream

variable {s s' : CompileState Listing} {α : Type}

/-- Success of `x` means that a phrase has been read and its code written. -/
def Accepts (x : Compile Listing Unit) (tokens : α → List TokenKind)
    (valid : (String → Prop) → α → Prop) (code : Scope → α → List Instruction) : Prop :=
  ∀ s s', x s = .ok () s' → ∃ a t, s.tokens.Reads (tokens a) t ∧ valid s.Declares a ∧
    s' = s.after t (code s.scope a) 0

abbrev AcceptsTerm (x : Compile Listing Unit) : Prop := Accepts x Term.tokens Term.Valid Term.code

abbrev AcceptsOperand (x : Compile Listing Unit) : Prop :=
  Accepts x Operand.tokens Operand.Valid Operand.code

abbrev AcceptsExpression (x : Compile Listing Unit) : Prop :=
  Accepts x Expression.tokens Expression.Valid Expression.code

-- ---------------------------------------------------------------------------
-- Chains of operators
-- ---------------------------------------------------------------------------

theorem readOperator_ok {level : OperatorLevel} {found : Option BinaryOperator}
    {s t : TokenStream} (h : acceptOperator level s = .ok found t) :
    (∃ op : OperatorOf level, found = some op.1 ∧ s.Next (.symbol op.1.symbol) t) ∨
      (found = none ∧ t = s) := by
  obtain ⟨token, m, hp, h⟩ := bind_ok.mp h
  obtain rfl := Reading.peek_ok hp
  obtain ⟨_ | ⟨⟨k, span⟩ | l, rest⟩, stop⟩ := m
  · cases hp; cases h; exact .inr ⟨rfl, rfl⟩
  · rw [Reading.peek_token] at hp
    cases hp
    cases k with
    | symbol c =>
      cases ho : BinaryOperator.ofSymbol? level c with
      | none => simp only [ho] at h; cases h; exact .inr ⟨rfl, rfl⟩
      | some op =>
        obtain ⟨hl, rfl⟩ := BinaryOperator.level_symbol_of_ofSymbol? ho
        simp only [ho] at h
        cases h
        exact .inl ⟨⟨op, hl⟩, rfl, span, rfl, rfl⟩
    | _ => cases h; exact .inr ⟨rfl, rfl⟩
  · cases hp

theorem acceptOperator_ok {level : OperatorLevel} {found : Option BinaryOperator}
    (h : (liftM (acceptOperator level) : Compile Listing (Option BinaryOperator)) s =
      .ok found s') :
    (∃ (op : OperatorOf level) (t : TokenStream), found = some op.1 ∧
      s.tokens.Next (.symbol op.1.symbol) t ∧ s' = s.after t [] 0) ∨ (found = none ∧ s' = s) := by
  obtain ⟨t, ht, rfl⟩ := lift_ok h
  rcases readOperator_ok ht with ⟨op, rfl, hn⟩ | ⟨rfl, rfl⟩
  · exact .inl ⟨op, t, rfl, hn, rfl⟩
  · exact .inr ⟨rfl, s.after_self⟩

/-- What holds after the first operand and is kept by each further one holds
after a chain. -/
theorem chain_ok {P : CompileState Listing → Prop} {level : OperatorLevel}
    {operand : Compile Listing Unit} {bound : Nat} (h : chain level operand bound s = .ok () s')
    (first : ∀ a, operand s = .ok () a → P a)
    (more : ∀ (op : OperatorOf level) a t b, P a → a.tokens.Next (.symbol op.1.symbol) t →
      operand (a.after t [] 0) = .ok () b → P (b.after b.tokens [op.1.instruction] 0)) : P s' := by
  simp only [chain, bind_ok] at h
  obtain ⟨_, m, hm, h⟩ := h
  refine repeatWhile_ok h (first m hm) ?_ ?_
  · intro a b ha hab
    obtain ⟨found, c, hf, hround⟩ := bind_ok.mp hab
    rcases acceptOperator_ok hf with ⟨op, t, rfl, hn, rfl⟩ | ⟨rfl, -⟩
    · obtain ⟨_, d, hd, hround⟩ := bind_ok.mp hround
      obtain ⟨_, e, he, hround⟩ := bind_ok.mp hround
      obtain rfl := (pure_ok.mp hround).2
      exact emit_ok he ▸ more op a t d ha hn hd
    · cases (pure_ok.mp hround).1
  · intro a b ha hab
    obtain ⟨found, c, hf, hround⟩ := bind_ok.mp hab
    rcases acceptOperator_ok hf with ⟨op, t, rfl, hn, rfl⟩ | ⟨rfl, rfl⟩
    · obtain ⟨_, d, -, hround⟩ := bind_ok.mp hround
      obtain ⟨_, e, -, hround⟩ := bind_ok.mp hround
      cases (pure_ok.mp hround).1
    · exact (pure_ok.mp hround).2 ▸ ha

theorem operand_ok {term : Compile Listing Unit} (ht : AcceptsTerm term) (bound : Nat) :
    AcceptsOperand (chain .product term bound) := by
  intro s s' h
  refine chain_ok (P := fun m => ∃ (o : Operand) (t : TokenStream), s.tokens.Reads o.tokens t ∧
    o.Valid s.Declares ∧ m = s.after t (o.code s.scope) 0) h ?_ ?_
  · intro a ha
    obtain ⟨e, t, hr, hv, rfl⟩ := ht s a ha
    exact ⟨.term e, t, hr, hv, rfl⟩
  · rintro op _ t b ⟨o, m, hr, hv, rfl⟩ hn hb
    obtain ⟨e, t', hr', hv', rfl⟩ := ht _ _ hb
    exact ⟨.product o op e, t', hr.trans ⟨t, hn, hr'⟩, ⟨hv, hv'⟩, by simp [Operand.code]⟩

theorem expressionOf_ok {term : Compile Listing Unit} (ht : AcceptsTerm term) (bound : Nat) :
    AcceptsExpression (expressionOf term bound) := by
  intro s s' h
  refine chain_ok (P := fun m => ∃ (e : Expression) (t : TokenStream), s.tokens.Reads e.tokens t ∧
    e.Valid s.Declares ∧ m = s.after t (e.code s.scope) 0) h ?_ ?_
  · intro a ha
    obtain ⟨o, t, hr, hv, rfl⟩ := operand_ok ht bound s a ha
    exact ⟨.operand o, t, hr, hv, rfl⟩
  · rintro op _ t b ⟨e, m, hr, hv, rfl⟩ hn hb
    obtain ⟨o, t', hr', hv', rfl⟩ := operand_ok ht bound _ _ hb
    exact ⟨.sum e op o, t', hr.trans ⟨t, hn, hr'⟩, ⟨hv, hv'⟩, by simp [Expression.code]⟩

-- ---------------------------------------------------------------------------
-- Calls
-- ---------------------------------------------------------------------------

section
variable {expression : Compile Listing Unit}

theorem moreArguments_ok (he : AcceptsExpression expression) {bound count n : Nat}
    (h : moreArguments expression bound count s = .ok n s') (hcount : count ≤ maxWord) :
    ∃ (es : List Expression) (t : TokenStream), s.tokens.Reads (Arguments.moreTokens es) t ∧
      Arguments.Valid s.Declares es ∧ n = count + es.length ∧ n ≤ maxWord ∧
      s' = s.after t (Arguments.code s.scope es) 0 := by
  induction bound generalizing s count with
  | zero =>
    obtain ⟨rfl, rfl⟩ := pure_ok.mp h
    exact ⟨[], s'.tokens, rfl, trivial, rfl, hcount, s'.after_self.symm⟩
  | succ bound ih =>
    simp only [moreArguments, bind_ok] at h
    obtain ⟨found, m, hf, h⟩ := h
    rcases accept_ok hf with ⟨rfl, t, hn, rfl⟩ | ⟨rfl, rfl⟩
    · simp only [↓reduceIte, bind_ok] at h
      obtain ⟨_, m, hm, next, m', ha, h⟩ := h
      obtain ⟨e, t', hr, hv, rfl⟩ := he _ _ hm
      obtain ⟨rfl, rfl, hnext⟩ := addInWord_ok ha
      obtain ⟨es, t'', hrs, hvs, rfl, hfits, rfl⟩ := ih h hnext
      exact ⟨e :: es, t'', ⟨t, hn, hr.trans hrs⟩, ⟨hv, hvs⟩, by simp; omega, hfits,
        by simp [Arguments.code]⟩
    · obtain ⟨rfl, rfl⟩ := pure_ok.mp h
      exact ⟨[], s'.tokens, rfl, trivial, rfl, hcount, s'.after_self.symm⟩

theorem arguments_ok (he : AcceptsExpression expression) {bound n : Nat}
    (h : arguments expression bound s = .ok n s') :
    ∃ (es : List Expression) (t : TokenStream), s.tokens.Reads (Arguments.tokens es) t ∧
      Arguments.Valid s.Declares es ∧ n = es.length ∧
      s' = s.after t (Arguments.code s.scope es) 0 := by
  simp only [arguments, bind_ok] at h
  obtain ⟨found, m, hf, h⟩ := h
  obtain ⟨rfl, -⟩ := isNext_ok hf
  cases found
  · simp only [Bool.false_eq_true, ↓reduceIte, bind_ok] at h
    obtain ⟨_, m, hm, h⟩ := h
    obtain ⟨e, t, hr, hv, rfl⟩ := he _ _ hm
    obtain ⟨es, t', hrs, hvs, rfl, -, rfl⟩ := moreArguments_ok he h (by decide)
    exact ⟨e :: es, t', hr.trans hrs, ⟨hv, hvs⟩, by simp; omega, by simp [Arguments.code]⟩
  · obtain ⟨rfl, rfl⟩ := pure_ok.mp h
    exact ⟨[], s'.tokens, rfl, trivial, rfl, s'.after_self.symm⟩

theorem callee_ok {name : String} {receivers : Nat} (h : callee s = .ok (name, receivers) s') :
    ∃ (c : Callee) (t : TokenStream), s.tokens.Reads c.tokens t ∧
      (∀ n, c.receivers s.scope + n ≤ maxWord → c.Valid s.Declares n) ∧
      name = c.label s.scope ∧ receivers = c.receivers s.scope ∧
      s' = s.after t (c.receiverCode s.scope) 0 := by
  simp only [callee, bind_ok] at h
  obtain ⟨named, m, hm, dot, m', hd, h⟩ := h
  obtain ⟨t, hn, rfl⟩ := name_ok hm
  rcases accept_ok hd with ⟨rfl, t', hn', rfl⟩ | ⟨rfl, rfl⟩
  · simp only [↓reduceIte, bind_ok] at h
    obtain ⟨method, m, hm, found, m', hf, h⟩ := h
    obtain ⟨t'', hn'', rfl⟩ := name_ok hm
    rw [find?_run] at hf
    cases hf
    refine ⟨.member named.name method.name, t'', ⟨t, hn, t', hn', hn''.reads⟩,
      fun _ => Callee.valid_member.mpr, ?_⟩
    simp only [CompileState.after_declarations] at h
    cases hf : s.context.declarations.find? named.name with
    | some v =>
      simp only [hf, bind_ok, pure_ok] at h
      obtain ⟨_, m, hm, h, rfl⟩ := h
      cases h
      simp [emit_ok hm, Callee.label, Callee.receivers, Callee.receiverCode, Scope.push,
        CompileState.scope, hf]
    | none =>
      simp only [hf, pure_ok] at h
      obtain ⟨h, rfl⟩ := h
      cases h
      simp [Callee.label, Callee.receivers, Callee.receiverCode, Scope.push, CompileState.scope, hf]
  · simp only [Bool.false_eq_true, ↓reduceIte, bind_ok] at h
    obtain ⟨found, m, hf, h⟩ := h
    rw [find?_run] at hf
    cases hf
    simp only [CompileState.after_declarations] at h
    cases hf : s.context.declarations.find? named.name with
    | some v => simp [hf, bind_ok, fail_ok] at h
    | none =>
      simp only [hf, Option.isSome_none, Bool.false_eq_true, ↓reduceIte, bind_ok, pure_ok] at h
      obtain ⟨_, m, hm, c, m', hc, h, rfl⟩ := h
      rw [context_run] at hc
      cases hc
      cases h
      have hd : ¬s.scope.Declares named.name := by simp [Scope.Declares, CompileState.scope, hf]
      refine ⟨.own named.name, t, hn.reads, fun _ h => Callee.valid_own.mpr ⟨hd, h⟩, ?_⟩
      simp [emit_ok hm, Callee.label, Callee.receivers, Callee.receiverCode, CompileState.scope]

theorem subroutineCall_ok (he : AcceptsExpression expression) (bound : Nat) :
    Accepts (subroutineCall expression bound) Call.tokens Call.Valid Call.code := by
  intro s s' h
  simp only [subroutineCall, bind_ok] at h
  obtain ⟨⟨name, receivers⟩, m, hc, _, m', ho, n, m'', ha, _, m3, hcl, count, m4, hadd, h⟩ := h
  obtain ⟨c, t, hr, hv, rfl, rfl, rfl⟩ := callee_ok hc
  obtain ⟨t', hn, rfl⟩ := symbol_ok ho
  obtain ⟨es, t'', hrs, hvs, rfl, rfl⟩ := arguments_ok he ha
  obtain ⟨t3, hn', rfl⟩ := symbol_ok hcl
  obtain ⟨rfl, rfl, hfits⟩ := addInWord_ok hadd
  exact ⟨.mk c es, t3, hr.trans ⟨t', hn, hrs.trans hn'.reads⟩, ⟨hv _ hfits, hvs⟩,
    by simp [emit_ok h, Call.code]⟩

-- ---------------------------------------------------------------------------
-- Terms
-- ---------------------------------------------------------------------------

theorem emitPointAt_ok (h : emitPointAt s = .ok () s') :
    s' = s.after s.tokens pointAt 0 := by
  simp only [emitPointAt, bind_ok] at h
  obtain ⟨_, m, hm, h⟩ := h
  simp [emit_ok h, emit_ok hm, pointAt]

theorem variableTerm_ok (he : AcceptsExpression expression) {named : Reading.Named}
    (h : variableTerm expression named s = .ok () s') :
    ∃ (e : Term) (kinds : List TokenKind) (t : TokenStream),
      e.tokens = .identifier named.name :: kinds ∧ s.tokens.Reads kinds t ∧
      e.Valid s.Declares ∧ s' = s.after t (e.code s.scope) 0 := by
  simp only [variableTerm, bind_ok] at h
  obtain ⟨v, m, hl, _, m', hp, found, m'', hf, h⟩ := h
  obtain ⟨hl, rfl⟩ := lookup_ok hl
  obtain rfl := emit_ok hp
  have hd : m.Declares named.name := by simp [CompileState.Declares, hl]
  have hv : m.scope.push named.name = [v.push] := by simp [Scope.push, CompileState.scope, hl]
  rcases accept_ok hf with ⟨rfl, t, hn, rfl⟩ | ⟨rfl, rfl⟩
  · simp only [↓reduceIte, bind_ok] at h
    obtain ⟨_, m1, hi, _, m2, hc, _, m3, ha, h⟩ := h
    obtain ⟨e, t', hr, hve, rfl⟩ := he _ _ hi
    obtain ⟨t'', hn', rfl⟩ := symbol_ok hc
    refine ⟨.element named.name e, _, t'', rfl, ⟨t, hn, hr.trans hn'.reads⟩, ⟨hd, hve⟩, ?_⟩
    simp [emit_ok h, emitPointAt_ok ha, Term.code, hv]
  · obtain rfl := (pure_ok.mp h).2
    exact ⟨.variable named.name, [], _, rfl, rfl, hd, by simp [Term.code, hv]⟩

theorem emitCharacters_ok {offset : Nat} {cs : List Char}
    (h : emitCharacters offset cs s = .ok () s') :
    (∀ c ∈ cs, c.toNat ≤ maxWord) ∧ s' = s.after s.tokens (cs.flatMap fun c =>
      [.push .constant c.toNat, .call "String.appendChar" 2]) 0 := by
  induction cs generalizing s with
  | nil => 
    obtain rfl := (pure_ok.mp h).2
    simp [s'.after_self]
  | cons c cs ih =>
    simp only [emitCharacters] at h
    by_cases hc : maxWord < c.toNat
    · simp [hc, bind_ok, fail_ok] at h
    · simp only [hc, ↓reduceIte, bind_ok] at h
      obtain ⟨_, m, hm, _, m', hm', h⟩ := h
      obtain ⟨hcs, rfl⟩ := ih h
      simp [emit_ok hm', emit_ok hm]
      exact ⟨by omega, hcs⟩

theorem stringTerm_ok {value : String} {offset : Nat} (h : stringTerm value offset s = .ok () s') :
    FitsWords value ∧ s' = s.after s.tokens (stringCode value) 0 := by
  simp only [stringTerm] at h
  by_cases hl : maxWord < value.length
  · simp [hl, bind_ok, fail_ok] at h
  · simp only [hl, ↓reduceIte, bind_ok] at h
    obtain ⟨_, m, hm, _, m', hm', h⟩ := h
    obtain ⟨hcs, rfl⟩ := emitCharacters_ok h
    exact ⟨⟨by omega, hcs⟩, by simp [emit_ok hm', emit_ok hm, stringCode]⟩

theorem termFrom_ok {term : Compile Listing Unit} (ht : AcceptsTerm term)
    (he : AcceptsExpression expression) :
    AcceptsTerm (do termFrom term expression (← Reading.take .term)) := by
  intro s s' h
  obtain ⟨found, m, hm, h⟩ := bind_ok.mp h
  obtain ⟨t, htake, rfl⟩ := lift_ok hm
  have hn := Reading.next_of_take htake
  simp only [termFrom] at h
  replace h : EStateM.run _ (s.after t [] 0) = _ := h
  -- One case for each way in which a term starts, and one for the other tokens.
  split at h
  case h_11 =>
    obtain ⟨_, hu, -⟩ := lift_ok h
    exact (Reading.unexpected_ok.mp hu).elim
  all_goals rename_i hk; rw [hk] at hn
  · exact ⟨.integer _, t, hn.reads, trivial, by simp [emit_ok h, Term.code]⟩
  · obtain ⟨hv, rfl⟩ := stringTerm_ok h
    exact ⟨.string _, t, hn.reads, hv, by simp [Term.code]⟩
  · obtain ⟨_, m, hm, h⟩ := bind_ok.mp h
    exact ⟨.constant .true, t, hn.reads, trivial, by
      simp [emit_ok h, emit_ok hm, Term.code, Constant.code]⟩
  · exact ⟨.constant .false, t, hn.reads, trivial, by simp [emit_ok h, Term.code, Constant.code]⟩
  · exact ⟨.constant .null, t, hn.reads, trivial, by simp [emit_ok h, Term.code, Constant.code]⟩
  · exact ⟨.constant .this, t, hn.reads, trivial, by simp [emit_ok h, Term.code, Constant.code]⟩
  · obtain ⟨e, kinds, t', heq, hr, hv, rfl⟩ := variableTerm_ok he h
    exact ⟨e, t', heq ▸ ⟨t, hn, hr⟩, hv, by simp⟩
  · obtain ⟨_, m, hm, h⟩ := bind_ok.mp h
    obtain ⟨e, t', hr, hv, rfl⟩ := he _ _ hm
    obtain ⟨t'', hn', rfl⟩ := symbol_ok h
    exact ⟨.group e, t'', ⟨t, hn, hr.trans hn'.reads⟩, hv, by simp [Term.code]⟩
  · obtain ⟨_, m, hm, h⟩ := bind_ok.mp h
    obtain ⟨e, t', hr, hv, rfl⟩ := ht _ _ hm
    exact ⟨.unary .neg e, t', ⟨t, hn, hr⟩, hv, by simp [emit_ok h, Term.code]⟩
  · obtain ⟨_, m, hm, h⟩ := bind_ok.mp h
    obtain ⟨e, t', hr, hv, rfl⟩ := ht _ _ hm
    exact ⟨.unary .not e, t', ⟨t, hn, hr⟩, hv, by simp [emit_ok h, Term.code]⟩

end

theorem readCall_ok {b : Bool} {s t : TokenStream} (h : atCall s = .ok b t) : t = s := by
  obtain ⟨ts, m, hm, h⟩ := bind_ok.mp h
  have hms : m = s := by
    simp only [Reading.ahead] at hm
    split at hm <;> cases hm
    rfl
  replace h : EStateM.run _ m = _ := h
  have : t = m := by split at h <;> exact (pure_ok.mp h).2
  rw [this, hms]

theorem atCall_ok {b : Bool} (h : (liftM atCall : Compile Listing Bool) s = .ok b s') : s' = s := by
  obtain ⟨t, ht, rfl⟩ := lift_ok h
  rw [readCall_ok ht, s.after_self]

theorem term_ok (bound : Nat) : AcceptsTerm (term bound) := by
  induction bound with
  | zero =>
    intro s s' h
    obtain ⟨_, m, -, h⟩ := bind_ok.mp h
    obtain ⟨_, hu, -⟩ := lift_ok h
    exact (Reading.unexpected_ok.mp hu).elim
  | succ bound ih =>
    have he : AcceptsExpression (expressionOf (term bound) bound) := expressionOf_ok ih bound
    intro s s' h
    obtain ⟨call, m, hm, h⟩ := bind_ok.mp h
    obtain rfl := atCall_ok hm
    cases call with
    | true =>
      obtain ⟨c, t, hr, hv, rfl⟩ := subroutineCall_ok he bound m s' h
      exact ⟨.call c, t, hr, hv, rfl⟩
    | false => exact termFrom_ok ih he m s' h

theorem expression_ok (bound : Nat) : AcceptsExpression (expression bound) :=
  expressionOf_ok (term_ok bound) bound

theorem call_ok (bound : Nat) :
    Accepts (subroutineCall (expression bound) bound) Call.tokens Call.Valid Call.code :=
  subroutineCall_ok (expression_ok bound) bound

end JackVM.Compile
