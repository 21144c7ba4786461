import JackVM.Proofs.Grammar.CompileLaws
import JackVM.Proofs.Syntax.Code
import JackVM.Proofs.Syntax.Spelling
import JackVM.Proofs.Syntax.Validity

/-!
# Every expression is compiled

The converse: tokens that spell a tree meeting the static conditions are
compiled to the code of the tree, provided that the token after them cannot
continue them and that the bound on nesting is not below their number.
-/

namespace JackVM.Compile

open Syntax TokenStream CompileState

variable {s m : CompileState Listing} {t : TokenStream}

-- ---------------------------------------------------------------------------
-- Chains of operators
-- ---------------------------------------------------------------------------

theorem acceptOperator_next {level : OperatorLevel} {op : OperatorOf level}
    (h : s.tokens.Next (.symbol op.1.symbol) t) :
    (liftM (acceptOperator level) : Compile Listing (Option BinaryOperator)) s =
      .ok (some op.1) (s.after t [] 0) := by
  obtain ⟨op, rfl⟩ := op
  obtain ⟨span, hp⟩ := Reading.peek_next h
  refine lift_run (bind_to hp ?_)
  simp only [BinaryOperator.ofSymbol?_symbol]
  exact bind_to (Reading.skip_next h) rfl

theorem acceptOperator_stops {level : OperatorLevel}
    (h : s.tokens.Stops (operatorKinds level)) :
    (liftM (acceptOperator level) : Compile Listing (Option BinaryOperator)) s = .ok none s := by
  have hr : acceptOperator level s.tokens = .ok none s.tokens := by
    obtain ⟨⟨_ | ⟨⟨k, span⟩ | l, rest⟩, stop⟩, context, out⟩ := s
    · rfl
    · refine bind_to (Reading.peek_token ..) ?_
      cases k with
      | symbol c =>
        cases ho : BinaryOperator.ofSymbol? level c with
        | none => simp only [ho]; rfl
        | some op =>
          obtain ⟨rfl, rfl⟩ := BinaryOperator.level_symbol_of_ofSymbol? ho
          exact (h (mem_operatorKinds op)).elim
      | _ => rfl
    · exact h.elim
  rw [lift_run hr, s.after_self]

section
variable {level : OperatorLevel} {operand : Compile Listing Unit}

/-- A chain of `k` more operands has been compiled up to `m`; what remains of
the loop starts there. -/
def Chains (level : OperatorLevel) (operand : Compile Listing Unit) (k : Nat)
    (s m : CompileState Listing) : Prop :=
  ∀ bound, chain level operand (k + bound) s = repeatWhile bound (chainLink level operand) m

theorem chains_first (h : operand s = .ok () m) : Chains level operand 0 s m := by
  intro bound
  rw [Nat.zero_add]
  exact bind_to h rfl

theorem Chains.next {k : Nat} {op : OperatorOf level} {b : CompileState Listing}
    (h : Chains level operand k s m) (hn : m.tokens.Next (.symbol op.1.symbol) t)
    (ho : operand (m.after t [] 0) = .ok () b) :
    Chains level operand (k + 1) s (b.after b.tokens [op.1.instruction] 0) := by
  intro bound
  have hl : chainLink level operand m = .ok true (b.after b.tokens [op.1.instruction] 0) :=
    bind_to (acceptOperator_next hn) (bind_to ho (bind_to (emit_run _) rfl))
  rw [Nat.add_assoc, Nat.add_comm 1, h, repeatWhile_next hl]

theorem Chains.stop {k bound : Nat} (h : Chains level operand k s m) (hk : k ≤ bound)
    (hs : m.tokens.Stops (operatorKinds level)) : chain level operand bound s = .ok () m := by
  obtain ⟨rest, rfl⟩ := Nat.exists_eq_add_of_le hk
  rw [h]
  exact repeatWhile_stop (bind_to (acceptOperator_stops hs) rfl) rest

end

-- ---------------------------------------------------------------------------
-- Parts of terms
-- ---------------------------------------------------------------------------

theorem emitCharacters_run {offset : Nat} {cs : List Char} (h : ∀ c ∈ cs, c.toNat ≤ maxWord) :
    emitCharacters offset cs s = .ok () (s.after s.tokens (cs.flatMap fun c =>
      [.push .constant c.toNat, .call "String.appendChar" 2]) 0) := by
  induction cs generalizing s with
  | nil => exact congrArg _ s.after_self.symm
  | cons c cs ih =>
    have hc : ¬maxWord < c.toNat := by have := h c List.mem_cons_self; omega
    simp only [emitCharacters, hc, ↓reduceIte]
    refine bind_to (emit_run _) (bind_to (emit_run _) ?_)
    rw [ih fun x hx => h x (List.mem_cons_of_mem _ hx)]
    simp

theorem stringTerm_run {value : String} {offset : Nat} (h : FitsWords value) :
    stringTerm value offset s = .ok () (s.after s.tokens (stringCode value) 0) := by
  have hl : ¬maxWord < value.length := by have := h.1; omega
  simp only [stringTerm, hl, ↓reduceIte]
  refine bind_to (emit_run _) (bind_to (emit_run _) ?_)
  rw [emitCharacters_run h.2]
  simp [stringCode]

theorem emitPointAt_run : emitPointAt s = .ok () (s.after s.tokens pointAt 0) := by
  refine bind_to (emit_run _) ?_
  rw [emit_run]
  simp [pointAt]

theorem find?_of_declares {name : String} (h : s.Declares name) :
    ∃ v, s.context.declarations.find? name = some v ∧ s.scope.push name = [v.push] ∧
      s.scope.pop name = [v.pop] := by
  obtain ⟨v, hv⟩ := Option.isSome_iff_exists.mp h
  exact ⟨v, hv, by simp [Scope.push, CompileState.scope, hv],
    by simp [Scope.pop, CompileState.scope, hv]⟩

/-- A term that is no call starts with no name, or with one that is followed by
neither `(` nor `.`. -/
theorem atCall_stops {kind : TokenKind} (hn : s.tokens.Next kind t) (ht : t.Stops [])
    (hk : ∀ x, kind = .identifier x → t.Stops [.symbol '(', .symbol '.']) :
    (liftM atCall : Compile Listing Bool) s = .ok false s := by
  have hr : atCall s.tokens = .ok false s.tokens := by
    rcases ht.cases with he | ⟨next, u, hu, -⟩
    · obtain ⟨span, ha⟩ := Reading.ahead_last hn he
      exact bind_to ha (by cases kind <;> rfl)
    · obtain ⟨span, span', ha⟩ := Reading.ahead_next hn hu
      refine bind_to ha ?_
      cases kind with
      | identifier x =>
        cases next with
        | symbol c =>
          obtain ⟨_, hl, -⟩ := hu
          have hc := hk x rfl
          simp only [Stops, hl] at hc
          simp_all [pure_ok]
        | _ => rfl
      | _ => rfl
  rw [lift_run hr, s.after_self]

theorem atCall_next {x : String} {c : Char} {u : TokenStream}
    (hn : s.tokens.Next (.identifier x) t) (hc : t.Next (.symbol c) u) (h : c = '(' ∨ c = '.') :
    (liftM atCall : Compile Listing Bool) s = .ok true s := by
  obtain ⟨span, span', ha⟩ := Reading.ahead_next hn hc
  have hr : atCall s.tokens = .ok true s.tokens :=
    bind_to ha (by rcases h with rfl | rfl <;> rfl)
  rw [lift_run hr, s.after_self]

theorem callee_run {c : Callee} {n : Nat} {u : TokenStream} (hr : s.tokens.Reads c.tokens t)
    (hv : c.Valid s.Declares n) (hu : t.Next (.symbol '(') u) :
    callee s = .ok (c.label s.scope, c.receivers s.scope)
      (s.after t (c.receiverCode s.scope) 0) := by
  cases c with
  | own name =>
    obtain ⟨_, hn, rfl⟩ := hr
    obtain ⟨offset, xn⟩ := Reading.name_next .callee hn
    have hf : s.context.declarations.find? name = none := by simpa [Declares] using hv.1
    refine bind_to (lift_run xn) (bind_to (accept_stops (hu.stops (by decide))) ?_)
    simp only [Bool.false_eq_true, ↓reduceIte]
    refine bind_to (find?_run name) ?_
    simp only [after_declarations, hf, Option.isSome_none, Bool.false_eq_true, ↓reduceIte]
    refine bind_to (emit_run _) (bind_to context_run ?_)
    simp [Callee.label, Callee.receivers, Callee.receiverCode, CompileState.scope, pure_ok]
  | member owner name =>
    obtain ⟨_, hn, _, hd, _, hn', rfl⟩ := hr
    obtain ⟨offset, xn⟩ := Reading.name_next .callee hn
    obtain ⟨offset', xn'⟩ := Reading.name_next .subroutineName hn'
    refine bind_to (lift_run xn) (bind_to (accept_run hd) ?_)
    simp only [↓reduceIte]
    refine bind_to (lift_run xn') (bind_to (find?_run owner) ?_)
    simp only [after_declarations]
    cases hf : s.context.declarations.find? owner with
    | some v =>
      refine bind_to (emit_run _) ?_
      simp [Callee.label, Callee.receivers, Callee.receiverCode, Scope.push, CompileState.scope,
        hf, pure_ok]
    | none =>
      simp [Callee.label, Callee.receivers, Callee.receiverCode, Scope.push, CompileState.scope,
        hf, pure_ok]

-- ---------------------------------------------------------------------------
-- Terms and expressions
-- ---------------------------------------------------------------------------

theorem term_from {kind : TokenKind} (n : Nat) (hn : s.tokens.Next kind t) (ht : t.Stops [])
    (hk : ∀ x, kind = .identifier x → t.Stops [.symbol '(', .symbol '.']) :
    ∃ span, term (n + 1) s = termFrom (term n) (expression n) ⟨kind, span⟩ (s.after t [] 0) := by
  obtain ⟨span, xt⟩ := Reading.take_next .term hn
  refine ⟨span, bind_to (atCall_stops hn ht hk) ?_⟩
  simp only [Bool.false_eq_true, ↓reduceIte]
  exact bind_to (lift_run xt) rfl

theorem term_call {c : Callee} {n : Nat} {u : TokenStream} (hr : s.tokens.Reads c.tokens t)
    (hu : t.Next (.symbol '(') u) :
    term (n + 1) s = subroutineCall (expression n) n s := by
  have hc : (liftM atCall : Compile Listing Bool) s = .ok true s := by
    cases c with
    | own name =>
      obtain ⟨_, hn, rfl⟩ := hr
      exact atCall_next hn hu (.inl rfl)
    | member owner name =>
      obtain ⟨_, hn, _, hd, _⟩ := hr
      exact atCall_next hn hd (.inr rfl)
  exact bind_to hc rfl

theorem constant_run {term expression : Compile Listing Unit} (word : Constant) (span : Span) :
    termFrom term expression ⟨.keyword word.word, span⟩ s =
      .ok () (s.after s.tokens word.code 0) := by
  cases word with
  | true =>
    refine bind_to (emit_run _) ?_
    rw [emit_run]
    simp [Constant.code]
  | false | null | this => exact emit_run _

def Compiles (n : Nat) (e : Expression) : Prop :=
  ∀ {s t}, s.tokens.Reads e.tokens t → e.Valid s.Declares → t.Stops afterExpression →
    e.tokens.length ≤ n → expression n s = .ok () (s.after t (e.code s.scope) 0)

theorem compiles_of_chains {n : Nat} {e : Expression}
    (h : ∀ {s t}, s.tokens.Reads e.tokens t → e.Valid s.Declares → t.Stops afterOperand →
      e.tokens.length ≤ n →
      Chains .sum (chain .product (term n) n) e.links s (s.after t (e.code s.scope) 0)) :
    Compiles n e := by
  intro s t hr hv ht hl
  have hc := h hr hv (ht.mono (List.subset_append_right ..)) hl
  exact hc.stop (Nat.le_trans e.links_le hl) (ht.mono (List.subset_append_left ..))

theorem stops_closer {kind : TokenKind} {u : TokenStream} (h : t.Next kind u)
    (hk : kind ∈ closers) : t.Stops afterExpression :=
  h.stops (closer_not_mem_afterExpression hk)

theorem expression_stops {e : Expression} {kind : TokenKind} {s t : TokenStream}
    (h : s.Reads e.tokens t) (hk : kind ∈ closers) : s.Stops [kind] := by
  obtain ⟨first, kinds, he, hf⟩ := e.starts
  rw [he] at h
  refine h.stops fun hm => hf ?_
  rwa [List.mem_singleton.mp hm]

theorem moreTokens_stops {es : List Expression} {s t u : TokenStream}
    (h : s.Reads (Arguments.moreTokens es) t) (hu : t.Next (.symbol ')') u) :
    s.Stops afterExpression := by
  cases es with
  | nil => exact h ▸ stops_closer hu (by decide)
  | cons next others => exact h.stops (closer_not_mem_afterExpression (by decide))

theorem element_run {n : Nat} {array : String} {index : Expression} (hx : Compiles n index)
    (hr : s.tokens.Reads (Term.tokens (.element array index)) t)
    (hv : (Term.element array index).Valid s.Declares)
    (hl : (Term.tokens (.element array index)).length ≤ n + 1) :
    term (n + 1) s = .ok () (s.after t ((Term.element array index).code s.scope) 0) := by
  obtain ⟨m, hn, m1, ho, hr⟩ := hr
  obtain ⟨m2, hr, _, hc, rfl⟩ := reads_append.mp hr
  obtain ⟨ha, hi⟩ := hv
  obtain ⟨span, he⟩ := term_from n hn (ho.stops (by decide)) (fun _ _ => ho.stops (by decide))
  obtain ⟨v, hf, hp, -⟩ := find?_of_declares ha
  have hlen : index.tokens.length ≤ n := by
    simp only [Term.tokens, List.length_cons, List.length_append] at hl
    omega
  rw [he]
  refine bind_to (lookup_run hf) (bind_to (emit_run _) (bind_to (accept_run ho) ?_))
  simp only [↓reduceIte, after_after]
  refine bind_to (hx hr hi (stops_closer hc (by decide)) hlen) ?_
  refine bind_to (symbol_run hc) (bind_to emitPointAt_run ?_)
  rw [emit_run]
  simp [Term.code, hp]

theorem group_run {n : Nat} {inner : Expression} (hx : Compiles n inner)
    (hr : s.tokens.Reads (Term.tokens (.group inner)) t)
    (hv : inner.Valid s.Declares) (ht : t.Stops [])
    (hl : (Term.tokens (.group inner)).length ≤ n + 1) :
    term (n + 1) s = .ok () (s.after t ((Term.group inner).code s.scope) 0) := by
  obtain ⟨m, hn, hr⟩ := hr
  have hb := hr.stops_nil ht
  obtain ⟨m1, hr, _, hc, rfl⟩ := reads_append.mp hr
  obtain ⟨span, he⟩ := term_from n hn hb (fun _ h => nomatch h)
  have hlen : inner.tokens.length ≤ n := by
    simp only [Term.tokens, length_inParens] at hl
    omega
  rw [he]
  refine bind_to (hx hr hv (stops_closer hc (by decide)) hlen) ?_
  rw [symbol_run hc]
  simp [Term.code]

mutual
/-- The bound on nesting counts tokens, and a term has one of its own around
what is nested in it. -/
theorem term_run : (e : Term) → {n : Nat} → {s : CompileState Listing} → {t : TokenStream} →
    s.tokens.Reads e.tokens t → e.Valid s.Declares → t.Stops afterTerm → e.tokens.length ≤ n + 1 →
    term (n + 1) s = .ok () (s.after t (e.code s.scope) 0)
  | .integer value, n, s, t, ⟨_, hn, heq⟩, _, hs, _ => by
    obtain rfl := heq
    obtain ⟨span, he⟩ := term_from n hn (hs.mono (List.nil_subset _)) (fun _ h => nomatch h)
    rw [he]
    exact (emit_run _).trans (by simp [Term.code])
  | .string value, n, s, t, ⟨_, hn, heq⟩, hv, hs, _ => by
    obtain rfl := heq
    obtain ⟨span, he⟩ := term_from n hn (hs.mono (List.nil_subset _)) (fun _ h => nomatch h)
    rw [he]
    exact (stringTerm_run hv).trans (by simp [Term.code])
  | .constant word, n, s, t, ⟨_, hn, heq⟩, _, hs, _ => by
    obtain rfl := heq
    obtain ⟨span, he⟩ := term_from n hn (hs.mono (List.nil_subset _)) (fun _ h => nomatch h)
    rw [he, constant_run]
    simp [Term.code]
  | .variable name, n, s, t, ⟨_, hn, heq⟩, hv, hs, _ => by
    obtain rfl := heq
    obtain ⟨span, he⟩ := term_from n hn (hs.mono (List.nil_subset _))
      (fun _ _ => hs.mono (by simp [afterTerm]))
    obtain ⟨v, hf, hp, -⟩ := find?_of_declares hv
    rw [he]
    refine bind_to (lookup_run hf) (bind_to (emit_run _) ?_)
    refine bind_to (accept_stops (hs.mono (by simp [afterTerm]))) ?_
    simp [Term.code, hp, pure_ok]
  | .element _ index, _, _, _, hr, hv, _, hl =>
    element_run (compiles_of_chains (expression_chains index)) hr hv hl
  | .group inner, _, _, _, hr, hv, hs, hl =>
    group_run (compiles_of_chains (expression_chains inner)) hr hv
      (hs.mono (List.nil_subset _)) hl
  | .unary op operand, n, s, t, ⟨m, hn, hr⟩, hv, hs, hl => by
    have hb := hr.stops_nil (hs.mono (List.nil_subset _))
    obtain ⟨span, he⟩ := term_from n hn hb (fun _ h => nomatch h)
    have hlen : operand.tokens.length ≤ n := by
      simp only [Term.tokens, List.length_cons] at hl
      omega
    obtain ⟨n, rfl⟩ := Nat.exists_eq_add_one_of_ne_zero
      (Nat.ne_of_gt (Nat.lt_of_lt_of_le operand.tokens_pos hlen))
    rw [he]
    have hx := term_run operand (s := s.after m [] 0) hr hv hs hlen
    cases op with
    | neg | not =>
      refine bind_to hx ?_
      rw [emit_run]
      simp [Term.code]
  | .call (.mk callee args), n, s, t, hr, hv, _, hl => by
    obtain ⟨m, hc, m1, ho, -⟩ := reads_append.mp hr
    rw [term_call hc ho]
    exact (call_run (.mk callee args) hr hv hl).trans (by simp [Term.code])
theorem call_run : (c : Call) → {n : Nat} → {s : CompileState Listing} → {t : TokenStream} →
    s.tokens.Reads c.tokens t → c.Valid s.Declares → c.tokens.length ≤ n + 1 →
    subroutineCall (expression n) n s = .ok () (s.after t (c.code s.scope) 0)
  | .mk callee args, n, s, t, hr, ⟨hvc, hva⟩, hl => by
    obtain ⟨m, hr, m1, ho, hra⟩ := reads_append.mp hr
    obtain ⟨m2, hra, _, hc, heq⟩ := reads_append.mp hra
    obtain rfl := heq
    have hlen : (Arguments.tokens args).length ≤ n := by
      simp only [Call.tokens, List.length_append, length_inParens] at hl
      omega
    refine bind_to (callee_run hr hvc ho) (bind_to (symbol_run ho) ?_)
    have hcounted : callee.receivers s.scope + args.length ≤ maxWord := Callee.Valid.counted hvc
    have hargs : args.length ≤ maxWord := Nat.le_trans (Nat.le_add_left ..) hcounted
    refine bind_to (arguments_run args hra hva hc hlen hargs) (bind_to (symbol_run hc) ?_)
    refine bind_to (addInWord_run hcounted) ?_
    rw [emit_run]
    simp [Call.code]
theorem operand_chains : (o : Operand) → {n : Nat} → {s : CompileState Listing} →
    {t : TokenStream} → s.tokens.Reads o.tokens t → o.Valid s.Declares → t.Stops afterTerm →
    o.tokens.length ≤ n → Chains .product (term n) o.links s (s.after t (o.code s.scope) 0)
  | .term single, n, s, t, hr, hv, hs, hl => by
    obtain ⟨n, rfl⟩ := Nat.exists_eq_add_one_of_ne_zero
      (Nat.ne_of_gt (Nat.lt_of_lt_of_le single.tokens_pos hl))
    exact chains_first (term_run single hr hv hs hl)
  | .product left op right, n, s, t, hr, ⟨hvl, hvr⟩, hs, hl => by
    obtain ⟨m, hm, m1, hn, hr⟩ := reads_append.mp hr
    simp only [Operand.tokens, List.length_append, List.length_cons] at hl
    obtain ⟨n, rfl⟩ := Nat.exists_eq_add_one_of_ne_zero (show n ≠ 0 by omega)
    have hleft := operand_chains left (n := n + 1) hm hvl
      (hn.stops (product_not_mem_afterTerm op)) (by omega)
    have h := hleft.next hn (term_run right hr hvr hs (by omega))
    simpa [Operand.code, Operand.links] using h
theorem expression_chains : (e : Expression) → {n : Nat} → {s : CompileState Listing} →
    {t : TokenStream} → s.tokens.Reads e.tokens t → e.Valid s.Declares → t.Stops afterOperand →
    e.tokens.length ≤ n →
    Chains .sum (chain .product (term n) n) e.links s (s.after t (e.code s.scope) 0)
  | .operand single, n, s, t, hr, hv, hs, hl => by
    have h := operand_chains single hr hv (hs.mono (List.subset_append_right ..)) hl
    exact chains_first (h.stop (Nat.le_trans single.links_le hl)
      (hs.mono (List.subset_append_left ..)))
  | .sum left op right, n, s, t, hr, ⟨hvl, hvr⟩, hs, hl => by
    obtain ⟨m, hm, m1, hn, hr⟩ := reads_append.mp hr
    simp only [Expression.tokens, List.length_append, List.length_cons] at hl
    have hleft := expression_chains left (n := n) hm hvl
      (hn.stops (sum_not_mem_afterOperand op)) (by omega)
    have hright := operand_chains right (n := n)
      (s := (s.after m (left.code s.scope) 0).after m1 [] 0) hr hvr
      (hs.mono (List.subset_append_right ..)) (by omega)
    have hlinks : right.links ≤ n := Nat.le_trans right.links_le (by omega)
    have h := hleft.next hn (hright.stop hlinks (hs.mono (List.subset_append_left ..)))
    simpa [Expression.code, Expression.links] using h
theorem arguments_run : (es : List Expression) → {n : Nat} → {s : CompileState Listing} →
    {t u : TokenStream} → s.tokens.Reads (Arguments.tokens es) t →
    Arguments.Valid s.Declares es → t.Next (.symbol ')') u → (Arguments.tokens es).length ≤ n →
    es.length ≤ maxWord →
    arguments (expression n) n s = .ok es.length (s.after t (Arguments.code s.scope es) 0)
  | [], n, s, t, u, heq, _, hu, _, _ => by
    obtain rfl := heq
    refine bind_to (isNext_run hu) ?_
    simp [Arguments.code, after_self, pure_ok]
  | first :: others, n, s, t, u, hr, ⟨hv, hvs⟩, hu, hl, hw => by
    obtain ⟨m, hf, hr⟩ := reads_append.mp hr
    simp only [Arguments.tokens, List.length_append] at hl
    have hx : Compiles n first := compiles_of_chains (expression_chains first)
    refine bind_to (isNext_stops (expression_stops hf (by decide))) ?_
    simp only [Bool.false_eq_true, ↓reduceIte]
    refine bind_to (hx hf hv (moreTokens_stops hr hu) (by omega)) ?_
    have hmore : (Arguments.moreTokens others).length ≤ n := by omega
    have hcount : 1 + others.length ≤ maxWord := by simpa [Nat.add_comm] using hw
    refine (moreArguments_run others (s := s.after m _ 0) hr hvs hu hmore hmore hcount).trans ?_
    simp [Arguments.code, Nat.add_comm]
theorem moreArguments_run : (es : List Expression) → {n bound count : Nat} →
    {s : CompileState Listing} → {t u : TokenStream} → s.tokens.Reads (Arguments.moreTokens es) t →
    Arguments.Valid s.Declares es → t.Next (.symbol ')') u →
    (Arguments.moreTokens es).length ≤ n → (Arguments.moreTokens es).length ≤ bound →
    count + es.length ≤ maxWord →
    moreArguments (expression n) bound count s =
      .ok (count + es.length) (s.after t (Arguments.code s.scope es) 0)
  | [], n, bound, count, s, t, u, heq, _, hu, _, _, _ => by
    obtain rfl := heq
    cases bound with
    | zero => simp [moreArguments, Arguments.code, after_self, pure_ok]
    | succ bound =>
      refine bind_to (accept_stops (hu.stops (by decide))) ?_
      simp [Arguments.code, after_self, pure_ok]
  | next :: others, n, bound, count, s, t, u, ⟨m, hn, hr⟩, ⟨hv, hvs⟩, hu, hl, hb, hw => by
    obtain ⟨m1, hf, hr⟩ := reads_append.mp hr
    simp only [Arguments.moreTokens, List.length_cons, List.length_append] at hl hb
    obtain ⟨bound, rfl⟩ := Nat.exists_eq_add_one_of_ne_zero (show bound ≠ 0 by omega)
    have hx : Compiles n next := compiles_of_chains (expression_chains next)
    refine bind_to (accept_run hn) ?_
    simp only [↓reduceIte]
    refine bind_to (hx hf hv (moreTokens_stops hr hu) (by omega)) ?_
    have hmore : (Arguments.moreTokens others).length ≤ n := by omega
    have hbound : (Arguments.moreTokens others).length ≤ bound := by omega
    have hcount : count + 1 + others.length ≤ maxWord := by
      simpa [Nat.add_assoc, Nat.add_comm 1] using hw
    refine bind_to (addInWord_run (Nat.le_trans (Nat.le_add_right ..) hcount)) ?_
    refine (moreArguments_run others (s := (s.after m [] 0).after m1 _ 0) hr hvs hu hmore
      hbound hcount).trans ?_
    simp [Arguments.code, Nat.add_comm, Nat.add_left_comm]
end

theorem expression_run (e : Expression) (n : Nat) : Compiles n e :=
  compiles_of_chains (expression_chains e)

theorem expression_after {n k : Nat} {e : Expression} {a : TokenStream} {code : List Instruction}
    (hr : a.Reads e.tokens t) (hv : e.Valid s.Declares) (ht : t.Stops afterExpression)
    (hl : e.tokens.length ≤ n) :
    expression n (s.after a code k) = .ok () (s.after t (code ++ e.code s.scope) k) := by
  have h := expression_run e n (s := s.after a code k) hr (by simpa using hv) ht hl
  simpa using h

end JackVM.Compile
