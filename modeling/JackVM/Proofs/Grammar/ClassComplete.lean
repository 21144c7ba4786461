import JackVM.Proofs.Grammar.StatementComplete
import JackVM.Proofs.Grammar.SubroutineLaws

/-!
# Every class is compiled

The same for declarations, subroutines and classes. A list of declarations is
made if its tokens are read and every kind has room for it.
-/

namespace JackVM.Compile

open Syntax TokenStream CompileState

variable {s s' : CompileState Listing} {t : TokenStream}

-- ---------------------------------------------------------------------------
-- Items one after another
-- ---------------------------------------------------------------------------

section
variable {α β : Type} {xs : List α} (f : α → List β)

theorem length_le_flatMap (h : ∀ x, 0 < (f x).length) : xs.length ≤ (xs.flatMap f).length := by
  induction xs with
  | nil => exact Nat.zero_le _
  | cons x xs ih =>
    have := h x
    simp only [List.length_cons, List.flatMap_cons, List.length_append]
    omega

theorem length_le_flatMap_of_mem {x : α} (h : x ∈ xs) :
    (f x).length ≤ (xs.flatMap f).length := by
  induction xs with
  | nil => cases h
  | cons y ys ih =>
    simp only [List.flatMap_cons, List.length_append]
    rcases List.mem_cons.mp h with rfl | h
    · omega
    · have := ih h
      omega

end

theorem repeatAfter_run {β : Type} {kind : TokenKind} {item : Compile Listing Unit}
    {tokens : β → List TokenKind} {new : β → List Declaration} {xs : List β} {bound : Nat}
    (hitem : ∀ x ∈ xs, ∀ {a b}, Introduces (tokens x) (new x) a b → item a = .ok () b)
    (h : Introduces (xs.flatMap fun x => kind :: tokens x) (xs.flatMap new) s s')
    (ht : s'.tokens.Stops [kind]) (hb : xs.length ≤ bound) :
    repeatAfter bound kind item s = .ok () s' := by
  refine repeatWhile_all (P := fun (ys : List β) a c => ys ⊆ xs ∧ c.tokens.Stops [kind] ∧
    Introduces (ys.flatMap fun y => kind :: tokens y) (ys.flatMap new) a c)
    ⟨List.Subset.refl _, ht, h⟩ hb ?_ ?_
  · rintro a c ⟨-, hs, h⟩
    obtain rfl := h.eq_of_nil
    exact ⟨bind_to (accept_stops hs) rfl, rfl⟩
  · rintro y ys a c ⟨hy, hs, h⟩
    obtain ⟨b, h, hrest⟩ := h.split
    obtain ⟨t, hk, h⟩ := h.next
    obtain ⟨hy, hys⟩ := List.cons_subset.mp hy
    exact ⟨b, bind_to (accept_run hk) (bind_to (hitem y hy h) rfl), hys, hs, hrest⟩

-- ---------------------------------------------------------------------------
-- Declarations
-- ---------------------------------------------------------------------------

theorem readType_run {type : TypeName} {s : TokenStream} (h : s.Next type.token t) :
    typeName s = .ok type.text t := by
  obtain ⟨span, xt⟩ := Reading.take_next .typeName h
  refine bind_to xt ?_
  cases type <;> rfl

theorem declareName_run {expected : Expectation} {type : String} {kind : VariableKind}
    {name : String} (h : Introduces [.identifier name] [⟨name, type, kind⟩] s s') :
    declareName expected type kind s = .ok () s' := by
  obtain ⟨t, ⟨_, hn, rfl⟩, hroom, rfl⟩ := h
  obtain ⟨offset, xn⟩ := Reading.name_next expected hn
  have hd : declare ⟨name, offset⟩ type kind (s.after t [] 0) = _ :=
    declare_run (Declarations.hasRoom_singleton.mp hroom)
  exact bind_to (lift_run xn) (hd.trans (by simp))

theorem declarators_run {kind : VariableKind} {d : Declarators} {bound : Nat}
    (h : Introduces d.tokens (d.declarations kind) s s') (hb : d.tokens.length ≤ bound) :
    declarators kind bound s = .ok () s' := by
  obtain ⟨t, ht, h⟩ := h.next
  have hsplit : d.declarations kind = [⟨d.first, d.type.text, kind⟩] ++
      (d.others.flatMap (fun name => [⟨name, d.type.text, kind⟩]) ++ []) := by
    simp [Declarators.declarations, Declarators.names, List.map_eq_flatMap]
  rw [hsplit, ← List.singleton_append] at h
  obtain ⟨m, hf, h⟩ := h.split
  obtain ⟨m1, ho, h⟩ := h.split
  obtain ⟨t1, hs, h⟩ := h.next
  obtain rfl := h.eq_of_nil
  have hlen : d.others.length ≤ bound := by
    have h : d.others.length ≤ _ :=
      length_le_flatMap (fun name => [TokenKind.symbol ',', .identifier name]) (by simp)
    simp only [Declarators.tokens, List.length_cons, List.length_append] at hb
    omega
  refine bind_to (lift_run (readType_run ht)) (bind_to (declareName_run hf) ?_)
  refine bind_to (repeatAfter_run (fun _ _ => declareName_run) ho (hs.stops (by decide)) hlen) ?_
  exact symbol_run hs

theorem localVariables_run {ds : List Declarators} {bound : Nat}
    (h : Introduces (ds.flatMap fun d => .keyword .varWord :: d.tokens)
      (ds.flatMap (Declarators.declarations .var)) s s')
    (ht : s'.tokens.Stops [.keyword .varWord])
    (hb : (ds.flatMap fun d => TokenKind.keyword .varWord :: d.tokens).length ≤ bound) :
    localVariables bound s = .ok () s' := by
  refine repeatAfter_run (fun d hd _ _ h => declarators_run h ?_) h ht ?_
  · have h := length_le_flatMap_of_mem (fun d => TokenKind.keyword .varWord :: d.tokens) hd
    exact Nat.le_trans (Nat.le_of_succ_le h) hb
  · exact Nat.le_trans (length_le_flatMap _ fun _ => by simp) hb

theorem classVariable_run {v : ClassVariables} {bound : Nat}
    (h : Introduces v.tokens v.declarations s s') (hb : v.tokens.length ≤ bound) :
    classVariable bound s = .ok true s' := by
  obtain ⟨storage, d⟩ := v
  obtain ⟨t, hk, h⟩ := h.next
  have hd : declarators storage.kind bound _ = _ := declarators_run h (Nat.le_of_succ_le hb)
  cases storage with
  | static | field =>
    exact bind_to (nextKeyword_run hk) (bind_to (skip_run hk) (bind_to hd rfl))

theorem classVariable_stops {bound : Nat}
    (h : s.tokens.Stops [.keyword .staticWord, .keyword .fieldWord]) :
    classVariable bound s = .ok false s := by
  obtain ⟨word, hk, hne⟩ := nextKeyword_stops [.staticWord, .fieldWord] h
  refine bind_to hk ?_
  cases word with
  | none => rfl
  | some w =>
    cases w with
    | staticWord | fieldWord => exact absurd rfl (hne _ (by decide))
    | _ => rfl

theorem classVariables_run {vs : List ClassVariables} {bound : Nat}
    (h : Introduces (vs.flatMap ClassVariables.tokens)
      (vs.flatMap ClassVariables.declarations) s s')
    (ht : s'.tokens.Stops [.keyword .staticWord, .keyword .fieldWord])
    (hb : (vs.flatMap ClassVariables.tokens).length ≤ bound) :
    classVariables bound s = .ok () s' := by
  have hlen : vs.length ≤ bound :=
    Nat.le_trans (length_le_flatMap _ fun _ => by simp [ClassVariables.tokens]) hb
  refine repeatWhile_all (P := fun (ws : List ClassVariables) a c => ws ⊆ vs ∧
    c.tokens.Stops [.keyword .staticWord, .keyword .fieldWord] ∧
    Introduces (ws.flatMap ClassVariables.tokens) (ws.flatMap ClassVariables.declarations) a c)
    ⟨List.Subset.refl _, ht, h⟩ hlen ?_ ?_
  · rintro a c ⟨-, hs, h⟩
    obtain rfl := h.eq_of_nil
    exact ⟨classVariable_stops hs, rfl⟩
  · rintro w ws a c ⟨hw, hs, h⟩
    obtain ⟨b, h, hrest⟩ := h.split
    obtain ⟨hw, hws⟩ := List.cons_subset.mp hw
    have hlen := Nat.le_trans (length_le_flatMap_of_mem ClassVariables.tokens hw) hb
    exact ⟨b, classVariable_run h hlen, hws, hs, hrest⟩

theorem parameter_run {p : Parameter} (h : Introduces p.tokens [p.declaration] s s') :
    parameter s = .ok () s' := by
  obtain ⟨t, ht, h⟩ := h.next
  exact bind_to (lift_run (readType_run ht)) (declareName_run h)

theorem parameters_run {ps : List Parameter} {bound : Nat} {u : TokenStream}
    (h : Introduces (Parameters.tokens ps) (ps.map Parameter.declaration) s s')
    (hu : s'.tokens.Next (.symbol ')') u) (hb : (Parameters.tokens ps).length ≤ bound) :
    parameters bound s = .ok () s' := by
  cases ps with
  | nil =>
    obtain rfl := h.eq_of_nil
    exact bind_to (isNext_run hu) rfl
  | cons p ps =>
    have h : Introduces (p.tokens ++ ps.flatMap fun p => .symbol ',' :: p.tokens)
        ([p.declaration] ++ ps.flatMap fun p => [p.declaration]) s s' := by
      simpa [Parameters.tokens, List.map_eq_flatMap] using h
    obtain ⟨b, hp, h⟩ := h.split
    have hlen : ps.length ≤ bound := by
      have h : ps.length ≤ _ :=
        length_le_flatMap (fun p => TokenKind.symbol ',' :: p.tokens) (by simp)
      simp only [Parameters.tokens, List.length_append] at hb
      omega
    have hne : s.tokens.Stops [.symbol ')'] := by
      obtain ⟨_, hn, -⟩ := hp.next
      exact hn.stops fun hm => p.type.token_ne_symbol _ (List.mem_singleton.mp hm)
    refine bind_to (isNext_stops hne) ?_
    simp only [Bool.false_eq_true, ↓reduceIte]
    refine bind_to (parameter_run hp) ?_
    exact repeatAfter_run (fun _ _ => parameter_run) h (hu.stops (by decide)) hlen

theorem prologue_run (kind : SubroutineKind) :
    prologue kind s =
      .ok () (s.after s.tokens (prologueCode (s.context.declarations.count .field) kind) 0) := by
  cases kind with
  | constructor =>
    refine bind_to context_run (bind_to (emit_run _) (bind_to (emit_run _) ?_))
    rw [emit_run]
    simp [prologueCode]
  | function => exact congrArg _ s.after_self.symm
  | method =>
    refine bind_to (emit_run _) ?_
    rw [emit_run]
    simp [prologueCode]

-- ---------------------------------------------------------------------------
-- Subroutines
-- ---------------------------------------------------------------------------

theorem subroutineBody_run {kind : SubroutineKind} {name : String} {ds : List Declarators}
    {body : List Statement} {bound : Nat} (hr : s.tokens.Reads (bodyTokens ds body) t)
    (hroom : s.context.declarations.HasRoom (ds.flatMap (Declarators.declarations .var)))
    (hv : Statements.Valid (s.declared t (ds.flatMap (Declarators.declarations .var))).Declares
      s.context.returnsVoid body)
    (hb : (bodyTokens ds body).length ≤ bound) :
    subroutineBody kind name bound s =
      .ok () ((s.declared t (ds.flatMap (Declarators.declarations .var))).afterBody kind name
        body) := by
  obtain ⟨m, ho, hr⟩ := hr
  obtain ⟨m1, hr, _, hc, rfl⟩ := reads_append.mp hr
  obtain ⟨m2, hrl, hrs⟩ := reads_append.mp hr
  simp only [bodyTokens, length_inBraces, List.length_append] at hb
  have hl : Introduces _ _ (s.after m [] 0) _ := ⟨m2, hrl, hroom, rfl⟩
  have hstop := statements_stops hrs hc (show Keyword.varWord ∉ statementWords by decide)
  refine bind_to (symbol_run ho) (bind_to (localVariables_run hl hstop (by omega)) ?_)
  rw [after_declared]
  refine bind_to context_run (bind_to (emit_run _) (bind_to (prologue_run kind) ?_))
  simp only [after_after]
  refine bind_to (statements_after (statements_run body bound) hrs hv hc (by omega)) ?_
  rw [symbol_run hc]
  simp [afterBody, bodyCode]
  rfl

theorem returnType_run {type : Option TypeName} {s : TokenStream}
    (h : s.Next (returnToken type) t) : returnType s = .ok type.isNone t := by
  cases type with
  | none => exact bind_to (Reading.accept_next h) rfl
  | some type =>
    have hs : s.Stops [.keyword .voidWord] :=
      h.stops fun hm => type.token_ne_void (List.mem_singleton.mp hm)
    exact bind_to (Reading.accept_stops hs) (bind_to (readType_run h) rfl)

theorem declareReceiver_run {kind : SubroutineKind} {offset : Nat}
    (h : Introduces [] (receiver s.context.className kind) s s') :
    declareReceiver kind offset s = .ok () s' := by
  cases kind with
  | method =>
    obtain ⟨t, hr, hroom, rfl⟩ := h
    obtain rfl := hr
    refine bind_to context_run ?_
    exact declare_run (Declarations.hasRoom_singleton.mp hroom)
  | constructor | function =>
    obtain rfl := h.eq_of_nil
    rfl

theorem subroutine_run {sub : Subroutine} {bound : Nat} {m : TokenStream}
    (hk : s.tokens.Next (.keyword (kindWord sub.kind)) m) (h : ReadsSubroutine sub s s')
    (hb : sub.tokens.length ≤ bound) :
    subroutine sub.kind bound (s.after m [] 0) = .ok () s' := by
  obtain ⟨t, ⟨_, hk', m1, hv, m2, hn, hr⟩, hroom, hvalid, rfl⟩ := h
  obtain rfl := hk.unique hk'
  obtain ⟨m3, hp, hbody⟩ := reads_append.mp hr
  obtain ⟨hroom, hlocals⟩ := Declarations.hasRoom_append.mp hroom
  obtain ⟨offset, xn⟩ := Reading.name_next .subroutineName hn
  have hi : Introduces ([] ++ inParens (Parameters.tokens sub.parameters))
      (receiver s.context.className sub.kind ++ (sub.parameters.map Parameter.declaration ++ []))
      ((((s.after m [] 0).after m1 [] 0).after m2 [] 0).entered sub.returnsVoid) _ :=
    ⟨m3, hp, by simpa using hroom, rfl⟩
  obtain ⟨b, hrec, hi⟩ := hi.split
  obtain ⟨_, ho, hi⟩ := hi.next
  obtain ⟨b', hps, hi⟩ := hi.split
  obtain ⟨_, hc, hi⟩ := hi.next
  have hb' := hi.eq_of_nil
  simp only [after_entered_declared, List.append_nil] at hb'
  have hbt : (Parameters.tokens sub.parameters).length ≤ bound := by
    simp only [Subroutine.tokens, List.length_cons, List.length_append, length_inParens] at hb
    omega
  refine bind_to (lift_run (returnType_run hv)) (bind_to (lift_run xn) ?_)
  refine bind_to (enterSubroutine_run _) (bind_to (declareReceiver_run hrec) ?_)
  refine bind_to (symbol_run ho) (bind_to (parameters_run hps hc hbt) ?_)
  refine bind_to (symbol_run hc) ?_
  rw [← hb']
  refine (subroutineBody_run hbody ?_ ?_ ?_).trans ?_
  · simpa using hlocals
  · simpa [inSubroutine, Subroutine.declarations] using hvalid
  · simp only [Subroutine.tokens, List.length_cons, List.length_append] at hb
    omega
  · simp [afterSubroutine, inSubroutine, Subroutine.declarations]

theorem nextSubroutine_run {sub : Subroutine} {bound : Nat} (h : ReadsSubroutine sub s s')
    (hb : sub.tokens.length ≤ bound) : nextSubroutine bound s = .ok true s' := by
  obtain ⟨t, hr, -⟩ := id h
  obtain ⟨m, hk⟩ := hr.next
  refine bind_to (nextKeyword_run hk) ?_
  simp only [Option.bind_some, ofKeyword?_kindWord]
  exact bind_to (skip_run hk) (bind_to (subroutine_run hk h hb) rfl)

def subroutineWords : List Keyword := [.constructorWord, .functionWord, .methodWord]

theorem nextSubroutine_stops {bound : Nat} (h : s.tokens.Stops (subroutineWords.map .keyword)) :
    nextSubroutine bound s = .ok false s := by
  obtain ⟨word, hk, hne⟩ := nextKeyword_stops subroutineWords h
  refine bind_to hk ?_
  cases word with
  | none => rfl
  | some w =>
    cases w with
    | constructorWord | functionWord | methodWord => exact absurd rfl (hne _ (by decide))
    | _ => rfl

theorem subroutines_run {subs : List Subroutine} {bound : Nat} (h : ReadsSubroutines subs s s')
    (ht : s'.tokens.Stops (subroutineWords.map .keyword))
    (hb : (subs.flatMap Subroutine.tokens).length ≤ bound) :
    subroutines bound s = .ok () s' := by
  have hlen : subs.length ≤ bound :=
    Nat.le_trans (length_le_flatMap _ fun _ => by simp [Subroutine.tokens]) hb
  refine repeatWhile_all (P := fun (xs : List Subroutine) a c => xs ⊆ subs ∧
    c.tokens.Stops (subroutineWords.map .keyword) ∧ ReadsSubroutines xs a c)
    ⟨List.Subset.refl _, ht, h⟩ hlen ?_ ?_
  · rintro a c ⟨-, hs, h⟩
    obtain rfl := h
    exact ⟨nextSubroutine_stops hs, rfl⟩
  · rintro x xs a c ⟨hx, hs, b, h, hrest⟩
    obtain ⟨hx, hxs⟩ := List.cons_subset.mp hx
    have hlen := Nat.le_trans (length_le_flatMap_of_mem Subroutine.tokens hx) hb
    exact ⟨b, nextSubroutine_run h hlen, hxs, hs, hrest⟩

-- ---------------------------------------------------------------------------
-- Classes
-- ---------------------------------------------------------------------------

theorem subroutines_stops {subs : List Subroutine} {s t u : TokenStream}
    (h : s.Reads (subs.flatMap Subroutine.tokens) t) (hu : t.Next (.symbol '}') u) :
    s.Stops [.keyword .staticWord, .keyword .fieldWord] := by
  cases subs with
  | nil => exact h ▸ hu.stops (by decide)
  | cons sub subs =>
    obtain ⟨_, hk⟩ := h.next
    exact hk.stops (by cases sub.kind <;> decide)

theorem classDeclaration_run (options : Options) (out : Listing) {tokens : TokenStream}
    {c : JackClass} {bound stop : Nat} (hr : tokens.Reads c.tokens ⟨[], stop⟩) (hv : c.Valid)
    (hb : c.tokens.length ≤ bound) :
    ∃ s', classDeclaration bound ⟨tokens, { options }, out⟩ = .ok () s' ∧
      s'.out = out ++ (c.code options).toArray := by
  obtain ⟨m, hk, m1, hn, m2, ho, hr⟩ := hr
  obtain ⟨m3, hr, _, hc, rfl⟩ := reads_append.mp hr
  obtain ⟨m4, hvs, hsubs⟩ := reads_append.mp hr
  simp only [JackClass.tokens, List.length_cons, length_inBraces, List.length_append] at hb
  let q : CompileState Listing := ⟨m2, { options, className := c.name }, out⟩
  have hvars : Introduces _ _ q (q.declared m4 c.declarations) :=
    ⟨m4, hvs, (Declarations.records_empty.hasRoom_class c.ofClass fits_nil).mpr hv.fits, rfl⟩
  have hw : (q.declared m4 c.declarations).Within c :=
    ⟨rfl, [], Declarations.records_empty.addAll_class c.ofClass⟩
  obtain ⟨s', ht, hs⟩ := hw.readsSubroutines hsubs hv.subroutines
  refine ⟨s'.after ⟨[], stop⟩ [] 0, ?_, ?_⟩
  · obtain ⟨offset, xn⟩ := Reading.name_next .className hn
    refine bind_to (keyword_run hk) (bind_to (lift_run xn) (bind_to modifyContext_run ?_))
    refine bind_to (symbol_run ho) ?_
    simp only [after, Array.append_empty, Nat.add_zero]
    have hq : classVariables bound q = _ :=
      classVariables_run hvars (subroutines_stops hsubs hc) (by omega)
    have hstop : s'.tokens.Stops (subroutineWords.map .keyword) := ht ▸ hc.stops (by decide)
    refine bind_to hq (bind_to (subroutines_run hs hstop (by omega)) ?_)
    exact bind_to (symbol_run (ht ▸ hc)) rfl
  · simp [(hs.reads hw).2.2, JackClass.code, q, declared]

end JackVM.Compile
