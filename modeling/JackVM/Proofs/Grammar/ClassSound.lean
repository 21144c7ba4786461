import JackVM.Proofs.Grammar.StatementSound
import JackVM.Proofs.Grammar.SubroutineLaws

/-!
# What is compiled as a class is one

The same for declarations, subroutines and classes. Declarations write no code
but change the scope; a subroutine starts with a scope of its own.
-/

namespace JackVM.Compile

open Syntax TokenStream CompileState

variable {s s' : CompileState Listing}

-- ---------------------------------------------------------------------------
-- Declarations
-- ---------------------------------------------------------------------------

theorem readType_ok {text : String} {s t : TokenStream} (h : typeName s = .ok text t) :
    ∃ type : TypeName, text = type.text ∧ s.Next type.token t := by
  obtain ⟨found, m, xt, h⟩ := bind_ok.mp h
  have hn := Reading.next_of_take xt
  replace h : EStateM.run _ m = _ := h
  split at h
  case h_5 => exact (Reading.unexpected_ok.mp h).elim
  all_goals
    rename_i hk
    rw [hk] at hn
    obtain ⟨rfl, rfl⟩ := pure_ok.mp h
  · exact ⟨.int, rfl, hn⟩
  · exact ⟨.char, rfl, hn⟩
  · exact ⟨.boolean, rfl, hn⟩
  · exact ⟨.named _, rfl, hn⟩

theorem typeName_ok {text : String}
    (h : (liftM typeName : Compile Listing String) s = .ok text s') :
    ∃ type : TypeName, text = type.text ∧ Introduces [type.token] [] s s' := by
  obtain ⟨t, ht, rfl⟩ := lift_ok h
  obtain ⟨type, rfl, hn⟩ := readType_ok ht
  exact ⟨type, rfl, introduces_next hn⟩

theorem declareName_ok {expected : Expectation} {type : String} {kind : VariableKind}
    (h : declareName expected type kind s = .ok () s') :
    ∃ name, Introduces [.identifier name] [⟨name, type, kind⟩] s s' := by
  obtain ⟨v, m, xn, h⟩ := bind_ok.mp h
  obtain ⟨t, hn, rfl⟩ := name_ok xn
  obtain ⟨hr, rfl⟩ := declare_ok h
  exact ⟨v.name, (introduces_next hn).trans ⟨t, rfl, hr, rfl⟩⟩

theorem repeatAfter_ok {β : Type} {kind : TokenKind} {item : Compile Listing Unit}
    {tokens : β → List TokenKind} {new : β → List Declaration} {bound : Nat}
    (hitem : ∀ a b, item a = .ok () b → ∃ x, Introduces (tokens x) (new x) a b)
    (h : repeatAfter bound kind item s = .ok () s') :
    ∃ xs : List β, Introduces (xs.flatMap fun x => kind :: tokens x) (xs.flatMap new) s s' := by
  refine repeatWhile_list (P := fun (xs : List β) => Introduces
    (xs.flatMap fun x => kind :: tokens x) (xs.flatMap new)) h (fun _ => introduces_nil) ?_
  intro a b again hab
  obtain ⟨found, m, xf, hround⟩ := bind_ok.mp hab
  rcases accept_ok xf with ⟨rfl, t, hn, rfl⟩ | ⟨rfl, rfl⟩
  · obtain ⟨_, m', xi, hend⟩ := bind_ok.mp hround
    obtain ⟨x, hx⟩ := hitem _ _ xi
    obtain ⟨rfl, rfl⟩ := pure_ok.mp hend
    exact .inl ⟨rfl, x, fun xs c hxs => ((introduces_next hn).trans hx).trans hxs⟩
  · exact .inr (pure_ok.mp hround)

theorem declarators_ok {kind : VariableKind} {bound : Nat}
    (h : declarators kind bound s = .ok () s') :
    ∃ d : Declarators, Introduces d.tokens (d.declarations kind) s s' := by
  obtain ⟨text, m, xt, h⟩ := bind_ok.mp h
  obtain ⟨type, rfl, ht⟩ := typeName_ok xt
  obtain ⟨_, m1, xd, h⟩ := bind_ok.mp h
  obtain ⟨first, hd⟩ := declareName_ok xd
  obtain ⟨_, m2, xl, h⟩ := bind_ok.mp h
  obtain ⟨t, hs, rfl⟩ := symbol_ok h
  obtain ⟨others, ho⟩ := repeatAfter_ok (fun _ _ => declareName_ok) xl
  refine ⟨⟨type, first, others⟩, ?_⟩
  simpa [Declarators.tokens, Declarators.declarations, Declarators.names, List.map_eq_flatMap]
    using ((ht.trans hd).trans ho).trans (introduces_next hs)

theorem localVariables_ok {bound : Nat} (h : localVariables bound s = .ok () s') :
    ∃ ds : List Declarators, Introduces (ds.flatMap fun d => .keyword .varWord :: d.tokens)
      (ds.flatMap (Declarators.declarations .var)) s s' :=
  repeatAfter_ok (fun _ _ => declarators_ok) h

theorem storage_ok (storage : ClassStorage) {bound : Nat} {b : Bool} {t : TokenStream}
    (hn : s.tokens.Next (.keyword storage.word) t)
    (h : (do Reading.skip; declarators storage.kind bound; return true : Compile Listing Bool) s =
      .ok b s') :
    b = true ∧ ∃ v : ClassVariables, Introduces v.tokens v.declarations s s' := by
  obtain ⟨_, m, xk, h⟩ := bind_ok.mp h
  cases (skip_run hn).symm.trans xk
  obtain ⟨_, m, xd, h⟩ := bind_ok.mp h
  obtain ⟨d, hd⟩ := declarators_ok xd
  obtain ⟨rfl, rfl⟩ := pure_ok.mp h
  exact ⟨rfl, ⟨storage, d⟩, (introduces_next hn).trans hd⟩

theorem classVariables_ok {bound : Nat} (h : classVariables bound s = .ok () s') :
    ∃ vs : List ClassVariables, Introduces (vs.flatMap ClassVariables.tokens)
      (vs.flatMap ClassVariables.declarations) s s' := by
  refine repeatWhile_list (P := fun (vs : List ClassVariables) => Introduces
    (vs.flatMap ClassVariables.tokens) (vs.flatMap ClassVariables.declarations)) h
    (fun _ => introduces_nil) ?_
  intro a b again hab
  suffices h : (again = true ∧ ∃ v : ClassVariables, Introduces v.tokens v.declarations a b) ∨
      (again = false ∧ b = a) from
    h.imp_left fun ⟨ht, v, hv⟩ => ⟨ht, v, fun _ _ hvs => hv.trans hvs⟩
  obtain ⟨word, m, xw, hround⟩ := bind_ok.mp hab
  obtain ⟨rfl, hw⟩ := nextKeyword_ok xw
  replace hround : EStateM.run _ m = _ := hround
  split at hround
  case h_1 =>
    obtain ⟨t, hn⟩ := hw _ rfl
    exact .inl (storage_ok .static hn hround)
  case h_2 =>
    obtain ⟨t, hn⟩ := hw _ rfl
    exact .inl (storage_ok .field hn hround)
  case h_3 => exact .inr (pure_ok.mp hround)

theorem parameter_ok (h : parameter s = .ok () s') :
    ∃ p : Parameter, Introduces p.tokens [p.declaration] s s' := by
  obtain ⟨text, m, xt, h⟩ := bind_ok.mp h
  obtain ⟨type, rfl, ht⟩ := typeName_ok xt
  obtain ⟨name, hn⟩ := declareName_ok h
  exact ⟨⟨type, name⟩, ht.trans hn⟩

theorem parameters_ok {bound : Nat} (h : parameters bound s = .ok () s') :
    ∃ ps : List Parameter,
      Introduces (Parameters.tokens ps) (ps.map Parameter.declaration) s s' := by
  obtain ⟨none, m, xn, h⟩ := bind_ok.mp h
  obtain ⟨rfl, -⟩ := isNext_ok xn
  cases none with
  | true =>
    obtain rfl := (pure_ok.mp h).2
    exact ⟨[], introduces_nil⟩
  | false =>
    obtain ⟨_, m1, xp, h⟩ := bind_ok.mp h
    obtain ⟨first, hp⟩ := parameter_ok xp
    obtain ⟨others, ho⟩ := repeatAfter_ok (fun _ _ => parameter_ok) h
    refine ⟨first :: others, ?_⟩
    simpa [Parameters.tokens, List.map_eq_flatMap] using hp.trans ho

-- ---------------------------------------------------------------------------
-- Subroutines
-- ---------------------------------------------------------------------------

theorem prologue_ok {kind : SubroutineKind} (h : prologue kind s = .ok () s') :
    s' = s.after s.tokens (prologueCode (s.context.declarations.count .field) kind) 0 := by
  cases kind with
  | constructor =>
    simp only [prologue, bind_ok] at h
    obtain ⟨c, m, xc, _, m1, xa, _, m2, xb, h⟩ := h
    cases context_run.symm.trans xc
    simp [emit_ok h, emit_ok xb, emit_ok xa, prologueCode]
  | function =>
    obtain rfl := (pure_ok.mp h).2
    exact s'.after_self.symm
  | method =>
    obtain ⟨_, m, xa, h⟩ := bind_ok.mp h
    simp [emit_ok h, emit_ok xa, prologueCode]

theorem subroutineBody_ok {kind : SubroutineKind} {name : String} {bound : Nat}
    (h : subroutineBody kind name bound s = .ok () s') :
    ∃ (ds : List Declarators) (body : List Statement) (t : TokenStream),
      s.tokens.Reads (bodyTokens ds body) t ∧
      s.context.declarations.HasRoom (ds.flatMap (Declarators.declarations .var)) ∧
      Statements.Valid (s.declared t (ds.flatMap (Declarators.declarations .var))).Declares
        s.context.returnsVoid body ∧
      s' = (s.declared t (ds.flatMap (Declarators.declarations .var))).afterBody kind name
        body := by
  simp only [subroutineBody, bind_ok] at h
  obtain ⟨_, m, xo, _, m1, xl, c, m2, xc, _, m3, xf, _, m4, xp, _, m5, xs, h⟩ := h
  obtain ⟨t, ho, rfl⟩ := symbol_ok xo
  obtain ⟨ds, t1, hl, hn, rfl⟩ := localVariables_ok xl
  cases context_run.symm.trans xc
  obtain rfl := emit_ok xf
  obtain rfl := prologue_ok xp
  obtain ⟨body, t2, hr, hv, rfl⟩ := statements_ok _ _ _ xs
  obtain ⟨t3, hc, rfl⟩ := symbol_ok h
  refine ⟨ds, body, t3, ⟨t, ho, (hl.trans hr).trans hc.reads⟩, hn, hv, ?_⟩
  simp [afterBody, bodyCode]
  rfl

theorem declareReceiver_ok {kind : SubroutineKind} {offset : Nat}
    (h : declareReceiver kind offset s = .ok () s') :
    Introduces [] (receiver s.context.className kind) s s' := by
  cases kind with
  | method =>
    obtain ⟨c, m, xc, h⟩ := bind_ok.mp h
    cases context_run.symm.trans xc
    obtain ⟨hr, rfl⟩ := declare_ok h
    exact ⟨_, rfl, hr, rfl⟩
  | constructor | function =>
    obtain rfl := (pure_ok.mp h).2
    exact introduces_nil

theorem readReturnType_ok {returnsVoid : Bool} {s t : TokenStream}
    (h : returnType s = .ok returnsVoid t) :
    ∃ type : Option TypeName, returnsVoid = type.isNone ∧ s.Next (returnToken type) t := by
  simp only [returnType, bind_ok] at h
  obtain ⟨found, m, xv, h⟩ := h
  rcases Reading.accept_ok xv with ⟨rfl, hn⟩ | ⟨rfl, rfl⟩
  · obtain ⟨rfl, rfl⟩ := pure_ok.mp h
    exact ⟨none, rfl, hn⟩
  · simp only [Bool.false_eq_true, ↓reduceIte] at h
    obtain ⟨_, m, xt, h⟩ := bind_ok.mp h
    obtain ⟨type, -, hn⟩ := readType_ok xt
    obtain ⟨rfl, rfl⟩ := pure_ok.mp h
    exact ⟨some type, rfl, hn⟩

theorem subroutine_ok {kind : SubroutineKind} {bound : Nat} {t : TokenStream}
    (hk : s.tokens.Next (.keyword (kindWord kind)) t)
    (h : subroutine kind bound (s.after t [] 0) = .ok () s') :
    ∃ sub, ReadsSubroutine sub s s' := by
  simp only [subroutine, bind_ok] at h
  obtain ⟨returnsVoid, m, xv, named, m1, xn, _, m2, xe, _, m3, xr, _, m4, xo, _, m5, xp,
    _, m6, xc, h⟩ := h
  obtain ⟨t1, xt, rfl⟩ := lift_ok xv
  obtain ⟨type, rfl, hv⟩ := readReturnType_ok xt
  obtain ⟨t2, hn, rfl⟩ := name_ok xn
  cases (enterSubroutine_run _).symm.trans xe
  obtain ⟨t3, ho, rfl⟩ := symbol_ok xo
  obtain ⟨ps, hp⟩ := parameters_ok xp
  obtain ⟨t4, hc, rfl⟩ := symbol_ok xc
  obtain ⟨t5, hr, hroom, hm⟩ :=
    (((declareReceiver_ok xr).trans (introduces_next ho)).trans hp).trans (introduces_next hc)
  rw [hm] at h
  obtain ⟨ds, body, t6, hb, hroomb, hvb, rfl⟩ := subroutineBody_ok h
  refine ⟨⟨kind, type, named.name, ps, ds, body⟩, t6, ?_, ?_, ?_, ?_⟩
  · have h := (hk.reads.trans hv.reads).trans (hn.reads.trans (hr.trans hb))
    simpa [Subroutine.tokens, inParens] using h
  · have h := Declarations.hasRoom_append.mpr ⟨hroom, hroomb⟩
    simpa [Subroutine.declarations] using h
  · simpa [inSubroutine, Subroutine.declarations, Subroutine.returnsVoid] using hvb
  · simp [afterSubroutine, inSubroutine, Subroutine.declarations, Subroutine.returnsVoid]

theorem subroutines_ok {bound : Nat} (h : subroutines bound s = .ok () s') :
    ∃ subs, ReadsSubroutines subs s s' := by
  refine repeatWhile_list (P := ReadsSubroutines) h ?_ ?_
  · exact fun a => rfl
  · intro a b again hab
    obtain ⟨word, m, xw, hround⟩ := bind_ok.mp hab
    obtain ⟨rfl, hw⟩ := nextKeyword_ok xw
    replace hround : EStateM.run _ m = _ := hround
    split at hround
    case h_1 kind hk =>
      obtain ⟨w, rfl, hk⟩ := Option.bind_eq_some_iff.mp hk
      obtain rfl := kindWord_of_ofKeyword? hk
      obtain ⟨t, hn⟩ := hw _ rfl
      obtain ⟨_, m1, xk, hround⟩ := bind_ok.mp hround
      cases (skip_run hn).symm.trans xk
      obtain ⟨_, m2, xs, hend⟩ := bind_ok.mp hround
      obtain ⟨sub, hs⟩ := subroutine_ok hn xs
      obtain ⟨rfl, rfl⟩ := pure_ok.mp hend
      exact .inl ⟨rfl, sub, fun _ c h => ⟨_, hs, h⟩⟩
    case h_2 => exact .inr (pure_ok.mp hround)

-- ---------------------------------------------------------------------------
-- Classes
-- ---------------------------------------------------------------------------

theorem endOfInput_ok {u : Unit} (h : (do
      match ← Reading.peek with
      | some t => Reading.unexpected .endOfInput t
      | none => return () : Compile Listing Unit) s = .ok u s') :
    s.tokens.lexemes = [] ∧ s' = s := by
  obtain ⟨found, m, xp, h⟩ := bind_ok.mp h
  obtain ⟨t, hp, rfl⟩ := lift_ok xp
  obtain rfl := Reading.peek_ok hp
  cases found with
  | some token =>
    obtain ⟨_, hu, -⟩ := lift_ok h
    exact (Reading.unexpected_ok.mp hu).elim
  | none => exact ⟨Reading.peek_none hp, (pure_ok.mp h).2.trans s.after_self⟩

theorem classDeclaration_ok {tokens : TokenStream} {options : Options} {out : Listing}
    {bound : Nat} (h : classDeclaration bound ⟨tokens, { options }, out⟩ = .ok () s') :
    ∃ c : JackClass, (∃ stop, tokens.Reads c.tokens ⟨[], stop⟩) ∧ c.Valid ∧
      s'.out = out ++ (c.code options).toArray := by
  simp only [classDeclaration, bind_ok] at h
  obtain ⟨_, m, xk, named, m1, xn, _, m2, xm, _, m3, xo, _, m4, xv, _, m5, xs, _, m6, xc, h⟩ := h
  obtain ⟨t, hk, rfl⟩ := keyword_ok xk
  obtain ⟨t1, hn, rfl⟩ := name_ok xn
  cases modifyContext_run.symm.trans xm
  obtain ⟨t2, ho, rfl⟩ := symbol_ok xo
  obtain ⟨vs, t3, hv, hroom, rfl⟩ := classVariables_ok xv
  obtain ⟨subs, hs⟩ := subroutines_ok xs
  obtain ⟨t4, hc, rfl⟩ := symbol_ok xc
  obtain ⟨he, rfl⟩ := endOfInput_ok (bind_ok.mpr h)
  let c : JackClass := ⟨named.name, vs, subs⟩
  have hcs := Declarations.records_empty.addAll_class c.ofClass
  obtain ⟨hrs, hvs, hout⟩ := hs.reads (c := c) ⟨rfl, [], hcs⟩
  have hend : t4 = ⟨[], t4.stop⟩ := by rw [← he]; rfl
  have hfits := (Declarations.records_empty.hasRoom_class c.ofClass fits_nil).mp hroom
  refine ⟨c, ⟨t4.stop, ?_⟩, ⟨hfits, hvs⟩, ?_⟩
  · have h := (hk.reads.trans (hn.reads.trans ho.reads)).trans (hv.trans (hrs.trans hc.reads))
    rw [← hend]
    simpa [JackClass.tokens, inBraces] using h
  · simpa [JackClass.code, declared] using hout

end JackVM.Compile
