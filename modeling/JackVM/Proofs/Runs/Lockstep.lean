import JackVM.Proofs.Grammar.MemberLaws
import JackVM.Proofs.Runs.Coupling

/-!
# Constructs in lockstep

Every construct of the grammar keeps a coupling: one lemma for each function of
the compiler. Both compilations have the same bound on nesting and rounds.
-/

namespace JackVM.Coupling

open Compile

variable {ω₁ ω₂ α : Type} [InstructionSink ω₁] [InstructionSink ω₂] {C : Coupling ω₁ ω₂} [C.Lawful]

theorem matches_symbol (c : Char) :
    C.Matches Eq (liftM (Reading.symbol c)) (liftM (Reading.symbol c)) :=
  (readsAlike_symbol c).lift

theorem matches_keyword (word : Keyword) :
    C.Matches Eq (liftM (Reading.keyword word)) (liftM (Reading.keyword word)) :=
  (readsAlike_keyword word).lift

-- ---------------------------------------------------------------------------
-- Expressions
-- ---------------------------------------------------------------------------

section
variable {t e : Compile ω₁ Unit} {t' e' : Compile ω₂ Unit}

theorem matches_chain (level : OperatorLevel) (h : C.Matches Eq t t') (bound : Nat) :
    C.Matches Eq (chain level t bound) (chain level t' bound) := by
  refine h.then fun _ => Matches.repeatWhile ?_ bound
  refine (readsAlike_acceptOperator level).lift.then fun found => ?_
  cases found with
  | none => exact matches_pure rfl
  | some op =>
    refine h.then fun _ => (matches_emit ?_).then fun _ => matches_pure rfl
    cases op <;> constructor

theorem matches_expressionOf (h : C.Matches Eq t t') (bound : Nat) :
    C.Matches Eq (expressionOf t bound) (expressionOf t' bound) :=
  matches_chain .sum (matches_chain .product h bound) bound

theorem matches_addInWord (a b : Nat) :
    C.Matches Eq (addInWord (ω := ω₁) a b) (addInWord (ω := ω₂) a b) := by
  unfold addInWord
  split
  · exact matches_pure rfl
  · exact ⟨fun _ => Lawful.later_refl _, fun _ _ hs => .error (.inSink _) hs.out⟩

theorem matches_moreArguments (h : C.Matches Eq e e') (bound count : Nat) :
    C.Matches Eq (moreArguments e bound count) (moreArguments e' bound count) := by
  induction bound generalizing count with
  | zero => exact matches_pure rfl
  | succ bound ih =>
    refine (readsAlike_accept _).lift.then fun found => ?_
    cases found with
    | true => exact h.then fun _ => (matches_addInWord count 1).then fun next => ih next
    | false => exact matches_pure rfl

theorem matches_arguments (h : C.Matches Eq e e') (bound : Nat) :
    C.Matches Eq (arguments e bound) (arguments e' bound) := by
  refine (readsAlike_isNext _).lift.then fun found => ?_
  cases found with
  | true => exact matches_pure rfl
  | false => exact h.then fun _ => matches_moreArguments h bound 1

theorem matches_callee : C.Matches Eq (callee (ω := ω₁)) (callee (ω := ω₂)) := by
  refine (readsAlike_name _).lift.bind fun v w hv => ?_
  refine (readsAlike_accept _).lift.then fun dotted => ?_
  cases dotted with
  | true =>
    refine (readsAlike_name _).lift.bind fun m m' hm => ?_
    rw [hv.1, hm.1]
    refine (matches_find? w.name).then fun receiver => ?_
    cases receiver with
    | none => exact matches_pure rfl
    | some receiver => exact (matches_emit (.push ..)).then fun _ => matches_pure rfl
  | false =>
    rw [hv.1]
    refine (matches_find? w.name).then fun found => ?_
    have hpush : C.Matches Eq
        (do emit (.push .pointer 0); return ((← context).className ++ "." ++ w.name, 1))
        (do emit (.push .pointer 0); return ((← context).className ++ "." ++ w.name, 1)) :=
      (matches_emit (.push ..)).then fun _ =>
        matches_context.bind fun c d hc => matches_pure (by rw [hc.1])
    cases found with
    | none => exact hpush
    | some _ => exact (matches_fail hv.2 (V := Eq)).then fun _ => hpush

theorem matches_subroutineCall (h : C.Matches Eq e e') (bound : Nat) :
    C.Matches Eq (subroutineCall e bound) (subroutineCall e' bound) :=
  matches_callee.then fun _ =>
    (matches_symbol '(').then fun _ =>
      (matches_arguments h bound).then fun _ =>
        (matches_symbol ')').then fun _ =>
          (matches_addInWord ..).then fun _ => matches_emit (.call ..)

theorem matches_emitPointAt : C.Matches Eq (emitPointAt (ω := ω₁)) (emitPointAt (ω := ω₂)) :=
  (matches_emit (.operate _)).then fun _ => matches_emit (.pop ..)

theorem matches_variableTerm (h : C.Matches Eq e e') {v w : Reading.Named} (hv : C.SameName v w) :
    C.Matches Eq (variableTerm e v) (variableTerm e' w) := by
  refine (matches_lookup hv).then fun found => (matches_emit (.push ..)).then fun _ => ?_
  refine (readsAlike_accept _).lift.then fun indexed => ?_
  cases indexed with
  | false => exact matches_pure rfl
  | true =>
    exact h.then fun _ => (matches_symbol ']').then fun _ =>
      matches_emitPointAt.then fun _ => matches_emit (.push ..)

theorem matches_emitCharacters {o o' : Nat} (h : C.Place o o') (cs : List Char) :
    C.Matches Eq (emitCharacters (ω := ω₁) o cs) (emitCharacters (ω := ω₂) o' cs) := by
  induction cs with
  | nil => exact matches_pure rfl
  | cons c cs ih =>
    have hrest := (matches_emit (C := C) (.push .constant c.toNat)).then fun _ =>
      (matches_emit (.call "String.appendChar" 2)).then fun _ => ih
    unfold emitCharacters
    split
    · exact (matches_fail h (V := Eq)).then fun _ => hrest
    · exact hrest

theorem matches_stringTerm {o o' : Nat} (h : C.Place o o') (value : String) :
    C.Matches Eq (stringTerm (ω := ω₁) value o) (stringTerm (ω := ω₂) value o') := by
  have hrest := (matches_emit (C := C) (.push .constant value.length)).then fun _ =>
    (matches_emit (.call "String.new" 1)).then fun _ => matches_emitCharacters h value.toList
  unfold stringTerm
  split
  · exact (matches_fail h (V := Eq)).then fun _ => hrest
  · exact hrest

theorem matches_termFrom (ht : C.Matches Eq t t') (he : C.Matches Eq e e') {x y : Token}
    (h : C.SameToken x y) : C.Matches Eq (termFrom t e x) (termFrom t' e' y) := by
  obtain ⟨kind, x⟩ := x
  obtain ⟨kind', y⟩ := y
  obtain ⟨rfl, hp⟩ := id h
  unfold termFrom
  dsimp only
  split
  · exact matches_emit (.push ..)
  · exact matches_stringTerm hp _
  · exact (matches_emit (.push ..)).then fun _ => matches_emit (.operate _)
  · exact matches_emit (.push ..)
  · exact matches_emit (.push ..)
  · exact matches_emit (.push ..)
  · exact matches_variableTerm he ⟨rfl, hp⟩
  · exact he.then fun _ => matches_symbol ')'
  · exact ht.then fun _ => matches_emit (.operate _)
  · exact ht.then fun _ => matches_emit (.operate _)
  · exact (readsAlike_unexpected h).lift

end

theorem matches_term (bound : Nat) :
    C.Matches Eq (term (ω := ω₁) bound) (term (ω := ω₂) bound) := by
  induction bound with
  | zero =>
    exact (readsAlike_take .term).lift.bind fun _ _ h => (readsAlike_unexpected h).lift
  | succ bound ih =>
    refine readsAlike_atCall.lift.then fun call => ?_
    cases call with
    | true => exact matches_subroutineCall (matches_expressionOf ih bound) bound
    | false =>
      exact (readsAlike_take _).lift.bind fun _ _ h =>
        matches_termFrom ih (matches_expressionOf ih bound) h

theorem matches_expression (bound : Nat) :
    C.Matches Eq (expression (ω := ω₁) bound) (expression (ω := ω₂) bound) :=
  matches_expressionOf (matches_term bound) bound

-- ---------------------------------------------------------------------------
-- Statements
-- ---------------------------------------------------------------------------

section
variable {body : Compile ω₁ Unit} {body' : Compile ω₂ Unit} (bound : Nat)

theorem matches_letStatement :
    C.Matches Eq (letStatement (ω := ω₁) bound) (letStatement (ω := ω₂) bound) := by
  refine (matches_keyword _).then fun _ => (readsAlike_name _).lift.bind fun v w hv => ?_
  refine (matches_lookup hv).then fun target => (readsAlike_accept _).lift.then fun indexed => ?_
  cases indexed with
  | true =>
    exact (matches_emit (.push ..)).then fun _ => (matches_expression bound).then fun _ =>
      (matches_symbol ']').then fun _ => matches_emitPointAt.then fun _ =>
      (matches_symbol '=').then fun _ => (matches_expression bound).then fun _ =>
      (matches_symbol ';').then fun _ => matches_emit (.pop ..)
  | false =>
    exact (matches_symbol '=').then fun _ => (matches_expression bound).then fun _ =>
      (matches_symbol ';').then fun _ => matches_emit (.pop ..)

theorem matches_condition {a b : String} (h : C.Label a b) :
    C.Matches Eq (condition (ω := ω₁) bound a) (condition (ω := ω₂) bound b) :=
  (matches_symbol '(').then fun _ => (matches_expression bound).then fun _ =>
    (matches_symbol ')').then fun _ => (matches_emit (.operate _)).then fun _ =>
    matches_emit (.ifGoto h)

theorem matches_block (h : C.Matches Eq body body') : C.Matches Eq (block body) (block body') :=
  (matches_symbol '{').then fun _ => h.then fun _ => matches_symbol '}'

theorem matches_ifStatement (h : C.Matches Eq body body') :
    C.Matches Eq (ifStatement body bound) (ifStatement body' bound) := by
  refine (matches_keyword _).then fun _ => matches_newLabel.bind fun _ _ hotherwise =>
    matches_newLabel.bind fun _ _ hdone => (matches_condition bound hotherwise).then fun _ =>
    (matches_block h).then fun _ => (matches_emit (.goto hdone)).then fun _ =>
    (matches_emit (.label hotherwise)).then fun _ =>
    (readsAlike_accept _).lift.then fun found => ?_
  cases found with
  | true => exact (matches_block h).then fun _ => matches_emit (.label hdone)
  | false => exact matches_emit (.label hdone)

theorem matches_whileStatement (h : C.Matches Eq body body') :
    C.Matches Eq (whileStatement body bound) (whileStatement body' bound) :=
  (matches_keyword _).then fun _ => matches_newLabel.bind fun _ _ hagain =>
    matches_newLabel.bind fun _ _ hdone => (matches_emit (.label hagain)).then fun _ =>
    (matches_condition bound hdone).then fun _ => (matches_block h).then fun _ =>
    (matches_emit (.goto hagain)).then fun _ => matches_emit (.label hdone)

theorem matches_doStatement :
    C.Matches Eq (doStatement (ω := ω₁) bound) (doStatement (ω := ω₂) bound) :=
  (matches_keyword _).then fun _ =>
    (matches_subroutineCall (matches_expression bound) bound).then fun _ =>
    (matches_symbol ';').then fun _ => matches_emit (.pop ..)

theorem matches_returnStatement :
    C.Matches Eq (returnStatement (ω := ω₁) bound) (returnStatement (ω := ω₂) bound) := by
  refine (matches_keyword _).then fun _ => matches_context.bind fun c d hc => ?_
  rw [hc.2.2]
  generalize d.returnsVoid = returnsVoid
  have hend : C.Matches Eq
      (do Reading.symbol ';'; if returnsVoid then emit (.push .constant 0)
          emit .ret : Compile ω₁ Unit)
      (do Reading.symbol ';'; if returnsVoid then emit (.push .constant 0)
          emit .ret : Compile ω₂ Unit) := by
    refine (matches_symbol ';').then fun _ => ?_
    split
    · exact (matches_emit (.push ..)).then fun _ => matches_emit .ret
    · exact matches_emit .ret
  refine (readsAlike_isNext _).lift.then fun bare => ?_
  cases bare with
  | false => exact (matches_expression bound).then fun _ => hend
  | true =>
    cases returnsVoid with
    | true => exact hend
    | false =>
      exact (readsAlike_take _).lift.bind fun _ _ h =>
        ((readsAlike_unexpected h).lift (V := Eq)).then fun _ => hend

theorem matches_statement (h : C.Matches Eq body body') :
    C.Matches Eq (statement body bound) (statement body' bound) := by
  refine readsAlike_nextKeyword.lift.then fun word => ?_
  split
  · exact (matches_letStatement bound).then fun _ => matches_pure rfl
  · exact (matches_ifStatement bound h).then fun _ => matches_pure rfl
  · exact (matches_whileStatement bound h).then fun _ => matches_pure rfl
  · exact (matches_doStatement bound).then fun _ => matches_pure rfl
  · exact (matches_returnStatement bound).then fun _ => matches_pure rfl
  · exact matches_pure rfl

end

theorem matches_statements (bound : Nat) :
    C.Matches Eq (statements (ω := ω₁) bound) (statements (ω := ω₂) bound) := by
  induction bound with
  | zero => exact matches_pure rfl
  | succ bound ih => exact (matches_statement bound ih).repeatWhile (bound + 1)

-- ---------------------------------------------------------------------------
-- Members of a class
-- ---------------------------------------------------------------------------

theorem readsAlike_acceptWord (choose : Keyword → Option α) :
    C.ReadsAlike Eq (acceptWord choose) (acceptWord choose) := by
  intro s t hs
  cases Lawful.heads hs with
  | stop h => exact .ok rfl hs
  | token kind h rest =>
    cases kind with
    | keyword word =>
      unfold acceptWord
      rw [bind_run (Reading.nextKeyword_token ..), bind_run (Reading.nextKeyword_token ..),
        Option.bind_some]
      cases choose word with
      | none => exact .ok rfl hs
      | some a => exact .ok rfl rest
    | _ => exact .ok rfl hs
  | malformed reason h => exact .error (.inSource _ h)
  | alone reason h => exact .stopped h

theorem matches_declareName (expected : Expectation) (type : String) (kind : VariableKind) :
    C.Matches Eq (declareName (ω := ω₁) expected type kind)
      (declareName (ω := ω₂) expected type kind) :=
  (readsAlike_name _).lift.bind fun _ _ h => matches_declare h rfl kind

theorem matches_declarators (kind : VariableKind) (bound : Nat) :
    C.Matches Eq (declarators (ω := ω₁) kind bound) (declarators (ω := ω₂) kind bound) :=
  readsAlike_typeName.lift.then fun type => (matches_declareName _ type kind).then fun _ =>
    ((matches_declareName _ type kind).repeatAfter _ bound).then fun _ => matches_symbol ';'

theorem matches_classVariable (bound : Nat) :
    C.Matches Eq (classVariable (ω := ω₁) bound) (classVariable (ω := ω₂) bound) := by
  rw [classVariable_eq, classVariable_eq]
  refine (readsAlike_acceptWord _).lift.then fun kind => ?_
  cases kind with
  | some kind => exact (matches_declarators kind bound).then fun _ => matches_pure rfl
  | none => exact matches_pure rfl

theorem matches_parameter : C.Matches Eq (parameter (ω := ω₁)) (parameter (ω := ω₂)) :=
  readsAlike_typeName.lift.then fun type => matches_declareName _ type .arg

theorem matches_parameters (bound : Nat) :
    C.Matches Eq (parameters (ω := ω₁) bound) (parameters (ω := ω₂) bound) := by
  refine (readsAlike_isNext _).lift.then fun found => ?_
  cases found with
  | true => exact matches_pure rfl
  | false => exact matches_parameter.then fun _ => matches_parameter.repeatAfter _ bound

theorem matches_prologue (kind : SubroutineKind) :
    C.Matches Eq (prologue (ω := ω₁) kind) (prologue (ω := ω₂) kind) := by
  cases kind with
  | constructor =>
    refine matches_context.bind fun c d hc => ?_
    rw [hc.2.1]
    exact (matches_emit (.push ..)).then fun _ => (matches_emit (.call ..)).then fun _ =>
      matches_emit (.pop ..)
  | method => exact (matches_emit (.push ..)).then fun _ => matches_emit (.pop ..)
  | function => exact matches_pure rfl

theorem matches_subroutineBody (kind : SubroutineKind) (name : String) (bound : Nat) :
    C.Matches Eq (subroutineBody (ω := ω₁) kind name bound)
      (subroutineBody (ω := ω₂) kind name bound) := by
  refine (matches_symbol '{').then fun _ =>
    ((matches_declarators .var bound).repeatAfter _ bound).then fun _ =>
    matches_context.bind fun c d hc => ?_
  rw [hc.1, hc.2.1]
  exact (matches_emit (.function ..)).then fun _ => (matches_prologue kind).then fun _ =>
    (matches_statements bound).then fun _ => matches_symbol '}'

theorem matches_declareReceiver (kind : SubroutineKind) {o o' : Nat} (h : C.Place o o') :
    C.Matches Eq (declareReceiver (ω := ω₁) kind o) (declareReceiver (ω := ω₂) kind o') := by
  have hthis : C.SameName ⟨Keyword.thisWord.spelling, o⟩ ⟨Keyword.thisWord.spelling, o'⟩ :=
    ⟨rfl, h⟩
  unfold declareReceiver
  split
  · exact matches_context.bind fun c d hc => matches_declare hthis hc.1 .arg
  · exact matches_pure rfl

theorem matches_subroutine (kind : SubroutineKind) (bound : Nat) :
    C.Matches Eq (subroutine (ω := ω₁) kind bound) (subroutine (ω := ω₂) kind bound) := by
  refine readsAlike_returnType.lift.then fun returnsVoid =>
    (readsAlike_name _).lift.bind fun v w hv =>
    (matches_enterSubroutine returnsVoid).then fun _ =>
    (matches_declareReceiver kind hv.2).then fun _ => (matches_symbol '(').then fun _ =>
    (matches_parameters bound).then fun _ => (matches_symbol ')').then fun _ => ?_
  rw [hv.1]
  exact matches_subroutineBody kind w.name bound

theorem matches_nextSubroutine (bound : Nat) :
    C.Matches Eq (nextSubroutine (ω := ω₁) bound) (nextSubroutine (ω := ω₂) bound) := by
  rw [nextSubroutine_eq, nextSubroutine_eq]
  refine (readsAlike_acceptWord _).lift.then fun kind => ?_
  cases kind with
  | some kind => exact (matches_subroutine kind bound).then fun _ => matches_pure rfl
  | none => exact matches_pure rfl

theorem matches_classDeclaration (bound : Nat) :
    C.Matches Eq (classDeclaration (ω := ω₁) bound) (classDeclaration (ω := ω₂) bound) := by
  refine (matches_keyword _).then fun _ => (readsAlike_name _).lift.bind fun v w hv => ?_
  rw [hv.1]
  refine (matches_className w.name).then fun _ => (matches_symbol '{').then fun _ =>
    ((matches_classVariable bound).repeatWhile bound).then fun _ =>
    ((matches_nextSubroutine bound).repeatWhile bound).then fun _ =>
    (matches_symbol '}').then fun _ => readsAlike_peek.lift.bind fun x y h => ?_
  cases h with
  | none => exact matches_pure rfl
  | some h => exact (readsAlike_unexpected h).lift

end JackVM.Coupling
