import JackVM.Proofs.Prediction.Reading

/-!
# Constructs that follow the table

One lemma for each function of the compiler: it reads what its items stand for.
What is counted are the lexemes ahead, so a construct that is entered again has
read a token before.
-/

namespace JackVM.Prediction

open Compile
open Syntax (Clear)

variable {ω : Type} {v : Option Bool} {n bound : Nat} {stack : List Item}

-- ---------------------------------------------------------------------------
-- Expressions
-- ---------------------------------------------------------------------------

section
variable {operand expression : Compile ω Unit}

theorem stays_addInWord (a b : Nat) : Stays v (addInWord (ω := ω) a b) := by
  unfold addInWord
  split
  · exact stays_pure _
  · exact fun _ _ _ _ => .inSink ..

theorem follows_moreArguments (h : (within v).Covers n expressionItems expression)
    (hb : bound ≤ n) (count : Nat) :
    (within v).Follows ⟨bound, .moreArguments :: stack⟩ (moreArguments expression bound count)
      fun _ => ⟨bound, stack⟩ := by
  induction bound generalizing count with
  | zero => exact follows_spent (misfit_pass rfl nofun) count
  | succ bound ih =>
    refine (follows_acceptItem rfl fun _ => rfl).lift.bind fun found => ?_
    cases found with
    | true =>
      exact (h.mono (Nat.le_of_succ_le hb) _).bind fun _ =>
        (stays_addInWord count 1 _).bind fun next =>
          (ih (Nat.le_of_succ_le hb) next).widen (Nat.le_succ bound)
    | false => exact follows_pure rfl

theorem follows_arguments (h : (within v).Covers bound expressionItems expression) :
    (within v).Follows ⟨bound, .arguments :: symbol ')' :: stack⟩ (arguments expression bound)
      fun _ => ⟨bound, symbol ')' :: stack⟩ := by
  have hnone (ts : List TokenKind) :
      misfit (.arguments :: symbol ')' :: stack) (.symbol ')' :: ts) =
        misfit (symbol ')' :: stack) (.symbol ')' :: ts) :=
    misfit_pass rfl (by rintro _ ⟨⟩; rfl)
  have hsome (ts : List TokenKind) (hc : Clear [.symbol ')'] ts) :
      misfit (.arguments :: symbol ')' :: stack) ts =
        misfit (expressionItems ++ .moreArguments :: symbol ')' :: stack) ts :=
    misfit_required .term [.factors, .operands, .moreArguments] rfl (fun _ _ => rfl) fun _ =>
      misfit_symbol_other hc
  refine (follows_isNext hnone hsome).lift.bind fun found => ?_
  cases found with
  | true => exact follows_pure rfl
  | false => exact (h _).bind fun _ => follows_moreArguments h (Nat.le_refl bound) 1

variable [InstructionSink ω]

/-- A chain is its first operand and an optional item that holds the links. -/
theorem covers_chain {level : OperatorLevel} {items : List Item} {links : Item}
    (h : (within v).Covers bound items operand) (hn : links.nullable = true)
    (he : ∀ t, links.expand t =
      ((char? t).bind (BinaryOperator.ofSymbol? level)).map fun _ => items ++ [links]) :
    (within v).Covers bound (items ++ [links]) (chain level operand bound) := by
  intro stack
  rw [List.append_assoc]
  refine (h _).bind fun _ => View.Follows.repeatWhile (fun n hb => ?_) (misfit_pass hn nofun)
  refine (follows_pick (picks_acceptOperator level) hn he).lift.bind fun found => ?_
  cases found with
  | none => exact follows_pure rfl
  | some op =>
    rw [List.append_assoc]
    exact (h.mono (Nat.le_of_lt hb) _).bind fun _ =>
      (stays_emit _ _).bind fun _ => follows_pure rfl

theorem covers_expressionOf (h : (within v).Covers bound [.term] operand) :
    (within v).Covers bound expressionItems (expressionOf operand bound) := by
  have hproduct : (within v).Covers bound ([.term] ++ [.factors]) (chain .product operand bound) :=
    covers_chain h rfl fun _ => rfl
  exact covers_chain hproduct rfl fun _ => rfl

theorem follows_callee :
    (within v).Follows ⟨n + 1, .name :: .callTail :: stack⟩ (callee (ω := ω))
      fun _ => ⟨n, symbol '(' :: .arguments :: symbol ')' :: stack⟩ := by
  refine (follows_name _).lift.bind fun named => ?_
  have hdot (ts : List TokenKind) : misfit (.callTail :: stack) (.symbol '.' :: ts) =
      misfit (.name :: symbol '(' :: .arguments :: symbol ')' :: stack) ts :=
    misfit_expand (show Item.callTail.expand (.symbol '.') =
      some (.name :: parens [.arguments]) from rfl)
  have hown (ts : List TokenKind) (hc : Clear [.symbol '.'] ts) : misfit (.callTail :: stack) ts =
      misfit (symbol '(' :: .arguments :: symbol ')' :: stack) ts := by
    refine misfit_required (symbol '(') [.arguments, symbol ')'] rfl (fun t ht => ?_) nofun
    simp only [Item.expand, callItems, if_neg (hc.ne ht), symbol]
    split <;> rfl
  refine (follows_accept hdot hown).loosen.lift.bind fun dotted => ?_
  cases dotted with
  | true =>
    refine (covers_name _ _).bind fun method => (stays_find? named.name _).bind fun receiver => ?_
    cases receiver with
    | some receiver => exact (stays_emit _ _).bind fun _ => follows_pure rfl
    | none => exact follows_pure rfl
  | false =>
    have hself : Stays v (do
        emit (.push .pointer 0); return ((← context).className ++ "." ++ named.name, 1) :
          Compile ω (String × Nat)) :=
      (stays_emit _).bind fun _ => stays_context.bind fun _ => stays_pure _
    refine (stays_find? named.name _).bind fun found => ?_
    cases found with
    | none => exact hself _
    | some _ => exact ((stays_fail _ _).bind fun _ => hself) _

theorem follows_subroutineCall (h : (within v).Covers bound expressionItems expression) :
    (within v).Follows ⟨bound + 1, .name :: .callTail :: stack⟩ (subroutineCall expression bound)
      fun _ => ⟨bound, stack⟩ :=
  follows_callee.bind fun _ => (covers_symbol '(' _).bind fun _ =>
    (follows_arguments h).bind fun _ => (covers_symbol ')' _).bind fun _ =>
      (stays_addInWord _ _ _).bind fun _ => stays_emit _ _

theorem stays_emitPointAt : Stays v (emitPointAt (ω := ω)) :=
  (stays_emit _).bind fun _ => stays_emit _

theorem covers_variableTerm (h : (within v).Covers bound expressionItems expression)
    (named : Reading.Named) :
    (within v).Covers bound [.index] (variableTerm expression named) := by
  refine fun stack => (stays_lookup named _).bind fun found => (stays_emit _ _).bind fun _ => ?_
  refine (follows_acceptItem rfl fun _ => rfl).loosen.lift.bind fun indexed => ?_
  cases indexed with
  | true =>
    exact (h _).bind fun _ => (covers_symbol ']' _).bind fun _ =>
      (stays_emitPointAt _).bind fun _ => stays_emit _ _
  | false => exact follows_pure rfl

theorem stays_emitCharacters (offset : Nat) (cs : List Char) :
    Stays v (emitCharacters (ω := ω) offset cs) := by
  induction cs with
  | nil => exact stays_pure ()
  | cons c cs ih =>
    have hrest : Stays v (do
        emit (.push .constant c.toNat); emit (.call "String.appendChar" 2)
        emitCharacters offset cs : Compile ω Unit) :=
      (stays_emit _).bind fun _ => (stays_emit _).bind fun _ => ih
    unfold emitCharacters
    split
    · exact (stays_fail _ _).bind fun _ => hrest
    · exact hrest

theorem stays_stringTerm (value : String) (offset : Nat) :
    Stays v (stringTerm (ω := ω) value offset) := by
  have hrest : Stays v (do
      emit (.push .constant value.length); emit (.call "String.new" 1)
      emitCharacters offset value.toList : Compile ω Unit) :=
    (stays_emit _).bind fun _ => (stays_emit _).bind fun _ => stays_emitCharacters _ _
  unfold stringTerm
  split
  · exact (stays_fail _ _).bind fun _ => hrest
  · exact hrest

/-- A term that is no call is given up at its first token or not at all. -/
theorem follows_termFrom {term : Compile ω Unit} (ht : (within v).Covers bound [.term] term)
    (he : (within v).Covers bound expressionItems expression) (t : Token) :
    (∃ items, Item.simpleTerm.expand t.kind = some items ∧
      (within v).Follows ⟨bound, items ++ stack⟩ (termFrom term expression t)
        fun _ => ⟨bound, stack⟩) ∨
    (Item.simpleTerm.expand t.kind = none ∧ Rejects t (termFrom term expression t)) := by
  obtain ⟨kind, span⟩ := t
  cases hi : Item.simpleTerm.expand kind with
  | none =>
    refine .inr ⟨rfl, ?_⟩
    unfold termFrom
    dsimp only
    split <;> first | cases hi | exact rejects_lift _ _
  | some items =>
    refine .inl ⟨items, rfl, ?_⟩
    simp only [Item.expand, termItems] at hi
    split at hi <;> cases hi
    · exact stays_emit _ _
    · exact stays_stringTerm _ _ _
    · exact (stays_emit _ _).bind fun _ => stays_emit _ _
    · exact stays_emit _ _
    · exact stays_emit _ _
    · exact stays_emit _ _
    · exact covers_variableTerm he _ _
    · exact (he _).bind fun _ => covers_symbol ')' _
    · exact (ht _).bind fun _ => stays_emit _ _
    · exact (ht _).bind fun _ => stays_emit _ _

end

theorem covers_block {body : Compile ω Unit} {returnsVoid : Bool}
    (h : (within v).Covers n [.statements returnsVoid] body) :
    (within v).Covers n (braces [.statements returnsVoid]) (block body) :=
  fun _ => (covers_symbol '{' _).bind fun _ => (h _).bind fun _ => covers_symbol '}' _

section
variable [InstructionSink ω]

theorem covers_term (bound : Nat) : (within v).Covers bound [.term] (term (ω := ω) bound) := by
  induction bound with
  | zero =>
    -- Nothing is ahead, so the bound is not why the term is missing.
    rintro stack ⟨⟨lexemes, stop⟩, context, out⟩ hk hr
    obtain rfl : lexemes = [] := List.length_eq_zero_iff.mp (Nat.le_zero.mp hr)
    exact .unexpected (.refl _) (.stop stop) (misfit_end rfl)
  | succ bound ih =>
    have he := covers_expressionOf ih
    refine fun stack => follows_atCall.lift.bind fun call => ?_
    cases call with
    | true => exact (follows_subroutineCall he).widen (Nat.le_succ bound)
    | false =>
      exact (follows_take (takes_lift _ _) rfl (follows_termFrom ih he)).widen (Nat.le_succ bound)

theorem covers_expression (bound : Nat) :
    (within v).Covers bound expressionItems (expression (ω := ω) bound) :=
  covers_expressionOf (covers_term bound)

-- ---------------------------------------------------------------------------
-- Statements
-- ---------------------------------------------------------------------------

theorem follows_letStatement (hb : n ≤ bound) :
    (within v).Follows ⟨n + 1, .kind (.keyword .letWord) :: .name :: .letTail :: stack⟩
      (letStatement (ω := ω) bound) fun _ => ⟨n, stack⟩ := by
  have he : (within v).Covers n expressionItems (expression (ω := ω) bound) :=
    (covers_expression bound).mono hb
  have hindex (ts : List TokenKind) : misfit (.letTail :: stack) (.symbol '[' :: ts) =
      misfit (indexItems ++ symbol '=' :: (expressionItems ++ symbol ';' :: stack)) ts :=
    misfit_expand (show Item.letTail.expand (.symbol '[') =
      some (indexItems ++ symbol '=' :: (expressionItems ++ [symbol ';'])) from rfl)
  have hplain (ts : List TokenKind) (hc : Clear [.symbol '['] ts) : misfit (.letTail :: stack) ts =
      misfit (symbol '=' :: (expressionItems ++ symbol ';' :: stack)) ts := by
    refine misfit_required (symbol '=') (expressionItems ++ [symbol ';']) rfl (fun t ht => ?_) nofun
    simp only [Item.expand, if_neg (hc.ne ht), symbol]
    split <;> rfl
  refine (follows_keyword _).lift.bind fun _ => (covers_name _ _).bind fun named =>
    (stays_lookup named _).bind fun target => ?_
  refine (follows_accept hindex hplain).loosen.lift.bind fun indexed => ?_
  cases indexed with
  | true =>
    exact (stays_emit _ _).bind fun _ => (he _).bind fun _ => (covers_symbol ']' _).bind fun _ =>
      (stays_emitPointAt _).bind fun _ => (covers_symbol '=' _).bind fun _ => (he _).bind fun _ =>
      (covers_symbol ';' _).bind fun _ => stays_emit _ _
  | false =>
    exact (covers_symbol '=' _).bind fun _ => (he _).bind fun _ =>
      (covers_symbol ';' _).bind fun _ => stays_emit _ _

theorem covers_condition (hb : n ≤ bound) (target : String) :
    (within v).Covers n (parens expressionItems) (condition (ω := ω) bound target) :=
  fun _ => (covers_symbol '(' _).bind fun _ => ((covers_expression bound).mono hb _).bind fun _ =>
    (covers_symbol ')' _).bind fun _ => (stays_emit _ _).bind fun _ => stays_emit _ _

section
variable {body : Compile ω Unit} {returnsVoid : Bool}

theorem follows_ifStatement (hb : n ≤ bound)
    (h : (within v).Covers n [.statements returnsVoid] body) :
    (within v).Follows ⟨n + 1, .kind (.keyword .ifWord) :: (parens expressionItems ++
        (braces [.statements returnsVoid] ++ .elseTail returnsVoid :: stack))⟩
      (ifStatement body bound) fun _ => ⟨n, stack⟩ := by
  refine (follows_keyword _).lift.bind fun _ => (stays_newLabel _).bind fun otherwise =>
    (stays_newLabel _).bind fun _ => (covers_condition hb otherwise _).bind fun _ =>
    (covers_block h _).bind fun _ => (stays_emit _ _).bind fun _ =>
    (stays_emit _ _).bind fun _ => ?_
  refine (follows_acceptItem rfl fun _ => rfl).loosen.lift.bind fun found => ?_
  cases found with
  | true => exact (covers_block h _).bind fun _ => stays_emit _ _
  | false => exact stays_emit _ _

theorem follows_whileStatement (hb : n ≤ bound)
    (h : (within v).Covers n [.statements returnsVoid] body) :
    (within v).Follows ⟨n + 1, .kind (.keyword .whileWord) :: (parens expressionItems ++
        (braces [.statements returnsVoid] ++ stack))⟩
      (whileStatement body bound) fun _ => ⟨n, stack⟩ :=
  (follows_keyword _).lift.bind fun _ => (stays_newLabel _).bind fun _ =>
    (stays_newLabel _).bind fun done => (stays_emit _ _).bind fun _ =>
    (covers_condition hb done _).bind fun _ => (covers_block h _).bind fun _ =>
    (stays_emit _ _).bind fun _ => stays_emit _ _

theorem covers_subroutineCall :
    (within v).Covers bound [.name, .callTail]
      (subroutineCall (expression (ω := ω) bound) bound) :=
  fun _ => (follows_subroutineCall (covers_expression bound)).loosen

theorem follows_doStatement (hb : n ≤ bound) :
    (within v).Follows ⟨n + 1,
        .kind (.keyword .doWord) :: .name :: .callTail :: symbol ';' :: stack⟩
      (doStatement (ω := ω) bound) fun _ => ⟨n, stack⟩ :=
  (follows_keyword _).lift.bind fun _ => (covers_subroutineCall.mono hb _).bind fun _ =>
    (covers_symbol ';' _).bind fun _ => stays_emit _ _

theorem follows_returnStatement (hb : n ≤ bound) :
    (within (some returnsVoid)).Follows
      ⟨n + 1, .kind (.keyword .returnWord) :: .returnTail returnsVoid :: stack⟩
      (returnStatement (ω := ω) bound) fun _ => ⟨n, stack⟩ := by
  refine (follows_keyword _).lift.bind fun _ => follows_context fun c hc => ?_
  rw [hc]
  have hend : (within (some returnsVoid)).Follows ⟨n, symbol ';' :: stack⟩
      (do Reading.symbol ';'; if returnsVoid then emit (.push .constant 0)
          emit .ret : Compile ω Unit) fun _ => ⟨n, stack⟩ := by
    refine (covers_symbol ';' _).bind fun _ => ?_
    split
    · exact (stays_emit _ _).bind fun _ => stays_emit _ _
    · exact stays_emit _ _
  have hvalue (ts : List TokenKind) (hc : Clear [.symbol ';'] ts) :
      misfit (.returnTail returnsVoid :: stack) ts =
        misfit (expressionItems ++ symbol ';' :: stack) ts := by
    refine misfit_required .term [.factors, .operands, symbol ';'] rfl (fun t ht => ?_) nofun
    simp only [Item.expand, if_neg (hc.ne ht)]
  have he : (within (some returnsVoid)).Covers n expressionItems (expression (ω := ω) bound) :=
    (covers_expression bound).mono hb
  cases returnsVoid with
  | false =>
    -- The token is passed before it is given up, but the error is about the place before it.
    refine follows_isNext_bind (fun _ _ _ _ _ => ?_) hvalue ((he _).bind fun _ => hend)
    exact .unexpected (.refl _) (.token _ _ _ _) (misfit_stuck rfl rfl)
  | true =>
    have hbare (ts : List TokenKind) :
        misfit (.returnTail true :: stack) (.symbol ';' :: ts) =
          misfit (symbol ';' :: stack) (.symbol ';' :: ts) := rfl
    refine (follows_isNext hbare hvalue).lift.bind fun bare => ?_
    cases bare with
    | true => exact hend
    | false => exact (he _).bind fun _ => hend

/-- What is to be read where the next token may be the first word of a statement. -/
def statementStack (returnsVoid : Bool) (stack : List Item) : Option Keyword → List Item
  | some word =>
    match statementItems returnsVoid word with
    | some items => .kind (.keyword word) :: (items ++ .statements returnsVoid :: stack)
    | none => stack
  | none => stack

theorem misfit_statement (word : Keyword) (ts : List TokenKind) :
    misfit (.statements returnsVoid :: stack) (.keyword word :: ts) =
      misfit (statementStack returnsVoid stack (some word)) (.keyword word :: ts) := by
  have he : (Item.statements returnsVoid).expand (.keyword word) =
    (statementItems returnsVoid word).map (· ++ [.statements returnsVoid]) := rfl
  unfold statementStack
  dsimp only
  cases hi : statementItems returnsVoid word with
  | some items =>
    rw [hi, Option.map_some] at he
    rw [misfit_expand he, List.append_assoc]
    exact misfit_kind.symm
  | none =>
    rw [hi] at he
    exact misfit_pass rfl (by rintro _ ⟨⟩; exact he)

theorem misfit_no_statement {ts : List TokenKind} (h : ∀ t ∈ ts.head?, word? t = none) :
    misfit (.statements returnsVoid :: stack) ts = misfit stack ts :=
  misfit_pass rfl fun t ht => by rw [Item.expand, h t ht, Option.bind_none, Option.map_none]

theorem follows_statement (hb : n ≤ bound)
    (h : (within (some returnsVoid)).Covers n [.statements returnsVoid] body) :
    (within (some returnsVoid)).Follows ⟨n + 1, .statements returnsVoid :: stack⟩
      (statement body bound)
      fun again => bif again then ⟨n, .statements returnsVoid :: stack⟩ else ⟨n + 1, stack⟩ := by
  refine (follows_nextKeyword misfit_statement fun _ => misfit_no_statement).lift.bind
    fun word => ?_
  cases word with
  | none => exact follows_pure rfl
  | some word =>
    cases word with
    | letWord => exact (follows_letStatement hb).bind fun _ => follows_pure rfl
    | ifWord => exact (follows_ifStatement hb h).bind fun _ => follows_pure rfl
    | whileWord => exact (follows_whileStatement hb h).bind fun _ => follows_pure rfl
    | doWord => exact (follows_doStatement hb).bind fun _ => follows_pure rfl
    | returnWord => exact (follows_returnStatement hb).bind fun _ => follows_pure rfl
    | _ => exact follows_pure rfl

end

theorem covers_statements (returnsVoid : Bool) (bound : Nat) :
    (within (some returnsVoid)).Covers bound [.statements returnsVoid]
      (statements (ω := ω) bound) := by
  induction bound with
  | zero => exact fun _ => follows_spent (misfit_pass rfl nofun) ()
  | succ bound ih =>
    refine fun stack => View.Follows.repeatWhile (fun n hn => ?_) (misfit_pass rfl nofun)
    have hb : n ≤ bound := Nat.le_of_lt_succ hn
    exact follows_statement hb (ih.mono hb)

end

-- ---------------------------------------------------------------------------
-- Members of a class
-- ---------------------------------------------------------------------------

theorem covers_declareName (expected : Expectation) (type : String) (kind : VariableKind) :
    (within v).Covers n [.name] (declareName (ω := ω) expected type kind) :=
  fun _ => (covers_name _ _).bind fun named => stays_declare named type kind _

theorem covers_declarators (kind : VariableKind) (bound : Nat) :
    (within v).Covers bound declaratorItems (declarators (ω := ω) kind bound) :=
  fun _ => (covers_typeName _).bind fun type => (covers_declareName _ type kind _).bind fun _ =>
    (covers_repeatAfter (covers_declareName _ type kind) rfl (fun _ => rfl) _).bind fun _ =>
    covers_symbol ';' _

theorem covers_classVariables (bound : Nat) :
    (within v).Covers bound [.classVariables] (classVariables (ω := ω) bound) := by
  refine fun stack => View.Follows.repeatWhile (fun n hb => ?_) (misfit_pass rfl nofun)
  rw [classVariable_eq]
  refine (follows_pick (picks_acceptWord _) rfl fun _ => rfl).lift.bind fun found => ?_
  cases found with
  | none => exact follows_pure rfl
  | some kind =>
    exact ((covers_declarators kind bound).mono (Nat.le_of_lt hb) _).bind fun _ => follows_pure rfl

theorem covers_localVariables (bound : Nat) :
    (within v).Covers bound [.locals] (localVariables (ω := ω) bound) :=
  covers_repeatAfter (covers_declarators .var bound) rfl fun _ => rfl

theorem covers_parameter : (within v).Covers n [.type, .name] (parameter (ω := ω)) :=
  fun _ => (covers_typeName _).bind fun type => covers_declareName _ type .arg _

theorem follows_parameters (bound : Nat) :
    (within v).Follows ⟨bound, .parameters :: symbol ')' :: stack⟩ (parameters (ω := ω) bound)
      fun _ => ⟨bound, symbol ')' :: stack⟩ := by
  have hnone (ts : List TokenKind) :
      misfit (.parameters :: symbol ')' :: stack) (.symbol ')' :: ts) =
        misfit (symbol ')' :: stack) (.symbol ')' :: ts) :=
    misfit_pass rfl (by rintro _ ⟨⟩; rfl)
  have hsome (ts : List TokenKind) (hc : Clear [.symbol ')'] ts) :
      misfit (.parameters :: symbol ')' :: stack) ts =
        misfit (.type :: .name :: .moreParameters :: symbol ')' :: stack) ts := by
    refine misfit_required .type [.name, .moreParameters] rfl (fun t ht => ?_) fun _ =>
      misfit_symbol_other hc
    simp only [Item.expand]
    split <;> rfl
  refine (follows_isNext hnone hsome).lift.bind fun found => ?_
  cases found with
  | true => exact follows_pure rfl
  | false =>
    exact (covers_parameter _).bind fun _ =>
      covers_repeatAfter covers_parameter rfl (fun _ => rfl) _

theorem stays_declareReceiver (kind : SubroutineKind) (offset : Nat) :
    Stays v (declareReceiver (ω := ω) kind offset) := by
  unfold declareReceiver
  split
  · exact stays_context.bind fun c => stays_declare _ _ _
  · exact stays_pure ()

section
variable [InstructionSink ω]

theorem stays_prologue (kind : SubroutineKind) : Stays v (prologue (ω := ω) kind) := by
  cases kind with
  | constructor =>
    exact stays_context.bind fun c => (stays_emit _).bind fun _ => (stays_emit _).bind fun _ =>
      stays_emit _
  | method => exact (stays_emit _).bind fun _ => stays_emit _
  | function => exact stays_pure ()

theorem covers_subroutineBody (kind : SubroutineKind) (name : String) (returnsVoid : Bool)
    (bound : Nat) :
    (within (some returnsVoid)).Covers bound (braces [.locals, .statements returnsVoid])
      (subroutineBody (ω := ω) kind name bound) :=
  fun _ => (covers_symbol '{' _).bind fun _ => (covers_localVariables bound _).bind fun _ =>
    (stays_context _).bind fun _ => (stays_emit _ _).bind fun _ =>
    (stays_prologue kind _).bind fun _ => (covers_statements returnsVoid bound _).bind fun _ =>
    covers_symbol '}' _

theorem covers_subroutine (kind : SubroutineKind) (bound : Nat) :
    (within none).Covers bound [.signature] (subroutine (ω := ω) kind bound) := by
  refine fun _ => follows_returnType.loosen.lift.bind fun returnsVoid =>
    (covers_name _ _).bind fun named => follows_enterSubroutine ?_
  exact (stays_declareReceiver kind named.offset _).bind fun _ =>
    (covers_symbol '(' _).bind fun _ => (follows_parameters bound).bind fun _ =>
    (covers_symbol ')' _).bind fun _ => covers_subroutineBody kind named.name returnsVoid bound _

theorem covers_subroutines (bound : Nat) :
    (within none).Covers bound [.subroutines] (subroutines (ω := ω) bound) := by
  refine fun stack => View.Follows.repeatWhile (fun n hb => ?_) (misfit_pass rfl nofun)
  rw [nextSubroutine_eq]
  refine (follows_pick (picks_acceptWord _) rfl fun _ => rfl).lift.bind fun found => ?_
  cases found with
  | none => exact follows_pure rfl
  | some kind =>
    exact ((covers_subroutine kind bound).mono (Nat.le_of_lt hb) _).bind fun _ => follows_pure rfl

theorem follows_classDeclaration (bound : Nat) :
    (within none).Follows ⟨bound, classItems⟩ (classDeclaration (ω := ω) bound)
      fun _ => ⟨bound, []⟩ :=
  (follows_keyword _).loosen.lift.bind fun _ => (covers_name _ _).bind fun named =>
    (stays_className named.name _).bind fun _ => (covers_symbol '{' _).bind fun _ =>
    (covers_classVariables bound _).bind fun _ => (covers_subroutines bound _).bind fun _ =>
    (covers_symbol '}' _).bind fun _ => follows_end

end

end JackVM.Prediction
