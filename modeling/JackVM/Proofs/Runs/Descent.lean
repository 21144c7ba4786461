import JackVM.Proofs.Runs.Constructs
import JackVM.Proofs.Runs.Consuming

/-!
# One call of a construct

Let the constructs inside be compiled as they should be, those entered before the first
token only as far as their rank is lower. Then one call does what the compiler does, and
if it succeeds it has passed as many tokens as it has to. There is one lemma for each
construct, which counts the tokens along its definition: a construct inside it may be
anything once the count is positive, and is a hypothesis of its own before.
-/

namespace JackVM

namespace Compile

open TokenStream

variable {ω α : Type} {start : TokenStream} {b k l : Nat}

section
variable {m : α → Nat} {x y z : Compile ω α}

theorem SameAfter.further (h : SameAfter start k m x y) (hl : k ≤ l) : SameAfter start l m x y where
  eq s hs := h.eq s (hs.mono hl)
  passes s a s' hs := h.passes s a s' (hs.mono hl)

end

/-- A loop with a round more. What comes after the round comes after a token. -/
theorem SameAfter.round {round step : Compile ω Bool} {next : Compile ω Unit} {rounds : Nat}
    (h : SameAfter start 0 Bool.toNat round step)
    (hnext : SameAfter start 1 (fun _ => 0) next (repeatWhile rounds step)) :
    SameAfter start 0 (fun _ => 0) (do if ← round then next) (repeatWhile (rounds + 1) step) :=
  h.ifTrue hnext (same_pure rfl) fun _ => Nat.zero_le 1

theorem same_roundAfter {m : Unit → Nat} {item item' : Compile ω Unit} (kind : TokenKind)
    (h : SameAfter start (k + 1) m item item') :
    SameAfter start k Bool.toNat (roundAfter kind item) (roundAfter kind item') :=
  (same_accept kind).ifTrue (h.then fun _ => same_pure rfl) (same_pure rfl) Bool.toNat_le

variable [InstructionSink ω]

section
variable {t t' e e' : Compile ω Unit}

theorem same_chainLink (level : OperatorLevel) {m : Unit → Nat}
    (h : SameAfter start (k + 1) m t t') :
    SameAfter start k Bool.toNat (chainLink level t) (chainLink level t') := by
  refine (same_pick (Prediction.picks_acceptOperator level)).ifSome (fun op => ?_)
    (same_pure rfl) Bool.toNat_le
  exact h.then fun _ => (same_emit _).then fun _ => same_pure rfl

theorem same_variableTerm (h : SameAfter start k (fun _ => 1) e e') (v : Reading.Named) :
    SameAfter start k (fun _ => 0) (variableTerm e v) (variableTerm e' v) := by
  refine (same_lookup v).then fun found => (same_emit _).then fun _ => ?_
  refine (same_accept _).ifTrue ?_ (same_pure rfl) fun _ => Nat.zero_le 1
  exact (h.further (Nat.le_succ k)).then fun _ => (same_symbol ']').then fun _ =>
    same_emitPointAt.then fun _ => same_emit _

theorem same_termFrom (ht : SameAfter start k (fun _ => 1) t t')
    (he : SameAfter start k (fun _ => 1) e e') (token : Token) :
    SameAfter start k (fun _ => 0) (termFrom t e token) (termFrom t' e' token) := by
  unfold termFrom
  split
  · exact same_emit _
  · exact same_stringTerm _ _
  · exact (same_emit _).then fun _ => same_emit _
  · exact same_emit _
  · exact same_emit _
  · exact same_emit _
  · exact same_variableTerm he _
  · exact he.then fun _ => (same_symbol ')').mono fun _ => Nat.zero_le 1
  · exact ht.then fun _ => same_emit _
  · exact ht.then fun _ => same_emit _
  · exact same_unexpected _ _

end

/-- Once a token has been passed, what is inside is what the compiler does. -/
def Later (start : TokenStream) (rounds bound : Nat)
    (inner : (c : Construct) → Compile ω c.Result) : Prop :=
  ∀ (c : Construct) {k : Nat},
    SameAfter start (k + 1) c.least (inner c) (constructAt rounds bound c)

section
variable {inner : (c : Construct) → Compile ω c.Result} {b : Nat} (later : Later start b b inner)
include later

theorem Later.statements :
    SameAfter start (k + 1) (fun _ => 0) (inner .statements) (statements b) := by
  rw [statements_eq b]
  exact later .statements

-- ---------------------------------------------------------------------------
-- Classes
-- ---------------------------------------------------------------------------

theorem same_classDeclaration : SameAfter start 0 (fun _ => 1)
    (constructWith inner .classDeclaration) (classDeclaration b) := by
  refine (same_keyword _).past (fun _ => ?_) fun _ => Nat.le_refl 1
  refine (same_name _).then fun _ => (same_modifyContext _).then fun _ =>
    (same_symbol '{').then fun _ => (later .classVariables).then fun _ =>
    (later .subroutines).then fun _ => (same_symbol '}').then fun _ =>
    same_peek.then fun found => ?_
  cases found with
  | none => exact same_pure rfl
  | some token => exact same_unexpected _ token

theorem same_classVariable : SameAfter start 0 Bool.toNat
    (constructWith inner .classVariable) (classVariable b) := by
  rw [classVariable_eq]
  exact (same_pick (Prediction.picks_acceptWord variableKind?)).ifSome
    (fun kind => (later (.declarators kind)).then fun _ => same_pure rfl)
    (same_pure rfl) Bool.toNat_le

theorem same_declarators (kind : VariableKind) : SameAfter start 0 (fun _ => 1)
    (constructWith inner (.declarators kind)) (declarators kind b) :=
  same_typeName.past (fun type => (same_declareName _ type kind).then fun _ =>
    (later (.moreDeclarators type kind)).then fun _ =>
    (same_symbol ';').mono fun _ => Nat.zero_le 1) fun _ => Nat.le_refl 1

theorem same_nextSubroutine : SameAfter start 0 Bool.toNat
    (constructWith inner .nextSubroutine) (nextSubroutine b) := by
  rw [nextSubroutine_eq]
  exact (same_pick (Prediction.picks_acceptWord SubroutineKind.ofKeyword?)).ifSome
    (fun kind => (later (.subroutine kind)).then fun _ => same_pure rfl)
    (same_pure rfl) Bool.toNat_le

theorem same_subroutine (kind : SubroutineKind) : SameAfter start 0 (fun _ => 1)
    (constructWith inner (.subroutine kind)) (subroutine kind b) :=
  same_returnType.past (fun _ => (same_name _).then fun named =>
    (same_modifyContext _).then fun _ => (same_declareReceiver kind named.offset).then fun _ =>
    (same_symbol '(').then fun _ => (later .parameters).then fun _ =>
    (same_symbol ')').then fun _ =>
    (later (.subroutineBody kind named.name)).mono fun _ => Nat.zero_le 1)
    fun _ => Nat.le_refl 1

theorem same_parameters (h : SameAfter start 0 (fun _ => 1) (inner .parameter) parameter) :
    SameAfter start 0 (fun _ => 0) (constructWith inner .parameters) (parameters b) := by
  refine (same_isNext _).then fun found => ?_
  cases found with
  | true => exact same_pure rfl
  | false =>
    refine h.then fun _ => ?_
    exact later .moreParameters

omit later in
theorem same_parameter :
    SameAfter start 0 (fun _ => 1) (constructWith inner .parameter) parameter :=
  same_typeName.past (fun type => (same_declareName _ type .arg).mono fun _ => Nat.zero_le 1)
    fun _ => Nat.le_refl 1

theorem same_subroutineBody (kind : SubroutineKind) (name : String) :
    SameAfter start 0 (fun _ => 1) (constructWith inner (.subroutineBody kind name))
      (subroutineBody kind name b) :=
  (same_symbol '{').past (fun _ => (later .localVariables).then fun _ =>
    same_context.then fun _ => (same_emit _).then fun _ => (same_prologue kind).then fun _ =>
    (later.statements).then fun _ =>
    (same_symbol '}').mono fun _ => Nat.zero_le 1) fun _ => Nat.le_refl 1

-- ---------------------------------------------------------------------------
-- Statements
-- ---------------------------------------------------------------------------

omit later in
theorem same_statement
    (hlet : SameAfter start 0 (fun _ => 1) (inner .letStatement) (letStatement b))
    (hif : SameAfter start 0 (fun _ => 1) (inner .ifStatement) (ifStatement (statements b) b))
    (hwhile : SameAfter start 0 (fun _ => 1) (inner .whileStatement)
      (whileStatement (statements b) b))
    (hdo : SameAfter start 0 (fun _ => 1) (inner .doStatement) (doStatement b))
    (hreturn : SameAfter start 0 (fun _ => 1) (inner .returnStatement) (returnStatement b)) :
    SameAfter start 0 Bool.toNat (constructWith inner .statement)
      (statement (statements b) b) := by
  have htrue {x y : Compile ω Unit} (hx : SameAfter start 0 (fun _ => 1) x y) :
      SameAfter start 0 Bool.toNat (do x; return true) (do y; return true) :=
    hx.past (fun _ => same_pure rfl) Bool.toNat_le
  refine same_nextKeyword.then fun word => ?_
  cases word with
  | none => exact same_pure rfl
  | some word =>
    cases word with
    | letWord => exact htrue hlet
    | ifWord => exact htrue hif
    | whileWord => exact htrue hwhile
    | doWord => exact htrue hdo
    | returnWord => exact htrue hreturn
    | _ => exact same_pure rfl

theorem same_letStatement : SameAfter start 0 (fun _ => 1)
    (constructWith inner .letStatement) (letStatement b) := by
  refine (same_keyword _).past (fun _ => ?_) fun _ => Nat.le_refl 1
  refine (same_name _).then fun v => (same_lookup v).then fun target => ?_
  refine (same_accept _).ifTrue ?_ ?_ fun _ => Nat.zero_le 1
  · exact (same_emit _).then fun _ => (later .expression).then fun _ =>
      (same_symbol ']').then fun _ => same_emitPointAt.then fun _ =>
      (same_symbol '=').then fun _ => (later .expression).then fun _ =>
      (same_symbol ';').then fun _ => same_emit _
  · exact (same_symbol '=').then fun _ => (later .expression).then fun _ =>
      (same_symbol ';').then fun _ => same_emit _

theorem same_ifStatement : SameAfter start 0 (fun _ => 1)
    (constructWith inner .ifStatement) (ifStatement (statements b) b) := by
  refine (same_keyword _).past (fun _ => ?_) fun _ => Nat.le_refl 1
  refine same_newLabel.then fun otherwise => same_newLabel.then fun _ =>
    (later (.condition otherwise)).then fun _ =>
    (later .block).then fun _ =>
    (same_emit _).then fun _ => (same_emit _).then fun _ => ?_
  refine (same_accept _).ifTrue ?_ (same_emit _) fun _ => Nat.zero_le 1
  exact (later .block).then fun _ => same_emit _

theorem same_whileStatement : SameAfter start 0 (fun _ => 1)
    (constructWith inner .whileStatement) (whileStatement (statements b) b) :=
  (same_keyword _).past (fun _ => same_newLabel.then fun _ => same_newLabel.then fun done =>
    (same_emit _).then fun _ => (later (.condition done)).then fun _ =>
    (later .block).then fun _ =>
    (same_emit _).then fun _ => same_emit _) fun _ => Nat.le_refl 1

omit later in
theorem same_doStatement (later : Later start (b + 1) (b + 1) inner) :
    SameAfter start 0 (fun _ => 1) (constructWith inner .doStatement) (doStatement b) :=
  (same_keyword _).past (fun _ => (later .call).then fun _ =>
    (same_symbol ';').then fun _ => same_emit _) fun _ => Nat.le_refl 1

theorem same_returnStatement : SameAfter start 0 (fun _ => 1)
    (constructWith inner .returnStatement) (returnStatement b) := by
  refine (same_keyword _).past (fun _ => same_context.then fun c => ?_) fun _ => Nat.le_refl 1
  generalize c.returnsVoid = returnsVoid
  have hend {k : Nat} : SameAfter start k (fun _ => 0)
      (do Reading.symbol ';'; if returnsVoid then emit (.push .constant 0)
          emit .ret : Compile ω Unit)
      (do Reading.symbol ';'; if returnsVoid then emit (.push .constant 0)
          emit .ret : Compile ω Unit) := by
    refine (same_symbol ';').then fun _ => ?_
    split
    · exact (same_emit _).then fun _ => same_emit _
    · exact same_emit _
  refine (same_isNext _).then fun bare => ?_
  cases bare with
  | false => exact (later .expression).then fun _ => hend
  | true =>
    cases returnsVoid with
    | true => exact hend
    | false =>
      exact (same_take _).then fun token =>
        (same_unexpected (m := fun _ => 0) _ token).then fun _ => hend

theorem same_condition (target : String) : SameAfter start 0 (fun _ => 1)
    (constructWith inner (.condition target)) (condition b target) :=
  (same_symbol '(').past (fun _ => (later .expression).then fun _ =>
    (same_symbol ')').then fun _ => (same_emit _).then fun _ => same_emit _) fun _ => Nat.le_refl 1

theorem same_block : SameAfter start 0 (fun _ => 1)
    (constructWith inner .block) (block (statements b)) :=
  (same_symbol '{').past (fun _ => (later.statements).then fun _ =>
    (same_symbol '}').mono fun _ => Nat.zero_le 1) fun _ => Nat.le_refl 1

-- ---------------------------------------------------------------------------
-- Expressions
-- ---------------------------------------------------------------------------

theorem same_expression (h : SameAfter start 0 (fun _ => 1) (inner .operand)
      (chain .product (term b) b)) :
    SameAfter start 0 (fun _ => 1) (constructWith inner .expression) (expression b) := by
  refine h.past (fun _ => ?_) fun _ => Nat.le_refl 1
  exact later (.operators .sum)

theorem same_operand (h : SameAfter start 0 (fun _ => 1) (inner .term) (term b)) :
    SameAfter start 0 (fun _ => 1) (constructWith inner .operand)
      (chain .product (term b) b) := by
  refine h.past (fun _ => ?_) fun _ => Nat.le_refl 1
  exact later (.operators .product)

theorem same_term (h : SameAfter start 0 (fun _ => 1) (inner .call)
      (subroutineCall (expression b) b)) :
    SameAfter start 0 (fun _ => 1) (constructWith inner .term) (term (b + 1)) := by
  refine same_atCall.then fun call => ?_
  cases call with
  | true => exact h
  | false =>
    refine (same_take _).past (fun token => ?_) fun _ => Nat.le_refl 1
    exact same_termFrom (later .term) (later .expression) token

theorem same_call : SameAfter start 0 (fun _ => 1)
    (constructWith inner .call) (subroutineCall (expression b) b) := by
  refine same_callee.past (fun _ => ?_) fun _ => Nat.le_refl 1
  refine (same_symbol '(').then fun _ => ?_
  refine (later .arguments).then fun _ => ?_
  exact (same_symbol ')').then fun _ => (same_addInWord ..).then fun _ => same_emit _

theorem same_arguments (h : SameAfter start 0 (fun _ => 1) (inner .expression)
      (expression b)) :
    SameAfter start 0 (fun _ => 0) (constructWith inner .arguments)
      (arguments (expression b) b) := by
  refine (same_isNext _).then fun found => ?_
  cases found with
  | true => exact same_pure rfl
  | false =>
    refine h.then fun _ => ?_
    exact later (.moreArguments 1)

theorem same_moreArguments {rounds count : Nat}
    (hnext : ∀ next, SameAfter start 1 (fun _ => 0) (inner (.moreArguments next))
      (moreArguments (expression b) rounds next)) :
    SameAfter start 0 (fun _ => 0) (constructWith inner (.moreArguments count))
      (moreArguments (expression b) (rounds + 1) count) := by
  refine (same_accept _).ifTrue ?_ (same_pure rfl) fun _ => Nat.zero_le 1
  exact (later .expression).then fun _ =>
    (same_addInWord count 1).then fun next => (hnext next).further (Nat.le_add_left ..)

-- ---------------------------------------------------------------------------
-- All constructs
-- ---------------------------------------------------------------------------

omit later in
theorem same_constructWith (c : Construct) {rounds : Nat} (hr : start.lexemes.length ≤ rounds)
    (hb : start.lexemes.length ≤ b)
    (later : ∀ {r b : Nat}, start.lexemes.length ≤ r → start.lexemes.length ≤ b →
      Later start r b inner)
    (lower : ∀ c' : Construct, c'.rank < c.rank →
      SameAfter start 0 c'.least (inner c') (constructAt (b + 1) (b + 1) c')) :
    SameAfter start 0 c.least (constructWith inner c) (constructAt (rounds + 1) (b + 1) c) := by
  have hb' : start.lexemes.length ≤ b + 1 := Nat.le_succ_of_le hb
  have hstep : Later start (b + 1) (b + 1) inner := later hb' hb'
  have hnext : Later start rounds (b + 1) inner := later hr hb'
  cases c with
  | classDeclaration => exact same_classDeclaration (later hb hb)
  | classVariables => exact (lower .classVariable Nat.one_pos).round (hnext .classVariables)
  | classVariable => exact same_classVariable hstep
  | declarators kind => exact same_declarators hstep kind
  | moreDeclarators type kind =>
    exact (same_roundAfter _ (same_declareName _ type kind)).round
      (hnext (.moreDeclarators type kind))
  | subroutines => exact (lower .nextSubroutine Nat.one_pos).round (hnext .subroutines)
  | nextSubroutine => exact same_nextSubroutine hstep
  | subroutine kind => exact same_subroutine hstep kind
  | parameters => exact same_parameters hstep (lower .parameter Nat.one_pos)
  | parameter => exact same_parameter
  | moreParameters => exact (same_roundAfter _ (hstep .parameter)).round (hnext .moreParameters)
  | subroutineBody kind name => exact same_subroutineBody hstep kind name
  | localVariables =>
    exact (same_roundAfter _ (hstep (.declarators .var))).round (hnext .localVariables)
  | statements => exact (lower .statement (by decide)).round (hnext .statements)
  | statement =>
    exact same_statement (lower .letStatement Nat.one_pos) (lower .ifStatement Nat.one_pos)
      (lower .whileStatement Nat.one_pos) (lower .doStatement Nat.one_pos)
      (lower .returnStatement Nat.one_pos)
  | letStatement => exact same_letStatement (later hb hb)
  | ifStatement => exact same_ifStatement (later hb hb)
  | whileStatement => exact same_whileStatement (later hb hb)
  | doStatement => exact same_doStatement hstep
  | returnStatement => exact same_returnStatement (later hb hb)
  | condition target => exact same_condition hstep target
  | block => exact same_block hstep
  | expression => exact same_expression hstep (lower .operand (by decide))
  | operand => exact same_operand hstep (lower .term (by decide))
  | operators level =>
    cases level with
    | sum => exact (same_chainLink .sum (hstep .operand)).round (hnext (.operators .sum))
    | product =>
      exact (same_chainLink .product (hstep .term)).round (hnext (.operators .product))
  | term => exact same_term (later hb hb) (lower .call (by decide))
  | call => exact same_call (later hb hb)
  | arguments => exact same_arguments hstep (lower .expression (by decide))
  | moreArguments count => exact same_moreArguments hstep fun next => hnext (.moreArguments next)

end

end Compile

end JackVM
