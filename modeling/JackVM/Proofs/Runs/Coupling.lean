import Mathlib.Data.List.Forall2
import JackVM.Compile.Basic
import JackVM.Proofs.Grammar.StreamLaws

/-!
# Two compilations side by side

A compilation looks at the kinds of tokens, at names and at declarations, and
at nothing else. So two compilations of one construct go the same way while
these agree, whatever the offsets, the labels and the sinks are. A `Coupling`
says what the two have in common; `Matches` says that a step keeps it.

The first compilation may stop on its own, as one does whose sink is full. The
second then goes on alone, and what holds of the two must survive that.
-/

namespace JackVM

inductive Instruction.Alike (label : String → String → Prop) : Instruction → Instruction → Prop
  | push (segment : Segment) (index : Nat) : Alike label (.push segment index) (.push segment index)
  | pop (segment : Segment) (index : Nat) : Alike label (.pop segment index) (.pop segment index)
  | operate (op : Operation) : Alike label (.operate op) (.operate op)
  | label {a b : String} (h : label a b) : Alike label (.label a) (.label b)
  | goto {a b : String} (h : label a b) : Alike label (.goto a) (.goto b)
  | ifGoto {a b : String} (h : label a b) : Alike label (.ifGoto a) (.ifGoto b)
  | call (callee : String) (arguments : Nat) :
    Alike label (.call callee arguments) (.call callee arguments)
  | function (name : String) (locals : Nat) :
    Alike label (.function name locals) (.function name locals)
  | ret : Alike label .ret .ret

theorem Instruction.Alike.eq {i j : Instruction} (h : i.Alike Eq j) : i = j := by
  cases h with
  | label h | goto h | ifGoto h => rw [h]
  | _ => rfl

def endState {ε σ α : Type} : EStateM.Result ε σ α → σ
  | .ok _ s => s
  | .error _ s => s

class RightTotal {α β : Type} (V : α → β → Prop) : Prop where
  exists_left : ∀ b, ∃ a, V a b

instance {α : Type} : RightTotal (@Eq α) := ⟨fun a => ⟨a, rfl⟩⟩

instance {α β : Type} {V : α → β → Prop} [RightTotal V] : RightTotal (Option.Rel V) where
  exists_left
    | none => ⟨none, .none⟩
    | some b => (RightTotal.exists_left (V := V) b).imp' some fun _ h => .some h

structure Coupling (ω₁ ω₂ : Type) where
  Tokens : TokenStream → TokenStream → Prop
  /-- Offsets of the same token. -/
  Place : Nat → Nat → Prop
  /-- The options of both, each with the number of the next label. -/
  Numbering : Options → Nat → Options → Nat → Prop
  /-- Names of the same label. -/
  Label : String → String → Prop
  Out : ω₁ → ω₂ → Prop
  /-- The first has stopped alone, with this error and this sink. -/
  Stopped : CompileError Nat → ω₁ → ω₂ → Prop
  /-- What the sink of the second may become. -/
  Later : ω₂ → ω₂ → Prop

namespace Coupling

open Compile

variable {ω₁ ω₂ : Type} {α β γ δ : Type}

section
variable (C : Coupling ω₁ ω₂)

inductive SameError : CompileError Nat → CompileError Nat → Prop
  | inSource {o o' : Nat} (cause : Cause) (h : C.Place o o') :
    SameError (.inSource o cause) (.inSource o' cause)
  | inSink (e : SinkError) : SameError (.inSink e) (.inSink e)

/-- With this error the first stops alone, however the sinks agree. -/
def StopsWith (e : CompileError Nat) : Prop := ∀ o o', C.Out o o' → C.Stopped e o o'

inductive Heads : TokenStream → TokenStream → Prop
  | stop {a b : Nat} (h : C.Place a b) : Heads ⟨[], a⟩ ⟨[], b⟩
  | token {a b : Nat} {x y : Span} {l m : List Lexeme} (kind : TokenKind)
    (h : C.Place x.start y.start) (rest : C.Tokens ⟨l, a⟩ ⟨m, b⟩) :
    Heads ⟨.token ⟨kind, x⟩ :: l, a⟩ ⟨.token ⟨kind, y⟩ :: m, b⟩
  | malformed {a b : Nat} {x y : Span} {l m : List Lexeme} (reason : LexicalError)
    (h : C.Place x.start y.start) :
    Heads ⟨.malformed x reason :: l, a⟩ ⟨.malformed y reason :: m, b⟩
  | alone {a : Nat} {x : Span} {l : List Lexeme} {t : TokenStream} (reason : LexicalError)
    (h : C.StopsWith (.inSource x.start (.lexical reason))) :
    Heads ⟨.malformed x reason :: l, a⟩ t

inductive Writes : EStateM.Result SinkError ω₁ Unit → EStateM.Result SinkError ω₂ Unit → Prop
  | ok {o : ω₁} {o' : ω₂} (h : C.Out o o') : Writes (.ok () o) (.ok () o')
  | error {o : ω₁} {o' : ω₂} (e : SinkError) (h : C.Out o o') : Writes (.error e o) (.error e o')
  | stopped {o : ω₁} {r : EStateM.Result SinkError ω₂ Unit} (e : SinkError)
    (h : C.Stopped (.inSink e) o (endState r)) : Writes (.error e o) r

/-- What the coupling has to grant for steps to keep it. -/
class Lawful [InstructionSink ω₁] [InstructionSink ω₂] : Prop where
  heads : ∀ {s t}, C.Tokens s t → C.Heads s t
  place_total : ∀ b, ∃ a, C.Place a b
  label_total : ∀ b, ∃ a, C.Label a b
  draw : ∀ {o n o' n'}, C.Numbering o n o' n' →
    C.Label (o.label n) (o'.label n') ∧ C.Numbering o (n + 1) o' (n' + 1)
  restart : ∀ {o n o' n'}, C.Numbering o n o' n' →
    C.Numbering o (if o.resetLabels then 0 else n) o' (if o'.resetLabels then 0 else n')
  write : ∀ {i j o o'}, i.Alike C.Label j → C.Out o o' →
    C.Writes (InstructionSink.write i o) (InstructionSink.write j o')
  later_refl : ∀ o, C.Later o o
  later_trans : ∀ {a b c}, C.Later a b → C.Later b c → C.Later a c
  later_write : ∀ i o, C.Later o (endState (InstructionSink.write i o))
  stopped_later : ∀ {e o a b}, C.Stopped e o a → C.Later a b → C.Stopped e o b

structure InStep (s : CompileState ω₁) (t : CompileState ω₂) : Prop where
  tokens : C.Tokens s.tokens t.tokens
  className : s.context.className = t.context.className
  declarations : s.context.declarations = t.context.declarations
  returnsVoid : s.context.returnsVoid = t.context.returnsVoid
  numbering : C.Numbering s.context.options s.context.nextLabel
    t.context.options t.context.nextLabel
  out : C.Out s.out t.out

inductive Read (V : α → β → Prop) : EStateM.Result (CompileError Nat) TokenStream α →
    EStateM.Result (CompileError Nat) TokenStream β → Prop
  | ok {a : α} {b : β} {s t : TokenStream} (value : V a b) (tokens : C.Tokens s t) :
    Read V (.ok a s) (.ok b t)
  | error {e e' : CompileError Nat} {s t : TokenStream} (h : C.SameError e e') :
    Read V (.error e s) (.error e' t)
  | stopped {e : CompileError Nat} {s : TokenStream}
    {r : EStateM.Result (CompileError Nat) TokenStream β} (h : C.StopsWith e) :
    Read V (.error e s) r

inductive Ran (V : α → β → Prop) : EStateM.Result (CompileError Nat) (CompileState ω₁) α →
    EStateM.Result (CompileError Nat) (CompileState ω₂) β → Prop
  | ok {a : α} {b : β} {s : CompileState ω₁} {t : CompileState ω₂} (value : V a b)
    (inStep : C.InStep s t) : Ran V (.ok a s) (.ok b t)
  | error {e e' : CompileError Nat} {s : CompileState ω₁} {t : CompileState ω₂}
    (h : C.SameError e e') (out : C.Out s.out t.out) : Ran V (.error e s) (.error e' t)
  | stopped {e : CompileError Nat} {s : CompileState ω₁}
    {r : EStateM.Result (CompileError Nat) (CompileState ω₂) β}
    (h : C.Stopped e s.out (endState r).out) : Ran V (.error e s) r

/-- Both reading steps go the same way, with values that are related. -/
def ReadsAlike (V : α → β → Prop) (x : Reading α) (y : Reading β) : Prop :=
  ∀ s t, C.Tokens s t → C.Read V (x s) (y t)

/-- Both steps go the same way. Alone, the second does nothing to its sink that
the coupling does not allow. -/
structure Matches (V : α → β → Prop) (x : Compile ω₁ α) (y : Compile ω₂ β) : Prop where
  later : ∀ t, C.Later t.out (endState (y t)).out
  ran : ∀ s t, C.InStep s t → C.Ran V (x s) (y t)

def SameToken (x y : Token) : Prop := x.kind = y.kind ∧ C.Place x.span.start y.span.start

def SameName (v w : Reading.Named) : Prop := v.name = w.name ∧ C.Place v.offset w.offset

end

def SameContext (c d : Context) : Prop :=
  c.className = d.className ∧ c.declarations = d.declarations ∧ c.returnsVoid = d.returnsVoid

-- ---------------------------------------------------------------------------
-- Couplings of like runs
-- ---------------------------------------------------------------------------

theorem draw_same {o o' : Options} {n n' : Nat} (h : o = o' ∧ n = n') :
    o.label n = o'.label n' ∧ o = o' ∧ n + 1 = n' + 1 := by
  obtain ⟨rfl, rfl⟩ := h
  exact ⟨rfl, rfl, rfl⟩

theorem restart_same {o o' : Options} {n n' : Nat} (h : o = o' ∧ n = n') :
    o = o' ∧ (if o.resetLabels then 0 else n) = if o'.resetLabels then 0 else n' := by
  obtain ⟨rfl, rfl⟩ := h
  exact ⟨rfl, rfl⟩

theorem writes_self {ω : Type} {C : Coupling ω ω} (h : ∀ o, C.Out o o)
    (r : EStateM.Result SinkError ω Unit) : C.Writes r r := by
  cases r with
  | ok u o => exact .ok (h o)
  | error e o => exact .error e (h o)

-- ---------------------------------------------------------------------------
-- Reading
-- ---------------------------------------------------------------------------

section
variable {C : Coupling ω₁ ω₂} {V : α → β → Prop} {W : γ → δ → Prop}

theorem readsAlike_pure {a : α} {b : β} (h : V a b) : C.ReadsAlike V (pure a) (pure b) :=
  fun _ _ ht => .ok h ht

theorem ReadsAlike.bind {x : Reading α} {y : Reading β} {f : α → Reading γ} {g : β → Reading δ}
    (h : C.ReadsAlike V x y) (h' : ∀ a b, V a b → C.ReadsAlike W (f a) (g b)) :
    C.ReadsAlike W (x >>= f) (y >>= g) := by
  intro s t hs
  show C.Read W (EStateM.bind x f s) (EStateM.bind y g t)
  unfold EStateM.bind
  have hr := h s t hs
  generalize x s = r, y t = q at hr
  cases hr with
  | ok value tokens => exact h' _ _ value _ _ tokens
  | error h => exact .error h
  | stopped h => exact .stopped h

theorem readsAlike_fail {o o' : Nat} {cause : Cause} (h : C.Place o o') :
    C.ReadsAlike V (Reading.fail o cause) (Reading.fail o' cause) :=
  fun _ _ _ => .error (.inSource cause h)

theorem readsAlike_unexpected {expected : Expectation} {x y : Token} (h : C.SameToken x y) :
    C.ReadsAlike V (Reading.unexpected expected x) (Reading.unexpected expected y) := by
  obtain ⟨hk, hp⟩ := h
  unfold Reading.unexpected
  rw [hk]
  exact readsAlike_fail hp

section
variable [InstructionSink ω₁] [InstructionSink ω₂] [C.Lawful]

theorem readsAlike_peek : C.ReadsAlike (Option.Rel C.SameToken) Reading.peek Reading.peek := by
  intro s t hs
  cases Lawful.heads hs with
  | stop h => exact .ok .none hs
  | token kind h rest => exact .ok (.some ⟨rfl, h⟩) hs
  | malformed reason h => exact .error (.inSource _ h)
  | alone reason h => exact .stopped h

theorem readsAlike_take (expected : Expectation) :
    C.ReadsAlike C.SameToken (Reading.take expected) (Reading.take expected) := by
  intro s t hs
  cases Lawful.heads hs with
  | stop h => exact .error (.inSource _ h)
  | token kind h rest => exact .ok ⟨rfl, h⟩ rest
  | malformed reason h => exact .error (.inSource _ h)
  | alone reason h => exact .stopped h

theorem readsAlike_ahead :
    C.ReadsAlike (List.Forall₂ C.SameToken) (Reading.ahead 2) (Reading.ahead 2) := by
  intro s t hs
  cases Lawful.heads hs with
  | stop h => exact .ok .nil hs
  | token kind h rest =>
    cases Lawful.heads rest with
    | stop _ => exact .ok (.cons ⟨rfl, h⟩ .nil) hs
    | token kind' h' _ => exact .ok (.cons ⟨rfl, h⟩ (.cons ⟨rfl, h'⟩ .nil)) hs
    | malformed reason h => exact .error (.inSource _ h)
    | alone reason h => exact .stopped h
  | malformed reason h => exact .error (.inSource _ h)
  | alone reason h => exact .stopped h

theorem readsAlike_isNext (kind : TokenKind) :
    C.ReadsAlike Eq (Reading.isNext kind) (Reading.isNext kind) := by
  refine readsAlike_peek.bind fun x y h => readsAlike_pure ?_
  cases h with
  | none => rfl
  | some h => simp only [Option.any_some, h.1]

theorem readsAlike_accept (kind : TokenKind) :
    C.ReadsAlike Eq (Reading.accept kind) (Reading.accept kind) := by
  intro s t hs
  cases Lawful.heads hs with
  | stop h => exact .ok rfl hs
  | token found h rest =>
    by_cases hk : found = kind
    · subst hk
      rw [Reading.accept_token, Reading.accept_token]
      exact .ok rfl rest
    · rw [Reading.accept_other hk, Reading.accept_other hk]
      exact .ok rfl hs
  | malformed reason h => exact .error (.inSource _ h)
  | alone reason h => exact .stopped h

theorem readsAlike_nextKeyword : C.ReadsAlike Eq Reading.nextKeyword Reading.nextKeyword := by
  refine readsAlike_peek.bind fun x y h => ?_
  cases h with
  | none => exact readsAlike_pure rfl
  | some h =>
    rename_i x y
    obtain ⟨kind, _⟩ := x
    obtain ⟨_, _⟩ := y
    obtain ⟨rfl, -⟩ := h
    cases kind <;> exact readsAlike_pure rfl

theorem readsAlike_symbol (c : Char) : C.ReadsAlike Eq (Reading.symbol c) (Reading.symbol c) := by
  refine (readsAlike_take _).bind fun x y h => ?_
  rw [h.1]
  split
  · exact readsAlike_pure rfl
  · exact readsAlike_unexpected h

theorem readsAlike_keyword (word : Keyword) :
    C.ReadsAlike Eq (Reading.keyword word) (Reading.keyword word) := by
  refine (readsAlike_take _).bind fun x y h => ?_
  rw [h.1]
  split
  · exact readsAlike_pure rfl
  · exact readsAlike_unexpected h

theorem readsAlike_name (expected : Expectation) :
    C.ReadsAlike C.SameName (Reading.name expected) (Reading.name expected) := by
  refine (readsAlike_take _).bind fun x y h => ?_
  obtain ⟨kind, _⟩ := x
  obtain ⟨_, _⟩ := y
  obtain ⟨rfl, hp⟩ := id h
  cases kind with
  | identifier name => exact readsAlike_pure ⟨rfl, hp⟩
  | _ => exact readsAlike_unexpected h

theorem readsAlike_typeName : C.ReadsAlike Eq typeName typeName := by
  refine (readsAlike_take _).bind fun x y h => ?_
  obtain ⟨kind, _⟩ := x
  obtain ⟨_, _⟩ := y
  obtain ⟨rfl, -⟩ := id h
  cases kind with
  | keyword word => cases word <;> first | exact readsAlike_pure rfl | exact readsAlike_unexpected h
  | identifier name => exact readsAlike_pure rfl
  | _ => exact readsAlike_unexpected h

theorem readsAlike_returnType : C.ReadsAlike Eq returnType returnType := by
  refine (readsAlike_accept _).bind fun found _ h => ?_
  subst h
  cases found with
  | true => exact readsAlike_pure rfl
  | false => exact readsAlike_typeName.bind fun _ _ _ => readsAlike_pure rfl

theorem readsAlike_acceptOperator (level : OperatorLevel) :
    C.ReadsAlike Eq (acceptOperator level) (acceptOperator level) := by
  intro s t hs
  cases Lawful.heads hs with
  | stop h => exact .ok rfl hs
  | token kind h rest =>
    cases kind with
    | symbol c =>
      unfold acceptOperator
      rw [bind_run (Reading.peek_token ..), bind_run (Reading.peek_token ..)]
      dsimp only
      cases BinaryOperator.ofSymbol? level c with
      | none => exact .ok rfl hs
      | some op => exact .ok rfl rest
    | _ => exact .ok rfl hs
  | malformed reason h => exact .error (.inSource _ h)
  | alone reason h => exact .stopped h

theorem readsAlike_atCall : C.ReadsAlike Eq atCall atCall := by
  refine readsAlike_ahead.bind fun _ _ h => ?_
  cases h with
  | nil => exact readsAlike_pure rfl
  | @cons x y _ _ h h' =>
    obtain ⟨kind, _⟩ := x
    obtain ⟨_, _⟩ := y
    obtain ⟨rfl, -⟩ := h
    cases h' with
    | nil => cases kind <;> exact readsAlike_pure rfl
    | @cons x y _ _ h h' =>
      obtain ⟨next, _⟩ := x
      obtain ⟨_, _⟩ := y
      obtain ⟨rfl, -⟩ := h
      cases h' <;> cases kind <;> cases next <;> exact readsAlike_pure rfl

end

-- ---------------------------------------------------------------------------
-- Steps
-- ---------------------------------------------------------------------------

section
variable [InstructionSink ω₁] [InstructionSink ω₂] [C.Lawful]

theorem matches_pure {a : α} {b : β} (h : V a b) : C.Matches V (pure a) (pure b) :=
  ⟨fun _ => Lawful.later_refl _, fun _ _ hs => .ok h hs⟩

theorem Matches.bind [RightTotal V] {x : Compile ω₁ α} {y : Compile ω₂ β}
    {f : α → Compile ω₁ γ} {g : β → Compile ω₂ δ} (h : C.Matches V x y)
    (h' : ∀ a b, V a b → C.Matches W (f a) (g b)) : C.Matches W (x >>= f) (y >>= g) := by
  have hg (b : β) (t : CompileState ω₂) : C.Later t.out (endState (g b t)).out := by
    obtain ⟨a, hab⟩ := RightTotal.exists_left (V := V) b
    exact (h' a b hab).later t
  constructor
  · intro t
    have ht := h.later t
    show C.Later t.out (endState (EStateM.bind y g t)).out
    unfold EStateM.bind
    generalize y t = q at ht
    cases q with
    | ok b m => exact Lawful.later_trans ht (hg b m)
    | error e m => exact ht
  · intro s t hs
    have hr := h.ran s t hs
    show C.Ran W (EStateM.bind x f s) (EStateM.bind y g t)
    unfold EStateM.bind
    generalize x s = r, y t = q at hr
    cases hr with
    | ok value inStep => exact (h' _ _ value).ran _ _ inStep
    | error h out => exact .error h out
    | stopped h =>
      cases q with
      | ok b m => exact .stopped (Lawful.stopped_later h (hg b m))
      | error e m => exact .stopped h

/-- After steps with the same value, the rest may depend on it. -/
theorem Matches.then {x : Compile ω₁ α} {y : Compile ω₂ α} {f : α → Compile ω₁ γ}
    {g : α → Compile ω₂ δ} (h : C.Matches Eq x y) (h' : ∀ a, C.Matches W (f a) (g a)) :
    C.Matches W (x >>= f) (y >>= g) := by
  refine h.bind fun a b hab => ?_
  subst hab
  exact h' a

theorem ReadsAlike.lift {x : Reading α} {y : Reading β} (h : C.ReadsAlike V x y) :
    C.Matches V (liftM x : Compile ω₁ α) (liftM y : Compile ω₂ β) := by
  constructor
  · rintro ⟨tokens, context, out⟩
    simp only [liftM, monadLift, MonadLift.monadLift]
    cases y tokens <;> exact Lawful.later_refl _
  · rintro ⟨tokens, context, out⟩ ⟨tokens', context', out'⟩ hs
    have hr := h tokens tokens' hs.tokens
    simp only [liftM, monadLift, MonadLift.monadLift]
    generalize x tokens = r, y tokens' = q at hr
    cases hr with
    | ok value tokens => exact .ok value { hs with tokens }
    | error h => exact .error h hs.out
    | stopped h =>
      refine .stopped ?_
      cases q <;> exact h _ _ hs.out

theorem matches_emit {i j : Instruction} (h : i.Alike C.Label j) :
    C.Matches Eq (emit i) (emit j) := by
  constructor
  · rintro ⟨tokens, context, out⟩
    have hl := Lawful.later_write (C := C) j out
    simp only [emit, onSink]
    generalize InstructionSink.write j out = q at hl
    cases q <;> exact hl
  · rintro ⟨tokens, context, out⟩ ⟨tokens', context', out'⟩ hs
    have hw := Lawful.write h hs.out
    simp only [emit, onSink]
    generalize InstructionSink.write i out = r, InstructionSink.write j out' = q at hw
    cases hw with
    | ok h => exact .ok rfl { hs with out := h }
    | error e h => exact .error (.inSink e) h
    | stopped e h =>
      refine .stopped ?_
      cases q <;> exact h

theorem matches_fail {o o' : Nat} {error : SemanticError} (h : C.Place o o') :
    C.Matches V (fail o error) (fail o' error) :=
  ⟨fun _ => Lawful.later_refl _, fun _ _ hs => .error (.inSource _ h) hs.out⟩

theorem matches_context : C.Matches SameContext context context :=
  ⟨fun _ => Lawful.later_refl _,
    fun _ _ hs => .ok ⟨hs.className, hs.declarations, hs.returnsVoid⟩ hs⟩

theorem matches_find? (name : String) : C.Matches Eq (find? name) (find? name) :=
  ⟨fun _ => Lawful.later_refl _,
    fun _ _ hs => .ok (congrArg (Declarations.find? · name) hs.declarations) hs⟩

theorem matches_newLabel : C.Matches C.Label newLabel newLabel := by
  refine ⟨fun _ => Lawful.later_refl _, fun _ _ hs => ?_⟩
  obtain ⟨hl, hn⟩ := Lawful.draw hs.numbering
  exact .ok hl { hs with numbering := hn }

theorem matches_className (name : String) :
    C.Matches Eq (modifyContext fun c => { c with className := name })
      (modifyContext fun c => { c with className := name }) :=
  ⟨fun _ => Lawful.later_refl _, fun _ _ hs => .ok rfl { hs with className := rfl }⟩

theorem matches_declarations (declarations : Declarations) :
    C.Matches Eq (modifyContext fun c => { c with declarations })
      (modifyContext fun c => { c with declarations }) :=
  ⟨fun _ => Lawful.later_refl _, fun _ _ hs => .ok rfl { hs with declarations := rfl }⟩

theorem matches_enterSubroutine (returnsVoid : Bool) :
    C.Matches Eq (enterSubroutine returnsVoid) (enterSubroutine returnsVoid) :=
  ⟨fun _ => Lawful.later_refl _, fun _ _ hs => .ok rfl
    { hs with
      declarations := congrArg Declarations.enterSubroutine hs.declarations
      returnsVoid := rfl
      numbering := Lawful.restart hs.numbering }⟩

instance : RightTotal C.Label := ⟨Lawful.label_total⟩

instance : RightTotal C.SameToken :=
  ⟨fun t => (Lawful.place_total t.span.start).elim fun a h => ⟨⟨t.kind, ⟨a, a⟩⟩, rfl, h⟩⟩

instance : RightTotal C.SameName :=
  ⟨fun v => (Lawful.place_total v.offset).elim fun a h => ⟨⟨v.name, a⟩, rfl, h⟩⟩

instance : RightTotal SameContext := ⟨fun c => ⟨c, rfl, rfl, rfl⟩⟩

theorem matches_lookup {v w : Reading.Named} (h : C.SameName v w) :
    C.Matches Eq (lookup v) (lookup w) := by
  obtain ⟨hn, hp⟩ := h
  unfold lookup
  rw [hn]
  refine (matches_find? w.name).then fun found => ?_
  cases found with
  | some found => exact matches_pure rfl
  | none => exact matches_fail hp

theorem matches_declare {v w : Reading.Named} (h : C.SameName v w) {type type' : String}
    (ht : type = type') (kind : VariableKind) :
    C.Matches Eq (declare v type kind) (declare w type' kind) := by
  obtain ⟨hn, hp⟩ := h
  subst ht
  unfold declare
  refine matches_context.bind fun c d hc => ?_
  rw [hn, hc.2.1]
  cases d.declarations.declare? w.name type kind with
  | some found => exact matches_declarations found.2
  | none => exact matches_fail hp

theorem Matches.repeatWhile {step : Compile ω₁ Bool} {step' : Compile ω₂ Bool}
    (h : C.Matches Eq step step') (bound : Nat) :
    C.Matches Eq (Compile.repeatWhile bound step) (Compile.repeatWhile bound step') := by
  induction bound with
  | zero => exact matches_pure rfl
  | succ bound ih =>
    refine h.then fun again => ?_
    cases again with
    | true => exact ih
    | false => exact matches_pure rfl

theorem Matches.repeatAfter {item : Compile ω₁ Unit} {item' : Compile ω₂ Unit}
    (h : C.Matches Eq item item') (kind : TokenKind) (bound : Nat) :
    C.Matches Eq (Compile.repeatAfter bound kind item) (Compile.repeatAfter bound kind item') := by
  refine Matches.repeatWhile ((readsAlike_accept kind).lift.then fun found => ?_) bound
  cases found with
  | true => exact h.then fun _ => matches_pure rfl
  | false => exact matches_pure rfl

end

end

end Coupling

end JackVM
