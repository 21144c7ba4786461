import JackVM.Proofs.Grammar.StreamLaws
import JackVM.Proofs.Prediction.Trees

/-!
# Steps that follow the table

A step that starts with a stack to be read ends with what is left of it, and
fits the tokens ahead as well as the stack it ended with. If it reports a syntax
error, then at the first token that does not fit. `Follows` says so, and that
the lexemes left are few enough for the bounds on nesting and rounds, which
therefore never stop a compilation.
-/

namespace JackVM

namespace TokenStream

def leading : List Lexeme → List TokenKind
  | .token t :: rest => t.kind :: leading rest
  | _ => []

def kinds (s : TokenStream) : List TokenKind := leading s.lexemes

def Leads (s t : TokenStream) : Prop := ∃ us, Reads us s t

inductive FoundAt : TokenStream → Nat → Option TokenKind → Prop
  | token (kind : TokenKind) (span : Span) (rest : List Lexeme) (stop : Nat) :
    FoundAt ⟨.token ⟨kind, span⟩ :: rest, stop⟩ span.start (some kind)
  | stop (stop : Nat) : FoundAt ⟨[], stop⟩ stop none

variable {s t u : TokenStream}

theorem Leads.refl (s : TokenStream) : s.Leads s := ⟨[], rfl⟩

theorem Leads.trans (h : s.Leads t) (h' : t.Leads u) : s.Leads u :=
  let ⟨_, h⟩ := h
  let ⟨_, h'⟩ := h'
  ⟨_, h.trans h'⟩

theorem Leads.length_le (h : s.Leads t) : t.lexemes.length ≤ s.lexemes.length := by
  obtain ⟨us, h⟩ := h
  rw [← h.length_le]
  exact Nat.le_add_left ..

theorem leads_token (token : Token) (rest : List Lexeme) (stop : Nat) :
    Leads ⟨.token token :: rest, stop⟩ ⟨rest, stop⟩ :=
  ⟨[token.kind], ⟨rest, stop⟩, ⟨token.span, rfl, rfl⟩, rfl⟩

theorem Reads.kinds {us : List TokenKind} (h : Reads us s t) : s.kinds = us ++ t.kinds := by
  induction us generalizing s with
  | nil => rw [show t = s from h, List.nil_append]
  | cons u us ih =>
    obtain ⟨m, ⟨span, hs, -⟩, hm⟩ := h
    rw [TokenStream.kinds, hs, leading, List.cons_append, ← ih hm]
    rfl

end TokenStream

namespace Prediction

open TokenStream

/-- The tokens ahead of a step, and what else it has to keep. -/
structure View (σ : Type) where
  tokens : σ → TokenStream
  Keeps : σ → Prop

/-- What is expected from a place on: this many lexemes at most, and tokens that
fit the stack. -/
structure Expected where
  room : Nat
  stack : List Item

variable {σ ω α β : Type}

/-- What becomes of a step that has started at `start` with `stack` to be read. -/
inductive View.Lands (V : View σ) (stack : List Item) (start : TokenStream)
    (after : α → Expected) : EStateM.Result (CompileError Nat) σ α → Prop
  | ok {a : α} {s : σ} (keeps : V.Keeps s) (leads : start.Leads (V.tokens s))
    (room : (V.tokens s).lexemes.length ≤ (after a).room)
    (fits : misfit stack start.kinds = misfit (after a).stack (V.tokens s).kinds) :
    Lands V stack start after (.ok a s)
  | unexpected {offset : Nat} {expected : Expectation} {found : Option TokenKind} {s : σ}
    {m : TokenStream} (leads : start.Leads m) (foundAt : m.FoundAt offset found)
    (stuck : misfit stack start.kinds = some m.kinds) :
    Lands V stack start after (.error (.inSource offset (.unexpected expected found)) s)
  | lexical (offset : Nat) (error : LexicalError) (s : σ) :
    Lands V stack start after (.error (.inSource offset (.lexical error)) s)
  | semantic (offset : Nat) (error : SemanticError) (s : σ) :
    Lands V stack start after (.error (.inSource offset (.semantic error)) s)
  | inSink (error : SinkError) (s : σ) : Lands V stack start after (.error (.inSink error) s)

def View.Follows (V : View σ) (before : Expected) (x : EStateM (CompileError Nat) σ α)
    (after : α → Expected) : Prop :=
  ∀ s, V.Keeps s → (V.tokens s).lexemes.length ≤ before.room →
    V.Lands before.stack (V.tokens s) after (x s)

/-- With at most `n` lexemes ahead, the step reads what the items stand for. -/
def View.Covers (V : View σ) (n : Nat) (items : List Item)
    (x : EStateM (CompileError Nat) σ α) : Prop :=
  ∀ stack, V.Follows ⟨n, items ++ stack⟩ x fun _ => ⟨n, stack⟩

def stream : View TokenStream := ⟨id, fun _ => True⟩

/-- Inside a subroutine it is known whether it is void. -/
def within (returnsVoid : Option Bool) : View (CompileState ω) where
  tokens := CompileState.tokens
  Keeps s := ∀ v ∈ returnsVoid, s.context.returnsVoid = v

-- ---------------------------------------------------------------------------
-- One step after another
-- ---------------------------------------------------------------------------

section
variable {V : View σ} {m n : Nat} {I J : List Item} {before : Expected} {after : α → Expected}
  {later : β → Expected} {x : EStateM (CompileError Nat) σ α}
  {f : α → EStateM (CompileError Nat) σ β}

theorem follows_pure {a : α} (h : before = after a) : V.Follows before (pure a) after := by
  subst h
  exact fun _ hk hr => .ok hk (.refl _) hr rfl

/-- What becomes of a step is what becomes of the steps before it and itself. -/
theorem View.Lands.from {start mid : TokenStream} {r : EStateM.Result (CompileError Nat) σ α}
    (h : V.Lands J mid after r) (hl : start.Leads mid)
    (hs : misfit I start.kinds = misfit J mid.kinds) : V.Lands I start after r := by
  cases h with
  | ok keeps leads room fits => exact .ok keeps (hl.trans leads) room (hs.trans fits)
  | unexpected leads foundAt stuck =>
    exact .unexpected (hl.trans leads) foundAt (hs.trans stuck)
  | _ => constructor

theorem View.Follows.bind (h : V.Follows before x after)
    (h' : ∀ a, V.Follows (after a) (f a) later) : V.Follows before (x >>= f) later := by
  intro s hk hr
  have hx := h s hk hr
  show V.Lands _ _ _ (EStateM.bind x f s)
  unfold EStateM.bind
  generalize x s = r at hx
  cases hx with
  | ok keeps leads room fits => exact (h' _ _ keeps room).from leads fits
  | unexpected leads foundAt stuck => exact .unexpected leads foundAt stuck
  | _ => constructor

/-- There may be less room before, and more after. -/
theorem View.Follows.limit {wider : α → Expected} (h : V.Follows ⟨n, I⟩ x after) (hm : m ≤ n)
    (hr : ∀ a left, left ≤ m → left ≤ (after a).room → left ≤ (wider a).room)
    (hs : ∀ a, (after a).stack = (wider a).stack) : V.Follows ⟨m, I⟩ x wider := by
  intro s hk hl
  have hx := h s hk (Nat.le_trans hl hm)
  generalize x s = r at hx
  cases hx with
  | ok keeps leads room fits =>
    exact .ok keeps leads (hr _ _ (Nat.le_trans leads.length_le hl) room) (hs _ ▸ fits)
  | unexpected leads foundAt stuck => exact .unexpected leads foundAt stuck
  | _ => constructor

theorem View.Follows.mono (h : V.Follows ⟨n, I⟩ x after) (hm : m ≤ n) :
    V.Follows ⟨m, I⟩ x after := h.limit hm (fun _ _ _ hl => hl) fun _ => rfl

theorem View.Follows.widen {J : α → List Item} (h : V.Follows before x fun a => ⟨m, J a⟩)
    (hm : m ≤ n) : V.Follows before x fun a => ⟨n, J a⟩ :=
  h.limit (Nat.le_refl _) (fun _ _ _ hl => Nat.le_trans hl hm) fun _ => rfl

/-- A step never leaves more lexemes than it has found. -/
theorem View.Follows.narrow {J : α → List Item} (h : V.Follows ⟨n, I⟩ x fun a => ⟨n, J a⟩)
    (hm : m ≤ n) : V.Follows ⟨m, I⟩ x fun a => ⟨m, J a⟩ :=
  h.limit hm (fun _ _ hl _ => hl) fun _ => rfl

/-- Where it does not count how many tokens a step reads. -/
theorem View.Follows.loosen (h : V.Follows ⟨n + 1, I⟩ x after) :
    V.Follows ⟨n, I⟩ x fun a => ⟨n, (after a).stack⟩ :=
  h.limit (Nat.le_succ n) (fun _ _ hl _ => hl) fun _ => rfl

theorem View.Covers.mono (h : V.Covers n I x) (hm : m ≤ n) : V.Covers m I x :=
  fun stack => (h stack).narrow hm

end

-- ---------------------------------------------------------------------------
-- Taking a token
-- ---------------------------------------------------------------------------

structure View.Takes (V : View σ) (x : EStateM (CompileError Nat) σ Token) : Prop where
  token : ∀ {s t rest stop}, V.tokens s = ⟨.token t :: rest, stop⟩ →
    ∃ s', x s = .ok t s' ∧ V.tokens s' = ⟨rest, stop⟩ ∧ (V.Keeps s → V.Keeps s')
  malformed : ∀ {s span reason rest stop}, V.tokens s = ⟨.malformed span reason :: rest, stop⟩ →
    ∃ s', x s = .error (.inSource span.start (.lexical reason)) s'
  stop : ∀ {s stop}, V.tokens s = ⟨[], stop⟩ →
    ∃ expected s', x s = .error (.inSource stop (.unexpected expected none)) s'

def Rejects (t : Token) (x : EStateM (CompileError Nat) σ α) : Prop :=
  ∀ s, ∃ expected s', x s = .error (.inSource t.span.start (.unexpected expected (some t.kind))) s'

theorem takes_take (expected : Expectation) : stream.Takes (Reading.take expected) where
  token := by
    rintro ⟨_, _⟩ t rest stop ⟨⟩
    exact ⟨_, rfl, rfl, id⟩
  malformed := by
    rintro ⟨_, _⟩ span reason rest stop ⟨⟩
    exact ⟨_, rfl⟩
  stop := by
    rintro ⟨_, _⟩ stop ⟨⟩
    exact ⟨expected, _, rfl⟩

theorem takes_lift (expected : Expectation) (v : Option Bool) :
    (within v).Takes (liftM (Reading.take expected) : Compile ω Token) where
  token := by
    rintro ⟨⟨_, _⟩, _, _⟩ t rest stop ⟨⟩
    exact ⟨_, rfl, rfl, id⟩
  malformed := by
    rintro ⟨⟨_, _⟩, _, _⟩ span reason rest stop ⟨⟩
    exact ⟨_, rfl⟩
  stop := by
    rintro ⟨⟨_, _⟩, _, _⟩ stop ⟨⟩
    exact ⟨expected, _, rfl⟩

theorem rejects_unexpected (expected : Expectation) (t : Token) :
    Rejects t (Reading.unexpected expected t : Reading α) := fun s => ⟨expected, s, rfl⟩

theorem rejects_lift (expected : Expectation) (t : Token) :
    Rejects t (liftM (Reading.unexpected expected t : Reading α) : Compile ω α) :=
  fun s => ⟨expected, s, rfl⟩

section
variable {V : View σ} {n : Nat} {item : Item} {stack : List Item} {after : α → Expected}

theorem follows_take {x : EStateM (CompileError Nat) σ Token}
    {f : Token → EStateM (CompileError Nat) σ α} (hx : V.Takes x) (hn : item.nullable = false)
    (hf : ∀ t, (∃ items, item.expand t.kind = some items ∧
        V.Follows ⟨n, items ++ stack⟩ (f t) after) ∨
      (item.expand t.kind = none ∧ Rejects t (f t))) :
    V.Follows ⟨n + 1, item :: stack⟩ (x >>= f) after := by
  intro s hk hr
  show V.Lands _ _ _ (EStateM.bind x f s)
  unfold EStateM.bind
  generalize hs : V.tokens s = start at hr ⊢
  -- What is checked has been passed already, so an error leads back to `start`.
  obtain ⟨_ | ⟨⟨kind, span⟩ | ⟨span, reason⟩, rest⟩, stop⟩ := start
  · obtain ⟨expected, s', hx⟩ := hx.stop hs
    rw [hx]
    exact .unexpected (.refl _) (.stop stop) (misfit_end hn)
  · obtain ⟨s', hx, ht, hk'⟩ := hx.token hs
    rw [hx]
    rcases hf ⟨kind, span⟩ with ⟨items, he, hf⟩ | ⟨he, hf⟩
    · have hroom : rest.length ≤ n := Nat.le_of_succ_le_succ hr
      have hl := hf s' (hk' hk) (by rw [ht]; exact hroom)
      rw [ht] at hl
      exact hl.from (leads_token ..) (misfit_expand he)
    · obtain ⟨expected, t, hf⟩ := hf s'
      dsimp only
      rw [hf]
      exact .unexpected (.refl _) (.token ..) (misfit_stuck he hn)
  · obtain ⟨s', hx⟩ := hx.malformed hs
    rw [hx]
    constructor

end

-- ---------------------------------------------------------------------------
-- Steps of a compilation
-- ---------------------------------------------------------------------------

open Compile

section
variable {v : Option Bool} {n : Nat} {I J : List Item} {before : Expected} {after : α → Expected}

theorem View.Follows.lift {x : Reading α} (h : stream.Follows before x after) :
    (within v).Follows before (liftM x : Compile ω α) after := by
  rintro ⟨tokens, context, out⟩ hk hr
  have hx := h tokens trivial hr
  simp only [liftM, monadLift, MonadLift.monadLift]
  generalize x tokens = r at hx
  cases hx with
  | ok _ leads room fits => exact .ok hk leads room fits
  | unexpected leads foundAt stuck => exact .unexpected leads foundAt stuck
  | _ => constructor

def Stays (v : Option Bool) (x : Compile ω α) : Prop :=
  ∀ before, (within v).Follows before x fun _ => before

theorem stays_pure (a : α) : Stays v (pure a : Compile ω α) := fun _ => follows_pure rfl

theorem Stays.bind {x : Compile ω α} {f : α → Compile ω β} (h : Stays v x)
    (h' : ∀ a, Stays v (f a)) : Stays v (x >>= f) :=
  fun before => (h before).bind fun a => h' a before

theorem stays_onSink (x : EStateM SinkError ω α) : Stays v (onSink x) := by
  rintro before ⟨tokens, context, out⟩ hk hr
  simp only [onSink]
  cases x out with
  | ok a out => exact .ok hk (.refl _) hr rfl
  | error e out => exact .inSink e _

theorem stays_emit [InstructionSink ω] (i : Instruction) : Stays v (emit (ω := ω) i) :=
  stays_onSink _

theorem stays_context : Stays v (context (ω := ω)) :=
  fun _ _ hk hr => .ok hk (.refl _) hr rfl

theorem stays_modifyContext {f : Context → Context} (h : ∀ c, (f c).returnsVoid = c.returnsVoid) :
    Stays v (modifyContext (ω := ω) f) :=
  fun _ s hk hr => .ok (fun r hv => (h s.context).trans (hk r hv)) (.refl _) hr rfl

theorem stays_fail (offset : Nat) (error : SemanticError) :
    Stays v (fail offset error : Compile ω α) := fun _ _ _ _ => .semantic ..

theorem stays_newLabel : Stays v (newLabel (ω := ω)) :=
  have hnext : Stays v (modifyContext (ω := ω) fun c => { c with nextLabel := c.nextLabel + 1 }) :=
    stays_modifyContext fun _ => rfl
  stays_context.bind fun _ => hnext.bind fun _ => stays_pure _

theorem stays_find? (name : String) : Stays v (find? (ω := ω) name) :=
  stays_context.bind fun _ => stays_pure _

theorem stays_lookup (name : Reading.Named) : Stays v (lookup (ω := ω) name) :=
  (stays_find? _).bind fun found => by
    cases found with
    | some found => exact stays_pure _
    | none => exact stays_fail _ _

theorem stays_declare (name : Reading.Named) (type : String) (kind : VariableKind) :
    Stays v (declare (ω := ω) name type kind) :=
  stays_context.bind fun c => by
    cases c.declarations.declare? name.name type kind with
    | some _ => exact stays_modifyContext fun _ => rfl
    | none => exact stays_fail _ _

theorem stays_className (name : String) :
    Stays v (modifyContext (ω := ω) fun c => { c with className := name }) :=
  stays_modifyContext fun _ => rfl

theorem follows_context {f : Context → Compile ω α} {returnsVoid : Bool}
    (h : ∀ c, c.returnsVoid = returnsVoid →
      (within (some returnsVoid)).Follows before (f c) after) :
    (within (some returnsVoid)).Follows before (context >>= f) after :=
  fun s hk => h s.context (hk returnsVoid rfl) s hk

/-- From here on it is known whether the subroutine is void. -/
theorem follows_enterSubroutine {x : Compile ω α} {returnsVoid : Bool}
    (h : (within (some returnsVoid)).Follows before x after) :
    (within none).Follows before (enterSubroutine returnsVoid >>= fun _ => x) after := by
  rintro ⟨tokens, context, out⟩ _ hr
  have hx : (within (some returnsVoid)).Lands before.stack tokens after
      ((enterSubroutine returnsVoid >>= fun _ => x) ⟨tokens, context, out⟩) :=
    h ⟨tokens, _, out⟩ (by rintro _ ⟨⟩; rfl) hr
  generalize (enterSubroutine returnsVoid >>= fun _ => x) ⟨tokens, context, out⟩ = r at hx
  cases hx with
  | ok keeps leads room fits => exact .ok nofun leads room fits
  | unexpected leads foundAt stuck => exact .unexpected leads foundAt stuck
  | _ => constructor

/-- Where nothing is ahead, nothing more is read of what may be empty. -/
theorem follows_spent (hend : misfit I [] = misfit J []) (a : α) :
    (within v).Follows ⟨0, I⟩ (pure a : Compile ω α) fun _ => ⟨n, J⟩ := by
  rintro ⟨⟨lexemes, stop⟩, context, out⟩ hk hr
  obtain rfl : lexemes = [] := List.length_eq_zero_iff.mp (Nat.le_zero.mp hr)
  exact .ok hk (.refl _) (Nat.zero_le n) hend

/-- Rounds read what stands first on the stack, one after another, and the last
one finds that it has ended. There is room for a round as long as there are
tokens, and where there are none the loop has ended too. -/
theorem View.Follows.repeatWhile {step : Compile ω Bool} {bound : Nat}
    (h : ∀ n < bound, (within v).Follows ⟨n + 1, I⟩ step
      fun again => bif again then ⟨n, I⟩ else ⟨n + 1, J⟩)
    (hend : misfit I [] = misfit J []) :
    (within v).Follows ⟨bound, I⟩ (Compile.repeatWhile bound step) fun _ => ⟨bound, J⟩ := by
  induction bound with
  | zero => exact follows_spent hend ()
  | succ bound ih =>
    refine (h bound (Nat.lt_succ_self bound)).bind fun again => ?_
    cases again with
    | true => exact (ih fun n hn => h n (Nat.lt_succ_of_lt hn)).widen (Nat.le_succ bound)
    | false => exact follows_pure rfl

end

end Prediction

end JackVM
