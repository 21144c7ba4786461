import JackVM.Proofs.Grammar.Acceptance
import JackVM.Proofs.Prediction.SyntaxErrors
import JackVM.Proofs.Runs.Lockstep

/-!
# The same tokens at other places

A compilation does nothing with the offsets of tokens but to say where an error
is. So sources with the same tokens are compiled alike, however they are laid
out: they give the same code, or the same error about the same token.

Both are compared with a stream whose tokens stand at the places 0, 1, 2 and so
on. A place in that stream is the number of a token, and one error of it tells
the errors of both.
-/

namespace JackVM

open Compile

variable {ω : Type} {place : Nat → Nat}

-- ---------------------------------------------------------------------------
-- A stream and the same stream elsewhere
-- ---------------------------------------------------------------------------

/-- The same token twice; `place` tells where the first starts from where the
second does. -/
inductive Lexeme.Moved (place : Nat → Nat) : Lexeme → Lexeme → Prop
  | token (kind : TokenKind) {x y : Span} (h : x.start = place y.start) :
    Moved place (.token ⟨kind, x⟩) (.token ⟨kind, y⟩)

def relocated (ω : Type) (place : Nat → Nat) : Coupling ω ω where
  Tokens s t := List.Forall₂ (Lexeme.Moved place) s.lexemes t.lexemes ∧ s.stop = place t.stop
  Place a b := a = place b
  Numbering o n o' n' := o = o' ∧ n = n'
  Label := Eq
  Out := Eq
  Stopped _ _ _ := False
  Later _ _ := True

namespace Coupling

theorem heads_relocated {s t : TokenStream} (h : (relocated ω place).Tokens s t) :
    (relocated ω place).Heads s t := by
  obtain ⟨lexemes, stop⟩ := s
  obtain ⟨lexemes', stop'⟩ := t
  obtain ⟨hl, hs⟩ := h
  cases hl with
  | nil => exact .stop hs
  | cons h rest =>
    cases h with
    | token kind h => exact .token kind h ⟨rest, hs⟩

section
variable [InstructionSink ω]

instance : (relocated ω place).Lawful where
  heads := heads_relocated
  place_total b := ⟨place b, rfl⟩
  label_total b := ⟨b, rfl⟩
  draw := draw_same
  restart := restart_same
  write := by
    intro i j o o' h h'
    obtain rfl := h.eq
    obtain rfl : o = o' := h'
    exact writes_self (fun _ => rfl) _
  later_refl _ := trivial
  later_trans _ _ := trivial
  later_write _ _ := trivial
  stopped_later h _ := h

theorem matches_flush : (relocated ω place).Matches Eq (onSink InstructionSink.flush)
    (onSink InstructionSink.flush) := by
  refine ⟨fun _ => trivial, ?_⟩
  rintro ⟨tokens, context, out⟩ ⟨tokens', context', out'⟩ hs
  obtain rfl : out = out' := hs.out
  simp only [onSink]
  generalize InstructionSink.flush out = r
  cases r with
  | ok u o => exact .ok rfl { hs with out := rfl }
  | error e o => exact .error (.inSink e) rfl

theorem matches_compileUnit (bound : Nat) :
    (relocated ω place).Matches Eq (compileUnit bound) (compileUnit bound) :=
  (matches_classDeclaration bound).then fun _ => matches_flush

end

end Coupling

-- ---------------------------------------------------------------------------
-- Tokens by their numbers
-- ---------------------------------------------------------------------------

def numberedTokens (kinds : List TokenKind) : TokenStream where
  lexemes := kinds.zipIdx.map fun (kind, i) => .token ⟨kind, ⟨i, i⟩⟩
  stop := kinds.length

def placeOf (source : String) (tokens : List Token) (i : Nat) : Nat :=
  (tokens[i]?.map fun t => t.span.start).getD source.utf8ByteSize

theorem relocated_numbered (source : String) (tokens : List Token) :
    (relocated ω (placeOf source tokens)).Tokens ⟨tokens.map .token, source.utf8ByteSize⟩
      (numberedTokens (tokens.map Token.kind)) := by
  constructor
  · refine List.forall₂_iff_get.mpr ⟨by simp [numberedTokens], fun i h h' => ?_⟩
    have hi : i < tokens.length := by simpa using h
    simp only [numberedTokens, List.get_eq_getElem, List.getElem_map, List.getElem_zipIdx,
      Nat.zero_add]
    exact .token _ (by simp [placeOf, hi])
  · simp [placeOf, numberedTokens]

-- ---------------------------------------------------------------------------
-- Two sources
-- ---------------------------------------------------------------------------

inductive SameOutcome (Place : Position → Position → Prop) {α : Type} :
    Except (CompileError Position) α → Except (CompileError Position) α → Prop
  | ok (a : α) : SameOutcome Place (.ok a) (.ok a)
  | inSource {p q : Position} (cause : Cause) (h : Place p q) :
    SameOutcome Place (.error (.inSource p cause)) (.error (.inSource q cause))
  | inSink (e : SinkError) : SameOutcome Place (.error (.inSink e)) (.error (.inSink e))

inductive SamePlace (source₁ source₂ : String) (tokens₁ tokens₂ : List Token) :
    Position → Position → Prop
  | token {i : Nat} {t u : Token} (h : tokens₁[i]? = some t) (h' : tokens₂[i]? = some u) :
    SamePlace source₁ source₂ tokens₁ tokens₂ (.ofOffset source₁ t.span.start)
      (.ofOffset source₂ u.span.start)
  | stop : SamePlace source₁ source₂ tokens₁ tokens₂ (.ofOffset source₁ source₁.utf8ByteSize)
      (.ofOffset source₂ source₂.utf8ByteSize)

variable {source source₁ source₂ : String} {tokens tokens₁ tokens₂ : List Token}

theorem samePlace_placeOf (h : tokens₁.length = tokens₂.length) (i : Nat) :
    SamePlace source₁ source₂ tokens₁ tokens₂ (.ofOffset source₁ (placeOf source₁ tokens₁ i))
      (.ofOffset source₂ (placeOf source₂ tokens₂ i)) := by
  by_cases hi : i < tokens₁.length
  · have h₁ := List.getElem?_eq_getElem hi
    have h₂ := List.getElem?_eq_getElem (h ▸ hi)
    simp only [placeOf, h₁, h₂, Option.map_some, Option.getD_some]
    exact .token h₁ h₂
  · have hi := Nat.le_of_not_lt hi
    simp only [placeOf, List.getElem?_eq_none hi, List.getElem?_eq_none (h ▸ hi), Option.map_none,
      Option.getD_none]
    exact .stop

theorem SameOutcome.map {Place : Position → Position → Prop} {α β : Type} (f : α → β)
    {x y : Except (CompileError Position) α} (h : SameOutcome Place x y) :
    SameOutcome Place (x.map f) (y.map f) := by
  cases h with
  | ok a => exact .ok (f a)
  | inSource cause h => exact .inSource cause h
  | inSink e => exact .inSink e

def located (source : String) : EStateM.Result (CompileError Nat) (CompileState ω) Unit →
    Except (CompileError Position) Unit × ω
  | .ok _ s => (.ok (), s.out)
  | .error e s => (.error (e.locate source), s.out)

theorem compileInto_found [InstructionSink ω] (out : ω) (options : Options) {found : List Lexeme}
    (h : lexemes source = .ok found) :
    compileInto out options source = located source (compileUnit found.length
      ⟨⟨found, source.utf8ByteSize⟩, { options }, out⟩) := by
  unfold compileInto
  rw [h]
  simp only [EStateM.run]
  split <;> next hu => rw [hu]; rfl

theorem compileInto_tokens [InstructionSink ω] (out : ω) (options : Options)
    (h : lexemes source = .ok (tokens.map .token)) :
    compileInto out options source = located source (compileUnit tokens.length
      ⟨⟨tokens.map .token, source.utf8ByteSize⟩, { options }, out⟩) := by
  rw [compileInto_found out options h, List.length_map]

/-- What two compilations have in common if each has this much in common with a
third, whose tokens stand at their numbers. -/
theorem sameOutcome_of_ran (h : tokens₁.length = tokens₂.length)
    {r₁ r₂ r : EStateM.Result (CompileError Nat) (CompileState ω) Unit}
    (h₁ : (relocated ω (placeOf source₁ tokens₁)).Ran Eq r₁ r)
    (h₂ : (relocated ω (placeOf source₂ tokens₂)).Ran Eq r₂ r) :
    SameOutcome (SamePlace source₁ source₂ tokens₁ tokens₂) (located source₁ r₁).1
        (located source₂ r₂).1 ∧
      (located source₁ r₁).2 = (located source₂ r₂).2 := by
  cases h₁ with
  | ok _ hs =>
    cases h₂ with
    | ok _ ht => exact ⟨.ok (), hs.out.trans ht.out.symm⟩
    | stopped h => exact h.elim
  | error he ho =>
    cases h₂ with
    | error he' ho' =>
      refine ⟨?_, ho.trans ho'.symm⟩
      cases he with
      | inSource cause hp =>
        cases he' with
        | inSource _ hp' =>
          cases hp
          cases hp'
          exact .inSource cause (samePlace_placeOf h _)
      | inSink e =>
        cases he' with
        | inSink _ => exact .inSink e
    | stopped h => exact h.elim
  | stopped h => exact h.elim

/-- Sources with the same tokens end alike, with equal sinks. -/
theorem compileInto_sameTokens [InstructionSink ω] (h₁ : lexemes source₁ = .ok (tokens₁.map .token))
    (h₂ : lexemes source₂ = .ok (tokens₂.map .token))
    (hk : tokens₁.map Token.kind = tokens₂.map Token.kind) (options : Options) (out : ω) :
    SameOutcome (SamePlace source₁ source₂ tokens₁ tokens₂) (compileInto out options source₁).1
        (compileInto out options source₂).1 ∧
      (compileInto out options source₁).2 = (compileInto out options source₂).2 := by
  have hlen : tokens₁.length = tokens₂.length := by simpa using congrArg List.length hk
  have hunit {source : String} {tokens : List Token} :
      (relocated ω (placeOf source tokens)).Matches Eq (compileUnit tokens₁.length)
        (compileUnit tokens₁.length) := Coupling.matches_compileUnit _
  have hran {source : String} {tokens : List Token} :=
    hunit.ran
      ⟨⟨tokens.map .token, source.utf8ByteSize⟩, { options }, out⟩
      ⟨numberedTokens (tokens.map Token.kind), { options }, out⟩
      ⟨relocated_numbered source tokens, rfl, rfl, rfl, ⟨rfl, rfl⟩, rfl⟩
  rw [compileInto_tokens out options h₁, compileInto_tokens out options h₂, ← hlen]
  exact sameOutcome_of_ran hlen (hk ▸ hran) hran

theorem compile_sameOutcome {Place : Position → Position → Prop} {options : Options}
    (h : SameOutcome Place (compileInto (#[] : Listing) options source₁).1
        (compileInto (#[] : Listing) options source₂).1 ∧
      (compileInto (#[] : Listing) options source₁).2 =
        (compileInto (#[] : Listing) options source₂).2) :
    SameOutcome Place (compile options source₁) (compile options source₂) := by
  unfold compile
  generalize compileInto (#[] : Listing) options source₁ = x,
    compileInto (#[] : Listing) options source₂ = y at h
  obtain ⟨x, code⟩ := x
  obtain ⟨y, code'⟩ := y
  obtain ⟨h, rfl⟩ := h
  cases h with
  | ok _ => exact .ok _
  | inSource cause h => exact .inSource cause h
  | inSink e => exact .inSink e

/-- Only the kinds of the tokens count. Sources that have the same, without a
malformed lexeme, compile to the same text or fail alike, at tokens with the
same number, and what either writes to a sink is the same. -/
theorem compileText_sameTokens (options : Options) (h₁ : lexemes source₁ = .ok (tokens₁.map .token))
    (h₂ : lexemes source₂ = .ok (tokens₂.map .token))
    (hk : tokens₁.map Token.kind = tokens₂.map Token.kind) :
    SameOutcome (SamePlace source₁ source₂ tokens₁ tokens₂) (compileText options source₁)
        (compileText options source₂) ∧
      (compileInto ({} : CodeWriter) options source₁).2.sink.bytes =
        (compileInto ({} : CodeWriter) options source₂).2.sink.bytes := by
  constructor
  · exact (compile_sameOutcome (compileInto_sameTokens h₁ h₂ hk options #[])).map codeText
  · rw [(compileInto_sameTokens h₁ h₂ hk options ({} : CodeWriter)).2]

-- The same two tokens, the second time with a comment, a line break and zeros.

def unnamed : String := "class 7"

def unnamedSpread : String := "class // name\n 007"

def unnamedTokens : List Token :=
  [⟨.keyword .classWord, ⟨0, 5⟩⟩, ⟨.integer 7, ⟨6, 7⟩⟩]

def unnamedSpreadTokens : List Token :=
  [⟨.keyword .classWord, ⟨0, 5⟩⟩, ⟨.integer 7, ⟨15, 18⟩⟩]

theorem lexemes_unnamed : lexemes unnamed = .ok (unnamedTokens.map .token) := by
  refine lexemes_ok.mpr ⟨unnamed.toList, ?_, ?_⟩
  · rw [unnamed, String.toList_ofList]
    rfl
  · rw [unnamed, String.toList_ofList]
    decide +kernel

theorem lexemes_unnamedSpread : lexemes unnamedSpread = .ok (unnamedSpreadTokens.map .token) := by
  refine lexemes_ok.mpr ⟨"class        \n 007".toList, ?_, ?_⟩
  · rw [unnamedSpread, String.toList_ofList, String.toList_ofList]
    rfl
  · rw [String.toList_ofList]
    decide +kernel

theorem compileText_sameTokens_unnamed :
    lexemes unnamed = .ok (unnamedTokens.map .token) ∧
    lexemes unnamedSpread = .ok (unnamedSpreadTokens.map .token) ∧
    unnamedTokens.map Token.kind = unnamedSpreadTokens.map Token.kind ∧
    compileText {} unnamed =
      .error (.inSource ⟨1, 7⟩ (.unexpected .className (some (.integer 7)))) ∧
    compileText {} unnamedSpread =
      .error (.inSource ⟨2, 2⟩ (.unexpected .className (some (.integer 7)))) ∧
    SamePlace unnamed unnamedSpread unnamedTokens unnamedSpreadTokens ⟨1, 7⟩ ⟨2, 2⟩ := by
  have hrun : compileText {} unnamed =
      .error (.inSource ⟨1, 7⟩ (.unexpected .className (some (.integer 7)))) :=
    eq_error_of_failure? (by decide +kernel)
  have hrun' : compileText {} unnamedSpread =
      .error (.inSource ⟨2, 2⟩ (.unexpected .className (some (.integer 7)))) :=
    eq_error_of_failure? (by decide +kernel)
  obtain ⟨h, -⟩ := compileText_sameTokens {} lexemes_unnamed lexemes_unnamedSpread rfl
  rw [hrun, hrun'] at h
  refine ⟨lexemes_unnamed, lexemes_unnamedSpread, rfl, hrun, hrun', ?_⟩
  cases h with
  | inSource _ h => exact h

end JackVM
