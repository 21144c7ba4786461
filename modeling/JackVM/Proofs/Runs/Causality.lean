import JackVM.Proofs.Prediction.SyntaxErrors
import JackVM.Proofs.Runs.Bounds
import JackVM.Proofs.Runs.Rendering

/-!
# What is written before a lexeme is looked at

Two sources that start with the same tokens are compiled alike until a lexeme is
looked at that differs. If that is no token in the first source, its compilation ends
there. What it has written by then the other has written as well, so no instruction
depends on what stands behind the tokens that were read for it.
-/

namespace JackVM

open Compile

-- ---------------------------------------------------------------------------
-- Streams that are the same up to an error
-- ---------------------------------------------------------------------------

/-- Tokens of the same kinds, up to the malformed lexeme of the first with this error. -/
inductive SameUntil (e : CompileError Nat) : List Lexeme → List Lexeme → Prop
  | token (kind : TokenKind) (x y : Span) {l m : List Lexeme} (h : SameUntil e l m) :
    SameUntil e (.token ⟨kind, x⟩ :: l) (.token ⟨kind, y⟩ :: m)
  | malformed {span : Span} {reason : LexicalError} (l m : List Lexeme)
    (h : e = .inSource span.start (.lexical reason)) :
    SameUntil e (.malformed span reason :: l) m

theorem sameUntil_append {tokens₁ tokens₂ : List Token} {span : Span} {reason : LexicalError}
    (h : tokens₁.map Token.kind = tokens₂.map Token.kind) (rest more : List Lexeme) :
    SameUntil (.inSource span.start (.lexical reason))
      (tokens₁.map .token ++ .malformed span reason :: rest) (tokens₂.map .token ++ more) := by
  induction tokens₁ generalizing tokens₂ with
  | nil => exact .malformed rest _ rfl
  | cons t tokens₁ ih =>
    obtain ⟨kind, x⟩ := t
    cases tokens₂ with
    | nil => nomatch h
    | cons u tokens₂ =>
      obtain ⟨_, y⟩ := u
      obtain ⟨rfl, hrest⟩ := List.cons.inj h
      exact .token kind x y (ih hrest)

theorem SameUntil.not_tokens {e : CompileError Nat} {tokens : List Token} {m : List Lexeme} :
    ¬SameUntil e (tokens.map .token) m := by
  intro h
  induction tokens generalizing m with
  | nil => nomatch h
  | cons t tokens ih =>
    cases h with
    | token _ _ _ h => exact ih h

/-- Two compilations of streams that are the same up to the error `e`, with which the
first stops while the other writes on. -/
def upTo (e : CompileError Nat) : Coupling Listing Listing where
  Tokens s t := SameUntil e s.lexemes t.lexemes
  Place _ _ := True
  Numbering o n o' n' := o = o' ∧ n = n'
  Label := Eq
  Out := Eq
  Stopped e' code code' := e' = e ∧ code.toList <+: code'.toList
  Later code code' := code.toList <+: code'.toList

namespace Coupling

variable {e : CompileError Nat}

theorem heads_upTo {s t : TokenStream} (h : (upTo e).Tokens s t) : (upTo e).Heads s t := by
  obtain ⟨lexemes, stop⟩ := s
  obtain ⟨lexemes', stop'⟩ := t
  cases h with
  | token kind x y h => exact .token kind trivial h
  | malformed l m h =>
    refine .alone _ fun code code' (hc : code = code') => ?_
    exact ⟨h.symm, hc ▸ List.prefix_refl _⟩

instance : (upTo e).Lawful where
  heads := heads_upTo
  place_total b := ⟨b, trivial⟩
  label_total b := ⟨b, rfl⟩
  draw := draw_same
  restart := restart_same
  write := by
    intro i j code code' h h'
    obtain rfl := h.eq
    obtain rfl : code = code' := h'
    exact writes_self (fun _ => rfl) _
  later_refl _ := List.prefix_refl _
  later_trans := List.IsPrefix.trans
  later_write i code := ⟨[i], (Array.toList_push ..).symm⟩
  stopped_later := by
    rintro e' code a b ⟨he, h⟩ h'
    exact ⟨he, h.trans h'⟩

end Coupling

-- ---------------------------------------------------------------------------
-- Two sources
-- ---------------------------------------------------------------------------

theorem compileUnit_listing (bound : Nat) :
    compileUnit (ω := Listing) bound = classDeclaration bound := by
  funext s
  show EStateM.bind _ _ s = _
  unfold EStateM.bind
  cases classDeclaration bound s with
  | ok u s' => exact flush_run s'
  | error e s' => rfl

/-- How a compilation that meets the error `e` ends beside one that may not: it ends
with `e`, or both end with one error before. -/
inductive EndsUpTo (e : CompileError Nat) (source₁ source₂ : String) :
    Except (CompileError Position) Unit × Listing → Except (CompileError Position) Unit × Listing →
    Prop
  | stopped {code code' : Listing} (result : Except (CompileError Position) Unit)
    (h : code.toList <+: code'.toList) :
    EndsUpTo e source₁ source₂ (.error (e.locate source₁), code) (result, code')
  | error {e₁ e₂ : CompileError Position} (code : Listing)
    (h : SameOutcome (α := Unit) (fun _ _ => True) (.error e₁) (.error e₂)) :
    EndsUpTo e source₁ source₂ (.error e₁, code) (.error e₂, code)

variable {e : CompileError Nat} {source₁ source₂ : String} {found₁ found₂ : List Lexeme}

theorem classDeclaration_upTo (h : SameUntil e found₁ found₂) (stop₁ stop₂ : Nat)
    (options : Options) (bound : Nat) (source₁ source₂ : String) :
    EndsUpTo e source₁ source₂
      (located source₁ (classDeclaration bound ⟨⟨found₁, stop₁⟩, { options }, (#[] : Listing)⟩))
      (located source₂
        (classDeclaration bound ⟨⟨found₂, stop₂⟩, { options }, (#[] : Listing)⟩)) := by
  have hr := (Coupling.matches_classDeclaration (C := upTo e) bound).ran
    ⟨⟨found₁, stop₁⟩, { options }, #[]⟩ ⟨⟨found₂, stop₂⟩, { options }, #[]⟩
    ⟨h, rfl, rfl, rfl, ⟨rfl, rfl⟩, rfl⟩
  cases h₁ : classDeclaration bound ⟨⟨found₁, stop₁⟩, { options }, (#[] : Listing)⟩ with
  | ok u s =>
    -- A class that is read to its end has no malformed lexeme in it.
    obtain ⟨c, ⟨stop, hread⟩, -, -⟩ := classDeclaration_ok h₁
    obtain ⟨tokens, rfl, -⟩ := hread.to_end
    exact (h.not_tokens).elim
  | error e₁ s =>
    rw [h₁] at hr
    generalize classDeclaration (ω := Listing) bound _ = r at hr
    cases hr with
    | @error _ e₂ _ t he ho =>
      have hout : s.out = t.out := ho
      rw [located, located, hout]
      cases he with
      | inSource cause _ => exact .error _ (.inSource cause trivial)
      | inSink e => exact .error _ (.inSink e)
    | stopped hs =>
      obtain ⟨rfl, hprefix⟩ := hs
      cases r with
      | ok u t => exact .stopped _ hprefix
      | error e₂ t => exact .stopped _ hprefix

theorem compileInto_bound {source : String} {found : List Lexeme} (h : lexemes source = .ok found)
    {bound : Nat} (hb : found.length ≤ bound) (options : Options) :
    compileInto (#[] : Listing) options source = located source
      (classDeclaration bound ⟨⟨found, source.utf8ByteSize⟩, { options }, (#[] : Listing)⟩) := by
  rw [compileInto_found _ options h, ← compileUnit_listing]
  exact congrArg (located source) (compileUnit_bound (Nat.le_refl _) hb)

theorem compileInto_upTo (h₁ : lexemes source₁ = .ok found₁) (h₂ : lexemes source₂ = .ok found₂)
    (h : SameUntil e found₁ found₂) (options : Options) :
    EndsUpTo e source₁ source₂ (compileInto (#[] : Listing) options source₁)
      (compileInto (#[] : Listing) options source₂) := by
  rw [compileInto_bound h₁ (Nat.le_max_left _ found₂.length),
    compileInto_bound h₂ (Nat.le_max_right found₁.length _)]
  exact classDeclaration_upTo h _ _ options _ source₁ source₂

/-- Where two sources start with the same tokens and the first goes on with a lexeme
that is none, the first is compiled to whole lines that the second is compiled to as
well, maybe with more behind them. It ends with that lexeme, or before it has been
looked at; then both end with the same error and the same lines. -/
theorem compileInto_causal (options : Options) {source₁ source₂ : String}
    {tokens₁ tokens₂ : List Token} {span : Span} {reason : LexicalError} {rest more : List Lexeme}
    (h₁ : lexemes source₁ = .ok (tokens₁.map .token ++ .malformed span reason :: rest))
    (h₂ : lexemes source₂ = .ok (tokens₂.map .token ++ more))
    (hk : tokens₁.map Token.kind = tokens₂.map Token.kind) :
    let first := compileInto ({} : CodeWriter) options source₁
    let second := compileInto ({} : CodeWriter) options source₂
    ∃ code later : List Instruction,
      first.2.sink.bytes = (codeText code).toByteArray ∧
      second.2.sink.bytes = first.2.sink.bytes ++ (codeText later).toByteArray ∧
      (first.1 = .error (.inSource (.ofOffset source₁ span.start) (.lexical reason)) ∨
        later = [] ∧ (∃ e, first.1 = .error e) ∧
          SameOutcome (fun _ _ => True) first.1 second.1) := by
  intro first second
  obtain ⟨hr₁, hb₁⟩ := compileInto_listing options source₁
  obtain ⟨hr₂, hb₂⟩ := compileInto_listing options source₂
  have hends := compileInto_upTo h₁ h₂ (sameUntil_append hk rest more) options
  replace hb₁ := hb₁.bytes
  replace hb₂ := hb₂.bytes
  change first.1 = _ at hr₁
  change second.1 = _ at hr₂
  change first.2.sink.bytes = _ at hb₁
  change second.2.sink.bytes = _ at hb₂
  rw [hr₁, hr₂, hb₁, hb₂]
  generalize compileInto (#[] : Listing) options source₁ = x,
    compileInto (#[] : Listing) options source₂ = y at hends
  cases hends with
  | stopped result hprefix =>
    obtain ⟨later, hl⟩ := hprefix
    exact ⟨_, later, rfl, by rw [← hl, codeText_append, String.toByteArray_append], .inl rfl⟩
  | error code h => exact ⟨_, [], rfl, by simp [codeText], .inr ⟨rfl, ⟨_, rfl⟩, h⟩⟩

def overflowing : String := "class A { function void f() { do g(); 32768 } }"

def returning : String := "class A { function void f() { do g(); return; } }"

def callTokens : List Token :=
  [⟨.keyword .classWord, ⟨0, 5⟩⟩, ⟨.identifier "A", ⟨6, 7⟩⟩, ⟨.symbol '\x7b', ⟨8, 9⟩⟩,
    ⟨.keyword .functionWord, ⟨10, 18⟩⟩, ⟨.keyword .voidWord, ⟨19, 23⟩⟩,
    ⟨.identifier "f", ⟨24, 25⟩⟩, ⟨.symbol '(', ⟨25, 26⟩⟩, ⟨.symbol ')', ⟨26, 27⟩⟩,
    ⟨.symbol '\x7b', ⟨28, 29⟩⟩, ⟨.keyword .doWord, ⟨30, 32⟩⟩, ⟨.identifier "g", ⟨33, 34⟩⟩,
    ⟨.symbol '(', ⟨34, 35⟩⟩, ⟨.symbol ')', ⟨35, 36⟩⟩, ⟨.symbol ';', ⟨36, 37⟩⟩]

theorem lexemes_overflowing : lexemes overflowing = .ok (callTokens.map .token ++
    .malformed ⟨38, 43⟩ (.integerRange "32768") ::
      [.token ⟨.symbol '\x7d', ⟨44, 45⟩⟩, .token ⟨.symbol '\x7d', ⟨46, 47⟩⟩]) := by
  refine lexemes_ok.mpr ⟨overflowing.toList, ?_, ?_⟩
  · rw [overflowing, String.toList_ofList]
    rfl
  · rw [overflowing, String.toList_ofList]
    decide +kernel

theorem lexemes_returning : lexemes returning = .ok (callTokens.map .token ++
    [.token ⟨.keyword .returnWord, ⟨38, 44⟩⟩, .token ⟨.symbol ';', ⟨44, 45⟩⟩,
      .token ⟨.symbol '\x7d', ⟨46, 47⟩⟩, .token ⟨.symbol '\x7d', ⟨48, 49⟩⟩]) := by
  refine lexemes_ok.mpr ⟨returning.toList, ?_, ?_⟩
  · rw [returning, String.toList_ofList]
    rfl
  · rw [returning, String.toList_ofList]
    decide +kernel

/-- The call is written before the number behind it is looked at, and is written again
where a statement stands there. -/
theorem compileInto_causal_overflowing :
    lexemes overflowing = .ok (callTokens.map .token ++
      .malformed ⟨38, 43⟩ (.integerRange "32768") ::
        [.token ⟨.symbol '\x7d', ⟨44, 45⟩⟩, .token ⟨.symbol '\x7d', ⟨46, 47⟩⟩]) ∧
    lexemes returning = .ok (callTokens.map .token ++
      [.token ⟨.keyword .returnWord, ⟨38, 44⟩⟩, .token ⟨.symbol ';', ⟨44, 45⟩⟩,
        .token ⟨.symbol '\x7d', ⟨46, 47⟩⟩, .token ⟨.symbol '\x7d', ⟨48, 49⟩⟩]) ∧
    (compileInto ({} : CodeWriter) {} overflowing).1 =
      .error (.inSource ⟨1, 39⟩ (.lexical (.integerRange "32768"))) ∧
    (compileInto ({} : CodeWriter) {} overflowing).2.sink.bytes =
      "function A.f 0\npush pointer 0\ncall A.g 1\npop temp 0\n".toByteArray ∧
    ∃ later, (compileInto ({} : CodeWriter) {} returning).2.sink.bytes =
      "function A.f 0\npush pointer 0\ncall A.g 1\npop temp 0\n".toByteArray ++
        (codeText later).toByteArray := by
  have hrun : (compileInto ({} : CodeWriter) {} overflowing).1 =
      .error (.inSource ⟨1, 39⟩ (.lexical (.integerRange "32768"))) :=
    eq_error_of_failure? (by decide +kernel)
  have hbytes : (compileInto ({} : CodeWriter) {} overflowing).2.sink.bytes =
      "function A.f 0\npush pointer 0\ncall A.g 1\npop temp 0\n".toByteArray := by
    decide +kernel
  obtain ⟨code, later, -, hlater, -⟩ :=
    compileInto_causal {} lexemes_overflowing lexemes_returning rfl
  exact ⟨lexemes_overflowing, lexemes_returning, hrun, hbytes, later, hbytes ▸ hlater⟩

end JackVM
