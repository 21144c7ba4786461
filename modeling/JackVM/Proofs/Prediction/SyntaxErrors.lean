import JackVM.Compile.Basic
import JackVM.Proofs.Prediction.Constructs

/-!
# Syntax errors

A syntax error is found at the first token that continues no class, or at the
end of a source that is only the beginning of one.
-/

namespace JackVM

namespace Prediction

open TokenStream

variable {us ts : List TokenKind}

/-- What comes before a misfit can be continued. -/
theorem viable_of_misfit (h : misfit classItems (us ++ ts) = some ts) : Viable us := by
  obtain ⟨after, ha, -⟩ := advanceAll_of_misfit h
  exact viable_of_advanceAll ha

/-- A misfit cannot come next, whatever may follow it. -/
theorem not_viable_of_misfit {t : TokenKind}
    (h : misfit classItems (us ++ t :: ts) = some (t :: ts)) :
    ¬Viable (us ++ [t]) := by
  obtain ⟨after, ha, hm⟩ := advanceAll_of_misfit h
  rintro ⟨more, hs⟩
  have hfits := sentence_fits hs
  rw [List.append_assoc, misfit_of_advanceAll ha, List.singleton_append, misfit,
    advance_of_misfit hm] at hfits
  cases hfits

theorem not_sentence_of_misfit (h : misfit classItems us = some []) : ¬Sentence us :=
  fun hs => Option.some_ne_none _ (h.symm.trans (sentence_fits hs))

theorem follows_compileUnit {ω : Type} [InstructionSink ω] (bound : Nat) :
    (within none).Follows ⟨bound, classItems⟩ (compileUnit (ω := ω) bound) fun _ => ⟨bound, []⟩ :=
  (follows_classDeclaration bound).bind fun _ => stays_onSink _ _

end Prediction

open Prediction TokenStream

variable {ω : Type} [InstructionSink ω]

theorem lexemes_error {source : String} {e : CompileError Nat} (h : lexemes source = .error e) :
    ∃ offset error, e = .inSource offset (.lexical error) := by
  unfold lexemes uncommented at h
  split at h <;> cases h
  exact ⟨_, _, rfl⟩

/-- A syntax error names the earliest token that continues no class, or the end of
a source whose tokens are no class although they could become one. Nothing before
that is malformed. -/
theorem compileInto_syntaxError {out : ω} {options : Options} {source : String}
    {position : Position} {expected : Expectation} {found : Option TokenKind}
    (h : (compileInto out options source).1 =
      .error (.inSource position (.unexpected expected found))) :
    ∃ (tokens : List Token) (more : List Lexeme),
      lexemes source = .ok (tokens.map .token ++ more) ∧ Viable (tokens.map Token.kind) ∧
      ((∃ t rest, more = .token t :: rest ∧ found = some t.kind ∧
          (Cause.unexpected expected found).message =
            "SyntaxError: expected " ++ expected.describe ++ ", found " ++ t.kind.describe ∧
          position = .ofOffset source t.span.start ∧
          ¬Viable (tokens.map Token.kind ++ [t.kind])) ∨
        (more = [] ∧ found = none ∧
          (Cause.unexpected expected found).message =
            "SyntaxError: expected " ++ expected.describe ++ ", found " ++ "end of input" ∧
          position = .ofOffset source source.utf8ByteSize ∧
          ¬Sentence (tokens.map Token.kind))) := by
  unfold compileInto at h
  cases hl : lexemes source with
  | error e =>
    obtain ⟨offset, error, rfl⟩ := lexemes_error hl
    rw [hl] at h
    cases h
  | ok all =>
    rw [hl] at h
    have hu := follows_compileUnit all.length ⟨⟨all, source.utf8ByteSize⟩, { options }, out⟩ nofun
      (Nat.le_refl _)
    simp only [EStateM.run] at h
    generalize compileUnit all.length ⟨⟨all, source.utf8ByteSize⟩, { options }, out⟩ = r at h hu
    cases hu with
    | unexpected leads foundAt stuck =>
      cases h
      obtain ⟨us, hr⟩ := leads
      obtain ⟨tokens, hsplit, rfl, hstop⟩ := hr.split
      rw [hr.kinds] at stuck
      refine ⟨tokens, _, congrArg Except.ok hsplit, viable_of_misfit stuck, ?_⟩
      cases foundAt with
      | token kind span rest stop =>
        exact .inl ⟨⟨kind, span⟩, rest, rfl, rfl, rfl, rfl, not_viable_of_misfit stuck⟩
      | stop stop =>
        have hend : misfit classItems (tokens.map Token.kind ++ []) = some [] := stuck
        rw [List.append_nil] at hend
        exact .inr ⟨rfl, rfl, rfl, congrArg _ hstop, not_sentence_of_misfit hend⟩
    | _ => cases h

def failure? {α : Type} : Except (CompileError Position) α → Option (CompileError Position)
  | .ok _ => none
  | .error e => some e

theorem eq_error_of_failure? {α : Type} {x : Except (CompileError Position) α}
    {e : CompileError Position} (h : failure? x = some e) : x = .error e := by
  cases x with
  | ok _ => cases h
  | error _ =>
    cases h
    rfl

def bareReturn : String := "class A { function int f() { return; } }"

/-- A function that has to return a value cannot return without one, but might
still have returned one. -/
theorem compileInto_syntaxError_bareReturn :
    (compileInto (#[] : Listing) {} bareReturn).1 =
      .error (.inSource ⟨1, 36⟩ (.unexpected .expression (some (.symbol ';')))) ∧
    ∃ (tokens : List Token) (t : Token) (rest : List Lexeme),
      lexemes bareReturn = .ok (tokens.map .token ++ .token t :: rest) ∧ t.kind = .symbol ';' ∧
      ⟨1, 36⟩ = Position.ofOffset bareReturn t.span.start ∧
      Viable (tokens.map Token.kind) ∧ ¬Viable (tokens.map Token.kind ++ [t.kind]) := by
  have hrun : (compileInto (#[] : Listing) {} bareReturn).1 =
      .error (.inSource ⟨1, 36⟩ (.unexpected .expression (some (.symbol ';')))) :=
    eq_error_of_failure? (by decide +kernel)
  obtain ⟨tokens, more, hl, hv, hfound | hend⟩ := compileInto_syntaxError hrun
  · obtain ⟨t, rest, rfl, hk, -, hp, hn⟩ := hfound
    exact ⟨hrun, tokens, t, rest, hl, (Option.some.inj hk).symm, hp, hv, hn⟩
  · cases hend.2.1

end JackVM
