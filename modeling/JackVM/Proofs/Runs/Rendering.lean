import JackVM.Proofs.Runs.CutOff
import JackVM.Proofs.Runs.Relocation

/-!
# Code and its text

A compilation writes the same instructions whether a sink keeps them or takes
their lines. So what is in a sink without a limit, also after an error, is the
text of the code that has been collected by then.
-/

namespace JackVM

open Compile

theorem codeText_append (code more : List Instruction) :
    codeText (code ++ more) = codeText code ++ codeText more := by
  simp [codeText_eq, String.join_append]

theorem codeText_singleton (i : Instruction) : codeText [i] = i.line := by
  simp [codeText]

/-- A writer without a limit, whose sink holds the lines of the code. -/
structure Holds (w : CodeWriter) (code : Listing) : Prop where
  unlimited : w.sink.capacity = none
  flush : w.sink.flushFails = false
  bytes : w.sink.bytes = (codeText code.toList).toByteArray
  written : w.written = code.size

def rendering : Coupling CodeWriter Listing where
  Tokens := Eq
  Place := Eq
  Numbering o n o' n' := o = o' ∧ n = n'
  Label := Eq
  Out := Holds
  Stopped _ _ _ := False
  Later _ _ := True

theorem Holds.write {w : CodeWriter} {code : Listing} (h : Holds w code) (i : Instruction) :
    ∃ w', InstructionSink.write i w = .ok () w' ∧ Holds w' (code.push i) := by
  obtain ⟨hu, hf, hb, hw⟩ := h
  have hroom : w.sink.room i.line.toByteArray.size = i.line.toByteArray.size := by
    rw [ByteSink.room, hu]
  refine ⟨_, CodeWriter.write_fits hroom, hu, hf, ?_, by simp [hw]⟩
  simp [hb, codeText_append, codeText_singleton]

theorem Holds.empty : Holds {} #[] := ⟨rfl, rfl, rfl, rfl⟩

theorem Holds.forM {w : CodeWriter} {held : Listing} (h : Holds w held) (code : List Instruction) :
    ∃ w', code.forM CodeWriter.write w = .ok () w' ∧ Holds w' (held ++ code) := by
  induction code generalizing w held with
  | nil => exact ⟨w, rfl, by simpa using h⟩
  | cons i code ih =>
    obtain ⟨w', hw, h'⟩ := h.write i
    obtain ⟨last, hrun, hlast⟩ := ih h'
    exact ⟨last, (bind_run hw).trans hrun, by simpa using hlast⟩

namespace Coupling

instance : rendering.Lawful where
  heads h := h ▸ heads_self (fun _ => rfl) (fun _ => rfl) _
  place_total b := ⟨b, rfl⟩
  label_total b := ⟨b, rfl⟩
  draw := draw_same
  restart := restart_same
  write := by
    intro i j w code h h'
    obtain rfl := h.eq
    obtain ⟨w', hw, hh⟩ := Holds.write h' i
    rw [hw]
    exact .ok hh
  later_refl _ := trivial
  later_trans _ _ := trivial
  later_write _ _ := trivial
  stopped_later h _ := h

theorem rendering_flush : rendering.Matches Eq (onSink InstructionSink.flush)
    (onSink InstructionSink.flush) := by
  refine ⟨fun _ => trivial, ?_⟩
  rintro s ⟨tokens, context, code⟩ hs
  have hout : Holds s.out code := hs.out
  rw [flush_succeeds hout.flush]
  exact .ok rfl hs

theorem rendering_compileUnit (bound : Nat) :
    rendering.Matches Eq (compileUnit bound) (compileUnit bound) :=
  (matches_classDeclaration bound).then fun _ => rendering_flush

end Coupling

theorem located_rendering (source : String)
    {r : EStateM.Result (CompileError Nat) (CompileState CodeWriter) Unit}
    {q : EStateM.Result (CompileError Nat) (CompileState Listing) Unit}
    (h : rendering.Ran Eq r q) :
    (located source r).1 = (located source q).1 ∧
      Holds (located source r).2 (located source q).2 := by
  cases h with
  | ok _ inStep => exact ⟨rfl, inStep.out⟩
  | error h out =>
    cases h with
    | inSource cause h => exact ⟨by rw [located, located, show _ = _ from h], out⟩
    | inSink e => exact ⟨rfl, out⟩
  | stopped h => exact h.elim

/-- What a writer without a limit holds after a compilation, also after one that
failed, is the text of the instructions that are collected from the same source. -/
theorem compileInto_listing (options : Options) (source : String) :
    let written := compileInto ({} : CodeWriter) options source
    let collected := compileInto (#[] : Listing) options source
    written.1 = collected.1 ∧ Holds written.2 collected.2 := by
  intro written collected
  cases h : lexemes source with
  | error e =>
    have he {ω : Type} [InstructionSink ω] (out : ω) :
        compileInto out options source = (.error (e.locate source), out) := by
      unfold compileInto
      rw [h]
    simp [written, collected, he, Holds.empty]
  | ok found =>
    simp only [written, collected, compileInto_found _ options h]
    exact located_rendering source <| (Coupling.rendering_compileUnit found.length).ran _ _
      ⟨rfl, rfl, rfl, rfl, ⟨rfl, rfl⟩, Holds.empty⟩

theorem bytes_of_compile {options : Options} {source : String} {code : List Instruction}
    (h : compile options source = .ok code) :
    (compileInto ({} : CodeWriter) options source).2.sink.bytes = (codeText code).toByteArray := by
  obtain ⟨-, hh⟩ := compileInto_listing options source
  unfold compile at h
  split at h
  · next hc =>
    cases h
    rw [hh.bytes, hc]
  · nomatch h

end JackVM
