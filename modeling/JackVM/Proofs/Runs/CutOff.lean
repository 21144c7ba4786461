import JackVM.Proofs.Runs.Relabelling

/-!
# A sink with little room

A compilation into a sink that takes only some bytes goes like one without a
limit, until a write does not fit. It ends there, and what the other still
writes comes after the bytes that the full sink holds.
-/

namespace JackVM

open Compile

-- ---------------------------------------------------------------------------
-- Bytes
-- ---------------------------------------------------------------------------

section
variable {whole more : ByteArray} {n : Nat}

theorem take_append (h : n ≤ whole.size) : (whole ++ more).extract 0 n = whole.extract 0 n := by
  rw [ByteArray.extract_append, Nat.sub_eq_zero_of_le h, Nat.zero_sub, ByteArray.extract_same,
    ByteArray.append_empty]

theorem append_take (h : whole.size ≤ n) :
    whole ++ more.extract 0 (n - whole.size) = (whole ++ more).extract 0 n :=
  calc whole ++ more.extract 0 (n - whole.size)
    _ = (whole ++ more).extract 0 whole.size ++
          (whole ++ more).extract (whole.size + 0) (whole.size + (n - whole.size)) := by
      rw [ByteArray.extract_append_eq_left rfl, ByteArray.extract_append_size_add]
    _ = (whole ++ more).extract 0 n := by
      rw [Nat.add_zero, Nat.add_sub_cancel' h,
        ← ByteArray.extract_eq_extract_append_extract _ (Nat.zero_le _) h]

end

-- ---------------------------------------------------------------------------
-- Two sinks
-- ---------------------------------------------------------------------------

/-- The first sink takes `n` bytes and holds what the second has got, which has
no limit. -/
structure SameBytes (n : Nat) (flushFails : Bool) (w v : CodeWriter) : Prop where
  limited : w.sink.capacity = some n
  flush : w.sink.flushFails = flushFails
  unlimited : v.sink.capacity = none
  flush' : v.sink.flushFails = false
  bytes : w.sink.bytes = v.sink.bytes
  fits : v.sink.bytes.size ≤ n

def cutAt (n : Nat) (flushFails : Bool) : Coupling CodeWriter CodeWriter where
  Tokens := Eq
  Place := Eq
  Numbering o k o' k' := o = o' ∧ k = k'
  Label := Eq
  Out := SameBytes n flushFails
  Stopped e w v := e = .inSink .full ∧ n < v.sink.bytes.size ∧
    w.sink.bytes = v.sink.bytes.extract 0 n ∧ v.sink.flushFails = false
  Later v v' := v'.sink.flushFails = v.sink.flushFails ∧
    ∃ more, v'.sink.bytes = v.sink.bytes ++ more

namespace CodeWriter

theorem write_fits {i : Instruction} {w : CodeWriter}
    (h : w.sink.room i.line.toByteArray.size = i.line.toByteArray.size) :
    InstructionSink.write i w =
      .ok () ⟨{ w.sink with bytes := w.sink.bytes ++ i.line.toByteArray }, w.written + 1⟩ := by
  show CodeWriter.write i w = _
  simp only [CodeWriter.write, ByteSink.write, h, ↓reduceIte]

theorem write_cut {i : Instruction} {w : CodeWriter}
    (h : w.sink.room i.line.toByteArray.size ≠ i.line.toByteArray.size) :
    InstructionSink.write i w = .error .full { w with sink := { w.sink with
      bytes := w.sink.bytes ++
        i.line.toByteArray.extract 0 (w.sink.room i.line.toByteArray.size) } } := by
  show CodeWriter.write i w = _
  simp only [CodeWriter.write, ByteSink.write, h, ↓reduceIte]

end CodeWriter

namespace Coupling

variable {n : Nat} {flushFails : Bool}

theorem writes_cutAt (i : Instruction) {w v : CodeWriter} (h : SameBytes n flushFails w v) :
    (cutAt n flushFails).Writes (InstructionSink.write i w) (InstructionSink.write i v) := by
  obtain ⟨hl, hf, hu, hf', hb, hn⟩ := h
  generalize hline : i.line.toByteArray = line
  have hroom : w.sink.room line.size = min line.size (n - v.sink.bytes.size) := by
    rw [ByteSink.room, hl, hb]
  have hall : v.sink.room line.size = line.size := by rw [ByteSink.room, hu]
  rw [CodeWriter.write_fits (w := v) (by rw [hline, hall])]
  by_cases h : w.sink.room line.size = line.size
  · rw [CodeWriter.write_fits (by rw [hline, h])]
    refine .ok ⟨hl, hf, hu, hf', by simp only [hb], ?_⟩
    simp only [ByteArray.size_append, hline]
    omega
  · rw [CodeWriter.write_cut (by rwa [hline]), hline, hroom]
    have hcut : min line.size (n - v.sink.bytes.size) = n - v.sink.bytes.size := by omega
    refine .stopped .full ⟨rfl, ?_, ?_, hf'⟩
    · simp only [endState, ByteArray.size_append]
      omega
    · simp only [endState, hcut, hb]
      exact append_take hn

theorem later_write_cutAt (i : Instruction) (v : CodeWriter) :
    (cutAt n flushFails).Later v (endState (InstructionSink.write i v)) := by
  by_cases h : v.sink.room i.line.toByteArray.size = i.line.toByteArray.size
  · rw [CodeWriter.write_fits h]
    exact ⟨rfl, _, rfl⟩
  · rw [CodeWriter.write_cut h]
    exact ⟨rfl, _, rfl⟩

instance : (cutAt n flushFails).Lawful where
  heads h := h ▸ heads_self (fun _ => rfl) (fun _ => rfl) _
  place_total b := ⟨b, rfl⟩
  label_total b := ⟨b, rfl⟩
  draw := draw_same
  restart := restart_same
  write h h' := h.eq ▸ writes_cutAt _ h'
  later_refl v := ⟨rfl, .empty, ByteArray.append_empty.symm⟩
  later_trans := by
    rintro a b c ⟨hf, more, h⟩ ⟨hf', more', h'⟩
    exact ⟨hf'.trans hf, more ++ more', by rw [h', h, ByteArray.append_assoc]⟩
  later_write := later_write_cutAt
  stopped_later := by
    rintro e w v v' ⟨rfl, hs, hb, hf⟩ ⟨hf', more, h⟩
    refine ⟨rfl, ?_, ?_, hf'.trans hf⟩
    · rw [h, ByteArray.size_append]
      omega
    · rw [h, hb, take_append (Nat.le_of_lt hs)]

end Coupling

-- ---------------------------------------------------------------------------
-- The whole compilation
-- ---------------------------------------------------------------------------

/-- How a compilation that gives `result` and writes `whole` ends, and what it
leaves, when the sink takes only `n` bytes. -/
def cutOff (n : Nat) (flushFails : Bool) (result : Except (CompileError Position) Unit)
    (whole : ByteArray) : Except (CompileError Position) Unit × ByteArray :=
  if whole.size ≤ n then
    (if flushFails then result.bind fun _ => .error (.inSink .flushFailed) else result, whole)
  else (.error (.inSink .full), whole.extract 0 n)

theorem flush_fails {s : CompileState CodeWriter} (h : s.out.sink.flushFails = true) :
    onSink InstructionSink.flush s = .error (.inSink .flushFailed) s := by
  obtain ⟨tokens, context, out⟩ := s
  replace h : out.sink.flushFails = true := h
  show onSink CodeWriter.flush _ = _
  simp only [onSink, CodeWriter.flush, ByteSink.flush, h, ↓reduceIte]

theorem flush_succeeds {s : CompileState CodeWriter} (h : s.out.sink.flushFails = false) :
    onSink InstructionSink.flush s = .ok () s := by
  obtain ⟨tokens, context, out⟩ := s
  replace h : out.sink.flushFails = false := h
  show onSink CodeWriter.flush _ = _
  simp only [onSink, CodeWriter.flush, ByteSink.flush, h, Bool.false_eq_true, ↓reduceIte]

def outcome (source : String) : EStateM.Result (CompileError Nat) (CompileState CodeWriter) Unit →
    Except (CompileError Position) Unit × ByteArray
  | .ok _ s => (.ok (), s.out.sink.bytes)
  | .error e s => (.error (e.locate source), s.out.sink.bytes)

theorem compileUnit_cutOff {n : Nat} {flushFails : Bool} {bound : Nat}
    {s t : CompileState CodeWriter} (h : (cutAt n flushFails).InStep s t) (source : String) :
    outcome source (compileUnit bound s) =
      cutOff n flushFails (outcome source (compileUnit bound t)).1
        (outcome source (compileUnit bound t)).2 := by
  have hr := (Coupling.matches_classDeclaration (C := cutAt n flushFails) bound).ran s t h
  show outcome source (EStateM.bind _ _ s) = cutOff n flushFails
    (outcome source (EStateM.bind _ _ t)).1 (outcome source (EStateM.bind _ _ t)).2
  unfold EStateM.bind
  generalize classDeclaration bound s = r, classDeclaration bound t = q at hr
  cases hr with
  | @ok _ _ s t _ inStep =>
    have ho : SameBytes n flushFails s.out t.out := inStep.out
    simp only [flush_succeeds ho.flush', outcome, cutOff, ho.fits, ↓reduceIte]
    cases flushFails with
    | true => rw [flush_fails ho.flush, ← ho.bytes]; rfl
    | false => rw [flush_succeeds ho.flush, ← ho.bytes]; rfl
  | @error e e' s t h out =>
    have ho : SameBytes n flushFails s.out t.out := out
    have he : e = e' := by
      cases h with
      | inSource cause h => rw [show _ = _ from h]
      | inSink e => rfl
    simp only [outcome, cutOff, ho.fits, ho.bytes, he, ↓reduceIte]
    cases flushFails <;> rfl
  | @stopped e s q h =>
    obtain ⟨rfl, hs, hb, hf⟩ := h
    replace hs : ¬(endState q).out.sink.bytes.size ≤ n := Nat.not_le_of_lt hs
    cases q with
    | ok u t =>
      dsimp only [endState] at hs hb hf
      simp only [flush_succeeds hf, outcome, cutOff, hs, ↓reduceIte, hb]
      rfl
    | error e t =>
      dsimp only [endState] at hs hb
      simp only [outcome, cutOff, hs, ↓reduceIte, hb]
      rfl

/-- A sink that takes `n` bytes ends up with the first `n` bytes that go into one
without a limit. If that is all, nothing else changes, otherwise the
compilation fails because the sink is full. An open comment is found before
anything is written. -/
theorem compileInto_cutOff (options : Options) (source : String) (n : Nat) (flushFails : Bool) :
    let whole := compileInto ({} : CodeWriter) options source
    let limited := compileInto ({ sink := { capacity := some n, flushFails } } : CodeWriter)
      options source
    (limited.1, limited.2.sink.bytes) = cutOff n flushFails whole.1 whole.2.sink.bytes ∧
      ((∃ found, lexemes source = .ok found) ∨
        whole.2.sink.bytes = .empty ∧ limited.2.sink.bytes = .empty) := by
  intro whole limited
  cases h : lexemes source with
  | error e =>
    have hw (w : CodeWriter) : compileInto w options source = (.error (e.locate source), w) := by
      unfold compileInto
      rw [h]
    rw [show whole = _ from hw _, show limited = _ from hw _]
    refine ⟨?_, .inr ⟨rfl, rfl⟩⟩
    simp only [cutOff, ByteArray.size_empty, Nat.zero_le, ↓reduceIte]
    cases flushFails <;> rfl
  | ok found =>
    have hw (w : CodeWriter) :
        ((compileInto w options source).1, (compileInto w options source).2.sink.bytes) =
          outcome source (compileUnit found.length
            ⟨⟨found, source.utf8ByteSize⟩, { options }, w⟩) := by
      unfold compileInto
      rw [h]
      dsimp only [EStateM.run]
      split <;> next hu => rw [hu]; rfl
    have hs : (cutAt n flushFails).InStep
        ⟨⟨found, source.utf8ByteSize⟩, { options }, ⟨⟨some n, flushFails, .empty⟩, 0⟩⟩
        ⟨⟨found, source.utf8ByteSize⟩, { options }, {}⟩ :=
      ⟨rfl, rfl, rfl, rfl, ⟨rfl, rfl⟩, rfl, rfl, rfl, rfl, rfl, Nat.zero_le n⟩
    refine ⟨?_, .inl ⟨found, rfl⟩⟩
    rw [hw, compileUnit_cutOff hs, ← hw]

end JackVM
