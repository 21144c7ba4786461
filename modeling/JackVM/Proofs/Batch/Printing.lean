import JackVM.Proofs.Batch.FileRuns

/-!
# Printing instead of writing

A run that prints puts on standard output, one after another, the texts that a
run that writes files writes. Outputs may replace each other, so the files that
are left do not tell what was written. A host that keeps a record does.
-/

namespace JackVM

open FileSystem (Output)

-- ---------------------------------------------------------------------------
-- Keeping a record
-- ---------------------------------------------------------------------------

abbrev Recording (m : Type → Type) := StateT (List Output) m

instance {m : Type → Type} [Monad m] [Host m] : Host (Recording m) where
  kindAt? p := StateT.lift (Host.kindAt? p)
  fileNamesAt p := StateT.lift (Host.fileNamesAt p)
  read p := StateT.lift (Host.read p)
  makeDirectories p := StateT.lift (Host.makeDirectories p)
  write p text record :=
    (fun r => (r, if r.isOk then record ++ [⟨p, text⟩] else record)) <$> Host.write p text
  print text := StateT.lift (Host.print text)
  report r := StateT.lift (Host.report r)
  stop := StateT.lift Host.stop

namespace Batch

section
variable {α β : Type} {w : World} {record : List Output}

def recordIn (w : World) (record : List Output) (x : Batch (Recording (StateM World)) α) :
    Except BatchError α × List Output × World :=
  let ((result, record), w) := StateT.run (StateT.run (ExceptT.run x) record) w
  (result, record, w)

@[simp] theorem recordIn_pure (a : α) : recordIn w record (pure a) = (.ok a, record, w) := rfl

theorem recordIn_bind (x : Batch (Recording (StateM World)) α)
    (f : α → Batch (Recording (StateM World)) β) :
    recordIn w record (x >>= f) = match recordIn w record x with
      | (.ok a, record, w) => recordIn w record (f a)
      | (.error e, record, w) => (.error e, record, w) := by
  unfold recordIn ExceptT.run StateT.run
  simp only [bind, ExceptT.bind, ExceptT.mk, StateT.bind, ExceptT.bindCont]
  cases x record w with
  | mk r w => obtain ⟨_ | _, _⟩ := r <;> rfl

theorem recordIn_report (r : Report) :
    recordIn w record (Host.report r) = (.ok (), record, { w with reports := r :: w.reports }) :=
  rfl

theorem recordIn_write (p : Path) (text : String) :
    recordIn w record (Host.write p text) = match w.files.write p text with
      | .ok files => (.ok (.ok ()), record ++ [⟨p, text⟩], { w with files })
      | .error e => (.ok (.error e), record, w) := by
  have h := run_change (w := w) (·.write p text)
  have hr : recordIn w record (Host.write p text) =
      let (r, after) := StateT.run (World.change (·.write p text)) w
      (.ok r, if r.isOk then record ++ [⟨p, text⟩] else record, after) := rfl
  rw [hr, h]
  cases w.files.write p text <;> rfl

end

-- ---------------------------------------------------------------------------
-- Steps that write nothing
-- ---------------------------------------------------------------------------

/-- The same steps on both hosts, and nothing is recorded. -/
def Unrecorded {α : Type} (x : Batch (Recording (StateM World)) α) (y : Batch (StateM World) α) :
    Prop :=
  ∀ w record, recordIn w record x = ((runIn w y).1, record, (runIn w y).2)

section
variable {α β : Type}

theorem Unrecorded.bind {x : Batch (Recording (StateM World)) α} {y : Batch (StateM World) α}
    {f : α → Batch (Recording (StateM World)) β} {g : α → Batch (StateM World) β}
    (h : Unrecorded x y) (hf : ∀ a, Unrecorded (f a) (g a)) : Unrecorded (x >>= f) (y >>= g) := by
  intro w record
  rw [recordIn_bind, runIn_bind, h]
  obtain ⟨_ | a, after⟩ := runIn w y
  · rfl
  · exact hf a after record

theorem unrecorded_pure (a : α) : Unrecorded (pure a) (pure a) := fun _ _ => rfl

theorem unrecorded_throw (e : BatchError) :
    Unrecorded (throw e : Batch (Recording (StateM World)) α) (throw e) := fun _ _ => rfl

theorem unrecorded_compileFile (options : Options) (p : Path) :
    Unrecorded (compileFile options p) (compileFile options p) := by
  unfold compileFile
  refine Unrecorded.bind (fun _ _ => rfl) fun r => ?_
  cases r with
  | error e => exact unrecorded_throw _
  | ok source =>
    dsimp only
    cases compileText options source with
    | error e =>
      dsimp only
      split
      · exact Unrecorded.bind (fun _ _ => rfl) fun _ => unrecorded_throw _
      · exact unrecorded_throw _
    | ok code => exact unrecorded_pure _

theorem unrecorded_makeOutputDirectory (config : Config) :
    Unrecorded (makeOutputDirectory config) (makeOutputDirectory config) := by
  unfold makeOutputDirectory
  cases config.outDir with
  | none => exact unrecorded_pure _
  | some dir =>
    refine Unrecorded.bind (fun _ _ => rfl) fun r => ?_
    cases r with
    | error e => exact unrecorded_throw _
    | ok _ => exact unrecorded_pure _

end

theorem mapM_outcome_recorded {w : World} {record : List Output} (options : Options)
    (files : List Path) :
    StateT.run (StateT.run (files.mapM (outcome options) : Recording (StateM World) _) record) w =
      ((outcomesIn w.files options files, record), w) := by
  induction files with
  | nil => rfl
  | cons p rest ih =>
    have hp : StateT.run (StateT.run (outcome options p : Recording (StateM World) _) record) w =
        (((p, outcomeIn w.files options p), record), w) := by
      have h := unrecorded_compileFile options p w record
      rw [compileFile_run] at h
      obtain ⟨hresult, hrest⟩ := Prod.mk.inj h
      obtain ⟨hrecord, hworld⟩ := Prod.mk.inj hrest
      rw [outcome, StateT.run_map, StateT.run_map]
      exact Prod.ext (Prod.ext (congrArg (p, ·) hresult) hrecord) hworld
    rw [List.mapM_cons, StateT.run_bind, run_bind, hp, StateT.run_bind, run_bind, ih]
    rfl

theorem unrecorded_outcomes (options : Options) (files : List Path) :
    Unrecorded (liftM (files.mapM (outcome options) : Recording (StateM World) (List Outcome)))
      (liftM (files.mapM (outcome options) : StateM World (List Outcome))) := by
  intro w record
  rw [runIn_outcomes]
  exact congrArg (fun r : (List Outcome × List Output) × World => (Except.ok r.1.1, r.1.2, r.2))
    (mapM_outcome_recorded options files)

-- ---------------------------------------------------------------------------
-- What is recorded and what is printed
-- ---------------------------------------------------------------------------

variable {config : Config} {w w' : World} {record : List Output} {s s' : Summary}
  {files : List Path} {made : FileSystem}

theorem recordIn_writeOutput (p : Path) (code : String) :
    recordIn w record (writeOutput p code) = match w.files.write p code with
      | .ok files => (.ok (), record ++ [⟨p, code⟩], { w with files })
      | .error e => (.error (.outputNotWritten p e), record, w) := by
  rw [writeOutput, recordIn_bind, recordIn_write]
  cases w.files.write p code <;> rfl

theorem outputs_nil : outputs config [] = [] := by
  cases hf : config.failFast <;> simp [outputs, reached, hf]

/-- Recording changes nothing of a run. Recorded are its outputs up to the first
that is refused. -/
theorem deliver_recorded (config : Config) (outcomes : List Outcome) :
    recordIn w record (deliver config false outcomes s) =
      ((runIn w (deliver config false outcomes s)).1,
        record ++ (outputs config outcomes).takeWhile w.files.accepts,
        (runIn w (deliver config false outcomes s)).2) := by
  induction outcomes generalizing w record s with
  | nil => simp [deliver, outputs_nil]
  | cons o rest ih =>
    obtain ⟨source, e | code⟩ := o
    · simp only [deliver, recordIn_bind, recordIn_report, runIn_bind, runIn_report, outputs_error]
      split
      · simp
      · exact ih
    · cases hw : w.files.write (target source config.outDir) code with
      | error e =>
        have ha : w.files.accepts ⟨target source config.outDir, code⟩ = false := by
          simp [FileSystem.accepts, hw, Except.isOk, Except.toBool]
        simp [deliver, recordIn_bind, recordIn_writeOutput, runIn_bind, runIn_writeOutput,
          outputs_ok, hw, ha]
      | ok files =>
        have ha : w.files.accepts ⟨target source config.outDir, code⟩ = true := by
          simp [FileSystem.accepts, hw, Except.isOk, Except.toBool]
        have hsame := (FileSystem.sameDirectories_write hw).accepts
        simp [deliver, recordIn_bind, recordIn_writeOutput, runIn_bind, runIn_writeOutput,
          outputs_ok, hw, ha, ih, hsame]

/-- A run that no output stops reports what a run that prints does. -/
theorem reports_deliver {outcomes : List Outcome} (hw : w.reports = w'.reports)
    (hs : (runIn w (deliver config false outcomes s)).1 = .ok s') :
    (runIn w (deliver config false outcomes s)).2.reports =
      (runIn w' (deliver config true outcomes s)).2.reports := by
  induction outcomes generalizing w w' s with
  | nil => exact hw
  | cons o rest ih =>
    obtain ⟨source, e | code⟩ := o
    · simp only [deliver, runIn_bind, runIn_report] at hs ⊢
      split
      · next hf => simp [hw]
      · next hf =>
        rw [if_neg hf] at hs
        exact ih (congrArg (_ :: ·) hw) hs
    · simp only [deliver, Bool.false_eq_true, ↓reduceIte, runIn_bind, runIn_writeOutput,
        runIn_print] at hs ⊢
      cases hwrite : w.files.write (target source config.outDir) code with
      | error e => simp [hwrite] at hs
      | ok files =>
        rw [hwrite] at hs
        exact ih hw hs

theorem compileFiles_recorded (hmade : w.files.withOutputDirectory config.outDir = .ok made)
    (files : List Path) :
    recordIn w [] (compileFiles files config false) =
      ((runIn w (compileFiles files config false)).1,
        (outputs config (outcomesIn made config.compile files)).takeWhile made.accepts,
        (runIn w (compileFiles files config false)).2) := by
  rw [compileFiles_run hmade]
  simp only [compileFiles, Bool.not_false, ↓reduceIte, recordIn_bind,
    unrecorded_makeOutputDirectory config w, makeOutputDirectory_run hmade,
    unrecorded_outcomes config.compile files _, runIn_outcomes, deliver_recorded, List.nil_append]

theorem exists_summary (hmade : w.files.withOutputDirectory config.outDir = .ok made)
    (hwrites : ∀ p e, (runIn w (compileFiles files config false)).1 ≠
      .error (.outputNotWritten p e)) :
    ∃ s, (runIn w (compileFiles files config false)).1 = .ok s := by
  obtain ⟨reports, hrun⟩ := compileFiles_delivered hmade files
  rw [hrun] at hwrites ⊢
  cases hresult : (made.writeAll (outputs config (outcomesIn made config.compile files))).1 with
  | none => exact ⟨_, rfl⟩
  | some refused =>
    rw [hresult] at hwrites
    exact absurd rfl (hwrites refused.1 refused.2)

/-- A run that prints puts out what the same run to files writes, counts and
reports the same and leaves the file system alone. -/
theorem compileFiles_prints (files : List Path) (config : Config) (w : World)
    (hfiles : ∀ p ∈ files, w.files.isFile p)
    (hmade : (w.files.withOutputDirectory config.outDir).isOk)
    (hwrites : ∀ p e, (runIn w (compileFiles files config false)).1 ≠
      .error (.outputNotWritten p e)) :
    ∃ (s : Summary) (written : List Output) (after : World),
      runIn w (compileFiles files config false) = (.ok s, after) ∧
      recordIn w [] (compileFiles files config false) = (.ok s, written, after) ∧
      -- The code of the sources, in their order.
      written = outputs config (outcomesIn w.files config.compile files) ∧
      runIn w (compileFiles files config true) =
        (.ok s, { w with
          printed := w.printed ++ String.join (written.map Output.text)
          reports := after.reports }) := by
  obtain ⟨made, hmade⟩ := FileSystem.isOk_iff.mp hmade
  have hout := outcomesIn_made (FileSystem.withOutputDirectory_made hmade) hfiles
  obtain ⟨s, hs⟩ := exists_summary hmade hwrites
  obtain ⟨hsum, haccepted⟩ := (compileFiles_ok hmade).mp hs
  have hrecord := compileFiles_recorded hmade files
  obtain ⟨reports, hprinted⟩ := deliver_toStdout_run (w := w) config
    (outcomesIn w.files config.compile files) (s := {}) rfl
  have hdelivered : (runIn { w with files := made }
      (deliver config false (outcomesIn made config.compile files) {})).1 = .ok s := by
    rw [← compileFiles_run hmade, hs]
  have hsame : ({ w with files := made } : World).reports = w.reports := rfl
  have hreports := reports_deliver hsame hdelivered
  rw [hs, List.takeWhile_eq_self_iff.mpr haccepted, hout] at hrecord
  rw [← compileFiles_run hmade, hout, hprinted] at hreports
  refine ⟨s, _, _, Prod.ext hs rfl, hrecord, rfl, ?_⟩
  rw [compileFiles_toStdout_run, hprinted, hreports, hsum, hout]
  simp [Summary.add_eq]

theorem compileFiles_prints_guarded :
    ∃ after : World,
      runIn { files := guardedFiles } (compileFiles guardedSources fastIntoOut false) =
        (.ok ⟨1, 1, 1⟩, after) ∧
      runIn { files := guardedFiles } (compileFiles guardedSources fastIntoOut true) =
        (.ok ⟨1, 1, 1⟩, {
          files := guardedFiles
          printed := "function A.f 0\npush constant 0\nreturn\n"
          reports := after.reports }) := by
  have hrun : (runIn { files := guardedFiles } (compileFiles guardedSources fastIntoOut false)).1 =
      .ok ⟨1, 1, 1⟩ := by
    decide +kernel
  have hout : outputs fastIntoOut (outcomesIn guardedFiles fastIntoOut.compile guardedSources) =
      [⟨⟨"out/A.vm"⟩, "function A.f 0\npush constant 0\nreturn\n"⟩] := by
    decide +kernel
  obtain ⟨s, written, after, hfiles, -, rfl, hprint⟩ :=
    compileFiles_prints guardedSources fastIntoOut { files := guardedFiles } (by decide +kernel)
      (by decide +kernel) (by rw [hrun]; nofun)
  obtain rfl := Except.ok.inj (hrun.symm.trans (congrArg Prod.fst hfiles))
  rw [hout] at hprint
  exact ⟨after, hfiles, hprint⟩

end Batch

end JackVM
