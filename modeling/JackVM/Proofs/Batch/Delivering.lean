import JackVM.Proofs.Batch.Running

/-!
# Dealing with all sources

The outputs of a run and what it counts depend on the outcomes of its sources
alone. A run writes its outputs in order, up to the first that is refused.
-/

namespace JackVM

instance : Add Summary where
  add s t := ⟨s.compiled + t.compiled, s.failed + t.failed, s.skipped + t.skipped⟩

theorem Summary.add_eq (s t : Summary) :
    s + t = ⟨s.compiled + t.compiled, s.failed + t.failed, s.skipped + t.skipped⟩ := rfl

theorem Summary.add_assoc (s t u : Summary) : s + t + u = s + (t + u) := by
  simp [add_eq, Nat.add_assoc]

theorem Summary.isSuccess_iff (s : Summary) : s.isSuccess ↔ s.failed = 0 ∧ s.skipped = 0 := by
  simp [isSuccess]

namespace Batch

open FileSystem (Output)

abbrev Outcome := Path × Except BatchError String

def Outcome.compiled (o : Outcome) : Bool := o.2.isOk

def Outcome.output? (outDir : Option Path) : Outcome → Option Output
  | (source, .ok code) => some ⟨target source outDir, code⟩
  | (_, .error _) => none

/-- The outcomes that a run comes to write: those in front of the first failure,
if it is to fail fast. -/
def reached (failFast : Bool) (outcomes : List Outcome) : List Outcome :=
  if failFast then outcomes.takeWhile Outcome.compiled else outcomes

def outputs (config : Config) (outcomes : List Outcome) : List Output :=
  (reached config.failFast outcomes).filterMap (Outcome.output? config.outDir)

def tally (failFast : Bool) : List Outcome → Summary
  | [] => {}
  | (_, .ok _) :: rest => { compiled := 1 } + tally failFast rest
  | (_, .error _) :: rest =>
    if failFast then { failed := 1, skipped := rest.length }
    else { failed := 1 } + tally failFast rest

variable {config : Config} {source : Path} {code : String} {e : BatchError} {rest : List Outcome}
  {w : World} {s : Summary} {files : List Path} {made : FileSystem}

-- ---------------------------------------------------------------------------
-- Outputs and counts
-- ---------------------------------------------------------------------------

@[simp] theorem compiled_ok : Outcome.compiled (source, .ok code) = true := rfl

@[simp] theorem compiled_error : Outcome.compiled (source, .error e) = false := rfl

theorem outputs_ok :
    outputs config ((source, .ok code) :: rest) =
      ⟨target source config.outDir, code⟩ :: outputs config rest := by
  cases hf : config.failFast <;>
    simp [outputs, reached, hf, List.takeWhile_cons, Outcome.output?]

theorem outputs_error :
    outputs config ((source, .error e) :: rest) =
      if config.failFast then [] else outputs config rest := by
  cases hf : config.failFast <;>
    simp [outputs, reached, hf, List.filterMap_cons, Outcome.output?]

theorem output?_eq_some {outDir : Option Path} {o : Outcome} {output : Output} :
    o.output? outDir = some output ↔
      ∃ p code, o = (p, .ok code) ∧ output = ⟨target p outDir, code⟩ := by
  obtain ⟨source, e | code⟩ := o
  · simp [Outcome.output?]
  · simp [Outcome.output?, eq_comm]

theorem mem_outputs {outcomes : List Outcome} {output : Output} :
    output ∈ outputs config outcomes ↔
      ∃ p code, (p, .ok code) ∈ reached config.failFast outcomes ∧
        output = ⟨target p config.outDir, code⟩ := by
  simp only [outputs, List.mem_filterMap, output?_eq_some]
  constructor
  · rintro ⟨o, ho, p, code, rfl, rfl⟩
    exact ⟨p, code, ho, rfl⟩
  · rintro ⟨p, code, ho, rfl⟩
    exact ⟨_, ho, p, code, rfl, rfl⟩

theorem length_outputs {outcomes : List Outcome} :
    (outputs config outcomes).length =
      ((reached config.failFast outcomes).filter Outcome.compiled).length := by
  have hsome : (fun o => (Outcome.output? config.outDir o).isSome) = Outcome.compiled := by
    funext o
    obtain ⟨source, e | code⟩ := o <;> rfl
  rw [outputs, List.length_filterMap_eq_countP, hsome, List.countP_eq_length_filter]

theorem reached_sublist (failFast : Bool) (outcomes : List Outcome) :
    (reached failFast outcomes).Sublist outcomes := by
  unfold reached
  split
  · exact List.takeWhile_sublist _
  · exact .refl _

theorem pairwise_reached {R : Path → Path → Prop} {fs : FileSystem} (failFast : Bool)
    (options : Options) (h : files.Pairwise R) :
    (reached failFast (outcomesIn fs options files)).Pairwise fun o r => R o.1 r.1 :=
  List.Pairwise.sublist (reached_sublist _ _) (List.pairwise_map.mpr h)

section
variable (failFast : Bool) (outcomes : List Outcome)

theorem total_tally : (tally failFast outcomes).total = outcomes.length := by
  induction outcomes with
  | nil => rfl
  | cons o rest ih =>
    obtain ⟨source, _ | code⟩ := o
    · unfold tally
      split
      · simp [Summary.total]; omega
      · simp [Summary.total, Summary.add_eq] at ih ⊢; omega
    · simp [tally, Summary.total, Summary.add_eq] at ih ⊢; omega

theorem skipped_tally :
    (tally failFast outcomes).skipped =
      if failFast then (outcomes.dropWhile Outcome.compiled).tail.length else 0 := by
  induction outcomes with
  | nil => simp [tally]
  | cons o rest ih =>
    obtain ⟨source, _ | code⟩ := o
    · cases failFast <;> simp_all [tally, Summary.add_eq]
    · simp [tally, Summary.add_eq, List.dropWhile_cons, ih]

theorem compiled_tally :
    (tally config.failFast outcomes).compiled = (outputs config outcomes).length := by
  induction outcomes with
  | nil => cases hf : config.failFast <;> simp [tally, outputs, reached, hf]
  | cons o rest ih =>
    obtain ⟨source, _ | code⟩ := o
    · rw [outputs_error, tally]
      split
      · rfl
      · simp [Summary.add_eq, ih]
    · simp [outputs_ok, tally, Summary.add_eq, ih]; omega

theorem isSuccess_tally :
    (tally failFast outcomes).isSuccess ↔ ∀ o ∈ outcomes, o.compiled := by
  induction outcomes with
  | nil => simp [tally, Summary.isSuccess]
  | cons o rest ih =>
    rw [Summary.isSuccess_iff] at ih ⊢
    obtain ⟨source, _ | code⟩ := o
    · unfold tally
      split <;> simp [Summary.add_eq]
    · simp [tally, Summary.add_eq, ih]

end

-- ---------------------------------------------------------------------------
-- Runs
-- ---------------------------------------------------------------------------

theorem runIn_writeOutput (p : Path) :
    runIn w (writeOutput p code) = match w.files.write p code with
      | .ok files => (.ok (), { w with files })
      | .error e => (.error (.outputNotWritten p e), w) := by
  rw [writeOutput, runIn_bind, runIn_write]
  cases w.files.write p code <;> rfl

def resultOf (s : Summary) : Option (Path × FileError) → Except BatchError Summary
  | none => .ok s
  | some (p, e) => .error (.outputNotWritten p e)

theorem deliver_run (config : Config) (outcomes : List Outcome) (hs : s.skipped = 0) :
    ∃ reports, runIn w (deliver config false outcomes s) =
      (resultOf (s + tally config.failFast outcomes)
          (w.files.writeAll (outputs config outcomes)).1,
        { w with files := (w.files.writeAll (outputs config outcomes)).2, reports }) := by
  induction outcomes generalizing s w with
  | nil => exact ⟨w.reports, by cases hf : config.failFast <;> simp [deliver, outputs, reached, hf,
      FileSystem.writeAll, resultOf, tally, Summary.add_eq]⟩
  | cons o rest ih =>
    obtain ⟨source, e | code⟩ := o
    · simp only [deliver, runIn_bind, runIn_report, outputs_error, tally]
      split
      · exact ⟨_, by simp [FileSystem.writeAll, resultOf, Summary.add_eq, hs]; rfl⟩
      · rw [← Summary.add_assoc]
        exact ih hs
    · simp only [deliver, Bool.false_eq_true, ↓reduceIte, runIn_bind, runIn_writeOutput, outputs_ok,
        tally, FileSystem.writeAll]
      cases w.files.write (target source config.outDir) code with
      | error e => exact ⟨w.reports, rfl⟩
      | ok files =>
        rw [← Summary.add_assoc]
        exact ih hs

theorem deliver_toStdout_run (config : Config) (outcomes : List Outcome) (hs : s.skipped = 0) :
    ∃ reports, runIn w (deliver config true outcomes s) =
      (.ok (s + tally config.failFast outcomes),
        { w with
          printed := w.printed ++ String.join ((outputs config outcomes).map Output.text)
          reports }) := by
  induction outcomes generalizing s w with
  | nil => exact ⟨w.reports, by cases hf : config.failFast <;> simp [deliver, outputs, reached, hf,
      tally, Summary.add_eq]⟩
  | cons o rest ih =>
    obtain ⟨source, e | code⟩ := o
    · simp only [deliver, runIn_bind, runIn_report, outputs_error, tally]
      split
      · exact ⟨_, by simp [Summary.add_eq, hs]; rfl⟩
      · rw [← Summary.add_assoc]
        exact ih hs
    · simp only [deliver, ↓reduceIte, runIn_bind, runIn_print, outputs_ok, tally, List.map_cons,
        String.join_cons, ← String.append_assoc]
      rw [← Summary.add_assoc]
      exact ih hs

theorem makeOutputDirectory_run (h : w.files.withOutputDirectory config.outDir = .ok made) :
    runIn w (makeOutputDirectory config) = (.ok (), { w with files := made }) := by
  unfold makeOutputDirectory
  cases hd : config.outDir with
  | none =>
    rw [hd] at h
    cases h
    rfl
  | some dir =>
    rw [hd] at h
    rw [runIn_bind, runIn_makeDirectories, show w.files.makeDirectories dir = .ok made from h]
    rfl

theorem makeOutputDirectory_refused {e : FileError}
    (h : w.files.withOutputDirectory config.outDir = .error e) :
    ∃ e, runIn w (makeOutputDirectory config) = (.error e, w) := by
  unfold makeOutputDirectory
  cases hd : config.outDir with
  | none =>
    rw [hd] at h
    cases h
  | some dir =>
    rw [hd] at h
    refine ⟨.directoryNotMade dir e, ?_⟩
    rw [runIn_bind, runIn_makeDirectories, show w.files.makeDirectories dir = .error e from h]
    rfl

/-- All sources are read before anything is written. -/
theorem runIn_outcomes (options : Options) :
    runIn w (liftM (files.mapM (outcome options) : StateM World (List Outcome))) =
      (.ok (outcomesIn w.files options files), w) :=
  congrArg (fun r : List Outcome × World => (Except.ok r.1, r.2)) (mapM_outcome_run files)

theorem compileFiles_run (h : w.files.withOutputDirectory config.outDir = .ok made) :
    runIn w (compileFiles files config false) =
      runIn { w with files := made }
        (deliver config false (outcomesIn made config.compile files) {}) := by
  simp only [compileFiles, Bool.not_false, ↓reduceIte, runIn_bind, makeOutputDirectory_run h,
    runIn_outcomes]

theorem compileFiles_refused (files : List Path) {e : FileError}
    (h : w.files.withOutputDirectory config.outDir = .error e) :
    ∃ e, runIn w (compileFiles files config false) = (.error e, w) := by
  obtain ⟨e, he⟩ := makeOutputDirectory_refused h
  refine ⟨e, ?_⟩
  simp only [compileFiles, Bool.not_false, ↓reduceIte, runIn_bind, he]

theorem withOutputDirectory_of_run {after : World}
    (h : runIn w (compileFiles files config false) = (.ok s, after)) :
    ∃ made, w.files.withOutputDirectory config.outDir = .ok made := by
  cases hmade : w.files.withOutputDirectory config.outDir with
  | ok made => exact ⟨made, rfl⟩
  | error e =>
    obtain ⟨e', hrefused⟩ := compileFiles_refused files hmade
    simp [hrefused] at h

theorem compileFiles_toStdout_run :
    runIn w (compileFiles files config true) =
      runIn w (deliver config true (outcomesIn w.files config.compile files) {}) := by
  simp only [compileFiles, Bool.not_true, Bool.false_eq_true, ↓reduceIte, runIn_bind,
    runIn_outcomes]

section
variable (hmade : w.files.withOutputDirectory config.outDir = .ok made)
include hmade

/-- A run writes its outputs in order, up to the first that is refused. -/
theorem compileFiles_delivered (files : List Path) :
    ∃ reports, runIn w (compileFiles files config false) =
      (resultOf (tally config.failFast (outcomesIn made config.compile files))
          (made.writeAll (outputs config (outcomesIn made config.compile files))).1,
        { w with
          files := (made.writeAll (outputs config (outcomesIn made config.compile files))).2
          reports }) := by
  obtain ⟨reports, hrun⟩ := deliver_run (w := { w with files := made }) config
    (outcomesIn made config.compile files) (s := {}) rfl
  refine ⟨reports, ?_⟩
  rw [compileFiles_run hmade, hrun]
  simp [Summary.add_eq]

theorem compileFiles_written (files : List Path) :
    made.Written (runIn w (compileFiles files config false)).2.files
      ((outputs config (outcomesIn made config.compile files)).takeWhile made.accepts) := by
  obtain ⟨reports, hrun⟩ := compileFiles_delivered hmade files
  rw [hrun]
  exact (FileSystem.writeAll_written _ _).1

theorem compileFiles_accepted
    (h : ∀ o ∈ outputs config (outcomesIn made config.compile files), made.accepts o) :
    ∃ reports, runIn w (compileFiles files config false) =
      (.ok (tally config.failFast (outcomesIn made config.compile files)),
        { w with
          files := (made.writeAll (outputs config (outcomesIn made config.compile files))).2
          reports }) := by
  obtain ⟨reports, hrun⟩ := compileFiles_delivered hmade files
  rw [(FileSystem.writeAll_accepted h).1] at hrun
  exact ⟨reports, hrun⟩

/-- A refused output is the last that a run tries, and what it ends with. -/
theorem compileFiles_refusedOutput {before rest : List Output}
    (houtputs : outputs config (outcomesIn made config.compile files) = before ++ rest)
    (h : ∃ o ∈ before, ¬made.accepts o) :
    ∃ front o later e, before = front ++ o :: later ∧
      made.Written (runIn w (compileFiles files config false)).2.files front ∧
      (runIn w (compileFiles files config false)).1 = .error (.outputNotWritten o.path e) := by
  obtain ⟨reports, hrun⟩ := compileFiles_delivered hmade files
  obtain ⟨front, o, later, e, hsplit, hwritten, hrefused⟩ := FileSystem.writeAll_refused rest h
  rw [houtputs, hrefused] at hrun
  exact ⟨front, o, later, e, hsplit, by rwa [hrun], by rw [hrun, resultOf]⟩

theorem compileFiles_ok :
    (runIn w (compileFiles files config false)).1 = .ok s ↔
      s = tally config.failFast (outcomesIn made config.compile files) ∧
        ∀ o ∈ outputs config (outcomesIn made config.compile files), made.accepts o := by
  by_cases hall : ∀ o ∈ outputs config (outcomesIn made config.compile files), made.accepts o
  · obtain ⟨reports, hrun⟩ := compileFiles_accepted hmade hall
    rw [hrun, Except.ok.injEq, eq_comm]
    exact (and_iff_left hall).symm
  · obtain ⟨_, _, _, _, -, -, hresult⟩ :=
      compileFiles_refusedOutput hmade (List.append_nil _).symm (by simpa using hall)
    simp [hresult, hall]

end

end Batch

end JackVM
