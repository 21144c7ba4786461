import JackVM.Proofs.Batch.Stopping

/-!
# The exit code

A run succeeds if every source compiles and, unless the code is printed, every
output is accepted. The program succeeds if it comes to such a run. What keeps it
from one has no effect but a report.
-/

namespace JackVM.Batch

open FileSystem (Output)

variable {reader : String → Option Config} {streams : Streams} {config : Config} {w : World}
  {files : List Path} {made : FileSystem} {l : CommandLine} {env : Environment}

-- ---------------------------------------------------------------------------
-- Runs
-- ---------------------------------------------------------------------------

theorem mem_outcomesIn {fs : FileSystem} {options : Options} {p : Path}
    {r : Except BatchError String} :
    (p, r) ∈ outcomesIn fs options files ↔ p ∈ files ∧ outcomeIn fs options p = r := by
  simp only [outcomesIn, List.mem_map, Prod.mk.injEq]
  constructor
  · rintro ⟨q, hq, rfl, hr⟩
    exact ⟨hq, hr⟩
  · rintro ⟨hp, hr⟩
    exact ⟨p, hp, rfl, hr⟩

theorem compiled_outcomesIn {fs : FileSystem} {options : Options} :
    (∀ o ∈ outcomesIn fs options files, Outcome.compiled o) ↔
      ∀ p ∈ files, ∃ code, outcomeIn fs options p = .ok code := by
  simp only [outcomesIn, List.forall_mem_map, Outcome.compiled, FileSystem.isOk_iff]

theorem reached_of_compiled {outcomes : List Outcome} (failFast : Bool)
    (h : ∀ o ∈ outcomes, Outcome.compiled o) : reached failFast outcomes = outcomes := by
  unfold reached
  split
  · exact List.takeWhile_eq_self_iff.mpr h
  · rfl

/-- A run that writes files succeeds if the directory for outputs can be made,
every source compiles and every output is accepted. -/
theorem compileFiles_isSuccess :
    (∃ s, (runIn w (compileFiles files config false)).1 = .ok s ∧ s.isSuccess) ↔
      ∃ made, w.files.withOutputDirectory config.outDir = .ok made ∧
        ∀ p ∈ files, ∃ code, outcomeIn made config.compile p = .ok code ∧
          (made.write (target p config.outDir) code).isOk := by
  constructor
  · rintro ⟨s, hs, hsuccess⟩
    obtain ⟨made, hmade⟩ := withOutputDirectory_of_run (Prod.ext hs rfl)
    obtain ⟨rfl, haccepted⟩ := (compileFiles_ok hmade).mp hs
    have hall := (isSuccess_tally _ _).mp hsuccess
    refine ⟨made, hmade, fun p hp => ?_⟩
    obtain ⟨code, hcode⟩ := compiled_outcomesIn.mp hall p hp
    have hoc : (p, .ok code) ∈ outcomesIn made config.compile files :=
      mem_outcomesIn.mpr ⟨hp, hcode⟩
    rw [← reached_of_compiled config.failFast hall] at hoc
    exact ⟨code, hcode,
      haccepted ⟨target p config.outDir, code⟩ (mem_outputs.mpr ⟨p, code, hoc, rfl⟩)⟩
  · rintro ⟨made, hmade, hall⟩
    have hcompiled : ∀ o ∈ outcomesIn made config.compile files, Outcome.compiled o :=
      compiled_outcomesIn.mpr fun p hp => (hall p hp).imp fun _ h => h.1
    refine ⟨_, (compileFiles_ok hmade).mpr ⟨rfl, fun o ho => ?_⟩,
      (isSuccess_tally _ _).mpr hcompiled⟩
    obtain ⟨p, code, hp, rfl⟩ := mem_outputs.mp ho
    rw [reached_of_compiled _ hcompiled, mem_outcomesIn] at hp
    obtain ⟨code', hcode, hwrite⟩ := hall p hp.1
    obtain rfl := Except.ok.inj (hcode.symm.trans hp.2)
    exact hwrite

theorem compileFiles_toStdout_isSuccess :
    (∃ s, (runIn w (compileFiles files config true)).1 = .ok s ∧ s.isSuccess) ↔
      ∀ p ∈ files, ∃ code, outcomeIn w.files config.compile p = .ok code := by
  obtain ⟨reports, hrun⟩ := deliver_toStdout_run (w := w) config
    (outcomesIn w.files config.compile files) (s := {}) rfl
  rw [compileFiles_toStdout_run, hrun, ← compiled_outcomesIn,
    ← isSuccess_tally config.failFast (outcomesIn w.files config.compile files)]
  simp [Summary.add_eq]

-- ---------------------------------------------------------------------------
-- Before a run
-- ---------------------------------------------------------------------------

/-- The configuration does not load, an input cannot be read or there is no source. -/
def Unready (reader : String → Option Config) (fs : FileSystem) (l : CommandLine)
    (env : Environment) : Prop :=
  (∃ e, configIn reader fs l env = .error e) ∨ (∃ input ∈ l.inputs, ¬Readable fs input) ∨
    l.inputs.flatMap (sourcesOf fs) = []

theorem prepare_unready (h : Unready reader w.files l env) :
    ∃ e, runIn w (prepare reader l env) = (.error e, w) := by
  rw [prepare, runIn_bind, load_run]
  cases hconfig : configIn reader w.files l env with
  | error e => exact ⟨e, rfl⟩
  | ok config =>
    simp only [runIn_bind]
    by_cases hinputs : ∃ input ∈ l.inputs, ¬Readable w.files input
    · obtain ⟨e, he⟩ := sources_refused hinputs
      exact ⟨e, by rw [he]⟩
    · have hnone : l.inputs.flatMap (sourcesOf w.files) = [] := by
        obtain ⟨e, he⟩ | h | h := h
        · exact absurd (hconfig.symm.trans he) nofun
        · exact absurd h hinputs
        · exact h
      exact ⟨.noSources, by simp [sources_run (by simpa using hinputs), hnone]⟩

/-- A run comes to its sources, with `made` as its file system. -/
structure Begins (reader : String → Option Config) (w : World) (l : CommandLine)
    (env : Environment) (config : Config) (made : FileSystem) : Prop where
  loaded : configIn reader w.files l env = .ok config
  inputs : ∀ input ∈ l.inputs, Readable w.files input
  found : l.inputs.flatMap (sourcesOf w.files) ≠ []
  furnished : Furnished w.files config l.toStdout made

theorem prepare_run (hconfig : configIn reader w.files l env = .ok config)
    (hinputs : ∀ input ∈ l.inputs, Readable w.files input)
    (hsources : l.inputs.flatMap (sourcesOf w.files) ≠ []) :
    runIn w (prepare reader l env) =
      (.ok (config, l.inputs.flatMap (sourcesOf w.files)), w) := by
  rw [prepare, runIn_bind, load_run, hconfig]
  simp only [runIn_bind, sources_run hinputs]
  simp [hsources]

theorem not_unready (h : ¬Unready reader w.files l env) :
    ∃ config, configIn reader w.files l env = .ok config ∧
      (∀ input ∈ l.inputs, Readable w.files input) ∧ l.inputs.flatMap (sourcesOf w.files) ≠ [] := by
  simp only [Unready, not_or, not_exists, not_and, Decidable.not_not] at h
  obtain ⟨hconfig, hinputs, hsources⟩ := h
  cases hc : configIn reader w.files l env with
  | error e => exact absurd hc (hconfig e)
  | ok config => exact ⟨config, rfl, hinputs, hsources⟩

-- ---------------------------------------------------------------------------
-- Runs of a command line
-- ---------------------------------------------------------------------------

/-- All that a command line asks for can be done. -/
structure Succeeds (reader : String → Option Config) (w : World) (l : CommandLine)
    (env : Environment) (config : Config) (made : FileSystem) : Prop
    extends Begins reader w l env config made where
  sources : ∀ p ∈ l.inputs.flatMap (sourcesOf w.files), ∃ code,
    outcomeIn made config.compile p = .ok code ∧
      (l.toStdout = false → (made.write (target p config.outDir) code).isOk)

theorem runCommandLine_unready (h : Unready reader w.files l env) :
    ∃ e, runIn w (runCommandLine reader l env) = (.error e, w) := by
  obtain ⟨e, he⟩ := prepare_unready h
  exact ⟨e, by rw [runCommandLine, runIn_bind, he]⟩

theorem runCommandLine_run (hconfig : configIn reader w.files l env = .ok config)
    (hinputs : ∀ input ∈ l.inputs, Readable w.files input)
    (hsources : l.inputs.flatMap (sourcesOf w.files) ≠ []) :
    runIn w (runCommandLine reader l env) =
      runIn w (compileFiles (l.inputs.flatMap (sourcesOf w.files)) config l.toStdout) := by
  rw [runCommandLine, runIn_bind, prepare_run hconfig hinputs hsources]

theorem succeeds_iff (hconfig : configIn reader w.files l env = .ok config)
    (hinputs : ∀ input ∈ l.inputs, Readable w.files input)
    (hsources : l.inputs.flatMap (sourcesOf w.files) ≠ []) :
    (∃ s, (runIn w (runCommandLine reader l env)).1 = .ok s ∧ s.isSuccess) ↔
      ∃ made, Succeeds reader w l env config made := by
  rw [runCommandLine_run hconfig hinputs hsources]
  cases hout : l.toStdout
  · rw [compileFiles_isSuccess]
    refine exists_congr fun made => ⟨fun ⟨hmade, hall⟩ => ?_, fun h => ?_⟩
    · exact ⟨⟨hconfig, hinputs, hsources, by simpa [Furnished, hout] using hmade⟩,
        by simpa [hout] using hall⟩
    · exact ⟨by simpa [Furnished, hout] using h.furnished, by simpa [hout] using h.sources⟩
  · rw [compileFiles_toStdout_isSuccess]
    constructor
    · intro hall
      exact ⟨w.files, ⟨hconfig, hinputs, hsources, by simp [Furnished, hout]⟩,
        by simpa [hout] using hall⟩
    · rintro ⟨made, h⟩
      obtain rfl : made = w.files := by simpa [Furnished, hout] using h.furnished
      simpa [hout] using h.sources

theorem runCommandLine_isSuccess :
    (∃ s, (runIn w (runCommandLine reader l env)).1 = .ok s ∧ s.isSuccess) ↔
      ∃ config made, Succeeds reader w l env config made := by
  constructor
  · rintro ⟨s, hs, hss⟩
    have hready : ¬Unready reader w.files l env := by
      intro hunready
      obtain ⟨e, he⟩ := runCommandLine_unready hunready
      simp [he] at hs
    obtain ⟨config, hconfig, hinputs, hsources⟩ := not_unready hready
    exact ⟨config, (succeeds_iff hconfig hinputs hsources).mp ⟨s, hs, hss⟩⟩
  · rintro ⟨config, made, h⟩
    exact (succeeds_iff h.loaded h.inputs h.found).mpr ⟨made, h⟩

theorem execute_of_error {e : BatchError} {w' : World}
    (h : runIn w (runCommandLine reader l env) = (.error e, w')) :
    (StateT.run (execute reader l env : StateM World UInt32) w).1 = 1 := by
  rw [execute, run_bind, show StateT.run (ExceptT.run (runCommandLine reader l env :
    Batch (StateM World) Summary)) w = (.error e, w') from h]
  rfl

theorem execute_of_ok {s : Summary} {w' : World}
    (h : runIn w (runCommandLine reader l env) = (.ok s, w')) :
    (StateT.run (execute reader l env : StateM World UInt32) w).1 =
      if s.isSuccess then 0 else 1 := by
  rw [execute, run_bind, show StateT.run (ExceptT.run (runCommandLine reader l env :
    Batch (StateM World) Summary)) w = (.ok s, w') from h]
  dsimp only
  split <;> rfl

theorem execute_run {code : UInt32}
    (hcode : (StateT.run (execute reader l env : StateM World UInt32) w).1 = code) :
    (code = 0 ∨ code = 1) ∧ (code = 0 ↔ ∃ config made, Succeeds reader w l env config made) := by
  rw [← runCommandLine_isSuccess, ← hcode]
  cases hrun : runIn w (runCommandLine reader l env) with
  | mk result w' =>
    cases result with
    | error e => simp [execute_of_error hrun]
    | ok s =>
      rw [execute_of_ok hrun]
      cases hs : s.isSuccess <;> simp [hs]

-- ---------------------------------------------------------------------------
-- The program
-- ---------------------------------------------------------------------------

/-- The exit code of the program in a world with these streams, and the world that
it leaves. -/
def exitIn (reader : String → Option Config) (streams : Streams) (l : CommandLine)
    (env : Environment) (w : World) : UInt32 × World :=
  let run := Stoppable.runIn w (execute reader l env : Stoppable streams UInt32)
  (run.1.getD stopCode, run.2)

/-- Nothing stops the program: the streams take every text, and the arguments of
every call can be counted. -/
structure Undisturbed (reader : String → Option Config) (streams : Streams) (l : CommandLine)
    (env : Environment) (w : World) : Prop where
  isOpen : streams.Open
  counted : ∀ config made, Begins reader w l env config made →
    ∀ p ∈ l.inputs.flatMap (sourcesOf w.files), ¬Overflows made config.compile p

theorem tracks_runCommandLine :
    Tracks (¬Undisturbed reader streams l env w) w
      (runCommandLine reader l env : Batch (Stoppable streams) Summary)
      (runCommandLine reader l env) := by
  refine .bind (tracks_prepare l env) fun found w' hfound => ?_
  have hready : ¬Unready reader w.files l env := by
    intro hunready
    obtain ⟨e, he⟩ := prepare_unready hunready
    simp [he] at hfound
  obtain ⟨config, hconfig, hinputs, hsources⟩ := not_unready hready
  obtain ⟨hresult, rfl⟩ := Prod.mk.inj ((prepare_run hconfig hinputs hsources).symm.trans hfound)
  obtain rfl := Except.ok.inj hresult
  refine tracks_compileFiles (fun hopen h => hopen h.isOpen) fun made hmade p hp hover h => ?_
  exact h.counted config made ⟨hconfig, hinputs, hsources, hmade⟩ p hp hover

/-- What keeps a run from its sources has no effect but a report, if that. -/
theorem exitIn_unready (h : Unready reader w.files l env) :
    (exitIn reader streams l env w).2.files = w.files ∧
      (exitIn reader streams l env w).2.printed = w.printed := by
  obtain ⟨e, he⟩ := prepare_unready h
  have htracks : Tracks False w
      (runCommandLine reader l env : Batch (Stoppable streams) Summary)
      (runCommandLine reader l env) :=
    .bind (tracks_prepare l env) fun _ _ hfound => by simp [he] at hfound
  obtain ⟨e', he'⟩ := runCommandLine_unready h
  have hrun : Stoppable.runIn w
      (ExceptT.run (runCommandLine reader l env : Batch (Stoppable streams) Summary)) =
        (some (.error e'), w) := by
    obtain heq | ⟨hfalse, -⟩ := htracks
    · rw [heq]
      exact congrArg (fun r : Except BatchError Summary × World => (some r.1, r.2)) he'
    · exact hfalse.elim
  have hexit : Stoppable.runIn w (execute reader l env : Stoppable streams UInt32) =
      Stoppable.runIn w
        (do Host.report (.failure e'.message); return 1 : Stoppable streams UInt32) := by
    rw [execute, Stoppable.runIn_bind, hrun]
  rw [exitIn, hexit, Stoppable.runIn_bind, Stoppable.runIn_report]
  cases streams.takesReport w (.failure e'.message) <;> exact ⟨rfl, rfl⟩

def sourceFiles : FileSystem where
  entries := [
    (["jackc.toml"], .file "out_dir = \"out\"\n".toByteArray),
    (["src"], .directory),
    (["src", "A.jack"], .file "class A { function void f() { return; } }".toByteArray),
    (["src", "notes.txt"], .file "class B".toByteArray)]

def sourceFilesMade : FileSystem :=
  { sourceFiles with entries := sourceFiles.entries ++ [(["out"], .directory)] }

def settingsReader (text : String) : Option Config :=
  if text = "out_dir = \"out\"\n" then some { outDir := some ⟨"out"⟩ } else none

def openStreams : Streams := ⟨fun _ _ => true, fun _ _ => true⟩

theorem found_sourceFiles :
    [(⟨"src"⟩ : Path)].flatMap (sourcesOf sourceFiles) = [⟨"src/A.jack"⟩] := by
  decide +kernel

theorem configIn_sourceFiles {inputs : List Path} :
    configIn settingsReader sourceFiles { inputs } {} = .ok { outDir := some ⟨"out"⟩ } := by
  have hfile : configFileIn settingsReader sourceFiles Config.defaultFile =
      .ok { outDir := some ⟨"out"⟩ } := by
    decide +kernel
  have hthere : (sourceFiles.kindAt? Config.defaultFile).isSome := by decide +kernel
  simp only [configIn, hthere, hfile]
  rfl

theorem outcomeIn_sourceFiles :
    outcomeIn sourceFilesMade {} ⟨"src/A.jack"⟩ =
      .ok "function A.f 0\npush constant 0\nreturn\n" := by
  decide +kernel

theorem succeeds_sourceFiles :
    Succeeds settingsReader { files := sourceFiles } { inputs := [⟨"src"⟩] } {}
      { outDir := some ⟨"out"⟩ } sourceFilesMade := by
  refine ⟨⟨configIn_sourceFiles, by decide +kernel, by decide +kernel, rfl⟩, ?_⟩
  rw [found_sourceFiles, List.forall_mem_singleton]
  exact ⟨_, outcomeIn_sourceFiles, fun _ => by decide +kernel⟩

theorem undisturbed_sourceFiles :
    Undisturbed settingsReader openStreams { inputs := [⟨"src"⟩] } {} { files := sourceFiles } := by
  refine ⟨⟨fun _ _ => rfl, fun _ _ => rfl⟩, fun config made h => ?_⟩
  obtain rfl := Except.ok.inj (configIn_sourceFiles.symm.trans h.loaded)
  obtain rfl : sourceFilesMade = made := Except.ok.inj h.furnished
  rw [found_sourceFiles, List.forall_mem_singleton, Overflows]
  intro hover
  cases outcomeIn_sourceFiles.symm.trans hover

end JackVM.Batch
