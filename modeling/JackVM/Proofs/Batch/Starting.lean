import JackVM.Batch.Execution
import JackVM.Proofs.Batch.Running

/-!
# Before the sources are read

Loading the configuration and finding the sources look at the file system and
change nothing.
-/

namespace JackVM.Batch

variable {reader : String → Option Config} {w : World} {fs : FileSystem} {l : CommandLine}
  {env : Environment} {p input : Path} {inputs : List Path}

-- ---------------------------------------------------------------------------
-- Configuration
-- ---------------------------------------------------------------------------

def configFileIn (reader : String → Option Config) (fs : FileSystem) (p : Path) :
    Except BatchError Config :=
  match fs.read p with
  | .error e => .error (.configUnreadable p e)
  | .ok text =>
    match reader text with
    | some c => .ok c
    | none => .error (.configInvalid p)

theorem readFile_run :
    runIn w (Config.readFile reader p) = (configFileIn reader w.files p, w) := by
  unfold Config.readFile configFileIn
  rw [runIn_bind, runIn_read]
  cases w.files.read p with
  | error e => rfl
  | ok text =>
    dsimp only
    cases reader text <;> rfl

def configIn (reader : String → Option Config) (fs : FileSystem) (l : CommandLine)
    (env : Environment) : Except BatchError Config :=
  let fromFile :=
    match l.config with
    | some p => configFileIn reader fs p
    | none =>
      if (fs.kindAt? Config.defaultFile).isSome then configFileIn reader fs Config.defaultFile
      else .ok {}
  fromFile.map fun c => (c.withEnvironment env).withCommandLine l

theorem load_run :
    runIn w (Config.loadWith reader l env) = (configIn reader w.files l env, w) := by
  unfold Config.loadWith configIn
  cases l.config with
  | some p =>
    simp only [runIn_bind, readFile_run]
    cases configFileIn reader w.files p <;> rfl
  | none =>
    simp only [runIn_bind, runIn_kindAt?]
    split
    · rw [runIn_bind, readFile_run]
      cases configFileIn reader w.files Config.defaultFile <;> rfl
    · rfl

-- ---------------------------------------------------------------------------
-- Sources
-- ---------------------------------------------------------------------------

def Readable (fs : FileSystem) (input : Path) : Prop :=
  fs.isFile input ∨ fs.isDirectory input ∧ (fs.fileNamesAt input).isOk

instance (fs : FileSystem) (input : Path) : Decidable (Readable fs input) :=
  inferInstanceAs (Decidable (_ ∨ _))

def sourcesOf (fs : FileSystem) (input : Path) : List Path :=
  if fs.isFile input then [input]
  else
    match fs.fileNamesAt input with
    | .ok names => (sourceNames names).map input.child
    | .error _ => []

theorem sourcesAt_run (h : Readable w.files input) :
    runIn w (sourcesAt input) = (.ok (sourcesOf w.files input), w) := by
  unfold sourcesAt sourcesOf
  rw [runIn_bind, runIn_kindAt?]
  obtain hfile | ⟨hdirectory, hnames⟩ := h
  · have hk : w.files.kindAt? input = some .file := by simpa [FileSystem.isFile] using hfile
    simp [hk, hfile]
  · have hk : w.files.kindAt? input = some .directory := by
      simpa [FileSystem.isDirectory] using hdirectory
    have hfile : w.files.isFile input = false := by simp [FileSystem.isFile, hk]
    cases hn : w.files.fileNamesAt input with
    | error e => simp [hn, Except.isOk, Except.toBool] at hnames
    | ok names => simp [hk, hfile, hn, runIn_bind]

theorem sourcesAt_refused (h : ¬Readable w.files input) :
    ∃ e, runIn w (sourcesAt input) = (.error e, w) := by
  unfold sourcesAt
  rw [runIn_bind, runIn_kindAt?]
  rw [Readable, FileSystem.isFile, FileSystem.isDirectory] at h
  cases hk : w.files.kindAt? input with
  | none => exact ⟨_, rfl⟩
  | some k =>
    cases k with
    | file => simp [hk] at h
    | other => exact ⟨_, rfl⟩
    | directory =>
      simp only [hk] at h ⊢
      rw [runIn_bind, runIn_fileNamesAt]
      cases hn : w.files.fileNamesAt input with
      | error e => exact ⟨_, rfl⟩
      | ok names => simp [hn, Except.isOk, Except.toBool] at h

theorem sources_run (h : ∀ input ∈ inputs, Readable w.files input) :
    runIn w (sources inputs) = (.ok (inputs.flatMap (sourcesOf w.files)), w) := by
  induction inputs with
  | nil => rfl
  | cons input rest ih =>
    obtain ⟨hinput, hrest⟩ := List.forall_mem_cons.mp h
    simp only [sources, runIn_bind, sourcesAt_run hinput, ih hrest, runIn_pure, List.flatMap_cons]

theorem sources_refused (h : ∃ input ∈ inputs, ¬Readable w.files input) :
    ∃ e, runIn w (sources inputs) = (.error e, w) := by
  induction inputs with
  | nil => simp at h
  | cons input rest ih =>
    simp only [sources, runIn_bind]
    by_cases hinput : Readable w.files input
    · obtain ⟨e, he⟩ := ih (by simpa [hinput] using h)
      exact ⟨e, by simp [sourcesAt_run hinput, he]⟩
    · obtain ⟨e, he⟩ := sourcesAt_refused hinput
      exact ⟨e, by simp [he]⟩

end JackVM.Batch
