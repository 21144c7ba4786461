import JackVM.Batch.Run
import JackVM.Proofs.Files.Directories

/-!
# Runs in a world

What the steps of a batch run give when the host is a `World`, and what they
leave. Reading and compiling change nothing. To deal with the outcomes of all
sources is to write their outputs in order, up to the first that is refused,
and otherwise to count.
-/

namespace JackVM.Batch

open FileSystem (Output)

section
variable {α β : Type} {w w' : World}

theorem run_bind (x : StateM World α) (f : α → StateM World β) :
    StateT.run (x >>= f) w = StateT.run (f (StateT.run x w).1) (StateT.run x w).2 := rfl

def runIn (w : World) (x : Batch (StateM World) α) : Except BatchError α × World :=
  StateT.run (ExceptT.run x) w

@[simp] theorem runIn_pure (a : α) : runIn w (pure a) = (.ok a, w) := rfl

@[simp] theorem runIn_throw (e : BatchError) :
    runIn w (throw e : Batch (StateM World) α) = (.error e, w) := rfl

theorem runIn_bind (x : Batch (StateM World) α) (f : α → Batch (StateM World) β) :
    runIn w (x >>= f) = match runIn w x with
      | (.ok a, w') => runIn w' (f a)
      | (.error e, w') => (.error e, w') := by
  unfold runIn ExceptT.run StateT.run
  simp only [bind, ExceptT.bind, ExceptT.mk, StateT.bind, ExceptT.bindCont]
  cases x w with
  | mk r w' => cases r <;> rfl

theorem runIn_lift (x : StateM World α) :
    runIn w (ExceptT.lift x) = (.ok (StateT.run x w).1, (StateT.run x w).2) := rfl

@[simp] theorem runIn_kindAt? (p : Path) :
    runIn w (Host.kindAt? p) = (.ok (w.files.kindAt? p), w) := rfl

@[simp] theorem runIn_fileNamesAt (p : Path) :
    runIn w (Host.fileNamesAt p) = (.ok (w.files.fileNamesAt p), w) := rfl

@[simp] theorem runIn_read (p : Path) : runIn w (Host.read p) = (.ok (w.files.read p), w) := rfl

@[simp] theorem runIn_print (text : String) :
    runIn w (Host.print text) = (.ok (), { w with printed := w.printed ++ text }) := rfl

@[simp] theorem runIn_report (r : Report) :
    runIn w (Host.report r) = (.ok (), { w with reports := r :: w.reports }) := rfl

@[simp] theorem runIn_stop : runIn w Host.stop = (.ok (), w) := rfl

theorem run_change (f : FileSystem → Except FileError FileSystem) :
    StateT.run (World.change f) w = match f w.files with
      | .ok files => (.ok (), { w with files })
      | .error e => (.error e, w) := by
  simp only [World.change, StateT.run_modifyGet]
  cases f w.files <;> rfl

theorem runIn_makeDirectories (p : Path) :
    runIn w (Host.makeDirectories p) = match w.files.makeDirectories p with
      | .ok files => (.ok (.ok ()), { w with files })
      | .error e => (.ok (.error e), w) := by
  have h := run_change (w := w) (·.makeDirectories p)
  simp only [Host.makeDirectories, runIn_lift, h]
  cases w.files.makeDirectories p <;> rfl

theorem runIn_write (p : Path) (text : String) :
    runIn w (Host.write p text) = match w.files.write p text with
      | .ok files => (.ok (.ok ()), { w with files })
      | .error e => (.ok (.error e), w) := by
  have h := run_change (w := w) (·.write p text)
  simp only [Host.write, runIn_lift, h]
  cases w.files.write p text <;> rfl

end

-- ---------------------------------------------------------------------------
-- Sources
-- ---------------------------------------------------------------------------

variable {options : Options} {config : Config} {w : World} {fs fs' : FileSystem} {p : Path}

def outcomeIn (fs : FileSystem) (options : Options) (p : Path) : Except BatchError String :=
  (runIn { files := fs } (compileFile options p)).1

theorem runIn_compileFile :
    runIn w (compileFile options p) =
      (match w.files.read p with
        | .error e => .error (.sourceUnreadable p e)
        | .ok source => (compileText options source).mapError (.sourceRejected p), w) := by
  rw [compileFile, runIn_bind, runIn_read]
  cases w.files.read p with
  | error e => rfl
  | ok source =>
    dsimp only
    cases compileText options source with
    | ok code => rfl
    | error e => by_cases he : e = .inSink .overflow <;> simp [he, runIn_bind, Except.mapError]

theorem outcomeIn_eq :
    outcomeIn fs options p = match fs.read p with
      | .error e => .error (.sourceUnreadable p e)
      | .ok source => (compileText options source).mapError (.sourceRejected p) := by
  rw [outcomeIn, runIn_compileFile]

theorem compileFile_run : runIn w (compileFile options p) = (outcomeIn w.files options p, w) := by
  rw [runIn_compileFile, outcomeIn_eq]

def outcomesIn (fs : FileSystem) (options : Options) (files : List Path) :
    List (Path × Except BatchError String) :=
  files.map fun p => (p, outcomeIn fs options p)

theorem outcome_run :
    StateT.run (outcome options p : StateM World _) w = ((p, outcomeIn w.files options p), w) := by
  have h : runIn w (compileFile options p) = (outcomeIn w.files options p, w) := compileFile_run
  rw [runIn] at h
  rw [outcome, StateT.run_map, h]
  rfl

theorem mapM_outcome_run (files : List Path) :
    StateT.run (files.mapM (outcome options) : StateM World _) w =
      (outcomesIn w.files options files, w) := by
  induction files with
  | nil => rfl
  | cons p rest ih =>
    rw [List.mapM_cons, run_bind, outcome_run, run_bind, ih]
    rfl

end JackVM.Batch
