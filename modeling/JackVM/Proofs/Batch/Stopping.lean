import JackVM.Proofs.Batch.Delivering
import JackVM.Proofs.Batch.Starting

/-!
# Runs that may be stopped

In a world every stream takes its text and a run cannot be stopped. On a host whose
streams may refuse a text, and which stops then, a run does what it does in a world
unless it is stopped. Only what prints, what reports and an overflow can stop it.
-/

namespace JackVM

/-- Which texts standard output and the stream for reports take, as things stand. -/
structure Streams where
  takesPrinted : World → String → Bool
  takesReport : World → Report → Bool

def Streams.Open (streams : Streams) : Prop :=
  (∀ w text, streams.takesPrinted w text) ∧ ∀ w r, streams.takesReport w r

def Stoppable (_ : Streams) : Type → Type := OptionT (StateM World)

variable {streams : Streams}

instance : Monad (Stoppable streams) := inferInstanceAs (Monad (OptionT (StateM World)))

instance : LawfulMonad (Stoppable streams) :=
  inferInstanceAs (LawfulMonad (OptionT (StateM World)))

namespace Stoppable

variable {α β : Type} {w : World} {q : Prop}

def lift (x : StateM World α) : Stoppable streams α := OptionT.lift x

def guarded (may : World → Bool) (x : StateM World Unit) : Stoppable streams Unit :=
  OptionT.mk fun w => if may w then (some (), (StateT.run x w).2) else (none, w)

instance : Host (Stoppable streams) where
  kindAt? p := lift (Host.kindAt? p)
  fileNamesAt p := lift (Host.fileNamesAt p)
  read p := lift (Host.read p)
  makeDirectories p := lift (Host.makeDirectories p)
  write p text := lift (Host.write p text)
  print text := guarded (streams.takesPrinted · text) (Host.print text)
  report r := guarded (streams.takesReport · r) (Host.report r)
  stop := guarded (fun _ => false) Host.stop

def runIn (w : World) (x : Stoppable streams α) : Option α × World :=
  StateT.run (OptionT.run x) w

/-- The steps do what the others do in a world, unless they are stopped, and then `q`
is why. -/
def Tracks (q : Prop) (w : World) (x : Stoppable streams α) (y : StateM World α) : Prop :=
  x.runIn w = (some (StateT.run y w).1, (StateT.run y w).2) ∨ q ∧ (x.runIn w).1 = none

theorem tracks_pure (a : α) : Tracks q w (pure a : Stoppable streams α) (pure a) := .inl rfl

theorem tracks_lift (x : StateM World α) : Tracks q w (lift x : Stoppable streams α) x := .inl rfl

theorem tracks_guarded {may : World → Bool} (x : StateM World Unit) (h : may w = false → q) :
    Tracks q w (guarded may x : Stoppable streams Unit) x := by
  unfold Tracks guarded runIn
  cases hm : may w with
  | true => exact .inl (by simp [OptionT.run, OptionT.mk, StateT.run, hm])
  | false => exact .inr ⟨h hm, by simp [OptionT.run, OptionT.mk, StateT.run, hm]⟩

theorem runIn_bind (x : Stoppable streams α) (f : α → Stoppable streams β) :
    (x >>= f).runIn w = match x.runIn w with
      | (some a, w') => (f a).runIn w'
      | (none, w') => (none, w') := by
  show StateT.run (OptionT.run (OptionT.bind x f)) w = _
  unfold OptionT.bind runIn OptionT.run OptionT.mk StateT.run
  simp only [Bind.bind, StateT.bind]
  cases (x : StateM World (Option α)) w with
  | mk r w' => cases r <;> rfl

theorem runIn_report (r : Report) :
    runIn w (Host.report r : Stoppable streams Unit) =
      if streams.takesReport w r then (some (), { w with reports := r :: w.reports })
      else (none, w) := rfl

theorem Tracks.bind {x : Stoppable streams α} {y : StateM World α}
    {f : α → Stoppable streams β} {g : α → StateM World β} (h : Tracks q w x y)
    (hf : Tracks q (StateT.run y w).2 (f (StateT.run y w).1) (g (StateT.run y w).1)) :
    Tracks q w (x >>= f) (y >>= g) := by
  unfold Tracks at *
  rw [runIn_bind]
  obtain h | ⟨hq, h⟩ := h
  · rw [h]
    exact hf
  · refine .inr ⟨hq, ?_⟩
    cases hx : x.runIn w with
    | mk r w' =>
      rw [hx] at h
      subst h
      rfl

theorem Tracks.map {x : Stoppable streams α} {y : StateM World α} (f : α → β)
    (h : Tracks q w x y) : Tracks q w (f <$> x) (f <$> y) := by
  rw [map_eq_pure_bind, map_eq_pure_bind]
  exact h.bind (tracks_pure _)

end Stoppable

namespace Batch

open Stoppable (tracks_pure tracks_lift tracks_guarded)

def Tracks {α : Type} (q : Prop) (w : World) (x : Batch (Stoppable streams) α)
    (y : Batch (StateM World) α) : Prop :=
  Stoppable.Tracks q w (ExceptT.run x) (ExceptT.run y)

-- ---------------------------------------------------------------------------
-- Single steps
-- ---------------------------------------------------------------------------

section
variable {α β : Type} {q : Prop} {w : World}

theorem Tracks.pure (a : α) :
    Tracks q w (Pure.pure a : Batch (Stoppable streams) α) (Pure.pure a) := tracks_pure _

theorem Tracks.throw (e : BatchError) :
    Tracks q w (MonadExcept.throw e : Batch (Stoppable streams) α) (MonadExcept.throw e) :=
  tracks_pure _

theorem Tracks.bind {x : Batch (Stoppable streams) α} {y : Batch (StateM World) α}
    {f : α → Batch (Stoppable streams) β} {g : α → Batch (StateM World) β} (h : Tracks q w x y)
    (hf : ∀ a w', runIn w y = (.ok a, w') → Tracks q w' (f a) (g a)) :
    Tracks q w (x >>= f) (y >>= g) := by
  show Stoppable.Tracks q w (ExceptT.run x >>= ExceptT.bindCont f)
    (ExceptT.run y >>= ExceptT.bindCont g)
  refine Stoppable.Tracks.bind h ?_
  cases hy : runIn w y with
  | mk r w' =>
    rw [show StateT.run (ExceptT.run y) w = (r, w') from hy]
    cases r with
    | ok a => exact hf a w' hy
    | error e => exact tracks_pure _

theorem Tracks.lift {x : Stoppable streams α} {y : StateM World α}
    (h : Stoppable.Tracks q w x y) : Tracks q w (ExceptT.lift x) (ExceptT.lift y) :=
  Stoppable.Tracks.map Except.ok h

theorem tracks_print (hopen : ¬streams.Open → q) (text : String) :
    Tracks q w (Host.print text : Batch (Stoppable streams) Unit) (Host.print text) :=
  .lift (tracks_guarded _ fun h => hopen fun ho => by simp [ho.1] at h)

theorem tracks_report (hopen : ¬streams.Open → q) (r : Report) :
    Tracks q w (Host.report r : Batch (Stoppable streams) Unit) (Host.report r) :=
  .lift (tracks_guarded _ fun h => hopen fun ho => by simp [ho.2] at h)

end

-- ---------------------------------------------------------------------------
-- Before the sources are read
-- ---------------------------------------------------------------------------

variable {reader : String → Option Config} {q : Prop} {w : World} {config : Config}

theorem tracks_readFile (p : Path) :
    Tracks q w (Config.readFile reader p : Batch (Stoppable streams) Config)
      (Config.readFile reader p) := by
  unfold Config.readFile
  refine .bind (.lift (tracks_lift _)) fun r w' _ => ?_
  cases r with
  | error e => exact .throw _
  | ok text =>
    dsimp only
    cases reader text with
    | some c => exact .pure _
    | none => exact .throw _

theorem tracks_load (l : CommandLine) (env : Environment) :
    Tracks q w (Config.loadWith reader l env : Batch (Stoppable streams) Config)
      (Config.loadWith reader l env) := by
  unfold Config.loadWith
  cases l.config with
  | some p => exact .bind (tracks_readFile p) fun _ _ _ => .pure _
  | none =>
    refine .bind (.lift (tracks_lift _)) fun found w' _ => ?_
    split
    · exact .bind (tracks_readFile _) fun _ _ _ => .pure _
    · exact .bind (.pure _) fun _ _ _ => .pure _

theorem tracks_sourcesAt (input : Path) :
    Tracks q w (sourcesAt input : Batch (Stoppable streams) (List Path)) (sourcesAt input) := by
  unfold sourcesAt
  refine .bind (.lift (tracks_lift _)) fun found w' _ => ?_
  cases found with
  | none => exact .throw _
  | some kind =>
    cases kind with
    | other => exact .throw _
    | file => exact .pure _
    | directory =>
      refine .bind (.lift (tracks_lift _)) fun names w'' _ => ?_
      cases names with
      | error e => exact .throw _
      | ok names => exact .pure _

theorem tracks_sources (inputs : List Path) :
    Tracks q w (sources inputs : Batch (Stoppable streams) (List Path)) (sources inputs) := by
  induction inputs generalizing w with
  | nil => exact .pure _
  | cons input rest ih =>
    exact .bind (tracks_sourcesAt input) fun _ _ _ => .bind ih fun _ _ _ => .pure _

theorem tracks_prepare (l : CommandLine) (env : Environment) :
    Tracks q w (prepare reader l env : Batch (Stoppable streams) (Config × List Path))
      (prepare reader l env) := by
  refine .bind (tracks_load l env) fun config _ _ => .bind (tracks_sources _) fun files _ _ => ?_
  split
  · exact .bind (.throw _) fun _ _ _ => .pure _
  · exact .bind (.pure _) fun _ _ _ => .pure _

-- ---------------------------------------------------------------------------
-- Sources and outputs
-- ---------------------------------------------------------------------------

/-- The arguments of some call in a source are too many to be counted. -/
def Overflows (fs : FileSystem) (options : Options) (p : Path) : Prop :=
  outcomeIn fs options p = .error (.sourceRejected p (.inSink .overflow))

instance (fs : FileSystem) (options : Options) (p : Path) :
    Decidable (Overflows fs options p) := inferInstanceAs (Decidable (_ = _))

theorem tracks_compileFile {options : Options} {p : Path}
    (hcounted : Overflows w.files options p → q) :
    Tracks q w (compileFile options p : Batch (Stoppable streams) String)
      (compileFile options p) := by
  unfold compileFile
  refine .bind (.lift (tracks_lift _)) fun r w' hrun => ?_
  obtain ⟨hr, rfl⟩ := Prod.mk.inj ((runIn_read p).symm.trans hrun)
  cases r with
  | error e => exact .throw _
  | ok source =>
    dsimp only
    cases hc : compileText options source with
    | ok code => exact .pure _
    | error e =>
      dsimp only
      split
      · next he =>
        have hover : Overflows w.files options p := by
          rw [Overflows, outcomeIn_eq, Except.ok.inj hr]
          simp [hc, he, Except.mapError]
        exact .bind (.lift (tracks_guarded _ fun _ => hcounted hover)) fun _ _ _ => .throw _
      · exact .bind (.pure _) fun _ _ _ => .throw _

theorem tracks_outcomes {options : Options} {files : List Path}
    (hcounted : ∀ p ∈ files, Overflows w.files options p → q) :
    Stoppable.Tracks q w (files.mapM (outcome options) : Stoppable streams (List Outcome))
      (files.mapM (outcome options)) := by
  induction files with
  | nil => exact tracks_pure _
  | cons p rest ih =>
    obtain ⟨hp, hrest⟩ := List.forall_mem_cons.mp hcounted
    have hrun : StateT.run (outcome options p : StateM World Outcome) w =
        ((p, outcomeIn w.files options p), w) := outcome_run
    rw [List.mapM_cons, List.mapM_cons]
    refine Stoppable.Tracks.bind ?_ (Stoppable.Tracks.bind ?_ (tracks_pure _))
    · exact Stoppable.Tracks.map _ (tracks_compileFile hp)
    · rw [hrun]
      exact ih hrest

theorem tracks_deliver (hopen : ¬streams.Open → q) (toStdout : Bool) (outcomes : List Outcome)
    (s : Summary) :
    Tracks q w (deliver config toStdout outcomes s : Batch (Stoppable streams) Summary)
      (deliver config toStdout outcomes s) := by
  induction outcomes generalizing w s with
  | nil => exact .pure _
  | cons o rest ih =>
    obtain ⟨source, e | code⟩ := o
    · refine .bind (tracks_report hopen _) fun _ _ _ => ?_
      split
      · exact .pure _
      · exact ih _
    · unfold deliver
      split
      · exact .bind (tracks_print hopen _) fun _ _ _ => ih _
      · refine .bind ?_ fun _ _ _ => ih _
        refine .bind (.lift (tracks_lift _)) fun r _ _ => ?_
        cases r with
        | ok _ => exact .pure _
        | error e => exact .throw _

/-- The file system that a run works on once it has the directory for its outputs. A
run that prints needs none. -/
def Furnished (fs : FileSystem) (config : Config) (toStdout : Bool) (made : FileSystem) : Prop :=
  if toStdout then made = fs else fs.withOutputDirectory config.outDir = .ok made

theorem tracks_makeOutputDirectory (config : Config) :
    Tracks q w (makeOutputDirectory config : Batch (Stoppable streams) Unit)
      (makeOutputDirectory config) := by
  unfold makeOutputDirectory
  cases config.outDir with
  | none => exact .pure _
  | some dir =>
    refine .bind (.lift (tracks_lift _)) fun r _ _ => ?_
    cases r with
    | ok _ => exact .pure _
    | error e => exact .throw _

theorem makeOutputDirectory_ok {w' : World}
    (h : runIn w (makeOutputDirectory config) = (.ok (), w')) :
    ∃ made, w.files.withOutputDirectory config.outDir = .ok made ∧
      w' = { w with files := made } := by
  cases hmade : w.files.withOutputDirectory config.outDir with
  | ok made => exact ⟨made, rfl, (Prod.mk.inj (h.symm.trans (makeOutputDirectory_run hmade))).2⟩
  | error e =>
    obtain ⟨e', he⟩ := makeOutputDirectory_refused hmade
    simp [he] at h

theorem tracks_compileFiles (hopen : ¬streams.Open → q) {toStdout : Bool} {files : List Path}
    (hcounted : ∀ made, Furnished w.files config toStdout made →
      ∀ p ∈ files, Overflows made config.compile p → q) :
    Tracks q w (compileFiles files config toStdout : Batch (Stoppable streams) Summary)
      (compileFiles files config toStdout) := by
  cases toStdout with
  | true =>
    exact .bind (.lift (tracks_outcomes (hcounted w.files rfl))) fun _ _ _ =>
      tracks_deliver hopen _ _ _
  | false =>
    refine .bind (tracks_makeOutputDirectory config) fun _ w' hw => ?_
    obtain ⟨made, hmade, rfl⟩ := makeOutputDirectory_ok hw
    exact .bind (.lift (tracks_outcomes (hcounted made hmade))) fun _ _ _ =>
      tracks_deliver hopen _ _ _

theorem tracks_execute (hopen : ¬streams.Open → q) {l : CommandLine} {env : Environment}
    (h : Tracks q w (runCommandLine reader l env : Batch (Stoppable streams) Summary)
      (runCommandLine reader l env)) :
    Stoppable.Tracks q w (execute reader l env : Stoppable streams UInt32)
      (execute reader l env) := by
  have hreport {w' : World} (message : String) :
      Stoppable.Tracks q w'
        (do Host.report (.failure message); return 1 : Stoppable streams UInt32)
        (do Host.report (.failure message); return 1) :=
    .bind (tracks_guarded _ fun ht => hopen fun ho => by simp [ho.2] at ht) (tracks_pure _)
  refine Stoppable.Tracks.bind h ?_
  generalize (StateT.run (ExceptT.run (runCommandLine reader l env : Batch (StateM World) _)) w).1 =
    result
  cases result with
  | error e => exact hreport _
  | ok s =>
    dsimp only
    split
    · exact tracks_pure _
    · exact hreport _

end Batch

end JackVM
