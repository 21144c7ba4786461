import JackVM.Proofs.Batch.Delivering

/-!
# Runs that write files

A run whose outputs are all accepted leaves the file system that it found, with
the directory for outputs and each output at its place, and counts every source
once. If an output is refused the run ends there: what comes after it is not
written, though it could be.
-/

namespace JackVM

open FileSystem (Output OutputDirectoryMade)

namespace Batch

variable {config : Config} {w : World} {s : Summary} {files before rest : List Path}
  {fs made : FileSystem} {p : Path}

theorem outcomeIn_made (h : OutputDirectoryMade fs made config.outDir) (hp : fs.isFile p) :
    outcomeIn made config.compile p = outcomeIn fs config.compile p := by
  rw [outcomeIn_eq, outcomeIn_eq, h.read hp]

theorem outcomesIn_made (h : OutputDirectoryMade fs made config.outDir)
    (hfiles : ∀ p ∈ files, fs.isFile p) :
    outcomesIn made config.compile files = outcomesIn fs config.compile files :=
  List.map_congr_left fun p hp => by rw [outcomeIn_made h (hfiles p hp)]

def outputOf (fs : FileSystem) (config : Config) (p : Path) : Option Output :=
  Outcome.output? config.outDir (p, outcomeIn fs config.compile p)

theorem outputOf_eq_some {o : Output} :
    outputOf fs config p = some o ↔
      o.path = target p config.outDir ∧ outcomeIn fs config.compile p = .ok o.text := by
  obtain ⟨path, text⟩ := o
  unfold outputOf Outcome.output?
  cases outcomeIn fs config.compile p with
  | error e => simp
  | ok code => simp [eq_comm]

theorem outputs_plain (h : config.failFast = false) :
    outputs config (outcomesIn fs config.compile files) = files.filterMap (outputOf fs config) := by
  simp only [outputs, reached, h, outcomesIn, List.filterMap_map, Bool.false_eq_true, ↓reduceIte]
  rfl

/-- Failing fast is to run on the sources in front of the first that fails. -/
theorem outputs_failFast (fs : FileSystem) (files : List Path) (h : config.failFast) :
    outputs config (outcomesIn fs config.compile files) =
      outputs { config with failFast := false } (outcomesIn fs config.compile
        (files.takeWhile fun p => (outcomeIn fs config.compile p).isOk)) := by
  simp [outputs, reached, h, outcomesIn, List.takeWhile_map, Function.comp_def, Outcome.compiled]

-- ---------------------------------------------------------------------------
-- Accepted outputs
-- ---------------------------------------------------------------------------

def guardedFiles : FileSystem where
  entries := [
    (["A.jack"], .file "class A { function void f() { return; } }".toByteArray),
    (["B.jack"], .file "class B { field int x; }".toByteArray),
    (["C.jack"], .file "class C { field int x; }".toByteArray)]
  refusal? a l := if a = .read ∧ l = ["B.jack"] then some .notPermitted else none

def guardedFilesMade : FileSystem :=
  { guardedFiles with entries := guardedFiles.entries ++ [(["out"], .directory)] }

def guardedSources : List Path := [⟨"A.jack"⟩, ⟨"B.jack"⟩, ⟨"C.jack"⟩]

def fastIntoOut : Config := { outDir := some ⟨"out"⟩, failFast := true }

theorem outputs_guarded :
    outputs fastIntoOut (outcomesIn guardedFilesMade fastIntoOut.compile guardedSources) =
      [⟨⟨"out/A.vm"⟩, "function A.f 0\npush constant 0\nreturn\n"⟩] := by
  decide +kernel

/-- Two paths that do not lead an output to one place. -/
def Apart (fs : FileSystem) (p q : Path) : Prop :=
  ∀ l, fs.outlet p = .ok l → fs.outlet q ≠ .ok l

instance (fs : FileSystem) (p q : Path) : Decidable (Apart fs p q) :=
  match h : fs.outlet p with
  | .error _ => isTrue fun _ hl => nomatch h.symm.trans hl
  | .ok l => decidable_of_iff (fs.outlet q ≠ .ok l) (by simp [Apart, h])

theorem Apart.symm {q : Path} (h : Apart fs p q) : Apart fs q p := fun l hq hp => h l hp hq

theorem outputs_around (h : config.failFast = false) {code : String}
    (hp : outcomeIn fs config.compile p = .ok code) :
    outputs config (outcomesIn fs config.compile (before ++ p :: rest)) =
      before.filterMap (outputOf fs config) ++
        ⟨target p config.outDir, code⟩ :: rest.filterMap (outputOf fs config) := by
  have hout : outputOf fs config p = some ⟨target p config.outDir, code⟩ :=
    outputOf_eq_some.mpr ⟨rfl, hp⟩
  rw [outputs_plain h, List.filterMap_append, List.filterMap_cons_some hout]

theorem outlet_ne_of_apart {l : Location}
    (hl : fs.outlet (target p config.outDir) = .ok l)
    (hapart : ∀ q ∈ files, Apart fs (target p config.outDir) (target q config.outDir)) :
    ∀ o ∈ files.filterMap (outputOf fs config), fs.outlet o.path ≠ .ok l := by
  intro o ho
  obtain ⟨q, hq, hqo⟩ := List.mem_filterMap.mp ho
  rw [(outputOf_eq_some.mp hqo).1]
  exact hapart q hq l hl

/-- A source that compiles is delivered if no output before its own is refused. If
one is, the run stops there, and what is at the place of its output is left alone. -/
theorem compileFiles_delivers {code : String} (hplain : config.failFast = false)
    (hmade : w.files.withOutputDirectory config.outDir = .ok made)
    (hapart : (before ++ p :: rest).Pairwise fun q r =>
      Apart made (target q config.outDir) (target r config.outDir))
    (hcode : outcomeIn made config.compile p = .ok code)
    (hwrite : (made.write (target p config.outDir) code).isOk) :
    ((∀ q ∈ before, ∀ c, outcomeIn made config.compile q = .ok c →
        (made.write (target q config.outDir) c).isOk) →
      (runIn w (compileFiles (before ++ p :: rest) config false)).2.files.entryAt
        (target p config.outDir) = .ok (.file code.toByteArray)) ∧
    ((∃ q ∈ before, ∃ c, outcomeIn made config.compile q = .ok c ∧
        ¬(made.write (target q config.outDir) c).isOk) →
      (runIn w (compileFiles (before ++ p :: rest) config false)).2.files.entryAt
          (target p config.outDir) = made.entryAt (target p config.outDir) ∧
        ∃ q ∈ before, ∃ e, (runIn w (compileFiles (before ++ p :: rest) config false)).1 =
          .error (.outputNotWritten (target q config.outDir) e)) := by
  have hout : outputs config (outcomesIn made config.compile (before ++ p :: rest)) =
      before.filterMap (outputOf made config) ++
        ⟨target p config.outDir, code⟩ :: rest.filterMap (outputOf made config) :=
    outputs_around hplain hcode
  obtain ⟨l, hl⟩ := FileSystem.isOk_iff.mp (FileSystem.isOk_write ▸ hwrite)
  obtain ⟨-, hpapart, hacross⟩ := List.pairwise_append.mp hapart
  have hbefore : ∀ o ∈ before.filterMap (outputOf made config), made.outlet o.path ≠ .ok l :=
    outlet_ne_of_apart hl fun q hq => (hacross q hq p (by simp)).symm
  have hrest := outlet_ne_of_apart hl (List.pairwise_cons.mp hpapart).1
  constructor
  · intro hall
    have hfront : ∀ o ∈ before.filterMap (outputOf made config), made.accepts o := by
      intro o ho
      obtain ⟨q, hq, hqo⟩ := List.mem_filterMap.mp ho
      obtain ⟨hpath, hc⟩ := outputOf_eq_some.mp hqo
      rw [FileSystem.accepts, hpath]
      exact hall q hq o.text hc
    have hwritten := compileFiles_written hmade (before ++ p :: rest)
    have haccepts : made.accepts ⟨target p config.outDir, code⟩ := hwrite
    rw [hout, List.takeWhile_append_of_pos hfront, List.takeWhile_cons_of_pos haccepts] at hwritten
    exact hwritten.entryAt_last hl (fun o ho => hrest o (List.takeWhile_subset _ ho)) hl
  · rintro ⟨q, hq, c, hc, hrefused⟩
    have hqo : ⟨target q config.outDir, c⟩ ∈ before.filterMap (outputOf made config) :=
      List.mem_filterMap.mpr ⟨q, hq, outputOf_eq_some.mpr ⟨rfl, hc⟩⟩
    obtain ⟨front, o, later, e, hsplit, hwritten, hresult⟩ :=
      compileFiles_refusedOutput hmade hout ⟨_, hqo, hrefused⟩
    refine ⟨hwritten.entryAt_other hl fun o ho => hbefore o (by simp [hsplit, ho]), ?_⟩
    have ho : o ∈ before.filterMap (outputOf made config) := by simp [hsplit]
    obtain ⟨q', hq', hqo'⟩ := List.mem_filterMap.mp ho
    exact ⟨q', hq', e, by rw [hresult, (outputOf_eq_some.mp hqo').1]⟩

-- A directory lies where the code of the last source goes.

def blockedFiles : FileSystem where
  entries := [
    (["A.jack"], .file "class A { function void f() { return; } }".toByteArray),
    (["B.jack"], .file "class B".toByteArray),
    (["D.jack"], .file "class D { field int x; }".toByteArray),
    (["D.vm"], .directory)]

/-- A source that is cut off, one that is missing and, after it, one whose output
is refused do not keep a source from being delivered. -/
theorem compileFiles_delivers_blocked :
    (runIn { files := blockedFiles }
        (compileFiles [⟨"B.jack"⟩, ⟨"C.jack"⟩, ⟨"A.jack"⟩, ⟨"D.jack"⟩] {} false)).2.files.entryAt
      ⟨"A.vm"⟩ = .ok (.file "function A.f 0\npush constant 0\nreturn\n".toByteArray) := by
  have hcode : outcomeIn blockedFiles {} ⟨"A.jack"⟩ =
      .ok "function A.f 0\npush constant 0\nreturn\n" := by
    decide +kernel
  have hapart : ([⟨"B.jack"⟩, ⟨"C.jack"⟩] ++ ⟨"A.jack"⟩ :: [⟨"D.jack"⟩] : List Path).Pairwise
      fun q r => Apart blockedFiles (target q none) (target r none) := by
    decide +kernel
  have hbefore : ∀ q ∈ ([⟨"B.jack"⟩, ⟨"C.jack"⟩] : List Path),
      ¬(outcomeIn blockedFiles {} q).isOk := by
    decide +kernel
  have hplain : ({} : Config).failFast = false := rfl
  exact (compileFiles_delivers (w := { files := blockedFiles }) hplain rfl hapart hcode
    (by decide +kernel)).1 fun q hq c hc => absurd (FileSystem.isOk_iff.mpr ⟨c, hc⟩) (hbefore q hq)

/-- The source after one whose output is refused is not delivered, though it
compiles and nothing is in its way. -/
theorem compileFiles_misses_blocked :
    ([⟨"D.jack"⟩, ⟨"A.jack"⟩] : List Path).Pairwise
        (fun q r => Apart blockedFiles (target q none) (target r none)) ∧
      (outcomeIn blockedFiles {} ⟨"A.jack"⟩).isOk ∧
      (∀ text, (blockedFiles.write (target ⟨"A.jack"⟩ none) text).isOk) ∧
      (runIn { files := blockedFiles } (compileFiles [⟨"D.jack"⟩, ⟨"A.jack"⟩] {} false)).1 =
        .error (.outputNotWritten ⟨"D.vm"⟩ .isDirectory) ∧
      (runIn { files := blockedFiles }
        (compileFiles [⟨"D.jack"⟩, ⟨"A.jack"⟩] {} false)).2.files.read ⟨"A.vm"⟩ =
        .error .notFound := by
  refine ⟨by decide +kernel, by decide +kernel, fun text => ?_, by decide +kernel,
    by decide +kernel⟩
  rw [FileSystem.isOk_write]
  decide +kernel

end Batch

end JackVM
