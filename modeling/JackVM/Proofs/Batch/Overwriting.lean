import JackVM.Proofs.Batch.FileRuns
import JackVM.Proofs.Batch.Targets

/-!
# Outputs over outputs and sources

Sources of one stem give their code to one place, whatever their extensions, if
they lie in one directory or there is a directory for outputs. What the last of
them gives stays. A source is lost if it lies where the code of one goes, perhaps
its own. So in a run on `.jack` files that puts their code beside them nothing is
lost. All this is said of file systems without links, as `FileSystem` has it.
-/

namespace JackVM.Batch

open JackVM.Path FileSystem

variable {fs : FileSystem} {p q : Path} {outDir : Option Path} {l m : Location}

/-- Two sources whose code goes to one place. -/
def Collide (fs : FileSystem) (outDir : Option Path) (p q : Path) : Prop :=
  p.stem? = q.stem? ∧
    (outDir = none → (fs.locate p).map List.dropLast = (fs.locate q).map List.dropLast)

/-- The code of one source goes to where a source is. -/
def Covers (fs : FileSystem) (outDir : Option Path) (q p : Path) : Prop :=
  ∃ stem base l, q.stem? = some stem ∧ fs.locate q = .ok l ∧
    outputDirectory fs l outDir = .ok base ∧ fs.locate p = .ok (base ++ [outputName stem])

theorem collide_iff (hp : fs.isFile p) (hq : fs.isFile q)
    (hpo : fs.outlet (target p outDir) = .ok l) (hqo : fs.outlet (target q outDir) = .ok m) :
    Collide fs outDir p q ↔ l = m := by
  obtain ⟨lp, hlp, -⟩ := isFile_iff.mp hp
  obtain ⟨lq, hlq, -⟩ := isFile_iff.mp hq
  obtain ⟨stem, base, hstem, hbase, rfl⟩ := outlet_target hp hlp hpo
  obtain ⟨stem', base', hstem', hbase', rfl⟩ := outlet_target hq hlq hqo
  have hdirectory : (outDir = none → (fs.locate p).map List.dropLast =
      (fs.locate q).map List.dropLast) ↔ base = base' := by
    cases outDir with
    | none => simp_all [outputDirectory, Except.map]
    | some dir => simp_all [outputDirectory]
  rw [Collide, hdirectory, hstem, hstem', Option.some.injEq]
  constructor
  · rintro ⟨rfl, rfl⟩
    rfl
  · intro h
    obtain ⟨hb, hname⟩ := List.append_inj' h rfl
    exact ⟨outputName_injective (List.singleton_inj.mp hname), hb⟩

theorem covers_of_outlet (hq : fs.isFile q) (hp : fs.locate p = .ok l)
    (ho : fs.outlet (target q outDir) = .ok l) : Covers fs outDir q p := by
  obtain ⟨lq, hlq, -⟩ := isFile_iff.mp hq
  obtain ⟨stem, base, hstem, hbase, rfl⟩ := outlet_target hq hlq ho
  exact ⟨stem, base, lq, hstem, hlq, hbase, hp⟩

theorem not_collide_of_extension {e : String} (hp : fs.isFile p) (hq : fs.isFile q)
    (hpe : p.extension? = some e) (hqe : q.extension? = some e) (h : fs.locate p ≠ fs.locate q) :
    ¬Collide fs none p q := by
  rintro ⟨hstem, hdirectory⟩
  have hname := fileName?_eq hstem (hpe.trans hqe.symm)
  obtain ⟨n, hn, -⟩ := Option.bind_eq_some_iff.mp hpe
  obtain ⟨_, _, parent, -, -, -, hl⟩ := isFile_named hp hn
  obtain ⟨_, _, parent', -, -, -, hl'⟩ := isFile_named hq (hname ▸ hn)
  simp_all [Except.map]

theorem not_covers_of_extension (hp : fs.isFile p) (he : p.extension? = some sourceExtension) :
    ¬Covers fs outDir q p := by
  rintro ⟨stem, base, l, -, -, -, hl⟩
  obtain ⟨n, hn, hext⟩ := Option.bind_eq_some_iff.mp he
  obtain ⟨_, _, parent, -, -, -, hl'⟩ := isFile_named hp hn
  obtain ⟨e, hsplit, he⟩ := Option.map_eq_some_iff.mp hext
  have hname : n = outputName stem := by
    have h := Except.ok.inj (hl'.symm.trans hl)
    exact List.singleton_inj.mp (List.append_inj' h rfl).2
  have hlast := congrArg List.getLast? (splitName_append n.toList)
  have hjack : e = ['j', 'a', 'c', 'k'] := String.ofList_inj.mp he
  rw [hsplit, hjack] at hlast
  simp [hname, toList_outputName] at hlast

-- ---------------------------------------------------------------------------
-- Runs
-- ---------------------------------------------------------------------------

section
variable {made fs' : FileSystem} {outcomes front later : List Outcome} {code c : String}
  (hfiles : ∀ o ∈ outcomes, made.isFile o.1)
  (hwritten : made.Written fs' (outcomes.filterMap (Outcome.output? outDir)))
include hfiles hwritten

/-- What the last of some colliding sources gives is at the place of each. -/
theorem entryAt_of_collide
    (haccepted : ∀ p code, (p, .ok code) ∈ outcomes → ∃ l, made.outlet (target p outDir) = .ok l)
    (houtcomes : outcomes = front ++ (q, .ok code) :: later)
    (hlast : ∀ r ∈ later, Outcome.compiled r → ¬Collide made outDir q r.1)
    (hp : (p, .ok c) ∈ outcomes) (hc : Collide made outDir p q) :
    fs'.entryAt (target p outDir) = .ok (.file code.toByteArray) := by
  have hq : (q, .ok code) ∈ outcomes := by simp [houtcomes]
  obtain ⟨l, hl⟩ := haccepted q code hq
  obtain ⟨m, hm⟩ := haccepted p c hp
  have hqFile : made.isFile q := hfiles (q, .ok code) hq
  obtain rfl := (collide_iff (hfiles (p, .ok c) hp) hqFile hm hl).mp hc
  have hqo : Outcome.output? outDir (q, .ok code) = some ⟨target q outDir, code⟩ := rfl
  rw [houtcomes, List.filterMap_append, List.filterMap_cons_some hqo] at hwritten
  refine hwritten.entryAt_last hl ?_ hm
  intro o ho hol
  obtain ⟨r, hr, hro⟩ := List.mem_filterMap.mp ho
  obtain ⟨source, text, rfl, rfl⟩ := output?_eq_some.mp hro
  have hmem : (source, .ok text) ∈ outcomes := by simp [houtcomes, hr]
  exact hlast _ hr rfl ((collide_iff hqFile (hfiles (source, .ok text) hmem) hl hol).mpr rfl)

theorem entryAt_of_extension {e : String}
    (haccepted : ∀ p code, (p, .ok code) ∈ outcomes → ∃ l, made.outlet (target p outDir) = .ok l)
    (hbeside : outDir = none) (hextension : ∀ o ∈ outcomes, o.1.extension? = some e)
    (hapart : outcomes.Pairwise fun o r => made.locate o.1 ≠ made.locate r.1)
    (hp : (p, .ok code) ∈ outcomes) :
    fs'.entryAt (target p outDir) = .ok (.file code.toByteArray) := by
  obtain ⟨front, later, hsplit⟩ := List.append_of_mem hp
  have hlast : ∀ r ∈ later, Outcome.compiled r → ¬Collide made outDir p r.1 := by
    intro r hr _
    have hmem : r ∈ outcomes := by simp [hsplit, hr]
    rw [hsplit] at hapart
    have hne := (List.pairwise_cons.mp (List.pairwise_append.mp hapart).2.1).1 r hr
    rw [hbeside]
    exact not_collide_of_extension (hfiles (p, .ok code) hp) (hfiles r hmem)
      (hextension (p, .ok code) hp) (hextension r hmem) hne
  exact entryAt_of_collide hfiles hwritten haccepted hsplit hlast hp ⟨rfl, fun _ => rfl⟩

theorem entryAt_of_not_covers (hp : made.isFile p)
    (h : ∀ q code, (q, .ok code) ∈ outcomes → ¬Covers made outDir q p) :
    fs'.entryAt p = made.entryAt p := by
  obtain ⟨l, hl, -⟩ := isFile_iff.mp hp
  refine hwritten.entryAt_kept hl ?_
  intro o ho hol
  obtain ⟨r, hr, hro⟩ := List.mem_filterMap.mp ho
  obtain ⟨source, text, rfl, rfl⟩ := output?_eq_some.mp hro
  exact h source text hr (covers_of_outlet (hfiles (source, .ok text) hr) hl hol)

end

/-- A run that ends well keeps, of what goes to one place, what the last source
gives, and all sources but those that code of its goes to. This rests on there being
no links, by which a place could show what is written at another. -/
theorem compileFiles_keeps {files : List Path} {config : Config} {w after : World} {s : Summary}
    (hfiles : ∀ p ∈ files, w.files.isFile p)
    (hdistinct : files.Pairwise fun p q => w.files.locate p ≠ w.files.locate q)
    (hrun : runIn w (compileFiles files config false) = (.ok s, after)) :
    ∃ (made : FileSystem) (outcomes : List Outcome),
      w.files.withOutputDirectory config.outDir = .ok made ∧
      outcomes = reached config.failFast (outcomesIn w.files config.compile files) ∧
      s.compiled = (outcomes.filter Outcome.compiled).length ∧
      -- What the last of some colliding sources gives is at the place of each.
      (∀ front q code later, outcomes = front ++ (q, .ok code) :: later →
        (∀ r ∈ later, Outcome.compiled r → ¬Collide made config.outDir q r.1) →
        ∀ p c, (p, .ok c) ∈ outcomes → Collide made config.outDir p q →
          after.files.entryAt (target p config.outDir) = .ok (.file code.toByteArray)) ∧
      -- A source is kept if no code goes to where it is.
      (∀ p ∈ files, (∀ q code, (q, .ok code) ∈ outcomes → ¬Covers made config.outDir q p) →
        after.files.entryAt p = w.files.entryAt p) ∧
      -- So `.jack` files are kept, and a run on nothing else keeps all code beside them.
      (∀ p ∈ files, p.extension? = some sourceExtension →
        after.files.entryAt p = w.files.entryAt p) ∧
      (config.outDir = none → (∀ p ∈ files, p.extension? = some sourceExtension) →
        ∀ p code, (p, .ok code) ∈ outcomes →
          after.files.entryAt (target p none) = .ok (.file code.toByteArray)) := by
  obtain ⟨made, hmade⟩ := withOutputDirectory_of_run hrun
  have hdir := withOutputDirectory_made hmade
  obtain ⟨rfl, haccepted⟩ := (compileFiles_ok hmade).mp (congrArg Prod.fst hrun)
  have hwritten := compileFiles_written hmade files
  rw [hrun, List.takeWhile_eq_self_iff.mpr haccepted, outcomesIn_made hdir hfiles] at hwritten
  rw [outcomesIn_made hdir hfiles] at haccepted ⊢
  obtain ⟨outcomes, houtcomes⟩ : ∃ outcomes,
      outcomes = reached config.failFast (outcomesIn w.files config.compile files) := ⟨_, rfl⟩
  have hsources : ∀ o ∈ outcomes, o.1 ∈ files := by
    intro o ho
    obtain ⟨p, hp, rfl⟩ := List.mem_map.mp ((reached_sublist _ _).subset (houtcomes ▸ ho))
    exact hp
  have hplaces : ∀ p code, (p, .ok code) ∈ outcomes →
      ∃ l, made.outlet (target p config.outDir) = .ok l := by
    intro p code hp
    have haccepts := haccepted ⟨target p config.outDir, code⟩
      (mem_outputs.mpr ⟨p, code, houtcomes ▸ hp, rfl⟩)
    rwa [accepts, isOk_write, isOk_iff] at haccepts
  have hmadeFiles : ∀ p ∈ files, made.isFile p := fun p hp => hdir.isFile (hfiles p hp)
  have hmadeSources : ∀ o ∈ outcomes, made.isFile o.1 := fun o ho =>
    hmadeFiles o.1 (hsources o ho)
  rw [outputs, ← houtcomes] at hwritten
  have hkept : ∀ p ∈ files,
      (∀ q code, (q, .ok code) ∈ outcomes → ¬Covers made config.outDir q p) →
      after.files.entryAt p = w.files.entryAt p := fun p hp h =>
    (entryAt_of_not_covers hmadeSources hwritten (hmadeFiles p hp) h).trans
      (hdir.entryAt (hfiles p hp))
  refine ⟨made, outcomes, hmade, houtcomes, ?_, ?_, hkept, ?_, ?_⟩
  · rw [compiled_tally, length_outputs, houtcomes]
  · intro front q code later hsplit hlast p c hp hc
    exact entryAt_of_collide hmadeSources hwritten hplaces hsplit hlast hp hc
  · intro p hp hextension
    exact hkept p hp fun _ _ _ => not_covers_of_extension (hmadeFiles p hp) hextension
  · intro hbeside hextension p code hp
    have hapart : files.Pairwise fun p q => made.locate p ≠ made.locate q :=
      hdistinct.imp_of_mem fun {p q} hp hq hne => by
        rwa [OutputDirectoryMade.locate hdir (hfiles p hp),
          OutputDirectoryMade.locate hdir (hfiles q hq)]
    rw [← hbeside]
    exact entryAt_of_extension hmadeSources hwritten hplaces hbeside
      (fun o ho => hextension o.1 (hsources o ho))
      (houtcomes ▸ pairwise_reached config.failFast config.compile hapart) hp

-- Two classes of one name.

def twinFiles : FileSystem where
  entries := [
    (["a"], .directory),
    (["a", "Main.jack"], .file "class Main { function void f() { return; } }".toByteArray),
    (["b"], .directory),
    (["b", "Main.jack"], .file "class Main { function void g() { return; } }".toByteArray)]

def twins : List Path := [⟨"a/Main.jack"⟩, ⟨"b/Main.jack"⟩]

def intoOut : Config := { outDir := some ⟨"out"⟩ }

theorem isFile_twins : ∀ p ∈ twins, twinFiles.isFile p := by
  decide +kernel

theorem locate_twins : twins.Pairwise fun p q => twinFiles.locate p ≠ twinFiles.locate q := by
  decide +kernel

theorem run_twins :
    (runIn { files := twinFiles } (compileFiles twins intoOut false)).1 =
      .ok { compiled := 2 } := by
  decide +kernel

theorem compileFiles_keeps_twins :
    (runIn { files := twinFiles } (compileFiles twins intoOut false)).2.files.entryAt
        (target ⟨"a/Main.jack"⟩ intoOut.outDir) =
          .ok (.file "function Main.g 0\npush constant 0\nreturn\n".toByteArray) ∧
      (runIn { files := twinFiles } (compileFiles twins intoOut false)).2.files.entryAt
        ⟨"a/Main.jack"⟩ = twinFiles.entryAt ⟨"a/Main.jack"⟩ := by
  have houtcomes : reached intoOut.failFast (outcomesIn twinFiles intoOut.compile twins) =
      [(⟨"a/Main.jack"⟩, .ok "function Main.f 0\npush constant 0\nreturn\n"),
        (⟨"b/Main.jack"⟩, .ok "function Main.g 0\npush constant 0\nreturn\n")] := by
    decide +kernel
  obtain ⟨made, outcomes, -, hreached, -, hlast, -, hsources, -⟩ :=
    compileFiles_keeps (w := { files := twinFiles }) isFile_twins locate_twins
      (Prod.ext run_twins rfl)
  rw [houtcomes] at hreached
  constructor
  · exact hlast [_] ⟨"b/Main.jack"⟩ _ [] hreached (by simp) ⟨"a/Main.jack"⟩ _
      (by rw [hreached]; exact List.mem_cons_self ..) ⟨by decide +kernel, fun h => nomatch h⟩
  · exact hsources _ (List.mem_cons_self ..) (by decide +kernel)

def codeNamedFiles : FileSystem where
  entries := [(["Main.vm"], .file "class Main { function void f() { return; } }".toByteArray)]

/-- Both twins are counted as compiled, but the first one's code is gone. A source
that is named like code gives way to its own. -/
theorem compileFiles_loses :
    ((∀ p ∈ twins, twinFiles.isFile p) ∧
      (twins.Pairwise fun p q => twinFiles.locate p ≠ twinFiles.locate q) ∧
      (runIn { files := twinFiles } (compileFiles twins intoOut false)).1 =
        .ok { compiled := 2 } ∧
      outcomeIn twinFiles {} ⟨"a/Main.jack"⟩ =
        .ok "function Main.f 0\npush constant 0\nreturn\n" ∧
      (runIn { files := twinFiles } (compileFiles twins intoOut false)).2.files.read
        (target ⟨"a/Main.jack"⟩ intoOut.outDir) =
        .ok "function Main.g 0\npush constant 0\nreturn\n") ∧
    codeNamedFiles.read ⟨"Main.vm"⟩ = .ok "class Main { function void f() { return; } }" ∧
      (runIn { files := codeNamedFiles } (compileFiles [⟨"Main.vm"⟩] {} false)).1 =
        .ok { compiled := 1 } ∧
      (runIn { files := codeNamedFiles } (compileFiles [⟨"Main.vm"⟩] {} false)).2.files.read
        ⟨"Main.vm"⟩ = .ok "function Main.f 0\npush constant 0\nreturn\n" :=
  ⟨⟨isFile_twins, locate_twins, run_twins, by decide +kernel, by decide +kernel⟩,
    by decide +kernel, by decide +kernel, by decide +kernel⟩

end JackVM.Batch
