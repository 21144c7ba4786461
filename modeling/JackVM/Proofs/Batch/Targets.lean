import JackVM.Batch.Run
import JackVM.Proofs.Files.Extensions
import JackVM.Proofs.Files.Outputs

/-!
# Where the code of a source goes

The code of a source goes to the stem of its name with the extension for
outputs, in the directory of the source or in the one for outputs. So where it
goes tells no more of the source than its stem and, without a directory for
outputs, the directory it is in. The exception is a name like `..jack`, whose
code goes to the parent directory.
-/

namespace JackVM

open JackVM.Path

variable {fs : FileSystem} {p q : Path} {outDir : Option Path} {n stem : String}
  {front trail : List (List Char)} {piece : List Char} {l m : Location}

namespace Batch

def outputName (stem : String) : String := stem ++ "." ++ outputExtension

theorem outputName_injective {stem stem' : String} (h : outputName stem = outputName stem') :
    stem = stem' := by
  have hlist := congrArg String.toList h
  simpa [outputName, String.toList_inj] using hlist

theorem toList_outputName (stem : String) :
    (outputName stem).toList = stem.toList ++ ['.', 'v', 'm'] := by
  rw [outputName, String.append_assoc, String.toList_append]
  rfl

theorem step?_outputName (stem : String) :
    step? (outputName stem).toList = some (.name (outputName stem)) := by
  have hlast : (outputName stem).toList.getLast? = some 'm' := by
    rw [toList_outputName, List.getLast?_append]
    rfl
  have hne {x : List Char} (hx : x.getLast? ≠ some 'm') : (outputName stem).toList ≠ x :=
    fun h => hx (h ▸ hlast)
  exact step?_eq_name.mpr ⟨hne (by decide), hne (by decide), hne (by decide),
    String.ofList_toList.symm⟩

theorem target_eq : target p outDir =
    match outDir, (p.withExtension outputExtension).fileName? with
    | some dir, some name => dir.child name
    | _, _ => p.withExtension outputExtension := rfl

theorem target_of_output (h : (p.withExtension outputExtension).fileName? = some n) :
    target p outDir = (outDir.map (·.child n)).getD (p.withExtension outputExtension) := by
  cases outDir <;> simp [target_eq, h]

theorem target_of_fileName?_eq_none (h : p.fileName? = none) : target p outDir = p := by
  have houtput : p.withExtension outputExtension = p := by
    simp [withExtension, extension?, replaceAfterStem, h]
  simp [target_eq, houtput, h]

section
variable (ht : ∀ x ∈ trail, isIdle x) (h : p.pieces = front ++ piece :: trail)
  (hn : step? piece = some (.name n)) (hs : String.ofList (splitName piece).1 = stem)
  (hstem : stem = "." → trail ≠ [])
include ht h hn hs hstem

theorem output_pieces :
    (p.withExtension outputExtension).pieces = front ++ [(outputName stem).toList] := by
  have hname : (outputName stem).toList = (splitName piece).1 ++ '.' :: outputExtension.toList := by
    rw [toList_outputName, ← hs, String.toList_ofList]
    rfl
  rw [hname]
  exact withExtension_pieces h ht hn (fun hd => hstem (by rw [← hs, hd])) (by decide)

theorem output_fileName? : (p.withExtension outputExtension).fileName? = some (outputName stem) :=
  fileName?_of_pieces (by simp) (output_pieces ht h hn hs hstem) (step?_outputName stem)

/-- The code goes to its name in the directory that the steps in front lead to. -/
theorem exists_target_pieces (outDir : Option Path) :
    ∃ before, (target p outDir).pieces = before ++ [(outputName stem).toList] ∧
      stepsOf before = (outDir.map Path.steps).getD (stepsOf front) := by
  rw [target_of_output (output_fileName? ht h hn hs hstem)]
  cases outDir with
  | none => exact ⟨front, output_pieces ht h hn hs hstem, rfl⟩
  | some dir =>
    have hpiece : '/' ∉ piece := slash_not_mem_pieces (p := p) (by simp [h])
    have hslash : '/' ∉ (splitName piece).1 := fun hx => hpiece (stem_subset hx)
    exact exists_child_pieces dir (by simp [toList_outputName, ← hs, hslash])

theorem target_steps (outDir : Option Path) :
    (target p outDir).steps =
      (outDir.map Path.steps).getD (stepsOf front) ++ [.name (outputName stem)] := by
  obtain ⟨before, hpieces, hsteps⟩ := exists_target_pieces ht h hn hs hstem outDir
  simp [steps_of_pieces hpieces, step?_outputName, hsteps]

end

theorem target_steps_dots (outDir : Option Path) (h : p.pieces = front ++ [piece])
    (hn : step? piece = some (.name n)) (hs : String.ofList (splitName piece).1 = ".") :
    (target p outDir).steps = stepsOf front ++ [.up] := by
  have hstem : (splitName piece).1 = ['.'] := String.ofList_inj.mp hs
  have hsteps := withExtension_dots outputExtension h hn hstem
  have hnone : (p.withExtension outputExtension).fileName? = none := by
    simp [fileName?, components_last (by simp) hsteps]
  simpa [target_eq, hnone] using hsteps

-- ---------------------------------------------------------------------------
-- Components
-- ---------------------------------------------------------------------------

def endsInName (p : Path) : Bool := p.pieces.getLast? = p.fileName?.map String.toList

theorem exists_stem (h : p.stem? = some stem) :
    ∃ front piece trail n, p.pieces = front ++ piece :: trail ∧ (∀ x ∈ trail, isIdle x) ∧
      step? piece = some (.name n) ∧ String.ofList (splitName piece).1 = stem ∧
      (endsInName p ↔ trail = []) := by
  obtain ⟨n, hn, hs⟩ := Option.map_eq_some_iff.mp h
  obtain ⟨front, trail, hp, ht, hstep⟩ := exists_fileName hn
  refine ⟨front, n.toList, trail, n, hp, ht, hstep, hs, ?_⟩
  rw [endsInName, hn, hp, decide_eq_true_eq, Option.map_some]
  rcases List.eq_nil_or_concat trail with rfl | ⟨between, last, rfl⟩
  · simp
  · have hidle := ht last (by simp)
    have hlast : last ≠ n.toList := by
      rintro rfl
      simpa using step?_of_isIdle hidle hstep
    have hend : (front ++ n.toList :: between.concat last).getLast? = some last := by
      rw [List.concat_eq_append, ← List.cons_append, ← List.append_assoc, List.getLast?_concat]
    rw [hend]
    simp [hlast]

/-- An output goes to its own place, if its name has not just a dot for its stem. -/
theorem target_output (outDir : Option Path) (h : q.pieces = front ++ [(outputName stem).toList])
    (hempty : stem ≠ "") (hdot : stem ≠ ".") :
    target q outDir = (outDir.map (·.child (outputName stem))).getD q := by
  have hne : stem.toList ≠ [] := by simpa using hempty
  have hs : String.ofList (splitName (outputName stem).toList).1 = stem := by
    rw [toList_outputName, splitName_dot hne (by decide), String.ofList_toList]
  have hname := step?_outputName stem
  have hsame : q.withExtension outputExtension = q :=
    eq_of_pieces ((output_pieces (by simp) h hname hs (absurd · hdot)).trans h.symm)
  rw [target_of_output (output_fileName? (by simp) h hname hs (absurd · hdot)), hsame]

/-- An output goes to its own place, except for one called `..vm`, which leads up. -/
theorem target_target_iff (outDir : Option Path) (ht : ∀ x ∈ trail, isIdle x)
    (h : p.pieces = front ++ piece :: trail) (hn : step? piece = some (.name n))
    (hs : String.ofList (splitName piece).1 = stem) :
    target (target p outDir) outDir = target p outDir ↔ stem ≠ "." ∨ trail = [] := by
  by_cases hdot : stem = "."
  · subst hdot
    by_cases hbehind : trail = []
    · subst hbehind
      have hup := components_last (by simp) (target_steps_dots outDir h hn hs)
      have hnone : (target p outDir).fileName? = none := by simp [fileName?, hup]
      simp [target_of_fileName?_eq_none hnone]
    · obtain ⟨before, hpieces, -⟩ := exists_target_pieces ht h hn hs (fun _ => hbehind) outDir
      have hname := step?_outputName "."
      have hup := target_steps_dots outDir hpieces hname (by decide)
      have hsteps : (target p outDir).steps = stepsOf before ++ [.name (outputName ".")] := by
        simp [steps_of_pieces hpieces, hname]
      have hne : target (target p outDir) outDir ≠ target p outDir := by
        intro he
        simp [he, hsteps] at hup
      simp [hne, hbehind]
  · have hempty : stem ≠ "" := by
      rintro rfl
      exact splitName_stem_ne_nil (step?_eq_name.mp hn).1 (String.ofList_inj.mp hs)
    obtain ⟨before, hpieces, -⟩ := exists_target_pieces ht h hn hs (absurd · hdot) outDir
    have hsame := target_output outDir hpieces hempty hdot
    rw [hsame, target_of_output (output_fileName? ht h hn hs (absurd · hdot))]
    cases outDir <;> simp [hdot]

theorem target_getLast? (outDir : Option Path) (h : p.pieces = front ++ [piece])
    (hn : step? piece = some (.name n)) (hs : String.ofList (splitName piece).1 = stem) :
    (target p outDir).components.getLast? =
      some (if stem = "." then .up else .name (outputName stem)) := by
  by_cases hdot : stem = "."
  · rw [if_pos hdot]
    exact components_last (by simp) (target_steps_dots outDir h hn (hs.trans hdot))
  · rw [if_neg hdot]
    exact components_last (by simp) (target_steps (by simp) h hn hs (absurd · hdot) outDir)

theorem components_target (outDir : Option Path) (h : p.stem? = some stem) :
    -- The code goes to the stem, in the directory of the source or in that for outputs.
    (stem ≠ "." ∨ ¬endsInName p →
      (target p outDir).components =
          (outDir.map Path.components).getD p.components.dropLast ++ [.name (outputName stem)] ∧
        (target p outDir).fileName? = some (outputName stem)) ∧
    -- Only a name like `..jack` leads up, if the path ends with it.
    (stem = "." → endsInName p → (target p outDir).components = p.components.dropLast ++ [.up]) ∧
    (target (target p outDir) outDir = target p outDir ↔ stem ≠ "." ∨ endsInName p) := by
  obtain ⟨front, piece, trail, n, hp, ht, hn, hs, hends⟩ := exists_stem h
  have hfront : p.components.dropLast = kept (stepsOf front) := by
    rw [components_of_trail ht hp hn (by simp), List.dropLast_concat]
  rw [hfront, hends]
  refine ⟨fun hname => ?_, ?_, target_target_iff outDir ht hp hn hs⟩
  · have hsteps := target_steps ht hp hn hs (by simpa [Decidable.imp_iff_not_or] using hname) outDir
    refine ⟨?_, fileName?_of_steps hsteps⟩
    rw [components_of_steps (by simp) hsteps]
    cases outDir <;> simp [components_eq]
  · rintro rfl rfl
    exact components_of_steps (by simp) (target_steps_dots outDir hp hn hs)

theorem components_target_dotted :
    (target ⟨"lib//a.b.jack/."⟩ (some ⟨"./build/"⟩)).components =
        [.here, .name "build", .name "a.b.vm"] ∧
      target (target ⟨"lib//a.b.jack/."⟩ (some ⟨"./build/"⟩)) (some ⟨"./build/"⟩) =
        target ⟨"lib//a.b.jack/."⟩ (some ⟨"./build/"⟩) := by
  obtain ⟨hnamed, -, hsame⟩ :=
    components_target (some ⟨"./build/"⟩)
      (by decide : Path.stem? ⟨"lib//a.b.jack/."⟩ = some "a.b")
  exact ⟨(hnamed (by decide)).1, hsame.mpr (.inl (by decide))⟩

/-- The code of `..jack` goes to the parent directory, with and without a directory for
outputs. That of `..jack/` goes to `..vm`, but the output of `..vm` goes up. -/
theorem target_misses_dots :
    Path.stem? ⟨"..jack"⟩ = some "." ∧ target ⟨"..jack"⟩ none = ⟨".."⟩ ∧
      target ⟨"..jack"⟩ (some ⟨"build"⟩) = ⟨".."⟩ ∧ Path.fileName? ⟨".."⟩ = none ∧
    Path.stem? ⟨"..jack/"⟩ = some "." ∧ target ⟨"..jack/"⟩ none = ⟨"..vm"⟩ ∧
      target (target ⟨"..jack/"⟩ none) none = ⟨".."⟩ := by
  decide

-- ---------------------------------------------------------------------------
-- Places
-- ---------------------------------------------------------------------------

open FileSystem

theorem isFile_named (h : fs.isFile p) (hn : p.fileName? = some n) :
    ∃ front piece parent, p.pieces = front ++ [piece] ∧ step? piece = some (.name n) ∧
      fs.walk fs.workingDirectory (stepsOf front) = .ok parent ∧
      fs.locate p = .ok (parent ++ [n]) := by
  obtain ⟨l, hl, hk⟩ := isFile_iff.mp h
  obtain ⟨-, htext, hw, hslash⟩ := locate_ok.mp hl
  obtain ⟨front, piece, hp⟩ := p.exists_pieces
  have hne : piece ≠ [] := by
    intro hnil
    rcases (last_piece_eq_nil hp).mp hnil with hempty | hs
    · simp [htext] at hempty
    · simp [hslash hs] at hk
  obtain ⟨s, hs⟩ := Option.ne_none_iff_exists'.mp (mt step?_eq_none.mp hne)
  have hsteps : p.steps = stepsOf front ++ [s] := by simp [steps_of_pieces hp, hs]
  obtain ⟨parent, hparent, hlast⟩ := walk_concat_ok.mp (hsteps ▸ hw)
  cases s with
  | root => exact absurd hs (step?_ne_root piece)
  | here =>
    obtain ⟨he, rfl⟩ := step_here_ok.mp hlast
    simp [(enter_ok.mp he).1] at hk
  | up => simp [fileName?, components_last (by simp) hsteps] at hn
  | name n' =>
    obtain ⟨-, -, -, rfl⟩ := step_name_ok.mp hlast
    obtain rfl : n' = n := by simpa [fileName?_of_steps hsteps] using hn
    exact ⟨front, piece, parent, hp, hs, hparent, hl⟩

def outputDirectory (fs : FileSystem) (l : Location) : Option Path → Except FileError Location
  | none => .ok l.dropLast
  | some dir => fs.walk fs.workingDirectory dir.steps

theorem outlet_target (h : fs.isFile p) (hl : fs.locate p = .ok l)
    (ho : fs.outlet (target p outDir) = .ok m) :
    ∃ stem base, p.stem? = some stem ∧ outputDirectory fs l outDir = .ok base ∧
      m = base ++ [outputName stem] := by
  obtain ⟨before, base, name, hsteps, hbase, -, -, rfl⟩ := newLocation_ok.mp (outlet_ok.mp ho).2.1
  cases hn : p.fileName? with
  | none =>
    rw [target_of_fileName?_eq_none hn] at hsteps
    simp [fileName?_of_steps hsteps] at hn
  | some n =>
    obtain ⟨front, piece, parent, hp, hpiece, hparent, hl'⟩ := isFile_named h hn
    obtain rfl : parent ++ [n] = l := Except.ok.inj (hl'.symm.trans hl)
    obtain ⟨-, -, -, hname⟩ := step?_eq_name.mp hpiece
    have hstem : p.stem? = some (String.ofList (splitName piece).1) := by
      simp [stem?, hn, hname]
    by_cases hdot : String.ofList (splitName piece).1 = "."
    · have hup := (target_steps_dots outDir hp hpiece hdot).symm.trans hsteps
      simpa using congrArg List.getLast? hup
    · have hname := (target_steps (by simp) hp hpiece rfl (absurd · hdot) outDir).symm.trans hsteps
      obtain ⟨rfl, hlast⟩ := List.append_inj' hname rfl
      refine ⟨_, base, hstem, ?_, by simpa [eq_comm] using hlast⟩
      cases outDir with
      | none => simpa [outputDirectory, hparent] using hbase
      | some dir => exact hbase

end Batch

end JackVM
