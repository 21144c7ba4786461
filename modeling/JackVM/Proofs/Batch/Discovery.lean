import Mathlib.Data.List.Forall2
import JackVM.Proofs.Batch.Starting
import JackVM.Proofs.Batch.Targets
import JackVM.Proofs.Files.Listing
import JackVM.Proofs.Layout.ByteOrder

/-!
# The sources of a batch

A file stands for itself. A directory stands for the files right inside it with the
extension for sources, in the order of the bytes of their names, in whatever order
they are listed. Their code goes to different places.
-/

namespace JackVM.Batch

open JackVM.Path FileSystem Text

variable {w : World} {fs : FileSystem} {entries : List (Location × Entry)} {input p : Path}
  {inputs : List Path} {outDir : Option Path} {names names' : List String} {n n' : String}
  {l : Location}

-- ---------------------------------------------------------------------------
-- Names of sources
-- ---------------------------------------------------------------------------

theorem mem_sourceNames :
    n ∈ sourceNames names ↔ n ∈ names ∧ Path.extension? ⟨n⟩ = some sourceExtension := by
  simp [sourceNames, List.mem_mergeSort]

theorem sourceNames_sorted (names : List String) : (sourceNames names).Pairwise (· ≤ ·) := by
  have hsorted := @List.pairwise_mergeSort String (fun a b => decide (a ≤ b))
    (by simpa using fun _ _ _ => String.le_trans) (by simpa using String.le_total)
    (names.filter fun n => (⟨n⟩ : Path).extension? = some sourceExtension)
  simpa [sourceNames] using hsorted

/-- Names in order are the names of sources, if they are these names in any order. -/
theorem sourceNames_eq
    (h : (names.filter fun n => Path.extension? ⟨n⟩ = some sourceExtension).Perm names')
    (hsorted : names'.Pairwise (· ≤ ·)) : sourceNames names = names' :=
  List.Perm.eq_of_pairwise (fun _ _ _ _ => String.le_antisymm) (sourceNames_sorted names) hsorted
    ((List.mergeSort_perm ..).trans h)

theorem sourceNames_perm (h : names.Perm names') : sourceNames names = sourceNames names' :=
  sourceNames_eq ((h.filter _).trans (List.mergeSort_perm ..).symm) (sourceNames_sorted names')

theorem sourceNames_ordered (h : names.Nodup) :
    (sourceNames names).Pairwise fun a b => bytes a.toList < bytes b.toList := by
  have hnodup : (sourceNames names).Nodup := (List.mergeSort_perm ..).nodup_iff.mpr (h.filter _)
  refine (sourceNames_sorted names).imp₂ (fun a b hle hne => bytes_lt ?_) hnodup
  have hlt : a < b := String.not_le.mp fun hge => hne (String.le_antisymm hle hge)
  exact String.lt_iff.mp hlt

-- ---------------------------------------------------------------------------
-- Entries of a directory
-- ---------------------------------------------------------------------------

section
variable (input) (hslash : '/' ∉ n.toList) (hn : step? n.toList = some (.name n))
include hslash hn

theorem extension?_child : (input.child n).extension? = Path.extension? ⟨n⟩ := by
  have hpieces : Path.pieces ⟨n⟩ = [] ++ [n.toList] := by
    simp [Path.pieces, split_of_not_mem hslash]
  have hname := fileName?_of_pieces (by simp) hpieces hn
  have hchild := fileName?_of_steps (child_steps (d := input) hslash hn).1
  simp [Path.extension?, hname, hchild]

/-- The code of a source in a directory goes to a place that tells its stem. -/
theorem target_child_getLast? (outDir : Option Path)
    (hsource : Path.extension? ⟨n⟩ = some sourceExtension) :
    ∃ stem, n = stem ++ "." ++ sourceExtension ∧
      (target (input.child n) outDir).components.getLast? =
        some (if stem = "." then .up else .name (outputName stem)) := by
  obtain ⟨before, hpieces, -⟩ := exists_child_pieces input hslash
  refine ⟨String.ofList (splitName n.toList).1, ?_,
    target_getLast? outDir hpieces hn rfl⟩
  have hchild := fileName?_of_pieces (by simp) hpieces hn
  rw [← extension?_child input hslash hn] at hsource
  obtain ⟨e, hsplit, he⟩ : ∃ e, (splitName n.toList).2 = some e ∧
      String.ofList e = sourceExtension := by
    simpa [Path.extension?, hchild] using hsource
  have hext : sourceExtension.toList = e := by rw [← he, String.toList_ofList]
  rw [← String.toList_inj]
  simp [hext, splitName_some hsplit]

end

/-- Sources in one directory have their code in different places. -/
theorem target_child_injective (hsource : Path.extension? ⟨n⟩ = some sourceExtension)
    (hsource' : Path.extension? ⟨n'⟩ = some sourceExtension)
    (hn : '/' ∉ n.toList ∧ step? n.toList = some (.name n))
    (hn' : '/' ∉ n'.toList ∧ step? n'.toList = some (.name n'))
    (h : (target (input.child n) outDir).components = (target (input.child n') outDir).components) :
    n = n' := by
  obtain ⟨stem, rfl, hlast⟩ := target_child_getLast? input hn.1 hn.2 outDir hsource
  obtain ⟨stem', rfl, hlast'⟩ := target_child_getLast? input hn'.1 hn'.2 outDir hsource'
  rw [h, hlast', Option.some.injEq] at hlast
  by_cases hdot : stem = "."
  · by_cases hdot' : stem' = "."
    · rw [hdot, hdot']
    · simp [hdot, hdot'] at hlast
  · by_cases hdot' : stem' = "."
    · simp [hdot, hdot'] at hlast
    · have hname : outputName stem' = outputName stem := by simpa [hdot, hdot'] using hlast
      rw [outputName_injective hname]

-- ---------------------------------------------------------------------------
-- Sources
-- ---------------------------------------------------------------------------

theorem readable_iff :
    Readable fs input ↔ fs.isFile input ∨ ∃ l, fs.locate input = .ok l ∧
      fs.kind? l = some .directory ∧ fs.refusal? .read l = none := by
  rw [Readable, fileNamesAt_eq, isDirectory_iff]
  simp only [← listable_ok]
  refine or_congr_right ?_
  constructor
  · rintro ⟨-, hok⟩
    cases hl : fs.listable input with
    | error e => simp [hl, Except.map, Except.isOk, Except.toBool] at hok
    | ok l => exact ⟨l, rfl⟩
  · rintro ⟨l, hl⟩
    obtain ⟨hlocate, hk, -⟩ := listable_ok.mp hl
    exact ⟨⟨l, hlocate, hk⟩, by simp [hl, Except.map, Except.isOk, Except.toBool]⟩

inductive StandsFor (fs : FileSystem) (input : Path) : List Path → Prop
  | file : fs.isFile input → StandsFor fs input [input]
  | directory {l : Location} {names : List String} :
    fs.locate input = .ok l → fs.kind? l = some .directory → fs.refusal? .read l = none →
    (names.Pairwise fun a b => bytes a.toList < bytes b.toList) →
    (∀ n, n ∈ names ↔ fs.kind? (l ++ [n]) = some .file ∧
      (input.child n).extension? = some sourceExtension) →
    StandsFor fs input (names.map input.child)

theorem standsFor_sourcesOf (h : fs.WellFormed) (hr : Readable fs input) :
    StandsFor fs input (sourcesOf fs input) := by
  unfold sourcesOf
  by_cases hfile : fs.isFile input
  · rw [if_pos hfile]
    exact .file hfile
  rw [if_neg hfile, fileNamesAt_eq]
  obtain ⟨l, hlocate, hk, hr⟩ := (readable_iff.mp hr).resolve_left hfile
  simp only [listable_ok.mpr ⟨hlocate, hk, hr⟩, Except.map]
  refine .directory hlocate hk hr (sourceNames_ordered (nodup_fileNames h)) fun n => ?_
  rw [mem_sourceNames, ← mem_fileNames h]
  refine and_congr_right fun hn => ?_
  obtain ⟨hslash, hstep⟩ := named_of_mem_fileNames h hn
  rw [extension?_child input hslash hstep]

theorem targets_apart (h : fs.WellFormed) (outDir : Option Path) :
    (sourcesOf fs input).Pairwise fun p q =>
      (target p outDir).components ≠ (target q outDir).components := by
  unfold sourcesOf
  split
  · exact List.pairwise_singleton ..
  rw [fileNamesAt_eq]
  cases fs.listable input with
  | error e => exact .nil
  | ok l =>
    have hnodup : (sourceNames (fs.fileNames l)).Nodup :=
      (List.mergeSort_perm ..).nodup_iff.mpr ((nodup_fileNames h).filter _)
    refine List.pairwise_map.mpr (hnodup.imp_of_mem fun {n n'} hn hn' hne hsame => hne ?_)
    obtain ⟨hlisted, hsource⟩ := mem_sourceNames.mp hn
    obtain ⟨hlisted', hsource'⟩ := mem_sourceNames.mp hn'
    exact target_child_injective hsource hsource' (named_of_mem_fileNames h hlisted)
      (named_of_mem_fileNames h hlisted') hsame

theorem sourcesAt_kept : (runIn w (sourcesAt input)).2 = w := by
  by_cases hr : Readable w.files input
  · rw [sourcesAt_run hr]
  · obtain ⟨e, he⟩ := sourcesAt_refused hr
    rw [he]

section
variable (h : w.files.WellFormed) (hp : entries.Perm w.files.entries)
include h hp

theorem sourcesAt_perm :
    runIn { w with files := { w.files with entries } } (sourcesAt input) =
      ((runIn w (sourcesAt input)).1, { w with files := { w.files with entries } }) := by
  unfold sourcesAt
  simp only [runIn_bind, runIn_kindAt?, kindAt?_perm h hp]
  cases w.files.kindAt? input with
  | none => rfl
  | some k =>
    cases k with
    | file | other => rfl
    | directory =>
      simp only [runIn_bind, runIn_fileNamesAt, fileNamesAt_eq, listable_perm h hp]
      cases w.files.listable input with
      | error e => rfl
      | ok l => simp [Except.map, sourceNames_perm (fileNames_perm (l := l) hp)]

theorem sources_perm :
    runIn { w with files := { w.files with entries } } (sources inputs) =
      ((runIn w (sources inputs)).1, { w with files := { w.files with entries } }) := by
  induction inputs with
  | nil => rfl
  | cons input rest ih =>
    simp only [sources, runIn_bind, sourcesAt_perm h hp]
    obtain ⟨r, hr⟩ : ∃ r, runIn w (sourcesAt input) = (r, w) := ⟨_, Prod.ext rfl sourcesAt_kept⟩
    rw [hr]
    cases r with
    | error e => rfl
    | ok found =>
      simp only [ih]
      cases runIn w (sources rest) with
      | mk r w' => cases r <;> rfl

end

theorem sources_discovers (h : w.files.WellFormed) (inputs : List Path) :
    -- Each input must be a file or a directory that may be read.
    ((∃ files, runIn w (sources inputs) = (.ok files, w)) ↔
      ∀ input ∈ inputs, w.files.isFile input ∨ ∃ l, w.files.locate input = .ok l ∧
        w.files.kind? l = some .directory ∧ w.files.refusal? .read l = none) ∧
    -- The inputs give their sources in order, and those of one directory do not
    -- have their code in the same place.
    (∀ files, (runIn w (sources inputs)).1 = .ok files →
      ∃ parts, files = parts.flatten ∧ List.Forall₂ (StandsFor w.files) inputs parts ∧
        ∀ part ∈ parts, ∀ outDir, part.Pairwise fun p q =>
          (target p outDir).components ≠ (target q outDir).components) ∧
    -- The order in which the entries are listed does not matter.
    ∀ entries, entries.Perm w.files.entries →
      (runIn { w with files := { w.files with entries } } (sources inputs)).1 =
        (runIn w (sources inputs)).1 := by
  have hok : (∀ input ∈ inputs, Readable w.files input) ∨
      ∃ e, runIn w (sources inputs) = (.error e, w) := by
    by_cases hall : ∀ input ∈ inputs, Readable w.files input
    · exact .inl hall
    · exact .inr (sources_refused (by simpa using hall))
  simp only [← readable_iff]
  refine ⟨⟨fun ⟨files, hrun⟩ => ?_, fun hall => ⟨_, sources_run hall⟩⟩, fun files hrun => ?_,
    fun entries hp => by rw [sources_perm h hp]⟩
  · rcases hok with hall | ⟨e, he⟩
    · exact hall
    · simp [he] at hrun
  · rcases hok with hall | ⟨e, he⟩
    · obtain rfl : inputs.flatMap (sourcesOf w.files) = files := by
        simpa [sources_run hall] using hrun
      refine ⟨inputs.map (sourcesOf w.files), List.flatMap_def .., ?_, ?_⟩
      · rw [List.forall₂_map_right_iff, List.forall₂_same]
        exact fun input hinput => standsFor_sourcesOf h (hall input hinput)
      · simp only [List.forall_mem_map]
        exact fun input _ outDir => targets_apart h outDir
    · simp [he] at hrun

def scattered : World where
  files := {
    entries := [
      (["src"], .directory),
      (["src", "b.jack"], .file .empty),
      (["src", "old.jack"], .directory),
      (["src", "old.jack", "a.jack"], .file .empty),
      (["src", "a.b.jack"], .file .empty),
      (["src", ".jack"], .file .empty),
      (["src", "..jack"], .file .empty),
      (["main.txt"], .file .empty)] }

theorem sources_scattered :
    (runIn scattered (sources [⟨"main.txt"⟩, ⟨"src"⟩])).1 =
      .ok [⟨"main.txt"⟩, ⟨"src/..jack"⟩, ⟨"src/a.b.jack"⟩, ⟨"src/b.jack"⟩] := by
  have hlisted : scattered.files.fileNamesAt ⟨"src"⟩ =
      .ok ["b.jack", "a.b.jack", ".jack", "..jack"] := by
    decide
  have hnames : sourceNames ["b.jack", "a.b.jack", ".jack", "..jack"] =
      ["..jack", "a.b.jack", "b.jack"] :=
    sourceNames_eq (by decide) (by decide)
  have hfile : scattered.files.isFile ⟨"main.txt"⟩ ∧ ¬scattered.files.isFile ⟨"src"⟩ := by
    decide
  rw [sources_run (by decide)]
  simp [sourcesOf, hfile, hlisted, hnames]
  decide

theorem sources_discovers_scattered :
    scattered.files.WellFormed ∧
      (runIn { scattered with files :=
          { scattered.files with entries := scattered.files.entries.reverse } }
        (sources [⟨"main.txt"⟩, ⟨"src"⟩])).1 =
      .ok [⟨"main.txt"⟩, ⟨"src/..jack"⟩, ⟨"src/a.b.jack"⟩, ⟨"src/b.jack"⟩] := by
  have hformed : scattered.files.WellFormed := ⟨by decide, by decide⟩
  obtain ⟨-, -, hsame⟩ := sources_discovers hformed [⟨"main.txt"⟩, ⟨"src"⟩]
  exact ⟨hformed, (hsame _ (List.reverse_perm _)).trans sources_scattered⟩

end JackVM.Batch
