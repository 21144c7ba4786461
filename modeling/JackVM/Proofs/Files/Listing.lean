import Mathlib.Data.List.Nodup
import JackVM.Proofs.Files.Names
import JackVM.Proofs.Files.Walking

/-!
# Listing directories

If a file system lists each place once, the order in which it lists them shows in
nothing but the order of the names in a directory.
-/

namespace JackVM.FileSystem

variable {fs fs' : FileSystem} {entries : List (Location × Entry)} {l : Location} {e : Entry}
  {n : String} {p : Path}

/-- Each place is listed once, under names that a path can hold. -/
structure WellFormed (fs : FileSystem) : Prop where
  once : (fs.entries.map Prod.fst).Nodup
  named : ∀ entry ∈ fs.entries, ∀ n ∈ entry.1,
    '/' ∉ n.toList ∧ Path.step? n.toList = some (.name n)

theorem lookup_eq_some_iff_mem (h : (entries.map Prod.fst).Nodup) :
    entries.lookup l = some e ↔ (l, e) ∈ entries := by
  induction entries with
  | nil => simp
  | cons entry entries ih =>
    obtain ⟨k, old⟩ := entry
    obtain ⟨hk, hrest⟩ := List.nodup_cons.mp h
    have hnew : ∀ e, (k, e) ∉ entries := fun e he => hk (List.mem_map.mpr ⟨_, he, rfl⟩)
    rw [List.lookup_cons]
    by_cases hl : l = k
    · subst hl
      simp [hnew, eq_comm]
    · simp [beq_false_of_ne hl, hl, ih hrest]

def fileNameIn? (l : Location) (entry : Location × Entry) : Option String :=
  match entry.1.getLast?, entry.2 with
  | some n, .file _ => if entry.1.dropLast = l then some n else none
  | _, _ => none

theorem fileNames_eq : fs.fileNames l = fs.entries.filterMap (fileNameIn? l) := rfl

theorem fileNameIn?_eq_some {entry : Location × Entry} :
    fileNameIn? l entry = some n ↔ ∃ bytes, entry = (l ++ [n], .file bytes) := by
  obtain ⟨k, e⟩ := entry
  unfold fileNameIn?
  rcases List.eq_nil_or_concat k with rfl | ⟨before, last, rfl⟩
  · simp
  · cases e with
    | directory => simp
    | file bytes =>
      have hparts : before ++ [last] = l ++ [n] ↔ before = l ∧ last = n :=
        ⟨fun h => (List.append_inj' h rfl).imp_right List.singleton_inj.mp,
          fun ⟨hb, hn⟩ => hb ▸ hn ▸ rfl⟩
      simp [hparts]

section
variable (h : fs.WellFormed)
include h

theorem mem_fileNames : n ∈ fs.fileNames l ↔ fs.kind? (l ++ [n]) = some .file := by
  have hkind : fs.kind? (l ++ [n]) = some .file ↔
      ∃ bytes, fs.entries.lookup (l ++ [n]) = some (.file bytes) := by
    rw [kind?, find?, if_neg (by simp), Option.map_eq_some_iff]
    constructor
    · rintro ⟨e, he, hk⟩
      cases e with
      | directory => cases hk
      | file bytes => exact ⟨bytes, he⟩
    · rintro ⟨bytes, hb⟩
      exact ⟨_, hb, rfl⟩
  simp only [hkind, fileNames_eq, List.mem_filterMap, fileNameIn?_eq_some,
    lookup_eq_some_iff_mem h.once]
  constructor
  · rintro ⟨_, he, bytes, rfl⟩
    exact ⟨bytes, he⟩
  · rintro ⟨bytes, he⟩
    exact ⟨_, he, bytes, rfl⟩

theorem nodup_fileNames : (fs.fileNames l).Nodup := by
  refine List.pairwise_filterMap.mpr ((List.pairwise_map.mp h.once).imp ?_)
  rintro entry entry' hne n hn _ hn' rfl
  obtain ⟨_, rfl⟩ := fileNameIn?_eq_some.mp hn
  obtain ⟨_, rfl⟩ := fileNameIn?_eq_some.mp hn'
  exact hne rfl

theorem named_of_mem_fileNames (hn : n ∈ fs.fileNames l) :
    '/' ∉ n.toList ∧ Path.step? n.toList = some (.name n) := by
  obtain ⟨entry, he, hname⟩ := List.mem_filterMap.mp (fileNames_eq ▸ hn)
  obtain ⟨_, rfl⟩ := fileNameIn?_eq_some.mp hname
  exact h.named _ he n (by simp)

end

-- ---------------------------------------------------------------------------
-- Another order
-- ---------------------------------------------------------------------------

section
variable (h : fs.WellFormed) (hp : entries.Perm fs.entries)
include h hp

theorem find?_perm : { fs with entries }.find? l = fs.find? l := by
  have honce : (entries.map Prod.fst).Nodup := (hp.map Prod.fst).nodup_iff.mpr h.once
  have hlookup : entries.lookup l = fs.entries.lookup l := by
    refine Option.ext fun e => ?_
    rw [lookup_eq_some_iff_mem honce, lookup_eq_some_iff_mem h.once, hp.mem_iff]
  simp [find?, hlookup]

theorem kind?_perm : { fs with entries }.kind? l = fs.kind? l := by
  simp [kind?, find?_perm h hp]

theorem step_perm {s : PathStep} : { fs with entries }.step l s = fs.step l s := by
  cases s <;> simp [step, enter, requireDirectory, permit, kind?_perm h hp]

theorem walk_perm {steps : List PathStep} : { fs with entries }.walk l steps = fs.walk l steps := by
  have hstep : { fs with entries }.step = fs.step := funext₂ fun _ _ => step_perm h hp
  simp [walk, hstep]

theorem locate_perm : { fs with entries }.locate p = fs.locate p := by
  simp [locate, walk_perm h hp, requireDirectory, kind?_perm h hp]

theorem kindAt?_perm : { fs with entries }.kindAt? p = fs.kindAt? p := by
  simp [kindAt?, entryAt, locate_perm h hp, find?_perm h hp]

end

theorem fileNames_perm (hp : entries.Perm fs.entries) :
    ({ fs with entries }.fileNames l).Perm (fs.fileNames l) := hp.filterMap _

def listable (fs : FileSystem) (p : Path) : Except FileError Location := do
  let l ← fs.locate p
  fs.requireDirectory l
  fs.permit .read l
  return l

theorem listable_ok :
    fs.listable p = .ok l ↔
      fs.locate p = .ok l ∧ fs.kind? l = some .directory ∧ fs.refusal? .read l = none := by
  rw [listable, bind_ok]
  simp only [seq_ok, requireDirectory_ok, permit_ok, pure_ok]
  constructor
  · rintro ⟨_, hl, hk, hr, rfl⟩
    exact ⟨hl, hk, hr⟩
  · rintro ⟨hl, hk, hr⟩
    exact ⟨l, hl, hk, hr, rfl⟩

theorem fileNamesAt_eq : fs.fileNamesAt p = (fs.listable p).map fs.fileNames := by
  unfold fileNamesAt listable
  cases fs.locate p with
  | error e => rfl
  | ok l =>
    simp only [ok_bind]
    cases fs.requireDirectory l with
    | error e => rfl
    | ok _ =>
      simp only [ok_bind]
      cases fs.permit .read l <;> rfl

theorem listable_perm (h : fs.WellFormed) (hp : entries.Perm fs.entries) :
    { fs with entries }.listable p = fs.listable p := by
  simp [listable, locate_perm h hp, requireDirectory, kind?_perm h hp, permit]

end JackVM.FileSystem
