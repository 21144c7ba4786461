import JackVM.Proofs.Files.Outputs

/-!
# Making directories

When a directory has been made, with what was missing on the way to it, all that
was there is as it was, and what is new are directories that its path passes
through.
-/

namespace JackVM.FileSystem

variable {fs fs' fs'' : FileSystem} {l : Location} {steps way : List PathStep} {p : Path}

/-- Only directories have been made, each where some first steps of the way lead. -/
structure MadeAlong (way : List PathStep) (fs fs' : FileSystem) : Prop where
  workingDirectory : fs'.workingDirectory = fs.workingDirectory
  refusal : fs'.refusal? = fs.refusal?
  old {l : Location} {e : Entry} : fs.find? l = some e → fs'.find? l = some e
  new {l : Location} : fs.find? l = none → fs'.find? l ≠ none →
    fs'.find? l = some .directory ∧ ∃ n, fs'.walk fs'.workingDirectory (way.take n) = .ok l

namespace MadeAlong

theorem refl : MadeAlong way fs fs := ⟨rfl, rfl, id, fun h h' => absurd h h'⟩

theorem keeps (h : MadeAlong way fs fs') : fs.Keeps fs' :=
  .of_find? h.workingDirectory h.refusal h.old

theorem trans {k : Nat} (h : MadeAlong (way.take k) fs fs') (h' : MadeAlong way fs' fs'') :
    MadeAlong way fs fs'' where
  workingDirectory := h'.workingDirectory.trans h.workingDirectory
  refusal := h'.refusal.trans h.refusal
  old he := h'.old (h.old he)
  new {l} hn hs := by
    cases hm : fs'.find? l with
    | none => exact h'.new hm hs
    | some e =>
      obtain ⟨hd, n, hw⟩ := h.new hn (by simp [hm])
      refine ⟨h'.old hd, min n k, ?_⟩
      rw [List.take_take] at hw
      exact h'.workingDirectory ▸ h'.keeps.walk hw

end MadeAlong

theorem makeDirectory_made (hway : ∀ {fs : FileSystem} {l l'}, fs.walk l steps = .ok l' →
    fs.walk l way = .ok l') (h : fs.makeDirectory steps = .ok fs') :
    MadeAlong way fs fs' ∧
      ∃ l, fs'.walk fs'.workingDirectory steps = .ok l ∧ fs'.kind? l = some .directory := by
  simp only [makeDirectory, bind_ok, unless_ok, pure_ok, Bool.not_eq_true,
    Option.isSome_eq_false_iff, Option.isNone_iff_eq_none] at h
  obtain ⟨l, hn, hnone, _, -, rfl⟩ := h
  have hl := newLocation_ne_nil hn
  obtain ⟨before, parent, n, rfl, hw, he, hle, rfl⟩ := newLocation_ok.mp hn
  have hfree : fs.find? (parent ++ [n]) = none := by simpa [kind?] using hnone
  have hold {k : Location} {e : Entry} (hk : fs.find? k = some e) :
      (fs.put (parent ++ [n]) .directory).find? k = some e := by
    rw [put_find? hl, Function.update_of_ne (fun h => by simp [h, hfree] at hk), hk]
  have hkeeps : fs.Keeps (fs.put (parent ++ [n]) .directory) :=
    .of_find? (put_workingDirectory _) (put_refusal? _) hold
  have hthere : (fs.put (parent ++ [n]) .directory).find? (parent ++ [n]) = some .directory := by
    rw [put_find? hl, Function.update_self]
  have hwalk : (fs.put (parent ++ [n]) .directory).walk fs.workingDirectory (before ++ [.name n]) =
      .ok (parent ++ [n]) :=
    walk_concat_ok.mpr ⟨parent, hkeeps.walk hw,
      step_name_ok.mpr ⟨hkeeps.enter he, hle, by simp [kind?, hthere], rfl⟩⟩
  refine ⟨⟨hkeeps.workingDirectory, hkeeps.refusal, hold, ?_⟩, parent ++ [n], ?_, ?_⟩
  · intro k hk hs
    rw [put_find? hl, Function.update_apply] at hs ⊢
    split at hs
    · next heq =>
      subst heq
      refine ⟨by simp, way.length, ?_⟩
      rw [List.take_length, hkeeps.workingDirectory]
      exact hway hwalk
    · exact absurd hk hs
  · exact hkeeps.workingDirectory ▸ hwalk
  · simp [kind?, hthere, Entry.kind]

theorem orPresent_ok {e : FileError} (h : fs.orPresent steps e = .ok fs') :
    fs' = fs ∧ ∃ l, fs'.walk fs'.workingDirectory steps = .ok l ∧
      fs'.kind? l = some .directory := by
  unfold orPresent at h
  split at h
  · next hd =>
    obtain rfl := Except.ok.inj h
    obtain ⟨l, hw, hd⟩ := bind_ok.mp hd
    exact ⟨rfl, l, hw, requireDirectory_ok.mp hd⟩
  · cases h

theorem ensureDirectory_made {makeParent : FileSystem → Except FileError FileSystem} {k : Nat}
    (hway : ∀ {fs : FileSystem} {l l'}, fs.walk l steps = .ok l' → fs.walk l way = .ok l')
    (hparent : ∀ {fs fs'}, makeParent fs = .ok fs' → MadeAlong (way.take k) fs fs')
    (h : ensureDirectory steps makeParent fs = .ok fs') :
    MadeAlong way fs fs' ∧
      ∃ l, fs'.walk fs'.workingDirectory steps = .ok l ∧ fs'.kind? l = some .directory := by
  unfold ensureDirectory at h
  split at h
  · next hm =>
    obtain rfl := Except.ok.inj h
    exact makeDirectory_made hway hm
  · obtain ⟨fs₁, hp, h⟩ := bind_ok.mp h
    split at h
    · next hm =>
      obtain rfl := Except.ok.inj h
      obtain ⟨hmade, hthere⟩ := makeDirectory_made hway hm
      exact ⟨(hparent hp).trans hmade, hthere⟩
    · obtain ⟨rfl, hthere⟩ := orPresent_ok h
      exact ⟨(hparent hp).trans .refl, hthere⟩
  · obtain ⟨rfl, hthere⟩ := orPresent_ok h
    exact ⟨.refl, hthere⟩

theorem ensureComponents_made {cs : List PathStep} (h : ensureComponents cs fs = .ok fs') :
    MadeAlong cs.reverse fs fs' := by
  induction cs generalizing fs fs' with
  | nil =>
    obtain rfl := Except.ok.inj h
    exact .refl
  | cons last before ih =>
    have hparent {fs fs'} (h : ensureComponents before fs = .ok fs') :
        MadeAlong ((last :: before).reverse.take before.length) fs fs' := by
      simpa [List.take_left'] using ih h
    exact (ensureDirectory_made id hparent h).1

theorem makeDirectories_made (h : fs.makeDirectories p = .ok fs') :
    MadeAlong p.components fs fs' ∧ (p.text.isEmpty = false → fs'.isDirectory p) := by
  obtain ⟨hc, h⟩ := seq_ok.mp h
  split at h
  · next he =>
    obtain rfl := pure_ok.mp h
    exact ⟨.refl, fun hn => by simp [he] at hn⟩
  · next he =>
    have hparent {fs fs'} (h : ensureComponents p.components.dropLast.reverse fs = .ok fs') :
        MadeAlong (p.components.take (p.components.length - 1)) fs fs' := by
      simpa [List.dropLast_eq_take] using ensureComponents_made h
    obtain ⟨hmade, l, hw, hd⟩ := ensureDirectory_made walk_components hparent h
    refine ⟨hmade, fun hn => isDirectory_iff.mpr ⟨l, ?_, hd⟩⟩
    exact locate_ok.mpr ⟨hc, hn, hw, fun _ => hd⟩

-- ---------------------------------------------------------------------------
-- Output directories
-- ---------------------------------------------------------------------------

def withOutputDirectory (fs : FileSystem) : Option Path → Except FileError FileSystem
  | none => .ok fs
  | some dir => fs.makeDirectories dir

def OutputDirectoryMade (fs fs' : FileSystem) : Option Path → Prop
  | none => fs' = fs
  | some dir => MadeAlong dir.components fs fs' ∧ (dir.text.isEmpty = false → fs'.isDirectory dir)

theorem withOutputDirectory_made {outDir : Option Path}
    (h : fs.withOutputDirectory outDir = .ok fs') : OutputDirectoryMade fs fs' outDir := by
  cases outDir with
  | none => exact (Except.ok.inj h).symm
  | some dir => exact makeDirectories_made h

theorem OutputDirectoryMade.keeps {outDir : Option Path} (h : OutputDirectoryMade fs fs' outDir) :
    fs.Keeps fs' := by
  cases outDir with
  | none => exact h ▸ .refl fs
  | some dir => exact h.1.keeps

theorem OutputDirectoryMade.old {outDir : Option Path} {e : Entry}
    (h : OutputDirectoryMade fs fs' outDir) (he : fs.find? l = some e) : fs'.find? l = some e := by
  cases outDir with
  | none => exact h ▸ he
  | some dir => exact h.1.old he

theorem exists_entry (hp : fs.isFile p) : ∃ l e, fs.locate p = .ok l ∧ fs.find? l = some e := by
  obtain ⟨l, hl, hk⟩ := isFile_iff.mp hp
  obtain ⟨e, he, -⟩ := Option.map_eq_some_iff.mp hk
  exact ⟨l, e, hl, he⟩

section
variable {outDir : Option Path} (h : OutputDirectoryMade fs fs' outDir) (hp : fs.isFile p)
include h hp

theorem OutputDirectoryMade.locate : fs'.locate p = fs.locate p := by
  obtain ⟨l, hl, -⟩ := isFile_iff.mp hp
  rw [hl, h.keeps.locate hl]

theorem OutputDirectoryMade.entryAt : fs'.entryAt p = fs.entryAt p := by
  obtain ⟨l, e, hl, he⟩ := exists_entry hp
  simp only [FileSystem.entryAt, hl, h.keeps.locate hl, ok_bind, he, h.old he]

theorem OutputDirectoryMade.isFile : fs'.isFile p := by
  obtain ⟨l, hl, hk⟩ := isFile_iff.mp hp
  exact isFile_iff.mpr ⟨l, h.keeps.locate hl, h.keeps.kind hk⟩

theorem OutputDirectoryMade.read : fs'.read p = fs.read p := by
  obtain ⟨l, e, hl, he⟩ := exists_entry hp
  simp only [FileSystem.read, hl, h.keeps.locate hl, ok_bind, he, h.old he, permit, h.keeps.refusal]

end

end JackVM.FileSystem
