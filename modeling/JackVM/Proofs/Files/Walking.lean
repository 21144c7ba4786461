import Mathlib.Data.List.Induction
import JackVM.Files.FileSystem

/-!
# Following paths

What each step of a path needs, and what a change of the file system does to
where paths lead. A path that leads somewhere still leads there as long as what
was there is kept. Where a path would put a new name depends on the directories
alone.
-/

namespace JackVM

theorem Path.step?_ne_root (piece : List Char) : step? piece ≠ some .root := by
  unfold step?
  repeat' split
  all_goals simp

theorem Path.text_ne_empty {p : Path} {before : List PathStep} {s : PathStep}
    (h : p.steps = before ++ [s]) : p.text.isEmpty = false := by
  by_contra ht
  have htext : p.text = "" := by simpa using ht
  have hsteps : p.steps = [] := by simp [steps, isAbsolute, pieces, htext, split, step?]
  simp [hsteps] at h

/-- Only the first step of a path can be to the root. -/
theorem Path.root_not_mem_tail (p : Path) : .root ∉ p.steps.tail := by
  have hinside : .root ∉ p.pieces.filterMap step? := by
    simp [List.mem_filterMap, step?_ne_root]
  unfold steps
  split
  · exact hinside
  · exact fun h => hinside (List.mem_of_mem_tail h)

namespace FileSystem

section
variable {ε α β : Type} {x : Except ε α} {f : α → Except ε β} {b : β}

theorem bind_ok : x >>= f = .ok b ↔ ∃ a, x = .ok a ∧ f a = .ok b := by
  cases x <;> simp [bind, Except.bind]

theorem ok_bind {a : α} : (Except.ok a : Except ε α) >>= f = f a := rfl

theorem seq_ok {x : Except ε Unit} {y : Except ε β} :
    (do x; y) = .ok b ↔ x = .ok () ∧ y = .ok b := by
  simp only [bind_ok]
  exact ⟨fun ⟨_, h⟩ => h, fun h => ⟨(), h⟩⟩

theorem pure_ok {a b : α} : (pure a : Except ε α) = .ok b ↔ b = a := by
  simp [pure, Except.pure, eq_comm]

theorem when_ok {c : Prop} [Decidable c] {x : Except ε Unit} {y : Except ε β} :
    (if c then x >>= fun _ => y else y) = .ok b ↔ (c → x = .ok ()) ∧ y = .ok b := by
  by_cases hc : c <;> simp [hc, seq_ok]

theorem unless_ok {c : Prop} [Decidable c] {e : ε} {y : Except ε β} :
    (if c then throw e >>= fun _ : Unit => y else y) = .ok b ↔ ¬c ∧ y = .ok b := by
  rw [when_ok]
  exact and_congr_left fun _ => forall_congr' fun _ => ⟨fun h => (nomatch h), False.elim⟩

end

variable {fs fs' fs'' : FileSystem} {l l' : Location} {steps : List PathStep} {p : Path}

-- ---------------------------------------------------------------------------
-- Steps
-- ---------------------------------------------------------------------------

theorem permit_ok {a : Access} : fs.permit a l = .ok () ↔ fs.refusal? a l = none := by
  unfold permit
  split <;> simp [*]

theorem requireDirectory_ok : fs.requireDirectory l = .ok () ↔ fs.kind? l = some .directory := by
  unfold requireDirectory
  split
  · next h => simp [h]
  · next h => simp [h]
  · next k hk h => simpa [h] using hk

theorem enter_ok :
    fs.enter l = .ok () ↔ fs.kind? l = some .directory ∧ fs.refusal? .enter l = none := by
  rw [enter, seq_ok, requireDirectory_ok, permit_ok]

theorem step_here_ok : fs.step l .here = .ok l' ↔ fs.enter l = .ok () ∧ l' = l := by
  rw [step, seq_ok, pure_ok]

theorem step_up_ok : fs.step l .up = .ok l' ↔ fs.enter l = .ok () ∧ l' = l.dropLast := by
  rw [step, seq_ok, pure_ok]

theorem step_name_ok {n : String} :
    fs.step l (.name n) = .ok l' ↔
      fs.enter l = .ok () ∧ n.utf8ByteSize ≤ maxName ∧ (fs.kind? (l ++ [n])).isSome ∧
        l' = l ++ [n] := by
  simp only [step, seq_ok, unless_ok, pure_ok, Nat.not_lt, Bool.not_eq_true,
    Option.isNone_eq_false_iff]

/-- From where names can be followed a name leads on if it is there. -/
theorem step_name_eq {n : String} (he : fs.enter l = .ok ()) (hn : n.utf8ByteSize ≤ maxName) :
    fs.step l (.name n) =
      if (fs.kind? (l ++ [n])).isSome then .ok (l ++ [n]) else .error .notFound := by
  cases hk : fs.kind? (l ++ [n]) with
  | some k => exact step_name_ok.mpr ⟨he, hn, by simp [hk], rfl⟩
  | none => simp [step, he, hk, Nat.not_lt.mpr hn, bind, Except.bind]; rfl

theorem walk_cons (s : PathStep) :
    fs.walk l (s :: steps) = fs.step l s >>= (fs.walk · steps) := List.foldlM_cons ..

theorem walk_append {more : List PathStep} :
    fs.walk l (steps ++ more) = fs.walk l steps >>= (fs.walk · more) := List.foldlM_append ..

theorem walk_concat_ok {s : PathStep} :
    fs.walk l (steps ++ [s]) = .ok l' ↔ ∃ m, fs.walk l steps = .ok m ∧ fs.step m s = .ok l' := by
  simp only [walk_append, bind_ok]
  simp [walk]

theorem walk_filter_here (h : fs.walk l steps = .ok l') :
    fs.walk l (steps.filter (· ≠ .here)) = .ok l' := by
  induction steps generalizing l with
  | nil => exact h
  | cons s steps ih =>
    obtain ⟨m, hs, hm⟩ := bind_ok.mp (walk_cons s ▸ h)
    by_cases hh : s = .here
    · obtain ⟨-, rfl⟩ := step_here_ok.mp (hh ▸ hs)
      simpa [hh] using ih hm
    · simpa [hh, walk_cons, bind_ok] using ⟨m, hs, by simpa using ih hm⟩

theorem walk_components (h : fs.walk l p.steps = .ok l') : fs.walk l p.components = .ok l' := by
  unfold Path.components
  split
  · next hs => rwa [hs] at h
  · next first rest hs =>
    obtain ⟨m, hfirst, hrest⟩ := bind_ok.mp (walk_cons first ▸ hs ▸ h)
    exact walk_cons first ▸ bind_ok.mpr ⟨m, hfirst, walk_filter_here hrest⟩

theorem locate_ok :
    fs.locate p = .ok l ↔
      checkPath p = .ok () ∧ p.text.isEmpty = false ∧
        fs.walk fs.workingDirectory p.steps = .ok l ∧
        (p.endsInSlash → fs.kind? l = some .directory) := by
  rw [locate, seq_ok, unless_ok, Bool.not_eq_true]
  simp only [bind_ok, when_ok, requireDirectory_ok, pure_ok]
  refine and_congr_right fun _ => and_congr_right fun _ => ⟨?_, ?_⟩
  · rintro ⟨_, hw, hs, rfl⟩
    exact ⟨hw, hs⟩
  · rintro ⟨hw, hs⟩
    exact ⟨l, hw, hs, rfl⟩

theorem entryAt_ok {e : Entry} :
    fs.entryAt p = .ok e ↔ ∃ l, fs.locate p = .ok l ∧ fs.find? l = some e := by
  simp only [entryAt, bind_ok]
  refine exists_congr fun l => and_congr_right fun _ => ?_
  cases fs.find? l <;> simp

theorem kindAt?_eq_some {k : EntryKind} :
    fs.kindAt? p = some k ↔ ∃ l, fs.locate p = .ok l ∧ fs.kind? l = some k := by
  have hentry : fs.kindAt? p = some k ↔ ∃ e, fs.entryAt p = .ok e ∧ e.kind = k := by
    unfold kindAt?
    cases fs.entryAt p <;> simp
  simp only [hentry, entryAt_ok, kind?, Option.map_eq_some_iff]
  constructor
  · rintro ⟨e, ⟨l, hl, he⟩, hk⟩
    exact ⟨l, hl, e, he, hk⟩
  · rintro ⟨l, hl, e, he, hk⟩
    exact ⟨e, ⟨l, hl, he⟩, hk⟩

theorem isFile_iff : fs.isFile p ↔ ∃ l, fs.locate p = .ok l ∧ fs.kind? l = some .file := by
  rw [isFile, decide_eq_true_eq, kindAt?_eq_some]

theorem isDirectory_iff :
    fs.isDirectory p ↔ ∃ l, fs.locate p = .ok l ∧ fs.kind? l = some .directory := by
  rw [isDirectory, decide_eq_true_eq, kindAt?_eq_some]

theorem newLocation_ok {taken : FileError} :
    fs.newLocation taken steps = .ok l ↔
      ∃ before parent n, steps = before ++ [.name n] ∧
        fs.walk fs.workingDirectory before = .ok parent ∧ fs.enter parent = .ok () ∧
        n.utf8ByteSize ≤ maxName ∧ l = parent ++ [n] := by
  simp only [newLocation, bind_ok, walk_concat_ok, step_here_ok]
  constructor
  · rintro ⟨parent, ⟨_, hw, he, rfl⟩, h⟩
    split at h
    · next n hn =>
      obtain ⟨before, rfl⟩ := List.getLast?_eq_some_iff.mp hn
      rw [List.dropLast_concat] at hw
      split at h
      · cases h
      · next hle => exact ⟨before, _, n, rfl, hw, he, Nat.not_lt.mp hle, (Except.ok.inj h).symm⟩
    · cases h
    · cases h
  · rintro ⟨before, parent, n, rfl, hw, he, hle, rfl⟩
    exact ⟨parent, ⟨parent, by rwa [List.dropLast_concat], he, rfl⟩,
      by simp [Nat.not_lt.mpr hle]⟩

theorem newLocation_ne_nil {taken : FileError} (h : fs.newLocation taken steps = .ok l) :
    l ≠ [] := by
  obtain ⟨_, parent, n, -, -, -, -, rfl⟩ := newLocation_ok.mp h
  simp

-- ---------------------------------------------------------------------------
-- What is kept
-- ---------------------------------------------------------------------------

/-- All that was there is still there and of the same kind. -/
structure Keeps (fs fs' : FileSystem) : Prop where
  workingDirectory : fs'.workingDirectory = fs.workingDirectory
  refusal : fs'.refusal? = fs.refusal?
  kind {l : Location} {k : EntryKind} : fs.kind? l = some k → fs'.kind? l = some k

structure SameDirectories (fs fs' : FileSystem) : Prop where
  workingDirectory : fs'.workingDirectory = fs.workingDirectory
  refusal : fs'.refusal? = fs.refusal?
  directory (l : Location) : fs'.kind? l = some .directory ↔ fs.kind? l = some .directory

theorem Keeps.refl (fs : FileSystem) : fs.Keeps fs := ⟨rfl, rfl, id⟩

theorem Keeps.of_find? (hw : fs'.workingDirectory = fs.workingDirectory)
    (hr : fs'.refusal? = fs.refusal?)
    (hold : ∀ {l : Location} {e : Entry}, fs.find? l = some e → fs'.find? l = some e) :
    fs.Keeps fs' := by
  refine ⟨hw, hr, fun hk => ?_⟩
  obtain ⟨e, he, rfl⟩ := Option.map_eq_some_iff.mp hk
  simp [kind?, hold he]

theorem Keeps.trans (h : Keeps fs fs') (h' : Keeps fs' fs'') : Keeps fs fs'' where
  workingDirectory := h'.workingDirectory.trans h.workingDirectory
  refusal := h'.refusal.trans h.refusal
  kind hk := h'.kind (h.kind hk)

theorem SameDirectories.refl (fs : FileSystem) : fs.SameDirectories fs := ⟨rfl, rfl, fun _ => .rfl⟩

theorem SameDirectories.trans (h : SameDirectories fs fs') (h' : SameDirectories fs' fs'') :
    SameDirectories fs fs'' where
  workingDirectory := h'.workingDirectory.trans h.workingDirectory
  refusal := h'.refusal.trans h.refusal
  directory l := (h'.directory l).trans (h.directory l)

theorem SameDirectories.symm (h : SameDirectories fs fs') : SameDirectories fs' fs where
  workingDirectory := h.workingDirectory.symm
  refusal := h.refusal.symm
  directory l := (h.directory l).symm

namespace Keeps

variable (h : Keeps fs fs')
include h

theorem enter (he : fs.enter l = .ok ()) : fs'.enter l = .ok () := by
  obtain ⟨hk, hr⟩ := enter_ok.mp he
  exact enter_ok.mpr ⟨h.kind hk, h.refusal ▸ hr⟩

theorem step {s : PathStep} (hs : fs.step l s = .ok l') : fs'.step l s = .ok l' := by
  cases s with
  | root => exact hs
  | here =>
    obtain ⟨he, rfl⟩ := step_here_ok.mp hs
    exact step_here_ok.mpr ⟨h.enter he, rfl⟩
  | up =>
    obtain ⟨he, rfl⟩ := step_up_ok.mp hs
    exact step_up_ok.mpr ⟨h.enter he, rfl⟩
  | name n =>
    obtain ⟨he, hn, hk, rfl⟩ := step_name_ok.mp hs
    obtain ⟨k, hk⟩ := Option.isSome_iff_exists.mp hk
    exact step_name_ok.mpr ⟨h.enter he, hn, by simp [h.kind hk], rfl⟩

theorem walk (hw : fs.walk l steps = .ok l') : fs'.walk l steps = .ok l' := by
  induction steps generalizing l with
  | nil => exact hw
  | cons s steps ih =>
    obtain ⟨m, hs, hm⟩ := bind_ok.mp (walk_cons s ▸ hw)
    exact walk_cons s ▸ bind_ok.mpr ⟨m, h.step hs, ih hm⟩

theorem locate (hl : fs.locate p = .ok l) : fs'.locate p = .ok l := by
  obtain ⟨hc, he, hw, hd⟩ := locate_ok.mp hl
  exact locate_ok.mpr ⟨hc, he, h.workingDirectory ▸ h.walk hw, fun hs => h.kind (hd hs)⟩

end Keeps

namespace SameDirectories

variable (h : SameDirectories fs fs')
include h

theorem enter : fs'.enter l = .ok () ↔ fs.enter l = .ok () := by
  rw [enter_ok, enter_ok, h.directory, h.refusal]

/-- Every place on the way to a directory is a directory, so the way is there
still. The root can be reached from anywhere and may only come first. -/
theorem walk_inside (hroot : .root ∉ steps) (hw : fs.walk l steps = .ok l')
    (hd : fs.kind? l' = some .directory) : fs'.walk l steps = .ok l' := by
  induction steps using List.reverseRecOn generalizing l' with
  | nil => exact hw
  | append_singleton steps s ih =>
    simp only [List.mem_append, List.mem_singleton, not_or] at hroot
    obtain ⟨m, hm, hs⟩ := walk_concat_ok.mp hw
    have hstep : fs.enter m = .ok () ∧ fs'.step m s = .ok l' := by
      cases s with
      | root => exact absurd rfl hroot.2
      | here =>
        obtain ⟨he, rfl⟩ := step_here_ok.mp hs
        exact ⟨he, step_here_ok.mpr ⟨h.enter.mpr he, rfl⟩⟩
      | up =>
        obtain ⟨he, rfl⟩ := step_up_ok.mp hs
        exact ⟨he, step_up_ok.mpr ⟨h.enter.mpr he, rfl⟩⟩
      | name n =>
        obtain ⟨he, hn, -, rfl⟩ := step_name_ok.mp hs
        exact ⟨he, step_name_ok.mpr
          ⟨h.enter.mpr he, hn, by simp [(h.directory _).mpr hd], rfl⟩⟩
    exact walk_concat_ok.mpr ⟨m, ih hroot.1 hm (enter_ok.mp hstep.1).1, hstep.2⟩

theorem walk (hroot : .root ∉ steps.tail) (hw : fs.walk l steps = .ok l')
    (hd : fs.kind? l' = some .directory) : fs'.walk l steps = .ok l' := by
  cases steps with
  | nil => exact hw
  | cons first rest =>
    by_cases hf : first = .root
    · subst hf
      exact h.walk_inside hroot (l := []) hw hd
    · exact h.walk_inside (by simpa [Ne.symm hf] using hroot) hw hd

theorem newLocation {taken : FileError} (hroot : .root ∉ steps.tail)
    (hn : fs.newLocation taken steps = .ok l) : fs'.newLocation taken steps = .ok l := by
  obtain ⟨before, parent, n, rfl, hw, he, hle, rfl⟩ := newLocation_ok.mp hn
  have htail : .root ∉ before.tail := fun hm => hroot (by cases before <;> simp_all)
  refine newLocation_ok.mpr ⟨before, parent, n, rfl, ?_, h.enter.mpr he, hle, rfl⟩
  exact h.workingDirectory ▸ h.walk htail hw (enter_ok.mp he).1

end SameDirectories

end FileSystem

end JackVM
