import Mathlib.Data.List.TakeWhile
import Mathlib.Logic.Function.Basic
import JackVM.Proofs.Files.Walking

/-!
# Writing outputs

A text that is written replaces what is at one place, which the path and the
directories decide, and nothing else. So whether an output is refused, and where
it goes, does not depend on the outputs before it: a run of outputs puts each
at its place, in order, up to the first that is refused.
-/

namespace JackVM.FileSystem

variable {fs fs' : FileSystem} {l : Location} {p : Path} {text : String}

-- ---------------------------------------------------------------------------
-- Places of outputs
-- ---------------------------------------------------------------------------

theorem outlet_ok :
    fs.outlet p = .ok l ↔
      checkPath p = .ok () ∧ fs.newLocation .isDirectory p.steps = .ok l ∧
        p.endsInSlash = false ∧ fs.kind? l ≠ some .directory ∧ fs.refusal? .write l = none := by
  rw [outlet, seq_ok]
  simp only [bind_ok, unless_ok, pure_ok, Bool.or_eq_true, decide_eq_true_eq, not_or,
    Bool.not_eq_true]
  refine and_congr_right fun _ => ⟨?_, ?_⟩
  · rintro ⟨_, hn, ⟨hs, hd⟩, _, hr, rfl⟩
    exact ⟨hn, hs, hd, permit_ok.mp hr⟩
  · rintro ⟨hn, hs, hd, hr⟩
    exact ⟨l, hn, ⟨hs, hd⟩, (), permit_ok.mpr hr, rfl⟩

theorem outlet_ne_nil (h : fs.outlet p = .ok l) : l ≠ [] :=
  newLocation_ne_nil (outlet_ok.mp h).2.1

theorem SameDirectories.outlet (h : SameDirectories fs fs') :
    fs'.outlet p = .ok l ↔ fs.outlet p = .ok l := by
  have hroot := p.root_not_mem_tail
  simp only [outlet_ok, h.directory, h.refusal, ne_eq]
  exact ⟨fun ⟨hc, hn, ho⟩ => ⟨hc, h.symm.newLocation hroot hn, ho⟩,
    fun ⟨hc, hn, ho⟩ => ⟨hc, h.newLocation hroot hn, ho⟩⟩

theorem isOk_iff {ε α : Type} {x : Except ε α} : x.isOk ↔ ∃ a, x = .ok a := by
  cases x <;> simp [Except.isOk, Except.toBool]

theorem SameDirectories.isOk_outlet (h : SameDirectories fs fs') :
    (fs'.outlet p).isOk = (fs.outlet p).isOk := by
  rw [Bool.eq_iff_iff, isOk_iff, isOk_iff]
  exact exists_congr fun _ => h.outlet

theorem entryAt_outlet (h : fs.outlet p = .ok l) :
    fs.entryAt p = (fs.find? l).elim (.error .notFound) .ok := by
  obtain ⟨hc, hl, hslash, -⟩ := outlet_ok.mp h
  obtain ⟨before, parent, n, hsteps, hw, henter, hle, rfl⟩ := newLocation_ok.mp hl
  have hwalk : fs.walk fs.workingDirectory p.steps =
      if (fs.kind? (parent ++ [n])).isSome then .ok (parent ++ [n]) else .error .notFound := by
    rw [hsteps, walk_append, hw, ← step_name_eq henter hle]
    simp [walk, ok_bind]
  have hloc : fs.locate p = fs.walk fs.workingDirectory p.steps := by
    simp [locate, hc, hslash, Path.text_ne_empty hsteps, ok_bind]
  simp only [entryAt, hloc, hwalk, kind?, Option.isSome_map]
  cases hf : fs.find? (parent ++ [n]) with
  | none => rfl
  | some e => simp [ok_bind, hf]

-- ---------------------------------------------------------------------------
-- One output
-- ---------------------------------------------------------------------------

@[simp] theorem put_workingDirectory (e : Entry) :
    (fs.put l e).workingDirectory = fs.workingDirectory := by
  unfold put
  split <;> rfl

@[simp] theorem put_refusal? (e : Entry) : (fs.put l e).refusal? = fs.refusal? := by
  unfold put
  split <;> rfl

theorem put_find? (hl : l ≠ []) (e : Entry) :
    (fs.put l e).find? = Function.update fs.find? l (some e) := by
  funext k
  by_cases hk : k = []
  · subst hk
    simp [find?, hl.symm]
  · rw [find?_put fs l k e hk, Function.update_apply]

theorem put_kind? (hl : l ≠ []) (e : Entry) :
    (fs.put l e).kind? = Function.update fs.kind? l (some e.kind) := by
  funext k
  simp only [kind?, put_find? hl, Function.update_apply]
  split <;> rfl

section
variable (hl : l ≠ []) (hd : fs.kind? l ≠ some .directory) (bytes : ByteArray)
include hl hd

theorem keeps_put_file : fs.Keeps (fs.put l (.file bytes)) where
  workingDirectory := put_workingDirectory _
  refusal := put_refusal? _
  kind {m k} hk := by
    rw [put_kind? hl, Function.update_apply]
    split
    · next hm =>
      subst hm
      obtain ⟨e, he, rfl⟩ := Option.map_eq_some_iff.mp hk
      cases e with
      | directory => exact absurd hk hd
      | file => rfl
    · exact hk

theorem sameDirectories_put_file : fs.SameDirectories (fs.put l (.file bytes)) where
  workingDirectory := put_workingDirectory _
  refusal := put_refusal? _
  directory m := by
    rw [put_kind? hl, Function.update_apply]
    split
    · next hm => simp [hm, hd, Entry.kind]
    · exact .rfl

end

theorem write_ok :
    fs.write p text = .ok fs' ↔
      ∃ l, fs.outlet p = .ok l ∧ fs' = fs.put l (.file text.toByteArray) := by
  rw [write, bind_ok]
  simp only [pure_ok]

theorem sameDirectories_write (h : fs.write p text = .ok fs') : fs.SameDirectories fs' := by
  obtain ⟨l, ho, rfl⟩ := write_ok.mp h
  exact sameDirectories_put_file (outlet_ne_nil ho) (outlet_ok.mp ho).2.2.2.1 _

theorem isOk_write : (fs.write p text).isOk = (fs.outlet p).isOk := by
  rw [Bool.eq_iff_iff, isOk_iff, isOk_iff]
  simp [write_ok]

-- ---------------------------------------------------------------------------
-- Many outputs
-- ---------------------------------------------------------------------------

structure Output where
  path : Path
  text : String
  deriving DecidableEq

/-- Writes outputs in their order, up to one that is refused. -/
def writeAll (fs : FileSystem) : List Output → Option (Path × FileError) × FileSystem
  | [] => (none, fs)
  | o :: rest =>
    match fs.write o.path o.text with
    | .ok fs => fs.writeAll rest
    | .error e => (some (o.path, e), fs)

def accepts (fs : FileSystem) (o : Output) : Bool := (fs.write o.path o.text).isOk

def replaced (fs : FileSystem) (content : Location → Option Entry) (o : Output) :
    Location → Option Entry :=
  match fs.outlet o.path with
  | .ok l => Function.update content l (some (.file o.text.toByteArray))
  | .error _ => content

def contentAfter (fs : FileSystem) (outputs : List Output) : Location → Option Entry :=
  outputs.foldl fs.replaced fs.find?

theorem SameDirectories.accepts (h : SameDirectories fs fs') : fs'.accepts = fs.accepts := by
  funext o
  simp only [FileSystem.accepts, isOk_write, h.isOk_outlet]

theorem SameDirectories.replaced (h : SameDirectories fs fs') : fs'.replaced = fs.replaced := by
  funext content o
  unfold FileSystem.replaced
  cases ho : fs.outlet o.path with
  | ok l => rw [h.outlet.mpr ho]
  | error e =>
    cases ho' : fs'.outlet o.path with
    | ok l => exact absurd (h.outlet.mp ho') (by simp [ho])
    | error e' => rfl

structure Written (fs fs' : FileSystem) (outputs : List Output) : Prop where
  keeps : fs.Keeps fs'
  directories : fs.SameDirectories fs'
  content : fs'.find? = fs.contentAfter outputs

theorem writeAll_written (fs : FileSystem) (outputs : List Output) :
    fs.Written (fs.writeAll outputs).2 (outputs.takeWhile fs.accepts) ∧
      (fs.writeAll outputs).1.map Prod.fst =
        (outputs.find? fun o => !fs.accepts o).map Output.path := by
  induction outputs generalizing fs with
  | nil => exact ⟨⟨.refl fs, .refl fs, rfl⟩, rfl⟩
  | cons o rest ih =>
    cases hw : fs.write o.path o.text with
    | error e =>
      have ha : fs.accepts o = false := by simp [accepts, hw, Except.isOk, Except.toBool]
      simp only [writeAll, hw, ha, List.takeWhile_cons, List.find?_cons]
      exact ⟨⟨.refl fs, .refl fs, rfl⟩, rfl⟩
    | ok fs₁ =>
      have ha : fs.accepts o = true := by simp [accepts, hw, Except.isOk, Except.toBool]
      obtain ⟨l, ho, rfl⟩ := write_ok.mp hw
      have hl := outlet_ne_nil ho
      have hd := (outlet_ok.mp ho).2.2.2.1
      have hsame := sameDirectories_put_file hl hd o.text.toByteArray
      have hkeeps := keeps_put_file hl hd o.text.toByteArray
      obtain ⟨hrest, herror⟩ := ih (fs.put l (.file o.text.toByteArray))
      rw [hsame.accepts] at hrest herror
      simp only [writeAll, hw, ha, List.takeWhile_cons, List.find?_cons, ↓reduceIte]
      refine ⟨⟨hkeeps.trans hrest.keeps, hsame.trans hrest.directories, ?_⟩, herror⟩
      rw [hrest.content, contentAfter, hsame.replaced, put_find? hl, contentAfter, List.foldl_cons,
        replaced, ho]

theorem writeAll_accepted {outputs : List Output} (h : ∀ o ∈ outputs, fs.accepts o) :
    (fs.writeAll outputs).1 = none ∧ fs.Written (fs.writeAll outputs).2 outputs := by
  obtain ⟨hwritten, hrefused⟩ := writeAll_written fs outputs
  rw [List.takeWhile_eq_self_iff.mpr h] at hwritten
  rw [List.find?_eq_none.mpr (by simpa using h)] at hrefused
  exact ⟨Option.map_eq_none_iff.mp hrefused, hwritten⟩

theorem writeAll_append_refused {before : List Output} {refused : Path × FileError}
    (rest : List Output) (h : (fs.writeAll before).1 = some refused) :
    fs.writeAll (before ++ rest) = fs.writeAll before := by
  induction before generalizing fs with
  | nil => cases h
  | cons o before ih =>
    simp only [List.cons_append, writeAll] at h ⊢
    split at h <;> simp_all

theorem writeAll_refused {before : List Output} (rest : List Output)
    (h : ∃ o ∈ before, ¬fs.accepts o) :
    ∃ front o later e, before = front ++ o :: later ∧
      fs.Written (fs.writeAll (before ++ rest)).2 front ∧
      (fs.writeAll (before ++ rest)).1 = some (o.path, e) := by
  have hsome : (before.find? fun o => !fs.accepts o).isSome :=
    List.find?_isSome.mpr (by simpa using h)
  obtain ⟨o, ho⟩ := Option.isSome_iff_exists.mp hsome
  obtain ⟨hno, front, later, rfl, hfront⟩ := List.find?_eq_some_iff_append.mp ho
  obtain ⟨hwritten, hrefused⟩ := writeAll_written fs (front ++ o :: later)
  rw [List.takeWhile_append_of_pos (by simpa using hfront),
    List.takeWhile_cons_of_neg (by simpa using hno), List.append_nil] at hwritten
  rw [ho, Option.map_some, Option.map_eq_some_iff] at hrefused
  obtain ⟨⟨path, e⟩, hlast, hpath⟩ := hrefused
  obtain rfl : path = o.path := hpath
  rw [writeAll_append_refused rest hlast]
  exact ⟨front, o, later, e, rfl, hwritten, hlast⟩

theorem foldl_replaced_other {outputs : List Output} (content : Location → Option Entry)
    (h : ∀ o ∈ outputs, fs.outlet o.path ≠ .ok l) :
    outputs.foldl fs.replaced content l = content l := by
  induction outputs generalizing content with
  | nil => rfl
  | cons o rest ih =>
    obtain ⟨ho, hrest⟩ := List.forall_mem_cons.mp h
    rw [List.foldl_cons, ih _ hrest, replaced]
    cases hm : fs.outlet o.path with
    | error e => rfl
    | ok m =>
      have hne : l ≠ m := fun hlm => ho (hlm ▸ hm)
      simp only [Function.update_of_ne hne]

theorem contentAfter_other {outputs : List Output} (h : ∀ o ∈ outputs, fs.outlet o.path ≠ .ok l) :
    fs.contentAfter outputs l = fs.find? l := foldl_replaced_other _ h

/-- An output stays unless a later one goes to the same place. -/
theorem contentAfter_last {before rest : List Output} {o : Output} (ho : fs.outlet o.path = .ok l)
    (hrest : ∀ q ∈ rest, fs.outlet q.path ≠ .ok l) :
    fs.contentAfter (before ++ o :: rest) l = some (.file o.text.toByteArray) := by
  rw [contentAfter, List.foldl_append, List.foldl_cons, foldl_replaced_other _ hrest, replaced, ho]
  exact Function.update_self ..

theorem Written.entryAt_other {outputs : List Output} (h : fs.Written fs' outputs)
    (hp : fs.outlet p = .ok l) (hothers : ∀ o ∈ outputs, fs.outlet o.path ≠ .ok l) :
    fs'.entryAt p = fs.entryAt p := by
  rw [entryAt_outlet hp, entryAt_outlet (h.directories.outlet.mpr hp), h.content,
    contentAfter_other hothers]

theorem Written.entryAt_kept {outputs : List Output} (h : fs.Written fs' outputs)
    (hp : fs.locate p = .ok l) (hothers : ∀ o ∈ outputs, fs.outlet o.path ≠ .ok l) :
    fs'.entryAt p = fs.entryAt p := by
  simp only [entryAt, hp, h.keeps.locate hp, ok_bind, h.content, contentAfter_other hothers]

theorem Written.entryAt_last {before rest : List Output} {o : Output}
    (h : fs.Written fs' (before ++ o :: rest)) (ho : fs.outlet o.path = .ok l)
    (hrest : ∀ q ∈ rest, fs.outlet q.path ≠ .ok l) (hp : fs.outlet p = .ok l) :
    fs'.entryAt p = .ok (.file o.text.toByteArray) := by
  rw [entryAt_outlet (h.directories.outlet.mpr hp), h.content, contentAfter_last ho hrest,
    Option.elim_some]

end JackVM.FileSystem
