import Mathlib.Data.Prod.Lex
import Mathlib.Order.Monotone.Basic
import JackVM.Proofs.Layout.Positions

/-!
# Positions in reading order

Whoever reads a text from the left is at 1:1 first, at the beginning of the next
line behind a line feed, and one column further behind any other character. So no
character is passed without getting further, and the positions of places in a
text are in the order of these.
-/

namespace JackVM

open Comment Text

theorem Text.Boundary.le_size {source : String} {i : Nat} (h : Boundary source.toList i) :
    i ≤ source.utf8ByteSize := by
  rw [← byteLength_toList]
  exact h.le

/-- Between two places of a text there is something. -/
theorem Text.Boundary.exists_between {cs : List Char} {i j : Nat} (hi : Boundary cs i)
    (hj : Boundary cs j) (h : i < j) :
    ∃ before between after, cs = before ++ between ++ after ∧ between ≠ [] ∧
      byteLength before = i ∧ byteLength (before ++ between) = j := by
  obtain ⟨before, rest, rfl, rfl⟩ := hi
  obtain ⟨before', after, hs, rfl⟩ := hj
  rcases List.append_eq_append_iff.mp hs with ⟨between, rfl, rfl⟩ | ⟨between, rfl, rfl⟩
  · refine ⟨before, between, after, (List.append_assoc ..).symm, ?_, rfl, rfl⟩
    rintro rfl
    rw [List.append_nil] at h
    exact absurd h (Nat.lt_irrefl _)
  · rw [byteLength_append] at h
    omega

theorem Cursor.ofSource_whole {source : String} {c : Cursor} (h : ofSource source = .ok c) :
    c.source = source ∧ byteLength c.rest = source.utf8ByteSize := by
  unfold ofSource at h
  rw [uncommented_eq] at h
  cases hp : partsFrom .code 0 source.toList with
  | error opener =>
    rw [hp] at h
    cases h
  | ok ps =>
    rw [hp] at h
    cases h
    refine ⟨rfl, ?_⟩
    rw [byteLength_shown, map_snd_partsFrom hp, byteLength_toList]

namespace Position

/-- The line counts first, then the column. -/
instance : PartialOrder Position :=
  PartialOrder.lift (fun p => toLex (p.line, p.column)) fun p q h => by
    cases p
    cases q
    simpa using h

theorem lt_iff {p q : Position} :
    p < q ↔ p.line < q.line ∨ p.line = q.line ∧ p.column < q.column :=
  Prod.Lex.toLex_lt_toLex

def advance (p : Position) (c : Char) : Position :=
  if c = '\n' then ⟨p.line + 1, 1⟩ else ⟨p.line, p.column + 1⟩

theorem lt_advance (p : Position) (c : Char) : p < p.advance c := by
  rw [lt_iff, advance]
  split
  · exact .inl (Nat.lt_succ_self _)
  · exact .inr ⟨rfl, Nat.lt_succ_self _⟩

theorem le_foldl_advance (p : Position) (cs : List Char) : p ≤ cs.foldl advance p := by
  induction cs generalizing p with
  | nil => exact le_rfl
  | cons c cs ih => exact (lt_advance p c).le.trans (ih _)

theorem lt_foldl_advance (p : Position) {cs : List Char} (h : cs ≠ []) :
    p < cs.foldl advance p := by
  cases cs with
  | nil => exact absurd rfl h
  | cons c cs => exact (lt_advance p c).trans_le (le_foldl_advance _ cs)

/-- One character more in front of a place moves its position one step on. -/
theorem behind_concat (before : List Char) (c : Char) :
    behind (before ++ [c]) = (behind before).advance c := by
  unfold behind advance
  rw [List.count_append, List.count_singleton, List.reverse_concat, List.takeWhile_cons]
  by_cases hc : c = '\n'
  · simp [hc]
  · simp [hc]

theorem behind_append (before between : List Char) :
    behind (before ++ between) = between.foldl advance (behind before) := by
  induction between generalizing before with
  | nil => rw [List.append_nil, List.foldl_nil]
  | cons c between ih => rw [List.append_cons, ih, behind_concat, List.foldl_cons]

variable {source : String}

theorem at?_of_boundary {offset : Nat} (h : Boundary source.toList offset) :
    at? source offset = some (ofOffset source offset) :=
  at?_eq_some.mpr ⟨by rwa [Nat.min_eq_left h.le_size], rfl⟩

theorem ofOffset_byteLength {before after : List Char} (hs : source.toList = before ++ after) :
    ofOffset source (byteLength before) = behind before := by
  have hb : Boundary source.toList (byteLength before) := ⟨before, after, hs, rfl⟩
  exact ofOffset_eq_behind hs (Nat.min_eq_left hb.le_size)

theorem at?_of_size_le {offset : Nat} (h : source.utf8ByteSize ≤ offset) :
    at? source offset = some (ofOffset source source.utf8ByteSize) := by
  have hmin : min offset source.utf8ByteSize = byteLength source.toList := by
    rw [Nat.min_eq_right h, byteLength_toList]
  have hs : source.toList = source.toList ++ [] := (List.append_nil _).symm
  rw [at?_eq_some, hmin, ofOffset_eq_behind hs hmin, ← byteLength_toList, ofOffset_byteLength hs]
  exact ⟨⟨source.toList, [], hs, rfl⟩, rfl⟩

theorem strictMonoOn_ofOffset (source : String) :
    StrictMonoOn (ofOffset source) {i | Boundary source.toList i} := by
  intro i hi j hj h
  obtain ⟨before, between, after, hs, hne, rfl, rfl⟩ := hi.exists_between hj h
  rw [ofOffset_byteLength hs, ofOffset_byteLength (hs.trans (List.append_assoc ..)),
    behind_append]
  exact lt_foldl_advance _ hne

/-- Positions keep the order of the places between characters and tell these apart. They
are where reading from the left arrives, and whatever lies past the end is at the end. -/
theorem ofOffset_inReadingOrder (source : String) :
    StrictMonoOn (ofOffset source) {i | Boundary source.toList i} ∧
    Set.InjOn (ofOffset source) {i | Boundary source.toList i} ∧
    (∀ before after, source.toList = before ++ after →
      at? source (byteLength before) = some (ofOffset source (byteLength before)) ∧
      ofOffset source (byteLength before) = before.foldl advance ⟨1, 1⟩) ∧
    (∀ offset, source.utf8ByteSize ≤ offset →
      at? source offset = some (ofOffset source offset) ∧
      ofOffset source offset = ofOffset source source.utf8ByteSize) ∧
    -- A cursor at the start of the source tells the same positions.
    ∀ c, Cursor.ofSource source = .ok c → ∀ offset, c.position offset = ofOffset source offset ∧
      (byteLength c.rest ≤ offset → c.position offset = c.endPosition) := by
  have hend {offset : Nat} (h : source.utf8ByteSize ≤ offset) :
      ofOffset source offset = ofOffset source source.utf8ByteSize :=
    (at?_eq_some.mp (at?_of_size_le h)).2.symm
  refine ⟨strictMonoOn_ofOffset source, (strictMonoOn_ofOffset source).injOn,
    fun before after hs => ⟨at?_of_boundary ⟨before, after, hs, rfl⟩, ?_⟩,
    fun offset h => ⟨?_, hend h⟩, fun c hc offset => ?_⟩
  · rw [ofOffset_byteLength hs]
    exact behind_append [] before
  · rw [at?_of_size_le h, hend h]
  · obtain ⟨rfl, hsize⟩ := Cursor.ofSource_whole hc
    exact ⟨rfl, fun h => hend (hsize ▸ h)⟩

def accentedLines : String := "é\n//ü"

def accentedStart : Cursor := ⟨accentedLines, 0, "é\n    ".toList⟩

theorem ofOffset_inReadingOrder_accented :
    Boundary accentedLines.toList 2 ∧ Boundary accentedLines.toList 3 ∧
      ofOffset accentedLines 2 < ofOffset accentedLines 3 ∧
      ofOffset accentedLines 2 ≠ ofOffset accentedLines 3 ∧
      accentedLines.toList = ['é', '\n'] ++ ['/', '/', 'ü'] ∧
      at? accentedLines 3 = some ⟨2, 1⟩ ∧
      accentedLines.utf8ByteSize ≤ 99 ∧ at? accentedLines 99 = some ⟨2, 4⟩ ∧
      Cursor.ofSource accentedLines = .ok accentedStart ∧
      byteLength accentedStart.rest ≤ 99 ∧
      accentedStart.position 99 = accentedStart.endPosition := by
  obtain ⟨hmono, hinj, hfold, hend, hcursor⟩ := ofOffset_inReadingOrder accentedLines
  have hs : accentedLines.toList = ['é', '\n'] ++ ['/', '/', 'ü'] := by decide +kernel
  have h2 : Boundary accentedLines.toList 2 := ⟨['é'], ['\n', '/', '/', 'ü'], hs, by decide⟩
  have h3 : Boundary accentedLines.toList 3 := ⟨_, _, hs, by decide⟩
  have hlt : 2 < 3 := by decide
  have hat : at? accentedLines 3 = some ⟨2, 1⟩ :=
    (hfold _ _ hs).1.trans (congrArg some (hfold _ _ hs).2)
  have hsize : accentedLines.utf8ByteSize ≤ 99 := by decide +kernel
  have hlast : ofOffset accentedLines 99 = ⟨2, 4⟩ := by decide +kernel
  have hc : Cursor.ofSource accentedLines = .ok accentedStart := rfl
  have hrest : byteLength accentedStart.rest ≤ 99 := by decide +kernel
  exact ⟨h2, h3, hmono h2 h3 hlt, fun h => hlt.ne (hinj h2 h3 h), hs, hat, hsize,
    hlast ▸ (hend 99 hsize).1, hc, hrest, (hcursor _ hc 99).2 hrest⟩

end Position

end JackVM
