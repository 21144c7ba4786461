import JackVM.Proofs.Layout.Comments

/-!
# Positions between characters

A byte offset has a position only if it lies between two characters or at an end
of the text. The position is then in a line of the text, or just behind one.
-/

namespace JackVM

namespace Text

theorem Boundary.le {cs : List Char} {i : Nat} (h : Boundary cs i) : i ≤ byteLength cs := by
  obtain ⟨before, after, rfl, rfl⟩ := h
  simp

def before? : Nat → List Char → Option (List Char)
  | 0, _ => some []
  | _ + 1, [] => none
  | n + 1, c :: cs =>
    if c.utf8Size ≤ n + 1 then (before? (n + 1 - c.utf8Size) cs).map (c :: ·) else none

theorem before?_append (before after : List Char) :
    before? (byteLength before) (before ++ after) = some before := by
  induction before with
  | nil => rw [byteLength_nil, before?]
  | cons c before ih =>
    obtain ⟨n, hn⟩ := Nat.exists_eq_succ_of_ne_zero c.utf8Size_pos.ne'
    have hsize : byteLength (c :: before) = n + byteLength before + 1 := by
      rw [byteLength_cons, hn, Nat.succ_add]
    have hrest : n + byteLength before + 1 - c.utf8Size = byteLength before := by omega
    rw [hsize, List.cons_append, before?, if_pos (by omega), hrest, ih, Option.map_some]

theorem before?_eq_some {offset : Nat} {cs before : List Char} :
    before? offset cs = some before ↔ byteLength before = offset ∧ before <+: cs := by
  constructor
  · intro h
    fun_induction before? offset cs generalizing before with
    | case1 cs =>
      obtain rfl := Option.some_inj.mp h
      exact ⟨rfl, List.nil_prefix⟩
    | case2 => nomatch h
    | case3 n c cs hc ih =>
      obtain ⟨before, hb, rfl⟩ := Option.map_eq_some_iff.mp h
      obtain ⟨hsize, hprefix⟩ := ih hb
      refine ⟨?_, List.cons_prefix_cons.mpr ⟨rfl, hprefix⟩⟩
      rw [byteLength_cons]
      omega
    | case4 => nomatch h
  · rintro ⟨rfl, after, rfl⟩
    exact before?_append before after

/-- What comes before a place between characters, and before every place past the end. -/
theorem reverseBefore_append {before after : List Char} {offset : Nat}
    (h : min offset (byteLength (before ++ after)) = byteLength before) :
    reverseBefore offset (before ++ after) = before.reverse := by
  have hgo (acc : List Char) :
      reverseBefore.go offset (before ++ after) acc = before.reverse ++ acc := by
    induction before generalizing offset acc with
    | nil =>
      cases after with
      | nil => rfl
      | cons c after =>
        have hc := c.utf8Size_pos
        simp only [List.nil_append, byteLength_cons, byteLength_nil] at h
        rw [List.nil_append, reverseBefore.go, if_neg (by omega)]
        rfl
    | cons c before ih =>
      simp only [List.cons_append, byteLength_cons] at h
      rw [List.cons_append, reverseBefore.go, if_pos (by omega), ih (by omega)]
      simp
  rw [reverseBefore, hgo, List.append_nil]

theorem takeWhile_reverse {before : List Char} (after : List Char) (h : '\n' ∈ before) :
    (before.reverse ++ after).takeWhile (· ≠ '\n') = before.reverse.takeWhile (· ≠ '\n') := by
  obtain ⟨first, last, hb, hl⟩ := List.eq_append_cons_of_mem (List.mem_reverse.mpr h)
  have hp : ∀ c ∈ first, decide (c ≠ '\n') := fun c hc => by
    simpa using ne_of_mem_of_not_mem hc hl
  rw [hb, List.append_assoc, List.takeWhile_append_of_pos hp, List.takeWhile_append_of_pos hp]
  rfl

/-- The line that a place is in goes as far as the place, or further. -/
theorem exists_line (before after : List Char) :
    ∃ line, ((before ++ after).splitOn '\n')[before.count '\n']? = some line ∧
      (before.reverse.takeWhile (· ≠ '\n')).length ≤ line.length := by
  induction before with
  | nil =>
    obtain ⟨line, lines, h⟩ := List.exists_cons_of_ne_nil (List.splitOn_ne_nil '\n' after)
    exact ⟨line, by simp [h], Nat.zero_le _⟩
  | cons c before ih =>
    obtain ⟨line, hline, hlength⟩ := ih
    obtain ⟨first, others, hs⟩ :=
      List.exists_cons_of_ne_nil (List.splitOn_ne_nil '\n' (before ++ after))
    rw [hs] at hline
    rw [List.cons_append, List.splitOn_cons_eq_if_modifyHead, hs, List.reverse_cons]
    by_cases hn : '\n' ∈ before
    · rw [takeWhile_reverse _ hn]
      refine ⟨line, ?_, hlength⟩
      obtain ⟨k, hk⟩ := Nat.exists_eq_succ_of_ne_zero (List.count_pos_iff.mpr hn).ne'
      by_cases hc : c = '\n'
      · simpa [hc] using hline
      · simpa [hc, hk] using hline
    · rw [List.count_eq_zero_of_not_mem hn] at hline
      obtain rfl : first = line := by simpa using hline
      have hall : ∀ d ∈ before.reverse, decide (d ≠ '\n') := fun d hd => by
        simpa using ne_of_mem_of_not_mem (List.mem_reverse.mp hd) hn
      rw [List.takeWhile_eq_self_iff.mpr hall] at hlength
      rw [List.takeWhile_append_of_pos hall]
      by_cases hc : c = '\n'
      · exact ⟨first, by simp [hc, List.count_eq_zero_of_not_mem hn], by simpa [hc] using hlength⟩
      · exact ⟨c :: first, by simp [hc, List.count_eq_zero_of_not_mem hn],
          by simpa [hc] using hlength⟩

end Text

namespace Position

/-- Where byte `offset` lies; nowhere if that is inside a character. -/
def at? (source : String) (offset : Nat) : Option Position :=
  (Text.before? (min offset source.utf8ByteSize) source.toList).map fun before =>
    { line := before.count '\n' + 1
      column := (before.reverse.takeWhile (· ≠ '\n')).length + 1 }

/-- The line is one of the text, and the column is in it or just behind it. -/
structure InText (source : String) (p : Position) : Prop where
  line_le : p.line ≤ source.toList.count '\n' + 1
  column_le : ∃ line, (source.toList.splitOn '\n')[p.line - 1]? = some line ∧
    p.column ≤ line.length + 1

variable {source : String} {offset : Nat} {p : Position}

/-- The position right behind what a text begins with. -/
def behind (before : List Char) : Position where
  line := before.count '\n' + 1
  column := (before.reverse.takeWhile (· ≠ '\n')).length + 1

theorem ofOffset_eq_behind {before after : List Char} (hs : source.toList = before ++ after)
    (ho : min offset source.utf8ByteSize = Text.byteLength before) :
    ofOffset source offset = behind before := by
  rw [← Text.byteLength_toList, hs] at ho
  rw [ofOffset, hs, Text.reverseBefore_append ho, List.count_reverse]
  rfl

theorem at?_eq_some : at? source offset = some p ↔
    Text.Boundary source.toList (min offset source.utf8ByteSize) ∧ p = ofOffset source offset := by
  unfold at?
  rw [Option.map_eq_some_iff]
  simp only [Text.before?_eq_some]
  constructor
  · rintro ⟨before, ⟨hsize, after, hs⟩, rfl⟩
    exact ⟨⟨before, after, hs.symm, hsize⟩, (ofOffset_eq_behind hs.symm hsize.symm).symm⟩
  · rintro ⟨⟨before, after, hs, hsize⟩, rfl⟩
    exact ⟨before, ⟨hsize, after, hs.symm⟩, (ofOffset_eq_behind hs hsize.symm).symm⟩

theorem inText_of_at? (h : at? source offset = some p) : p.InText source := by
  obtain ⟨before, hb, rfl⟩ := Option.map_eq_some_iff.mp h
  obtain ⟨-, after, hs⟩ := Text.before?_eq_some.mp hb
  refine ⟨?_, ?_⟩
  · rw [← hs, List.count_append]
    exact Nat.succ_le_succ (Nat.le_add_right _ _)
  · obtain ⟨line, hline, hlength⟩ := Text.exists_line before after
    rw [← hs]
    exact ⟨line, hline, Nat.succ_le_succ hlength⟩

end Position

end JackVM
