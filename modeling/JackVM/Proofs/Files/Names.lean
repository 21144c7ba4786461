import JackVM.Files.Path

/-!
# File names in paths

A path is its pieces with slashes between them. The last step that is not to the
same place is that of its file name; behind it a path may go on with slashes and
single dots. An entry of a directory is one step on.
-/

namespace JackVM.Path

variable {p : Path} {piece : List Char} {front trail pieces : List (List Char)} {n : String}

-- ---------------------------------------------------------------------------
-- Pieces
-- ---------------------------------------------------------------------------

theorem slash_not_mem_split {cs : List Char} (h : piece ∈ split cs) : '/' ∉ piece := by
  induction cs generalizing piece with
  | nil => simp_all [split]
  | cons c cs ih =>
    unfold split at h
    split at h
    · rcases List.mem_cons.mp h with rfl | h
      · simp
      · exact ih h
    · next hc =>
      obtain ⟨first, rest, hs⟩ := List.exists_cons_of_ne_nil (split_ne_nil cs)
      rw [hs] at h ih
      rcases List.mem_cons.mp h with rfl | h
      · simpa [Ne.symm hc] using ih (List.mem_cons_self ..)
      · exact ih (List.mem_cons_of_mem _ h)

theorem split_of_not_mem {cs : List Char} (h : '/' ∉ cs) : split cs = [cs] := by
  induction cs with
  | nil => rfl
  | cons c cs ih =>
    rw [List.mem_cons, not_or] at h
    simp [split, Ne.symm h.1, ih h.2]

theorem split_append_slash {cs rest : List Char} (h : '/' ∉ cs) :
    split (cs ++ '/' :: rest) = cs :: split rest := by
  induction cs with
  | nil => simp [split]
  | cons c cs ih =>
    rw [List.mem_cons, not_or] at h
    simp [split, Ne.symm h.1, ih h.2]

theorem split_join (hne : pieces ≠ []) (h : ∀ piece ∈ pieces, '/' ∉ piece) :
    split (join pieces) = pieces := by
  induction pieces with
  | nil => exact absurd rfl hne
  | cons piece rest ih =>
    obtain ⟨hpiece, hrest⟩ := List.forall_mem_cons.mp h
    cases rest with
    | nil => exact split_of_not_mem hpiece
    | cons next rest =>
      rw [join, split_append_slash hpiece, ih (by simp) hrest]
      simp

def ofPieces (pieces : List (List Char)) : Path := ⟨String.ofList (join pieces)⟩

theorem pieces_ofPieces (hne : pieces ≠ []) (h : ∀ piece ∈ pieces, '/' ∉ piece) :
    (ofPieces pieces).pieces = pieces := by
  simp [ofPieces, Path.pieces, split_join hne h]

theorem join_concat (front : List (List Char)) (piece : List Char) :
    join (front ++ [piece]) = front.flatMap (· ++ ['/']) ++ piece := by
  induction front with
  | nil => simp [join]
  | cons first rest ih =>
    cases rest with
    | nil => simp [join]
    | cons next rest => simp_all [join]

theorem join_trail (front : List (List Char)) (piece : List Char) (trail : List (List Char)) :
    join (front ++ piece :: trail) =
      front.flatMap (· ++ ['/']) ++ piece ++ trail.flatMap ('/' :: ·) := by
  induction trail generalizing front piece with
  | nil => simp [join_concat]
  | cons next trail ih => simpa using ih (front ++ [piece]) next

/-- A piece that changes nothing, except for a dot in front. -/
def isIdle (piece : List Char) : Bool := piece = [] || piece = ['.']

theorem isIdle_iff : isIdle piece ↔ piece = [] ∨ piece = ['.'] := by simp [isIdle]

theorem slash_not_mem_of_isIdle (h : isIdle piece) : '/' ∉ piece := by
  rcases isIdle_iff.mp h with rfl | rfl <;> simp

-- ---------------------------------------------------------------------------
-- Steps
-- ---------------------------------------------------------------------------

theorem pieces_ne_nil (p : Path) : p.pieces ≠ [] := split_ne_nil _

theorem exists_pieces (p : Path) : ∃ front piece, p.pieces = front ++ [piece] :=
  ⟨_, _, (List.dropLast_concat_getLast p.pieces_ne_nil).symm⟩

theorem text_of_trail (h : p.pieces = front ++ piece :: trail) :
    p.text.toList = front.flatMap (· ++ ['/']) ++ piece ++ trail.flatMap ('/' :: ·) := by
  rw [← join_trail, ← h, pieces, join_split]

theorem text_of_pieces (h : p.pieces = front ++ [piece]) :
    p.text.toList = front.flatMap (· ++ ['/']) ++ piece := by
  simpa using text_of_trail h

theorem eq_of_pieces {q : Path} (h : p.pieces = q.pieces) : p = q := by
  have htext : p.text.toList = q.text.toList := by
    rw [← join_split p.text.toList, ← join_split q.text.toList]
    exact congrArg join h
  exact congrArg Path.mk (String.toList_inj.mp htext)

theorem slash_not_mem_pieces (h : piece ∈ p.pieces) : '/' ∉ piece := slash_not_mem_split h

/-- The steps of the pieces in front of the last. If the first piece is empty
and not the last, the path is absolute. -/
def stepsOf (front : List (List Char)) : List PathStep :=
  if front.head? = some [] then .root :: front.filterMap step? else front.filterMap step?

theorem isAbsolute_of_pieces (h : p.pieces = front ++ [piece]) :
    p.isAbsolute ↔ front.head? = some [] := by
  have hslash {x : List Char} (hx : x ∈ front ++ [piece]) : '/' ∉ x := slash_not_mem_pieces (h ▸ hx)
  rw [isAbsolute, text_of_pieces h, decide_eq_true_eq]
  cases front with
  | nil =>
    have hpiece : piece.head? ≠ some '/' := fun hx =>
      hslash (by simp) (List.mem_of_mem_head? hx)
    simpa using hpiece
  | cons first rest =>
    cases first with
    | nil => simp
    | cons c cs =>
      have hc : c ≠ '/' := fun hc => hslash (x := c :: cs) (by simp) (by simp [hc])
      simp [hc]

theorem steps_of_pieces (h : p.pieces = front ++ [piece]) :
    p.steps = stepsOf front ++ (step? piece).toList := by
  have hlast : p.pieces.filterMap step? = front.filterMap step? ++ (step? piece).toList := by
    rw [h, List.filterMap_append]
    cases hs : step? piece <;> simp [hs]
  unfold steps stepsOf
  simp only [hlast, isAbsolute_of_pieces h]
  split <;> rfl

theorem step?_eq_name : step? piece = some (.name n) ↔
    piece ≠ [] ∧ piece ≠ ['.'] ∧ piece ≠ ['.', '.'] ∧ n = String.ofList piece := by
  unfold step?
  by_cases hempty : piece = []
  · simp [hempty]
  by_cases hdot : piece = ['.']
  · simp [hdot]
  by_cases hdots : piece = ['.', '.']
  · simp [hdots]
  simp [hempty, hdot, hdots, eq_comm (a := n)]

theorem step?_eq_none : step? piece = none ↔ piece = [] := by
  unfold step?
  split
  · simp [*]
  · split
    · simp [*]
    · split <;> simp [*]

theorem endsInSlash_of_pieces (h : p.pieces = front ++ [piece]) (hne : piece ≠ []) :
    p.endsInSlash = false := by
  have hlast : p.text.toList.getLast? = some (piece.getLast hne) := by
    rw [text_of_pieces h, List.getLast?_append, List.getLast?_eq_some_getLast hne, Option.some_or]
  have hslash : '/' ∉ piece := slash_not_mem_pieces (p := p) (by simp [h])
  simp only [endsInSlash, hlast, Option.some.injEq, decide_eq_false_iff_not]
  exact fun hc => hslash (hc ▸ List.getLast_mem hne)

theorem stepsOf_append {more : List (List Char)} (h : more.head? ≠ some []) :
    stepsOf (front ++ more) = stepsOf front ++ more.filterMap step? := by
  have hhead : (front ++ more).head? = some [] ↔ front.head? = some [] := by
    cases front <;> simp [h]
  unfold stepsOf
  simp only [hhead, List.filterMap_append]
  split <;> rfl

theorem stepsOf_concat (hne : piece ≠ []) :
    stepsOf (front ++ [piece]) = stepsOf front ++ (step? piece).toList := by
  rw [stepsOf_append (by simpa using hne)]
  cases hs : step? piece <;> simp [hs]

theorem steps_of_trail (h : p.pieces = front ++ piece :: trail) (hne : piece ≠ []) :
    p.steps = stepsOf front ++ (piece :: trail).filterMap step? := by
  rcases List.eq_nil_or_concat trail with rfl | ⟨between, last, rfl⟩
  · rw [steps_of_pieces h]
    cases hs : step? piece <;> simp [hs]
  · have hlast : p.pieces = (front ++ piece :: between) ++ [last] := by simp [h]
    rw [List.concat_eq_append, steps_of_pieces hlast, stepsOf_append (by simpa using hne),
      List.append_assoc, ← List.cons_append, List.filterMap_append]
    cases hs : step? last <;> simp [hs]

-- ---------------------------------------------------------------------------
-- Components
-- ---------------------------------------------------------------------------

/-- Steps without those that lead nowhere, except for one in front. -/
def kept : List PathStep → List PathStep
  | [] => []
  | first :: rest => first :: rest.filter (· ≠ .here)

theorem components_eq (p : Path) : p.components = kept p.steps := by
  unfold components kept
  cases p.steps <;> rfl

section
variable {before behind : List PathStep} {s : PathStep} (hs : s ≠ .here)
include hs

theorem kept_append (hb : ∀ x ∈ behind, x = .here) :
    kept (before ++ s :: behind) = kept before ++ [s] := by
  cases before with
  | nil => simpa [kept] using hb
  | cons first rest => simpa [kept, hs] using hb

theorem components_of_steps (h : p.steps = before ++ [s]) : p.components = kept before ++ [s] := by
  rw [components_eq, h, kept_append hs (by simp)]

theorem components_last (h : p.steps = before ++ [s]) : p.components.getLast? = some s := by
  rw [components_of_steps hs h, List.getLast?_concat]

end

theorem fileName?_eq_some : p.fileName? = some n ↔ p.components.getLast? = some (.name n) := by
  unfold fileName?
  split <;> simp_all

theorem fileName?_of_steps {before : List PathStep} (h : p.steps = before ++ [.name n]) :
    p.fileName? = some n := fileName?_eq_some.mpr (components_last (by simp) h)

theorem step?_of_isIdle {s : PathStep} (h : isIdle piece) (hs : step? piece = some s) :
    s = .here := by
  rcases isIdle_iff.mp h with rfl | rfl
  · simp [step?] at hs
  · simpa [step?, eq_comm] using hs

theorem exists_step (h : isIdle piece = false) : ∃ s, step? piece = some s ∧ s ≠ .here := by
  obtain ⟨hempty, hdot⟩ : piece ≠ [] ∧ piece ≠ ['.'] := by simpa [isIdle] using h
  by_cases hdots : piece = ['.', '.']
  · exact ⟨.up, by simp [step?, hdots], by simp⟩
  · exact ⟨.name (String.ofList piece), by simp [step?, hempty, hdot, hdots], by simp⟩

section
variable (ht : ∀ x ∈ trail, isIdle x)
include ht

theorem components_of_trail {s : PathStep} (h : p.pieces = front ++ piece :: trail)
    (hp : step? piece = some s) (hs : s ≠ .here) :
    p.components = kept (stepsOf front) ++ [s] := by
  have hne : piece ≠ [] := fun hnil => by simp [step?_eq_none.mpr hnil] at hp
  have hbehind : ∀ x ∈ trail.filterMap step?, x = .here := by
    intro x hx
    obtain ⟨y, hy, hyx⟩ := List.mem_filterMap.mp hx
    exact step?_of_isIdle (ht y hy) hyx
  rw [components_eq, steps_of_trail h hne, List.filterMap_cons_some hp, kept_append hs hbehind]

theorem fileName?_of_pieces (h : p.pieces = front ++ piece :: trail)
    (hn : step? piece = some (.name n)) : p.fileName? = some n := by
  simp [fileName?_eq_some, components_of_trail ht h hn]

end

theorem mem_pieces_of_fileName? (h : p.fileName? = some n) :
    ∃ x ∈ p.pieces, step? x = some (.name n) := by
  have hstep : .name n ∈ p.steps := by
    have hmem := List.mem_of_getLast? (fileName?_eq_some.mp h)
    unfold components at hmem
    split at hmem
    · cases hmem
    · next hs => exact hs ▸ (List.filter_sublist.cons_cons _).subset hmem
  unfold steps at hstep
  split at hstep
  all_goals simpa using hstep

theorem exists_trail (pieces : List (List Char)) (h : ∃ x ∈ pieces, isIdle x = false) :
    ∃ front piece trail, pieces = front ++ piece :: trail ∧ isIdle piece = false ∧
      ∀ x ∈ trail, isIdle x := by
  induction pieces with
  | nil => simp at h
  | cons first rest ih =>
    by_cases hrest : ∃ x ∈ rest, isIdle x = false
    · obtain ⟨front, piece, trail, rfl, hp, ht⟩ := ih hrest
      exact ⟨first :: front, piece, trail, rfl, hp, ht⟩
    · have hall : ∀ x ∈ rest, isIdle x := by simpa using hrest
      obtain ⟨x, hx, hi⟩ := h
      rcases List.mem_cons.mp hx with rfl | hx
      · exact ⟨[], x, rest, rfl, hi, hall⟩
      · simp [hall x hx] at hi

theorem exists_fileName (h : p.fileName? = some n) :
    ∃ front trail, p.pieces = front ++ n.toList :: trail ∧ (∀ x ∈ trail, isIdle x) ∧
      step? n.toList = some (.name n) := by
  obtain ⟨x, hx, hn⟩ := mem_pieces_of_fileName? h
  have hi : isIdle x = false := by
    cases hidle : isIdle x with
    | false => rfl
    | true => simpa using step?_of_isIdle hidle hn
  obtain ⟨front, piece, trail, hp, hpiece, ht⟩ := exists_trail p.pieces ⟨x, hx, hi⟩
  obtain ⟨s, hs, hhere⟩ := exists_step hpiece
  obtain rfl : s = .name n := by
    simpa [components_of_trail ht hp hs hhere] using fileName?_eq_some.mp h
  obtain ⟨-, -, -, rfl⟩ := step?_eq_name.mp hs
  rw [String.toList_ofList]
  exact ⟨front, trail, hp, ht, hs⟩

/-- The last piece is empty after a slash, and where there is nothing. -/
theorem last_piece_eq_nil (h : p.pieces = front ++ [piece]) :
    piece = [] ↔ p.text.isEmpty ∨ p.endsInSlash := by
  have htext := text_of_pieces h
  constructor
  · rintro rfl
    rcases List.eq_nil_or_concat front with rfl | ⟨before, last, rfl⟩
    · left
      simpa using htext
    · right
      simp [endsInSlash, htext]
  · rintro (hempty | hslash)
    · have hnil : p.text.toList = [] := by simpa using hempty
      simp_all
    · exact Decidable.byContradiction fun hne => by simp [endsInSlash_of_pieces h hne] at hslash

theorem child_pieces {d : Path} (h : d.pieces = front ++ [piece]) (hslash : '/' ∉ n.toList) :
    (d.child n).pieces = (if piece = [] then front else front ++ [piece]) ++ [n.toList] := by
  have htext := text_of_pieces h
  have hnil := last_piece_eq_nil h
  have hchild : (d.child n).text.toList =
      join ((if piece = [] then front else front ++ [piece]) ++ [n.toList]) := by
    rw [join_concat]
    unfold child
    by_cases hempty : d.text.isEmpty
    · have hfront : front = [] := by
        cases front with
        | nil => rfl
        | cons first rest => simp_all
      simp [hempty, hnil.mpr (.inl hempty), hfront]
    by_cases hend : d.endsInSlash
    · have hpiece : piece = [] := hnil.mpr (.inr hend)
      simp [hempty, hend, htext, hpiece]
    · have hpiece : piece ≠ [] := fun hp => (hnil.mp hp).elim hempty hend
      simp [hempty, hend, htext, hpiece]
  rw [pieces, hchild, split_join (by simp)]
  intro x hx
  rcases List.mem_append.mp hx with hx | hx
  · refine slash_not_mem_pieces (p := d) (h ▸ ?_)
    split at hx
    · exact List.mem_append_left _ hx
    · exact hx
  · exact List.mem_singleton.mp hx ▸ hslash

theorem exists_child_pieces (d : Path) (hslash : '/' ∉ n.toList) :
    ∃ before, (d.child n).pieces = before ++ [n.toList] ∧ stepsOf before = d.steps := by
  obtain ⟨front, piece, h⟩ := d.exists_pieces
  refine ⟨_, child_pieces h hslash, ?_⟩
  rw [steps_of_pieces h]
  split
  · next hempty => simp [hempty, step?]
  · next hne => exact stepsOf_concat hne

theorem child_steps {d : Path} (hslash : '/' ∉ n.toList) (hn : step? n.toList = some (.name n)) :
    (d.child n).steps = d.steps ++ [.name n] ∧ (d.child n).endsInSlash = false := by
  obtain ⟨before, hchild, hsteps⟩ := exists_child_pieces d hslash
  refine ⟨?_, endsInSlash_of_pieces hchild (step?_eq_name.mp hn).1⟩
  simp [steps_of_pieces hchild, hn, hsteps]

end JackVM.Path
