import JackVM.Proofs.Files.Names

/-!
# Replacing the extension

What replaces the extension replaces the file name and all that stands behind it. It
keeps the pieces in front and the stem. There is one exception: if the stem is a single
dot and the path ends with the name, the old extension leaves two dots, so `..jack`
becomes the way up.
-/

namespace JackVM.Path

variable {p : Path} {piece name ending : List Char} {front trail : List (List Char)} {n : String}

-- ---------------------------------------------------------------------------
-- Stems
-- ---------------------------------------------------------------------------

theorem fileName?_eq {q : Path} (hstem : p.stem? = q.stem?) (hext : p.extension? = q.extension?) :
    p.fileName? = q.fileName? := by
  unfold stem? at hstem
  unfold extension? at hext
  cases hp : p.fileName? with
  | none =>
    cases hq : q.fileName? with
    | none => rfl
    | some n' => simp [hp, hq] at hstem
  | some n =>
    cases hq : q.fileName? with
    | none => simp [hp, hq] at hstem
    | some n' =>
      simp only [hp, hq, Option.map_some, Option.some.injEq, String.ofList_inj] at hstem
      simp only [hp, hq, Option.bind_some] at hext
      have hext' := Option.map_injective (fun _ _ => String.ofList_inj.mp) hext
      rw [Option.some.injEq, ← String.toList_inj, ← splitName_append n.toList,
        ← splitName_append n'.toList, hstem, hext']

theorem splitName_stem_ne_nil (h : name ≠ []) : (splitName name).1 ≠ [] := by
  unfold splitName
  split
  · exact h
  · exact h
  · next hstem _ => simpa using hstem

theorem splitName_dot {stem : List Char} (h : stem ≠ []) (hdot : '.' ∉ ending) :
    splitName (stem ++ '.' :: ending) = (stem, some ending) := by
  obtain ⟨first, rest, hs⟩ := List.exists_cons_of_ne_nil (mt List.reverse_eq_nil_iff.mp h)
  have hstem : rest.reverse ++ [first] = stem := by simpa using congrArg List.reverse hs.symm
  have hreverse : (stem ++ '.' :: ending).reverse = ending.reverse ++ '.' :: first :: rest := by
    simp [hs]
  have hall : ∀ c ∈ ending.reverse, decide (c ≠ '.') = true := by
    intro c hc
    have hne : c ≠ '.' := fun h => hdot (h ▸ List.mem_reverse.mp hc)
    simpa using hne
  unfold splitName
  rw [hreverse, List.dropWhile_append_of_pos hall, List.takeWhile_append_of_pos hall]
  simp [hstem]

theorem dot_not_mem_ending (h : (splitName name).2 = some ending) : '.' ∉ ending := by
  unfold splitName at h
  split at h
  · cases h
  · cases h
  · obtain rfl := Option.some.inj h
    intro hdot
    have hall := List.all_takeWhile (p := (· ≠ '.')) (l := name.reverse)
    simpa using List.all_eq_true.mp hall '.' (List.mem_reverse.mp hdot)

theorem splitName_none (h : (splitName name).2 = none) : (splitName name).1 = name := by
  simpa [h] using splitName_append name

theorem splitName_some (h : (splitName name).2 = some ending) :
    (splitName name).1 ++ '.' :: ending = name := by
  simpa [h] using splitName_append name

theorem stem_subset : (splitName name).1 ⊆ name :=
  List.IsPrefix.subset ⟨_, splitName_append name⟩

-- ---------------------------------------------------------------------------
-- Behind the name
-- ---------------------------------------------------------------------------

theorem exists_take_trail (ht : ∀ x ∈ trail, isIdle x) (k : Nat) :
    ∃ shorter : List (List Char), (∀ x ∈ shorter, isIdle x) ∧ shorter.length ≤ trail.length ∧
      (trail.flatMap ('/' :: ·)).take k = shorter.flatMap ('/' :: ·) := by
  induction trail generalizing k with
  | nil => exact ⟨[], by simp, Nat.le_refl _, by simp⟩
  | cons x trail ih =>
    obtain ⟨hx, hrest⟩ := List.forall_mem_cons.mp ht
    cases k with
    | zero => exact ⟨[], by simp, Nat.zero_le _, by simp⟩
    | succ k =>
      rcases isIdle_iff.mp hx with rfl | rfl
      · obtain ⟨shorter, hi, hl, hs⟩ := ih hrest k
        exact ⟨[] :: shorter, by simpa [isIdle] using hi, by simpa using hl, by simpa using hs⟩
      cases k with
      | zero => exact ⟨[[]], by simp [isIdle], by simp, by simp⟩
      | succ k =>
        obtain ⟨shorter, hi, hl, hs⟩ := ih hrest k
        exact ⟨['.'] :: shorter, by simpa [isIdle] using hi, by simpa using hl, by simpa using hs⟩

theorem replaceAfterStem_pieces {ending : String} (h : p.pieces = front ++ piece :: trail)
    (ht : ∀ x ∈ trail, isIdle x) (hn : step? piece = some (.name n))
    (hending : '/' ∉ ending.toList) :
    (p.replaceAfterStem ending).pieces = front ++ [(splitName piece).1 ++ ending.toList] := by
  have hslash {x : List Char} (hx : x ∈ front ++ piece :: trail) : '/' ∉ x :=
    slash_not_mem_pieces (h ▸ hx)
  have hlast : p.pieces.reverse.dropWhile (fun x => x = [] || x = ['.']) =
      piece :: front.reverse := by
    have htrail : ∀ x ∈ trail.reverse, (x = [] || x = ['.']) = true := fun x hx =>
      ht x (List.mem_reverse.mp hx)
    obtain ⟨hempty, hdot, -, -⟩ := step?_eq_name.mp hn
    rw [h, List.reverse_append, List.reverse_cons, List.append_assoc,
      List.dropWhile_append_of_pos htrail]
    simp [hempty, hdot]
  have hreplaced : p.replaceAfterStem ending =
      ofPieces (front ++ [(splitName piece).1 ++ ending.toList]) := by
    simp [replaceAfterStem, fileName?_of_pieces ht h hn, hlast, ofPieces]
  rw [hreplaced, pieces_ofPieces (by simp)]
  simp only [List.mem_append, List.mem_singleton]
  rintro x (hx | rfl)
  · exact hslash (by simp [hx])
  · have hstem : '/' ∉ (splitName piece).1 := fun hx => hslash (by simp) (stem_subset hx)
    simp [hstem, hending]

/-- What is left when as many characters are taken away as the old extension has: the
stem with its dot, and maybe more. -/
theorem shortened_pieces {old : List Char} (h : p.pieces = front ++ piece :: trail)
    (ht : ∀ x ∈ trail, isIdle x) (hold : (splitName piece).2 = some old) :
    ∃ shorter : List (List Char), (∀ x ∈ shorter, isIdle x) ∧ shorter.length ≤ trail.length ∧
      Path.pieces ⟨String.ofList (p.text.toList.take (p.text.length - old.length))⟩ =
        front ++ ((splitName piece).1 ++
          '.' :: old.take (trail.flatMap ('/' :: ·)).length) :: shorter := by
  have hslash {x : List Char} (hx : x ∈ front ++ piece :: trail) : '/' ∉ x :=
    slash_not_mem_pieces (h ▸ hx)
  have hpiece := splitName_some hold
  obtain ⟨shorter, hi, hl, htake⟩ :=
    exists_take_trail ht ((trail.flatMap ('/' :: ·)).length - old.length)
  generalize hbehind : trail.flatMap ('/' :: ·) = behind at htake ⊢
  have htext : p.text.toList =
      (front.flatMap (· ++ ['/']) ++ (splitName piece).1 ++ ['.']) ++ (old ++ behind) := by
    have hend := congrArg (· ++ behind) hpiece.symm
    simpa [text_of_trail h, hbehind] using hend
  have hleft : p.text.toList.take (p.text.length - old.length) =
      join (front ++ ((splitName piece).1 ++ '.' :: old.take behind.length) :: shorter) := by
    have hlength : p.text.length - old.length =
        (front.flatMap (· ++ ['/']) ++ (splitName piece).1 ++ ['.']).length + behind.length := by
      rw [← String.length_toList, htext]
      simp only [List.length_append]
      omega
    rw [hlength, htext, List.take_length_add_append, List.take_append, htake, join_trail]
    simp
  refine ⟨shorter, hi, hl, ?_⟩
  rw [hleft]
  refine pieces_ofPieces (by simp) ?_
  simp only [List.mem_append, List.mem_cons]
  rintro x (hx | rfl | hx)
  · exact hslash (by simp [hx])
  · have hin : '/' ∉ (splitName piece).1 ++ '.' :: old := by
      rw [hpiece]
      exact hslash (by simp)
    intro hx
    refine hin (List.mem_append.mpr ((List.mem_append.mp hx).imp_right fun hx => ?_))
    exact List.mem_cons.mpr ((List.mem_cons.mp hx).imp_right List.mem_of_mem_take)
  · exact slash_not_mem_of_isIdle (hi x hx)

/-- What replaces the extension keeps the pieces in front of the name and its stem. -/
theorem withExtension_pieces {extension : String} (h : p.pieces = front ++ piece :: trail)
    (ht : ∀ x ∈ trail, isIdle x) (hn : step? piece = some (.name n))
    (hstem : (splitName piece).1 = ['.'] → trail ≠ []) (hextension : '/' ∉ extension.toList) :
    (p.withExtension extension).pieces =
      front ++ [(splitName piece).1 ++ '.' :: extension.toList] := by
  obtain ⟨hempty, -, hdots, hname⟩ := step?_eq_name.mp hn
  have hne := splitName_stem_ne_nil hempty
  have hending : '/' ∉ ("." ++ extension).toList := by simp [hextension]
  have hold : p.extension? = (splitName piece).2.map String.ofList := by
    simp [extension?, fileName?_of_pieces ht h hn, hname]
  unfold withExtension
  cases hsplit : (splitName piece).2 with
  | none =>
    simp [hold, hsplit, replaceAfterStem_pieces h ht hn hending]
  | some old =>
    have hpiece := splitName_some hsplit
    obtain ⟨shorter, hi, -, hshort⟩ := shortened_pieces h ht hsplit
    generalize hleft : old.take (trail.flatMap ('/' :: ·)).length = left at hshort
    have hdot : '.' ∉ left := fun hd =>
      dot_not_mem_ending hsplit (List.mem_of_mem_take (hleft ▸ hd))
    -- With a dot for its stem the name keeps a part of the extension.
    have hleftDots : (splitName piece).1 ++ '.' :: left ≠ ['.', '.'] := by
      intro hdd
      obtain ⟨d, rest, hd⟩ := List.exists_cons_of_ne_nil hne
      obtain ⟨rfl, hrest⟩ : d = '.' ∧ rest ++ '.' :: left = ['.'] := by simpa [hd] using hdd
      obtain ⟨rfl, rfl⟩ : rest = [] ∧ left = [] := by
        cases rest <;> simp_all
      obtain ⟨x, between, htrail⟩ := List.exists_cons_of_ne_nil (hstem hd)
      have hnil : old = [] := (List.take_eq_nil_iff.mp hleft).resolve_left (by simp [htrail])
      exact hdots (by rw [← hpiece, hd, hnil]; rfl)
    have hshortName : step? ((splitName piece).1 ++ '.' :: left) =
        some (.name (String.ofList ((splitName piece).1 ++ '.' :: left))) :=
      step?_eq_name.mpr ⟨by simp, by simp [List.append_eq_singleton_iff, hne], hleftDots, rfl⟩
    simp only [hold, hsplit, Option.map_some, String.length_ofList,
      replaceAfterStem_pieces hshort hi hshortName hending, splitName_dot hne hdot]
    simp

/-- A name that has nothing but a dot for its stem becomes the way up. -/
theorem withExtension_dots (extension : String) (h : p.pieces = front ++ [piece])
    (hn : step? piece = some (.name n)) (hstem : (splitName piece).1 = ['.']) :
    (p.withExtension extension).steps = stepsOf front ++ [.up] := by
  obtain ⟨-, hdot, -, hname⟩ := step?_eq_name.mp hn
  have hsome : (splitName piece).2 ≠ none := fun hnone =>
    hdot ((splitName_none hnone).symm.trans hstem)
  obtain ⟨old, hsplit⟩ := Option.ne_none_iff_exists'.mp hsome
  have hold : p.extension? = some (String.ofList old) := by
    simp [extension?, fileName?_of_pieces (by simp) h hn, hname, hsplit]
  obtain ⟨shorter, -, hl, hshort⟩ := shortened_pieces h (by simp) hsplit
  obtain rfl : shorter = [] := List.eq_nil_of_length_eq_zero (Nat.le_zero.mp hl)
  have hsteps := steps_of_pieces hshort
  simp only [hstem, List.flatMap_nil, List.length_nil, List.take_zero] at hsteps
  have hnone := components_last (by simp) hsteps
  unfold withExtension
  simp only [hold, String.length_ofList]
  unfold replaceAfterStem
  simp only [fileName?, hnone]
  exact hsteps

end JackVM.Path
