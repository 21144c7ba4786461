import JackVM.Proofs.Layout.Strings

/-!
# Blanking comments

`Comments` says where the comments of a text are, by what they look like and
not by reading it. Blanking fails on the block comment that is never closed, if
there is one. Otherwise it works byte by byte: inside the comments every byte
but a line feed becomes a space, outside nothing changes, and a text that has
been blanked has no comments left.
-/

namespace JackVM

open Comment Text

-- ---------------------------------------------------------------------------
-- Bytes of a text
-- ---------------------------------------------------------------------------

namespace Text

def bytes (cs : List Char) : List UInt8 := cs.flatMap String.utf8EncodeChar

theorem bytes_cons (c : Char) (cs : List Char) :
    bytes (c :: cs) = String.utf8EncodeChar c ++ bytes cs := List.flatMap_cons

theorem bytes_append (cs ds : List Char) : bytes (cs ++ ds) = bytes cs ++ bytes ds :=
  List.flatMap_append

theorem length_bytes (cs : List Char) : (bytes cs).length = byteLength cs := by
  induction cs with
  | nil => rfl
  | cons c cs ih =>
    rw [bytes_cons, List.length_append, String.length_utf8EncodeChar, ih, byteLength_cons]

def lineFeed : UInt8 := 10

def space : UInt8 := 32

/-- No other character has the byte of a line feed in it. -/
theorem eq_of_lineFeed_mem {c : Char} (h : lineFeed ∈ String.utf8EncodeChar c) : c = '\n' := by
  have hbyte (n : Nat) : lineFeed = UInt8.ofNat n ↔ n % 256 = 10 := by
    rw [← UInt8.toNat_inj, UInt8.toNat_ofNat']
    exact eq_comm
  unfold String.utf8EncodeChar at h
  dsimp only at h
  split_ifs at h with hle <;>
    simp only [List.mem_cons, List.not_mem_nil, or_false, hbyte] at h
  · exact Char.toNat_inj.mp (show c.val.toNat = 10 by omega)
  all_goals omega

/-- Between two characters of a text, or at one of its ends. -/
def Boundary (cs : List Char) (i : Nat) : Prop :=
  ∃ before after, cs = before ++ after ∧ byteLength before = i

end Text

namespace Comment

def shownByte (part : Part) (b : UInt8) : UInt8 :=
  if part = .comment ∧ b ≠ lineFeed then space else b

theorem shownByte_eq_lineFeed {part : Part} {b : UInt8} :
    shownByte part b = lineFeed ↔ b = lineFeed := by
  unfold shownByte
  split
  · next h => exact iff_of_false (by decide) h.2
  · exact .rfl

theorem bytes_blank (c : Char) :
    bytes (blank c) = (String.utf8EncodeChar c).map (shownByte .comment) := by
  unfold blank
  split
  · next h => subst h; rfl
  · next h =>
    have hb : ∀ b ∈ String.utf8EncodeChar c, shownByte .comment b = space := fun b hb =>
      if_pos ⟨rfl, fun hl => h (eq_of_lineFeed_mem (hl ▸ hb))⟩
    rw [List.map_congr_left hb, List.map_const', String.length_utf8EncodeChar, bytes,
      List.flatMap_replicate]
    have hs : String.utf8EncodeChar ' ' = [space] := rfl
    simp [hs]

theorem bytes_shown (part : Part) (c : Char) :
    bytes (shown (part, c)) = (String.utf8EncodeChar c).map (shownByte part) := by
  have hsame (h : part ≠ .comment) :
      bytes [c] = (String.utf8EncodeChar c).map (shownByte part) := by
    have hid : shownByte part = id := funext fun b => if_neg fun hb => h hb.1
    rw [hid, List.map_id, bytes, List.flatMap_singleton]
  cases part with
  | comment => exact bytes_blank c
  | code => exact hsame nofun
  | string => exact hsame nofun

theorem bytes_flatMap_shown (ps : List (Part × Char)) :
    bytes (ps.flatMap shown) =
      List.zipWith shownByte (byteParts ps) (bytes (ps.map Prod.snd)) := by
  induction ps with
  | nil => rfl
  | cons p ps ih =>
    obtain ⟨part, c⟩ := p
    have hone : List.zipWith shownByte (List.replicate c.utf8Size part)
        (String.utf8EncodeChar c) = bytes (shown (part, c)) := by
      rw [bytes_shown, ← String.length_utf8EncodeChar, ← List.map_const', List.zipWith_map_left,
        List.zipWith_self]
    have hlength : (List.replicate c.utf8Size part).length = (String.utf8EncodeChar c).length := by
      rw [List.length_replicate, String.length_utf8EncodeChar]
    rw [List.flatMap_cons, bytes_append, ih, ← hone, List.map_cons, bytes_cons]
    exact (List.zipWith_append hlength).symm

end Comment

-- ---------------------------------------------------------------------------
-- Where comments are
-- ---------------------------------------------------------------------------

/-- The comments of a text, which is code at byte `offset`, and where the block
comment starts that is never closed, if there is one. -/
inductive Comments : Nat → List Char → List Span → Option Nat → Prop
  | nil (offset : Nat) : Comments offset [] [] none
  | code {offset : Nat} {c : Char} {rest : List Char} {comments : List Span} {opener : Option Nat}
    (hq : c ≠ '"') (hs : c = '/' → ∀ d ∈ rest.head?, d ≠ '/' ∧ d ≠ '*')
    (hr : Comments (offset + c.utf8Size) rest comments opener) :
    Comments offset (c :: rest) comments opener
  /-- A string constant that is closed, or broken off at the end of the line. -/
  | string {offset : Nat} {body : List Char} {last : Char} {rest : List Char}
    {comments : List Span} {opener : Option Nat}
    (hb : ∀ c ∈ body, c ≠ '"' ∧ c ≠ '\n') (hl : last = '"' ∨ last = '\n')
    (hr : Comments (offset + byteLength ('"' :: (body ++ [last]))) rest comments opener) :
    Comments offset ('"' :: (body ++ [last]) ++ rest) comments opener
  | openString (offset : Nat) {body : List Char} (hb : ∀ c ∈ body, c ≠ '"' ∧ c ≠ '\n') :
    Comments offset ('"' :: body) [] none
  /-- A line comment ends with the line. -/
  | line {offset : Nat} {body rest : List Char} {comments : List Span} {opener : Option Nat}
    (hb : '\n' ∉ body)
    (hr : Comments (offset + byteLength ('/' :: '/' :: (body ++ ['\n']))) rest comments opener) :
    Comments offset ('/' :: '/' :: (body ++ ['\n']) ++ rest)
      (⟨offset, offset + byteLength ('/' :: '/' :: (body ++ ['\n']))⟩ :: comments) opener
  | lastLine (offset : Nat) {body : List Char} (hb : '\n' ∉ body) :
    Comments offset ('/' :: '/' :: body) [⟨offset, offset + byteLength ('/' :: '/' :: body)⟩] none
  /-- A block comment ends with the first mark that closes it. -/
  | block {offset : Nat} {body rest : List Char} {comments : List Span} {opener : Option Nat}
    (hb : ¬['*', '/'] <:+: body)
    (hr : Comments (offset + byteLength ('/' :: '*' :: (body ++ ['*', '/']))) rest comments
      opener) :
    Comments offset ('/' :: '*' :: (body ++ ['*', '/']) ++ rest)
      (⟨offset, offset + byteLength ('/' :: '*' :: (body ++ ['*', '/']))⟩ :: comments) opener
  | openBlock (offset : Nat) {body : List Char} (hb : ¬['*', '/'] <:+: body) :
    Comments offset ('/' :: '*' :: body) [] (some offset)

structure Blanked (source : String) (comments : List Span) (text : List Char) : Prop where
  length : byteLength text = source.utf8ByteSize
  lineFeeds (i : Nat) :
    (bytes text)[i]? = some lineFeed ↔ (bytes source.toList)[i]? = some lineFeed
  outside {i : Nat} : (∀ s ∈ comments, ¬s.Has i) →
    (bytes text)[i]? = (bytes source.toList)[i]?
  inside {i : Nat} : (∃ s ∈ comments, s.Has i) →
    (bytes source.toList)[i]? ≠ some lineFeed → (bytes text)[i]? = some space
  boundary {i : Nat} : Boundary source.toList i → Boundary text i
  /-- Blanking once more changes nothing. -/
  again : uncommented (String.ofList text) = .ok text

-- ---------------------------------------------------------------------------
-- Every text has its comments
-- ---------------------------------------------------------------------------

section
variable {offset : Nat} {text : List Char} {comments : List Span}

theorem exists_quoted (text : List Char) :
    ∃ body rest, text = body ++ rest ∧ (∀ c ∈ body, c ≠ '"' ∧ c ≠ '\n') ∧
      ∀ c ∈ rest.head?, c = '"' ∨ c = '\n' := by
  obtain ⟨body, rest, ht, hb, hr⟩ := exists_run (fun c => c ≠ '"' && c ≠ '\n') text
  exact ⟨body, rest, ht, by simpa using hb, by simpa [or_iff_not_imp_left] using hr⟩

theorem exists_comments (offset : Nat) (text : List Char) :
    ∃ comments opener, Comments offset text comments opener := by
  match text with
  | [] => exact ⟨_, _, .nil offset⟩
  | c :: rest =>
    by_cases hq : c = '"'
    · subst hq
      obtain ⟨body, rest, rfl, hb, hr⟩ := exists_quoted rest
      cases rest with
      | nil => exact ⟨_, _, by simpa using Comments.openString offset hb⟩
      | cons last rest =>
        obtain ⟨comments, opener, hc⟩ :=
          exists_comments (offset + byteLength ('"' :: (body ++ [last]))) rest
        exact ⟨_, _, by simpa using Comments.string hb (hr last rfl) hc⟩
    · by_cases hs : c = '/' → ∀ d ∈ rest.head?, d ≠ '/' ∧ d ≠ '*'
      · obtain ⟨comments, opener, hc⟩ := exists_comments (offset + c.utf8Size) rest
        exact ⟨_, _, .code hq hs hc⟩
      · push Not at hs
        obtain ⟨rfl, d, hd, hm⟩ := hs
        obtain ⟨rest, rfl⟩ := List.head?_eq_some_iff.mp hd
        by_cases hline : d = '/'
        · subst hline
          by_cases hn : '\n' ∈ rest
          · obtain ⟨body, rest, rfl, hb⟩ := List.eq_append_cons_of_mem hn
            obtain ⟨comments, opener, hc⟩ :=
              exists_comments (offset + byteLength ('/' :: '/' :: (body ++ ['\n']))) rest
            exact ⟨_, _, by simpa using Comments.line hb hc⟩
          · exact ⟨_, _, .lastLine offset hn⟩
        · obtain rfl := hm hline
          rcases exists_block rest with ⟨body, rest, rfl, hb⟩ | hb
          · obtain ⟨comments, opener, hc⟩ :=
              exists_comments (offset + byteLength ('/' :: '*' :: (body ++ ['*', '/']))) rest
            exact ⟨_, _, by simpa using Comments.block hb hc⟩
          · exact ⟨_, _, .openBlock offset hb⟩
termination_by text.length
decreasing_by all_goals simp_all <;> omega

end

-- ---------------------------------------------------------------------------
-- What the comments of a text are taken for
-- ---------------------------------------------------------------------------

namespace Comment

section
variable {offset : Nat} {text rest : List Char} {ps : List (Part × Char)}

theorem partsFrom_openString (hb : ∀ c ∈ text, c ≠ '"' ∧ c ≠ '\n') :
    partsFrom .code offset ('"' :: text) = .ok (('"' :: text).map (Part.string, ·)) := by
  have ho : Passes .code offset ['"'] .string .string := fun _ => rfl
  have h := ho.append (passes_string hb) []
  rw [List.append_nil] at h
  exact h.trans (by simp [partsFrom, Except.map])

theorem passes_lineComment {body : List Char} (hb : '\n' ∉ body) :
    Passes .code offset ('/' :: '/' :: (body ++ ['\n'])) .comment .code :=
  passes_filler (f := .line body) hb

theorem passes_blockComment {body : List Char} (hb : ¬['*', '/'] <:+: body) :
    Passes .code offset ('/' :: '*' :: (body ++ ['*', '/'])) .comment .code :=
  passes_filler (f := .block body) hb

theorem partsFrom_plain {c : Char} (hq : c ≠ '"')
    (hs : c = '/' → ∀ d ∈ rest.head?, d ≠ '/' ∧ d ≠ '*') :
    partsFrom .code offset (c :: rest) =
      (partsFrom .code (offset + c.utf8Size) rest).map ([(Part.code, c)] ++ ·) := by
  rw [partsFrom_code offset hs, if_neg hq, if_neg hq]

end

end Comment

section
variable {offset : Nat} {text : List Char} {comments : List Span} {opener : Option Nat}

theorem Comments.error {start : Nat} (h : Comments offset text comments (some start)) :
    partsFrom .code offset text = .error start := by
  generalize ho : some start = opener at h
  induction h with
  | nil | openString | lastLine => cases ho
  | code hq hs hr ih => rw [partsFrom_plain hq hs, ih ho]; rfl
  | string hb hl hr ih => rw [passes_quoted hb hl, ih ho]; rfl
  | line hb hr ih => rw [passes_lineComment hb, ih ho]; rfl
  | block hb hr ih => rw [passes_blockComment hb, ih ho]; rfl
  | openBlock offset hb =>
    cases ho
    rw [partsFrom, partsFrom_openBlock hb]
    rfl

theorem Comments.le_start (h : Comments offset text comments opener) :
    ∀ s ∈ comments, offset ≤ s.start := by
  induction h with
  | nil | openString | openBlock => nofun
  | code hq hs hr ih => exact fun s hm => (Nat.le_add_right ..).trans (ih s hm)
  | string hb hl hr ih => exact fun s hm => (Nat.le_add_right ..).trans (ih s hm)
  | lastLine => simp
  | line hb hr ih | block hb hr ih =>
    exact List.forall_mem_cons.mpr
      ⟨Nat.le_refl _, fun s hm => (Nat.le_add_right ..).trans (ih s hm)⟩

/-- What the text is taken for is a comment where its comments are. -/
def Marks (offset : Nat) (comments : List Span) (ps : List (Part × Char)) : Prop :=
  ∀ i, (byteParts ps)[i]? = some .comment ↔ ∃ s ∈ comments, s.Has (offset + i)

section
variable {ps : List (Part × Char)}

theorem marks_nil : Marks offset [] [] := by simp [Marks, byteParts]

theorem Marks.append {part : Part} (h : Marks (offset + byteLength text) comments ps)
    (hp : part ≠ .comment) (hc : Comments (offset + byteLength text) rest comments opener) :
    Marks offset comments (text.map (part, ·) ++ ps) := by
  intro i
  rw [getElem?_byteParts_run]
  split
  · next hi =>
    refine ⟨fun he => absurd (Option.some.inj he) hp, fun ⟨s, hm, hs⟩ => ?_⟩
    have hle := hc.le_start s hm
    have hlt := hs.1
    omega
  · next hi => rw [h, Nat.add_assoc, Nat.add_sub_of_le (Nat.le_of_not_lt hi)]

theorem Marks.comment (h : Marks (offset + byteLength text) comments ps) :
    Marks offset (⟨offset, offset + byteLength text⟩ :: comments)
      (text.map (Part.comment, ·) ++ ps) := by
  intro i
  rw [getElem?_byteParts_run]
  simp only [List.mem_cons, exists_eq_or_imp, Span.Has]
  split
  · next hi => simp [hi]
  · next hi =>
    rw [h, Nat.add_assoc, Nat.add_sub_of_le (Nat.le_of_not_lt hi)]
    simp [hi, Span.Has]

end

theorem Comments.parts (h : Comments offset text comments none) :
    ∃ ps, partsFrom .code offset text = .ok ps ∧ Marks offset comments ps := by
  generalize ho : none = opener at h
  induction h with
  | nil => exact ⟨[], rfl, marks_nil⟩
  | @code offset c rest comments opener hq hs hr ih =>
    obtain ⟨ps, hp, hm⟩ := ih ho
    rw [partsFrom_plain hq hs, hp]
    have hc : Marks offset comments ([c].map (Part.code, ·) ++ ps) := hm.append nofun hr
    exact ⟨_, rfl, hc⟩
  | string hb hl hr ih =>
    obtain ⟨ps, hp, hm⟩ := ih ho
    rw [passes_quoted hb hl, hp]
    exact ⟨_, rfl, hm.append nofun hr⟩
  | openString offset hb =>
    rw [partsFrom_openString hb]
    refine ⟨_, rfl, ?_⟩
    rw [← List.append_nil (List.map _ _)]
    exact marks_nil.append nofun (.nil _)
  | line hb hr ih =>
    obtain ⟨ps, hp, hm⟩ := ih ho
    rw [passes_lineComment hb, hp]
    exact ⟨_, rfl, hm.comment⟩
  | lastLine offset hb =>
    rw [partsFrom_lastLine hb]
    refine ⟨_, rfl, ?_⟩
    rw [← List.append_nil (List.map _ _)]
    exact marks_nil.comment
  | block hb hr ih =>
    obtain ⟨ps, hp, hm⟩ := ih ho
    rw [passes_blockComment hb, hp]
    exact ⟨_, rfl, hm.comment⟩
  | openBlock => cases ho

theorem Comments.blanks {blanks : List Char} (hb : ∀ c ∈ blanks, isBlank c)
    (h : Comments (offset + byteLength blanks) rest comments opener) :
    Comments offset (blanks ++ rest) comments opener := by
  induction blanks generalizing offset with
  | nil => exact h
  | cons c blanks ih =>
    obtain ⟨hc, hb⟩ := List.forall_mem_cons.mp hb
    refine .code (ne_of_class hc (by decide)) (absurd · (ne_of_class hc (by decide))) (ih hb ?_)
    rwa [byteLength_cons, ← Nat.add_assoc] at h

theorem Comments.shown_comment (text : List Char)
    (h : Comments (offset + byteLength text) rest comments opener) :
    Comments offset ((text.map (Part.comment, ·)).flatMap shown ++ rest) comments opener := by
  refine .blanks (isBlank_shown text) ?_
  rwa [byteLength_shown, map_snd_map]

theorem Comments.blanked {ps : List (Part × Char)} (h : Comments offset text comments none)
    (hp : partsFrom .code offset text = .ok ps) : Comments offset (ps.flatMap shown) [] none := by
  generalize ho : none = opener at h
  induction h generalizing ps with
  | nil =>
    cases hp
    exact .nil _
  | code hq hs hr ih =>
    rw [partsFrom_plain hq hs, prepend_ok] at hp
    obtain ⟨qs, hqs, rfl⟩ := hp
    refine .code hq (fun hc d hd => ?_) (ih hqs ho)
    rcases head?_shown hqs with heq | ⟨-, heq⟩
    · exact hs hc d (heq ▸ hd)
    · obtain rfl := Option.some.inj (heq.symm.trans hd)
      decide
  | string hb hl hr ih =>
    rw [passes_quoted hb hl, prepend_ok] at hp
    obtain ⟨qs, hqs, rfl⟩ := hp
    rw [List.flatMap_append, shown_map (show Part.string ≠ .comment from nofun)]
    exact .string hb hl (ih hqs ho)
  | openString offset hb =>
    rw [partsFrom_openString hb] at hp
    obtain rfl := Except.ok.inj hp
    rw [shown_map (show Part.string ≠ .comment from nofun)]
    exact .openString offset hb
  | line hb hr ih =>
    rw [passes_lineComment hb, prepend_ok] at hp
    obtain ⟨qs, hqs, rfl⟩ := hp
    rw [List.flatMap_append]
    exact .shown_comment _ (ih hqs ho)
  | lastLine offset hb =>
    rw [partsFrom_lastLine hb] at hp
    obtain rfl := Except.ok.inj hp
    rw [← List.append_nil (List.flatMap _ _)]
    exact .shown_comment _ (.nil _)
  | block hb hr ih =>
    rw [passes_blockComment hb, prepend_ok] at hp
    obtain ⟨qs, hqs, rfl⟩ := hp
    rw [List.flatMap_append]
    exact .shown_comment _ (ih hqs ho)
  | openBlock => cases ho

end

-- ---------------------------------------------------------------------------
-- Sources
-- ---------------------------------------------------------------------------

section
variable {source : String} {comments : List Span} {ps : List (Part × Char)}

theorem uncommented_eq (source : String) :
    uncommented source = match partsFrom .code 0 source.toList with
      | .ok ps => .ok (ps.flatMap shown)
      | .error opener => .error (.inSource opener (.lexical .openComment)) := by
  unfold uncommented blankAll
  rw [blankFrom_eq]
  cases partsFrom .code 0 source.toList <;> rfl

theorem flatMap_shown_of_marks (h : Marks 0 [] ps) : ps.flatMap shown = ps.map Prod.snd := by
  have hshown : ∀ p ∈ ps, shown p = [p.2] := by
    rintro ⟨part, c⟩ hp
    cases part with
    | comment =>
      have hm : Part.comment ∈ byteParts ps :=
        List.mem_flatMap.mpr ⟨_, hp, List.mem_replicate.mpr ⟨c.utf8Size_pos.ne', rfl⟩⟩
      obtain ⟨i, hi⟩ := List.mem_iff_getElem?.mp hm
      simpa using (h i).mp hi
    | code | string => rfl
  rw [List.flatMap_congr hshown, List.map_eq_flatMap]

theorem getElem?_bytes_shown (hp : partsFrom .code 0 source.toList = .ok ps) (i : Nat) :
    (bytes (ps.flatMap shown))[i]? =
      ((bytes source.toList)[i]?).bind fun b => (byteParts ps)[i]?.map (shownByte · b) := by
  rw [bytes_flatMap_shown, map_snd_partsFrom hp, List.getElem?_zipWith]
  cases (byteParts ps)[i]? <;> cases (bytes source.toList)[i]? <;> rfl

theorem getElem?_byteParts_isSome (hp : partsFrom .code 0 source.toList = .ok ps) {i : Nat}
    {b : UInt8} (hb : (bytes source.toList)[i]? = some b) :
    ∃ part, (byteParts ps)[i]? = some part := by
  have hlt := (List.getElem?_eq_some_iff.mp hb).1
  rw [length_bytes, ← map_snd_partsFrom hp, ← length_byteParts] at hlt
  exact ⟨_, List.getElem?_eq_getElem hlt⟩

theorem Comments.blankedSource (h : Comments 0 source.toList comments none) :
    ∃ text, uncommented source = .ok text ∧ Blanked source comments text := by
  obtain ⟨ps, hp, hm⟩ := h.parts
  have hmark (i : Nat) : (byteParts ps)[i]? = some .comment ↔ ∃ s ∈ comments, s.Has i := by
    rw [hm, Nat.zero_add]
  refine ⟨ps.flatMap shown, by rw [uncommented_eq, hp],
    ⟨?length, fun i => ?lineFeeds, fun {i} ho => ?outside, fun {i} hi hb => ?inside,
      fun ⟨before, after, hs, hl⟩ => ?boundary, ?again⟩⟩
  case length => rw [byteLength_shown, map_snd_partsFrom hp, byteLength_toList]
  case lineFeeds =>
    rw [getElem?_bytes_shown hp]
    cases hb : (bytes source.toList)[i]? with
    | none => rfl
    | some b =>
      obtain ⟨part, hpart⟩ := getElem?_byteParts_isSome hp hb
      simp [hpart, shownByte_eq_lineFeed]
  case outside =>
    rw [getElem?_bytes_shown hp]
    cases hb : (bytes source.toList)[i]? with
    | none => rfl
    | some b =>
      obtain ⟨part, hpart⟩ := getElem?_byteParts_isSome hp hb
      have hne : part ≠ .comment := by
        rintro rfl
        obtain ⟨s, hs, hi⟩ := (hmark i).mp hpart
        exact ho s hs hi
      simp [hpart, shownByte, hne]
  case inside =>
    have hpart := (hmark i).mpr hi
    have hlt := (List.getElem?_eq_some_iff.mp hpart).1
    rw [length_byteParts, map_snd_partsFrom hp, ← length_bytes] at hlt
    rw [List.getElem?_eq_getElem hlt, Ne, Option.some.injEq] at hb
    simp [getElem?_bytes_shown hp, hpart, List.getElem?_eq_getElem hlt, shownByte, hb]
  case boundary =>
    obtain ⟨ps₁, ps₂, rfl, rfl, rfl⟩ := List.map_eq_append_iff.mp ((map_snd_partsFrom hp).trans hs)
    exact ⟨ps₁.flatMap shown, ps₂.flatMap shown, List.flatMap_append, by rw [byteLength_shown, hl]⟩
  case again =>
    obtain ⟨qs, hq, hn⟩ := (h.blanked hp).parts
    rw [uncommented_eq, String.toList_ofList, hq]
    exact congrArg Except.ok ((flatMap_shown_of_marks hn).trans (map_snd_partsFrom hq))

end

/-- Blanking a source fails at the block comment that is never closed. If all are
closed, it blanks the comments and nothing else. -/
theorem uncommented_blanks (source : String) :
    (∀ e, uncommented source = .error e ↔
      ∃ comments opener, Comments 0 source.toList comments (some opener) ∧
        e = .inSource opener (.lexical .openComment)) ∧
    ∀ text, uncommented source = .ok text →
      (∃ comments, Comments 0 source.toList comments none) ∧
        ∀ comments, Comments 0 source.toList comments none → Blanked source comments text := by
  have herror {comments : List Span} {opener : Nat}
      (h : Comments 0 source.toList comments (some opener)) :
      uncommented source = .error (.inSource opener (.lexical .openComment)) := by
    rw [uncommented_eq, h.error]
  obtain ⟨comments, opener, h⟩ := exists_comments 0 source.toList
  refine ⟨fun e => ⟨fun he => ?_, ?_⟩, fun text ht => ⟨?_, fun comments hc => ?_⟩⟩
  · cases opener with
    | some opener => exact ⟨comments, opener, h, Except.error.inj (he.symm.trans (herror h))⟩
    | none =>
      obtain ⟨text, ht, -⟩ := h.blankedSource
      cases he.symm.trans ht
  · rintro ⟨comments, opener, h, rfl⟩
    exact herror h
  · cases opener with
    | some opener => cases ht.symm.trans (herror h)
    | none => exact ⟨comments, h⟩
  · obtain ⟨text', ht', hb⟩ := hc.blankedSource
    obtain rfl := Except.ok.inj (ht.symm.trans ht')
    exact hb

end JackVM
