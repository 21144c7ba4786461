import JackVM.Proofs.Layout.Comments

/-!
# Regions of a text

Reading takes a text without comments apart into regions, one for each lexeme,
also for one that is no token. Only white space is left out. As blanking puts
spaces in the place of comments, the same offsets are between characters in the
source.
-/

namespace JackVM

open Comment Lexeme Text

-- ---------------------------------------------------------------------------
-- Places between characters
-- ---------------------------------------------------------------------------

namespace Text

/-- A text is cut at a byte in one way only. -/
theorem append_inj_byteLength {a b a' b' : List Char} (h : a ++ b = a' ++ b')
    (hl : byteLength a = byteLength a') : a = a' ∧ b = b' := by
  rcases List.append_eq_append_iff.mp h with ⟨m, rfl, rfl⟩ | ⟨m, rfl, rfl⟩ <;>
  · have hm : m = [] := byteLength_eq_zero.mp (by rw [byteLength_append] at hl; omega)
    simp [hm]

theorem append_eq_append_cons {a b before after : List Char} {c : Char}
    (h : a ++ b = before ++ c :: after) :
    (∃ m, a = before ++ c :: m) ∨ ∃ m, before = a ++ m ∧ b = m ++ c :: after := by
  rcases List.append_eq_append_iff.mp h with ⟨m, rfl, hb⟩ | ⟨m, rfl, hm⟩
  · exact .inr ⟨m, rfl, hb⟩
  · cases m with
    | nil => exact .inr ⟨[], by simp, hm.symm⟩
    | cons d m =>
      obtain ⟨rfl, -⟩ := List.cons.inj hm
      exact .inl ⟨m, rfl⟩

end Text

namespace Comment

/-- Only spaces have a place between them that is inside of a character. -/
theorem shown_split {p : Part × Char} {a b : List Char} (h : shown p = a ++ b) (ha : a ≠ [])
    (hb : b ≠ []) : a.getLast? = some ' ' ∧ b.head? = some ' ' := by
  have hone (c : Char) : [c] ≠ a ++ b := by
    cases a with
    | nil => exact absurd rfl ha
    | cons => cases b <;> simp_all
  obtain ⟨_ | _ | _, c⟩ := p
  · exact absurd h (hone c)
  · exact absurd h (hone c)
  · change blank c = a ++ b at h
    unfold blank at h
    split at h
    · exact absurd h (hone _)
    · have hall : ∀ d ∈ a ++ b, d = ' ' := fun d hd => List.eq_of_mem_replicate (h ▸ hd)
      obtain ⟨ha', hb'⟩ := List.forall_mem_append.mp hall
      rw [List.getLast?_eq_some_getLast ha, List.head?_eq_some_head hb,
        ha' _ (List.getLast_mem ha), hb' _ (List.head_mem hb)]
      exact ⟨rfl, rfl⟩

/-- What is shown is cut between the characters of the source, unless the cut is
between two spaces. -/
theorem exists_cut {ps : List (Part × Char)} {a b : List Char} (h : ps.flatMap shown = a ++ b)
    (hc : a.getLast? ≠ some ' ' ∨ b.head? ≠ some ' ') :
    ∃ before after, ps = before ++ after ∧ before.flatMap shown = a ∧ after.flatMap shown = b := by
  induction ps generalizing a with
  | nil =>
    obtain ⟨rfl, rfl⟩ := List.append_eq_nil_iff.mp h.symm
    exact ⟨[], [], rfl, rfl, rfl⟩
  | cons p ps ih =>
    by_cases ha : a = []
    · subst ha
      exact ⟨[], p :: ps, rfl, rfl, h⟩
    rw [List.flatMap_cons] at h
    rcases List.append_eq_append_iff.mp h with ⟨m, rfl, hm⟩ | ⟨m, hp, rfl⟩
    · obtain ⟨before, after, rfl, rfl, rfl⟩ := ih hm (hc.imp_left fun hl hs => hl (by simp [hs]))
      exact ⟨p :: before, after, rfl, rfl, rfl⟩
    · by_cases hm : m = []
      · subst hm
        exact ⟨[p], ps, rfl, by simp [hp], rfl⟩
      · obtain ⟨hl, hh⟩ := shown_split hp ha hm
        rw [List.head?_append_of_ne_nil _ hm] at hc
        exact absurd hc (not_or.mpr ⟨not_not.mpr hl, not_not.mpr hh⟩)

end Comment

-- ---------------------------------------------------------------------------
-- What a lexeme is read from
-- ---------------------------------------------------------------------------

def TokenKind.IsWord : TokenKind → Prop
  | .keyword _ | .identifier _ | .integer _ => True
  | .symbol _ | .string _ => False

def WordEnds (rest : List Char) : Prop := ∀ d ∈ rest.head?, isBlank d ∨ isSymbol d

inductive Malformed : LexicalError → List Char → List Char → Prop
  | openString {body : List Char} (hb : ∀ c ∈ body, isStringPart c) :
    Malformed .openString ('"' :: body) []
  | brokenString {body : List Char} {last : Char} (rest : List Char)
    (hb : ∀ c ∈ body, isStringPart c) (hl : last = '\n' ∨ last = '\r') :
    Malformed .brokenString ('"' :: (body ++ [last])) rest
  | integerRange {value : Nat} {rest : List Char} (zeros : Nat) (hv : maxInteger < value)
    (hr : WordEnds rest) :
    Malformed (.integerRange (String.ofList (.replicate zeros '0' ++ (toString value).toList)))
      (.replicate zeros '0' ++ (toString value).toList) rest
  | unknownWord {word rest : List Char} (hq : word.head? ≠ some '"')
    (hw : ∀ c ∈ word, isWordPart c) (hd : ∃ c ∈ word, isDigit c = false)
    (hn : ∀ kind, ¬WordOf kind word) (hr : WordEnds rest) :
    Malformed (.unknownWord (String.ofList word)) word rest

def Lexeme.Spelled : Lexeme → List Char → List Char → Prop
  | .token t, word, rest => Written t.kind word ∧ (t.kind.IsWord → WordEnds rest)
  | .malformed _ reason, word, rest => Malformed reason word rest

structure ReadFrom (l : Lexeme) (word rest : List Char) : Prop where
  spelled : l.Spelled word rest
  head : ∀ c ∈ word.head?, isBlank c = false
  ne_nil : word ≠ []
  last : word.getLast? = some ' ' → rest = []

/-- From byte `offset` on, lexemes with white space around them. -/
inductive Lexed : Nat → List Char → List Lexeme → Prop
  | blanks (offset : Nat) {blanks : List Char} (hb : ∀ c ∈ blanks, isBlank c) :
    Lexed offset blanks []
  | lexeme {offset : Nat} {blanks word rest : List Char} {l : Lexeme} {found : List Lexeme}
    (hb : ∀ c ∈ blanks, isBlank c) (hl : ReadFrom l word rest)
    (hs : l.span = ⟨offset + byteLength blanks, offset + byteLength (blanks ++ word)⟩)
    (hr : Lexed (offset + byteLength (blanks ++ word)) rest found) :
    Lexed offset (blanks ++ word ++ rest) (l :: found)

theorem isWordPart_eq_false {c : Char} : isWordPart c = false ↔ isBlank c ∨ isSymbol c := by
  cases hb : isBlank c <;> simp [isWordPart, hb]

section
variable (start : Nat)

theorem ofQuote_open {body : List Char} (h : ∀ c ∈ body, isStringPart c) :
    ofQuote start body =
      (.malformed ⟨start, start + byteLength ('"' :: body)⟩ .openString, []) := by
  have hsize : start + 1 + byteLength body = start + byteLength ('"' :: body) := Nat.add_assoc ..
  rw [ofQuote, List.takeWhile_eq_self_iff.mpr h, List.dropWhile_eq_nil_iff.mpr h, hsize]

theorem ofQuote_broken {body rest : List Char} {last : Char} (h : ∀ c ∈ body, isStringPart c)
    (hl : last = '\n' ∨ last = '\r') :
    ofQuote start (body ++ last :: rest) =
      (.malformed ⟨start, start + byteLength ('"' :: (body ++ [last]))⟩ .brokenString, rest) := by
  obtain ⟨hstop, hq, hlast⟩ : isStringPart last = false ∧ last ≠ '"' ∧ last.utf8Size = 1 := by
    rcases hl with rfl | rfl <;> decide
  obtain ⟨ht, hd⟩ : (body ++ last :: rest).takeWhile isStringPart = body ∧
      (body ++ last :: rest).dropWhile isStringPart = last :: rest :=
    takeWhile_stop h fun d hd => by rwa [← Option.some.inj hd]
  have hsize : byteLength ('"' :: (body ++ [last])) = 1 + (byteLength body + 1) := by
    rw [byteLength_cons, byteLength_append, byteLength_cons, hlast]
    rfl
  rw [ofQuote, ht, hd, hsize, ← Nat.add_assoc, ← Nat.add_assoc]
  exact if_neg hq

theorem exists_quote (cs : List Char) :
    ∃ word, '"' :: cs = word ++ (ofQuote start cs).2 ∧
      (ofQuote start cs).1.span = ⟨start, start + byteLength word⟩ ∧
      ReadFrom (ofQuote start cs).1 word (ofQuote start cs).2 := by
  have hquote : isBlank '"' = false := by decide
  obtain ⟨body, rest, rfl, hb, hr⟩ := exists_run isStringPart cs
  cases rest with
  | nil =>
    rw [List.append_nil, ofQuote_open start hb]
    exact ⟨'"' :: body, by simp, rfl,
      ⟨.openString hb, by simpa using hquote, List.cons_ne_nil _ _, fun _ => rfl⟩⟩
  | cons last rest =>
    have hlast : ('"' :: (body ++ [last])).getLast? = some last := by
      rw [← List.cons_append, List.getLast?_concat]
    have hstop : last = '"' ∨ last = '\n' ∨ last = '\r' := by
      simpa [isStringPart, or_iff_not_imp_left] using hr last rfl
    rcases hstop with rfl | hbreak
    · have hplain : ∀ c ∈ (String.ofList body).toList, c ≠ '"' ∧ c ≠ '\n' ∧ c ≠ '\r' := by
        intro c hc
        rw [String.toList_ofList] at hc
        simpa [isStringPart, and_assoc] using hb c hc
      have hw := Written.string hplain
      rw [String.toList_ofList] at hw
      rw [ofQuote_closed hb]
      exact ⟨_, by simp, rfl,
        ⟨⟨hw, False.elim⟩, by simpa using hquote, List.cons_ne_nil _ _, by simp [hlast]⟩⟩
    · have hspace : last ≠ ' ' := by rcases hbreak with rfl | rfl <;> decide
      rw [ofQuote_broken start hb hbreak]
      exact ⟨'"' :: (body ++ [last]), by simp, rfl, ⟨.brokenString rest hb hbreak,
        by simpa using hquote, List.cons_ne_nil _ _, by simp [hlast, hspace]⟩⟩

theorem spelled_ofWord {c : Char} {others rest : List Char}
    (h : ∀ d ∈ c :: others, isWordPart d) (hq : c ≠ '"') (hr : WordEnds rest) (span : Span) :
    (ofWord span (c :: others)).Spelled (c :: others) rest := by
  cases hl : ofWord span (c :: others) with
  | token t => exact ⟨.word (wordOf_of_ofWord (List.cons_ne_nil _ _) hl).2, fun _ => hr⟩
  | malformed told reason =>
    have hn : ∀ kind, ¬WordOf kind (c :: others) := fun kind hk => by
      rw [hk.ofWord_eq] at hl
      cases hl
    unfold ofWord at hl
    dsimp only at hl
    split at hl
    · cases hl
    split at hl
    · next hd =>
      split at hl
      · cases hl
      · next hv =>
        cases hl
        obtain ⟨zeros, hz⟩ := exists_zeros (List.cons_ne_nil _ _) (List.all_eq_true.mp hd)
        have hm := Malformed.integerRange zeros (Nat.lt_of_not_le hv) hr
        rwa [← hz] at hm
    · next hd =>
      split at hl
      · cases hl
      · cases hl
        have hd' : ∃ d ∈ c :: others, isDigit d = false := by
          simpa only [List.all_eq_true, not_forall, exists_prop, Bool.not_eq_true] using hd
        exact .unknownWord (by simpa using hq) h hd' hn hr

theorem readFrom_ofWord {c : Char} {others rest : List Char}
    (h : ∀ d ∈ c :: others, isWordPart d) (hq : c ≠ '"') (hr : WordEnds rest) (span : Span) :
    ReadFrom (ofWord span (c :: others)) (c :: others) rest := by
  have hb : ∀ d ∈ c :: others, isBlank d = false := fun d hd => by
    have hw := h d hd
    simp only [isWordPart, Bool.and_eq_true, Bool.not_eq_true'] at hw
    exact hw.1
  refine ⟨spelled_ofWord h hq hr span, by simpa using hb c List.mem_cons_self,
    List.cons_ne_nil _ _, fun hl => ?_⟩
  exact absurd (hb ' ' (List.mem_of_getLast? hl)) (by decide)

theorem exists_word {c : Char} (hc : isBlank c = false) (cs : List Char) :
    ∃ word, c :: cs = word ++ (next start c cs).2 ∧
      (next start c cs).1.span = ⟨start, start + byteLength word⟩ ∧
      ReadFrom (next start c cs).1 word (next start c cs).2 := by
  unfold next
  by_cases hq : c = '"'
  · rw [if_pos hq, hq]
    exact exists_quote start cs
  rw [if_neg hq]
  by_cases hs : isSymbol c
  · rw [if_pos hs]
    have hw : Written (.symbol c) [c] := .symbol (by simpa [isSymbol] using hs)
    refine ⟨[c], rfl, rfl,
      ⟨⟨hw, False.elim⟩, by simpa using hc, List.cons_ne_nil _ _, fun hl => ?_⟩⟩
    obtain rfl : c = ' ' := by simpa using hl
    exact absurd hc (by decide)
  · rw [if_neg hs]
    obtain ⟨others, rest, rfl, ho, hr⟩ := exists_run isWordPart cs
    obtain ⟨ht, hd⟩ := takeWhile_stop ho hr
    simp only [ht, hd]
    have hw : isWordPart c := by simp [isWordPart, hc, hs]
    exact ⟨c :: others, rfl, span_ofWord _ _,
      readFrom_ofWord (List.forall_mem_cons.mpr ⟨hw, ho⟩) hq
        (fun d hd => isWordPart_eq_false.mp (hr d hd)) _⟩

theorem lexed_allFrom (offset : Nat) (text : List Char) :
    Lexed offset text (allFrom offset text []) := by
  obtain ⟨blanks, rest, rfl, hb, hr⟩ := exists_run isBlank text
  rw [allFrom_blanks hb]
  cases rest with
  | nil =>
    rw [List.append_nil, allFrom_nil]
    exact .blanks offset hb
  | cons c cs =>
    have hc := hr c rfl
    obtain ⟨word, ht, hs, hw⟩ := exists_word (offset + byteLength blanks) hc cs
    have hlt : (next (offset + byteLength blanks) c cs).2.length < (blanks ++ c :: cs).length := by
      have hpos := List.length_pos_iff.mpr hw.ne_nil
      rw [ht, List.length_append, List.length_append]
      omega
    rw [allFrom_cons hc, ht, ← List.append_assoc]
    have hstop : offset + byteLength blanks + byteLength word =
        offset + byteLength (blanks ++ word) := by rw [byteLength_append, Nat.add_assoc]
    rw [hstop] at hs
    refine .lexeme hb hw hs ?_
    rw [hs]
    exact lexed_allFrom _ _
termination_by text.length

end

-- ---------------------------------------------------------------------------
-- Where lexemes are
-- ---------------------------------------------------------------------------

section
variable {offset : Nat} {text : List Char} {found : List Lexeme}

theorem Lexed.exists_place (h : Lexed offset text found) {l : Lexeme} (hl : l ∈ found) :
    ∃ before word rest, text = before ++ word ++ rest ∧ ReadFrom l word rest ∧
      l.span = ⟨offset + byteLength before, offset + byteLength (before ++ word)⟩ := by
  induction h with
  | blanks => nomatch hl
  | @lexeme offset blanks word rest m found hb hw hs hr ih =>
    rcases List.mem_cons.mp hl with rfl | hl
    · exact ⟨blanks, word, rest, rfl, hw, hs⟩
    · obtain ⟨before, word', rest', rfl, hw', hs'⟩ := ih hl
      refine ⟨blanks ++ word ++ before, word', rest', by simp, hw', ?_⟩
      rw [hs']
      simp [Nat.add_assoc]

theorem Lexed.length_le (h : Lexed offset text found) : found.length ≤ byteLength text := by
  induction h with
  | blanks => exact Nat.zero_le _
  | lexeme hb hw hs hr ih =>
    have hpos := Nat.pos_of_ne_zero (mt byteLength_eq_zero.mp hw.ne_nil)
    simp only [List.length_cons, byteLength_append]
    omega

theorem Lexed.le_start (h : Lexed offset text found) : ∀ l ∈ found, offset ≤ l.span.start := by
  intro l hl
  obtain ⟨before, word, rest, -, -, hs⟩ := h.exists_place hl
  rw [hs]
  exact Nat.le_add_right _ _

theorem Lexed.ordered (h : Lexed offset text found) :
    found.Pairwise fun l m => l.span.stop ≤ m.span.start := by
  induction h with
  | blanks => exact .nil
  | lexeme hb hw hs hr ih => exact .cons (fun m hm => by rw [hs]; exact hr.le_start m hm) ih

/-- What no lexeme is read from is white space. -/
theorem Lexed.isBlank (h : Lexed offset text found) {before after : List Char} {c : Char}
    (ht : text = before ++ c :: after)
    (hn : ∀ l ∈ found, ¬l.span.Has (offset + byteLength before)) : isBlank c := by
  induction h generalizing before with
  | blanks offset hb => exact hb c (by simp [ht])
  | @lexeme offset blanks word rest l found hb hw hs hr ih =>
    rw [List.append_assoc] at ht
    rcases append_eq_append_cons ht with ⟨m, rfl⟩ | ⟨m, rfl, htail⟩
    · exact hb c (by simp)
    rcases append_eq_append_cons htail with ⟨others, rfl⟩ | ⟨m, rfl, hrest⟩
    · refine absurd ?_ (hn l List.mem_cons_self)
      have hc := c.utf8Size_pos
      rw [hs, Span.Has]
      simp only [byteLength_append, byteLength_cons]
      omega
    · refine ih hrest fun k hk => ?_
      have hk' := hn k (List.mem_cons_of_mem l hk)
      rwa [← List.append_assoc, byteLength_append, ← Nat.add_assoc] at hk'

end

-- ---------------------------------------------------------------------------
-- Regions of a source
-- ---------------------------------------------------------------------------

structure Passed where
  region : Span
  result : Except (CompileError Nat) Token

/-- The pieces that a source is read in, one after another; `text` is what
blanking leaves of it. -/
structure ReadInRegions (source : String) (text : List Char) (items : List Passed) : Prop where
  length_le : items.length ≤ source.utf8ByteSize
  nonempty : ∀ p ∈ items, p.region.start < p.region.stop
  ordered : items.Pairwise fun p q => p.region.stop ≤ q.region.start
  boundary : ∀ p ∈ items, ∀ i ∈ [p.region.start, p.region.stop],
    Boundary source.toList i ∧ Boundary text i
  /-- What is left out is white space. -/
  blank {before after : List Char} {c : Char} : text = before ++ c :: after →
    (∀ p ∈ items, ¬p.region.Has (byteLength before)) → isBlank c
  /-- A token is what the text spells at its span. -/
  token {p : Passed} {t : Token} : p ∈ items → p.result = .ok t →
    t.span = p.region ∧ ∃ word, Written t.kind word ∧ StandsAt word text t.span
  /-- After a word comes white space, a symbol or the end. -/
  maximal {p : Passed} {t : Token} {before after : List Char} {c : Char} : p ∈ items →
    p.result = .ok t → t.kind.IsWord → text = before ++ c :: after →
    byteLength before = t.span.stop → isBlank c ∨ isSymbol c
  /-- An error is told where its region starts; what stands there is no token. -/
  error {p : Passed} {e : CompileError Nat} : p ∈ items → p.result = .error e →
    ∃ reason, e = .inSource p.region.start (.lexical reason) ∧
      ∃ before word after, text = before ++ word ++ after ∧ Malformed reason word after ∧
        p.region = ⟨byteLength before, byteLength (before ++ word)⟩
  /-- Before the first error the source spells the same. -/
  unchanged : ∀ p ∈ items.takeWhile (·.result.isOk), ∃ t word, p.result = .ok t ∧
    Written t.kind word ∧ StandsAt word text t.span ∧ StandsAt word source.toList t.span

namespace Cursor

def passed (c : Cursor) : List Passed :=
  if _h : c.more.1 = true then
    ⟨⟨c.more.2.offset, c.more.2.next.2.offset⟩, c.more.2.next.1⟩ :: passed c.more.2.next.2
  else []
termination_by c.rest.length
decreasing_by exact length_next_lt _h

theorem map_result_passed (c : Cursor) : c.passed.map Passed.result = c.drain := by
  fun_induction passed c with
  | case1 c h ih =>
    conv_rhs => rw [drain, dif_pos h]
    rw [List.map_cons, ih]
  | case2 c h => rw [drain, dif_neg h, List.map_nil]

theorem passed_eq (c : Cursor) :
    c.passed = (allFrom c.offset c.rest []).map fun l => ⟨l.span, l.result⟩ := by
  fun_induction passed c with
  | case1 c h ih =>
    obtain ⟨first, others, hd⟩ := exists_of_more h
    have hb : isBlank first = false := by simpa using not_isBlank_of_dropWhile hd
    obtain ⟨word, -, hs, -⟩ := exists_word c.more.2.offset hb others
    have hspan : (Lexeme.next c.more.2.offset first others).1.span =
        ⟨c.more.2.offset, (Lexeme.next c.more.2.offset first others).1.span.stop⟩ := by rw [hs]
    rw [ih, next_more hd, allFrom_of_cons hd, allFrom_eq _ _ [_], List.reverse_singleton,
      List.singleton_append, List.map_cons]
    exact List.cons_eq_cons.mpr ⟨congrArg (Passed.mk · _) hspan.symm, rfl⟩
  | case2 c h =>
    have hd : c.rest.dropWhile isBlank = [] := by simpa [more, skipBlank] using h
    rw [allFrom_of_nil hd]
    rfl

end Cursor

section
variable {source : String} {text : List Char} {found : List Lexeme}

/-- Both ends of a lexeme are between characters, in the text and in the source. -/
theorem Lexed.boundary {ps : List (Part × Char)} (h : Lexed 0 (ps.flatMap shown) found)
    {l : Lexeme} (hl : l ∈ found) : ∀ i ∈ [l.span.start, l.span.stop],
      Boundary (ps.map Prod.snd) i ∧ Boundary (ps.flatMap shown) i := by
  have hcut {a b : List Char} (ht : ps.flatMap shown = a ++ b)
      (hc : a.getLast? ≠ some ' ' ∨ b.head? ≠ some ' ') :
      Boundary (ps.map Prod.snd) (byteLength a) ∧ Boundary (ps.flatMap shown) (byteLength a) := by
    obtain ⟨before, after, rfl, rfl, rfl⟩ := exists_cut ht hc
    exact ⟨⟨_, _, List.map_append, (byteLength_shown before).symm⟩, _, _, ht, rfl⟩
  obtain ⟨before, word, rest, ht, hw, hs⟩ := h.exists_place hl
  simp only [hs, Nat.zero_add, List.forall_mem_cons, List.not_mem_nil, false_implies, implies_true,
    and_true]
  refine ⟨hcut (ht.trans (List.append_assoc ..)) (.inr fun hh => ?_), hcut ht ?_⟩
  · rw [List.head?_append_of_ne_nil _ hw.ne_nil] at hh
    exact absurd (hw.head ' ' hh) (by decide)
  · rw [List.getLast?_append_of_ne_nil _ hw.ne_nil]
    by_cases hlast : word.getLast? = some ' '
    · exact .inr (by simp [hw.last hlast])
    · exact .inl hlast

theorem Lexeme.result_eq_ok {l : Lexeme} {t : Token} : l.result = .ok t ↔ l = .token t := by
  cases l <;> simp [Lexeme.result]

theorem exists_tokens (found : List Lexeme) :
    ∃ (tokens : List Token) (later : List Lexeme), found = tokens.map .token ++ later ∧
      found.takeWhile (·.result.isOk) = tokens.map .token := by
  induction found with
  | nil => exact ⟨[], [], rfl, rfl⟩
  | cons l found ih =>
    cases l with
    | token t =>
      obtain ⟨tokens, later, hf, ht⟩ := ih
      refine ⟨t :: tokens, later, by rw [hf]; rfl, ?_⟩
      rw [List.takeWhile_cons_of_pos rfl, ht]
      rfl
    | malformed span reason => exact ⟨[], _, rfl, rfl⟩

theorem Lexed.readInRegions {ps : List (Part × Char)}
    (hp : partsFrom .code 0 source.toList = .ok ps) (h : Lexed 0 (ps.flatMap shown) found)
    (hfound : allFrom 0 (ps.flatMap shown) [] = found) :
    ReadInRegions source (ps.flatMap shown) (found.map fun l => ⟨l.span, l.result⟩) := by
  have hplace {l : Lexeme} (hl : l ∈ found) := h.exists_place hl
  simp only [Nat.zero_add] at hplace
  constructor
  case length_le =>
    rw [List.length_map, ← byteLength_toList, ← map_snd_partsFrom hp, ← byteLength_shown]
    exact h.length_le
  case nonempty =>
    simp only [List.forall_mem_map]
    intro l hl
    obtain ⟨before, word, rest, -, hw, hs⟩ := hplace hl
    have hpos := Nat.pos_of_ne_zero (mt byteLength_eq_zero.mp hw.ne_nil)
    rw [hs, byteLength_append]
    exact Nat.lt_add_of_pos_right hpos
  case ordered => exact List.pairwise_map.mpr h.ordered
  case boundary =>
    simp only [List.forall_mem_map]
    intro l hl
    rw [← map_snd_partsFrom hp]
    exact h.boundary hl
  case blank =>
    intro before after c ht hn
    rw [List.forall_mem_map] at hn
    exact h.isBlank ht (by simpa using hn)
  case token =>
    intro p t hm ht
    obtain ⟨l, hl, rfl⟩ := List.mem_map.mp hm
    obtain ⟨before, word, rest, htext, hw, hs⟩ := hplace hl
    obtain rfl := Lexeme.result_eq_ok.mp ht
    refine ⟨rfl, word, hw.spelled.1, before, rest, htext, ?_, ?_⟩ <;>
      rw [show t.span = _ from hs]
  case maximal =>
    intro p t before after c hm ht hword htext hstop
    obtain ⟨l, hl, rfl⟩ := List.mem_map.mp hm
    obtain ⟨before', word, rest, htext', hw, hs⟩ := hplace hl
    obtain rfl := Lexeme.result_eq_ok.mp ht
    rw [show t.span = _ from hs] at hstop
    obtain ⟨-, rfl⟩ := append_inj_byteLength (htext.symm.trans htext') hstop
    exact hw.spelled.2 hword c rfl
  case error =>
    intro p e hm he
    obtain ⟨l, hl, rfl⟩ := List.mem_map.mp hm
    obtain ⟨before, word, rest, htext, hw, hs⟩ := hplace hl
    cases l with
    | token t => cases he
    | malformed span reason =>
      cases he
      exact ⟨reason, rfl, before, word, rest, htext, hw.spelled, hs⟩
  case unchanged =>
    intro p hm
    obtain ⟨tokens, later, hf, htake⟩ := exists_tokens found
    rw [List.takeWhile_map] at hm
    obtain ⟨l, hl, rfl⟩ := List.mem_map.mp hm
    obtain ⟨t, ht, rfl⟩ := List.mem_map.mp (htake ▸ hl)
    obtain ⟨word, hw, hsource, htext⟩ :=
      (Yields.writtenAt ht ⟨ps, hp, hfound.trans hf⟩).standsAt hp
    exact ⟨t, word, rfl, hw, htext, hsource⟩

end

/-- A cursor that is asked for as long as more follows passes the whole text. -/
theorem Cursor.passed_ofSource {source : String} {c : Cursor} (h : ofSource source = .ok c) :
    uncommented source = .ok c.rest ∧ c.drain = c.passed.map Passed.result ∧
      ReadInRegions source c.rest c.passed := by
  unfold ofSource at h
  rw [uncommented_eq] at h ⊢
  cases hp : partsFrom .code 0 source.toList with
  | error opener =>
    rw [hp] at h
    cases h
  | ok ps =>
    rw [hp] at h
    cases h
    refine ⟨rfl, (map_result_passed _).symm, ?_⟩
    rw [passed_eq]
    exact (lexed_allFrom 0 _).readInRegions hp rfl

def brokenSource : String := "07/*é*/\"a\r"

def brokenStart : Cursor := ⟨brokenSource, 0, "07      \"a\r".toList⟩

theorem Cursor.passed_brokenStart :
    ofSource brokenSource = .ok brokenStart ∧
      brokenStart.drain =
        [.ok ⟨.integer 7, ⟨0, 2⟩⟩, .error (.inSource 8 (.lexical .brokenString))] ∧
      ReadInRegions brokenSource brokenStart.rest brokenStart.passed := by
  have h : ofSource brokenSource = .ok brokenStart := rfl
  refine ⟨h, ?_, (passed_ofSource h).2.2⟩
  rw [drain_eq]
  decide +kernel

end JackVM
