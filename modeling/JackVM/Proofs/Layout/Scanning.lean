import Mathlib.Data.List.TakeWhile
import JackVM.Proofs.Layout.Laid

/-!
# Every source without lexical errors is laid out

Whatever is read to its end without an error is a layout of the tokens that
reading gives. So layouts are exactly what can be read.
-/

namespace JackVM

open Comment Lexeme Text

-- ---------------------------------------------------------------------------
-- What a text starts with
-- ---------------------------------------------------------------------------

section
variable {offset : Nat} {c : Char} {text : List Char} {found : List Lexeme}

theorem exists_block (text : List Char) :
    (∃ body rest, text = body ++ ['*', '/'] ++ rest ∧ ¬['*', '/'] <:+: body) ∨
      ¬['*', '/'] <:+: text := by
  induction text with
  | nil => exact .inr (by decide)
  | cons c text ih =>
    by_cases hm : c = '*' ∧ text.head? = some '/'
    · obtain ⟨rfl, hd⟩ := hm
      obtain ⟨rest, rfl⟩ := List.head?_eq_some_iff.mp hd
      exact .inl ⟨[], rest, rfl, by decide⟩
    · have hcons {body : List Char} (hb : ¬['*', '/'] <:+: body)
          (hhead : body.head? = some '/' → text.head? = some '/') :
          ¬['*', '/'] <:+: c :: body := by
        intro hi
        rcases List.infix_cons_iff.mp hi with hp | hi
        · obtain ⟨rfl, others, rfl⟩ := List.cons_prefix_cons.mp hp
          exact hm ⟨rfl, hhead rfl⟩
        · exact hb hi
      rcases ih with ⟨body, rest, rfl, hb⟩ | hb
      · refine .inl ⟨c :: body, rest, rfl, hcons hb fun hh => ?_⟩
        simp [hh]
      · exact .inr (hcons hb id)

theorem exists_closed {opener : Nat} {ps : List (Part × Char)}
    (h : partsFrom (.block opener) offset text = .ok ps) :
    ∃ body rest, text = body ++ ['*', '/'] ++ rest ∧ ¬['*', '/'] <:+: body := by
  refine (exists_block text).resolve_right fun ho => ?_
  rw [partsFrom_openBlock ho] at h
  cases h

/-- A comment that is closed, or reaches to the end of the text. -/
theorem Yields.exists_comment {d : Char} (h : Yields offset ('/' :: d :: text) found)
    (hd : d = '/' ∨ d = '*') :
    (d = '/' ∧ '\n' ∉ text) ∨ ∃ f rest, Filler.Closed f ∧ '/' :: d :: text = f.text ++ rest := by
  rcases hd with rfl | rfl
  · by_cases hn : '\n' ∈ text
    · obtain ⟨body, rest, rfl, hb⟩ := List.eq_append_cons_of_mem hn
      exact .inr ⟨.line body, rest, hb, by simp [Filler.text]⟩
    · exact .inl ⟨rfl, hn⟩
  · obtain ⟨ps, hp, -⟩ := h
    rw [partsFrom] at hp
    obtain ⟨qs, hq, -⟩ := prepend_ok.mp hp
    obtain ⟨body, rest, rfl, hb⟩ := exists_closed hq
    exact .inr ⟨.block body, rest, hb, by simp [Filler.text]⟩

theorem head?_shown_string {ps : List (Part × Char)}
    (h : partsFrom .string offset text = .ok ps) : (ps.flatMap shown).head? = text.head? := by
  cases text with
  | nil => cases h; rfl
  | cons c text =>
    rw [partsFrom] at h
    obtain ⟨qs, -, rfl⟩ := prepend_ok.mp h
    rfl

theorem ofQuote_token {t : Token} (h : (ofQuote offset text).1 = .token t) :
    (text.dropWhile isStringPart).head? = some '"' := by
  unfold ofQuote at h
  dsimp only at h
  split at h
  · cases h
  · next c rest hd =>
    split at h
    · next hc => rw [hd, hc]; rfl
    · cases h

def StartsWell (found : List Lexeme) : Prop := ∀ l ∈ found.head?, ∃ t, l = .token t

theorem startsWell_map (tokens : List Token) : StartsWell (tokens.map .token) := by
  cases tokens <;> simp [StartsWell]

theorem Yields.next_token (h : Yields offset (c :: text) found) (hf : StartsWell found)
    (hc : isBlank c = false)
    (hs : c = '/' → ∀ d ∈ text.head?, d ≠ '/' ∧ d ≠ '*') :
    ∃ ps t, partsFrom (if c = '"' then .string else .code) (offset + c.utf8Size) text = .ok ps ∧
      (next offset c (ps.flatMap shown)).1 = .token t := by
  obtain ⟨ps, hp, ha⟩ := h
  rw [partsFrom_code offset hs] at hp
  obtain ⟨qs, hq, rfl⟩ := prepend_ok.mp hp
  have hs' : shown (if c = '"' then Part.string else Part.code, c) = [c] := by split <;> rfl
  rw [List.flatMap_append, List.flatMap_singleton, hs', List.cons_append, List.nil_append,
    allFrom_cons hc] at ha
  obtain ⟨t, ht⟩ := hf _ (by rw [← ha]; rfl)
  exact ⟨qs, t, hq, ht⟩

theorem exists_run (p : Char → Bool) (text : List Char) :
    ∃ run rest, text = run ++ rest ∧ (∀ c ∈ run, p c) ∧ ∀ d ∈ rest.head?, p d = false := by
  refine ⟨text.takeWhile p, text.dropWhile p, List.takeWhile_append_dropWhile.symm,
    fun c hc => List.mem_takeWhile_imp hc, fun d hd => ?_⟩
  have hn := List.head?_dropWhile_not p text
  rw [Option.mem_def.mp hd] at hn
  simpa using hn

/-- A quote that is read as part of a token opens a string constant. -/
theorem Yields.exists_string (h : Yields offset ('"' :: text) found)
    (hf : StartsWell found) :
    ∃ value rest, Written (.string value) ('"' :: (value.toList ++ ['"'])) ∧
      '"' :: text = '"' :: (value.toList ++ ['"']) ++ rest := by
  obtain ⟨ps, t, hp, ht⟩ := h.next_token hf (by decide) (by nofun)
  obtain ⟨body, rest, rfl, hb, hr⟩ := exists_run isStringPart text
  have hb' : ∀ c ∈ body, c ≠ '"' ∧ c ≠ '\n' ∧ c ≠ '\r' := fun c hc => by
    simpa [isStringPart, and_assoc] using hb c hc
  rw [if_pos rfl, passes_string fun c hc => ⟨(hb' c hc).1, (hb' c hc).2.1⟩] at hp
  obtain ⟨qs, hq, rfl⟩ := prepend_ok.mp hp
  have hh := head?_shown_string hq
  rw [List.flatMap_append, shown_map (by decide), next, if_pos rfl] at ht
  have hd := ofQuote_token ht
  rw [(takeWhile_stop hb (hh ▸ hr)).2, hh] at hd
  obtain ⟨rest, rfl⟩ := List.head?_eq_some_iff.mp hd
  refine ⟨String.ofList body, rest, .string ?_, ?_⟩
  · rwa [String.toList_ofList]
  · simp

theorem Yields.exists_word (h : Yields offset (c :: text) found)
    (hf : StartsWell found) (hw : isWordPart c) (hq : c ≠ '"') :
    ∃ kind word rest, Written kind word ∧ Separated kind rest ∧ c :: text = word ++ rest := by
  obtain ⟨hb, hs⟩ : isBlank c = false ∧ isSymbol c = false := by simpa [isWordPart] using hw
  have hslash : c ≠ '/' := ne_of_class hw (by decide)
  obtain ⟨ps, t, hp, ht⟩ := h.next_token hf hb (absurd · hslash)
  obtain ⟨run, rest, rfl, hrun, hrest⟩ := exists_run isNamePart text
  have hplain : ∀ d ∈ run, d ≠ '"' ∧ d ≠ '/' := fun d hd => by
    have hn := hrun d hd
    exact ⟨ne_of_class hn (by decide), ne_of_class hn (by decide)⟩
  rw [if_neg hq, passes_code hplain] at hp
  obtain ⟨qs, hqs, rfl⟩ := prepend_ok.mp hp
  rw [List.flatMap_append, shown_map (by decide), next, if_neg hq, hs] at ht
  obtain ⟨-, hword⟩ := wordOf_of_ofWord (List.cons_ne_nil _ _) ht
  have hpart : ∀ d ∈ run, isWordPart d := fun d hd => isWordPart_of_isNamePart (hrun d hd)
  -- A word that went on with anything but letters and digits would be no token.
  have hend : ∀ d ∈ rest.head?, isWordPart d = false := by
    intro d hd
    by_contra hp
    rcases head?_shown hqs with heq | ⟨hsl, -⟩
    · obtain ⟨others, ho⟩ := List.head?_eq_some_iff.mp (heq.trans hd)
      have hn := hword.isNamePart d (by simp [List.takeWhile_append_of_pos hpart, ho, hp])
      rw [hrest d hd] at hn
      cases hn
    · obtain rfl := Option.some.inj (hsl.symm.trans hd)
      exact hp (by decide)
  have hsep := hword.separated_iff.mpr hend
  rw [(takeWhile_stop hpart (hword.separated_iff.mp (hsep.shown hqs))).1] at hword
  exact ⟨t.kind, c :: run, rest, .word hword, hsep, rfl⟩

theorem Yields.exists_written (h : Yields offset (c :: text) found)
    (hf : StartsWell found) (hb : isBlank c = false)
    (hs : c = '/' → ∀ d ∈ text.head?, d ≠ '/' ∧ d ≠ '*') :
    ∃ kind word rest, Written kind word ∧ Separated kind rest ∧ c :: text = word ++ rest := by
  by_cases hq : c = '"'
  · subst hq
    obtain ⟨value, rest, hw, ht⟩ := h.exists_string hf
    exact ⟨_, _, rest, hw, trivial, ht⟩
  · by_cases hc : c ∈ symbols
    · exact ⟨_, _, text, .symbol hc, hs, rfl⟩
    · exact h.exists_word hf (by simp [isWordPart, isSymbol, hb, hc]) hq

/-- What is read starts with a last line, a filler or a token. -/
theorem Yields.exists_start (h : Yields offset (c :: text) found)
    (hf : StartsWell found) :
    (∃ body, c :: text = '/' :: '/' :: body ∧ '\n' ∉ body) ∨
      (∃ f rest, Filler.Closed f ∧ c :: text = f.text ++ rest) ∨
      ∃ kind word rest, Written kind word ∧ Separated kind rest ∧ c :: text = word ++ rest := by
  by_cases hs : c = '/' → ∀ d ∈ text.head?, d ≠ '/' ∧ d ≠ '*'
  · cases hb : isBlank c with
    | true => exact .inr (.inl ⟨.blank c, text, hb, rfl⟩)
    | false => exact .inr (.inr (h.exists_written hf hb hs))
  · push Not at hs
    obtain ⟨rfl, d, hd, hm⟩ := hs
    obtain ⟨body, rfl⟩ := List.head?_eq_some_iff.mp hd
    rcases h.exists_comment (or_iff_not_imp_left.mpr hm) with ⟨rfl, hn⟩ | hf
    · exact .inl ⟨body, rfl, hn⟩
    · exact .inr (.inl hf)

end

-- ---------------------------------------------------------------------------
-- Layouts and what can be read
-- ---------------------------------------------------------------------------

theorem Filler.text_ne_nil (f : Filler) : f.text ≠ [] := by cases f <;> nofun

theorem Written.ne_nil {kind : TokenKind} {text : List Char} (h : Written kind text) :
    text ≠ [] := by
  cases h with
  | word h => exact h.ne_nil
  | _ => nofun

theorem Yields.unique {offset : Nat} {text : List Char} {found found' : List Lexeme}
    (h : Yields offset text found) (h' : Yields offset text found') : found = found' := by
  obtain ⟨ps, hp, rfl⟩ := h
  obtain ⟨ps', hp', rfl⟩ := h'
  obtain rfl := Except.ok.inj (hp.symm.trans hp')
  rfl

theorem Scans.laid {offset : Nat} {tokens : List Token} :
    {text : List Char} → Scans offset text tokens → Laid offset text tokens
  | [], h => by
    obtain rfl := List.map_eq_nil_iff.mp (h.unique (yields_nil offset))
    exact .nil offset
  | c :: text, h => by
    rcases h.exists_start (startsWell_map tokens) with
      ⟨body, ht, hn⟩ | ⟨f, rest, hf, ht⟩ | ⟨kind, word, rest, hw, hs, ht⟩
    · rw [ht] at h ⊢
      obtain rfl := List.map_eq_nil_iff.mp (h.unique (yields_lastLine hn))
      exact .lastLine offset hn
    · have hl : rest.length < (c :: text).length := by
        simpa [ht] using List.length_pos_iff.mpr f.text_ne_nil
      rw [ht] at h ⊢
      exact .filler hf (Scans.laid ((yields_filler hf).mp h))
    · have hl : rest.length < (c :: text).length := by
        simpa [ht] using List.length_pos_iff.mpr hw.ne_nil
      rw [ht] at h ⊢
      obtain ⟨others, hfound, ho⟩ := (yields_written hw hs).mp h
      obtain ⟨t, others, rfl, htoken, rfl⟩ := List.map_eq_cons_iff.mp hfound
      obtain rfl := Lexeme.token.inj htoken
      exact .token hw hs (Scans.laid ho)
termination_by text => text.length
decreasing_by all_goals simpa using hl

theorem lexemes_eq_ok_iff_scans {source : String} {tokens : List Token} :
    lexemes source = .ok (tokens.map .token) ↔ Scans 0 source.toList tokens := by
  unfold lexemes uncommented blankAll Scans Yields all
  rw [blankFrom_eq]
  cases partsFrom .code 0 source.toList <;> simp [Except.map]

/-- A source can be read without errors if and only if it is a layout of the
tokens that are read. -/
theorem lexemes_eq_ok_iff {source : String} {tokens : List Token} :
    lexemes source = .ok (tokens.map .token) ↔ Laid 0 source.toList tokens :=
  lexemes_eq_ok_iff_scans.trans ⟨Scans.laid, Laid.scans⟩

end JackVM
