import Mathlib.Data.List.Infix
import JackVM.Proofs.Layout.Parts
import JackVM.Proofs.Layout.Writing

/-!
# Tokens laid out in a text

A text is its tokens, each written in one of its ways, with white space and
comments between them. Reading such a text gives the tokens back, each with the
bytes it was written to.
-/

namespace JackVM

open Comment Lexeme Text

-- ---------------------------------------------------------------------------
-- Layouts
-- ---------------------------------------------------------------------------

inductive Filler
  | blank (c : Char)
  | block (body : List Char)
  | line (body : List Char)
  deriving DecidableEq, Repr

namespace Filler

def text : Filler → List Char
  | blank c => [c]
  | block body => '/' :: '*' :: (body ++ ['*', '/'])
  | line body => '/' :: '/' :: (body ++ ['\n'])

/-- A comment ends where it says, and not before. -/
def Closed : Filler → Prop
  | blank c => isBlank c
  | block body => ¬['*', '/'] <:+: body
  | line body => '\n' ∉ body

instance (f : Filler) : Decidable f.Closed := by
  cases f <;> unfold Filler.Closed <;> infer_instance

def part : Filler → Part
  | blank _ => .code
  | block _ | line _ => .comment

end Filler

/-- What follows a token does not belong to it: a word is not continued and a
slash does not open a comment. -/
def Separated : TokenKind → List Char → Prop
  | .string _, _ => True
  | .symbol c, rest => c = '/' → ∀ d ∈ rest.head?, d ≠ '/' ∧ d ≠ '*'
  | _, rest => ∀ d ∈ rest.head?, isWordPart d = false

inductive Laid : Nat → List Char → List Token → Prop
  | nil (offset : Nat) : Laid offset [] []
  /-- The last line needs no line feed. -/
  | lastLine (offset : Nat) {body : List Char} (h : '\n' ∉ body) :
    Laid offset ('/' :: '/' :: body) []
  | filler {offset : Nat} {f : Filler} {rest : List Char} {tokens : List Token} (hf : f.Closed)
    (hr : Laid (offset + byteLength f.text) rest tokens) : Laid offset (f.text ++ rest) tokens
  | token {offset : Nat} {kind : TokenKind} {text rest : List Char} {tokens : List Token}
    (hw : Written kind text) (hs : Separated kind rest)
    (hr : Laid (offset + byteLength text) rest tokens) :
    Laid offset (text ++ rest) (⟨kind, ⟨offset, offset + byteLength text⟩⟩ :: tokens)

-- ---------------------------------------------------------------------------
-- Parts of a layout
-- ---------------------------------------------------------------------------

namespace Comment

theorem prepend_prepend (x : Except Nat (List (Part × Char))) (first second : List (Part × Char)) :
    (x.map (second ++ ·)).map (first ++ ·) = x.map (first ++ second ++ ·) := by
  cases x <;> simp [Except.map]

/-- A character of code that opens no comment. -/
theorem partsFrom_code {c : Char} {rest : List Char} (offset : Nat)
    (h : c = '/' → ∀ d ∈ rest.head?, d ≠ '/' ∧ d ≠ '*') :
    partsFrom .code offset (c :: rest) =
      (partsFrom (if c = '"' then .string else .code) (offset + c.utf8Size) rest).map
        ([(if c = '"' then .string else .code, c)] ++ ·) := by
  rw [partsFrom]
  · rintro cs rfl rfl
    exact (h rfl _ rfl).1 rfl
  · rintro cs rfl rfl
    exact (h rfl _ rfl).2 rfl

/-- Whatever follows a text, its characters are all taken for the same. -/
def Passes (region : Region) (offset : Nat) (text : List Char) (part : Part) (after : Region) :
    Prop :=
  ∀ rest, partsFrom region offset (text ++ rest) =
    (partsFrom after (offset + byteLength text) rest).map (text.map (part, ·) ++ ·)

section
variable {region middle after : Region} {offset : Nat} {text next : List Char} {part : Part}

theorem Passes.nil : Passes region offset [] part region := by
  intro rest
  show partsFrom region offset rest = (partsFrom region offset rest).map _
  cases partsFrom region offset rest <;> rfl

theorem Passes.append (h : Passes region offset text part middle)
    (h' : Passes middle (offset + byteLength text) next part after) :
    Passes region offset (text ++ next) part after := by
  intro rest
  rw [List.append_assoc, h, h', prepend_prepend, byteLength_append, Nat.add_assoc, List.map_append]

theorem Passes.of_forall (h : ∀ c ∈ text, ∀ offset, Passes region offset [c] part region) :
    Passes region offset text part region := by
  induction text generalizing offset with
  | nil => exact .nil
  | cons c text ih =>
    obtain ⟨hc, h⟩ := List.forall_mem_cons.mp h
    exact (hc offset).append (ih h)

theorem passes_code (h : ∀ c ∈ text, c ≠ '"' ∧ c ≠ '/') :
    Passes .code offset text .code .code := by
  refine .of_forall fun c hc offset rest => ?_
  obtain ⟨hq, hs⟩ := h c hc
  show partsFrom .code offset (c :: rest) = _
  rw [partsFrom_code offset (absurd · hs), if_neg hq, if_neg hq]
  rfl

theorem passes_string (h : ∀ c ∈ text, c ≠ '"' ∧ c ≠ '\n') :
    Passes .string offset text .string .string := by
  refine .of_forall fun c hc offset rest => ?_
  show partsFrom .string offset (c :: rest) = _
  rw [partsFrom, if_neg (not_or.mpr (h c hc))]
  rfl

/-- A string constant ends with the line if it is not closed before. -/
theorem passes_quoted {last : Char} (h : ∀ c ∈ text, c ≠ '"' ∧ c ≠ '\n')
    (hl : last = '"' ∨ last = '\n') :
    Passes .code offset ('"' :: (text ++ [last])) .string .code := by
  have ho : Passes .code offset ['"'] .string .string := fun _ => rfl
  have hc (offset : Nat) : Passes .string offset [last] .string .code := fun rest => by
    show partsFrom .string offset (last :: rest) = _
    rw [partsFrom, if_pos hl]
    rfl
  exact ho.append ((passes_string h).append (hc _))

theorem passes_line (h : '\n' ∉ text) : Passes .line offset text .comment .line := by
  refine .of_forall fun c hc offset rest => ?_
  show partsFrom .line offset (c :: rest) = _
  rw [partsFrom, if_neg (ne_of_mem_of_not_mem hc h)]
  rfl

theorem passes_block {opener : Nat} (h : ¬['*', '/'] <:+: text) :
    Passes (.block opener) offset (text ++ ['*', '/']) .comment .code := by
  induction text generalizing offset with
  | nil => exact fun _ => rfl
  | cons c text ih =>
    intro rest
    have hi : ¬['*', '/'] <:+: text := fun hi => h (List.infix_cons hi)
    have hr : partsFrom (.block opener) (offset + c.utf8Size) _ = _ := ih hi rest
    rw [List.append_assoc] at hr ⊢
    rw [List.cons_append, partsFrom, hr, prepend_prepend, Nat.add_assoc]
    · rfl
    · rintro cs rfl hcs
      -- The mark would stand at the start of this text.
      cases text with
      | nil => cases hcs
      | cons d text =>
        obtain rfl := (List.cons.inj hcs).1
        exact h (List.prefix_append ['*', '/'] text).isInfix

theorem partsFrom_openBlock {opener : Nat} (h : ¬['*', '/'] <:+: text) :
    partsFrom (.block opener) offset text = .error opener := by
  induction text generalizing offset with
  | nil => rfl
  | cons c text ih =>
    rw [partsFrom, ih fun hi => h (List.infix_cons hi)]
    · rfl
    · rintro cs rfl rfl
      exact h (List.prefix_append ['*', '/'] cs).isInfix

theorem passes_filler {f : Filler} (h : f.Closed) : Passes .code offset f.text f.part .code := by
  cases f with
  | blank c =>
    refine passes_code fun d hd => ?_
    obtain rfl := List.mem_singleton.mp hd
    exact ⟨ne_of_class h (by decide), ne_of_class h (by decide)⟩
  | block body =>
    have ho : Passes .code offset ['/', '*'] .comment (.block offset) := fun _ => rfl
    exact ho.append (passes_block h)
  | line body =>
    have ho : Passes .code offset ['/', '/'] .comment .line := fun _ => rfl
    have hl (offset : Nat) : Passes .line offset ['\n'] .comment .code := fun _ => rfl
    exact ho.append ((passes_line h).append (hl _))

theorem partsFrom_lastLine (h : '\n' ∉ text) :
    partsFrom .code offset ('/' :: '/' :: text) =
      .ok (('/' :: '/' :: text).map (Part.comment, ·)) := by
  have hl : partsFrom .line (offset + 2) _ = _ := passes_line h []
  rw [List.append_nil] at hl
  rw [partsFrom, hl]
  simp [partsFrom, Except.map]

end

end Comment

def TokenKind.part : TokenKind → Part
  | .string _ => .string
  | _ => .code

theorem TokenKind.part_ne_comment (kind : TokenKind) : kind.part ≠ .comment := by
  cases kind <;> nofun

theorem WordOf.part_eq {kind : TokenKind} {text : List Char} (h : WordOf kind text) :
    kind.part = .code := by
  cases h <;> rfl

theorem WordOf.separated_iff {kind : TokenKind} {text rest : List Char} (h : WordOf kind text) :
    Separated kind rest ↔ ∀ d ∈ rest.head?, isWordPart d = false := by
  cases h <;> rfl

section
variable {offset : Nat} {kind : TokenKind} {text rest : List Char}

/-- A token is no part of a comment, and after it comes code again. -/
theorem partsFrom_written (hw : Written kind text) (hs : Separated kind rest) :
    partsFrom .code offset (text ++ rest) =
      (partsFrom .code (offset + byteLength text) rest).map (text.map (kind.part, ·) ++ ·) := by
  cases hw with
  | word h =>
    rw [h.part_eq]
    refine passes_code (fun c hc => ?_) rest
    have hn := h.isNamePart c hc
    exact ⟨ne_of_class hn (by decide), ne_of_class hn (by decide)⟩
  | @symbol c h =>
    have hq : c ≠ '"' := ne_of_mem_of_not_mem h (by decide)
    show partsFrom .code offset (c :: rest) = _
    rw [partsFrom_code offset hs, if_neg hq, if_neg hq]
    rfl
  | @string value h =>
    exact passes_quoted (fun c hc => ⟨(h c hc).1, (h c hc).2.1⟩) (.inl rfl) rest

end

-- ---------------------------------------------------------------------------
-- Reading a layout
-- ---------------------------------------------------------------------------

section
variable {offset : Nat} {rest : List Char} {p : Char → Bool}

theorem takeWhile_stop {word : List Char} (h : ∀ c ∈ word, p c)
    (hr : ∀ d ∈ rest.head?, p d = false) :
    (word ++ rest).takeWhile p = word ∧ (word ++ rest).dropWhile p = rest := by
  rw [List.takeWhile_append_of_pos h, List.dropWhile_append_of_pos h]
  cases rest with
  | nil => simp
  | cons d rest => simp [hr d rfl]

theorem span_ofWord (span : Span) (word : List Char) : (ofWord span word).span = span := by
  unfold ofWord
  dsimp only
  split
  · rfl
  · split
    · split <;> rfl
    · split <;> rfl

theorem allFrom_symbol {c : Char} (h : c ∈ symbols) :
    allFrom offset (c :: rest) [] =
      .token ⟨.symbol c, ⟨offset, offset + c.utf8Size⟩⟩ ::
        allFrom (offset + c.utf8Size) rest [] := by
  have hall : symbols.all fun c => !isBlank c && c != '"' := by decide
  obtain ⟨hb, hq⟩ : isBlank c = false ∧ c ≠ '"' := by simpa using List.all_eq_true.mp hall c h
  have hn : next offset c rest = (.token ⟨.symbol c, ⟨offset, offset + c.utf8Size⟩⟩, rest) := by
    rw [next, if_neg hq, if_pos (by simpa [isSymbol] using h)]
  rw [allFrom_cons hb, hn]
  rfl

theorem allFrom_word {c : Char} {others : List Char} (hc : isWordPart c) (hq : c ≠ '"')
    (h : ∀ d ∈ others, isWordPart d) (hr : ∀ d ∈ rest.head?, isWordPart d = false) :
    allFrom offset (c :: others ++ rest) [] =
      ofWord ⟨offset, offset + byteLength (c :: others)⟩ (c :: others) ::
        allFrom (offset + byteLength (c :: others)) rest [] := by
  obtain ⟨hb, hs⟩ : isBlank c = false ∧ isSymbol c = false := by simpa [isWordPart] using hc
  obtain ⟨ht, hd⟩ := takeWhile_stop h hr
  have hn : next offset c (others ++ rest) =
      (ofWord ⟨offset, offset + byteLength (c :: others)⟩ (c :: others), rest) := by
    rw [next, if_neg hq, hs]
    simp only [ht, hd, Bool.false_eq_true, if_false]
  rw [List.cons_append, allFrom_cons hb, hn, span_ofWord]

theorem ofQuote_closed {body : List Char} (h : ∀ c ∈ body, isStringPart c) :
    ofQuote offset (body ++ '"' :: rest) =
      (.token ⟨.string (String.ofList body),
        ⟨offset, offset + byteLength ('"' :: (body ++ ['"']))⟩⟩, rest) := by
  have hl : byteLength ('"' :: (body ++ ['"'])) = 1 + (byteLength body + 1) := by
    rw [byteLength_cons, byteLength_append]
    rfl
  obtain ⟨ht, hd⟩ : (body ++ '"' :: rest).takeWhile isStringPart = body ∧
      (body ++ '"' :: rest).dropWhile isStringPart = '"' :: rest :=
    takeWhile_stop h fun d hd => by obtain rfl := Option.some.inj hd; decide
  rw [ofQuote, ht, hd, hl, ← Nat.add_assoc, ← Nat.add_assoc]
  rfl

theorem allFrom_quote (text : List Char) :
    allFrom offset ('"' :: text) [] =
      (ofQuote offset text).1 ::
        allFrom (ofQuote offset text).1.span.stop (ofQuote offset text).2 [] :=
  allFrom_cons (by decide) offset text

theorem allFrom_written {kind : TokenKind} {text : List Char} (hw : Written kind text)
    (hs : Separated kind rest) :
    allFrom offset (text ++ rest) [] =
      .token ⟨kind, ⟨offset, offset + byteLength text⟩⟩ ::
        allFrom (offset + byteLength text) rest [] := by
  cases hw with
  | word h =>
    have hr := h.separated_iff.mp hs
    have hp : ∀ c ∈ text, isWordPart c := fun c hc => isWordPart_of_isNamePart (h.isNamePart c hc)
    cases text with
    | nil => exact absurd rfl h.ne_nil
    | cons c others =>
      obtain ⟨hc, ho⟩ := List.forall_mem_cons.mp hp
      have hq : c ≠ '"' := ne_of_class (h.isNamePart c List.mem_cons_self) (by decide)
      rw [allFrom_word hc hq ho hr, h.ofWord_eq]
  | symbol h => exact allFrom_symbol h
  | @string value h =>
    have hb : ∀ c ∈ value.toList, isStringPart c := fun c hc => by
      obtain ⟨hq, hn, hr⟩ := h c hc
      simp [isStringPart, hq, hn, hr]
    show allFrom offset ('"' :: (value.toList ++ ['"'] ++ rest)) [] = _
    rw [allFrom_quote, List.append_assoc, List.cons_append, List.nil_append, ofQuote_closed hb,
      String.ofList_toList]
    rfl

end

namespace Comment

variable {offset : Nat} {text : List Char} {ps : List (Part × Char)}

theorem shown_map {part : Part} (h : part ≠ .comment) (text : List Char) :
    (text.map (part, ·)).flatMap shown = text := by
  have hs (c : Char) : shown (part, c) = [c] := by
    cases part with
    | comment => exact absurd rfl h
    | _ => rfl
  simp [List.flatMap_map, hs]

theorem map_snd_map (part : Part) (text : List Char) :
    (text.map (part, ·)).map Prod.snd = text := by
  rw [List.map_map]
  exact List.map_id text

theorem isBlank_shown (text : List Char) :
    ∀ d ∈ (text.map (Part.comment, ·)).flatMap shown, isBlank d := by
  intro d hd
  obtain ⟨c, -, hd⟩ : ∃ c ∈ text, d ∈ blank c := by simpa [List.flatMap_map, shown] using hd
  unfold blank at hd
  split at hd
  · obtain rfl := List.mem_singleton.mp hd
    decide
  · obtain rfl := List.eq_of_mem_replicate hd
    decide

/-- Blanking leaves everything at its offset. -/
theorem byteLength_shown (ps : List (Part × Char)) :
    byteLength (ps.flatMap shown) = byteLength (ps.map Prod.snd) := by
  induction ps with
  | nil => rfl
  | cons first ps ih =>
    have hc : byteLength (shown first) = first.2.utf8Size := by
      obtain ⟨_ | _ | _, c⟩ := first
      · rfl
      · rfl
      · exact byteLength_blank c
    simp [ih, hc]

theorem head?_shown (h : partsFrom .code offset text = .ok ps) :
    (ps.flatMap shown).head? = text.head? ∨
      text.head? = some '/' ∧ (ps.flatMap shown).head? = some ' ' := by
  cases text with
  | nil => cases h; exact .inl rfl
  | cons c cs =>
    by_cases hc : c = '/' → ∀ d ∈ cs.head?, d ≠ '/' ∧ d ≠ '*'
    · rw [partsFrom_code offset hc] at h
      obtain ⟨rest, -, rfl⟩ := prepend_ok.mp h
      refine .inl ?_
      split <;> rfl
    · push Not at hc
      obtain ⟨rfl, d, hd, hm⟩ := hc
      obtain ⟨cs, rfl⟩ := List.head?_eq_some_iff.mp hd
      refine .inr ⟨rfl, ?_⟩
      by_cases hs : d = '/'
      · subst hs
        rw [partsFrom] at h
        obtain ⟨rest, -, rfl⟩ := prepend_ok.mp h
        rfl
      · obtain rfl := hm hs
        rw [partsFrom] at h
        obtain ⟨rest, -, rfl⟩ := prepend_ok.mp h
        rfl

end Comment

theorem Separated.of_head? {kind : TokenKind} {rest rest' : List Char} (hs : Separated kind rest)
    (h : rest'.head? = rest.head?) : Separated kind rest' := by
  cases kind with
  | string value => trivial
  | _ => simpa only [Separated, h] using hs

theorem Separated.shown {kind : TokenKind} {offset : Nat} {rest : List Char}
    {ps : List (Part × Char)} (hs : Separated kind rest)
    (h : partsFrom .code offset rest = .ok ps) : Separated kind (ps.flatMap shown) := by
  rcases head?_shown h with heq | ⟨-, heq⟩
  · exact hs.of_head? heq
  · have hb : isWordPart ' ' = false := by decide
    cases kind <;> simp [Separated, heq, hb]

/-- Blanking leaves white space of what stands between tokens. -/
theorem Filler.Closed.isBlank_shown {f : Filler} (h : f.Closed) :
    ∀ d ∈ (f.text.map (f.part, ·)).flatMap Comment.shown, isBlank d := by
  cases f with
  | blank c =>
    rw [show Filler.part (.blank c) = .code from rfl, shown_map (by decide)]
    intro d hd
    obtain rfl := List.mem_singleton.mp hd
    exact h
  | block body => exact Comment.isBlank_shown _
  | line body => exact Comment.isBlank_shown _

/-- Reading the text from byte `offset` on gives these lexemes and nothing else. -/
def Yields (offset : Nat) (text : List Char) (found : List Lexeme) : Prop :=
  ∃ ps, partsFrom .code offset text = .ok ps ∧ allFrom offset (ps.flatMap shown) [] = found

/-- Reading the text from byte `offset` on gives these tokens and nothing else. -/
def Scans (offset : Nat) (text : List Char) (tokens : List Token) : Prop :=
  Yields offset text (tokens.map .token)

section
variable {offset : Nat} {text rest : List Char} {found : List Lexeme}

theorem yields_nil (offset : Nat) : Yields offset [] [] := ⟨[], rfl, allFrom_nil offset⟩

theorem yields_lastLine (h : '\n' ∉ text) : Yields offset ('/' :: '/' :: text) [] := by
  refine ⟨_, partsFrom_lastLine h, ?_⟩
  have hb := allFrom_blanks (isBlank_shown ('/' :: '/' :: text)) offset []
  rw [List.append_nil] at hb
  rw [hb, allFrom_nil]

theorem yields_append {part : Part}
    (h : partsFrom .code offset (text ++ rest) =
      (partsFrom .code (offset + byteLength text) rest).map (text.map (part, ·) ++ ·)) :
    Yields offset (text ++ rest) found ↔
      ∃ ps, partsFrom .code (offset + byteLength text) rest = .ok ps ∧
        allFrom offset ((text.map (part, ·)).flatMap shown ++ ps.flatMap shown) [] = found := by
  unfold Yields
  rw [h]
  constructor
  · rintro ⟨all, hall, ha⟩
    obtain ⟨ps, hp, rfl⟩ := prepend_ok.mp hall
    exact ⟨ps, hp, by rwa [List.flatMap_append] at ha⟩
  · rintro ⟨ps, hp, ha⟩
    exact ⟨_, prepend_ok.mpr ⟨ps, hp, rfl⟩, by rwa [List.flatMap_append]⟩

theorem yields_filler {f : Filler} (hf : f.Closed) :
    Yields offset (f.text ++ rest) found ↔ Yields (offset + byteLength f.text) rest found := by
  rw [yields_append (passes_filler hf rest)]
  simp only [allFrom_blanks hf.isBlank_shown, byteLength_shown, map_snd_map]
  rfl

theorem yields_written {kind : TokenKind} (hw : Written kind text) (hs : Separated kind rest) :
    Yields offset (text ++ rest) found ↔
      ∃ others, found = .token ⟨kind, ⟨offset, offset + byteLength text⟩⟩ :: others ∧
        Yields (offset + byteLength text) rest others := by
  rw [yields_append (partsFrom_written hw hs), shown_map kind.part_ne_comment]
  constructor
  · rintro ⟨ps, hp, rfl⟩
    exact ⟨_, allFrom_written hw (hs.shown hp), ps, hp, rfl⟩
  · rintro ⟨others, rfl, ps, hp, rfl⟩
    exact ⟨ps, hp, allFrom_written hw (hs.shown hp)⟩

end

theorem Laid.scans {offset : Nat} {text : List Char} {tokens : List Token}
    (h : Laid offset text tokens) : Scans offset text tokens := by
  induction h with
  | nil offset => exact yields_nil offset
  | lastLine offset h => exact yields_lastLine h
  | filler hf hr ih => exact (yields_filler hf).mpr ih
  | token hw hs hr ih => exact (yields_written hw hs).mpr ⟨_, rfl, ih⟩

end JackVM
