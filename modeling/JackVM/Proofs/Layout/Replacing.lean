import Mathlib.Data.List.Forall2
import JackVM.Proofs.Layout.Scanning
import JackVM.Proofs.Syntax.Respelling

/-!
# Replacing names in a source

A name may be put in the place of another one, token by token, while everything
else of a source stays as it is. The source then has the tokens that result.
-/

namespace JackVM

open Comment Lexeme Text Syntax

-- ---------------------------------------------------------------------------
-- Edits
-- ---------------------------------------------------------------------------

def splitBytes (room : Nat) : List Char → List Char × List Char
  | [] => ([], [])
  | c :: cs =>
    if c.utf8Size ≤ room then
      let (before, rest) := splitBytes (room - c.utf8Size) cs
      (c :: before, rest)
    else ([], c :: cs)

/-- A text that starts at byte `offset`, with other words at some spans, ascending. -/
def splice (offset : Nat) (text : List Char) : List (Span × String) → List Char
  | [] => text
  | (span, word) :: others =>
    let (before, rest) := splitBytes (span.start - offset) text
    before ++ word.toList ++ splice span.stop (splitBytes span.length rest).2 others

def edits (y : String) (tokens : List Token) (kinds : List TokenKind) : List (Span × String) :=
  (tokens.zip kinds).filterMap fun (t, kind) => if t.kind = kind then none else some (t.span, y)

/-- A source with `y` in the place of every token that is not of the kind wanted. -/
def respelled (source y : String) (tokens : List Token) (kinds : List TokenKind) : String :=
  String.ofList (splice 0 source.toList (edits y tokens kinds))

section
variable {offset : Nat} {text rest : List Char} {es : List (Span × String)}

theorem splitBytes_zero (text : List Char) : splitBytes 0 text = ([], text) := by
  cases text with
  | nil => rfl
  | cons c cs => rw [splitBytes, if_neg (Nat.not_le.mpr c.utf8Size_pos)]

theorem splitBytes_append (text rest : List Char) (room : Nat) :
    splitBytes (byteLength text + room) (text ++ rest) =
      (text ++ (splitBytes room rest).1, (splitBytes room rest).2) := by
  induction text with
  | nil => simp
  | cons c cs ih =>
    have hle : c.utf8Size ≤ byteLength (c :: cs) + room := by rw [byteLength_cons]; omega
    have hroom : byteLength (c :: cs) + room - c.utf8Size = byteLength cs + room := by
      rw [byteLength_cons]
      omega
    rw [List.cons_append, splitBytes, if_pos hle, hroom, ih]
    rfl

theorem splice_append (h : ∀ e ∈ es, offset + byteLength text ≤ e.1.start) :
    splice offset (text ++ rest) es = text ++ splice (offset + byteLength text) rest es := by
  cases es with
  | nil => rfl
  | cons e others =>
    obtain ⟨span, word⟩ := e
    have hle : offset + byteLength text ≤ span.start := h _ List.mem_cons_self
    have hroom : span.start - offset =
        byteLength text + (span.start - (offset + byteLength text)) := by omega
    rw [splice, hroom, splitBytes_append, splice]
    simp

theorem splice_here (y : String) :
    splice offset (text ++ rest) ((⟨offset, offset + byteLength text⟩, y) :: es) =
      y.toList ++ splice (offset + byteLength text) rest es := by
  have hs : splitBytes (byteLength text) (text ++ rest) = (text, rest) := by
    have ha := splitBytes_append text rest 0
    rwa [Nat.add_zero, splitBytes_zero, List.append_nil] at ha
  have hl : Span.length ⟨offset, offset + byteLength text⟩ = byteLength text :=
    Nat.add_sub_cancel_left _ _
  rw [splice, Nat.sub_self, splitBytes_zero, hl]
  dsimp only
  rw [hs]
  rfl

theorem Laid.le_start {tokens : List Token} (h : Laid offset text tokens) :
    ∀ t ∈ tokens, offset ≤ t.span.start := by
  induction h with
  | nil | lastLine => nofun
  | filler _ _ ih => exact fun t ht => Nat.le_trans (Nat.le_add_right _ _) (ih t ht)
  | token _ _ _ ih =>
    refine List.forall_mem_cons.mpr ⟨Nat.le_refl _, fun t ht => ?_⟩
    exact Nat.le_trans (Nat.le_add_right _ _) (ih t ht)

theorem Laid.le_edits {tokens : List Token} (h : Laid offset text tokens) (y : String)
    (kinds : List TokenKind) : ∀ e ∈ edits y tokens kinds, offset ≤ e.1.start := by
  intro e he
  obtain ⟨⟨t, kind⟩, hm, he⟩ := List.mem_filterMap.mp he
  have ht := h.le_start t (List.of_mem_zip hm).1
  dsimp only at he
  split at he
  · cases he
  · cases he
    exact ht

end

-- ---------------------------------------------------------------------------
-- Layouts
-- ---------------------------------------------------------------------------

/-- Two texts that start alike, or with a letter or digit each. -/
def StartsAlike (text text' : List Char) : Prop :=
  text'.head? = text.head? ∨
    ∃ d d', text.head? = some d ∧ text'.head? = some d' ∧ isNamePart d ∧ isNamePart d'

section
variable {x y : String} {text rest rest' : List Char} {kind : TokenKind}

theorem startsAlike_append (h : text ≠ []) : StartsAlike (text ++ rest) (text ++ rest') := by
  cases text with
  | nil => exact absurd rfl h
  | cons c cs => exact .inl rfl

theorem WordOf.startsAlike {word word' : List Char} {kind kind' : TokenKind}
    (h : WordOf kind word) (h' : WordOf kind' word') :
    StartsAlike (word ++ rest) (word' ++ rest') := by
  have hn := h.isNamePart
  have hn' := h'.isNamePart
  cases word with
  | nil => exact absurd rfl h.ne_nil
  | cons d ds =>
    cases word' with
    | nil => exact absurd rfl h'.ne_nil
    | cons d' ds' =>
      exact .inr ⟨d, d', rfl, rfl, hn d List.mem_cons_self, hn' d' List.mem_cons_self⟩

/-- What follows a token may start with another letter instead. -/
theorem Separated.congr (hs : Separated kind rest) (h : StartsAlike rest rest') :
    Separated kind rest' := by
  rcases h with h | ⟨d, d', hd, hd', hn, hn'⟩
  · exact hs.of_head? h
  · have hw := isWordPart_of_isNamePart hn
    cases kind with
    | string value => trivial
    | symbol c =>
      rintro - e he
      obtain rfl := Option.some.inj (hd'.symm.trans he)
      exact ⟨ne_of_class hn' (by decide), ne_of_class hn' (by decide)⟩
    | _ => exact absurd hw (by simp [hs d hd])

/-- Replacing names in a layout gives a layout of the tokens wanted. -/
theorem Laid.replaced {offset : Nat} {tokens : List Token} {kinds : List TokenKind}
    (h : Laid offset text tokens) (hy : isName y.toList) (hk : Keyword.ofWord? y = none)
    (hr : List.Forall₂ (Respelled x y) (tokens.map Token.kind) kinds) (offset' : Nat) :
    ∃ tokens', Laid offset' (splice offset text (edits y tokens kinds)) tokens' ∧
      tokens'.map Token.kind = kinds ∧
      StartsAlike text (splice offset text (edits y tokens kinds)) := by
  induction h generalizing kinds offset' with
  | nil =>
    cases hr
    exact ⟨[], .nil offset', rfl, .inl rfl⟩
  | lastLine offset hn =>
    cases hr
    exact ⟨[], .lastLine offset' hn, rfl, .inl rfl⟩
  | @filler offset f rest tokens hf hrest ih =>
    obtain ⟨tokens', hl, hkinds, -⟩ := ih hr (offset' + byteLength f.text)
    rw [splice_append (hrest.le_edits y kinds)]
    exact ⟨tokens', .filler hf hl, hkinds, startsAlike_append f.text_ne_nil⟩
  | @token offset kind text rest tokens hw hs hrest ih =>
    cases hr with
    | @cons _ kind' _ kinds hkind hr =>
      by_cases hsame : kind = kind'
      · subst hsame
        have he : edits y (⟨kind, ⟨offset, offset + byteLength text⟩⟩ :: tokens) (kind :: kinds) =
            edits y tokens kinds := by simp [edits]
        obtain ⟨tokens', hl, hkinds, hstart⟩ := ih hr (offset' + byteLength text)
        rw [he, splice_append (hrest.le_edits y kinds)]
        exact ⟨_, .token hw (hs.congr hstart) hl, by simp [hkinds], startsAlike_append hw.ne_nil⟩
      · obtain ⟨rfl, rfl⟩ : kind = .identifier x ∧ kind' = .identifier y :=
          hkind.resolve_left (Ne.symm hsame)
        have he : edits y (⟨.identifier x, ⟨offset, offset + byteLength text⟩⟩ :: tokens)
            (.identifier y :: kinds) =
              (⟨offset, offset + byteLength text⟩, y) :: edits y tokens kinds := by
          simp [edits, hsame]
        have hword : WordOf (.identifier x) text := by
          cases hw with
          | word h => exact h
        have hname : WordOf (.identifier y) y.toList := .identifier hy hk
        obtain ⟨tokens', hl, hkinds, hstart⟩ := ih hr (offset' + byteLength y.toList)
        have hs' : Separated (.identifier y) rest := hs
        rw [he, splice_here]
        exact ⟨_, .token (.word hname) (hs'.congr hstart) hl, by simp [hkinds],
          hword.startsAlike hname⟩

end

end JackVM
