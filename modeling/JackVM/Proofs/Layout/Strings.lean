import Mathlib.Data.List.Chain
import JackVM.Proofs.Layout.Printing

/-!
# Blanking and scanning agree on string constants

Blanking comments and reading tokens both go through a source and both have to
know where its string constants are. On a source without lexical errors they
find the same ones: what blanking takes for a string constant is a token of
that kind, with its text unchanged, and no token has a part of a comment in it.
-/

namespace JackVM

open Comment Lexeme Text

namespace Comment

def byteParts (ps : List (Part × Char)) : List Part :=
  ps.flatMap fun p => List.replicate p.2.utf8Size p.1

theorem length_byteParts (ps : List (Part × Char)) :
    (byteParts ps).length = byteLength (ps.map Prod.snd) := by
  induction ps with
  | nil => rfl
  | cons p ps ih =>
    rw [byteParts, List.flatMap_cons, List.length_append, List.length_replicate]
    exact congrArg (p.2.utf8Size + ·) ih

theorem byteParts_append (ps qs : List (Part × Char)) :
    byteParts (ps ++ qs) = byteParts ps ++ byteParts qs := List.flatMap_append

theorem byteParts_map (part : Part) (text : List Char) :
    byteParts (text.map (part, ·)) = List.replicate (byteLength text) part := by
  induction text with
  | nil => rfl
  | cons c text ih =>
    rw [byteLength_cons, ← List.replicate_append_replicate, ← ih]
    rfl

theorem getElem?_byteParts_run (part : Part) (text : List Char) (ps : List (Part × Char))
    (i : Nat) :
    (byteParts (text.map (part, ·) ++ ps))[i]? =
      if i < byteLength text then some part else (byteParts ps)[i - byteLength text]? := by
  rw [byteParts_append, byteParts_map, List.getElem?_append, List.length_replicate]
  split
  · next hi => rw [List.getElem?_replicate, if_pos hi]
  · rfl

theorem getElem?_byteParts {part p : Part} {text : List Char} {ps : List (Part × Char)} {i : Nat}
    (h : (byteParts (text.map (part, ·) ++ ps))[i]? = some p) :
    i < byteLength text ∧ p = part ∨
      ∃ j, i = byteLength text + j ∧ (byteParts ps)[j]? = some p := by
  rw [getElem?_byteParts_run] at h
  split at h
  · next hi => exact .inl ⟨hi, (Option.some.inj h).symm⟩
  · next hi => exact .inr ⟨_, (Nat.add_sub_of_le (Nat.le_of_not_lt hi)).symm, h⟩

end Comment

/-- What byte `i` of a source is taken for when comments are blanked. -/
def partAt? (source : String) (i : Nat) : Option Part :=
  match parts source.toList with
  | .ok ps => (byteParts ps)[i]?
  | .error _ => none

def StandsAt (word text : List Char) (span : Span) : Prop :=
  ∃ before after, text = before ++ word ++ after ∧ byteLength before = span.start ∧
    byteLength (before ++ word) = span.stop

def Span.Has (s : Span) (i : Nat) : Prop := s.start ≤ i ∧ i < s.stop

def Token.IsString (t : Token) : Prop := ∃ value, t.kind = .string value

/-- Whether two symbols in a row look like the start of a comment. -/
def LooksOpen (a b : Token) : Prop :=
  a.kind = .symbol '/' ∧ (b.kind = .symbol '/' ∨ b.kind = .symbol '*') ∧ a.span.stop = b.span.start

/-- The passes through a source agree with each other about these tokens. -/
structure PassesAgree (source : String) (tokens : List Token) : Prop where
  /-- Every byte is taken for something. -/
  covers : ∀ i, (partAt? source i).isSome ↔ i < source.utf8ByteSize
  string_iff : ∀ i, partAt? source i = some .string ↔ ∃ t ∈ tokens, t.IsString ∧ t.span.Has i
  comment_outside : ∀ i, partAt? source i = some .comment → ∀ t ∈ tokens, ¬t.span.Has i
  /-- A token is written where it is said to be, also after blanking. -/
  kept : ∃ shown, uncommented source = .ok shown ∧ ∀ t ∈ tokens, ∃ word, Written t.kind word ∧
    StandsAt word source.toList t.span ∧ StandsAt word shown t.span
  noMarks : tokens.IsChain fun a b => ¬LooksOpen a b

-- ---------------------------------------------------------------------------
-- Where tokens are written
-- ---------------------------------------------------------------------------

section
variable {offset : Nat} {text : List Char} {tokens : List Token}

/-- A token is written at a place where it is taken for code or for a string. -/
def WrittenAt (offset : Nat) (text : List Char) (t : Token) : Prop :=
  ∃ before word after, partsFrom .code offset text =
      .ok (before ++ word.map (t.kind.part, ·) ++ after) ∧
    Written t.kind word ∧ t.span.start = offset + byteLength (before.map Prod.snd) ∧
    t.span.stop = t.span.start + byteLength word

theorem WrittenAt.after {first rest : List Char} {part : Part} {t : Token}
    (h : WrittenAt (offset + byteLength first) rest t)
    (hp : partsFrom .code offset (first ++ rest) =
      (partsFrom .code (offset + byteLength first) rest).map (first.map (part, ·) ++ ·)) :
    WrittenAt offset (first ++ rest) t := by
  obtain ⟨before, word, after, hr, hw, hs, he⟩ := h
  refine ⟨first.map (part, ·) ++ before, word, after, ?_, hw, ?_, he⟩
  · rw [hp, prepend_ok]
    exact ⟨_, hr, by simp⟩
  · rw [hs, List.map_append, byteLength_append, map_snd_map, Nat.add_assoc]

/-- The tokens before the first lexical error are written where they are read. -/
theorem Yields.writtenAt {offset : Nat} {tokens : List Token} {later : List Lexeme} {t : Token}
    (ht : t ∈ tokens) :
    {text : List Char} → Yields offset text (tokens.map .token ++ later) → WrittenAt offset text t
  | [], h => by
    obtain ⟨first, tokens, rfl⟩ := List.exists_cons_of_ne_nil (List.ne_nil_of_mem ht)
    nomatch h.unique (yields_nil offset)
  | c :: text, h => by
    obtain ⟨first, tokens, rfl⟩ := List.exists_cons_of_ne_nil (List.ne_nil_of_mem ht)
    have hf : StartsWell ((first :: tokens).map .token ++ later) := by simp [StartsWell]
    rcases h.exists_start hf with
      ⟨body, hl, hn⟩ | ⟨f, rest, hc, hl⟩ | ⟨kind, word, rest, hw, hs, hl⟩
    · rw [hl] at h
      nomatch h.unique (yields_lastLine hn)
    · have hlt : rest.length < (c :: text).length := by
        simpa [hl] using List.length_pos_iff.mpr f.text_ne_nil
      rw [hl] at h ⊢
      exact (Yields.writtenAt ht ((yields_filler hc).mp h)).after (passes_filler hc rest)
    · have hlt : rest.length < (c :: text).length := by
        simpa [hl] using List.length_pos_iff.mpr hw.ne_nil
      rw [hl] at h ⊢
      obtain ⟨others, hfound, ho⟩ := (yields_written hw hs).mp h
      obtain ⟨hfirst, rfl⟩ := List.cons.inj hfound
      obtain rfl := Lexeme.token.inj hfirst
      rcases List.mem_cons.mp ht with rfl | ht
      · obtain ⟨ps, hp, -⟩ := ho
        refine ⟨[], word, ps, ?_, hw, rfl, rfl⟩
        rw [partsFrom_written hw hs, prepend_ok]
        exact ⟨ps, hp, rfl⟩
      · exact (Yields.writtenAt ht ho).after (partsFrom_written hw hs)
termination_by text => text.length
decreasing_by all_goals simpa using hlt

theorem Laid.writtenAt (h : Laid offset text tokens) {t : Token} (ht : t ∈ tokens) :
    WrittenAt offset text t := by
  have hr : Yields offset text (tokens.map .token ++ []) := by
    rw [List.append_nil]
    exact h.scans
  exact Yields.writtenAt ht hr

/-- Blanking leaves a token as it is written in the source. -/
theorem WrittenAt.standsAt {t : Token} (h : WrittenAt 0 text t) {ps : List (Part × Char)}
    (hp : partsFrom .code 0 text = .ok ps) :
    ∃ word, Written t.kind word ∧ StandsAt word text t.span ∧
      StandsAt word (ps.flatMap shown) t.span := by
  obtain ⟨before, word, after, hp', hw, hs, he⟩ := h
  obtain rfl := Except.ok.inj (hp.symm.trans hp')
  rw [Nat.zero_add] at hs
  refine ⟨word, hw, ⟨before.map Prod.snd, after.map Prod.snd, ?_, hs.symm, ?_⟩,
    ⟨before.flatMap shown, after.flatMap shown, ?_, ?_, ?_⟩⟩
  · rw [← map_snd_partsFrom hp, List.map_append, List.map_append, map_snd_map]
  · rw [byteLength_append, he, hs]
  · rw [List.flatMap_append, List.flatMap_append, shown_map t.kind.part_ne_comment]
  · rw [byteLength_shown, hs]
  · rw [byteLength_append, byteLength_shown, he, hs]

theorem Laid.exists_token (h : Laid offset text tokens) {ps : List (Part × Char)}
    (hp : partsFrom .code offset text = .ok ps) {i : Nat} (hi : (byteParts ps)[i]? = some .string) :
    ∃ t ∈ tokens, t.span.Has (offset + i) := by
  induction h generalizing ps i with
  | nil => cases hp; cases hi
  | lastLine offset h =>
    rw [partsFrom_lastLine h] at hp
    obtain rfl := Except.ok.inj hp
    rw [byteParts_map, List.getElem?_replicate] at hi
    split at hi <;> cases hi
  | @filler offset f rest tokens hf hr ih =>
    rw [passes_filler hf, prepend_ok] at hp
    obtain ⟨qs, hq, rfl⟩ := hp
    rcases getElem?_byteParts hi with ⟨-, hf⟩ | ⟨j, rfl, hj⟩
    · cases f <;> cases hf
    · rw [← Nat.add_assoc]
      exact ih hq hj
  | @token offset kind text rest tokens hw hs hr ih =>
    rw [partsFrom_written hw hs, prepend_ok] at hp
    obtain ⟨qs, hq, rfl⟩ := hp
    rcases getElem?_byteParts hi with ⟨hl, -⟩ | ⟨j, rfl, hj⟩
    · exact ⟨_, List.mem_cons_self, Nat.le_add_right _ _, Nat.add_lt_add_left hl _⟩
    · obtain ⟨t, ht, hb⟩ := ih hq hj
      rw [Nat.add_assoc] at hb
      exact ⟨t, List.mem_cons_of_mem _ ht, hb⟩

theorem Laid.head?_of_start (h : Laid offset text tokens) {t : Token} (ht : t ∈ tokens)
    (hs : t.span.start = offset) :
    ∃ word after, Written t.kind word ∧ text = word ++ after := by
  obtain ⟨before, word, after, hp, hw, hst, -⟩ := h.writtenAt ht
  have hb : byteLength (before.map Prod.snd) = 0 := by omega
  have hn := byteLength_eq_zero.mp hb
  refine ⟨word, after.map Prod.snd, hw, ?_⟩
  rw [← map_snd_partsFrom hp, List.map_append, List.map_append, hn, map_snd_map, List.nil_append]

theorem Laid.noMarks (h : Laid offset text tokens) :
    tokens.IsChain fun a b => ¬LooksOpen a b := by
  induction h with
  | nil => exact .nil
  | lastLine => exact .nil
  | filler hf hr ih => exact ih
  | @token offset kind text rest tokens hw hs hr ih =>
    refine List.isChain_cons.mpr ⟨fun b hb hlook => ?_, ih⟩
    obtain ⟨rfl, hkind, hstart⟩ := hlook
    obtain ⟨word, after, hwb, rfl⟩ := hr.head?_of_start (List.mem_of_mem_head? hb) hstart.symm
    obtain ⟨d, hd, hkind⟩ : ∃ d, (d = '/' ∨ d = '*') ∧ b.kind = .symbol d := by
      rcases hkind with hk | hk
      · exact ⟨'/', .inl rfl, hk⟩
      · exact ⟨'*', .inr rfl, hk⟩
    rw [hkind] at hwb
    cases hwb with
    | word hword => cases hword
    | symbol => exact not_or.mpr (hs rfl d rfl) hd

theorem Laid.part_of_token (h : Laid offset text tokens) {ps : List (Part × Char)}
    (hp : partsFrom .code offset text = .ok ps) {t : Token} (ht : t ∈ tokens) {i : Nat}
    (hi : t.span.Has (offset + i)) : (byteParts ps)[i]? = some t.kind.part := by
  obtain ⟨before, word, after, hp', -, hs, he⟩ := h.writtenAt ht
  obtain rfl := Except.ok.inj (hp.symm.trans hp')
  obtain ⟨hi, hi'⟩ := hi
  rw [byteParts_append, byteParts_append, byteParts_map, List.append_assoc,
    List.getElem?_append_right, length_byteParts, List.getElem?_append_left,
    List.getElem?_replicate, if_pos]
  · omega
  · rw [List.length_replicate]; omega
  · rw [length_byteParts]; omega

end

theorem TokenKind.part_eq_string {kind : TokenKind} :
    kind.part = .string ↔ ∃ value, kind = .string value := by
  cases kind <;> simp [TokenKind.part]

/-- Blanking comments and reading tokens agree on a source without lexical errors. -/
theorem passesAgree {source : String} {tokens : List Token}
    (h : lexemes source = .ok (tokens.map .token)) : PassesAgree source tokens := by
  have hl := lexemes_eq_ok_iff.mp h
  obtain ⟨ps, hp, -⟩ := hl.scans
  have hat : ∀ i, partAt? source i = (byteParts ps)[i]? := fun i => by
    simp only [partAt?, parts, hp]
  have htoken : ∀ t ∈ tokens, ∀ i, t.span.Has i → partAt? source i = some t.kind.part := by
    intro t ht i hi
    rw [hat]
    exact hl.part_of_token hp ht (by rwa [Nat.zero_add])
  refine ⟨fun i => ?covers, fun i => ⟨fun hi => ?string, ?token⟩, fun i hi t ht hs => ?outside,
    ⟨ps.flatMap shown, ?blanked, fun t ht => ?kept⟩, hl.noMarks⟩
  case covers =>
    rw [hat]
    simp [length_byteParts, map_snd_partsFrom hp, byteLength_toList]
  case string =>
    rw [hat] at hi
    obtain ⟨t, ht, hs⟩ := hl.exists_token hp hi
    rw [Nat.zero_add] at hs
    refine ⟨t, ht, TokenKind.part_eq_string.mp ?_, hs⟩
    exact Option.some.inj ((htoken t ht i hs).symm.trans (by rw [hat, hi]))
  case token =>
    rintro ⟨t, ht, hstring, hs⟩
    rw [htoken t ht i hs, TokenKind.part_eq_string.mpr hstring]
  case outside =>
    exact t.kind.part_ne_comment (Option.some.inj ((htoken t ht i hs).symm.trans hi))
  case blanked =>
    unfold uncommented blankAll
    rw [blankFrom_eq, hp]
    rfl
  case kept =>
    exact (hl.writtenAt ht).standsAt hp

theorem passesAgree_slashes :
    lexemes (Printed.source [.block ['"', 'é', '*']] Printed.slashes) =
        .ok ((Printed.tokens 8 Printed.slashes).map .token) ∧
      PassesAgree (Printed.source [.block ['"', 'é', '*']] Printed.slashes)
        (Printed.tokens 8 Printed.slashes) := by
  have h := Printed.lexemes_source [.block ['"', 'é', '*']] Printed.slashes (by decide)
    Printed.legible_slashes
  exact ⟨h, passesAgree h⟩

end JackVM
