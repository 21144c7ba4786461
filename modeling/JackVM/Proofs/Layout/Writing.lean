import Mathlib.Data.List.Induction
import JackVM.Proofs.Layout.Lexemes

/-!
# How tokens are written

Each kind of token with the texts that stand for it. Most have one such text; an
integer may have any number of zeros in front. Words are read off a text up to
the next white space or symbol, so what follows a word matters; what follows a
symbol or a string constant does not.
-/

namespace JackVM

open Lexeme

-- ---------------------------------------------------------------------------
-- Texts of tokens
-- ---------------------------------------------------------------------------

inductive WordOf : TokenKind → List Char → Prop
  | keyword (word : Keyword) : WordOf (.keyword word) word.spelling.toList
  | identifier {name : String} (h : isName name.toList) (hk : Keyword.ofWord? name = none) :
    WordOf (.identifier name) name.toList
  | integer {value : Nat} (zeros : Nat) (h : value ≤ maxInteger) :
    WordOf (.integer value) (List.replicate zeros '0' ++ (toString value).toList)

inductive Written : TokenKind → List Char → Prop
  | word {kind : TokenKind} {text : List Char} (h : WordOf kind text) : Written kind text
  | symbol {c : Char} (h : c ∈ symbols) : Written (.symbol c) [c]
  | string {value : String} (h : ∀ c ∈ value.toList, c ≠ '"' ∧ c ≠ '\n' ∧ c ≠ '\r') :
    Written (.string value) ('"' :: (value.toList ++ ['"']))

def isNamePart (c : Char) : Bool := isNameStart c || isDigit c

theorem isDigit_iff {c : Char} : isDigit c ↔ 48 ≤ c.toNat ∧ c.toNat ≤ 57 := by
  simp only [isDigit, Bool.and_eq_true, decide_eq_true_eq, Char.le_def, UInt32.le_iff_toNat_le]
  exact Iff.rfl

theorem isNameStart_iff {c : Char} :
    isNameStart c ↔ (97 ≤ c.toNat ∧ c.toNat ≤ 122) ∨ (65 ≤ c.toNat ∧ c.toNat ≤ 90) ∨
      c.toNat = 95 := by
  have hu : c = '_' ↔ c.toNat = 95 := ⟨fun h => h ▸ rfl, fun h => Char.toNat_inj.mp h⟩
  simp only [isNameStart, Bool.or_eq_true, Bool.and_eq_true, decide_eq_true_eq, Char.le_def,
    UInt32.le_iff_toNat_le, beq_iff_eq, hu]
  exact or_assoc

theorem not_isBlank_of_isNamePart {c : Char} (h : isNamePart c) : Text.isBlank c = false := by
  rw [isNamePart, Bool.or_eq_true, isNameStart_iff, isDigit_iff] at h
  simp only [Text.isBlank, Text.blankRanges, List.any_cons, List.any_nil, Bool.or_false,
    Bool.or_eq_false_iff, Bool.and_eq_false_iff, decide_eq_false_iff_not]
  omega

theorem not_isNamePart_of_symbol : ∀ c ∈ symbols, isNamePart c = false := by
  have hall : symbols.all fun c => !isNamePart c := by decide
  simpa using hall

/-- A class of characters tells those in it from the others. -/
theorem ne_of_class {p : Char → Bool} {c d : Char} (hc : p c) (hd : p d = false) : c ≠ d := by
  rintro rfl
  exact Bool.false_ne_true (hd.symm.trans hc)

theorem isWordPart_of_isNamePart {c : Char} (h : isNamePart c) : isWordPart c := by
  have hs : isSymbol c = false := by
    by_contra hs
    have hc := not_isNamePart_of_symbol c (by simpa [isSymbol] using hs)
    exact Bool.false_ne_true (hc.symm.trans h)
  simp [isWordPart, not_isBlank_of_isNamePart h, hs]

-- ---------------------------------------------------------------------------
-- Decimal digits
-- ---------------------------------------------------------------------------

theorem digitsValue_eq (ds : List Char) : digitsValue ds = Nat.ofDigitChars 10 ds 0 := by
  rw [Nat.ofDigitChars_eq_foldl]
  rfl

theorem toList_toString (value : Nat) : (toString value).toList = Nat.toDigits 10 value := by
  rw [Nat.toString_eq_repr, Nat.toList_repr]

theorem toString_ne_nil (value : Nat) : (toString value).toList ≠ [] := by
  rw [toList_toString]
  exact Nat.toDigits_ne_nil

theorem isDigit_of_mem_toString {value : Nat} {c : Char} (h : c ∈ (toString value).toList) :
    isDigit c := by
  rw [toList_toString] at h
  exact Nat.isDigit_of_mem_toDigits (by decide) (by decide) h

theorem digitsValue_padded (zeros value : Nat) :
    digitsValue (List.replicate zeros '0' ++ (toString value).toList) = value := by
  rw [digitsValue_eq, Nat.ofDigitChars_append, Nat.ofDigitChars_replicate_zero, Nat.mul_zero,
    toList_toString, Nat.ofDigitChars_ten_toDigits]

theorem toDigits_digit {d : Char} (h : isDigit d) :
    d.toNat - '0'.toNat < 10 ∧ Nat.toDigits 10 (d.toNat - '0'.toNat) = [d] := by
  rw [isDigit_iff] at h
  have hn : ∀ n < 10, (Nat.digitChar n).toNat = 48 + n := by decide
  have hlt : d.toNat - '0'.toNat < 10 := by
    show d.toNat - 48 < 10
    omega
  refine ⟨hlt, ?_⟩
  have hd : Nat.digitChar (d.toNat - '0'.toNat) = d := by
    rw [← Char.toNat_inj, hn _ hlt]
    show 48 + (d.toNat - 48) = d.toNat
    omega
  rw [Nat.toDigits_of_lt_base hlt, hd]

/-- Digits are zeros followed by the shortest text of their value. -/
theorem exists_zeros {ds : List Char} (hne : ds ≠ []) (h : ∀ c ∈ ds, isDigit c) :
    ∃ zeros, ds = List.replicate zeros '0' ++ (toString (digitsValue ds)).toList := by
  induction ds using List.reverseRecOn with
  | nil => exact absurd rfl hne
  | append_singleton init d ih =>
    obtain ⟨hinit, hd⟩ := List.forall_mem_append.mp h
    obtain ⟨hlt, hdigit⟩ := toDigits_digit (hd d List.mem_cons_self)
    have hv : digitsValue (init ++ [d]) = 10 * digitsValue init + (d.toNat - '0'.toNat) := by
      simp [digitsValue]
    rw [hv, toList_toString]
    by_cases hi : init = []
    · subst hi
      exact ⟨0, by rw [show digitsValue [] = 0 from rfl, Nat.mul_zero, Nat.zero_add, hdigit]; rfl⟩
    · obtain ⟨zeros, hz⟩ := ih hi hinit
      rw [toList_toString] at hz
      -- A first part without value is all zeros, its last digit too.
      rcases Nat.eq_zero_or_pos (digitsValue init) with h0 | h0
      · refine ⟨zeros + 1, ?_⟩
        rw [h0, Nat.toDigits_zero] at hz
        rw [h0, Nat.mul_zero, Nat.zero_add, hdigit, hz, List.replicate_succ']
      · refine ⟨zeros, ?_⟩
        rw [← Nat.toDigits_append_toDigits (by decide) h0 hlt, hdigit, ← List.append_assoc, ← hz]

-- ---------------------------------------------------------------------------
-- Words
-- ---------------------------------------------------------------------------

theorem isNamePart_of_isDigit {c : Char} (h : isDigit c) : isNamePart c := by
  simp [isNamePart, h]

theorem isNamePart_keyword (word : Keyword) : ∀ c ∈ word.spelling.toList, isNamePart c := by
  have hall : word.spelling.toList.all isNamePart := by cases word <;> decide
  exact List.all_eq_true.mp hall

theorem isNamePart_of_isName {cs : List Char} (h : isName cs) : ∀ c ∈ cs, isNamePart c := by
  cases cs with
  | nil => nofun
  | cons first others =>
    simp only [isName, Bool.and_eq_true, List.all_eq_true] at h
    exact List.forall_mem_cons.mpr ⟨by simp [isNamePart, h.1], h.2⟩

theorem WordOf.isNamePart {kind : TokenKind} {text : List Char} (h : WordOf kind text) :
    ∀ c ∈ text, isNamePart c := by
  cases h with
  | keyword word => exact isNamePart_keyword word
  | identifier h => exact isNamePart_of_isName h
  | integer zeros =>
    intro c hc
    rcases List.mem_append.mp hc with hc | hc
    · obtain rfl := List.eq_of_mem_replicate hc
      decide
    · exact isNamePart_of_isDigit (isDigit_of_mem_toString hc)

theorem WordOf.ne_nil {kind : TokenKind} {text : List Char} (h : WordOf kind text) :
    text ≠ [] := by
  cases h with
  | keyword word => cases word <;> decide
  | identifier h =>
    intro hn
    rw [hn] at h
    cases h
  | integer zeros => exact List.append_ne_nil_of_right_ne_nil _ (toString_ne_nil _)

theorem ofWord?_digits {ds : List Char} (h : ∀ d ∈ ds, isDigit d) :
    Keyword.ofWord? (String.ofList ds) = none := by
  cases hw : Keyword.ofWord? (String.ofList ds) with
  | none => rfl
  | some word =>
    have hs : word.spelling.toList = ds := by
      rw [Keyword.spelling_of_ofWord? hw, String.toList_ofList]
    have hd : word.spelling.toList.all isDigit = false := by cases word <;> decide
    rw [hs, List.all_eq_true.mpr h] at hd
    cases hd

theorem not_all_isDigit {cs : List Char} (h : isName cs) : cs.all isDigit = false := by
  cases cs with
  | nil => cases h
  | cons first others =>
    simp only [isName, Bool.and_eq_true] at h
    have hd : ¬isDigit first = true := by
      rw [isDigit_iff]
      have hs := isNameStart_iff.mp h.1
      omega
    simp [hd]

theorem WordOf.ofWord_eq {kind : TokenKind} {text : List Char} (h : WordOf kind text)
    (span : Span) : ofWord span text = .token ⟨kind, span⟩ := by
  unfold ofWord
  dsimp only
  cases h with
  | keyword word => rw [String.ofList_toList, Keyword.ofWord?_spelling]
  | identifier h hk =>
    rw [String.ofList_toList, hk]
    simp [not_all_isDigit h, h]
  | @integer value zeros h =>
    have hd : ∀ d ∈ List.replicate zeros '0' ++ (toString value).toList, isDigit d := by
      intro d hd
      rcases List.mem_append.mp hd with hd | hd
      · obtain rfl := List.eq_of_mem_replicate hd
        decide
      · exact isDigit_of_mem_toString hd
    rw [ofWord?_digits hd]
    simp only [List.all_eq_true.mpr hd, digitsValue_padded, h, if_true]

theorem wordOf_of_ofWord {text : List Char} {span : Span} {t : Token} (hne : text ≠ [])
    (h : ofWord span text = .token t) : t.span = span ∧ WordOf t.kind text := by
  unfold ofWord at h
  dsimp only at h
  split at h
  · next word hw =>
    cases h
    have hs := WordOf.keyword word
    rw [Keyword.spelling_of_ofWord? hw, String.toList_ofList] at hs
    exact ⟨rfl, hs⟩
  · next hw =>
    split at h
    · next hd =>
      split at h
      · next hv =>
        cases h
        obtain ⟨zeros, hz⟩ := exists_zeros hne (List.all_eq_true.mp hd)
        have hi := WordOf.integer zeros hv
        rw [← hz] at hi
        exact ⟨rfl, hi⟩
      · cases h
    · split at h
      · next hn =>
        cases h
        have hi : WordOf (.identifier (String.ofList text)) (String.ofList text).toList :=
          .identifier (by rwa [String.toList_ofList]) hw
        rw [String.toList_ofList] at hi
        exact ⟨rfl, hi⟩
      · cases h

end JackVM
