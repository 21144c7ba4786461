import JackVM.Proofs.Layout.Comments

/-!
# The order of texts by their bytes

Texts are ordered like their UTF-8 forms: of two characters the smaller one has
the smaller byte where their bytes first differ.
-/

namespace JackVM.Text

theorem byte_lt {m n : Nat} : UInt8.ofNat m < UInt8.ofNat n ↔ m % 256 < n % 256 := by
  rw [UInt8.lt_iff_toNat_lt, UInt8.toNat_ofNat', UInt8.toNat_ofNat']

theorem byte_eq {m n : Nat} : UInt8.ofNat m = UInt8.ofNat n ↔ m % 256 = n % 256 := by
  rw [← UInt8.toNat_inj, UInt8.toNat_ofNat', UInt8.toNat_ofNat']

theorem toNat_val_lt (c : Char) : c.val.toNat < 1114112 := by
  have h := c.valid
  simp only [UInt32.isValidChar, Nat.isValidChar] at h
  omega

theorem digits_lt {m n : Nat} (h : m < n) :
    m / 262144 < n / 262144 ∨ m / 262144 = n / 262144 ∧
      (m / 4096 % 64 < n / 4096 % 64 ∨ m / 4096 % 64 = n / 4096 % 64 ∧
        (m / 64 % 64 < n / 64 % 64 ∨ m / 64 % 64 = n / 64 % 64 ∧ m % 64 < n % 64)) := by
  omega

theorem utf8EncodeChar_lt {c d : Char} (h : c < d) (r s : List UInt8) :
    String.utf8EncodeChar c ++ r < String.utf8EncodeChar d ++ s := by
  have hlt : c.val.toNat < d.val.toNat := h
  have hc := toNat_val_lt c
  have hd := toNat_val_lt d
  unfold String.utf8EncodeChar
  generalize c.val.toNat = m at *
  generalize d.val.toNat = n at *
  by_cases hwide : 65535 < m
  -- Four bytes each: the first differing digit decides.
  · have hm : ¬m ≤ 127 ∧ ¬m ≤ 2047 ∧ ¬m ≤ 65535 := by omega
    have hn : ¬n ≤ 127 ∧ ¬n ≤ 2047 ∧ ¬n ≤ 65535 := by omega
    have hdigits := digits_lt hlt
    simp only [hm, hn, ↓reduceIte, List.cons_append, List.nil_append, List.cons_lt_cons_iff,
      byte_lt, byte_eq]
    simp (disch := omega) only [Nat.mod_eq_of_lt, Nat.add_lt_add_iff_right,
      Nat.add_right_cancel_iff]
    omega
  · dsimp only
    split_ifs <;>
      simp only [List.cons_append, List.nil_append, List.cons_lt_cons_iff, byte_lt, byte_eq] <;>
      omega

theorem bytes_lt {as bs : List Char} (h : as < bs) : bytes as < bytes bs := by
  induction as generalizing bs with
  | nil =>
    cases bs with
    | nil => simp at h
    | cons b bs =>
      obtain ⟨first, rest, hb⟩ := List.exists_cons_of_ne_nil (@String.utf8EncodeChar_ne_nil b)
      rw [bytes_cons, hb]
      exact List.nil_lt_cons ..
  | cons a as ih =>
    cases bs with
    | nil => simp at h
    | cons b bs =>
      rw [bytes_cons, bytes_cons]
      rcases List.cons_lt_cons_iff.mp h with hlt | ⟨rfl, hlt⟩
      · exact utf8EncodeChar_lt hlt _ _
      · exact List.append_left_lt (ih hlt)

end JackVM.Text
