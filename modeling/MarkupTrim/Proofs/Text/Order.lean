import MarkupTrim.Text.Slice
import Mathlib.Data.List.Lex
import Mathlib.Tactic.Common

/-! # The order of texts

Texts are ordered by their characters, and characters by their numbers. The bytes of a text come in
the same order (`lt_iff_bytes_lt`): a character with more bytes starts with a greater byte, and among
those with equally many the bytes are the digits of the number. -/

namespace MarkupTrim.Text

/-- Of two lists of bytes the first bytes decide, unless they are equal. -/
theorem ofNat_cons_lt_iff {m n : ℕ} (hm : m < 256) (hn : n < 256) (x y : List UInt8) :
    UInt8.ofNat m :: x < UInt8.ofNat n :: y ↔ m < n ∨ m = n ∧ x < y := by
  have hlt : UInt8.ofNat m < UInt8.ofNat n ↔ m < n := by
    rw [UInt8.lt_iff_toNat_lt, UInt8.toNat_ofNat_of_lt' hm, UInt8.toNat_ofNat_of_lt' hn]
  have heq : UInt8.ofNat m = UInt8.ofNat n ↔ m = n := by
    rw [← UInt8.toNat_inj, UInt8.toNat_ofNat_of_lt' hm, UInt8.toNat_ofNat_of_lt' hn]
  rw [List.cons_lt_cons_iff, hlt, heq]

theorem toNat_lt (c : Char) : c.toNat < 1114112 := by
  rcases c.valid with h | ⟨-, h⟩
  · exact Nat.lt_trans h (by decide)
  · exact h

/-- **A smaller character has smaller bytes**, whatever follows. -/
theorem utf8EncodeChar_append_lt {c d : Char} (h : c.toNat < d.toNat) (x y : List UInt8) :
    String.utf8EncodeChar c ++ x < String.utf8EncodeChar d ++ y := by
  have hc := toNat_lt c
  have hd := toNat_lt d
  unfold Char.toNat at h hc hd
  -- One digit more at a time, or the digits of four bytes are too many for `omega`.
  have htwo (v : ℕ) : v / 4096 = v / 64 / 64 := by omega
  have hthree (v : ℕ) : v / 262144 = v / 64 / 64 / 64 := by omega
  unfold String.utf8EncodeChar
  simp only [htwo, hthree]
  split_ifs
  all_goals
    simp (disch := omega) only [List.cons_append, List.nil_append, ofNat_cons_lt_iff]
    omega

/-- Runs of characters come in the order of their bytes. -/
theorem encode_lt_encode {as bs : List Char} (h : as < bs) : encode as < encode bs := by
  induction h with
  | @nil b bs =>
    obtain ⟨x, xs, hx⟩ := List.exists_cons_of_ne_nil (encode_ne_nil (List.cons_ne_nil b bs))
    rw [hx]
    exact List.nil_lt_cons x xs
  | @cons a as bs _ ih => exact List.Lex.append_left _ ih (String.utf8EncodeChar a)
  | @rel a as b bs hab => exact utf8EncodeChar_append_lt hab (encode as) (encode bs)

theorem bytes_eq_encode (text : String) : bytes text = encode text.toList := by
  conv_lhs => rw [← String.ofList_toList (s := text), bytes_ofList]

/-- **Texts are ordered by their bytes.** -/
theorem lt_iff_bytes_lt {s t : String} : s < t ↔ bytes s < bytes t := by
  have hmono {s t : String} (h : s < t) : bytes s < bytes t := by
    rw [bytes_eq_encode, bytes_eq_encode]
    exact encode_lt_encode h
  refine ⟨hmono, fun h => ?_⟩
  by_contra hlt
  by_cases hgt : t < s
  · exact List.lt_asymm h (hmono hgt)
  · obtain rfl := String.le_antisymm (String.not_lt.mp hgt) (String.not_lt.mp hlt)
    exact List.lt_irrefl _ h

theorem compare_eq_lt_iff {s t : String} : compare s t = .lt ↔ bytes s < bytes t := by
  rw [← lt_iff_bytes_lt]
  exact compareOfLessAndEq_eq_lt

end MarkupTrim.Text
