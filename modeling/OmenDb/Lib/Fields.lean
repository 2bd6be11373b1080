import OmenDb.Lib.Codec

/-! Byte strings from the decoder's side. A decoder that has read every field of its input has read
the input: slices that meet make up the slice over them, and the bytes of a word are the word's
encoding. -/
namespace OmenDb

namespace Word

theorem digits_value {w : ℕ} {bs : List (Fin 256)} (h : bs.length = w) : digits w (value bs) = bs := by
  induction bs generalizing w with
  | nil =>
    subst h
    rfl
  | cons b bs ih =>
    subst h
    rw [List.length_cons, digits, value]
    congr 1
    · apply Fin.ext
      rw [Fin.val_ofNat, Nat.add_mul_mod_self_left, Nat.mod_eq_of_lt b.isLt]
    · rw [Nat.add_mul_div_left _ _ (by decide), Nat.div_eq_of_lt b.isLt, Nat.zero_add, ih rfl]

theorem value_lt (bs : List (Fin 256)) : value bs < 256 ^ bs.length := by
  induction bs with
  | nil => simp [value]
  | cons b bs ih =>
    rw [value, List.length_cons, pow_succ']
    have := b.isLt
    omega

theorem toLe_ofLe {w : ℕ} {bs : List (Fin 256)} (h : bs.length = w) : (ofLe bs : Word w).toLe = bs := by
  subst h
  rw [toLe, ofLe, Fin.val_ofNat, Nat.mod_eq_of_lt (value_lt bs), digits_value rfl]

theorem ofLength?_of_lt {w n : ℕ} (h : n < 256 ^ w) : (ofLength? n : Option (Word w)) = some ⟨n, h⟩ := dif_pos h

end Word

section Slices

variable {α : Type} {xs : List α} {a b c d : ℕ}

theorem slice_append_slice (hab : a ≤ b) (hbc : b ≤ c) : slice xs a b ++ slice xs b c = slice xs a c := by
  have hsplit : c - a = (b - a) + (c - b) := by omega
  rw [slice, slice, slice, hsplit, List.take_add, List.drop_drop, Nat.add_sub_cancel' hab]

theorem slice_slice (h : a + d ≤ b) : slice (slice xs a b) c d = slice xs (a + c) (a + d) := by
  have hwidth : min (d - c) (b - a - c) = a + d - (a + c) := by omega
  rw [slice, slice, slice, List.drop_take, List.drop_drop, List.take_take, hwidth]

theorem slice_zero (xs : List α) (n : ℕ) : slice xs 0 n = xs.take n := by simp [slice]

theorem slice_take (h : b ≤ c) : slice (xs.take c) a b = slice xs a b := by
  rw [slice, slice, List.drop_take, List.take_take, Nat.min_eq_left (by omega)]

end Slices

end OmenDb
