import Mathlib

/-! Decimal digits and their groups of four. The digits of a number taken four at a time from the
least significant end are its digits in base ten thousand. -/
namespace OmenDb

/-- Four at a time from the front; the last group may be short. -/
def chunks4 {α : Type} : List α → List (List α)
  | [] => []
  | a :: b :: c :: d :: rest => [a, b, c, d] :: chunks4 rest
  | rest => [rest]

theorem chunks4_short {α : Type} {xs : List α} (hne : xs ≠ []) (hlen : xs.length ≤ 3) :
    chunks4 xs = [xs] := by
  match xs, hne, hlen with
  | [_], _, _ => rfl
  | [_, _], _, _ => rfl
  | [_, _, _], _, _ => rfl

theorem digits_four {n : ℕ} (h : 1000 ≤ n) :
    Nat.digits 10 n = n % 10 :: n / 10 % 10 :: n / 100 % 10 :: n / 1000 % 10 :: Nat.digits 10 (n / 10000) := by
  rw [Nat.digits_def' (by norm_num) (by omega), Nat.digits_def' (n := n / 10) (by norm_num) (by omega),
    Nat.digits_def' (n := n / 10 / 10) (by norm_num) (by omega),
    Nat.digits_def' (n := n / 10 / 10 / 10) (by norm_num) (by omega)]
  simp only [Nat.div_div_eq_div_mul]

theorem chunks4_digits (n : ℕ) : (chunks4 (Nat.digits 10 n)).map (Nat.ofDigits 10) = Nat.digits 10000 n := by
  induction n using Nat.strong_induction_on with
  | _ n ih =>
    rcases Nat.eq_zero_or_pos n with rfl | hpos
    · simp [chunks4]
    by_cases hn : n < 1000
    · -- Fewer than four digits: one short group, and one digit of the larger base.
      have hne : Nat.digits 10 n ≠ [] := Nat.digits_ne_nil_iff_ne_zero.mpr (by omega)
      have hlen : (Nat.digits 10 n).length ≤ 3 := (Nat.digits_length_le_iff (by norm_num) _).mpr (by omega)
      rw [chunks4_short hne hlen, Nat.digits_of_lt 10000 n (by omega) (by omega)]
      simp [Nat.ofDigits_digits]
    · have hfour : Nat.ofDigits 10 [n % 10, n / 10 % 10, n / 100 % 10, n / 1000 % 10] = n % 10000 := by
        simp only [Nat.ofDigits_cons, Nat.ofDigits_nil]
        omega
      rw [digits_four (by omega), Nat.digits_def' (b := 10000) (by norm_num) (by omega)]
      simp only [chunks4, List.map_cons, hfour, ih (n / 10000) (by omega)]

section Ladder

variable {M : Type} [AddCommMonoid M]

/-- The sum of what each entry is worth at its place, the first entry at place `e`. -/
def ladder (worth : ℤ → ℕ → M) : ℤ → List ℕ → M
  | _, [] => 0
  | e, g :: gs => worth e g + ladder worth (e + 1) gs

variable (worth : ℤ → ℕ → M)

theorem ladder_append (e : ℤ) (gs hs : List ℕ) :
    ladder worth e (gs ++ hs) = ladder worth e gs + ladder worth (e + gs.length) hs := by
  induction gs generalizing e with
  | nil => simp [ladder]
  | cons g gs ih =>
    have hplace : e + 1 + (gs.length : ℤ) = e + ((g :: gs).length : ℤ) := by
      rw [List.length_cons]
      push_cast
      ring
    rw [List.cons_append, ladder, ih, ladder, hplace, add_assoc]

theorem ladder_dropZeros (hzero : ∀ e, worth e 0 = 0) (e : ℤ) (gs : List ℕ) :
    ladder worth (e + (gs.length - (gs.dropWhile (· = 0)).length : ℕ)) (gs.dropWhile (· = 0)) = ladder worth e gs := by
  induction gs generalizing e with
  | nil => simp
  | cons g gs ih =>
    by_cases hg : g = 0
    · subst hg
      have hle := (List.dropWhile_sublist (· = (0 : ℕ)) (l := gs)).length_le
      have hshift : e + (((0 :: gs).length - (gs.dropWhile (· = 0)).length : ℕ) : ℤ) =
          e + 1 + ((gs.length - (gs.dropWhile (· = 0)).length : ℕ) : ℤ) := by
        rw [List.length_cons]
        omega
      simp only [List.dropWhile_cons, decide_true, if_true, ladder, hzero, zero_add]
      rw [hshift, ih]
    · simp [hg]

theorem ladder_reverse (w : ℤ) (gs : List ℕ) (k : ℕ) :
    ((gs.zipIdx k).map fun entry => worth (w - entry.2) entry.1).sum =
      ladder worth (w - k - gs.length + 1) gs.reverse := by
  induction gs generalizing k with
  | nil => simp [ladder]
  | cons g gs ih =>
    have hplace : w - (k + 1 : ℕ) - gs.length + 1 = w - k - (g :: gs).length + 1 := by
      rw [List.length_cons]
      push_cast
      ring
    have hlast : w - (k : ℤ) - (g :: gs).length + 1 + gs.reverse.length = w - k := by
      rw [List.length_cons, List.length_reverse]
      push_cast
      ring
    rw [List.zipIdx_cons, List.map_cons, List.sum_cons, ih, List.reverse_cons, ladder_append, hplace, hlast]
    simp only [ladder, add_zero]
    exact add_comm _ _

end Ladder

end OmenDb
