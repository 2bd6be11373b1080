import Mathlib

/-! Fixed-point decimals of bounded precision. A decimal carries its own scale, so one number has
several representations; the order and the canonical form are those of the number. -/
namespace OmenDb

theorem cmp_congr {α β : Type} [LT α] [DecidableLT α] [LT β] [DecidableLT β] {a b : α} {c d : β}
    (hlt : a < b ↔ c < d) (hgt : b < a ↔ d < c) : cmp a b = cmp c d := by
  simp [cmp, cmpUsing, hlt, hgt]

/-- The number `mantissa / 10 ^ scale`, with at most `p` digits before and after the point. -/
structure Decimal (p : ℕ) where
  mantissa : ℤ
  scale : ℕ
  scale_le : scale ≤ p
  bound : mantissa.natAbs * 10 ^ scale < 10 ^ p
  deriving DecidableEq

namespace Decimal

variable {p : ℕ}

def toRat (d : Decimal p) : ℚ := d.mantissa / 10 ^ d.scale

theorem mantissa_lt (d : Decimal p) : d.mantissa.natAbs < 10 ^ p :=
  lt_of_le_of_lt (Nat.le_mul_of_pos_right _ (by positivity)) d.bound

theorem mantissa_eq (d : Decimal p) : (d.mantissa : ℚ) = d.toRat * 10 ^ d.scale := by
  unfold toRat
  field_simp

theorem cmp_mul_right {c : ℚ} (hc : 0 < c) (x y : ℚ) : cmp (x * c) (y * c) = cmp x y :=
  cmp_congr (mul_lt_mul_iff_left₀ hc) (mul_lt_mul_iff_left₀ hc)

theorem cmp_int_cast (m n : ℤ) : cmp m n = cmp (m : ℚ) (n : ℚ) :=
  cmp_congr Int.cast_lt.symm Int.cast_lt.symm

theorem cmp_aligned (a b : Decimal p) (h : a.scale ≤ b.scale) :
    cmp (a.mantissa * 10 ^ (b.scale - a.scale)) b.mantissa = cmp a.toRat b.toRat := by
  have hs : (10 : ℚ) ^ b.scale = 10 ^ a.scale * 10 ^ (b.scale - a.scale) := by
    rw [← pow_add, Nat.add_sub_cancel' h]
  rw [cmp_int_cast, ← cmp_mul_right (c := 10 ^ b.scale) (by positivity) a.toRat b.toRat]
  congr 1
  · push_cast
    rw [a.mantissa_eq, hs, mul_assoc]
  · exact b.mantissa_eq

/-- Drop trailing zeros of the mantissa while the scale lasts. -/
def strip (m : ℤ) : ℕ → ℤ × ℕ
  | 0 => (m, 0)
  | s + 1 => if m.tmod 10 = 0 then strip (m.tdiv 10) s else (m, s + 1)

theorem strip_value (m : ℤ) (s : ℕ) : ((strip m s).1 : ℚ) / 10 ^ (strip m s).2 = m / 10 ^ s := by
  induction s generalizing m with
  | zero => simp [strip]
  | succ s ih =>
    simp only [strip]
    split
    · rename_i h
      have hm : m = m.tdiv 10 * 10 := (Int.tdiv_mul_cancel (Int.dvd_of_tmod_eq_zero h)).symm
      rw [ih, pow_succ]
      conv_rhs => rw [hm]
      push_cast
      field_simp
    · rfl

theorem strip_scale_le (m : ℤ) (s : ℕ) : (strip m s).2 ≤ s := by
  induction s generalizing m with
  | zero => simp [strip]
  | succ s ih =>
    simp only [strip]
    split
    · exact (ih _).trans (Nat.le_succ s)
    · exact le_rfl

theorem strip_stripped (m : ℤ) (s : ℕ) : (strip m s).2 = 0 ∨ ¬ (10 : ℤ) ∣ (strip m s).1 := by
  induction s generalizing m with
  | zero => simp [strip]
  | succ s ih =>
    simp only [strip]
    split
    · exact ih _
    · rename_i h
      exact .inr fun hd => h (Int.tmod_eq_zero_of_dvd hd)

theorem strip_bound (d : Decimal p) :
    (strip d.mantissa d.scale).1.natAbs * 10 ^ (strip d.mantissa d.scale).2 < 10 ^ p := by
  have hv := strip_value d.mantissa d.scale
  have hle : (10 : ℚ) ^ (strip d.mantissa d.scale).2 ≤ 10 ^ d.scale :=
    pow_le_pow_right₀ (by norm_num) (strip_scale_le _ _)
  have hb : (|(d.mantissa : ℚ)|) * 10 ^ d.scale < 10 ^ p := by
    have := d.bound
    have hc : ((d.mantissa.natAbs * 10 ^ d.scale : ℕ) : ℚ) < ((10 ^ p : ℕ) : ℚ) := by exact_mod_cast this
    simpa [Nat.cast_natAbs] using hc
  have habs : |((strip d.mantissa d.scale).1 : ℚ)| ≤ |(d.mantissa : ℚ)| := by
    have hnum : ((strip d.mantissa d.scale).1 : ℚ) =
        d.mantissa * (10 ^ (strip d.mantissa d.scale).2 / 10 ^ d.scale) := by
      field_simp at hv ⊢
      linarith
    rw [hnum, abs_mul]
    refine mul_le_of_le_one_right (abs_nonneg _) ?_
    rw [abs_of_nonneg (by positivity)]
    exact (div_le_one (by positivity)).mpr hle
  have : |((strip d.mantissa d.scale).1 : ℚ)| * 10 ^ (strip d.mantissa d.scale).2 < 10 ^ p :=
    lt_of_le_of_lt (mul_le_mul habs hle (by positivity) (abs_nonneg _)) hb
  have hc : (((strip d.mantissa d.scale).1.natAbs * 10 ^ (strip d.mantissa d.scale).2 : ℕ) : ℚ)
      < ((10 ^ p : ℕ) : ℚ) := by
    simpa [Nat.cast_natAbs] using this
  exact_mod_cast hc

def normalized (d : Decimal p) : Decimal p where
  mantissa := (strip d.mantissa d.scale).1
  scale := (strip d.mantissa d.scale).2
  scale_le := (strip_scale_le _ _).trans d.scale_le
  bound := d.strip_bound

@[simp] theorem toRat_normalized (d : Decimal p) : d.normalized.toRat = d.toRat :=
  strip_value d.mantissa d.scale

theorem scale_le_of_toRat_eq {a b : Decimal p} (hb : b.scale = 0 ∨ ¬ (10 : ℤ) ∣ b.mantissa)
    (h : a.toRat = b.toRat) : b.scale ≤ a.scale := by
  by_contra hlt
  rw [not_le] at hlt
  have he : (b.mantissa : ℚ) = a.mantissa * 10 ^ (b.scale - a.scale) := by
    rw [b.mantissa_eq, a.mantissa_eq, h, mul_assoc, ← pow_add, Nat.add_sub_cancel' hlt.le]
  have hz : b.mantissa = a.mantissa * 10 ^ (b.scale - a.scale) := by exact_mod_cast he
  obtain ⟨k, hk⟩ := Nat.exists_eq_succ_of_ne_zero (Nat.sub_pos_of_lt hlt).ne'
  rcases hb with hb | hb
  · omega
  · refine hb ⟨a.mantissa * 10 ^ k, ?_⟩
    rw [hz, hk, Nat.succ_eq_add_one, pow_succ]
    ring

theorem normalized_eq_iff (a b : Decimal p) : a.normalized = b.normalized ↔ a.toRat = b.toRat := by
  constructor
  · intro h
    rw [← a.toRat_normalized, h, b.toRat_normalized]
  · intro h
    have hr : a.normalized.toRat = b.normalized.toRat := by simpa using h
    have hs : a.normalized.scale = b.normalized.scale :=
      le_antisymm (scale_le_of_toRat_eq (strip_stripped a.mantissa a.scale) hr.symm)
        (scale_le_of_toRat_eq (strip_stripped b.mantissa b.scale) hr)
    have hm : (a.normalized.mantissa : ℚ) = b.normalized.mantissa := by
      rw [mantissa_eq, mantissa_eq, hr, hs]
    have hm' : a.normalized.mantissa = b.normalized.mantissa := by exact_mod_cast hm
    cases ha : a.normalized
    cases hb : b.normalized
    simp_all

def roundHalfAway (q : ℚ) : ℤ := if 0 ≤ q then ⌊q + 1 / 2⌋ else -⌊-q + 1 / 2⌋

/-- The nearest number with `scale` digits after the point. -/
def roundAt (scale : ℕ) (q : ℚ) : ℚ := roundHalfAway (q * 10 ^ scale) / 10 ^ scale

theorem roundHalfAway_neg (q : ℚ) : roundHalfAway (-q) = -roundHalfAway q := by
  unfold roundHalfAway
  rcases lt_trichotomy q 0 with h | rfl | h
  · rw [if_pos (by linarith), if_neg (not_le.mpr h), neg_neg]
  · norm_num
  · rw [if_neg (by linarith), if_pos h.le, neg_neg]

@[simp] theorem roundHalfAway_intCast (n : ℤ) : roundHalfAway n = n := by
  have hhalf : ∀ z : ℤ, ⌊(z : ℚ) + 1 / 2⌋ = z := fun z => by
    rw [Int.floor_intCast_add]
    norm_num
  unfold roundHalfAway
  split
  · exact hhalf n
  · have h := hhalf (-n)
    push_cast at h
    rw [h, neg_neg]

theorem roundHalfAway_natDiv (m : ℕ) {d : ℕ} (hd : 0 < d) :
    roundHalfAway ((m : ℚ) / d) = ((if d ≤ m % d * 2 then m / d + 1 else m / d : ℕ) : ℤ) := by
  have hpos : (0 : ℚ) < d := by exact_mod_cast hd
  have hsplit : (m : ℚ) = d * (m / d : ℕ) + (m % d : ℕ) := by exact_mod_cast (Nat.div_add_mod m d).symm
  have hrest : ((m % d : ℕ) : ℚ) < d := by exact_mod_cast Nat.mod_lt m hd
  have hquotient : (m : ℚ) / d = (m / d : ℕ) + (m % d : ℕ) / d := by
    rw [div_eq_iff hpos.ne', add_mul, div_mul_cancel₀ _ hpos.ne']
    linarith
  rw [roundHalfAway, if_pos (by positivity), hquotient, Int.floor_eq_iff, Int.cast_natCast]
  have hnonneg : (0 : ℚ) ≤ (m % d : ℕ) / d := by positivity
  have hlt : ((m % d : ℕ) : ℚ) / d < 1 := (div_lt_one hpos).mpr hrest
  split
  · rename_i h
    have hhalf : (1 : ℚ) / 2 ≤ (m % d : ℕ) / d := by
      rw [div_le_div_iff₀ (by norm_num) hpos]
      exact_mod_cast (by omega : 1 * d ≤ m % d * 2)
    rw [Nat.cast_succ]
    constructor <;> linarith
  · rename_i h
    have hhalf : ((m % d : ℕ) : ℚ) / d < 1 / 2 := by
      rw [div_lt_div_iff₀ hpos (by norm_num)]
      exact_mod_cast (by omega : m % d * 2 < 1 * d)
    constructor <;> linarith

theorem roundHalfAway_tdiv (m : ℤ) {d : ℤ} (hd : d ≠ 0) :
    (if d.natAbs ≤ (m.tmod d).natAbs * 2 then m.tdiv d + m.sign * d.sign else m.tdiv d) =
      roundHalfAway ((m : ℚ) / d) := by
  -- for naturals the step is one up, and with nothing to divide there is no step
  have hnat : ∀ m d : ℕ, 0 < d →
      (if d ≤ m % d * 2 then ((m / d : ℕ) : ℤ) + (m : ℤ).sign * (d : ℤ).sign else ((m / d : ℕ) : ℤ)) =
        roundHalfAway ((m : ℚ) / d) := by
    intro m d hd
    rw [roundHalfAway_natDiv m hd, Int.sign_eq_one_of_pos (show (0 : ℤ) < d by omega), mul_one]
    split
    · rename_i h
      have hm : m ≠ 0 := by
        rintro rfl
        rw [Nat.zero_mod] at h
        omega
      rw [Int.sign_eq_one_of_pos (by omega), Nat.cast_succ]
    · rfl
  obtain ⟨a, rfl | rfl⟩ := m.eq_nat_or_neg <;> obtain ⟨b, rfl | rfl⟩ := d.eq_nat_or_neg <;>
    (have hb : 0 < b := by omega) <;> have h := hnat a b hb
  · simpa using h
  · rw [Int.cast_neg, div_neg, roundHalfAway_neg]
    simp only [Int.cast_natCast, ← h]
    simp [Int.tmod_neg, Int.tdiv_neg, neg_ite, add_comm]
  · rw [Int.cast_neg, neg_div, roundHalfAway_neg]
    simp only [Int.cast_natCast, ← h]
    simp [Int.neg_tmod, Int.neg_tdiv, neg_ite, add_comm]
  · rw [Int.cast_neg, Int.cast_neg, neg_div_neg_eq]
    simp only [Int.cast_natCast, ← h]
    simp [Int.neg_tmod, Int.tmod_neg, Int.neg_tdiv, Int.tdiv_neg]

end Decimal
end OmenDb
