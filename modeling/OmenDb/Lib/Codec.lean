import Mathlib

/-! Fixed-width little-endian words over byte strings, and the slices a decoder reads them from. A
decoder addresses its input by offsets while an encoder concatenates fields; the slice lemmas below turn
an offset into the field that stands there. -/
namespace OmenDb

/-- An unsigned machine word of `w` bytes. -/
abbrev Word (w : ℕ) := Fin (256 ^ w)

namespace Word

instance neZero_one : NeZero (256 : ℕ) := ⟨by decide⟩
instance neZero_two : NeZero (256 ^ 2 : ℕ) := ⟨by decide⟩
instance neZero_four : NeZero (256 ^ 4 : ℕ) := ⟨by decide⟩
instance neZero_eight : NeZero (256 ^ 8 : ℕ) := ⟨by decide⟩

/-- The `w` low bytes of a number, least significant first. -/
def digits : ℕ → ℕ → List (Fin 256)
  | 0, _ => []
  | w + 1, n => Fin.ofNat 256 n :: digits w (n / 256)

/-- The number with the given bytes, least significant first. -/
def value : List (Fin 256) → ℕ
  | [] => 0
  | b :: bs => b.val + 256 * value bs

@[simp] theorem length_digits (w n : ℕ) : (digits w n).length = w := by
  induction w generalizing n with
  | zero => rfl
  | succ w ih => simp [digits, ih]

theorem value_digits (w n : ℕ) : value (digits w n) = n % 256 ^ w := by
  induction w generalizing n with
  | zero => simp [digits, value, Nat.mod_one]
  | succ w ih => rw [digits, value, ih, pow_succ', Nat.mod_mul, Fin.val_ofNat]

variable {w : ℕ}

def toLe (n : Word w) : List (Fin 256) := digits w n

def ofLe (bs : List (Fin 256)) : Word w := Fin.ofNat (256 ^ w) (value bs)

def max : Word w := Fin.ofNat (256 ^ w) (256 ^ w - 1)

@[simp] theorem length_toLe (n : Word w) : n.toLe.length = w := length_digits w n

@[simp] theorem ofLe_toLe (n : Word w) : ofLe n.toLe = n := by
  apply Fin.ext
  rw [ofLe, toLe, Fin.val_ofNat, value_digits, Nat.mod_mod, Nat.mod_eq_of_lt n.isLt]

def ofNat (n : ℕ) : Word w := Fin.ofNat (256 ^ w) n

theorem val_ofNat_of_lt {n : ℕ} (h : n < 256 ^ w) : (ofNat n : Word w).val = n :=
  Nat.mod_eq_of_lt h

/-- A length as a word, when it fits: the checked narrowing of an encoder. -/
def ofLength? (n : ℕ) : Option (Word w) := if h : n < 256 ^ w then some ⟨n, h⟩ else none

theorem ofLength?_eq_some {n : ℕ} {x : Word w} (h : ofLength? n = some x) : x.val = n := by
  unfold ofLength? at h
  split at h
  · cases h; rfl
  · cases h

end Word

section Slices

variable {α : Type} (xs ys : List α) {a b : ℕ}

/-- The elements from offset `a` up to offset `b`. -/
def slice (xs : List α) (a b : ℕ) : List α := (xs.drop a).take (b - a)

theorem slice_append_of_le (h : b ≤ xs.length) : slice (xs ++ ys) a b = slice xs a b := by
  rw [slice, slice]
  rcases Nat.le_total a xs.length with ha | ha
  · rw [List.drop_append_of_le_length ha, List.take_append_of_le_length (by simp; omega)]
  · simp [Nat.sub_eq_zero_of_le (h.trans ha)]

theorem slice_append_of_ge (h : xs.length ≤ a) :
    slice (xs ++ ys) a b = slice ys (a - xs.length) (b - xs.length) := by
  rw [slice, slice, List.drop_append, List.drop_eq_nil_of_le h, List.nil_append]
  congr 1
  omega

theorem slice_skip {n : ℕ} (hn : xs.length = n) (h : n ≤ a) :
    slice (xs ++ ys) a b = slice ys (a - n) (b - n) := by
  subst hn
  exact slice_append_of_ge xs ys h

theorem slice_append_at (b : ℕ) : slice (xs ++ ys) xs.length (xs.length + b) = slice ys 0 b := by
  rw [slice_append_of_ge _ _ le_rfl, Nat.sub_self, Nat.add_sub_cancel_left]

theorem slice_front (h : xs.length = b) : slice (xs ++ ys) 0 b = xs := by
  subst h
  simp [slice]

theorem slice_all (h : xs.length ≤ b) : slice xs 0 b = xs := by
  simp [slice, h]

theorem length_slice_le (h : b ≤ xs.length) : (slice xs a b).length = b - a := by
  simp only [slice, List.length_take, List.length_drop]
  omega

end Slices

end OmenDb
