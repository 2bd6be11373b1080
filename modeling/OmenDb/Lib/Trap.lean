import Mathlib

/-! Computations in fixed-width integers that trap on overflow. A computation ends in a value, in an
error it reports, or not at all, where an unchecked operation leaves its type or divides by zero. -/
namespace OmenDb

/-- `none` is a trap. -/
abbrev Trap (ε : Type) := ExceptT ε Option

namespace Trap

variable {ε α β : Type}

instance [DecidableEq ε] [DecidableEq α] : DecidableEq (Trap ε α) := inferInstanceAs (DecidableEq (Option (Except ε α)))

def trap : Trap ε α := ExceptT.mk none

def reported (x : Except ε α) : Trap ε α := ExceptT.mk (some x)

/-- A checked operation with the error its failure is reported as. -/
def orElse (error : ε) : Option α → Trap ε α
  | some a => pure a
  | none => reported (.error error)

/-- The result of an unchecked operation in the type from `lo` to `hi`. -/
def within (lo hi n : ℤ) : Trap ε ℤ := if lo ≤ n ∧ n ≤ hi then pure n else trap

def signed (w : ℕ) (n : ℤ) : Trap ε ℤ := within (-2 ^ (w - 1)) (2 ^ (w - 1) - 1) n

def unsigned (w : ℕ) (n : ℤ) : Trap ε ℤ := within 0 (2 ^ w - 1) n

def quotient (w : ℕ) (l r : ℤ) : Trap ε ℤ := if r = 0 then trap else signed w (l.tdiv r)

def remainder (w : ℕ) (l r : ℤ) : Trap ε ℤ :=
  if r = 0 ∨ (l = -2 ^ (w - 1) ∧ r = -1) then trap else pure (l.tmod r)

@[simp] theorem reported_ok (a : α) : (reported (.ok a) : Trap ε α) = pure a := rfl

@[simp] theorem orElse_some (error : ε) (a : α) : orElse error (some a) = pure a := rfl

@[simp] theorem trap_bind (f : α → Trap ε β) : (trap >>= f) = trap := rfl

@[simp] theorem error_bind (error : ε) (f : α → Trap ε β) : (reported (.error error) >>= f) = reported (.error error) :=
  rfl

theorem reported_inj {x y : Except ε α} : (reported x : Trap ε α) = reported y ↔ x = y := Option.some_inj

theorem reported_bind (x : Except ε α) (f : α → Except ε β) :
    (reported x >>= fun a => reported (f a)) = reported (x >>= f) := by
  cases x <;> rfl

theorem within_eq {lo hi n : ℤ} (hlo : lo ≤ n) (hhi : n ≤ hi) : (within lo hi n : Trap ε ℤ) = pure n :=
  if_pos ⟨hlo, hhi⟩

theorem signed_eq {w : ℕ} {n : ℤ} (h : n.natAbs < 2 ^ (w - 1)) : (signed w n : Trap ε ℤ) = pure n := by
  have hcast : |n| < 2 ^ (w - 1) := by
    rw [Int.abs_eq_natAbs]
    exact_mod_cast h
  obtain ⟨hlo, hhi⟩ := abs_lt.mp hcast
  exact within_eq hlo.le (by omega)

theorem quotient_eq {w : ℕ} {l r : ℤ} (hl : l.natAbs < 2 ^ (w - 1)) (hr : r ≠ 0) :
    (quotient w l r : Trap ε ℤ) = pure (l.tdiv r) := by
  rw [quotient, if_neg hr]
  refine signed_eq (lt_of_le_of_lt ?_ hl)
  rw [Int.natAbs_tdiv]
  exact Nat.div_le_self _ _

theorem remainder_eq {w : ℕ} {l r : ℤ} (hl : l.natAbs < 2 ^ (w - 1)) (hr : r ≠ 0) :
    (remainder w l r : Trap ε ℤ) = pure (l.tmod r) := by
  rw [remainder, if_neg]
  rintro (h | ⟨rfl, -⟩)
  · exact hr h
  · rw [Int.natAbs_neg, Int.natAbs_pow] at hl
    exact lt_irrefl _ hl

theorem natAbs_sign_le (n : ℤ) : n.sign.natAbs ≤ 1 := by
  rw [Int.natAbs_sign]
  split <;> omega

end Trap
end OmenDb
