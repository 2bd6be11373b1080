import OmenDb.Sql.Coerce
import OmenDb.Lib.Trap

/-! The exact numeric types: comparison across them and arithmetic on them, each against the rational
numbers the values stand for. The operators the source leaves unchecked run a second time in a model
where a result outside its machine type has no value, as in a build that traps on overflow. -/
namespace OmenDb.Sql

inductive Numeric
  | i64 (v : I64)
  | u64 (v : U64)
  | decimal (v : DecimalValue)

namespace Numeric

def value : Numeric → Value
  | i64 v => .i64 v
  | u64 v => .u64 v
  | decimal v => .decimal v

def toRat : Numeric → ℚ
  | i64 v => v.val
  | u64 v => v.val
  | decimal v => v.toRat

def isDecimal : Numeric → Bool
  | decimal _ => true
  | _ => false

def isUnsigned : Numeric → Bool
  | u64 _ => true
  | _ => false

def mantissa : Numeric → ℤ
  | i64 v => v.val
  | u64 v => v.val
  | decimal v => v.mantissa

def scale : Numeric → ℕ
  | decimal v => v.scale
  | _ => 0

theorem toRat_eq (n : Numeric) : n.toRat = n.mantissa / 10 ^ n.scale := by
  cases n <;> simp [toRat, mantissa, scale, Decimal.toRat]

end Numeric

/-- `PartialEq for DecimalValue`. -/
def DecimalValue.same (l r : DecimalValue) : Bool := l.order r == .eq

/-- `Hash for DecimalValue`, over the two writes a hasher offers for the fields. -/
def DecimalValue.hash {H : Type} (writeI128 : ℤ → H → H) (writeU32 : ℕ → H → H) (d : DecimalValue) (state : H) : H :=
  writeU32 d.normalized.scale (writeI128 d.normalized.mantissa state)

theorem Numeric.valueCmp_eq [Host] (a b : Numeric) : valueCmp a.value b.value = some (cmp a.toRat b.toRat) := by
  have hexact : ∀ n : Numeric, n.value.isFloat = false ∧ n.value ≠ .null ∧ n.value.family = 3 ∧
      n.value.place = [n.toRat] := fun n => by
    cases n <;> simp [Numeric.value, Value.isFloat, Value.family, Value.place, Numeric.toRat]
  obtain ⟨ha, hanull, hafamily, haplace⟩ := hexact a
  obtain ⟨hb, hbnull, hbfamily, hbplace⟩ := hexact b
  have hfamily : a.value.family = b.value.family := hafamily.trans hbfamily.symm
  rw [Sql.valueCmp_eq ha hb, if_neg (by simp [hanull, hbnull, hfamily]), Value.cmp_rank hfamily, haplace, hbplace,
    cmp_singleton]

theorem DecimalValue.same_iff (l r : DecimalValue) : l.same r = true ↔ l.normalized = r.normalized := by
  rw [Decimal.normalized_eq_iff, DecimalValue.same, DecimalValue.order_eq, beq_iff_eq, cmp_eq_eq_iff]

theorem DecimalValue.hash_eq_iff (l r : DecimalValue) :
    (∀ (H : Type) (writeI128 : ℤ → H → H) (writeU32 : ℕ → H → H) (state : H),
      l.hash writeI128 writeU32 state = r.hash writeI128 writeU32 state) ↔ l.normalized = r.normalized := by
  constructor
  · intro h
    have hfields := h (List (ℤ ⊕ ℕ)) (fun n written => .inl n :: written) (fun n written => .inr n :: written) []
    simp only [DecimalValue.hash, List.cons.injEq, Sum.inr.injEq, Sum.inl.injEq, and_true] at hfields
    cases hl : l.normalized
    cases hr : r.normalized
    simp_all
  · intro h H writeI128 writeU32 state
    rw [DecimalValue.hash, DecimalValue.hash, h]

/-- Values of the three exact types compare as the numbers they stand for, so their order is total and
transitive; decimals have the same order, and their equality and hashing are those of the normal form. -/
theorem numeric_comparison_exact [Host] :
    (∀ a b : Numeric, valueCmp a.value b.value = some (cmp a.toRat b.toRat)) ∧
    (∀ a b : Numeric, valueCmp a.value b.value ≠ some .gt ∨ valueCmp b.value a.value ≠ some .gt) ∧
    (∀ a b c : Numeric, valueCmp a.value b.value ≠ some .gt → valueCmp b.value c.value ≠ some .gt →
      valueCmp a.value c.value ≠ some .gt) ∧ ∀ l r : DecimalValue,
      valueCmp (.decimal l) (.decimal r) = some (l.order r) ∧
      l.order r = cmp l.toRat r.toRat ∧
      (l.same r = true ↔ l.order r = .eq) ∧
      (l.same r = true ↔ l.normalized = r.normalized) ∧
      ((∀ (H : Type) (writeI128 : ℤ → H → H) (writeU32 : ℕ → H → H) (state : H),
        l.hash writeI128 writeU32 state = r.hash writeI128 writeU32 state) ↔ l.same r = true) := by
  have hle : ∀ a b : Numeric, valueCmp a.value b.value ≠ some .gt ↔ a.toRat ≤ b.toRat := fun a b => by
    rw [a.valueCmp_eq b, ne_eq, Option.some.injEq, cmp_eq_gt_iff, not_lt]
  refine ⟨Numeric.valueCmp_eq, fun a b => ?_, fun a b c hab hbc => ?_, fun l r =>
    ⟨?_, l.order_eq r, ?_, l.same_iff r, ?_⟩⟩
  · rw [hle, hle]
    exact le_total _ _
  · rw [hle] at hab hbc ⊢
    exact hab.trans hbc
  · rw [valueCmp]
  · rw [DecimalValue.same, beq_iff_eq]
  · rw [l.same_iff r, l.hash_eq_iff r]

/-- The integer an operator stands for; quotients are truncated, and there are none by zero. -/
def exactInteger : ArithmeticOperator → ℤ → ℤ → Option ℤ
  | .add, l, r => some (l + r)
  | .subtract, l, r => some (l - r)
  | .multiply, l, r => some (l * r)
  | .divide, l, r => if r = 0 then none else some (l.tdiv r)
  | .modulo, l, r => if r = 0 then none else some (l.tmod r)

/-- What a decimal result has to do with the operands: a quotient is rounded at the scale of the
dividend plus the digits of the divisor plus four. -/
def DecimalExact (op : ArithmeticOperator) (a b : Numeric) (d : DecimalValue) : Prop :=
  match op with
  | .add => d.toRat = a.toRat + b.toRat
  | .subtract => d.toRat = a.toRat - b.toRat
  | .multiply => d.toRat = a.toRat * b.toRat
  | .divide => b.toRat ≠ 0 ∧ d.scale = a.scale + DecimalValue.digitCount b.mantissa + 4 ∧
      d.toRat = Decimal.roundAt d.scale (a.toRat / b.toRat)
  | .modulo => False

def integerResult (unsigned : Bool) (n : ℤ) : Option Value :=
  if unsigned then (U64.tryFrom n).map .u64 else (I64.tryFrom n).map .i64

variable {unsigned : Bool} {n l r m : ℤ} {v : Value} {op : ArithmeticOperator} {k target s : ℕ} {d e : DecimalValue}
  {a b : Numeric}

theorem integerResult_of_overflow (h : checkedI128 n = none) : integerResult unsigned n = none := by
  unfold checkedI128 i128Min i128Max at h
  split at h
  · cases h
  · unfold integerResult U64.tryFrom I64.tryFrom
    split <;> rw [dif_neg (by omega)] <;> rfl

theorem integerArithmetic_add_zero :
    integerArithmetic .add unsigned n 0 = .ok v ↔ integerResult unsigned n = some v := by
  simp only [integerArithmetic, add_zero]
  cases hn : checkedI128 n with
  | none => simp [integerResult_of_overflow hn]
  | some m =>
    obtain rfl : m = n := by
      unfold checkedI128 at hn
      split at hn
      · exact (Option.some.inj hn).symm
      · cases hn
    unfold integerResult
    cases unsigned with
    | true => cases hu : U64.tryFrom m <;> simp [hu]
    | false => cases hi : I64.tryFrom m <;> simp [hi]

theorem integerArithmetic_of_exact
    (h : exactInteger op l r = some n) : integerArithmetic op unsigned l r = integerArithmetic .add unsigned n 0 := by
  cases op with
  | add | subtract | multiply =>
    cases h
    simp only [integerArithmetic, add_zero]
  | divide | modulo =>
    simp only [exactInteger] at h
    split at h
    · cases h
    · rename_i hr
      cases h
      simp only [integerArithmetic, hr, if_false, add_zero]

theorem integerArithmetic_eq_ok_iff :
    integerArithmetic op unsigned l r = .ok v ↔
      ∃ n, exactInteger op l r = some n ∧ integerResult unsigned n = some v := by
  cases hexact : exactInteger op l r with
  | some n => simp [integerArithmetic_of_exact hexact, integerArithmetic_add_zero]
  | none =>
    -- only a zero divisor leaves no exact result
    obtain ⟨hop, rfl⟩ : (op = .divide ∨ op = .modulo) ∧ r = 0 := by
      cases op <;> simp [exactInteger] at hexact <;> simp [hexact]
    rcases hop with rfl | rfl <;> simp [integerArithmetic]

theorem integerResult_eq_some_iff :
    integerResult unsigned n = some v ↔
      ∃ c : Numeric, v = c.value ∧ c.isDecimal = false ∧ c.isUnsigned = unsigned ∧ c.mantissa = n := by
  constructor
  · intro h
    cases unsigned with
    | true =>
      simp only [integerResult, if_true, U64.tryFrom, Option.map_eq_some_iff] at h
      obtain ⟨u, hu, rfl⟩ := h
      split at hu
      · cases hu
        exact ⟨.u64 _, rfl, rfl, rfl, by simp only [Numeric.mantissa]; omega⟩
      · cases hu
    | false =>
      simp only [integerResult, Bool.false_eq_true, if_false, I64.tryFrom, Option.map_eq_some_iff] at h
      obtain ⟨i, hi, rfl⟩ := h
      split at hi
      · cases hi
        exact ⟨.i64 _, rfl, rfl, rfl, rfl⟩
      · cases hi
  · rintro ⟨c, rfl, hexact, rfl, rfl⟩
    cases c with
    | i64 i =>
      have hi := i.property
      norm_num at hi
      simp [integerResult, Numeric.isUnsigned, Numeric.mantissa, Numeric.value, I64.tryFrom, hi]
    | u64 u => simp [integerResult, Numeric.isUnsigned, Numeric.mantissa, Numeric.value, U64.tryFrom]
    | decimal d => cases hexact

theorem DecimalValue.checkedPowTen_eq_some (h : checkedPowTen k = some n) : n = 10 ^ k := by
  unfold checkedPowTen at h
  split at h
  · exact (Option.some.inj h).symm
  · cases h

/-- A power of ten is even, so half of it is met when twice the remainder reaches it. -/
theorem half_le_iff (hk : 0 < k) (m : ℤ) :
    ((10 : ℤ) ^ k).tdiv 2 ≤ |m| ↔ ((10 : ℤ) ^ k).natAbs ≤ m.natAbs * 2 := by
  obtain ⟨j, rfl⟩ := Nat.exists_eq_succ_of_ne_zero hk.ne'
  have heven : (10 : ℤ) ^ (j + 1) = 2 * (5 * 10 ^ j) := by ring
  have hpos : (0 : ℤ) < 10 ^ j := by positivity
  rw [Nat.succ_eq_add_one, heven, Int.mul_tdiv_cancel_left _ (by norm_num), Int.abs_eq_natAbs]
  omega

theorem DecimalValue.rescale_finer (hfiner : d.scale ≤ target)
    (h : d.rescale target = .ok e) : e.scale = target ∧ e.toRat = d.toRat := by
  unfold DecimalValue.rescale at h
  rw [if_pos hfiner] at h
  cases hpow : checkedPowTen (target - d.scale) with
  | none => simp [hpow] at h
  | some factor =>
    cases hmul : checkedMul d.mantissa factor with
    | none => simp [hpow, hmul] at h
    | some mantissa =>
      simp only [hpow, hmul] at h
      obtain ⟨hmantissa, hscale⟩ := new_eq_ok h
      refine ⟨hscale, ?_⟩
      rw [Decimal.toRat, Decimal.toRat, hmantissa, hscale, checkedMul_eq_some hmul, checkedPowTen_eq_some hpow,
        div_eq_div_iff (by positivity) (by positivity)]
      push_cast
      rw [mul_assoc, ← pow_add, Nat.sub_add_cancel hfiner]

theorem DecimalValue.rescale_coarser (hcoarser : target < d.scale)
    (h : d.rescale target = .ok e) : e.scale = target ∧ e.toRat = Decimal.roundAt target d.toRat := by
  unfold DecimalValue.rescale at h
  rw [if_neg (by omega)] at h
  cases hpow : checkedPowTen (d.scale - target) with
  | none => simp [hpow] at h
  | some divisor =>
    simp only [hpow] at h
    obtain rfl := checkedPowTen_eq_some hpow
    obtain ⟨hmantissa, hscale⟩ := new_eq_ok h
    have hpositive : (0 : ℤ) < 10 ^ (d.scale - target) := by positivity
    have hunits : d.toRat * 10 ^ target = (d.mantissa : ℚ) / ((10 ^ (d.scale - target) : ℤ) : ℚ) := by
      have hsplit : (10 : ℚ) ^ d.scale = 10 ^ target * 10 ^ (d.scale - target) := by
        rw [← pow_add]
        congr 1
        omega
      rw [d.mantissa_eq, hsplit]
      push_cast
      field_simp
    refine ⟨hscale, ?_⟩
    rw [Decimal.toRat, Decimal.roundAt, hmantissa, hscale, hunits, ← Decimal.roundHalfAway_tdiv _ hpositive.ne',
      Int.sign_eq_one_of_pos hpositive, mul_one]
    simp only [half_le_iff (by omega : 0 < d.scale - target)]

theorem DecimalValue.rescale_eq_ok (h : d.rescale target = .ok e) :
    e.scale = target ∧ e.toRat = Decimal.roundAt target d.toRat := by
  by_cases hfiner : d.scale ≤ target
  · obtain ⟨hscale, hsame⟩ := rescale_finer hfiner h
    refine ⟨hscale, ?_⟩
    rw [Decimal.roundAt, ← hsame, ← hscale, ← e.mantissa_eq, Decimal.roundHalfAway_intCast, Decimal.toRat]
  · exact rescale_coarser (not_le.mp hfiner) h

theorem sqlDecimal_value (a : Numeric) :
    ∃ d, sqlDecimal a.value = .ok d ∧ d.mantissa = a.mantissa ∧ d.scale = a.scale := by
  -- an integer of 64 bits has at most twenty digits
  have hinteger : ∀ n : ℤ, n.natAbs < 10 ^ 20 → ∃ d, DecimalValue.new n 0 = .ok d ∧ d.mantissa = n ∧ d.scale = 0 := by
    intro n hn
    have hdigits : DecimalValue.digitCount n ≤ 20 := (Nat.digits_length_le_iff (by norm_num) _).mpr hn
    rw [DecimalValue.new, if_neg (Nat.not_lt_zero _), dif_pos (by unfold decimalMaxPrecision; omega)]
    exact ⟨_, rfl, rfl, rfl⟩
  cases a with
  | i64 v => exact hinteger v.val (by have := v.property; omega)
  | u64 v => exact hinteger v.val (by have := v.isLt; omega)
  | decimal d => exact ⟨d, rfl, rfl, rfl⟩

theorem toRat_of_parts (hm : d.mantissa = a.mantissa) (hs : d.scale = a.scale) : d.toRat = a.toRat := by
  rw [Decimal.toRat, a.toRat_eq, hm, hs]

theorem toRat_of_new (h : DecimalValue.new m s = .ok d) : d.toRat = m / 10 ^ s := by
  obtain ⟨hm, hs⟩ := DecimalValue.new_eq_ok h
  rw [Decimal.toRat, hm, hs]

theorem decimalDivide_eq_ok {l r : DecimalValue} (h : decimalDivide l r = .ok v) :
    ∃ d, v = .decimal d ∧ r.mantissa ≠ 0 ∧ d.scale = l.scale + DecimalValue.digitCount r.mantissa + 4 ∧
      d.toRat = Decimal.roundAt d.scale (l.toRat / r.toRat) := by
  unfold decimalDivide at h
  split at h
  · cases h
  · rename_i hr
    generalize hscale : l.scale + DecimalValue.digitCount r.mantissa + 4 = scale at h
    cases hpow : DecimalValue.checkedPowTen (scale + r.scale - l.scale) with
    | none => simp [hpow] at h
    | some factor =>
      cases hmul : DecimalValue.checkedMul l.mantissa factor with
      | none => simp [hpow, hmul] at h
      | some numerator =>
        simp only [hpow, hmul, Decimal.roundHalfAway_tdiv numerator hr] at h
        obtain ⟨d, hnew, hd⟩ := bind_eq_ok.mp h
        cases hd
        obtain ⟨hmantissa, hdscale⟩ := DecimalValue.new_eq_ok hnew
        refine ⟨d, rfl, hr, hdscale, ?_⟩
        -- the numerator over the divisor's mantissa is the quotient in units of the target scale
        have hunits : l.toRat / r.toRat * 10 ^ scale = (numerator : ℚ) / r.mantissa := by
          have hshift : (10 : ℚ) ^ (scale + r.scale - l.scale) * 10 ^ l.scale = 10 ^ scale * 10 ^ r.scale := by
            rw [← pow_add, ← pow_add]
            congr 1
            omega
          have hne : (r.mantissa : ℚ) ≠ 0 := by exact_mod_cast hr
          rw [DecimalValue.checkedMul_eq_some hmul, DecimalValue.checkedPowTen_eq_some hpow, Decimal.toRat,
            Decimal.toRat]
          push_cast
          field_simp
          linear_combination (-(l.mantissa : ℚ)) * hshift
        rw [Decimal.roundAt, hdscale, hunits, Decimal.toRat, hmantissa, hdscale]

theorem decimal_of_checked (h : (match checkedI128 m with
      | none => (.error (outOfRange "arithmetic") : DbResult Value)
      | some mantissa => do return .decimal (← DecimalValue.new mantissa s)) = .ok v) :
    ∃ d, v = .decimal d ∧ d.toRat = m / 10 ^ s := by
  unfold checkedI128 at h
  split at h
  · cases h
  · rename_i mantissa hm
    split at hm
    · cases hm
      obtain ⟨d, hnew, hd⟩ := bind_eq_ok.mp h
      cases hd
      exact ⟨d, rfl, toRat_of_new hnew⟩
    · cases hm

theorem decimalArithmetic_eq_ok {l r : DecimalValue}
    (hlm : l.mantissa = a.mantissa) (hls : l.scale = a.scale) (hrm : r.mantissa = b.mantissa) (hrs : r.scale = b.scale)
    (h : decimalArithmetic op l r = .ok v) : ∃ d, v = .decimal d ∧ DecimalExact op a b d := by
  have hl := toRat_of_parts hlm hls
  have hr := toRat_of_parts hrm hrs
  -- operands brought to the larger scale keep their value
  have haligned : ∀ {d e : DecimalValue}, d.scale ≤ max l.scale r.scale → d.rescale (max l.scale r.scale) = .ok e →
      (e.mantissa : ℚ) / 10 ^ max l.scale r.scale = d.toRat := by
    intro d e hs he
    obtain ⟨hscale, hsame⟩ := DecimalValue.rescale_finer hs he
    rw [← hsame, Decimal.toRat, hscale]
  cases op with
  | add =>
    obtain ⟨l', hl', h⟩ := bind_eq_ok.mp h
    obtain ⟨r', hr', h⟩ := bind_eq_ok.mp h
    obtain ⟨d, rfl, hd⟩ := decimal_of_checked h
    refine ⟨d, rfl, ?_⟩
    rw [DecimalExact, hd, Int.cast_add, add_div, haligned (le_max_left _ _) hl',
      haligned (le_max_right _ _) hr', hl, hr]
  | subtract =>
    obtain ⟨l', hl', h⟩ := bind_eq_ok.mp h
    obtain ⟨r', hr', h⟩ := bind_eq_ok.mp h
    obtain ⟨d, rfl, hd⟩ := decimal_of_checked h
    refine ⟨d, rfl, ?_⟩
    rw [DecimalExact, hd, Int.cast_sub, sub_div, haligned (le_max_left _ _) hl',
      haligned (le_max_right _ _) hr', hl, hr]
  | multiply =>
    obtain ⟨d, rfl, hd⟩ := decimal_of_checked h
    refine ⟨d, rfl, ?_⟩
    rw [DecimalExact, hd, Int.cast_mul, pow_add, mul_div_mul_comm, ← hl, ← hr, Decimal.toRat, Decimal.toRat]
  | divide =>
    obtain ⟨d, rfl, hne, hscale, hvalue⟩ := decimalDivide_eq_ok h
    refine ⟨d, rfl, ?_, by rw [hscale, hls, hrm], by rw [hvalue, hl, hr]⟩
    rw [← hr, Decimal.toRat]
    have : (r.mantissa : ℚ) ≠ 0 := by exact_mod_cast hne
    positivity
  | modulo => cases h

/-- `u32::try_from`. -/
def tryU32 (error : DbError) (n : ℤ) : Trap DbError ℕ :=
  Trap.orElse error (if 0 ≤ n ∧ n < 2 ^ 32 then some n.toNat else none)

namespace DecimalValue

/-- `rescale` with its unchecked operators. -/
def rescaleRaw (d : DecimalValue) (target : ℕ) : Trap DbError DecimalValue :=
  if d.scale ≤ target then do
    let shift ← if d.scale ≤ target then pure (target - d.scale) else Trap.trap
    let factor ← Trap.orElse (overflow "rescale") (checkedPowTen shift)
    let mantissa ← Trap.orElse (overflow "rescale") (checkedMul d.mantissa factor)
    Trap.reported (new mantissa target)
  else do
    let shift ← if target ≤ d.scale then pure (d.scale - target) else Trap.trap
    let divisor ← Trap.orElse (overflow "rescale") (checkedPowTen shift)
    let quotient ← Trap.quotient 128 d.mantissa divisor
    let remainder ← Trap.remainder 128 d.mantissa divisor
    let half ← Trap.quotient 128 divisor 2
    let size ← Trap.signed 128 |remainder|
    let rounded ← if half ≤ size then Trap.signed 128 (quotient + d.mantissa.sign) else pure quotient
    Trap.reported (new rounded target)

theorem natAbs_lt (d : DecimalValue) : d.mantissa.natAbs < 10 ^ 38 := d.mantissa_lt

theorem rescaleRaw_eq (d : DecimalValue) (target : ℕ) : d.rescaleRaw target = Trap.reported (d.rescale target) := by
  unfold rescaleRaw rescale
  by_cases hfiner : d.scale ≤ target
  · simp only [if_pos hfiner, pure_bind]
    cases checkedPowTen (target - d.scale) with
    | none => rfl
    | some factor =>
      simp only [Trap.orElse_some, pure_bind]
      cases checkedMul d.mantissa factor with
      | none => rfl
      | some mantissa => rfl
  · simp only [if_neg hfiner, if_pos (not_le.mp hfiner).le, pure_bind]
    cases hpow : checkedPowTen (d.scale - target) with
    | none => rfl
    | some divisor =>
      have hbound := d.natAbs_lt
      have hdivisor : 0 < divisor ∧ divisor.natAbs < 2 ^ 127 := by
        have hten := checkedPowTen_eq_some hpow
        refine ⟨hten ▸ by positivity, ?_⟩
        unfold checkedPowTen i128Max at hpow
        split at hpow
        · have : (0 : ℤ) < 10 ^ (d.scale - target) := by positivity
          omega
        · cases hpow
      have hquotient : (d.mantissa.tdiv divisor).natAbs ≤ d.mantissa.natAbs := by
        rw [Int.natAbs_tdiv]
        exact Nat.div_le_self _ _
      have hremainder : (d.mantissa.tmod divisor).natAbs ≤ d.mantissa.natAbs := by
        rw [Int.natAbs_tmod]
        exact Nat.mod_le _ _
      have hsign := Trap.natAbs_sign_le d.mantissa
      simp only [Trap.orElse_some, pure_bind, Trap.quotient_eq (w := 128)
        (by omega : d.mantissa.natAbs < 2 ^ 127) hdivisor.1.ne',
        Trap.remainder_eq (w := 128) (by omega : d.mantissa.natAbs < 2 ^ 127) hdivisor.1.ne',
        Trap.quotient_eq (w := 128) hdivisor.2 two_ne_zero,
        Trap.signed_eq (w := 128) (by rw [Int.natAbs_abs]; omega : |d.mantissa.tmod divisor|.natAbs < 2 ^ 127),
        Trap.signed_eq (w := 128) (by omega : (d.mantissa.tdiv divisor + d.mantissa.sign).natAbs < 2 ^ 127)]
      split <;> rfl

end DecimalValue

/-- `decimal_divide` with its unchecked operators. -/
def decimalDivideRaw (l r : DecimalValue) : Trap DbError Value :=
  if r.mantissa = 0 then Trap.reported (.error .sqlDivisionByZero)
  else do
    let digits ← Trap.signed 64 (l.scale + DecimalValue.digitCount r.mantissa)
    let targetScale ← Trap.signed 64 (digits + 4)
    let raised ← Trap.signed 64 (targetScale + r.scale)
    let shift ← tryU32 (outOfRange "numeric division") (← Trap.signed 64 (raised - l.scale))
    let factor ← Trap.orElse (outOfRange "numeric division") (DecimalValue.checkedPowTen shift)
    let numerator ← Trap.orElse (outOfRange "numeric division") (DecimalValue.checkedMul l.mantissa factor)
    let quotient ← Trap.quotient 128 numerator r.mantissa
    let remainder ← Trap.remainder 128 numerator r.mantissa
    let twice ← Trap.unsigned 128 (remainder.natAbs * 2)
    let rounded ← if (r.mantissa.natAbs : ℤ) ≤ twice then do
        Trap.signed 128 (quotient + (← Trap.signed 128 (numerator.sign * r.mantissa.sign)))
      else pure quotient
    let scale ← tryU32 (outOfRange "numeric division") targetScale
    return .decimal (← Trap.reported (DecimalValue.new rounded scale))

/-- Five divides the numerator, so it is not the one `i128` without an opposite. -/
theorem numerator_natAbs_lt (hk : 0 < k) {factor numerator : ℤ}
    (hpow : DecimalValue.checkedPowTen k = some factor) (hmul : DecimalValue.checkedMul m factor = some numerator) :
    numerator.natAbs < 2 ^ 127 := by
  have hnumerator := DecimalValue.checkedMul_eq_some hmul
  obtain ⟨j, rfl⟩ := Nat.exists_eq_succ_of_ne_zero hk.ne'
  rw [DecimalValue.checkedPowTen_eq_some hpow, pow_succ] at hnumerator
  have hfive : (5 : ℤ) ∣ numerator := ⟨m * 10 ^ j * 2, by rw [hnumerator]; ring⟩
  unfold DecimalValue.checkedMul i128Min i128Max at hmul
  split at hmul
  · cases hmul
    omega
  · cases hmul

theorem rounded_natAbs_lt (hn : n.natAbs < 2 ^ 127) (hr : r ≠ 0) (h : r.natAbs ≤ (n.tmod r).natAbs * 2) :
    (n.tdiv r + n.sign * r.sign).natAbs < 2 ^ 127 := by
  have hstep : (n.sign * r.sign).natAbs ≤ 1 := by
    rw [Int.natAbs_mul]
    exact Nat.mul_le_mul (Trap.natAbs_sign_le n) (Trap.natAbs_sign_le r)
  have htwo : 2 ≤ r.natAbs := by
    by_contra hone
    have : r.natAbs = 1 := by omega
    rw [Int.natAbs_tmod, this, Nat.mod_one] at h
    omega
  have hquotient : (n.tdiv r).natAbs ≤ n.natAbs / 2 := by
    rw [Int.natAbs_tdiv]
    exact Nat.div_le_div_left htwo (by norm_num)
  omega

theorem digitCount_le (d : DecimalValue) : DecimalValue.digitCount d.mantissa ≤ 38 :=
  (Nat.digits_length_le_iff (by norm_num) _).mpr d.natAbs_lt

theorem decimalDivideRaw_eq (l r : DecimalValue) : decimalDivideRaw l r = Trap.reported (decimalDivide l r) := by
  unfold decimalDivideRaw decimalDivide
  by_cases hr : r.mantissa = 0
  · rw [if_pos hr, if_pos hr]
  · rw [if_neg hr, if_neg hr]
    have hls : l.scale ≤ 38 := l.scale_le
    have hrs : r.scale ≤ 38 := r.scale_le
    have hdigits := digitCount_le r
    have hsmall : ∀ n : ℤ, 0 ≤ n → n ≤ 200 → (Trap.signed 64 n : Trap DbError ℤ) = pure n := fun n h0 h1 =>
      Trap.within_eq (by omega) (by omega)
    have hu32 : ∀ n : ℤ, 0 ≤ n → n ≤ 200 → tryU32 (outOfRange "numeric division") n = pure n.toNat :=
      fun n h0 h1 => by rw [tryU32, if_pos (by omega), Trap.orElse_some]
    dsimp only
    generalize hcount : DecimalValue.digitCount r.mantissa = count at hdigits ⊢
    rw [hsmall _ (by omega) (by omega), pure_bind, hsmall _ (by omega) (by omega), pure_bind,
      hsmall _ (by omega) (by omega), pure_bind, hsmall _ (by omega) (by omega), pure_bind,
      hu32 _ (by omega) (by omega), pure_bind]
    have hshift : ((l.scale : ℤ) + count + 4 + r.scale - l.scale).toNat = l.scale + count + 4 + r.scale - l.scale := by
      omega
    have hscale : ((l.scale : ℤ) + count + 4).toNat = l.scale + count + 4 := by omega
    rw [hshift]
    cases hpow : DecimalValue.checkedPowTen (l.scale + count + 4 + r.scale - l.scale) with
    | none => rfl
    | some factor =>
      rw [Trap.orElse_some, pure_bind]
      cases hmul : DecimalValue.checkedMul l.mantissa factor with
      | none =>
        simp only [hmul]
        rfl
      | some numerator =>
        have hnumerator := numerator_natAbs_lt (by omega) hpow hmul
        have hremainder : (numerator.tmod r.mantissa).natAbs < r.mantissa.natAbs := by
          rw [Int.natAbs_tmod]
          exact Nat.mod_lt _ (by omega)
        have hbound := r.natAbs_lt
        have hstep : (numerator.sign * r.mantissa.sign).natAbs ≤ 1 := by
          rw [Int.natAbs_mul]
          exact Nat.mul_le_mul (Trap.natAbs_sign_le _) (Trap.natAbs_sign_le _)
        have htwice : (Trap.unsigned 128 ((numerator.tmod r.mantissa).natAbs * 2) : Trap DbError ℤ) =
            pure ((numerator.tmod r.mantissa).natAbs * 2 : ℤ) := Trap.within_eq (by omega) (by omega)
        simp only [Trap.orElse_some, pure_bind, Trap.quotient_eq (w := 128) hnumerator hr,
          Trap.remainder_eq (w := 128) hnumerator hr, htwice,
          Trap.signed_eq (w := 128) (by omega : (numerator.sign * r.mantissa.sign).natAbs < 2 ^ 127),
          hu32 _ (by omega : (0 : ℤ) ≤ l.scale + count + 4) (by omega), hscale, hmul]
        by_cases hround : r.mantissa.natAbs ≤ (numerator.tmod r.mantissa).natAbs * 2
        · rw [if_pos (by exact_mod_cast hround), if_pos hround,
            Trap.signed_eq (w := 128) (rounded_natAbs_lt hnumerator hr hround), pure_bind]
          exact Trap.reported_bind _ _
        · rw [if_neg (by exact_mod_cast hround), if_neg hround]
          exact Trap.reported_bind _ _

/-- The decimal operators with the unchecked ones of the source. -/
def decimalArithmeticRaw (op : ArithmeticOperator) (l r : DecimalValue) : Trap DbError Value :=
  let finish (mantissa : Option ℤ) (scale : ℕ) : Trap DbError Value := do
    let mantissa ← Trap.orElse (outOfRange "arithmetic") mantissa
    return .decimal (← Trap.reported (DecimalValue.new mantissa scale))
  match op with
  | .add => do
    let l' ← l.rescaleRaw (max l.scale r.scale)
    let r' ← r.rescaleRaw (max l.scale r.scale)
    finish (checkedI128 (l'.mantissa + r'.mantissa)) (max l.scale r.scale)
  | .subtract => do
    let l' ← l.rescaleRaw (max l.scale r.scale)
    let r' ← r.rescaleRaw (max l.scale r.scale)
    finish (checkedI128 (l'.mantissa - r'.mantissa)) (max l.scale r.scale)
  | .multiply => do
    let scale ← Trap.unsigned 32 (l.scale + r.scale)
    finish (DecimalValue.checkedMul l.mantissa r.mantissa) scale.toNat
  | .divide => decimalDivideRaw l r
  | .modulo => Trap.reported (.error (.sqlUnsupported "arithmetic" "modulo is not defined for numeric operands"))

theorem decimalArithmeticRaw_eq (op : ArithmeticOperator) (l r : DecimalValue) :
    decimalArithmeticRaw op l r = Trap.reported (decimalArithmetic op l r) := by
  unfold decimalArithmeticRaw decimalArithmetic
  have hfinish : ∀ (mantissa : Option ℤ) (scale : ℕ),
      (do
        let mantissa ← Trap.orElse (outOfRange "arithmetic") mantissa
        return .decimal (← Trap.reported (DecimalValue.new mantissa scale)) : Trap DbError Value) =
      Trap.reported (match mantissa with
        | none => .error (outOfRange "arithmetic")
        | some mantissa => do return .decimal (← DecimalValue.new mantissa scale)) := by
    intro mantissa scale
    cases mantissa with
    | none => rfl
    | some mantissa =>
      rw [Trap.orElse_some, pure_bind]
      exact Trap.reported_bind _ _
  have hscale : (Trap.unsigned 32 (l.scale + r.scale) : Trap DbError ℤ) = pure ((l.scale + r.scale : ℕ) : ℤ) := by
    have hls : l.scale ≤ 38 := l.scale_le
    have hrs : r.scale ≤ 38 := r.scale_le
    rw [Nat.cast_add]
    exact Trap.within_eq (by omega) (by omega)
  cases op with
  | add | subtract =>
    -- the two scaled operands, one after the other
    dsimp only
    rw [DecimalValue.rescaleRaw_eq, DecimalValue.rescaleRaw_eq]
    refine Eq.trans (congrArg _ (funext fun l' => ?_)) (Trap.reported_bind _ _)
    exact Eq.trans (congrArg _ (funext fun r' => hfinish _ _)) (Trap.reported_bind _ _)
  | multiply =>
    simp only [hscale, pure_bind, Int.toNat_natCast]
    exact hfinish _ _
  | divide => exact decimalDivideRaw_eq l r
  | modulo => rfl

/-- `evaluate` on exact operands with the unchecked operators of the source; all operators on
integers are checked. -/
def evaluateRaw (op : ArithmeticOperator) (a b : Numeric) : Trap DbError Value :=
  if a.isDecimal || b.isDecimal then do
    decimalArithmeticRaw op (← Trap.reported (sqlDecimal a.value)) (← Trap.reported (sqlDecimal b.value))
  else Trap.reported (integerArithmetic op (a.isUnsigned && b.isUnsigned) a.mantissa b.mantissa)

theorem arithmetic_decimal [Host] (op : ArithmeticOperator) (h : (a.isDecimal || b.isDecimal) = true) :
    arithmetic op a.value b.value =
      (do decimalArithmetic op (← sqlDecimal a.value) (← sqlDecimal b.value)) := by
  cases a <;> cases b <;> first | cases h; done | rfl

theorem arithmetic_integer [Host] (op : ArithmeticOperator) (ha : a.isDecimal = false)
    (hb : b.isDecimal = false) : arithmetic op a.value b.value =
      integerArithmetic op (a.isUnsigned && b.isUnsigned) a.mantissa b.mantissa := by
  cases a <;> cases b <;> first | cases ha; done | cases hb; done | rfl

/-- Integer arithmetic succeeds exactly when the exact result has a value of the result type, and gives
it; decimal results are exact, quotients and rescaled values rounded half away from zero at their
scale; and no unchecked operator leaves its type. -/
theorem arithmetic_exact [Host] (op : ArithmeticOperator) :
    (∀ a b : Numeric, a.isDecimal = false → b.isDecimal = false → ∀ v, arithmetic op a.value b.value = .ok v ↔
      ∃ c : Numeric, v = c.value ∧ c.isDecimal = false ∧ c.isUnsigned = (a.isUnsigned && b.isUnsigned) ∧
        exactInteger op a.mantissa b.mantissa = some c.mantissa) ∧
    (∀ a b : Numeric, (a.isDecimal || b.isDecimal) = true → ∀ v, arithmetic op a.value b.value = .ok v →
      ∃ d, v = .decimal d ∧ DecimalExact op a b d) ∧
    (∀ (d e : DecimalValue) (target : ℕ), d.rescale target = .ok e →
      e.scale = target ∧ e.toRat = Decimal.roundAt target d.toRat) ∧
    (∀ a b : Numeric, evaluateRaw op a b = Trap.reported (arithmetic op a.value b.value)) ∧
    ∀ (d : DecimalValue) (target : ℕ), d.rescaleRaw target = Trap.reported (d.rescale target) := by
  refine ⟨fun a b ha hb v => ?_, fun a b hdecimal v h => ?_, fun d e target => DecimalValue.rescale_eq_ok,
    fun a b => ?_, DecimalValue.rescaleRaw_eq⟩
  · simp only [arithmetic_integer op ha hb, integerArithmetic_eq_ok_iff, integerResult_eq_some_iff]
    constructor
    · rintro ⟨n, hn, c, rfl, hc, hu, rfl⟩
      exact ⟨c, rfl, hc, hu, hn⟩
    · rintro ⟨c, rfl, hc, hu, hn⟩
      exact ⟨_, hn, c, rfl, hc, hu, rfl⟩
  · obtain ⟨l, hl, hlm, hls⟩ := sqlDecimal_value a
    obtain ⟨r, hr, hrm, hrs⟩ := sqlDecimal_value b
    rw [arithmetic_decimal op hdecimal, hl, hr] at h
    exact decimalArithmetic_eq_ok hlm hls hrm hrs h
  · unfold evaluateRaw
    cases hdecimal : a.isDecimal || b.isDecimal with
    | true =>
      rw [if_pos rfl, arithmetic_decimal op hdecimal]
      simp only [decimalArithmeticRaw_eq, Trap.reported_bind]
    | false =>
      rw [if_neg Bool.false_ne_true]
      obtain ⟨ha, hb⟩ := Bool.or_eq_false_iff.mp hdecimal
      rw [arithmetic_integer op ha hb]

end OmenDb.Sql
