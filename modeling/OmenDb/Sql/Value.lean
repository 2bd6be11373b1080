import OmenDb.Lib.Decimal
import OmenDb.Mvcc.Records

/-! Scalar values of the relational layer and the SQL comparison of two of them. Floats keep their
64 bits and their own total order; converting to a float, and every other service of the platform,
is a parameter, so nothing below depends on how it rounds. -/
namespace OmenDb.Sql

/-- A signed machine integer of `w` bits. -/
abbrev Signed (w : ℕ) := {n : ℤ // -(2 : ℤ) ^ (w - 1) ≤ n ∧ n < 2 ^ (w - 1)}

abbrev I64 := Signed 64
abbrev I32 := Signed 32
abbrev U64 := Fin (2 ^ 64)

instance U64.neZero : NeZero (2 ^ 64 : ℕ) := ⟨by decide⟩

theorem I64.zero_fits : -(2 : ℤ) ^ (64 - 1) ≤ 0 ∧ (0 : ℤ) < 2 ^ (64 - 1) := by decide
theorem I64.one_fits : -(2 : ℤ) ^ (64 - 1) ≤ 1 ∧ (1 : ℤ) < 2 ^ (64 - 1) := by decide
theorem I64.two_fits : -(2 : ℤ) ^ (64 - 1) ≤ 2 ∧ (2 : ℤ) < 2 ^ (64 - 1) := by decide
theorem I64.five_fits : -(2 : ℤ) ^ (64 - 1) ≤ 5 ∧ (5 : ℤ) < 2 ^ (64 - 1) := by decide

/-- `i64::try_from`, and the range check of every checked 64-bit operation. -/
def I64.tryFrom (n : ℤ) : Option I64 :=
  if h : -(2 : ℤ) ^ (64 - 1) ≤ n ∧ n < 2 ^ (64 - 1) then some ⟨n, h⟩ else none

def U64.tryFrom (n : ℤ) : Option U64 :=
  if h : 0 ≤ n ∧ n.toNat < 2 ^ 64 then some ⟨n.toNat, h.2⟩ else none

abbrev Uuid := {b : Bytes // b.length = 16}

structure F64 where
  bits : U64
  deriving DecidableEq

namespace F64

def isNan (f : F64) : Bool := decide (0x7ff0000000000000 < f.bits.val % 2 ^ 63)

def isZero (f : F64) : Bool := decide (f.bits.val % 2 ^ 63 = 0)

/-- The integer whose order is `total_cmp`. -/
def rank (f : F64) : ℤ := if f.bits.val < 2 ^ 63 then f.bits.val else 2 ^ 63 - 1 - f.bits.val

/-- `Ord for F64`: NaN equals itself and is greatest, the two zeros are equal. -/
def order (l r : F64) : Ordering :=
  match l.isNan, r.isNan with
  | true, true => .eq
  | true, false => .gt
  | false, true => .lt
  | false, false => if l.isZero && r.isZero then .eq else cmp l.rank r.rank

end F64

def decimalMaxPrecision : ℕ := 38

abbrev DecimalValue := Decimal decimalMaxPrecision

/-- The bounds of `i128`. -/
def i128Min : ℤ := -2 ^ 127
def i128Max : ℤ := 2 ^ 127 - 1

namespace DecimalValue

/-- `checked_mul` of two `i128` values. -/
def checkedMul (m n : ℤ) : Option ℤ := if i128Min ≤ m * n ∧ m * n ≤ i128Max then some (m * n) else none

/-- `Ord for DecimalValue`: align the smaller scale; an alignment that overflows is decided by
the sign of the side that was scaled up. -/
def order (l r : DecimalValue) : Ordering :=
  if l.scale = r.scale then cmp l.mantissa r.mantissa
  else if l.scale < r.scale then
    match checkedMul l.mantissa (10 ^ (r.scale - l.scale)) with
    | some aligned => cmp aligned r.mantissa
    | none => if 0 ≤ l.mantissa then .gt else .lt
  else
    match checkedMul r.mantissa (10 ^ (l.scale - r.scale)) with
    | some aligned => cmp l.mantissa aligned
    | none => if 0 ≤ r.mantissa then .lt else .gt

theorem order_of_overflow {m n : ℤ} (hn : 0 < n) (d : DecimalValue) (h : checkedMul m n = none) :
    cmp (m * n) d.mantissa = if 0 ≤ m then .gt else .lt := by
  have hd := d.mantissa_lt
  unfold checkedMul at h
  split at h
  · cases h
  · rename_i hout
    unfold i128Min i128Max at hout
    unfold decimalMaxPrecision at hd
    split
    · rename_i hm
      have := mul_nonneg hm hn.le
      exact (cmp_eq_gt_iff _ _).mpr (by omega)
    · rename_i hm
      have := mul_neg_of_neg_of_pos (not_le.mp hm) hn
      exact (cmp_eq_lt_iff _ _).mpr (by omega)

theorem checkedMul_eq_some {m n k : ℤ} (h : checkedMul m n = some k) : k = m * n := by
  unfold checkedMul at h
  split at h
  · exact (Option.some.inj h).symm
  · cases h

theorem order_aligned (l r : DecimalValue) (h : l.scale ≤ r.scale) :
    (match checkedMul l.mantissa (10 ^ (r.scale - l.scale)) with
      | some aligned => cmp aligned r.mantissa
      | none => if 0 ≤ l.mantissa then Ordering.gt else .lt) = cmp l.toRat r.toRat := by
  rw [← Decimal.cmp_aligned l r h]
  cases hc : checkedMul l.mantissa (10 ^ (r.scale - l.scale)) with
  | some k => rw [checkedMul_eq_some hc]
  | none => rw [order_of_overflow (by positivity) r hc]

theorem order_eq (l r : DecimalValue) : order l r = cmp l.toRat r.toRat := by
  unfold order
  split
  · rename_i h
    rw [← Decimal.cmp_aligned l r h.le, h]
    simp
  · split
    · rename_i h
      exact order_aligned l r h.le
    · rename_i hne h
      have hs : r.scale ≤ l.scale := by omega
      rw [← cmp_swap r.toRat, ← order_aligned r l hs]
      cases hc : checkedMul r.mantissa (10 ^ (l.scale - r.scale)) with
      | some k => simp [cmp_swap]
      | none => dsimp only; split <;> rfl

end DecimalValue

inductive ColumnType
  | bytes | bool | i64 | u64 | text | float64 | date | timestamp | decimal | uuid
  deriving DecidableEq, Repr

inductive Value
  | null
  | bytes (v : Bytes)
  | bool (v : Bool)
  | i64 (v : I64)
  | u64 (v : U64)
  | text (v : String)
  | float64 (v : F64)
  | date (v : I32)
  | timestamp (v : I64)
  | decimal (v : DecimalValue)
  | uuid (v : Uuid)
  deriving DecidableEq

namespace Value

def isNull : Value → Bool
  | null => true
  | _ => false

def isFloat : Value → Bool
  | float64 _ => true
  | _ => false

@[simp] theorem isNull_iff (v : Value) : v.isNull = true ↔ v = null := by cases v <;> simp [isNull]

/-- `Value::matches`: the value may stand in a column of the type. -/
def «matches» : Value → ColumnType → Bool
  | null, _ => true
  | bytes _, .bytes => true
  | bool _, .bool => true
  | i64 _, .i64 => true
  | u64 _, .u64 => true
  | text _, .text => true
  | float64 _, .float64 => true
  | date _, .date => true
  | timestamp _, .timestamp => true
  | decimal _, .decimal => true
  | uuid _, .uuid => true
  | _, _ => false

end Value

/-- `PartialEq for F64`. -/
def F64.same (l r : F64) : Bool :=
  match l.isNan, r.isNan with
  | true, true => true
  | false, false => decide (l = r) || (l.isZero && r.isZero)
  | _, _ => false

/-- `PartialEq for Value`: decimals are equal as numbers, other values by representation. -/
def Value.same : Value → Value → Bool
  | .decimal l, .decimal r => DecimalValue.order l r == .eq
  | .float64 l, .float64 r => l.same r
  | l, r => decide (l = r)

/-- The failures of the relational layer that the modelled paths report. -/
inductive DbError
  | invalidState (reason : String)
  | corruption (artifact reason : String)
  | valueTooLarge (length : ℕ)
  | uniqueViolation (index : ℕ) (key : Bytes)
  | foreignKeyViolation («constraint» table referencedTable : ℕ)
  | cascadeDepthExceeded («constraint» table : ℕ)
  | sqlUndefinedColumn (name : String)
  | sqlUnsupported (statement reason : String)
  | sqlDatatypeMismatch (column : String)
  | sqlNumericValueOutOfRange (reason : String)
  | sqlNotNullViolation (column : String)
  | sqlParameter (reason : String)
  | sqlDivisionByZero
  | resourceLimitExceeded (reason : String)
  deriving DecidableEq, Repr

abbrev DbResult := Except DbError

theorem DbResult.ok_eq_pure {α : Type} (a : α) : (.ok a : DbResult α) = pure a := rfl

theorem DbResult.bind_congr {α β : Type} {x : DbResult α} {f g : α → DbResult β}
    (h : ∀ a, x = .ok a → f a = g a) : (x >>= f) = x >>= g := by
  cases x with
  | error e => rfl
  | ok a => exact h a rfl

/-- What the platform supplies: float conversion and arithmetic, the text input grammars, and the
catalogue of scalar functions. -/
class Host where
  ofInt : ℤ → F64
  ofDecimal : DecimalValue → F64
  add : F64 → F64 → F64
  sub : F64 → F64 → F64
  mul : F64 → F64 → F64
  div : F64 → F64 → F64
  neg : F64 → F64
  parseFloat : String → Option F64
  parseDate : String → Option I32
  parseTimestamp : String → Option I64
  parseDecimal : String → Option DecimalValue
  parseUuid : String → Option Uuid
  scalarFunction : String → List Value → DbResult Value

/-- A platform without floats, text input or functions; enough to run what needs none of them. -/
@[reducible] def Host.bare : Host where
  ofInt _ := ⟨0⟩
  ofDecimal _ := ⟨0⟩
  add l _ := l
  sub l _ := l
  mul l _ := l
  div l _ := l
  neg l := l
  parseFloat _ := none
  parseDate _ := none
  parseTimestamp _ := none
  parseDecimal _ := none
  parseUuid _ := none
  scalarFunction _ _ := .error (.sqlUnsupported "function" "unknown function")

/-- `saturating_mul` at `i128`. -/
def saturate (n : ℤ) : ℤ := max i128Min (min i128Max n)

/-- `scaled_int`: an integer in units of `10 ^ -scale`. -/
def scaledInt (value : ℤ) (scale : ℕ) : ℤ := saturate (value * saturate (10 ^ scale))

theorem cmp_scaledInt (n : ℤ) (d : DecimalValue) :
    cmp (scaledInt n d.scale) d.mantissa = cmp (n : ℚ) d.toRat := by
  have hd := d.mantissa_lt
  have hs : (10 : ℤ) ^ d.scale ≤ 10 ^ 38 := by
    have := d.scale_le
    unfold decimalMaxPrecision at this
    gcongr
    norm_num
  have hpos : (0 : ℤ) < 10 ^ d.scale := by positivity
  have hsat : saturate (10 ^ d.scale) = 10 ^ d.scale := by
    unfold saturate i128Min i128Max
    norm_num at hs ⊢
    omega
  have hq : cmp (n * 10 ^ d.scale) d.mantissa = cmp (n : ℚ) d.toRat := by
    rw [Decimal.cmp_int_cast, ← Decimal.cmp_mul_right (c := 10 ^ d.scale) (by positivity) (n : ℚ)]
    congr 1
    · push_cast
      rfl
    · exact d.mantissa_eq
  rw [← hq, scaledInt, hsat]
  unfold saturate i128Min i128Max
  unfold decimalMaxPrecision at hd
  generalize n * 10 ^ d.scale = k
  generalize d.mantissa = m at hd
  have hm : m.natAbs < 10 ^ 38 := hd
  norm_num at hm ⊢
  exact cmp_congr (by omega) (by omega)

/-- `value_cmp`: the SQL comparison, undefined with a NULL and between unrelated types. -/
def valueCmp [Host] : Value → Value → Option Ordering
  | .null, _ => none
  | _, .null => none
  | .i64 l, .i64 r => some (cmp l.val r.val)
  | .u64 l, .u64 r => some (cmp l.val r.val)
  | .i64 l, .u64 r => if l.val < 0 then some .lt else some (cmp l.val.toNat r.val)
  | .u64 l, .i64 r => if r.val < 0 then some .gt else some (cmp l.val r.val.toNat)
  | .bool l, .bool r => some (cmp l r)
  | .bytes l, .bytes r => some (cmp l r)
  | .text l, .text r => some (cmp l r)
  | .float64 l, .float64 r => some (l.order r)
  | .date l, .date r => some (cmp l.val r.val)
  | .timestamp l, .timestamp r => some (cmp l.val r.val)
  | .decimal l, .decimal r => some (DecimalValue.order l r)
  | .uuid l, .uuid r => some (cmp l.val r.val)
  | .i64 l, .decimal r => some (cmp (scaledInt l.val r.scale) r.mantissa)
  | .decimal l, .i64 r => some (cmp l.mantissa (scaledInt r.val l.scale))
  | .u64 l, .decimal r => some (cmp (scaledInt l.val r.scale) r.mantissa)
  | .decimal l, .u64 r => some (cmp l.mantissa (scaledInt r.val l.scale))
  | .decimal l, .float64 r => some ((Host.ofDecimal l).order r)
  | .float64 l, .decimal r => some (l.order (Host.ofDecimal r))
  | .i64 l, .float64 r => some ((Host.ofInt l.val).order r)
  | .float64 l, .i64 r => some (l.order (Host.ofInt r.val))
  | .u64 l, .float64 r => some ((Host.ofInt l.val).order r)
  | .float64 l, .u64 r => some (l.order (Host.ofInt r.val))
  | _, _ => none

inductive Truth
  | true | false | unknown
  deriving DecidableEq, Repr

namespace Truth

def not : Truth → Truth
  | true => false
  | false => true
  | unknown => unknown

def and : Truth → Truth → Truth
  | false, _ => false
  | _, false => false
  | unknown, _ => unknown
  | _, unknown => unknown
  | _, _ => true

def or : Truth → Truth → Truth
  | true, _ => true
  | _, true => true
  | unknown, _ => unknown
  | _, unknown => unknown
  | _, _ => false

@[simp] theorem and_eq_true (a b : Truth) : a.and b = true ↔ a = true ∧ b = true := by
  cases a <;> cases b <;> decide

@[simp] theorem or_eq_true (a b : Truth) : a.or b = true ↔ a = true ∨ b = true := by
  cases a <;> cases b <;> decide

end Truth

inductive BinaryOperator
  | and | or | eq | notEq | lt | ltEq | gt | gtEq | plus | minus | multiply | divide | modulo
  | other (text : String)
  deriving DecidableEq

namespace BinaryOperator

def isComparison : BinaryOperator → Bool
  | eq | notEq | lt | ltEq | gt | gtEq => true
  | _ => false

def isArithmetic : BinaryOperator → Bool
  | plus | minus | multiply | divide | modulo => true
  | _ => false

end BinaryOperator

def compareValues [Host] (left right : Value) (operator : BinaryOperator) : Truth :=
  match valueCmp left right with
  | none => .unknown
  | some ordering =>
    let matched : Option Bool :=
      match operator with
      | .eq => some (ordering == .eq)
      | .notEq => some (ordering != .eq)
      | .gt => some (ordering == .gt)
      | .lt => some (ordering == .lt)
      | .gtEq => some (ordering != .lt)
      | .ltEq => some (ordering != .gt)
      | _ => none
    match matched with
    | some true => .true
    | some false => .false
    | none => .unknown

@[simp] theorem valueCmp_null_left [Host] (v : Value) : valueCmp .null v = none := by
  cases v <;> rfl

@[simp] theorem valueCmp_null_right [Host] (v : Value) : valueCmp v .null = none := by
  cases v <;> rfl

@[simp] theorem compareValues_null_right [Host] (v : Value) (op : BinaryOperator) :
    compareValues v .null op = .unknown := by
  simp [compareValues]

namespace Value

/-- The group of types whose values compare with each other, NULL apart. -/
def family : Value → ℕ
  | null => 0
  | bytes _ => 1
  | bool _ => 2
  | i64 _ => 3
  | u64 _ => 3
  | decimal _ => 3
  | text _ => 4
  | float64 _ => 5
  | date _ => 6
  | timestamp _ => 7
  | uuid _ => 8

def place : Value → List ℚ
  | null => []
  | bytes v => v.map fun b => (b.val : ℚ)
  | bool v => [if v then 1 else 0]
  | i64 v => [(v.val : ℚ)]
  | u64 v => [(v.val : ℚ)]
  | decimal v => [v.toRat]
  | text v => v.toList.map fun c => (c.toNat : ℚ)
  | float64 v => [(v.rank : ℚ)]
  | date v => [(v.val : ℚ)]
  | timestamp v => [(v.val : ℚ)]
  | uuid v => v.val.map fun b => (b.val : ℚ)

/-- One linear order that the comparison of any two comparable values, floats apart, agrees with. -/
def rank (v : Value) : ℕ ×ₗ List ℚ := toLex (v.family, v.place)

end Value

theorem map_lt_map {α : Type} [LinearOrder α] {f : α → ℚ} (hf : StrictMono f) {l r : List α}
    (h : l < r) : l.map f < r.map f := by
  induction h with
  | nil => exact .nil
  | cons _ ih => exact .cons ih
  | rel h => exact .rel (hf h)

theorem cmp_map {α : Type} [LinearOrder α] {f : α → ℚ} (hf : StrictMono f) (l r : List α) :
    cmp l r = cmp (l.map f) (r.map f) := by
  have hiff : ∀ a b : List α, a < b ↔ a.map f < b.map f := by
    intro a b
    refine ⟨map_lt_map hf, fun h => ?_⟩
    rcases lt_trichotomy a b with hab | rfl | hab
    · exact hab
    · exact (lt_irrefl _ h).elim
    · exact (lt_asymm h (map_lt_map hf hab)).elim
  exact cmp_congr (hiff l r) (hiff r l)

theorem cmp_singleton (x y : ℚ) : cmp [x] [y] = cmp x y := by
  have hiff : ∀ a b : ℚ, [a] < [b] ↔ a < b := by
    intro a b
    rw [List.cons_lt_cons_iff]
    simp
  exact cmp_congr (hiff x y) (hiff y x)

theorem Value.cmp_rank {a b : Value} (h : a.family = b.family) :
    cmp a.rank b.rank = cmp a.place b.place := by
  refine cmp_congr ?_ ?_ <;> simp [Value.rank, Prod.Lex.toLex_lt_toLex, h]

theorem natCast_strictMono : StrictMono fun b : Byte => (b.val : ℚ) := by
  intro a b h
  simpa using h

theorem code_strictMono : StrictMono fun c : Char => (c.toNat : ℚ) := by
  intro a b h
  exact Nat.cast_lt.mpr h

theorem cmp_text (l r : String) :
    cmp l r = cmp (l.toList.map fun c => (c.toNat : ℚ)) (r.toList.map fun c => (c.toNat : ℚ)) := by
  rw [← cmp_map code_strictMono]
  exact cmp_congr String.lt_iff_toList_lt String.lt_iff_toList_lt

theorem cmp_nat_cast (m n : ℕ) : cmp m n = cmp (m : ℚ) (n : ℚ) :=
  cmp_congr Nat.cast_lt.symm Nat.cast_lt.symm

theorem cmp_bool (l r : Bool) : cmp l r = cmp (if l then (1 : ℚ) else 0) (if r then 1 else 0) := by
  refine cmp_congr ?_ ?_ <;> cases l <;> cases r <;> norm_num [Bool.lt_iff]

theorem cmp_signed_unsigned (i : ℤ) (u : ℕ) :
    (if i < 0 then some Ordering.lt else some (cmp i.toNat u)) = some (cmp (i : ℚ) (u : ℚ)) := by
  rw [show (u : ℚ) = ((u : ℤ) : ℚ) by simp, ← Decimal.cmp_int_cast]
  split
  · exact congrArg some ((cmp_eq_lt_iff _ _).mpr (by omega)).symm
  · exact congrArg some (cmp_congr (by omega) (by omega))

theorem cmp_unsigned_signed (u : ℕ) (i : ℤ) :
    (if i < 0 then some Ordering.gt else some (cmp u i.toNat)) = some (cmp (u : ℚ) (i : ℚ)) := by
  rw [← cmp_swap (i : ℚ), ← Option.map_some (f := Ordering.swap), ← cmp_signed_unsigned]
  split
  · rfl
  · simp [cmp_swap]

theorem cmp_scaledInt_swap (n : ℤ) (d : DecimalValue) :
    cmp d.mantissa (scaledInt n d.scale) = cmp d.toRat (n : ℚ) := by
  rw [← cmp_swap (scaledInt n d.scale), cmp_scaledInt, cmp_swap]

/-- Floats apart, two values compare exactly when neither is NULL and they are of one family, and
then as their ranks do. -/
theorem valueCmp_eq [Host] {a b : Value} (ha : a.isFloat = false) (hb : b.isFloat = false) :
    valueCmp a b =
      if a = .null ∨ b = .null ∨ a.family ≠ b.family then none else some (cmp a.rank b.rank) := by
  split
  · rename_i h
    rcases h with rfl | rfl | h
    · simp
    · simp
    · cases a <;> cases b <;> simp_all [valueCmp, Value.family, Value.isFloat]
  · rename_i h
    push Not at h
    obtain ⟨hna, hnb, hf⟩ := h
    rw [Value.cmp_rank hf]
    cases a <;> cases b <;> simp_all [Value.family, Value.isFloat] <;>
      simp only [valueCmp, Value.place, cmp_singleton]
    case bytes.bytes l r => rw [cmp_map natCast_strictMono]
    case bool.bool l r => rw [cmp_bool]
    case i64.i64 l r => rw [Decimal.cmp_int_cast]
    case i64.u64 l r => exact cmp_signed_unsigned l.val r.val
    case i64.decimal l r => rw [cmp_scaledInt]
    case u64.i64 l r => exact cmp_unsigned_signed l.val r.val
    case u64.u64 l r => rw [cmp_nat_cast]
    case u64.decimal l r => rw [cmp_scaledInt, Int.cast_natCast]
    case text.text l r => rw [cmp_text]
    case date.date l r => rw [Decimal.cmp_int_cast]
    case timestamp.timestamp l r => rw [Decimal.cmp_int_cast]
    case decimal.i64 l r => rw [cmp_scaledInt_swap]
    case decimal.u64 l r => rw [cmp_scaledInt_swap, Int.cast_natCast]
    case decimal.decimal l r => rw [DecimalValue.order_eq]
    case uuid.uuid l r => rw [cmp_map natCast_strictMono]

end OmenDb.Sql
