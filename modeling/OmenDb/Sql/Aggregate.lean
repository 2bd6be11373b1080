import OmenDb.Lib.GroupFold
import OmenDb.Sql.Coerce
import OmenDb.Sql.Ordering

/-! The accumulators of the aggregate functions, and groups of rows under keys of stored values. -/
namespace OmenDb.Sql

/-- The integer whose order is `Ord for F64`. -/
def F64.sortKey (f : F64) : ℤ := if f.isNan then 2 ^ 64 else if f.isZero then 0 else f.rank

theorem F64.sortKey_lt {f : F64} (h : f.isNan = false) : f.sortKey < 2 ^ 64 := by
  have hf := f.bits.isLt
  unfold F64.sortKey F64.rank
  rw [h]
  simp only [Bool.false_eq_true, if_false]
  split
  · norm_num
  · split <;> omega

theorem F64.sortKey_nan {f : F64} (h : f.isNan = true) : f.sortKey = 2 ^ 64 := by simp [F64.sortKey, h]

theorem F64.order_eq (l r : F64) : l.order r = cmp l.sortKey r.sortKey := by
  unfold F64.order
  cases hl : l.isNan <;> cases hr : r.isNan
  · have hlb := l.bits.isLt
    have hrb := r.bits.isLt
    simp only [F64.sortKey, F64.isZero, F64.rank, hl, hr, Bool.and_eq_true, decide_eq_true_eq,
      Bool.false_eq_true, if_false]
    split
    · rename_i h
      rw [if_pos h.1, if_pos h.2, cmp_self_eq_eq]
    · refine cmp_congr ?_ ?_ <;> split <;> split <;> split <;> split <;> omega
  · rw [F64.sortKey_nan hr]
    exact ((cmp_eq_lt_iff _ _).mpr (F64.sortKey_lt hl)).symm
  · rw [F64.sortKey_nan hl]
    exact ((cmp_eq_gt_iff _ _).mpr (F64.sortKey_lt hr)).symm
  · rw [F64.sortKey_nan hl, F64.sortKey_nan hr, cmp_self_eq_eq]

namespace Value

def tag : Value → ℕ
  | null => 0
  | bytes _ => 1
  | bool _ => 2
  | i64 _ => 3
  | u64 _ => 4
  | text _ => 5
  | float64 _ => 6
  | date _ => 7
  | timestamp _ => 8
  | decimal _ => 9
  | uuid _ => 10

/-- The derived `Ord for Value`: by variant, then by content. -/
def order : Value → Value → Ordering
  | bytes l, bytes r => cmp l r
  | bool l, bool r => cmp l r
  | i64 l, i64 r => cmp l.val r.val
  | u64 l, u64 r => cmp l.val r.val
  | text l, text r => cmp l r
  | float64 l, float64 r => l.order r
  | date l, date r => cmp l.val r.val
  | timestamp l, timestamp r => cmp l.val r.val
  | decimal l, decimal r => DecimalValue.order l r
  | uuid l, uuid r => cmp l.val r.val
  | l, r => cmp l.tag r.tag

def sortKey : Value → ℕ ×ₗ List ℚ
  | float64 v => toLex (6, [(v.sortKey : ℚ)])
  | v => toLex (v.tag, v.place)

theorem cmp_toLex_of_eq {n : ℕ} (l r : List ℚ) : cmp (toLex (n, l)) (toLex (n, r)) = cmp l r := by
  refine cmp_congr ?_ ?_ <;> simp [Prod.Lex.toLex_lt_toLex]

theorem cmp_toLex_of_ne {m n : ℕ} (h : m ≠ n) (l r : List ℚ) :
    cmp (toLex (m, l)) (toLex (n, r)) = cmp m n := by
  refine cmp_congr ?_ ?_ <;> simp [Prod.Lex.toLex_lt_toLex, h, h.symm]

theorem order_eq (l r : Value) : l.order r = cmp l.sortKey r.sortKey := by
  cases l <;> cases r <;> simp only [sortKey, tag, place]
  case bytes.bytes l r => rw [cmp_toLex_of_eq, ← cmp_map natCast_strictMono]; rfl
  case bool.bool l r => rw [cmp_toLex_of_eq, cmp_singleton, ← cmp_bool]; rfl
  case i64.i64 l r => rw [cmp_toLex_of_eq, cmp_singleton, ← Decimal.cmp_int_cast]; rfl
  case u64.u64 l r => rw [cmp_toLex_of_eq, cmp_singleton, ← cmp_nat_cast]; rfl
  case text.text l r => rw [cmp_toLex_of_eq, ← cmp_text]; rfl
  case float64.float64 l r =>
    rw [cmp_toLex_of_eq, cmp_singleton, ← Decimal.cmp_int_cast, ← F64.order_eq]; rfl
  case date.date l r => rw [cmp_toLex_of_eq, cmp_singleton, ← Decimal.cmp_int_cast]; rfl
  case timestamp.timestamp l r => rw [cmp_toLex_of_eq, cmp_singleton, ← Decimal.cmp_int_cast]; rfl
  case decimal.decimal l r => rw [cmp_toLex_of_eq, cmp_singleton, ← DecimalValue.order_eq]; rfl
  case uuid.uuid l r => rw [cmp_toLex_of_eq, ← cmp_map natCast_strictMono]; rfl
  case null.null => rfl
  all_goals
    rw [cmp_toLex_of_ne (by decide)]
    rfl

instance order_transCmp : Std.TransCmp order where
  eq_swap {a b} := by rw [order_eq, order_eq, cmp_swap]
  isLE_trans {a b c} := by
    simp only [order_eq, isLE_cmp]
    exact le_trans

end Value

/-- The order of the keys of a `BTreeMap<Vec<Value>, _>`. -/
def keyOrder (l r : List Value) : Ordering := List.compareLex Value.order l r

instance : Std.TransCmp keyOrder := inferInstanceAs (Std.TransCmp (List.compareLex Value.order))

inductive AggregateKind
  | count | sum | avg | min | max
  deriving DecidableEq

/-- One aggregate of the projection; without a column it counts rows. -/
structure AggregateSpec where
  kind : AggregateKind
  column : Option ℕ
  «alias» : String

inductive AggregateAccumulator
  | count (n : U64)
  | sumUnset
  | sumI64 (total : I64)
  | sumU64 (total : U64)
  | sumF64 (total : F64)
  | sumDecimal (total : DecimalValue)
  | avg (total : F64) (n : U64)
  | min (current : Option Value)
  | max (current : Option Value)

/-- `morsel::compare_values`. -/
def morselCompare : Value → Value → Ordering
  | .null, .null => .eq
  | .null, _ => .lt
  | _, .null => .gt
  | .bool l, .bool r => cmp l r
  | .i64 l, .i64 r => cmp l.val r.val
  | .u64 l, .u64 r => cmp l.val r.val
  | .i64 l, .u64 r => cmp l.val (r.val : ℤ)
  | .u64 l, .i64 r => cmp (l.val : ℤ) r.val
  | .text l, .text r => cmp l r
  | .bytes l, .bytes r => cmp l r
  | .float64 l, .float64 r => l.order r
  | .date l, .date r => cmp l.val r.val
  | .timestamp l, .timestamp r => cmp l.val r.val
  | .decimal l, .decimal r => DecimalValue.order l r
  | .uuid l, .uuid r => cmp l.val r.val
  | _, _ => .eq

/-- `saturating_add(1)`. -/
def bump (n : U64) : U64 := if h : n.val + 1 < 2 ^ 64 then ⟨n.val + 1, h⟩ else n

def integerOverflow : DbError := .sqlNumericValueOutOfRange "integer SUM overflow"
def decimalOverflow : DbError := .sqlNumericValueOutOfRange "decimal sum overflow"
def notNumeric : DbError := .invalidState "SUM requires numeric column"

def checked {α : Type} (overflow : DbError) : Option α → DbResult α
  | some a => .ok a
  | none => .error overflow

namespace AggregateAccumulator

def new : AggregateKind → AggregateAccumulator
  | .count => count 0
  | .sum => sumUnset
  | .avg => avg ⟨0⟩ 0
  | .min => min none
  | .max => max none

def addDecimal (total d : DecimalValue) : DbResult DecimalValue := do
  let target := Max.max total.scale d.scale
  let left ← checked decimalOverflow (total.rescale target).toOption
  let right ← checked decimalOverflow (d.rescale target).toOption
  let mantissa ← checked decimalOverflow (checkedI128 (left.mantissa + right.mantissa))
  checked decimalOverflow (DecimalValue.new mantissa target).toOption

section
variable [Host]

/-- What a MIN or MAX keeps: the new value when it stands past the current one on the side. -/
def keep (side : Ordering) (current : Option Value) (value : Value) : Option Value :=
  match current with
  | none => some value
  | some best => if morselCompare value best = side then some value else some best

def update (accumulator : AggregateAccumulator) (value : Option Value) : DbResult AggregateAccumulator :=
  match accumulator with
  | count n =>
    match value with
    | some value => .ok (if value.isNull then count n else count (bump n))
    | none => .ok (count (bump n))
  | sumUnset =>
    match value with
    | none | some .null => .ok sumUnset
    | some (.u64 u) => .ok (sumU64 u)
    | some (.i64 i) => .ok (sumI64 i)
    | some (.float64 f) => .ok (sumF64 f)
    | some (.decimal d) => .ok (sumDecimal d)
    | _ => .error notNumeric
  | sumF64 total =>
    match value with
    | none | some .null => .ok (sumF64 total)
    | some (.float64 f) => .ok (sumF64 (Host.add total f))
    | _ => .error (.invalidState "SUM requires float column")
  | sumDecimal total =>
    match value with
    | none | some .null => .ok (sumDecimal total)
    | some (.decimal d) => sumDecimal <$> addDecimal total d
    | _ => .error notNumeric
  | sumI64 total =>
    match value with
    | none | some .null => .ok (sumI64 total)
    | some (.i64 i) => sumI64 <$> checked integerOverflow (I64.tryFrom (total.val + i.val))
    | some (.u64 u) => sumI64 <$> checked integerOverflow (I64.tryFrom (total.val + u.val))
    | _ => .error notNumeric
  | sumU64 total =>
    match value with
    | none | some .null => .ok (sumU64 total)
    | some (.u64 u) => sumU64 <$> checked integerOverflow (U64.tryFrom (total.val + u.val))
    | some (.i64 i) =>
      -- a negative value turns the sum signed
      if 0 ≤ i.val then sumU64 <$> checked integerOverflow (U64.tryFrom (total.val + i.val))
      else sumI64 <$> checked integerOverflow (I64.tryFrom (total.val + i.val))
    | _ => .error notNumeric
  | avg total n =>
    match value with
    | none | some .null => .ok (avg total n)
    | some (.i64 i) => .ok (avg (Host.add total (Host.ofInt i.val)) (n + 1))
    | some (.u64 u) => .ok (avg (Host.add total (Host.ofInt u.val)) (n + 1))
    | some (.float64 f) => .ok (avg (Host.add total f) (n + 1))
    | some (.decimal d) => .ok (avg (Host.add total (Host.ofDecimal d)) (n + 1))
    | _ => .error (.invalidState "AVG requires numeric column")
  | min current =>
    match value with
    | some value => .ok (min (if value.isNull then current else keep .lt current value))
    | none => .ok (min current)
  | max current =>
    match value with
    | some value => .ok (max (if value.isNull then current else keep .gt current value))
    | none => .ok (max current)

def finalize : AggregateAccumulator → Value
  | count n => .u64 n
  | sumUnset => .null
  | sumI64 total => .i64 total
  | sumU64 total => .u64 total
  | sumF64 total => .float64 total
  | sumDecimal total => .decimal total
  | avg total n => if n = 0 then .null else .float64 (Host.div total (Host.ofInt n.val))
  | min current => current.getD .null
  | max current => current.getD .null

end

end AggregateAccumulator

end OmenDb.Sql
