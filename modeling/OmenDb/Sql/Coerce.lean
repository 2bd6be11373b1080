import OmenDb.Sql.Value

/-! Column declarations, the conversion of a value to a column's type, and checked arithmetic. -/
namespace OmenDb.Sql

structure ColumnDefinition where
  id : ℕ
  name : String
  dataType : ColumnType
  nullable : Bool
  deriving DecidableEq

/-- A column of a result or of an intermediate combined row. -/
structure SqlColumn where
  name : String
  columnType : Option ColumnType
  deriving DecidableEq

structure TableDefinition where
  id : ℕ
  name : String
  columns : List ColumnDefinition
  deriving DecidableEq

namespace DecimalValue

/-- `DecimalValue::digit_count`; zero has no digits. -/
def digitCount (mantissa : ℤ) : ℕ := (Nat.digits 10 mantissa.natAbs).length

theorem bound_of_digitCount {m : ℤ} {s : ℕ} (h : digitCount m + s ≤ decimalMaxPrecision) :
    m.natAbs * 10 ^ s < 10 ^ decimalMaxPrecision := by
  have hm : m.natAbs < 10 ^ (decimalMaxPrecision - s) :=
    (Nat.digits_length_le_iff (by norm_num) _).mp (show digitCount m ≤ _ by omega)
  calc m.natAbs * 10 ^ s < 10 ^ (decimalMaxPrecision - s) * 10 ^ s :=
        Nat.mul_lt_mul_of_pos_right hm (by positivity)
    _ = 10 ^ decimalMaxPrecision := by rw [← pow_add]; congr 1; omega

def new (mantissa : ℤ) (scale : ℕ) : DbResult DecimalValue :=
  if decimalMaxPrecision < scale then
    .error (.sqlNumericValueOutOfRange
      s!"decimal scale {scale} exceeds the maximum {decimalMaxPrecision}")
  else if h : digitCount mantissa + scale ≤ decimalMaxPrecision then
    .ok ⟨mantissa, scale, by omega, bound_of_digitCount h⟩
  else
    .error (.sqlNumericValueOutOfRange s!"decimal value needs more than {decimalMaxPrecision} digits")

theorem new_eq_ok {m : ℤ} {s : ℕ} {d : DecimalValue} (h : new m s = .ok d) :
    d.mantissa = m ∧ d.scale = s := by
  unfold new at h
  split at h
  · cases h
  · split at h
    · rw [← Except.ok.inj h]
      exact ⟨rfl, rfl⟩
    · cases h

theorem new_self (d : DecimalValue) : new d.mantissa d.scale = .ok d := by
  have hscale : ¬ decimalMaxPrecision < d.scale := not_lt.mpr d.scale_le
  have hpow : d.mantissa.natAbs < 10 ^ (decimalMaxPrecision - d.scale) := by
    refine lt_of_mul_lt_mul_right ?_ (Nat.zero_le (10 ^ d.scale))
    rw [← pow_add, Nat.sub_add_cancel d.scale_le]
    exact d.bound
  have hcount : digitCount d.mantissa + d.scale ≤ decimalMaxPrecision := by
    have hdigits := (Nat.digits_length_le_iff (by norm_num) _).mpr hpow
    have hle := d.scale_le
    unfold digitCount
    omega
  rw [new, if_neg hscale, dif_pos hcount]

def overflow (what : String) : DbError := .sqlNumericValueOutOfRange s!"decimal {what} overflow"

/-- `10_i128.checked_pow`. -/
def checkedPowTen (exponent : ℕ) : Option ℤ :=
  if (10 : ℤ) ^ exponent ≤ i128Max then some (10 ^ exponent) else none

/-- `DecimalValue::rescale`, rounding half away from zero when the target is coarser. -/
def rescale (d : DecimalValue) (target : ℕ) : DbResult DecimalValue :=
  if d.scale ≤ target then
    match checkedPowTen (target - d.scale) with
    | none => .error (overflow "rescale")
    | some factor =>
      match checkedMul d.mantissa factor with
      | none => .error (overflow "rescale")
      | some mantissa => new mantissa target
  else
    match checkedPowTen (d.scale - target) with
    | none => .error (overflow "rescale")
    | some divisor =>
      let quotient := d.mantissa.tdiv divisor
      let remainder := d.mantissa.tmod divisor
      new (if divisor.tdiv 2 ≤ |remainder| then quotient + d.mantissa.sign else quotient) target

end DecimalValue

inductive ArithmeticOperator
  | add | subtract | multiply | divide | modulo
  deriving DecidableEq

def outOfRange (what : String) : DbError := .sqlNumericValueOutOfRange s!"{what} overflow"

def checkedI128 (n : ℤ) : Option ℤ := if i128Min ≤ n ∧ n ≤ i128Max then some n else none

/-- `decimal_divide`: half away from zero, at the dividend's scale plus the divisor's digits plus
four. -/
def decimalDivide (l r : DecimalValue) : DbResult Value :=
  if r.mantissa = 0 then .error .sqlDivisionByZero
  else
    let targetScale := l.scale + DecimalValue.digitCount r.mantissa + 4
    match DecimalValue.checkedPowTen (targetScale + r.scale - l.scale) with
    | none => .error (outOfRange "numeric division")
    | some factor =>
      match DecimalValue.checkedMul l.mantissa factor with
      | none => .error (outOfRange "numeric division")
      | some numerator => do
        let quotient := numerator.tdiv r.mantissa
        let remainder := numerator.tmod r.mantissa
        let rounded :=
          if r.mantissa.natAbs ≤ remainder.natAbs * 2 then
            quotient + numerator.sign * r.mantissa.sign
          else quotient
        return .decimal (← DecimalValue.new rounded targetScale)

/-- `sql_decimal` on numeric operands. -/
def sqlDecimal : Value → DbResult DecimalValue
  | .decimal d => .ok d
  | .i64 v => DecimalValue.new v.val 0
  | .u64 v => DecimalValue.new v.val 0
  | _ => .error (.invalidState "numeric arithmetic requires numeric operands")

def decimalArithmetic (op : ArithmeticOperator) (l r : DecimalValue) : DbResult Value := do
  let scale := max l.scale r.scale
  let finish (mantissa : Option ℤ) (scale : ℕ) : DbResult Value :=
    match mantissa with
    | none => .error (outOfRange "arithmetic")
    | some mantissa => do return .decimal (← DecimalValue.new mantissa scale)
  match op with
  | .add => finish (checkedI128 ((← l.rescale scale).mantissa + (← r.rescale scale).mantissa)) scale
  | .subtract => finish (checkedI128 ((← l.rescale scale).mantissa - (← r.rescale scale).mantissa)) scale
  | .multiply => finish (DecimalValue.checkedMul l.mantissa r.mantissa) (l.scale + r.scale)
  | .divide => decimalDivide l r
  | .modulo => .error (.sqlUnsupported "arithmetic" "modulo is not defined for numeric operands")

/-- Integer arithmetic in `i128`; the result is unsigned only when both operands are. -/
def integerArithmetic (op : ArithmeticOperator) (unsigned : Bool) (l r : ℤ) : DbResult Value :=
  let value : DbResult (Option ℤ) :=
    match op with
    | .add => .ok (checkedI128 (l + r))
    | .subtract => .ok (checkedI128 (l - r))
    | .multiply => .ok (checkedI128 (l * r))
    | .divide => if r = 0 then .error .sqlDivisionByZero else .ok (checkedI128 (l.tdiv r))
    | .modulo => if r = 0 then .error .sqlDivisionByZero else .ok (checkedI128 (l.tmod r))
  match value with
  | .error error => .error error
  | .ok none => .error (outOfRange "arithmetic")
  | .ok (some value) =>
    if unsigned then
      match U64.tryFrom value with
      | some v => .ok (.u64 v)
      | none => .error (outOfRange "unsigned arithmetic")
    else
      match I64.tryFrom value with
      | some v => .ok (.i64 v)
      | none => .error (outOfRange "signed arithmetic")

section
variable [Host]

/-- `sql_float` on numeric operands. -/
def sqlFloat? : Value → Option F64
  | .float64 f => some f
  | .i64 v => some (Host.ofInt v.val)
  | .u64 v => some (Host.ofInt v.val)
  | .decimal d => some (Host.ofDecimal d)
  | _ => none

def floatArithmetic (op : ArithmeticOperator) (l r : F64) : DbResult Value :=
  match op with
  | .add => .ok (.float64 (Host.add l r))
  | .subtract => .ok (.float64 (Host.sub l r))
  | .multiply => .ok (.float64 (Host.mul l r))
  | .divide =>
    if r.isZero && !l.isNan then .error .sqlDivisionByZero else .ok (.float64 (Host.div l r))
  | .modulo => .error (.sqlUnsupported "arithmetic" "modulo is not defined for float operands")

/-- `arithmetic::evaluate`: NULL propagates, then float over decimal over integer. -/
def arithmetic (op : ArithmeticOperator) (lhs rhs : Value) : DbResult Value :=
  if lhs = .null ∨ rhs = .null then .ok .null
  else
    match lhs.isFloat || rhs.isFloat, sqlFloat? lhs, sqlFloat? rhs with
    | true, some l, some r => floatArithmetic op l r
    | _, _, _ =>
      match lhs, rhs with
      | .u64 l, .u64 r => integerArithmetic op true l.val r.val
      | .i64 l, .i64 r => integerArithmetic op false l.val r.val
      | .u64 l, .i64 r => integerArithmetic op false l.val r.val
      | .i64 l, .u64 r => integerArithmetic op false l.val r.val
      | .decimal _, .decimal _ | .decimal _, .i64 _ | .decimal _, .u64 _
      | .i64 _, .decimal _ | .u64 _, .decimal _ => do
        decimalArithmetic op (← sqlDecimal lhs) (← sqlDecimal rhs)
      | _, _ => .error (.invalidState "arithmetic requires numeric operands")

def hexDigit (digit : Char) : Option ℕ :=
  if '0' ≤ digit ∧ digit ≤ '9' then some (digit.toNat - '0'.toNat)
  else if 'a' ≤ digit ∧ digit ≤ 'f' then some (digit.toNat - 'a'.toNat + 10)
  else if 'A' ≤ digit ∧ digit ≤ 'F' then some (digit.toNat - 'A'.toNat + 10)
  else none

/-- `decode_hex` over the characters of the text. -/
def decodeHex : List Char → DbResult Bytes
  | [] => .ok []
  | [_] => .error (.invalidState "hex byte literals must contain pairs of digits")
  | high :: low :: rest =>
    match hexDigit high, hexDigit low with
    | some h, some l => do return Fin.ofNat 256 (h * 16 + l) :: (← decodeHex rest)
    | _, _ => .error (.invalidState "hex byte literals contain a non-hex digit")

/-- A parsed text, or the mismatch that every input grammar reports. -/
def parsed {α : Type} (column : ColumnDefinition) (make : α → Value) : Option α → DbResult Value
  | some a => .ok (make a)
  | none => .error (.sqlDatatypeMismatch column.name)

def fits {α : Type} (column : ColumnDefinition) (make : α → Value) : Option α → DbResult Value
  | some a => .ok (make a)
  | none => .error (.sqlNumericValueOutOfRange s!"value does not fit SQL column {column.name}")

/-- The conversions of `coerce_value`, before its check of the result. -/
def convertValue (value : Value) (column : ColumnDefinition) : DbResult Value :=
  match value, column.dataType with
  | .i64 v, .u64 => fits column .u64 (U64.tryFrom v.val)
  | .u64 v, .i64 => fits column .i64 (I64.tryFrom v.val)
  | .i64 v, .float64 => .ok (.float64 (Host.ofInt v.val))
  | .decimal v, .float64 => .ok (.float64 (Host.ofDecimal v))
  | .u64 v, .float64 => .ok (.float64 (Host.ofInt v.val))
  | .text v, .float64 => parsed column .float64 (Host.parseFloat v)
  | .text v, .date => parsed column .date (Host.parseDate v)
  | .text v, .timestamp => parsed column .timestamp (Host.parseTimestamp v)
  | .i64 v, .decimal => fits column .decimal (DecimalValue.new v.val 0).toOption
  | .u64 v, .decimal => fits column .decimal (DecimalValue.new v.val 0).toOption
  | .text v, .decimal => parsed column .decimal (Host.parseDecimal v)
  | .text v, .uuid => parsed column .uuid (Host.parseUuid v)
  | .text v, .bytes =>
    match v.toList with
    | '\\' :: 'x' :: digits => do return .bytes (← decodeHex digits)
    | _ => .error (.sqlDatatypeMismatch column.name)
  | value, _ => .ok value

def coerceValue (value : Value) (column : ColumnDefinition) : DbResult Value := do
  let value ← convertValue value column
  if value.isNull && !column.nullable then .error (.sqlNotNullViolation column.name)
  else if !value.matches column.dataType then .error (.sqlDatatypeMismatch column.name)
  else .ok value

/-- `coerce_for_comparison`: only literal shapes move toward the column's type. -/
def coerceForComparison (value : Value) (column : ColumnDefinition) : DbResult Value :=
  match value, column.dataType with
  | .text _, .date | .text _, .timestamp | .text _, .decimal | .text _, .float64 | .text _, .uuid
  | .i64 _, .decimal | .i64 _, .float64 | .u64 _, .decimal | .u64 _, .float64 =>
    coerceValue value column
  | _, _ => .ok value

/-- `value_static_type`. -/
def Value.staticType : Value → Option ColumnType
  | .null => none
  | .bytes _ => some .bytes
  | .bool _ => some .bool
  | .i64 _ => some .i64
  | .u64 _ => some .i64
  | .text _ => some .text
  | .float64 _ => some .float64
  | .date _ => some .date
  | .timestamp _ => some .timestamp
  | .decimal _ => some .decimal
  | .uuid _ => some .uuid

/-- `coerce_result_value`: a value already of the type, or of an integer type where an integer is
wanted, passes; anything else goes through `coerce_value` for a nullable column. -/
def coerceResultValue (value : Value) (columnType : ColumnType) (name : String) : DbResult Value :=
  let integers : List (Option ColumnType) := [some .i64, some .u64]
  if value.staticType = some columnType ∨
      (value.staticType ∈ integers ∧ some columnType ∈ integers) then .ok value
  else coerceValue value ⟨0, name, columnType, true⟩

end

def ColumnType.numeric : ColumnType → Bool
  | .i64 | .u64 | .float64 | .decimal => true
  | _ => false

/-- The names that `Debug` prints. -/
def ColumnType.debug : ColumnType → String
  | .bytes => "Bytes"
  | .bool => "Bool"
  | .i64 => "I64"
  | .u64 => "U64"
  | .text => "Text"
  | .float64 => "Float64"
  | .date => "Date"
  | .timestamp => "Timestamp"
  | .decimal => "Decimal"
  | .uuid => "Uuid"

/-- `common_type`: an unknown side gives way; numbers promote float over decimal over integer. -/
def commonType : Option ColumnType → Option ColumnType → DbResult (Option ColumnType)
  | none, right => .ok right
  | left, none => .ok left
  | some left, some right =>
    if left = right then .ok (some left)
    else if left.numeric && right.numeric then
      .ok (some (if left = .float64 ∨ right = .float64 then .float64
        else if left = .decimal ∨ right = .decimal then .decimal else .i64))
    else .error (.sqlDatatypeMismatch ("incompatible " ++ left.debug ++ " and " ++ right.debug ++ " contexts"))

end OmenDb.Sql
