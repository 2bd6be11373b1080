import OmenDb.Sql.Coerce

/-! Expressions, and their evaluation against the rows of one table. A condition evaluates to one
of three truth values; a row passes a WHERE when the condition is true of it. -/
namespace OmenDb.Sql

inductive UnaryOperator
  | plus | minus | not
  deriving DecidableEq

/-- Literal tokens. A number is split by whether its text is an `i64`; a placeholder is its
zero-based position. -/
inductive Literal
  | integer (n : I64)
  | fractional (text : String)
  | boolean (b : Bool)
  | null
  | byteString (v : Bytes)
  | hexString (digits : String)
  | placeholder (index : ℕ)
  | string (text : String)
  deriving DecidableEq

/-- The expression shapes the executor distinguishes. EXTRACT, FLOOR and CEIL are functions here,
names of functions are in lower case, a subquery is the text it is looked up by, and the wildcard
stands only as the argument of COUNT. -/
inductive Expr
  | identifier (name : String)
  | compoundIdentifier (parts : List String)
  | nested (inner : Expr)
  | value (literal : Literal)
  | unaryOp (op : UnaryOperator) (expr : Expr)
  | binaryOp (left : Expr) (op : BinaryOperator) (right : Expr)
  | inList (expr : Expr) (list : List Expr) (negated : Bool)
  | inSubquery (expr : Expr) (subquery : String) (negated : Bool)
  | «exists» (subquery : String) (negated : Bool)
  | between (expr : Expr) (negated : Bool) (low high : Expr)
  | isNull (expr : Expr)
  | isNotNull (expr : Expr)
  | case (operand : Option Expr) (conditions : List (Expr × Expr)) (elseResult : Option Expr)
  | cast (expr : Expr) (dataType : ColumnType)
  | function (name : String) (args : List Expr)
  | wildcard
  | other

/-- `column_position`: where a name stands in the table. -/
def columnPosition (table : TableDefinition) : Expr → DbResult (Option ℕ)
  | .identifier name => .ok (table.columns.findIdx? fun column => column.name == name)
  | .compoundIdentifier [_, name] => .ok (table.columns.findIdx? fun column => column.name == name)
  | .compoundIdentifier _ => .error (.sqlUnsupported "column" "qualified names are limited to table.column")
  | _ => .ok none

section
variable [Host] (params : List Value)

def parameterValue (index : ℕ) : DbResult Value :=
  match params[index]? with
  | some value => .ok value
  | none => .error (.sqlParameter s!"placeholder requires parameter {index + 1}")

/-- The `Expr::Value` arm of `literal_value`. -/
def literalConstant : Literal → DbResult Value
  | .integer n => .ok (.i64 n)
  | .fractional text =>
    match Host.parseDecimal text with
    | some d => .ok (.decimal d)
    | none => .error (.sqlNumericValueOutOfRange s!"SQL numeric literal {text} is out of range")
  | .boolean b => .ok (.bool b)
  | .null => .ok .null
  | .byteString v => .ok (.bytes v)
  | .hexString digits => do return .bytes (← decodeHex digits.toList)
  | .placeholder index => parameterValue params index
  | .string text => .ok (.text text)

def negateLiteral : Value → DbResult Value
  | .i64 v =>
    match I64.tryFrom (-v.val) with
    | some v => .ok (.i64 v)
    | none => .error (.invalidState "integer literal underflow")
  | .decimal d =>
    match DecimalValue.new (-d.mantissa) d.scale with
    | .ok d => .ok (.decimal d)
    | .error _ => .error (.invalidState "decimal literal underflow")
  | .float64 f => .ok (.float64 (Host.neg f))
  | _ => .error (.invalidState "unary minus requires a numeric literal")

mutual

def literalValue : Expr → DbResult Value
  | .nested inner => literalValue inner
  | .cast expr dataType => do coerceResultValue (← literalValue expr) dataType "cast"
  | .unaryOp .plus expr => literalValue expr
  | .unaryOp .minus expr => do negateLiteral (← literalValue expr)
  | .value literal => literalConstant params literal
  | .function name args =>
    if name = "coalesce" then
      match args with
      | [] => .error (.sqlUnsupported "COALESCE" "at least one argument is required")
      | args => firstNonNullLiteral args
    else do Host.scalarFunction name (← literalValues args)
  | _ =>
    .error (.sqlUnsupported "expression" "only literals and simple column references are supported")

/-- `list.iter().map(literal_value).collect()`. -/
def literalValues : List Expr → DbResult (List Value)
  | [] => .ok []
  | expr :: rest => do return (← literalValue expr) :: (← literalValues rest)

def firstNonNullLiteral : List Expr → DbResult Value
  | [] => .ok .null
  | expr :: rest => do
    let value ← literalValue expr
    if value.isNull then firstNonNullLiteral rest else return value

end

def BinaryOperator.arithmetic? : BinaryOperator → Option ArithmeticOperator
  | .plus => some .add
  | .minus => some .subtract
  | .multiply => some .multiply
  | .divide => some .divide
  | .modulo => some .modulo
  | _ => none

def membershipTruth (candidate : Value) (values : List Value) : Truth :=
  if values.any fun value => compareValues candidate value .eq = .true then .true
  else if values.any fun value => compareValues candidate value .eq = .unknown then .unknown
  else .false

/-- `coerce_operand`: toward the opposite column's type when the conversion succeeds. -/
def coerceOperand (value : Value) : Option ColumnType → Value
  | none => value
  | some target =>
    match coerceForComparison value ⟨0, "comparison operand", target, true⟩ with
    | .ok value => value
    | .error _ => value

/-- Answers to the uncorrelated subqueries of a statement, by their text. -/
structure ResolvedSubqueries where
  inLists : String → Option (List Value) := fun _ => none
  «exists» : String → Option Bool := fun _ => none

variable (table : TableDefinition) (row : List Value)

def evalExpression : Expr → DbResult Value
  | .binaryOp left op right =>
    match op.arithmetic? with
    | some op => do
      let lhs ← evalExpression left
      let rhs ← evalExpression right
      arithmetic op lhs rhs
    | none => literalValue params (.binaryOp left op right)
  | .identifier name => column (.identifier name) name
  | .compoundIdentifier parts => column (.compoundIdentifier parts) (".".intercalate parts)
  | expression => literalValue params expression
where
  /-- The value of the named column in the row. -/
  column (expression : Expr) (text : String) : DbResult Value := do
    match ← columnPosition table expression with
    | none => .error (.sqlUndefinedColumn text)
    | some position =>
      match row[position]? with
      | some value => .ok value
      | none => .error (.invalidState "row is missing a SQL column")

/-- The type of the column an operand names, if it names one. -/
def operandType (expression : Expr) : Option ColumnType :=
  match columnPosition table expression with
  | .ok (some position) => (table.columns[position]?).map (·.dataType)
  | _ => none

def comparePredicate (operator : BinaryOperator) (left right : Expr) : DbResult Truth := do
  let lhs ← evalExpression params table row left
  let rhs ← evalExpression params table row right
  return compareValues (coerceOperand lhs (operandType table right))
    (coerceOperand rhs (operandType table left)) operator

variable (subqueries : ResolvedSubqueries)

def predicate : Expr → DbResult Truth
  | .nested expression => predicate expression
  | .unaryOp .not expr => do return (← predicate expr).not
  | .binaryOp left op right =>
    if op = .and then do return (← predicate left).and (← predicate right)
    else if op = .or then do return (← predicate left).or (← predicate right)
    else if op.isComparison then comparePredicate params table row op left right
    else .error (.sqlUnsupported "WHERE" "this predicate operator is not supported")
  | .inSubquery expr subquery negated =>
    match subqueries.inLists subquery with
    | none => .error (.invalidState "subquery was not resolved before evaluation")
    | some candidates => do
      let hit := membershipTruth (← evalExpression params table row expr) candidates
      return if negated then hit.not else hit
  | .inList expr list negated => do
    let candidate ← evalExpression params table row expr
    let hit := membershipTruth candidate (← literalValues params list)
    return if negated then hit.not else hit
  | .between expr negated low high => do
    let atLeastLow ← comparePredicate params table row .gtEq expr low
    let atMostHigh ← comparePredicate params table row .ltEq expr high
    let both := atLeastLow.and atMostHigh
    return if negated then both.not else both
  | .isNull expression => do
    return if (← evalExpression params table row expression).isNull then .true else .false
  | .exists subquery negated =>
    match subqueries.exists subquery with
    | none => .error (.invalidState "subquery was not resolved before evaluation")
    | some present => .ok (if negated != present then .true else .false)
  | .isNotNull expression => do
    return if (← evalExpression params table row expression).isNull then .false else .true
  | expression => do
    match ← evalExpression params table row expression with
    | .bool true => return .true
    | .bool false => return .false
    | .null => return .unknown
    | _ => .error (.invalidState "SQL WHERE requires a boolean expression")

end

end OmenDb.Sql
