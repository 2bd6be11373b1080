import OmenDb.Sql.Expr

/-! Computed projection terms. The planner compiles an expression once per statement; each row then
evaluates the compiled term. CASE conditions are compiled to comparisons of two terms. -/
namespace OmenDb.Sql

mutual

inductive ComputedTerm
  | cast (term : ComputedTerm) (columnType : ColumnType)
  | column (position : ℕ)
  | literal (value : Value)
  | binary (op : ArithmeticOperator) (left right : ComputedTerm)
  | case (operand : Option ComputedTerm) (conditions : List (ComputedCondition × ComputedTerm))
      (elseResult : Option ComputedTerm) (outputType : ColumnType)
  | coalesce (arguments : List ComputedTerm) (outputType : ColumnType)
  | scalar (name : String) (arguments : List ComputedTerm)

inductive ComputedCondition
  | compare (left : ComputedTerm) (op : BinaryOperator) (right : ComputedTerm)

end

/-- `scalar_function_arity`, on lower-case names; EXTRACT is the function of its field. -/
def scalarFunctionArity (name : String) : Option ℕ :=
  if name ∈ ["upper", "lower", "length", "char_length", "character_length", "btrim", "ltrim", "rtrim",
    "abs", "round", "floor", "ceil", "ceiling"] then some 1
  else if name ∈ ["date_trunc", "date_part"] then some 2
  else if "__extract_".toList.isPrefixOf name.toList then some 1
  else none

/-- The result type of a scalar function whose first argument has the given type. -/
def scalarType (name : String) (first : Option ColumnType) : Option ColumnType :=
  if name ∈ ["upper", "lower", "btrim", "ltrim", "rtrim"] then some .text
  else if name ∈ ["length", "char_length", "character_length"] then some .i64
  else if name = "date_part" then some .float64
  else if "__extract_".toList.isPrefixOf name.toList then some .decimal
  else if name = "date_trunc" then some .timestamp
  else first

section
variable [Host]

mutual

def ComputedTerm.evaluate (values : List Value) : ComputedTerm → DbResult Value
  | .cast term columnType => do coerceResultValue (← evaluate values term) columnType "cast"
  | .column position =>
    match values[position]? with
    | some value => .ok value
    | none => .error (.invalidState "row is missing a projected value")
  | .literal value => .ok value
  | .binary op left right => do
    let lhs ← evaluate values left
    let rhs ← evaluate values right
    arithmetic op lhs rhs
  | .case operand conditions elseResult outputType => do
    let operandValue ← evaluateOption values operand
    match ← evaluateConditions values operandValue conditions with
    | some value => coerceResultValue value outputType "CASE"
    | none =>
      match ← evaluateOption values elseResult with
      | some value => coerceResultValue value outputType "CASE"
      | none => .ok .null
  | .coalesce arguments outputType => do
    let value ← evaluateFirst values arguments
    if value.isNull then .ok .null else coerceResultValue value outputType "COALESCE"
  | .scalar name arguments => do Host.scalarFunction name (← evaluateAll values arguments)

def ComputedTerm.evaluateOption (values : List Value) : Option ComputedTerm → DbResult (Option Value)
  | none => .ok none
  | some term => do return some (← evaluate values term)

/-- The loop over the WHEN arms: the value of the first arm that matches. -/
def ComputedTerm.evaluateConditions (values : List Value) (operand : Option Value) :
    List (ComputedCondition × ComputedTerm) → DbResult (Option Value)
  | [] => .ok none
  | (condition, result) :: rest => do
    if ← matched values operand condition then return some (← evaluate values result)
    else evaluateConditions values operand rest

/-- A simple CASE compares its operand with the left side of the condition. -/
def ComputedTerm.matched (values : List Value) (operand : Option Value) : ComputedCondition → DbResult Bool
  | .compare left op right =>
    match operand with
    | some operand => do return compareValues operand (← evaluate values left) op == .true
    | none => do
      let lhs ← evaluate values left
      let rhs ← evaluate values right
      return compareValues lhs rhs op == .true

def ComputedTerm.evaluateFirst (values : List Value) : List ComputedTerm → DbResult Value
  | [] => .ok .null
  | argument :: rest => do
    let value ← evaluate values argument
    if value.isNull then evaluateFirst values rest else return value

def ComputedTerm.evaluateAll (values : List Value) : List ComputedTerm → DbResult (List Value)
  | [] => .ok []
  | argument :: rest => do return (← evaluate values argument) :: (← evaluateAll values rest)

end

end

mutual

def ComputedTerm.staticType (columns : List ColumnDefinition) : ComputedTerm → DbResult (Option ColumnType)
  | .cast _ columnType => .ok (some columnType)
  | .column position =>
    match columns[position]? with
    | some definition => .ok (some definition.dataType)
    | none => .error (.invalidState "compiled column is outside its input")
  | .literal value => .ok value.staticType
  | .binary _ left right => do commonType (← staticType columns left) (← staticType columns right)
  | .case _ _ _ outputType => .ok (some outputType)
  | .coalesce _ outputType => .ok (some outputType)
  | .scalar name arguments => do return scalarType name (← firstType columns arguments)

def ComputedTerm.firstType (columns : List ColumnDefinition) : List ComputedTerm → DbResult (Option ColumnType)
  | [] => .ok none
  | argument :: _ => staticType columns argument

end

/-- The common type of a list of terms, folded from the left. -/
def foldTypes (columns : List ColumnDefinition) : Option ColumnType → List ComputedTerm → DbResult (Option ColumnType)
  | kind, [] => .ok kind
  | kind, term :: rest => do foldTypes columns (← commonType kind (← term.staticType columns)) rest

def planColumn (columns : List ColumnDefinition) (name text : String) : DbResult ComputedTerm :=
  match columns.findIdx? fun column => column.name == name with
  | some position => .ok (.column position)
  | none => .error (.sqlUndefinedColumn text)

def againstNull (op : BinaryOperator) (left : ComputedTerm) : ComputedCondition :=
  .compare left op (.literal .null)

section
variable [Host] (params : List Value) (columns : List ColumnDefinition)

mutual

def planComputed : Expr → DbResult ComputedTerm
  | .cast expr dataType => do return .cast (← planComputed expr) dataType
  | .identifier name => planColumn columns name name
  | .compoundIdentifier (relation :: part :: parts) =>
    planColumn columns ((part :: parts).getLast (by simp)) (".".intercalate (relation :: part :: parts))
  | .nested inner => planComputed inner
  | .binaryOp left op right =>
    match op.arithmetic? with
    | some op => do
      let left ← planComputed left
      let right ← planComputed right
      return .binary op left right
    | none => do return .literal (← literalValue params (.binaryOp left op right))
  | .case operand conditions elseResult => do
    let operand ← planOption operand
    let conditions ← planConditions operand.isSome conditions
    let elseResult ← planOption elseResult
    let kind ← foldTypes columns none (conditions.map (·.2) ++ elseResult.toList)
    return .case operand conditions elseResult (kind.getD .text)
  | .function name args =>
    match scalarFunctionArity name with
    | some arity =>
      if args.length = arity then do return .scalar name (← planAll args)
      else .error (.sqlUnsupported "expression" "unsupported bound computed expression")
    | none =>
      if name = "coalesce" then do
        let arguments ← planAll args
        let kind ← foldTypes columns none arguments
        return .coalesce arguments (kind.getD .text)
      else do return .literal (← literalValue params (.function name args))
  | expression => do return .literal (← literalValue params expression)

def planOption : Option Expr → DbResult (Option ComputedTerm)
  | none => .ok none
  | some expr => do return some (← planComputed expr)

def planConditions (simple : Bool) : List (Expr × Expr) → DbResult (List (ComputedCondition × ComputedTerm))
  | [] => .ok []
  | (condition, result) :: rest => do
    -- a simple CASE compares its operand with the left side; the right side is never read
    let condition ←
      (if simple then againstNull .eq <$> planComputed condition else planCondition condition)
    let result ← planComputed result
    return (condition, result) :: (← planConditions simple rest)

/-- The WHEN of a searched CASE: a comparison or a NULL test. -/
def planCondition : Expr → DbResult ComputedCondition
  | .binaryOp left op right =>
    if op.isComparison then do
      let left ← planComputed left
      let right ← planComputed right
      return .compare left op right
    else .error (.sqlUnsupported "expression" "unsupported bound computed expression")
  | .isNull inner => againstNull .eq <$> planComputed inner
  | .isNotNull inner => againstNull .notEq <$> planComputed inner
  | _ => .error (.sqlUnsupported "expression" "unsupported bound computed expression")

def planAll : List Expr → DbResult (List ComputedTerm)
  | [] => .ok []
  | expr :: rest => do return (← planComputed expr) :: (← planAll rest)

end

def columnType (name text : String) : DbResult (Option ColumnType) :=
  match columns.find? fun column => column.name == name with
  | some column => .ok (some column.dataType)
  | none => .error (.sqlUndefinedColumn text)

def columnValue (row : List Value) (name text : String) : DbResult Value :=
  match columns.findIdx? fun column => column.name == name with
  | none => .error (.sqlUndefinedColumn text)
  | some position =>
    match row[position]? with
    | some value => .ok value
    | none => .error (.invalidState "row is missing a projected value")

mutual

/-- The SQL type of an expression; unknown for a bare NULL. -/
def exprType : Expr → DbResult (Option ColumnType)
  | .cast _ dataType => .ok (some dataType)
  | .identifier name => columnType columns name name
  | .compoundIdentifier (relation :: part :: parts) =>
    columnType columns ((part :: parts).getLast (by simp)) (".".intercalate (relation :: part :: parts))
  | .nested inner => exprType inner
  | .binaryOp left op right =>
    match op.arithmetic? with
    | some _ => do commonType (← exprType left) (← exprType right)
    | none => do return (← literalValue params (.binaryOp left op right)).staticType
  | .case _ conditions elseResult => do
    let kind ← resultsType none conditions
    let kind ← elseType kind elseResult
    return some (kind.getD .text)
  | .function name args =>
    match scalarFunctionArity name with
    | some _ => do return scalarType name (← headType args)
    | none =>
      if name = "coalesce" then do return some ((← foldExprTypes none args).getD .text)
      else do return (← literalValue params (.function name args)).staticType
  | expression => do return (← literalValue params expression).staticType

def resultsType (kind : Option ColumnType) : List (Expr × Expr) → DbResult (Option ColumnType)
  | [] => .ok kind
  | (_, result) :: rest => do resultsType (← commonType kind (← exprType result)) rest

def elseType (kind : Option ColumnType) : Option Expr → DbResult (Option ColumnType)
  | none => .ok kind
  | some result => do commonType kind (← exprType result)

def headType : List Expr → DbResult (Option ColumnType)
  | [] => .ok none
  | expr :: _ => exprType expr

def foldExprTypes (kind : Option ColumnType) : List Expr → DbResult (Option ColumnType)
  | [] => .ok kind
  | expr :: rest => do foldExprTypes (← commonType kind (← exprType expr)) rest

end

/-- A NULL test: `IS NULL`, or `IS NOT NULL` when negated. It is never unknown. -/
def nullTest (negated : Bool) (value : Value) : Truth := if value.isNull != negated then .true else .false

/-- The reading of a NULL test as a comparison with NULL. -/
def unknownTest (_ : Bool) (_ : Value) : Truth := .unknown

variable (test : Bool → Value → Truth) (row : List Value)

mutual

/-- The value of an expression on a row; a CASE has the value of its first arm whose condition is
true, else that of its ELSE, else NULL. `test` says how a NULL test reads. -/
def sqlValue : Expr → DbResult Value
  | .cast expr dataType => do coerceResultValue (← sqlValue expr) dataType "cast"
  | .identifier name => columnValue columns row name name
  | .compoundIdentifier (relation :: part :: parts) =>
    columnValue columns row ((part :: parts).getLast (by simp)) (".".intercalate (relation :: part :: parts))
  | .nested inner => sqlValue inner
  | .binaryOp left op right =>
    match op.arithmetic? with
    | some op => do
      let lhs ← sqlValue left
      let rhs ← sqlValue right
      arithmetic op lhs rhs
    | none => literalValue params (.binaryOp left op right)
  | .case operand conditions elseResult => do
    let kind ← exprType params columns (.case operand conditions elseResult)
    let operandValue ← sqlOption operand
    match ← firstTrue operandValue conditions with
    | some value => coerceResultValue value (kind.getD .text) "CASE"
    | none =>
      match ← sqlOption elseResult with
      | some value => coerceResultValue value (kind.getD .text) "CASE"
      | none => .ok .null
  | .function name args =>
    match scalarFunctionArity name with
    | some _ => do Host.scalarFunction name (← sqlAll args)
    | none =>
      if name = "coalesce" then do
        let kind ← exprType params columns (.function name args)
        let value ← sqlFirst args
        if value.isNull then .ok .null else coerceResultValue value (kind.getD .text) "COALESCE"
      else literalValue params (.function name args)
  | expression => literalValue params expression

def sqlOption : Option Expr → DbResult (Option Value)
  | none => .ok none
  | some expr => do return some (← sqlValue expr)

def firstTrue (operand : Option Value) : List (Expr × Expr) → DbResult (Option Value)
  | [] => .ok none
  | (condition, result) :: rest => do
    let truth ←
      (match operand with
      | some operand => (compareValues operand · .eq) <$> sqlValue condition
      | none => conditionTruth condition)
    if truth == .true then return some (← sqlValue result) else firstTrue operand rest

def conditionTruth : Expr → DbResult Truth
  | .binaryOp left op right =>
    if op.isComparison then do
      let lhs ← sqlValue left
      let rhs ← sqlValue right
      return compareValues lhs rhs op
    else .error (.sqlUnsupported "expression" "unsupported bound computed expression")
  | .isNull inner => test false <$> sqlValue inner
  | .isNotNull inner => test true <$> sqlValue inner
  | _ => .error (.sqlUnsupported "expression" "unsupported bound computed expression")

def sqlFirst : List Expr → DbResult Value
  | [] => .ok .null
  | expr :: rest => do
    let value ← sqlValue expr
    if value.isNull then sqlFirst rest else return value

def sqlAll : List Expr → DbResult (List Value)
  | [] => .ok []
  | expr :: rest => do return (← sqlValue expr) :: (← sqlAll rest)

end

variable {params columns}

theorem planColumn_eq {name text : String} {term : ComputedTerm}
    (h : planColumn columns name text = .ok term) :
    term.staticType columns = columnType columns name text ∧
      term.evaluate row = columnValue columns row name text := by
  unfold planColumn at h
  split at h
  · rename_i p hp
    cases h
    constructor
    · obtain ⟨hlt, hname, hmin⟩ := List.findIdx?_eq_some_iff_getElem.mp hp
      have hfind : columns.find? (fun column => column.name == name) = some columns[p] :=
        List.find?_eq_some_iff_getElem.mpr ⟨hname, p, hlt, rfl, by simpa using hmin⟩
      simp [ComputedTerm.staticType, columnType, hfind, List.getElem?_eq_getElem hlt]
    · simp [ComputedTerm.evaluate, columnValue, hp]
  · cases h

theorem planLiteral_eq {e : Expr} {term : ComputedTerm}
    (h : (do return .literal (← literalValue params e)) = (.ok term : DbResult ComputedTerm)) :
    term.staticType columns = (do return (← literalValue params e).staticType) ∧
      term.evaluate row = literalValue params e := by
  obtain ⟨v, hv, h⟩ := bind_eq_ok.mp h
  cases h
  rw [hv]
  exact ⟨rfl, rfl⟩

theorem planOption_isSome {e : Option Expr} {term : Option ComputedTerm} {value : Option Value}
    (hplan : planOption params columns e = .ok term)
    (hvalue : sqlOption params columns test row e = .ok value) : value.isSome = term.isSome := by
  cases e with
  | none =>
    cases hplan
    cases hvalue
    rfl
  | some e =>
    rw [planOption] at hplan
    rw [sqlOption] at hvalue
    obtain ⟨t, -, ht⟩ := bind_eq_ok.mp hplan
    obtain ⟨v, -, hv⟩ := bind_eq_ok.mp hvalue
    cases ht
    cases hv
    rfl

mutual

theorem planComputed_eq : ∀ (e : Expr) {term : ComputedTerm}, planComputed params columns e = .ok term →
    term.staticType columns = exprType params columns e ∧
      term.evaluate row = sqlValue params columns unknownTest row e
  | .cast expr dataType, term, h => by
    rw [planComputed] at h
    obtain ⟨t, ht, h⟩ := bind_eq_ok.mp h
    cases h
    obtain ⟨-, he⟩ := planComputed_eq expr ht
    simp [ComputedTerm.staticType, exprType, ComputedTerm.evaluate, sqlValue, he]
  | .identifier name, term, h => by
    rw [planComputed] at h
    rw [exprType, sqlValue]
    exact planColumn_eq row h
  | .compoundIdentifier (relation :: part :: parts), term, h => by
    rw [planComputed] at h
    rw [exprType, sqlValue]
    exact planColumn_eq row h
  | .nested inner, term, h => by
    rw [planComputed] at h
    rw [exprType, sqlValue]
    exact planComputed_eq inner h
  | .binaryOp left op right, term, h => by
    rw [planComputed] at h
    rw [exprType, sqlValue]
    cases hop : op.arithmetic? with
    | some a =>
      simp only [hop] at h
      obtain ⟨l, hl, h⟩ := bind_eq_ok.mp h
      obtain ⟨r, hr, h⟩ := bind_eq_ok.mp h
      cases h
      obtain ⟨hlt, hlv⟩ := planComputed_eq left hl
      obtain ⟨hrt, hrv⟩ := planComputed_eq right hr
      simp [ComputedTerm.staticType, ComputedTerm.evaluate, hlt, hlv, hrt, hrv]
    | none =>
      simp only [hop] at h
      exact planLiteral_eq row h
  | .case operand conditions elseResult, term, h => by
    rw [planComputed] at h
    obtain ⟨o, ho, h⟩ := bind_eq_ok.mp h
    obtain ⟨cs, hcs, h⟩ := bind_eq_ok.mp h
    obtain ⟨els, hels, h⟩ := bind_eq_ok.mp h
    obtain ⟨kind, hkind, h⟩ := bind_eq_ok.mp h
    cases h
    obtain ⟨-, hov⟩ := planOption_eq none operand ho
    obtain ⟨hct, hcv⟩ := planConditions_eq conditions hcs
    have htype : exprType params columns (.case operand conditions elseResult) =
        .ok (some (kind.getD .text)) := by
      rw [hct] at hkind
      obtain ⟨k, hk, hkind⟩ := bind_eq_ok.mp hkind
      rw [(planOption_eq k elseResult hels).1] at hkind
      simp [exprType, hk, hkind, bind, Except.bind, pure, Except.pure]
    refine ⟨by rw [ComputedTerm.staticType, htype], ?_⟩
    rw [ComputedTerm.evaluate, sqlValue, htype, hov, (planOption_eq none elseResult hels).2]
    rw [ok_bind]
    refine DbResult.bind_congr fun operandValue hvalue => ?_
    rw [hcv operandValue (planOption_isSome _ _ ho hvalue)]
    rfl
  | .function name args, term, h => by
    rw [planComputed] at h
    rw [exprType, sqlValue]
    cases hname : scalarFunctionArity name with
    | some arity =>
      simp only [hname] at h
      split at h
      · obtain ⟨ts, hts, h⟩ := bind_eq_ok.mp h
        cases h
        obtain ⟨-, hhead, -, hall⟩ := planAll_eq args hts
        simp [ComputedTerm.staticType, ComputedTerm.evaluate, hhead, hall]
      · cases h
    | none =>
      simp only [hname] at h
      dsimp only
      split at h
      · rename_i hco
        obtain ⟨ts, hts, h⟩ := bind_eq_ok.mp h
        obtain ⟨kind, hkind, h⟩ := bind_eq_ok.mp h
        cases h
        obtain ⟨hfold, -, hfirst, -⟩ := planAll_eq args hts
        rw [hfold] at hkind
        simp only [if_pos hco, hkind, exprType, hname, ComputedTerm.evaluate, hfirst,
          ComputedTerm.staticType]
        exact ⟨rfl, rfl⟩
      · rename_i hco
        rw [if_neg hco, if_neg hco]
        exact planLiteral_eq row h
  | .compoundIdentifier [], term, h | .compoundIdentifier [_], term, h | .value _, term, h
  | .unaryOp _ _, term, h | .inList _ _ _, term, h | .inSubquery _ _ _, term, h | .exists _ _, term, h
  | .between _ _ _ _, term, h | .isNull _, term, h | .isNotNull _, term, h | .wildcard, term, h
  | .other, term, h => planLiteral_eq row h

theorem planOption_eq (kind : Option ColumnType) : ∀ (e : Option Expr) {term : Option ComputedTerm},
    planOption params columns e = .ok term →
    foldTypes columns kind term.toList = elseType params columns kind e ∧
      ComputedTerm.evaluateOption row term = sqlOption params columns unknownTest row e
  | none, term, h => by
    rw [planOption] at h
    cases h
    exact ⟨rfl, rfl⟩
  | some e, term, h => by
    rw [planOption] at h
    obtain ⟨t, ht, h⟩ := bind_eq_ok.mp h
    cases h
    obtain ⟨hty, hv⟩ := planComputed_eq e ht
    constructor
    · simp [Option.toList, foldTypes, hty, elseType, DbResult.ok_eq_pure]
    · simp [ComputedTerm.evaluateOption, sqlOption, hv]

theorem planConditions_eq : ∀ (arms : List (Expr × Expr)) {simple : Bool}
    {cs : List (ComputedCondition × ComputedTerm)}, planConditions params columns simple arms = .ok cs →
    (∀ kind rest, foldTypes columns kind (cs.map (·.2) ++ rest) =
      (do foldTypes columns (← resultsType params columns kind arms) rest)) ∧
    ∀ operand : Option Value, operand.isSome = simple →
      ComputedTerm.evaluateConditions row operand cs =
        firstTrue params columns unknownTest row operand arms
  | [], simple, cs, h => by
    rw [planConditions] at h
    cases h
    exact ⟨fun _ _ => rfl, fun _ _ => rfl⟩
  | (condition, result) :: rest, simple, cs, h => by
    rw [planConditions] at h
    obtain ⟨c, hc, h⟩ := bind_eq_ok.mp h
    obtain ⟨t, ht, h⟩ := bind_eq_ok.mp h
    obtain ⟨tail, htail, h⟩ := bind_eq_ok.mp h
    cases h
    obtain ⟨hty, hv⟩ := planComputed_eq result ht
    obtain ⟨htypes, hvalues⟩ := planConditions_eq rest htail
    constructor
    · intro kind rest
      simp [foldTypes, hty, resultsType, htypes]
    · intro operand hoperand
      have hmatched : ComputedTerm.matched row operand c = (do
          return (← match operand with
            | some operand => (compareValues operand · .eq) <$> sqlValue params columns unknownTest row condition
            | none => conditionTruth params columns unknownTest row condition) == .true) := by
        subst hoperand
        cases operand with
        | none => exact planCondition_eq condition hc
        | some operand =>
          obtain ⟨l, hl, rfl⟩ := map_eq_ok.mp hc
          simp [againstNull, ComputedTerm.matched, (planComputed_eq condition hl).2]
      rw [ComputedTerm.evaluateConditions, hmatched, hvalues operand hoperand, hv]
      cases operand <;> simp [firstTrue]

theorem planCondition_eq : ∀ (e : Expr) {c : ComputedCondition}, planCondition params columns e = .ok c →
    ComputedTerm.matched row none c =
      (do return (← conditionTruth params columns unknownTest row e) == .true)
  | .binaryOp left op right, c, h => by
    rw [planCondition] at h
    split at h
    · rename_i hop
      obtain ⟨l, hl, h⟩ := bind_eq_ok.mp h
      obtain ⟨r, hr, h⟩ := bind_eq_ok.mp h
      cases h
      obtain ⟨-, hlv⟩ := planComputed_eq left hl
      obtain ⟨-, hrv⟩ := planComputed_eq right hr
      simp [ComputedTerm.matched, conditionTruth, hop, hlv, hrv]
    · cases h
  | .isNull inner, c, h | .isNotNull inner, c, h => by
    rw [planCondition] at h
    obtain ⟨l, hl, rfl⟩ := map_eq_ok.mp h
    simp [againstNull, ComputedTerm.matched, ComputedTerm.evaluate, conditionTruth,
      (planComputed_eq inner hl).2, unknownTest, DbResult.ok_eq_pure]
  | .identifier _, c, h | .compoundIdentifier _, c, h | .nested _, c, h | .value _, c, h
  | .unaryOp _ _, c, h | .inList _ _ _, c, h | .inSubquery _ _ _, c, h | .exists _ _, c, h
  | .between _ _ _ _, c, h | .case _ _ _, c, h | .cast _ _, c, h | .function _ _, c, h | .wildcard, c, h
  | .other, c, h => by cases h

theorem planAll_eq : ∀ (es : List Expr) {terms : List ComputedTerm}, planAll params columns es = .ok terms →
    (∀ kind, foldTypes columns kind terms = foldExprTypes params columns kind es) ∧
      ComputedTerm.firstType columns terms = headType params columns es ∧
      ComputedTerm.evaluateFirst row terms = sqlFirst params columns unknownTest row es ∧
      ComputedTerm.evaluateAll row terms = sqlAll params columns unknownTest row es
  | [], terms, h => by
    rw [planAll] at h
    cases h
    exact ⟨fun _ => rfl, rfl, rfl, rfl⟩
  | e :: rest, terms, h => by
    rw [planAll] at h
    obtain ⟨t, ht, h⟩ := bind_eq_ok.mp h
    obtain ⟨ts, hts, h⟩ := bind_eq_ok.mp h
    cases h
    obtain ⟨hty, hv⟩ := planComputed_eq e ht
    obtain ⟨hfold, -, hfirst, hall⟩ := planAll_eq rest hts
    refine ⟨fun kind => ?_, ?_, ?_, ?_⟩
    · simp [foldTypes, foldExprTypes, hty, hfold]
    · simp [ComputedTerm.firstType, headType, hty]
    · simp [ComputedTerm.evaluateFirst, sqlFirst, hv, hfirst]
    · simp [ComputedTerm.evaluateAll, sqlAll, hv, hall]

end

variable (params columns)

mutual

/-- Evaluating the expression on the row comes to no `IS [NOT] NULL` condition of a CASE that is
true. The arms after the first true one are not come to. -/
def NullTestsFail : Expr → Prop
  | .cast expr _ => NullTestsFail expr
  | .nested inner => NullTestsFail inner
  | .binaryOp left _ right => NullTestsFail left ∧ NullTestsFail right
  | .case operand conditions elseResult =>
    NullTestsFailOption operand ∧ NullTestsFailOption elseResult ∧
      ∀ value, sqlOption params columns nullTest row operand = .ok value → NullTestsFailArms value conditions
  | .function _ args => NullTestsFailAll args
  | _ => True

def NullTestsFailOption : Option Expr → Prop
  | none => True
  | some expr => NullTestsFail expr

def NullTestsFailArms (operand : Option Value) : List (Expr × Expr) → Prop
  | [] => True
  | (condition, result) :: rest =>
    match operand with
    | some operand => NullTestsFail condition ∧ NullTestsFail result ∧
      ((compareValues operand · .eq) <$> sqlValue params columns nullTest row condition ≠ .ok .true →
        NullTestsFailArms (some operand) rest)
    | none => NullTestFails condition ∧ NullTestsFail result ∧
      (conditionTruth params columns nullTest row condition ≠ .ok .true → NullTestsFailArms none rest)

def NullTestFails : Expr → Prop
  | .binaryOp left _ right => NullTestsFail left ∧ NullTestsFail right
  | .isNull inner => NullTestsFail inner ∧ nullTest false <$> sqlValue params columns nullTest row inner ≠ .ok .true
  | .isNotNull inner => NullTestsFail inner ∧ nullTest true <$> sqlValue params columns nullTest row inner ≠ .ok .true
  | _ => True

def NullTestsFailAll : List Expr → Prop
  | [] => True
  | expr :: rest => NullTestsFail expr ∧ NullTestsFailAll rest

end

variable {params columns}

omit [Host] in
/-- A NULL test that is not true does not choose its arm, and neither does an unknown one. -/
theorem bind_nullTest {negated : Bool} {value : DbResult Value} {next : Bool → DbResult (Option Value)}
    (h : nullTest negated <$> value ≠ .ok .true) :
    (do next ((← nullTest negated <$> value) == Truth.true)) =
      (do next ((← unknownTest negated <$> value) == Truth.true)) := by
  rcases value with e | value
  · rfl
  · have htest : (nullTest negated value == Truth.true) = false :=
      beq_eq_false_iff_ne.2 fun heq => h (congrArg Except.ok heq)
    exact congrArg next htest

mutual

theorem sqlValue_of_nullTestsFail : ∀ e : Expr, NullTestsFail params columns row e →
    sqlValue params columns nullTest row e = sqlValue params columns unknownTest row e
  | .cast expr dataType, h => by
    rw [NullTestsFail] at h
    rw [sqlValue, sqlValue, sqlValue_of_nullTestsFail expr h]
  | .identifier name, _ => by simp only [sqlValue]
  | .compoundIdentifier (relation :: part :: parts), _ => by simp only [sqlValue]
  | .nested inner, h => by
    rw [NullTestsFail] at h
    rw [sqlValue, sqlValue, sqlValue_of_nullTestsFail inner h]
  | .binaryOp left op right, h => by
    rw [NullTestsFail] at h
    rw [sqlValue, sqlValue, sqlValue_of_nullTestsFail left h.1, sqlValue_of_nullTestsFail right h.2]
  | .case operand conditions elseResult, h => by
    rw [NullTestsFail] at h
    obtain ⟨hoperand, helse, harms⟩ := h
    rw [sqlValue, sqlValue, ← sqlOption_of_nullTestsFail operand hoperand,
      ← sqlOption_of_nullTestsFail elseResult helse]
    refine DbResult.bind_congr fun kind _ => DbResult.bind_congr fun value hvalue => ?_
    rw [firstTrue_of_nullTestsFail conditions value (harms value hvalue)]
  | .function name args, h => by
    rw [NullTestsFail] at h
    obtain ⟨hfirst, hall⟩ := sqlAll_of_nullTestsFail args h
    rw [sqlValue, sqlValue, hfirst, hall]
  | .compoundIdentifier [], _ | .compoundIdentifier [_], _ | .value _, _ | .unaryOp _ _, _
  | .inList _ _ _, _ | .inSubquery _ _ _, _ | .exists _ _, _ | .between _ _ _ _, _ | .isNull _, _
  | .isNotNull _, _ | .wildcard, _ | .other, _ => by simp only [sqlValue]

theorem sqlOption_of_nullTestsFail : ∀ e : Option Expr, NullTestsFailOption params columns row e →
    sqlOption params columns nullTest row e = sqlOption params columns unknownTest row e
  | none, _ => by rw [sqlOption, sqlOption]
  | some e, h => by
    rw [NullTestsFailOption] at h
    rw [sqlOption, sqlOption, sqlValue_of_nullTestsFail e h]

theorem firstTrue_of_nullTestsFail : ∀ (arms : List (Expr × Expr)) (operand : Option Value),
    NullTestsFailArms params columns row operand arms →
    firstTrue params columns nullTest row operand arms = firstTrue params columns unknownTest row operand arms
  | [], _, _ => by rw [firstTrue, firstTrue]
  | (condition, result) :: rest, some operand, h => by
    rw [NullTestsFailArms] at h
    obtain ⟨hcondition, hresult, hrest⟩ := h
    rw [firstTrue, firstTrue, ← sqlValue_of_nullTestsFail condition hcondition,
      sqlValue_of_nullTestsFail result hresult]
    refine DbResult.bind_congr fun truth htruth => ?_
    split
    · rfl
    · next hne => exact firstTrue_of_nullTestsFail rest _ (hrest (by rw [htruth]; simpa using hne))
  | (condition, result) :: rest, none, h => by
    rw [NullTestsFailArms] at h
    obtain ⟨hcondition, hresult, hrest⟩ := h
    rw [firstTrue, firstTrue, sqlValue_of_nullTestsFail result hresult]
    -- first the arms that follow, then whether the condition itself is true
    refine (DbResult.bind_congr fun truth htruth => ?_).trans
      (conditionTruth_of_nullTestFails condition hcondition fun isTrue => if isTrue then _ else _)
    split
    · rfl
    · next hne => exact firstTrue_of_nullTestsFail rest _ (hrest (by rw [htruth]; simpa using hne))

theorem conditionTruth_of_nullTestFails : ∀ e : Expr, NullTestFails params columns row e →
    ∀ next : Bool → DbResult (Option Value),
      (do next ((← conditionTruth params columns nullTest row e) == Truth.true)) =
        (do next ((← conditionTruth params columns unknownTest row e) == Truth.true))
  | .binaryOp left op right, h, _ => by
    rw [NullTestFails] at h
    rw [conditionTruth, conditionTruth, sqlValue_of_nullTestsFail left h.1, sqlValue_of_nullTestsFail right h.2]
  | .isNull inner, h, _ | .isNotNull inner, h, _ => by
    rw [NullTestFails] at h
    rw [conditionTruth, conditionTruth, ← sqlValue_of_nullTestsFail inner h.1]
    exact bind_nullTest h.2
  | .cast _ _, _, _ | .identifier _, _, _ | .compoundIdentifier _, _, _ | .nested _, _, _
  | .case _ _ _, _, _ | .function _ _, _, _ | .value _, _, _ | .unaryOp _ _, _, _ | .inList _ _ _, _, _
  | .inSubquery _ _ _, _, _ | .exists _ _, _, _ | .between _ _ _ _, _, _ | .wildcard, _, _ | .other, _, _ => by
    simp only [conditionTruth]

theorem sqlAll_of_nullTestsFail : ∀ es : List Expr, NullTestsFailAll params columns row es →
    sqlFirst params columns nullTest row es = sqlFirst params columns unknownTest row es ∧
      sqlAll params columns nullTest row es = sqlAll params columns unknownTest row es
  | [], _ => by rw [sqlFirst, sqlFirst, sqlAll, sqlAll]; exact ⟨rfl, rfl⟩
  | e :: rest, h => by
    rw [NullTestsFailAll] at h
    obtain ⟨hfirst, hall⟩ := sqlAll_of_nullTestsFail rest h.2
    rw [sqlFirst, sqlFirst, sqlAll, sqlAll, sqlValue_of_nullTestsFail e h.1, hfirst, hall]
    exact ⟨rfl, rfl⟩

end

end

/-- `CASE WHEN x = 5 THEN 1 WHEN x IS NULL THEN 2 ELSE 0 END`. -/
def fiveOrNull : Expr :=
  .case none
    [(.binaryOp (.identifier "x") .eq (.value (.integer ⟨5, I64.five_fits⟩)), .value (.integer ⟨1, I64.one_fits⟩)),
      (.isNull (.identifier "x"), .value (.integer ⟨2, I64.two_fits⟩))]
    (some (.value (.integer ⟨0, I64.zero_fits⟩)))

/-- What `fiveOrNull` compiles to, over the single column `x`. -/
def fiveOrNullTerm : ComputedTerm :=
  .case none
    [(.compare (.column 0) .eq (.literal (.i64 ⟨5, I64.five_fits⟩)), .literal (.i64 ⟨1, I64.one_fits⟩)),
      (.compare (.column 0) .eq (.literal .null), .literal (.i64 ⟨2, I64.two_fits⟩))]
    (some (.literal (.i64 ⟨0, I64.zero_fits⟩))) .i64

end OmenDb.Sql
