import OmenDb.Sql.Expr

/-! The choice of an access path for a WHERE. The planner reads the equalities between a column and a
literal off a conjunction and converts each literal with the rules for stored values; the evaluator
compares across types. -/
namespace OmenDb.Sql

inductive IndexKeyPart
  | column (id : ℕ)
  | expression
  deriving DecidableEq

def IndexKeyPart.asColumn : IndexKeyPart → Option ℕ
  | .column id => some id
  | .expression => none

structure IndexDefinition where
  id : ℕ
  table : ℕ
  parts : List IndexKeyPart
  predicate : Option (List (ℕ × Value))

/-- Primary keys by table, and the indexes in the order of their identities. -/
structure Catalog where
  primaryKey : ℕ → Option (List ℕ)
  indexes : List IndexDefinition

inductive PredicatePlan
  | primaryKeyLookup (primaryKey : List ℕ)
  | indexScan (index : ℕ) (columns : List ℕ)
  | nullShortCircuit
  deriving DecidableEq

section
variable [Host] (params : List Value) (table : TableDefinition)

/-- One `column = literal` of `collect_equality_terms`. The position is one that `column_position`
gave. -/
def equalityTerm (position : ℕ) (literal : Expr) (terms : List (ℕ × Value)) : DbResult (Bool × List (ℕ × Value)) :=
  match table.columns[position]? with
  | none => .error (.invalidState "index out of bounds")
  | some column => do
    let value ← literalValue params literal
    let value ← coerceValue value column
    return (true, terms ++ [(position, value)])

/-- `collect_equality_terms`: whether the condition has a shape the planner knows, and its terms. -/
def collectEqualityTerms : Expr → List (ℕ × Value) → DbResult (Bool × List (ℕ × Value))
  | .nested inner, terms => collectEqualityTerms inner terms
  | .binaryOp left op right, terms =>
    if op = .and then
      match collectEqualityTerms left terms with
      | .error error => .error error
      | .ok (false, terms) => .ok (false, terms)
      | .ok (true, terms) => collectEqualityTerms right terms
    else if op = .eq then
      match columnPosition table left, columnPosition table right with
      | .error error, _ => .error error
      | .ok _, .error error => .error error
      | .ok (some position), .ok none => equalityTerm params table position right terms
      | .ok none, .ok (some position) => equalityTerm params table position left terms
      | .ok _, .ok _ => .ok (false, terms)
    else .ok (false, terms)
  | _, terms => .ok (false, terms)

def bindings (terms : List (ℕ × Value)) (column : ℕ) : ℕ :=
  terms.countP fun term => decide ((table.columns[term.1]?).map ColumnDefinition.id = some column)

def columnsCoveredExactlyOnce (columns : List ℕ) (terms : List (ℕ × Value)) : Bool :=
  decide (columns.length = terms.length) && columns.all fun column => decide (bindings table terms column = 1)

/-- The columns of an index that the terms bind, if it can be used. -/
def candidateColumns (primaryKey : List ℕ) (terms : List (ℕ × Value)) (index : IndexDefinition) : Option (List ℕ) :=
  match index.parts.mapM IndexKeyPart.asColumn with
  | none => none
  | some columns =>
    if columns = [] ∨ columns.all (· ∈ primaryKey) then none
    else
      match index.predicate with
      | none => if columnsCoveredExactlyOnce table columns terms then some columns else none
      | some wanted =>
        if wanted.all (fun want => terms.any fun term =>
            decide ((table.columns[term.1]?).map ColumnDefinition.id = some want.1) && term.2.same want.2) ∧
          columns.all fun column => decide (bindings table terms column = 1) then some columns else none

/-- `min_by`: most columns first, then the lowest identity. -/
def bestCandidate : List (ℕ × List ℕ) → Option (ℕ × List ℕ)
  | [] => none
  | candidate :: rest =>
    match bestCandidate rest with
    | none => some candidate
    | some best =>
      if candidate.2.length < best.2.length ∨ (candidate.2.length = best.2.length ∧ best.1 < candidate.1) then some best
      else some candidate

def resolvePredicatePlan (catalog : Catalog) (selection : Option Expr) : DbResult (Option PredicatePlan) :=
  match selection with
  | none => .ok none
  | some selection =>
    match collectEqualityTerms params table selection [] with
    | .error error => .error error
    | .ok (false, _) => .ok none
    | .ok (true, terms) =>
      if terms.any fun term => term.2.isNull then .ok (some .nullShortCircuit)
      else
        let primaryKey := (catalog.primaryKey table.id).getD []
        if primaryKey ≠ [] ∧ columnsCoveredExactlyOnce table primaryKey terms
          then .ok (some (.primaryKeyLookup primaryKey))
        else
          let candidates := (catalog.indexes.filter fun index => decide (index.table = table.id)).filterMap fun index =>
            (candidateColumns table primaryKey terms index).map fun columns => (index.id, columns)
          .ok ((bestCandidate candidates).map fun candidate => .indexScan candidate.1 candidate.2)

end

def RowOf (table : TableDefinition) (row : List Value) : Prop :=
  List.Forall₂ (fun value column => value.matches column.dataType = true ∧
    (value.isNull = true → column.nullable = true)) row table.columns

def ColumnType.sample : ColumnType → Value
  | .bytes => .bytes []
  | .bool => .bool false
  | .i64 => .i64 ⟨0, I64.zero_fits⟩
  | .u64 => .u64 ⟨0, by decide⟩
  | .text => .text ""
  | .float64 => .float64 ⟨0⟩
  | .date => .date ⟨0, by decide⟩
  | .timestamp => .timestamp ⟨0, I64.zero_fits⟩
  | .decimal => .decimal ⟨0, 0, by decide, by decide⟩
  | .uuid => .uuid ⟨List.replicate 16 0, by decide⟩

theorem exists_rowOf (table : TableDefinition) : ∃ row, RowOf table row := by
  refine ⟨table.columns.map fun column => column.dataType.sample, ?_⟩
  rw [RowOf, List.forall₂_map_left_iff]
  refine List.forall₂_same.mpr fun column _ => ?_
  cases column.dataType <;> simp [ColumnType.sample, Value.matches, Value.isNull]

def Expr.conjuncts : Expr → List Expr
  | .nested inner => inner.conjuncts
  | .binaryOp left .and right => left.conjuncts ++ right.conjuncts
  | expression => [expression]

/-- The column and the other side of an equality between a column of the table and something else. -/
def equality? (table : TableDefinition) : Expr → Option (ℕ × Expr)
  | .binaryOp left .eq right =>
    match columnPosition table left, columnPosition table right with
    | .ok (some position), .ok none => some (position, right)
    | .ok none, .ok (some position) => some (position, left)
    | _, _ => none
  | _ => none

/-- The equalities up to the first conjunct that is none. -/
def leadingEqualities (table : TableDefinition) (conjuncts : List Expr) : List (ℕ × Expr) :=
  (conjuncts.takeWhile fun conjunct => (equality? table conjunct).isSome).filterMap (equality? table)

def Modelled (table : TableDefinition) (expression : Expr) : Bool :=
  expression.conjuncts.all fun conjunct => (equality? table conjunct).isSome

theorem leadingEqualities_append {table : TableDefinition} (left right : List Expr) :
    leadingEqualities table (left ++ right) =
      if left.all fun conjunct => (equality? table conjunct).isSome then
        leadingEqualities table left ++ leadingEqualities table right
      else leadingEqualities table left := by
  induction left with
  | nil => rfl
  | cons conjunct left ih =>
    simp only [leadingEqualities, List.cons_append, List.takeWhile_cons, List.all_cons] at ih ⊢
    cases hequality : equality? table conjunct with
    | none => simp
    | some pair =>
      simp only [Option.isSome_some, if_true, List.filterMap_cons, hequality, ih, Bool.true_and]
      split <;> rfl

/-- Arithmetic, which the evaluator carries out and the planner does not take for a literal. -/
def Expr.isArithmetic : Expr → Bool
  | .binaryOp _ op _ => op.isArithmetic
  | _ => false

section
variable [Host] (params : List Value) (table : TableDefinition) (subqueries : ResolvedSubqueries)

/-- The values that can be written to a column, by its type and nullability. -/
def ColumnDefinition.Admits (column : ColumnDefinition) : Value → Prop
  | .null => column.nullable = true
  | .i64 n => column.dataType ∈ [.i64, .decimal, .float64] ∨ column.dataType = .u64 ∧ 0 ≤ n.val
  | .u64 n => column.dataType ∈ [.u64, .decimal, .float64] ∨ column.dataType = .i64 ∧ n.val < 2 ^ 63
  | .decimal _ => column.dataType ∈ [.decimal, .float64]
  | .text text =>
    match column.dataType with
    | .text => True
    | .float64 => (Host.parseFloat text).isSome = true
    | .date => (Host.parseDate text).isSome = true
    | .timestamp => (Host.parseTimestamp text).isSome = true
    | .decimal => (Host.parseDecimal text).isSome = true
    | .uuid => (Host.parseUuid text).isSome = true
    | .bytes => ∃ digits, text.toList = '\\' :: 'x' :: digits ∧ Even digits.length ∧
        ∀ digit ∈ digits, (hexDigit digit).isSome = true
    | .bool | .i64 | .u64 => False
  | value => value.matches column.dataType = true

/-- The other side of an equality is a literal, not arithmetic, and its value can be written to the
column. -/
def Storable (position : ℕ) (literal : Expr) : Prop :=
  literal.isArithmetic = false ∧ ∀ value column, literalValue params literal = .ok value →
    table.columns[position]? = some column → column.Admits value

/-- Every literal in the leading equalities can be written to its column. -/
def Plannable (expression : Expr) : Prop :=
  ∀ pair ∈ leadingEqualities table expression.conjuncts, Storable params table pair.1 pair.2

/-- The condition can be evaluated on every row the table may hold. -/
def Evaluates (expression : Expr) : Prop :=
  ∀ row, RowOf table row → ∃ truth, predicate params table row subqueries expression = .ok truth

variable {params table subqueries}

theorem Evaluates.nested {inner : Expr} (h : Evaluates params table subqueries (.nested inner)) :
    Evaluates params table subqueries inner := by
  intro row hrow
  obtain ⟨truth, htruth⟩ := h row hrow
  rw [predicate] at htruth
  exact ⟨truth, htruth⟩

variable {left right expression : Expr} {row : List Value} {value : Value} {position : ℕ}

theorem Evaluates.and (h : Evaluates params table subqueries (.binaryOp left .and right)) :
    Evaluates params table subqueries left ∧ Evaluates params table subqueries right := by
  have hsides : ∀ row, RowOf table row → (∃ truth, predicate params table row subqueries left = .ok truth) ∧
      ∃ truth, predicate params table row subqueries right = .ok truth := by
    intro row hrow
    obtain ⟨truth, htruth⟩ := h row hrow
    rw [predicate, if_pos rfl] at htruth
    obtain ⟨l, hl, hrest⟩ := bind_eq_ok.mp htruth
    obtain ⟨r, hr, -⟩ := bind_eq_ok.mp hrest
    exact ⟨⟨l, hl⟩, ⟨r, hr⟩⟩
  exact ⟨fun row hrow => (hsides row hrow).1, fun row hrow => (hsides row hrow).2⟩

theorem Evaluates.eq (h : Evaluates params table subqueries (.binaryOp left .eq right)) :
    ∃ row l r, evalExpression params table row left = .ok l ∧ evalExpression params table row right = .ok r := by
  obtain ⟨row, hrow⟩ := exists_rowOf table
  obtain ⟨truth, htruth⟩ := h row hrow
  rw [predicate, if_neg (by decide), if_neg (by decide), if_pos (by decide), comparePredicate] at htruth
  obtain ⟨l, hl, hrest⟩ := bind_eq_ok.mp htruth
  obtain ⟨r, hr, -⟩ := bind_eq_ok.mp hrest
  exact ⟨row, l, r, hl, hr⟩

theorem columnPosition_of_eval (h : evalExpression params table row expression = .ok value) :
    ∃ position, columnPosition table expression = .ok position := by
  cases expression with
  | compoundIdentifier parts =>
    rw [evalExpression, evalExpression.column] at h
    obtain ⟨position, hposition, -⟩ := bind_eq_ok.mp h
    exact ⟨position, hposition⟩
  | _ => exact ⟨_, rfl⟩

theorem literalValue_of_eval
    (h : evalExpression params table row expression = .ok value) (hcolumn : columnPosition table expression = .ok none)
    (harith : expression.isArithmetic = false) : literalValue params expression = .ok value := by
  cases expression with
  | identifier name | compoundIdentifier parts =>
    rw [evalExpression, evalExpression.column, hcolumn] at h
    cases h
  | binaryOp left op right =>
    have hop : op.arithmetic? = none := by
      cases op <;> first | rfl | cases harith
    rw [evalExpression, hop] at h
    exact h
  | _ => exact h

theorem literalValue_arithmetic {expression : Expr} (h : expression.isArithmetic = true) :
    ∃ error, literalValue params expression = .error error := by
  cases expression with
  | binaryOp left op right => exact ⟨_, by simp [literalValue]; rfl⟩
  | _ => cases h

omit [Host] in
theorem column_of_position (h : columnPosition table expression = .ok (some position)) :
    ∃ column, table.columns[position]? = some column := by
  have hfind : ∃ name, (table.columns.findIdx? fun column => column.name == name) = some position := by
    unfold columnPosition at h
    split at h
    · exact ⟨_, Except.ok.inj h⟩
    · exact ⟨_, Except.ok.inj h⟩
    · cases h
    · cases h
  obtain ⟨name, hfind⟩ := hfind
  obtain ⟨hlt, -⟩ := List.findIdx?_eq_some_iff_getElem.mp hfind
  exact ⟨_, List.getElem?_eq_getElem hlt⟩

omit [Host] in
theorem decodeHex_ok_iff (digits : List Char) : (∃ bytes, decodeHex digits = .ok bytes) ↔
    Even digits.length ∧ ∀ digit ∈ digits, (hexDigit digit).isSome = true := by
  induction digits using decodeHex.induct with
  | case1 => exact iff_of_true ⟨[], rfl⟩ ⟨by decide, by simp⟩
  | case2 digit => exact iff_of_false (by simp [decodeHex]) (by simp)
  | case3 high low rest h l hhigh hlow ih =>
    have hok : (∃ bytes, decodeHex (high :: low :: rest) = .ok bytes) ↔ ∃ bytes, decodeHex rest = .ok bytes := by
      simp only [decodeHex, hhigh, hlow]
      cases decodeHex rest with
      | ok bytes => exact iff_of_true ⟨_, rfl⟩ ⟨_, rfl⟩
      | error e => exact iff_of_false (by rintro ⟨_, ⟨⟩⟩) (by rintro ⟨_, ⟨⟩⟩)
    rw [hok, ih]
    simp [hhigh, hlow, Nat.even_add_one]
  | case4 high low rest hdigits =>
    refine iff_of_false ?_ fun h => ?_
    · rintro ⟨bytes, h⟩
      rw [decodeHex] at h
      split at h
      · next hhigh hlow => exact hdigits _ _ hhigh hlow
      · cases h
    · obtain ⟨h', hhigh⟩ := Option.isSome_iff_exists.mp (h.2 high (by simp))
      obtain ⟨l', hlow⟩ := Option.isSome_iff_exists.mp (h.2 low (by simp))
      exact hdigits h' l' hhigh hlow

omit [Host] in
theorem decimal_ofInt_isSome {n : ℤ} (h : n.natAbs < 2 ^ 64) : (DecimalValue.new n 0).toOption.isSome = true := by
  have hpow : 2 ^ 64 ≤ 10 ^ decimalMaxPrecision := by decide
  have hdigits : DecimalValue.digitCount n + 0 ≤ decimalMaxPrecision :=
    (Nat.digits_length_le_iff (by norm_num) _).mpr (h.trans_le hpow)
  rw [DecimalValue.new, if_neg (by decide), dif_pos hdigits]
  rfl

omit [Host] in
theorem exists_parsed {α : Type} {column : ColumnDefinition} {make : α → Value} {P : Value → Prop} (h : ∀ a, P (make a))
    (read : Option α) : (∃ stored, parsed column make read = .ok stored ∧ P stored) ↔ read.isSome = true := by
  cases read with
  | none => simp [parsed]
  | some a => simp [parsed, h]

omit [Host] in
theorem exists_fits {α : Type} {column : ColumnDefinition} {make : α → Value} {P : Value → Prop} (h : ∀ a, P (make a))
    (converted : Option α) : (∃ stored, fits column make converted = .ok stored ∧ P stored) ↔
      converted.isSome = true := by
  cases converted with
  | none => simp [fits]
  | some a => simp [fits, h]

/-- What `coerce_value` asks of the converted value. -/
def ColumnDefinition.Holds (column : ColumnDefinition) (value : Value) : Prop :=
  (value.isNull = true → column.nullable = true) ∧ value.matches column.dataType = true

omit [Host] in
theorem admits_hex {column : ColumnDefinition} (text : String) (h : ∀ bytes, column.Holds (.bytes bytes)) :
    (∃ digits, text.toList = '\\' :: 'x' :: digits ∧ Even digits.length ∧
        ∀ digit ∈ digits, (hexDigit digit).isSome = true) ↔
      ∃ stored, (match text.toList with
        | '\\' :: 'x' :: digits => do return .bytes (← decodeHex digits)
        | _ => .error (.sqlDatatypeMismatch column.name) : DbResult Value) = .ok stored ∧ column.Holds stored := by
  split
  · next digits hdigits =>
    have hread : (∃ digits', text.toList = '\\' :: 'x' :: digits' ∧ Even digits'.length ∧
        ∀ digit ∈ digits', (hexDigit digit).isSome = true) ↔
          Even digits.length ∧ ∀ digit ∈ digits, (hexDigit digit).isSome = true := by
      simp [hdigits]
    rw [hread, ← decodeHex_ok_iff]
    cases decodeHex digits with
    | ok bytes => exact iff_of_true ⟨_, rfl⟩ ⟨_, rfl, h bytes⟩
    | error e => exact iff_of_false (by rintro ⟨_, ⟨⟩⟩) (by rintro ⟨_, ⟨⟩, _⟩)
  · next hother =>
    refine iff_of_false ?_ (by rintro ⟨_, ⟨⟩, _⟩)
    rintro ⟨digits, hdigits, -⟩
    exact hother digits hdigits

theorem coerceValue_ok_iff {column : ColumnDefinition} {value : Value} :
    (∃ stored, coerceValue value column = .ok stored) ↔
    ∃ stored, convertValue value column = .ok stored ∧ column.Holds stored := by
  rw [coerceValue]
  cases convertValue value column with
  | error e => exact iff_of_false (by rintro ⟨_, ⟨⟩⟩) (by rintro ⟨_, ⟨⟩, _⟩)
  | ok value =>
    rw [ok_bind]
    have hholds : (∃ stored, Except.ok value = (.ok stored : DbResult Value) ∧ column.Holds stored) ↔
        column.Holds value := by
      simp
    rw [hholds, ColumnDefinition.Holds]
    generalize value.isNull = isNull, column.nullable = nullable, value.matches column.dataType = typed
    cases isNull <;> cases nullable <;> cases typed <;> simp

omit [Host] in
theorem unsigned_isSome_iff (n : I64) : (U64.tryFrom n.val).isSome = true ↔ 0 ≤ n.val := by
  have := n.2
  unfold U64.tryFrom
  split <;> simp <;> omega

omit [Host] in
theorem signed_isSome_iff (n : U64) : (I64.tryFrom n.val).isSome = true ↔ n.val < 2 ^ 63 := by
  unfold I64.tryFrom
  split <;> simp <;> omega

omit [Host] in
theorem natAbs_i64_lt (n : I64) : n.val.natAbs < 2 ^ 64 := by
  have := n.2
  omega

/-- Converting a literal for storage succeeds exactly on the values the column admits. -/
theorem admits_iff (column : ColumnDefinition) (value : Value) :
    column.Admits value ↔ ∃ stored, coerceValue value column = .ok stored := by
  rw [coerceValue_ok_iff]
  obtain ⟨id, name, dataType, nullable⟩ := column
  have hholds : ∀ value : Value, value ≠ .null →
      (ColumnDefinition.Holds ⟨id, name, dataType, nullable⟩ value ↔ value.matches dataType = true) := by
    intro value hvalue
    simp [ColumnDefinition.Holds, hvalue]
  have hok : ∀ value : Value, value ≠ .null → ((∃ stored, (.ok value : DbResult Value) = .ok stored ∧
      ColumnDefinition.Holds ⟨id, name, dataType, nullable⟩ stored) ↔ value.matches dataType = true) := by
    intro value hvalue
    simp [hholds value hvalue]
  cases value with
  | null =>
    have hnull : convertValue .null ⟨id, name, dataType, nullable⟩ = .ok .null := rfl
    rw [hnull]
    simp [ColumnDefinition.Admits, ColumnDefinition.Holds, Value.matches]
  | i64 n =>
    cases dataType
    case u64 =>
      refine Iff.trans ?_ (exists_fits (fun v => (hholds _ (by simp)).mpr rfl) _).symm
      simp [ColumnDefinition.Admits, unsigned_isSome_iff]
    case decimal =>
      refine Iff.trans ?_ (exists_fits (fun v => (hholds _ (by simp)).mpr rfl) _).symm
      simp [ColumnDefinition.Admits, decimal_ofInt_isSome (n := n.val) (natAbs_i64_lt n)]
    all_goals
      refine Iff.trans ?_ (hok _ (by simp)).symm
      simp [ColumnDefinition.Admits, Value.matches]
  | u64 n =>
    cases dataType
    case i64 =>
      have hconvert : convertValue (.u64 n) ⟨id, name, .i64, nullable⟩ =
          fits ⟨id, name, .i64, nullable⟩ .i64 (I64.tryFrom n.val) := rfl
      rw [hconvert, exists_fits fun v => (hholds (.i64 v) (by simp)).mpr rfl, signed_isSome_iff]
      simp [ColumnDefinition.Admits]
    case decimal =>
      refine Iff.trans ?_ (exists_fits (fun v => (hholds _ (by simp)).mpr rfl) _).symm
      simp [ColumnDefinition.Admits, decimal_ofInt_isSome (n := n.val) n.2]
    all_goals
      refine Iff.trans ?_ (hok _ (by simp)).symm
      simp [ColumnDefinition.Admits, Value.matches]
  | decimal d =>
    cases dataType
    all_goals
      refine Iff.trans ?_ (hok _ (by simp)).symm
      simp [ColumnDefinition.Admits, Value.matches]
  | text text =>
    cases dataType
    case bytes => exact admits_hex _ fun bytes => (hholds _ (by simp)).mpr rfl
    case float64 | date | timestamp | decimal | uuid =>
      exact (exists_parsed (fun v => (hholds _ (by simp)).mpr rfl) _).symm
    all_goals
      refine Iff.trans ?_ (hok _ (by simp)).symm
      simp [ColumnDefinition.Admits, Value.matches]
  | _ => exact (hok _ (by simp)).symm

theorem equalityTerm_iff {column literal : Expr} {terms : List (ℕ × Value)}
    (hposition : columnPosition table column = .ok (some position)) (hliteral : columnPosition table literal = .ok none)
    (heval : evalExpression params table row literal = .ok value) :
    (Storable params table position literal ∧
        ∃ terms', equalityTerm params table position literal terms = .ok (true, terms')) ∨
      (¬Storable params table position literal ∧
        ∃ error, equalityTerm params table position literal terms = .error error) := by
  obtain ⟨definition, hcolumn⟩ := column_of_position hposition
  rw [equalityTerm, hcolumn]
  dsimp only
  by_cases harith : literal.isArithmetic = true
  · obtain ⟨error, herror⟩ := @literalValue_arithmetic _ params literal harith
    refine .inr ⟨fun hstorable => ?_, error, by rw [herror]; rfl⟩
    exact Bool.false_ne_true (hstorable.1.symm.trans harith)
  have hvalue := literalValue_of_eval heval hliteral (Bool.eq_false_iff.mpr harith)
  have hstorable : Storable params table position literal ↔ definition.Admits value := by
    refine ⟨fun h => h.2 value definition hvalue hcolumn, fun h => ⟨Bool.eq_false_iff.mpr harith, ?_⟩⟩
    intro value' definition' hvalue' hcolumn'
    cases hvalue.symm.trans hvalue'
    cases hcolumn.symm.trans hcolumn'
    exact h
  rw [hstorable, admits_iff, hvalue]
  cases hcoerce : coerceValue value definition with
  | ok stored => exact .inl ⟨⟨stored, rfl⟩, _, by rw [ok_bind, hcoerce]; rfl⟩
  | error error => exact .inr ⟨by rintro ⟨_, ⟨⟩⟩, error, by rw [ok_bind, hcoerce]; rfl⟩

/-- One conjunct: an equality gives its term, anything else ends the collection. -/
theorem collectEqualityTerms_conjunct (heval : Evaluates params table subqueries expression)
    (hnested : ∀ inner, expression = .nested inner → False)
    (hand : ∀ left right, expression = .binaryOp left .and right → False) (terms : List (ℕ × Value)) :
    (Plannable params table expression ∧
        ∃ terms', collectEqualityTerms params table expression terms = .ok (Modelled table expression, terms')) ∨
      (¬Plannable params table expression ∧
        ∃ error, collectEqualityTerms params table expression terms = .error error) := by
  have hself : expression.conjuncts = [expression] := by rw [Expr.conjuncts] <;> assumption
  rw [Plannable, Modelled, hself, List.all_cons, List.all_nil, Bool.and_true, leadingEqualities, List.takeWhile_cons]
  cases hequality : equality? table expression with
  | none =>
    refine .inl ⟨by simp, terms, ?_⟩
    cases expression with
    | nested inner => exact (hnested inner rfl).elim
    | binaryOp left op right =>
      rw [collectEqualityTerms, if_neg fun h : op = .and => hand left right (h ▸ rfl)]
      split
      · next heq =>
        subst heq
        obtain ⟨row, l, r, hevall, hevalr⟩ := heval.eq
        obtain ⟨leftPosition, hleft⟩ := columnPosition_of_eval hevall
        obtain ⟨rightPosition, hright⟩ := columnPosition_of_eval hevalr
        rw [equality?, hleft, hright] at hequality
        rw [hleft, hright]
        cases leftPosition <;> cases rightPosition <;> first | rfl | cases hequality
      · rfl
    | _ => rfl
  | some pair =>
    simp only [Option.isSome_some, if_true, List.takeWhile_nil, List.filterMap_cons, hequality, List.filterMap_nil,
      List.mem_singleton, forall_eq]
    unfold equality? at hequality
    split at hequality
    · obtain ⟨row, l, r, hevall, hevalr⟩ := heval.eq
      split at hequality
      · next hleft hright =>
        cases hequality
        rw [collectEqualityTerms, if_neg (by decide), if_pos rfl, hleft, hright]
        exact equalityTerm_iff hleft hright hevalr
      · next hleft hright =>
        cases hequality
        rw [collectEqualityTerms, if_neg (by decide), if_pos rfl, hleft, hright]
        exact equalityTerm_iff hright hleft hevall
      · cases hequality
    · cases hequality

theorem collectEqualityTerms_iff (heval : Evaluates params table subqueries expression) (terms : List (ℕ × Value)) :
    (Plannable params table expression ∧
        ∃ terms', collectEqualityTerms params table expression terms = .ok (Modelled table expression, terms')) ∨
      (¬Plannable params table expression ∧
        ∃ error, collectEqualityTerms params table expression terms = .error error) := by
  induction expression using Expr.conjuncts.induct generalizing terms with
  | case1 inner ih =>
    rw [Plannable, Modelled, Expr.conjuncts, collectEqualityTerms]
    exact ih heval.nested terms
  | case2 left right ihl ihr =>
    obtain ⟨hevall, hevalr⟩ := heval.and
    rw [Plannable, Modelled, Expr.conjuncts, collectEqualityTerms, if_pos rfl, leadingEqualities_append,
      List.all_append]
    rcases ihl hevall terms with ⟨hleft, terms', hcollect⟩ | ⟨hleft, error, hcollect⟩
    swap
    · refine .inr ⟨fun h => hleft fun pair hpair => h pair ?_, error, by rw [hcollect]⟩
      split
      · exact List.mem_append_left _ hpair
      · exact hpair
    rw [hcollect]
    cases hmodelled : Modelled table left with
    | false =>
      rw [Modelled] at hmodelled
      simp only [hmodelled, Bool.false_and, Bool.false_eq_true, if_false]
      exact .inl ⟨hleft, terms', rfl⟩
    | true =>
      rw [Modelled] at hmodelled
      simp only [hmodelled, Bool.true_and, if_true, List.forall_mem_append]
      rcases ihr hevalr terms' with ⟨hright, hrest⟩ | ⟨hright, hrest⟩
      · exact .inl ⟨⟨hleft, hright⟩, hrest⟩
      · exact .inr ⟨fun h => hright h.2, hrest⟩
  | case3 expression hnested hand =>
    exact collectEqualityTerms_conjunct heval hnested hand terms

/-- A condition that can be evaluated is planned exactly when the literals in its equalities can be stored. -/
theorem plan_resolves_iff (catalog : Catalog) {selection : Option Expr}
    (heval : ∀ expression ∈ selection, Evaluates params table subqueries expression) :
    (∃ plan, resolvePredicatePlan params table catalog selection = .ok plan) ↔ ∀ expression ∈ selection,
      Plannable params table expression := by
  cases selection with
  | none => exact iff_of_true ⟨none, rfl⟩ nofun
  | some expression =>
    simp only [Option.mem_some_iff, forall_eq'] at heval ⊢
    rw [resolvePredicatePlan]
    rcases collectEqualityTerms_iff heval [] with ⟨hplannable, terms, hcollect⟩ | ⟨hplannable, error, hcollect⟩
    · refine iff_of_true ?_ hplannable
      rw [hcollect]
      cases Modelled table expression with
      | false => exact ⟨none, rfl⟩
      | true =>
        dsimp only
        split
        · exact ⟨_, rfl⟩
        · split <;> exact ⟨_, rfl⟩
    · refine iff_of_false ?_ hplannable
      rintro ⟨plan, hplan⟩
      rw [hcollect] at hplan
      cases hplan

end

def keyed : TableDefinition := ⟨1, "t", [⟨1, "id", .i64, false⟩]⟩

def keyedCatalog : Catalog := ⟨fun _ => some [1], []⟩

/-- `id = 5`. -/
def isFive : Expr := .binaryOp (.identifier "id") .eq (.value (.integer ⟨5, I64.five_fits⟩))

/-- `id = NULL`. -/
def equalsNull : Expr := .binaryOp (.identifier "id") .eq (.value .null)

theorem keyed_evaluates [Host] {literal : Literal} {value : Value} (h : literalConstant [] literal = .ok value) :
    Evaluates [] keyed {} (.binaryOp (.identifier "id") .eq (.value literal)) := by
  intro row hrow
  obtain ⟨id, rest, -, -, rfl⟩ := List.forall₂_cons_right_iff.mp hrow
  have hid : evalExpression [] keyed (id :: rest) (.identifier "id") = .ok id := rfl
  have hliteral : evalExpression [] keyed (id :: rest) (.value literal) = .ok value := h
  rw [predicate, if_neg (by decide), if_neg (by decide), if_pos (by decide), comparePredicate, hid, hliteral]
  exact ⟨_, rfl⟩

theorem plan_resolves_iff_five : @Evaluates Host.bare [] keyed {} isFive ∧
    ((∃ plan, @resolvePredicatePlan Host.bare [] keyed keyedCatalog (some isFive) = .ok plan) ↔
      ∀ expression ∈ some isFive, @Plannable Host.bare [] keyed expression) := by
  let host := Host.bare
  have heval : Evaluates [] keyed {} isFive := keyed_evaluates rfl
  exact ⟨heval, plan_resolves_iff keyedCatalog (by rintro expression ⟨⟩; exact heval)⟩

/-- `id = NULL` is unknown of every row, and planning it fails. -/
theorem equals_null_not_planned : @Evaluates Host.bare [] keyed {} equalsNull ∧
    @resolvePredicatePlan Host.bare [] keyed keyedCatalog (some equalsNull) = .error (.sqlNotNullViolation "id") := by
  let host := Host.bare
  exact ⟨keyed_evaluates rfl, rfl⟩

end OmenDb.Sql
