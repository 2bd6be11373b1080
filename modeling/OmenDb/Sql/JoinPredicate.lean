import OmenDb.Sql.Expr

/-! The WHERE of a join, of UPDATE FROM and of DELETE USING. It runs over the combined row of
several relations and answers a boolean at every node, where the evaluator for one table answers
one of three truth values. -/
namespace OmenDb.Sql

def endsWith (text suffix : String) : Bool := suffix.toList.isSuffixOf text.toList

/-- `unique_bare_position`: an exact name first, else the only qualified column that ends in it. -/
def uniqueBarePosition (columns : List SqlColumn) (name : String) : DbResult ℕ :=
  match columns.findIdx? fun column => column.name == name with
  | some position => .ok position
  | none =>
    match columns.zipIdx.filter fun entry => endsWith entry.1.name ("." ++ name) with
    | [] => .error (.sqlUndefinedColumn name)
    | [entry] => .ok entry.2
    | _ => .error (.sqlUnsupported "JOIN" "ambiguous unqualified column; qualify it")

def combinedColumnPosition (columns : List SqlColumn) : Expr → DbResult ℕ
  | .identifier name => uniqueBarePosition columns name
  | .compoundIdentifier [relation, name] =>
    match columns.findIdx? fun column => column.name == relation ++ "." ++ name with
    | some position => .ok position
    | none => .error (.sqlUndefinedColumn (relation ++ "." ++ name))
  | _ => .error (.sqlUnsupported "JOIN" "expected a column or table.column")

theorem BinaryOperator.or_ne_and : BinaryOperator.or ≠ .and := by decide

theorem isComparison_ne {op : BinaryOperator} (h : op.isComparison = true) : op ≠ .and ∧ op ≠ .or := by
  constructor <;> rintro rfl <;> cases h

theorem operandType_eq {table : TableDefinition} {e : Expr} {p : ℕ}
    (h : columnPosition table e = .ok (some p)) :
    operandType table e = (table.columns[p]?).map (·.dataType) := by
  simp [operandType, h]

section
variable [Host] (params : List Value) (combined : List Value) (columns : List SqlColumn)

/-- `combined_value`. Callers keep the row as wide as its columns; past the end the source
panics. -/
def combinedValue (expression : Expr) : DbResult Value := do
  let position ← combinedColumnPosition columns expression
  match combined[position]? with
  | some value => .ok value
  | none => .error (.invalidState "index out of bounds")

/-- A side of a comparison: a column of the combined row, or a literal. -/
def joinOperand : Expr → DbResult Value
  | .identifier name => combinedValue combined columns (.identifier name)
  | .compoundIdentifier parts => combinedValue combined columns (.compoundIdentifier parts)
  | expression => literalValue params expression

def compareJoined (left right : Value) (op : BinaryOperator) : Bool :=
  compareValues left right op == .true

def joinPredicate : Expr → DbResult Bool
  | .binaryOp left op right =>
    if op = .and then do
      if ← joinPredicate left then joinPredicate right else return false
    else if op = .or then do
      if ← joinPredicate left then return true else joinPredicate right
    else if op.isComparison then do
      return compareJoined (← joinOperand params combined columns left)
        (← joinOperand params combined columns right) op
    else .error (.sqlUnsupported "JOIN" "unsupported WHERE operator over joins")
  | .inList expr list negated => do
    let candidate ← combinedValue combined columns expr
    let hit := membershipTruth candidate (← literalValues params list)
    return if negated then hit.not == .true else hit == .true
  | .between expr negated low high => do
    let candidate ← combinedValue combined columns expr
    let lowValue ← literalValue params low
    let highValue ← literalValue params high
    let both := compareJoined candidate lowValue .gtEq && compareJoined candidate highValue .ltEq
    return if negated then !both else both
  | _ => .error (.sqlUnsupported "JOIN" "unsupported WHERE shape over joins")

/-- The SQL truth of a condition over the combined row, with the connectives of `predicate`. -/
def sqlTruth : Expr → DbResult Truth
  | .binaryOp left op right =>
    if op = .and then do return (← sqlTruth left).and (← sqlTruth right)
    else if op = .or then do return (← sqlTruth left).or (← sqlTruth right)
    else if op.isComparison then do
      return compareValues (← joinOperand params combined columns left)
        (← joinOperand params combined columns right) op
    else .error (.sqlUnsupported "JOIN" "unsupported WHERE operator over joins")
  | .inList expr list negated => do
    let candidate ← combinedValue combined columns expr
    let hit := membershipTruth candidate (← literalValues params list)
    return if negated then hit.not else hit
  | .between expr negated low high => do
    let candidate ← combinedValue combined columns expr
    let lowValue ← literalValue params low
    let highValue ← literalValue params high
    let both := (compareValues candidate lowValue .gtEq).and (compareValues candidate highValue .ltEq)
    return if negated then both.not else both
  | _ => .error (.sqlUnsupported "JOIN" "unsupported WHERE shape over joins")

/-- An operand has a value of the type, and a column it names is declared with it. -/
structure Typed (expression : Expr) (value : Value) (ty : ColumnType) : Prop where
  operand : joinOperand params combined columns expression = .ok value
  fits : value.matches ty = true
  declared : ∀ p, combinedColumnPosition columns expression = .ok p →
    (columns[p]?).bind (·.columnType) = some ty

/-- The conditions in question: AND and OR over comparisons, `[NOT] IN` and `[NOT] BETWEEN` whose
operands have one type on this row. -/
inductive Condition : Expr → Prop
  | and {l r : Expr} (hl : Condition l) (hr : Condition r) : Condition (.binaryOp l .and r)
  | or {l r : Expr} (hl : Condition l) (hr : Condition r) : Condition (.binaryOp l .or r)
  | comparison {l r : Expr} {op : BinaryOperator} {v w : Value} {ty : ColumnType}
      (hop : op.isComparison = true) (hl : Typed params combined columns l v ty)
      (hr : Typed params combined columns r w ty) : Condition (.binaryOp l op r)
  | inList {e : Expr} {list : List Expr} {negated : Bool} {v : Value} {ws : List Value}
      {ty : ColumnType} (he : combinedValue combined columns e = .ok v)
      (hfits : v.matches ty = true) (hlist : literalValues params list = .ok ws)
      (hws : ∀ w ∈ ws, w.matches ty = true) : Condition (.inList e list negated)
  | between {e low high : Expr} {negated : Bool} {v lo hi : Value} {ty : ColumnType}
      (he : combinedValue combined columns e = .ok v) (hv : Typed params combined columns e v ty)
      (hlow : literalValue params low = .ok lo) (hlo : lo.matches ty = true)
      (hhigh : literalValue params high = .ok hi) (hhi : hi.matches ty = true) :
      Condition (.between e negated low high)

/-- A NOT BETWEEN of unknown truth is what the row is accepted for: it stands under connectives
whose other side lets it through. -/
def Misled : Expr → Prop
  | .binaryOp left op right =>
    if op = .and then
      Misled left ∧ (Misled right ∨ sqlTruth params combined columns right = .ok .true) ∨
        Misled right ∧ sqlTruth params combined columns left = .ok .true
    else if op = .or then
      Misled left ∧ sqlTruth params combined columns right ≠ .ok .true ∨
        Misled right ∧ sqlTruth params combined columns left ≠ .ok .true
    else False
  | .between expr negated low high =>
    negated = true ∧
      sqlTruth params combined columns (.between expr negated low high) = .ok .unknown
  | _ => False

/-- Where both evaluators stand at one node: the boolean one accepts what is true, and what it is
misled about, which is never true. -/
structure Answers (e : Expr) (b : Bool) (t : Truth) : Prop where
  accepts : joinPredicate params combined columns e = .ok b
  truth : sqlTruth params combined columns e = .ok t
  iff : b = true ↔ t = .true ∨ Misled params combined columns e
  apart : Misled params combined columns e → t ≠ .true

variable {params combined columns}

variable {e l r : Expr} {t u : Truth} {b c : Bool} {ty : ColumnType} {v : Value} {table : TableDefinition}

theorem Answers.exact (hb : joinPredicate params combined columns e = .ok (t == .true))
    (ht : sqlTruth params combined columns e = .ok t)
    (hm : ¬ Misled params combined columns e) : Answers params combined columns e (t == .true) t where
  accepts := hb
  truth := ht
  iff := by simp [hm]
  apart h := absurd h hm

theorem Answers.and (hl : Answers params combined columns l b t) (hr : Answers params combined columns r c u) :
    Answers params combined columns (.binaryOp l .and r) (b && c) (t.and u) where
  accepts := by
    cases b <;> simp [joinPredicate, hl.accepts, hr.accepts, pure, Except.pure]
  truth := by simp [sqlTruth, hl.truth, hr.truth]
  iff := by
    simp only [Misled, if_true, Bool.and_eq_true, Truth.and_eq_true, hl.iff, hr.iff, hl.truth,
      hr.truth, Except.ok.injEq]
    tauto
  apart := by
    have hl' := hl.apart
    have hr' := hr.apart
    simp only [Misled, if_true, ne_eq, Truth.and_eq_true, hl.truth, hr.truth, Except.ok.injEq]
    tauto

theorem Answers.or (hl : Answers params combined columns l b t) (hr : Answers params combined columns r c u) :
    Answers params combined columns (.binaryOp l .or r) (b || c) (t.or u) where
  accepts := by
    cases b <;> simp [joinPredicate, hl.accepts, hr.accepts, pure, Except.pure]
  truth := by simp [sqlTruth, hl.truth, hr.truth]
  iff := by
    have hl' := hl.apart
    have hr' := hr.apart
    simp only [Misled, reduceCtorEq, if_false, if_true, Bool.or_eq_true, Truth.or_eq_true, hl.iff,
      hr.iff, hl.truth, hr.truth, ne_eq, Except.ok.injEq]
    tauto
  apart := by
    have hl' := hl.apart
    have hr' := hr.apart
    simp only [Misled, reduceCtorEq, if_false, if_true, ne_eq, Truth.or_eq_true, hl.truth, hr.truth,
      Except.ok.injEq]
    tauto

/-- Negating the boolean of a BETWEEN accepts an unknown one; nothing else goes wrong. -/
theorem Answers.between {e low high : Expr} {negated : Bool} {v lo hi : Value}
    (he : combinedValue combined columns e = .ok v) (hlow : literalValue params low = .ok lo)
    (hhigh : literalValue params high = .ok hi) :
    ∃ b t, Answers params combined columns (.between e negated low high) b t := by
  have truth : sqlTruth params combined columns (.between e negated low high) =
      .ok (let both := (compareValues v lo .gtEq).and (compareValues v hi .ltEq)
        if negated then both.not else both) := by
    simp [sqlTruth, he, hlow, hhigh]
  have accepts : joinPredicate params combined columns (.between e negated low high) =
      .ok (let both := compareJoined v lo .gtEq && compareJoined v hi .ltEq
        if negated then !both else both) := by
    simp [joinPredicate, he, hlow, hhigh]
  refine ⟨_, _, accepts, truth, ?_, ?_⟩
  · simp only [Misled, truth, Except.ok.injEq, compareJoined]
    generalize compareValues v lo .gtEq = a
    generalize compareValues v hi .ltEq = b
    cases negated <;> cases a <;> cases b <;> decide
  · rintro ⟨-, hu⟩ ht
    rw [truth, Except.ok.injEq] at hu
    rw [hu] at ht
    cases ht

theorem Condition.answers (h : Condition params combined columns e) :
    ∃ b t, Answers params combined columns e b t := by
  induction h with
  | and _ _ ihl ihr =>
    obtain ⟨b, t, hl⟩ := ihl
    obtain ⟨c, u, hr⟩ := ihr
    exact ⟨_, _, hl.and hr⟩
  | or _ _ ihl ihr =>
    obtain ⟨b, t, hl⟩ := ihl
    obtain ⟨c, u, hr⟩ := ihr
    exact ⟨_, _, hl.or hr⟩
  | @comparison l r op v w _ hop hl hr =>
    obtain ⟨hand, hor⟩ := isComparison_ne hop
    refine ⟨_, _, .exact (t := compareValues v w op) ?_ ?_ (by simp [Misled, hand, hor])⟩
    · simp [joinPredicate, hand, hor, hop, hl.operand, hr.operand, compareJoined, pure, Except.pure]
    · simp [sqlTruth, hand, hor, hop, hl.operand, hr.operand]
  | @inList e list negated v ws _ he _ hlist _ =>
    refine ⟨_, _, .exact (t := if negated then (membershipTruth v ws).not else membershipTruth v ws)
      ?_ ?_ (by simp [Misled])⟩
    · cases negated <;> simp [joinPredicate, he, hlist]
    · simp [sqlTruth, he, hlist]
  | between he _ hlow _ hhigh _ => exact Answers.between he hlow hhigh

def columnOperands : Expr → List Expr
  | .binaryOp left op right =>
    if op = .and ∨ op = .or then columnOperands left ++ columnOperands right else [left, right]
  | .inList expr _ _ => [expr]
  | .between expr _ _ _ => [expr]
  | _ => []

/-- The columns read by the condition stand in the table where they stand in the combined row. -/
def LaidOut (columns : List SqlColumn) (table : TableDefinition) (e : Expr) : Prop :=
  ∀ x ∈ columnOperands e, ∀ p, combinedColumnPosition columns x = .ok p →
    columnPosition table x = .ok (some p) ∧
      (table.columns[p]?).map (·.dataType) = (columns[p]?).bind (·.columnType)

theorem coerceOperand_of_matches {value : Value} (h : value.matches ty = true) :
    coerceOperand value (some ty) = value := by
  cases value <;> cases ty <;> first | rfl | cases h

omit [Host] in
theorem combinedValue_eq_ok (h : combinedValue combined columns e = .ok v) :
    ∃ p, combinedColumnPosition columns e = .ok p ∧ combined[p]? = some v := by
  obtain ⟨p, hp, h⟩ := bind_eq_ok.mp h
  refine ⟨p, hp, ?_⟩
  split at h
  · rename_i hw
    cases h
    exact hw
  · cases h

theorem evalExpression_literal (h : literalValue params e = .ok v)
    (table : TableDefinition) (row : List Value) :
    evalExpression params table row e = .ok v ∧ operandType table e = none := by
  cases e with
  | identifier name | compoundIdentifier parts | binaryOp l op r => simp [literalValue] at h
  | _ => exact ⟨h, rfl⟩

theorem evalExpression_column (h : combinedValue combined columns e = .ok v)
    (hpos : ∀ p, combinedColumnPosition columns e = .ok p → columnPosition table e = .ok (some p)) :
    evalExpression params table combined e = .ok v := by
  obtain ⟨p, hp, hv⟩ := combinedValue_eq_ok h
  have hpos := hpos p hp
  cases e with
  | identifier name | compoundIdentifier parts =>
    simp only [evalExpression, evalExpression.column, hpos, ok_bind, hv]
  | _ => cases hp

theorem Typed.eval (h : Typed params combined columns e v ty)
    (hlaid : ∀ p, combinedColumnPosition columns e = .ok p → columnPosition table e = .ok (some p) ∧
      (table.columns[p]?).map (·.dataType) = (columns[p]?).bind (·.columnType)) :
    evalExpression params table combined e = .ok v ∧
      ∀ w : Value, w.matches ty = true → coerceOperand w (operandType table e) = w := by
  have hcolumn : ∀ x, combinedValue combined columns e = .ok x →
      joinOperand params combined columns e = combinedValue combined columns e →
      evalExpression params table combined e = .ok v ∧
        ∀ w : Value, w.matches ty = true → coerceOperand w (operandType table e) = w := by
    intro x hx hj
    have hv : combinedValue combined columns e = .ok v := hj ▸ h.operand
    refine ⟨evalExpression_column hv fun p hp => (hlaid p hp).1, fun w hw => ?_⟩
    obtain ⟨p, hp, -⟩ := combinedValue_eq_ok hv
    rw [operandType_eq (hlaid p hp).1, (hlaid p hp).2, h.declared p hp]
    exact coerceOperand_of_matches hw
  cases e with
  | identifier name | compoundIdentifier parts => exact hcolumn v h.operand rfl
  | _ =>
    obtain ⟨he, ht⟩ := evalExpression_literal (show literalValue params _ = .ok v from h.operand)
      table combined
    refine ⟨he, fun w _ => ?_⟩
    rw [ht]
    rfl

theorem comparePredicate_eq {w : Value} {op : BinaryOperator} (hv : v.matches ty = true) (hw : w.matches ty = true)
    (hl : evalExpression params table combined l = .ok v ∧
      ∀ w : Value, w.matches ty = true → coerceOperand w (operandType table l) = w)
    (hr : evalExpression params table combined r = .ok w ∧
      ∀ w : Value, w.matches ty = true → coerceOperand w (operandType table r) = w) :
    comparePredicate params table combined op l r = .ok (compareValues v w op) := by
  simp [comparePredicate, hl.1, hr.1, hr.2 v hv, hl.2 w hw, pure, Except.pure]

/-- The truth of a condition over the combined row is what `predicate` answers for one table with
the same columns. -/
theorem predicate_eq_sqlTruth (subqueries : ResolvedSubqueries)
    (h : Condition params combined columns e) (hlaid : LaidOut columns table e) :
    predicate params table combined subqueries e = sqlTruth params combined columns e := by
  induction h with
  | and _ _ ihl ihr =>
    simp only [LaidOut, columnOperands, true_or, if_true, List.mem_append] at hlaid
    rw [predicate, sqlTruth, if_pos rfl, if_pos rfl, ihl fun x hx => hlaid x (.inl hx),
      ihr fun x hx => hlaid x (.inr hx)]
  | or _ _ ihl ihr =>
    simp only [LaidOut, columnOperands, or_true, if_true, List.mem_append] at hlaid
    rw [predicate, sqlTruth, if_neg BinaryOperator.or_ne_and, if_neg BinaryOperator.or_ne_and, if_pos rfl,
      if_pos rfl, ihl fun x hx => hlaid x (.inl hx), ihr fun x hx => hlaid x (.inr hx)]
  | comparison hop hl hr =>
    obtain ⟨hand, hor⟩ := isComparison_ne hop
    simp only [LaidOut, columnOperands, hand, hor, or_self, if_false] at hlaid
    rw [predicate, sqlTruth, if_neg hand, if_neg hand, if_neg hor, if_neg hor, if_pos hop, if_pos hop,
      comparePredicate_eq hl.fits hr.fits (hl.eval (hlaid _ (by simp))) (hr.eval (hlaid _ (by simp)))]
    simp [hl.operand, hr.operand]
  | inList he _ hlist _ =>
    have hcolumn : evalExpression params table combined _ = .ok _ :=
      evalExpression_column he fun p hp => (hlaid _ (by simp [columnOperands]) p hp).1
    simp [predicate, sqlTruth, hcolumn, he, hlist]
  | @between e low high _ _ _ _ ty he hv hlow hlo hhigh hhi =>
    have hcolumn := hv.eval (hlaid e (by simp [columnOperands]))
    have literal : ∀ {x : Expr} {u : Value}, literalValue params x = .ok u →
        evalExpression params table combined x = .ok u ∧
          ∀ w : Value, w.matches ty = true → coerceOperand w (operandType table x) = w := by
      intro x u hx
      obtain ⟨he, ht⟩ := evalExpression_literal hx table combined
      exact ⟨he, fun w _ => by rw [ht]; rfl⟩
    rw [predicate, comparePredicate_eq hv.fits hlo hcolumn (literal hlow),
      comparePredicate_eq hv.fits hhi hcolumn (literal hhigh)]
    simp [sqlTruth, he, hlow, hhigh]

/-- **The joined WHERE and SQL truth.** On a combined row, a condition is accepted exactly when its
SQL truth is true, precisely if no NOT BETWEEN of unknown truth carries the row through; the truth
meant is the one `predicate` gives for a table with these columns. -/
theorem joinPredicate_accepts_iff {e : Expr} (h : Condition params combined columns e) :
    ((joinPredicate params combined columns e = .ok true ↔ sqlTruth params combined columns e = .ok .true) ↔
      ¬ Misled params combined columns e) ∧ ∀ table subqueries, LaidOut columns table e →
      predicate params table combined subqueries e = sqlTruth params combined columns e := by
  refine ⟨?_, fun table subqueries hlaid => predicate_eq_sqlTruth subqueries h hlaid⟩
  obtain ⟨b, t, hbt⟩ := h.answers
  have hb := hbt.iff
  have hm := hbt.apart
  rw [hbt.accepts, hbt.truth]
  simp only [Except.ok.injEq]
  tauto

end

/-- `x NOT BETWEEN 1 AND 2` over a combined row whose only column is `a.x`. -/
def notBetweenOneAndTwo : Expr :=
  .between (.identifier "x") true (.value (.integer ⟨1, I64.one_fits⟩)) (.value (.integer ⟨2, I64.two_fits⟩))

theorem joinPredicate_accepts_five :
    (@joinPredicate Host.bare [] [.i64 ⟨5, by decide⟩] [⟨"a.x", some .i64⟩] notBetweenOneAndTwo = .ok true ↔
      @sqlTruth Host.bare [] [.i64 ⟨5, by decide⟩] [⟨"a.x", some .i64⟩] notBetweenOneAndTwo = .ok .true) ∧
    ¬ @Misled Host.bare [] [.i64 ⟨5, by decide⟩] [⟨"a.x", some .i64⟩] notBetweenOneAndTwo := by
  let host := Host.bare
  have hcondition : Condition [] [.i64 ⟨5, by decide⟩] [⟨"a.x", some .i64⟩] notBetweenOneAndTwo := by
    refine @Condition.between _ _ _ _ _ _ _ _ (.i64 ⟨5, by decide⟩) _ _ .i64 rfl ⟨rfl, rfl, ?_⟩ rfl rfl rfl rfl
    intro p hp
    cases hp
    rfl
  have hm : ¬ Misled [] [.i64 ⟨5, by decide⟩] [⟨"a.x", some .i64⟩] notBetweenOneAndTwo := by
    rintro ⟨-, h⟩
    cases h
  exact ⟨(joinPredicate_accepts_iff hcondition).1.mpr hm, hm⟩

/-- A NULL is let through, though its condition is unknown and the table evaluator drops it. -/
theorem notBetween_null_accepted :
    @joinPredicate Host.bare [] [.null] [⟨"a.x", some .i64⟩] notBetweenOneAndTwo = .ok true ∧
      @sqlTruth Host.bare [] [.null] [⟨"a.x", some .i64⟩] notBetweenOneAndTwo = .ok .unknown ∧
      @predicate Host.bare [] ⟨1, "a", [⟨1, "x", .i64, true⟩]⟩ [.null] {} notBetweenOneAndTwo =
        .ok .unknown :=
  ⟨rfl, rfl, rfl⟩

end OmenDb.Sql
