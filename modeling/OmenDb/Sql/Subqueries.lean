import OmenDb.Sql.Expr

/-! The subqueries of a WHERE: they are executed once each before the rows are read, and their results
kept by text, one map for the IN form and one for EXISTS. -/
namespace OmenDb.Sql

/-- The result of a subquery; every row has the width of the header. -/
structure QueryResult where
  width : ℕ
  rows : List (Fin width → Value)

def QueryResult.onlyColumn (result : QueryResult) : DbResult (List Value) :=
  if h : result.width = 1 then .ok (result.rows.map fun row => row ⟨0, by omega⟩)
  else .error (.sqlUnsupported "subquery" "IN (SELECT ...) must select exactly one column")

inductive SubqueryForm
  | isIn | isExists
  deriving DecidableEq

/-- A subquery as it stands in a predicate: its form, and its text. -/
abbrev Subquery := SubqueryForm × String

def collectSubqueries : Expr → List Subquery
  | .nested inner => collectSubqueries inner
  | .unaryOp _ inner => collectSubqueries inner
  | .binaryOp left _ right => collectSubqueries left ++ collectSubqueries right
  | .inSubquery _ key _ => [(.isIn, key)]
  | .exists key _ => [(.isExists, key)]
  | _ => []

namespace ResolvedSubqueries

def Holds (resolved : ResolvedSubqueries) : Subquery → Bool
  | (.isIn, key) => (resolved.inLists key).isSome
  | (.isExists, key) => (resolved.exists key).isSome

def has (resolved : ResolvedSubqueries) (key : String) : Bool :=
  resolved.Holds (.isIn, key) || resolved.Holds (.isExists, key)

/-- The result of a subquery, kept in the map of its form. -/
def insert (resolved : ResolvedSubqueries) (result : QueryResult) : Subquery → DbResult ResolvedSubqueries
  | (.isIn, key) => do
    let values ← result.onlyColumn
    return { resolved with inLists := Function.update resolved.inLists key (some values) }
  | (.isExists, key) =>
    .ok { resolved with «exists» := Function.update resolved.exists key (some !result.rows.isEmpty) }

/-- One turn of the loop of `resolve_subqueries`. -/
def resolveOne (execute : String → DbResult QueryResult) (resolved : ResolvedSubqueries) (subquery : Subquery) :
    DbResult ResolvedSubqueries :=
  if resolved.has subquery.2 then .ok resolved
  else do resolved.insert (← execute subquery.2) subquery

end ResolvedSubqueries

def resolveSubqueries (execute : String → DbResult QueryResult) : Option Expr → DbResult ResolvedSubqueries
  | none => .ok {}
  | some selection => (collectSubqueries selection).foldlM (ResolvedSubqueries.resolveOne execute) {}

namespace ResolvedSubqueries

variable (execute : String → DbResult QueryResult)

def Own (resolved : ResolvedSubqueries) : Subquery → Prop
  | (.isIn, key) =>
    ∃ result values, execute key = .ok result ∧ result.onlyColumn = .ok values ∧ resolved.inLists key = some values
  | (.isExists, key) => ∃ result, execute key = .ok result ∧ resolved.exists key = some !result.rows.isEmpty

/-- What holds once the subqueries of a list have been gone through. -/
structure Covers (seen : List Subquery) (resolved : ResolvedSubqueries) : Prop where
  own {subquery : Subquery} : resolved.Holds subquery → subquery ∈ seen ∧ resolved.Own execute subquery
  apart (key : String) : ¬ (resolved.Holds (.isIn, key) ∧ resolved.Holds (.isExists, key))
  covered {subquery : Subquery} : subquery ∈ seen → resolved.has subquery.2

variable {execute} {seen : List Subquery} {resolved resolved' : ResolvedSubqueries} {subquery : Subquery}

theorem Own.holds (h : resolved.Own execute subquery) : resolved.Holds subquery := by
  obtain ⟨form, key⟩ := subquery
  cases form with
  | isIn =>
    obtain ⟨_, _, _, _, h⟩ := h
    simp [Holds, h]
  | isExists =>
    obtain ⟨_, _, h⟩ := h
    simp [Holds, h]

theorem insert_eq_ok {result : QueryResult} (h : resolved.insert result subquery = .ok resolved')
    (hresult : execute subquery.2 = .ok result) :
    resolved'.Own execute subquery ∧
      ∀ other, other ≠ subquery → (resolved'.Holds other = resolved.Holds other) ∧
        (resolved.Own execute other → resolved'.Own execute other) := by
  obtain ⟨form, key⟩ := subquery
  cases form with
  | isIn =>
    obtain ⟨values, hvalues, h⟩ := bind_eq_ok.mp h
    cases h
    refine ⟨⟨result, values, hresult, hvalues, by simp⟩, ?_⟩
    rintro ⟨form, other⟩ hne
    cases form with
    | isIn =>
      have hkey : other ≠ key := by simpa using hne
      simp [Holds, Own, Function.update_of_ne hkey]
    | isExists => exact ⟨rfl, id⟩
  | isExists =>
    cases h
    refine ⟨⟨result, hresult, by simp⟩, ?_⟩
    rintro ⟨form, other⟩ hne
    cases form with
    | isIn => exact ⟨rfl, id⟩
    | isExists =>
      have hkey : other ≠ key := by simpa using hne
      simp [Holds, Own, Function.update_of_ne hkey]

theorem has_of_holds {form : SubqueryForm} {key : String} (h : resolved.Holds (form, key)) : resolved.has key := by
  cases form <;> simp [has, h]

theorem Covers.insert {result : QueryResult} (h : Covers execute seen resolved) (hhas : ¬ resolved.has subquery.2)
    (hresult : execute subquery.2 = .ok result) (hinsert : resolved.insert result subquery = .ok resolved') :
    Covers execute (seen ++ [subquery]) resolved' := by
  obtain ⟨hown, hother⟩ := insert_eq_ok hinsert hresult
  -- only the inserted subquery holds of its text
  have hkey : ∀ form, resolved'.Holds (form, subquery.2) → (form, subquery.2) = subquery := by
    intro form hform
    by_contra hne
    rw [(hother _ hne).1] at hform
    exact hhas (has_of_holds hform)
  constructor
  · intro other hholds
    by_cases heq : other = subquery
    · exact ⟨by simp [heq], heq ▸ hown⟩
    · rw [(hother other heq).1] at hholds
      exact ⟨List.mem_append_left _ (h.own hholds).1, (hother other heq).2 (h.own hholds).2⟩
  · rintro key ⟨hin, hexists⟩
    by_cases heq : key = subquery.2
    · subst heq
      have hforms := (hkey _ hin).trans (hkey _ hexists).symm
      simp at hforms
    · have hne : ∀ form, (form, key) ≠ subquery := fun form hform => heq (congrArg Prod.snd hform)
      rw [(hother _ (hne _)).1] at hin hexists
      exact h.apart key ⟨hin, hexists⟩
  · intro other hmem
    by_cases heq : other.2 = subquery.2
    · rw [heq]
      exact has_of_holds hown.holds
    · have hne : ∀ form, (form, other.2) ≠ subquery := fun form hform => heq (by rw [← hform])
      have hmem : other ∈ seen := by
        rcases List.mem_append.mp hmem with hmem | hmem
        · exact hmem
        · exact (heq (congrArg Prod.snd (List.mem_singleton.mp hmem))).elim
      simpa only [has, (hother _ (hne _)).1] using h.covered hmem

theorem Covers.resolveOne (h : Covers execute seen resolved)
    (hone : resolveOne execute resolved subquery = .ok resolved') : Covers execute (seen ++ [subquery]) resolved' := by
  unfold ResolvedSubqueries.resolveOne at hone
  split at hone
  · rename_i hhas
    cases hone
    refine ⟨fun hholds => (h.own hholds).imp_left (List.mem_append_left _), h.apart, ?_⟩
    intro other hmem
    rcases List.mem_append.mp hmem with hmem | hmem
    · exact h.covered hmem
    · rwa [List.mem_singleton.mp hmem]
  · rename_i hhas
    obtain ⟨result, hresult, hinsert⟩ := bind_eq_ok.mp hone
    exact h.insert hhas hresult hinsert

theorem Covers.run {subqueries : List Subquery} (h : Covers execute seen resolved)
    (hrun : subqueries.foldlM (ResolvedSubqueries.resolveOne execute) resolved = .ok resolved') :
    Covers execute (seen ++ subqueries) resolved' := by
  induction subqueries generalizing seen resolved with
  | nil =>
    cases hrun
    simpa using h
  | cons subquery subqueries ih =>
    obtain ⟨next, hone, hrest⟩ := bind_eq_ok.mp hrun
    simpa using ih (h.resolveOne hone) hrest

theorem Covers.empty : Covers execute [] {} := by
  refine ⟨?_, ?_, nofun⟩
  · rintro ⟨form, key⟩ h
    cases form <;> cases h
  · rintro key ⟨h, _⟩
    cases h

theorem Covers.own_iff (h : Covers execute seen resolved) :
    (∀ subquery ∈ seen, resolved.Own execute subquery) ↔ ∀ key, ¬ ((.isIn, key) ∈ seen ∧ (.isExists, key) ∈ seen) := by
  constructor
  · rintro hown key ⟨hin, hexists⟩
    exact h.apart key ⟨(hown _ hin).holds, (hown _ hexists).holds⟩
  · rintro hkeys ⟨form, key⟩ hmem
    have hhas := h.covered hmem
    rw [has, Bool.or_eq_true] at hhas
    cases form with
    | isIn =>
      rcases hhas with hin | hexists
      · exact (h.own hin).2
      · exact (hkeys key ⟨hmem, (h.own hexists).1⟩).elim
    | isExists =>
      rcases hhas with hin | hexists
      · exact (hkeys key ⟨(h.own hin).1, hmem⟩).elim
      · exact (h.own hexists).2

end ResolvedSubqueries

abbrev notResolved : DbError := .invalidState "subquery was not resolved before evaluation"

/-- The computation does not end in the error of a missing answer. -/
def Quiet {α : Type} (x : DbResult α) : Prop := x ≠ .error notResolved

variable {α β : Type} {e : Expr}

@[simp] theorem quiet_ok (a : α) : Quiet (.ok a : DbResult α) := nofun

@[simp] theorem quiet_error (error : DbError) : Quiet (.error error : DbResult α) ↔ error ≠ notResolved := by
  simp [Quiet]

theorem Quiet.bind {x : DbResult α} {f : α → DbResult β} (hx : Quiet x) (hf : ∀ a, Quiet (f a)) :
    Quiet (x >>= f) := by
  cases x with
  | error error => exact fun h => hx (congrArg Except.error (Except.error.inj h))
  | ok a => exact hf a

theorem Quiet.map {x : DbResult α} (hx : Quiet x) (f : α → β) : Quiet (x >>= fun a => .ok (f a)) :=
  hx.bind fun a => quiet_ok (f a)

theorem quiet_decodeHex (digits : List Char) : Quiet (decodeHex digits) := by
  fun_induction decodeHex digits with
  | case1 => simp
  | case2 => simp
  | case3 _ _ _ _ _ _ _ ih => exact ih.map _
  | case4 => simp

@[simp] theorem quiet_parsed (column : ColumnDefinition) (make : α → Value) (text : Option α) :
    Quiet (parsed column make text) := by
  cases text <;> simp [parsed]

@[simp] theorem quiet_fits (column : ColumnDefinition) (make : α → Value) (value : Option α) :
    Quiet (fits column make value) := by
  cases value <;> simp [fits]

theorem quiet_new (mantissa : ℤ) (scale : ℕ) : Quiet (DecimalValue.new mantissa scale) := by
  unfold DecimalValue.new
  split_ifs <;> simp

theorem quiet_rescale (d : DecimalValue) (target : ℕ) : Quiet (d.rescale target) := by
  unfold DecimalValue.rescale
  split <;> split
  · simp [DecimalValue.overflow]
  · split
    · simp [DecimalValue.overflow]
    · exact quiet_new _ _
  · simp [DecimalValue.overflow]
  · exact quiet_new _ _

theorem quiet_integerArithmetic (op : ArithmeticOperator) (unsigned : Bool) (l r : ℤ) :
    Quiet (integerArithmetic op unsigned l r) := by
  unfold integerArithmetic
  extract_lets value
  have hvalue : Quiet value := by
    cases op <;> simp only [value] <;> (try split) <;> simp
  clear_value value
  cases value with
  | error error => simpa using hvalue
  | ok value =>
    cases value with
    | none => simp [outOfRange]
    | some value => dsimp only; split <;> split <;> simp [outOfRange]

theorem quiet_decimalArithmetic (op : ArithmeticOperator) (l r : DecimalValue) : Quiet (decimalArithmetic op l r) := by
  cases op with
  | add | subtract =>
    refine (quiet_rescale _ _).bind fun _ => (quiet_rescale _ _).bind fun _ => ?_
    dsimp only
    split
    · simp [outOfRange]
    · exact (quiet_new _ _).map _
  | multiply =>
    simp only [decimalArithmetic]
    split
    · simp [outOfRange]
    · exact (quiet_new _ _).map _
  | divide =>
    simp only [decimalArithmetic, decimalDivide]
    split
    · simp
    · split
      · simp [outOfRange]
      · split
        · simp [outOfRange]
        · exact (quiet_new _ _).map _
  | modulo => simp [decimalArithmetic]

theorem quiet_sqlDecimal (value : Value) : Quiet (sqlDecimal value) := by
  cases value <;> simp [sqlDecimal, quiet_new]

section
variable [Host]

theorem quiet_floatArithmetic (op : ArithmeticOperator) (l r : F64) : Quiet (floatArithmetic op l r) := by
  cases op <;> simp only [floatArithmetic] <;> (try split) <;> simp

theorem quiet_arithmetic (op : ArithmeticOperator) (lhs rhs : Value) : Quiet (arithmetic op lhs rhs) := by
  unfold arithmetic
  split
  · simp
  · split
    · exact quiet_floatArithmetic _ _ _
    · split
      any_goals exact quiet_integerArithmetic _ _ _ _
      any_goals exact (quiet_sqlDecimal _).bind fun _ => (quiet_sqlDecimal _).bind fun _ =>
        quiet_decimalArithmetic _ _ _
      simp

theorem quiet_coerceValue (value : Value) (column : ColumnDefinition) : Quiet (coerceValue value column) := by
  refine Quiet.bind ?_ fun value => ?_
  · unfold convertValue
    split
    any_goals simp
    split
    · exact (quiet_decodeHex _).map _
    · simp
  · split_ifs <;> simp

theorem quiet_negateLiteral (value : Value) : Quiet (negateLiteral value) := by
  unfold negateLiteral
  split
  any_goals split
  all_goals simp

variable (params : List Value)

theorem quiet_literalConstant (literal : Literal) : Quiet (literalConstant params literal) := by
  cases literal <;> simp only [literalConstant, parameterValue]
  case hexString => exact (quiet_decodeHex _).map _
  any_goals split
  all_goals simp

omit [Host] in
theorem quiet_column (table : TableDefinition) (row : List Value) (expression : Expr) (text : String) :
    Quiet (evalExpression.column table row expression text) := by
  refine Quiet.bind ?_ fun position => ?_
  · unfold columnPosition
    split <;> simp
  · split
    · simp
    · split <;> simp

mutual

theorem quiet_literalValue
    (hhost : ∀ name args, Quiet (Host.scalarFunction name args)) : ∀ e, Quiet (literalValue params e)
  | .nested inner => by
    rw [literalValue]
    exact quiet_literalValue hhost inner
  | .cast expr dataType => by
    rw [literalValue]
    refine (quiet_literalValue hhost expr).bind fun value => ?_
    simp only [coerceResultValue]
    split
    · simp
    · exact quiet_coerceValue _ _
  | .unaryOp .plus expr => by
    rw [literalValue]
    exact quiet_literalValue hhost expr
  | .unaryOp .minus expr => by
    rw [literalValue]
    exact (quiet_literalValue hhost expr).bind quiet_negateLiteral
  | .value literal => by
    rw [literalValue]
    exact quiet_literalConstant params literal
  | .function name [] => by
    rw [literalValue]
    split
    · simp
    · exact (quiet_literalValues hhost []).bind fun _ => hhost _ _
  | .function name (arg :: args) => by
    rw [literalValue]
    split
    · exact quiet_firstNonNullLiteral hhost (arg :: args)
    · exact (quiet_literalValues hhost (arg :: args)).bind fun _ => hhost _ _
    · simp
  | .unaryOp .not _ => by simp [literalValue]
  | .identifier _ | .compoundIdentifier _ | .binaryOp _ _ _ | .inList _ _ _ | .inSubquery _ _ _ | .exists _ _
  | .between _ _ _ _ | .isNull _ | .isNotNull _ | .case _ _ _ | .wildcard | .other => by simp [literalValue]

theorem quiet_literalValues
    (hhost : ∀ name args, Quiet (Host.scalarFunction name args)) : ∀ es, Quiet (literalValues params es)
  | [] => by simp [literalValues]
  | e :: es => by
    rw [literalValues]
    exact (quiet_literalValue hhost e).bind fun _ => (quiet_literalValues hhost es).map _

theorem quiet_firstNonNullLiteral
    (hhost : ∀ name args, Quiet (Host.scalarFunction name args)) : ∀ es, Quiet (firstNonNullLiteral params es)
  | [] => by simp [firstNonNullLiteral]
  | e :: es => by
    rw [firstNonNullLiteral]
    refine (quiet_literalValue hhost e).bind fun value => ?_
    split
    · exact quiet_firstNonNullLiteral hhost es
    · exact quiet_ok _

end

variable (hhost : ∀ name args, Quiet (Host.scalarFunction name args))
include hhost

variable (table : TableDefinition) (row : List Value)

theorem quiet_evalExpression (e : Expr) : Quiet (evalExpression params table row e) := by
  fun_induction evalExpression params table row e with
  | case1 left op right _ _ ihl ihr => exact ihl.bind fun _ => ihr.bind fun _ => quiet_arithmetic _ _ _
  | case2 | case5 => exact quiet_literalValue params hhost _
  | case3 | case4 => exact quiet_column table row _ _

theorem quiet_comparePredicate (op : BinaryOperator) (left right : Expr) :
    Quiet (comparePredicate params table row op left right) :=
  (quiet_evalExpression params hhost table row left).bind fun _ =>
  (quiet_evalExpression params hhost table row right).map _

end

/-- No subquery stands under the connectives and operators of the expression. -/
def subqueryFree : Expr → Bool
  | .nested inner => subqueryFree inner
  | .unaryOp _ inner => subqueryFree inner
  | .binaryOp left _ right => subqueryFree left && subqueryFree right
  | .inSubquery .. | .exists .. => false
  | _ => true

/-- A WHERE of AND, OR, NOT, IN (SELECT), EXISTS (SELECT) and scalar predicates. -/
inductive Where : Expr → Prop
  | nested {e : Expr} : Where e → Where (.nested e)
  | not {e : Expr} : Where e → Where (.unaryOp .not e)
  | and {l r : Expr} : Where l → Where r → Where (.binaryOp l .and r)
  | or {l r : Expr} : Where l → Where r → Where (.binaryOp l .or r)
  | inSubquery (e : Expr) (key : String) (negated : Bool) : Where (.inSubquery e key negated)
  | «exists» (key : String) (negated : Bool) : Where (.exists key negated)
  | scalar {e : Expr} : subqueryFree e → Where e

inductive Occurs (subquery : Subquery) : Expr → Prop
  | nested {e : Expr} : Occurs subquery e → Occurs subquery (.nested e)
  | not {e : Expr} : Occurs subquery e → Occurs subquery (.unaryOp .not e)
  | left {l r : Expr} (op : BinaryOperator) : Occurs subquery l → Occurs subquery (.binaryOp l op r)
  | right {l r : Expr} (op : BinaryOperator) : Occurs subquery r → Occurs subquery (.binaryOp l op r)
  | inSubquery (e : Expr) (key : String) (negated : Bool) (h : subquery = (.isIn, key)) :
      Occurs subquery (.inSubquery e key negated)
  | «exists» (key : String) (negated : Bool) (h : subquery = (.isExists, key)) : Occurs subquery (.exists key negated)

theorem collectSubqueries_free (h : subqueryFree e) : collectSubqueries e = [] := by
  fun_induction collectSubqueries e with
  | case1 inner ih => exact ih h
  | case2 op inner ih => exact ih h
  | case3 left op right ihl ihr =>
    rw [subqueryFree, Bool.and_eq_true] at h
    rw [ihl h.1, ihr h.2]
    rfl
  | case4 => cases h
  | case5 => cases h
  | case6 => rfl

theorem not_occurs_free (h : subqueryFree e) (subquery : Subquery) : ¬ Occurs subquery e := by
  intro hoccurs
  induction hoccurs with
  | nested _ ih => exact ih h
  | not _ ih => exact ih h
  | left op _ ih => exact ih (Bool.and_eq_true _ _ ▸ h).1
  | right op _ ih => exact ih (Bool.and_eq_true _ _ ▸ h).2
  | inSubquery => cases h
  | «exists» => cases h

theorem mem_collectSubqueries (h : Where e) (subquery : Subquery) :
    subquery ∈ collectSubqueries e ↔ Occurs subquery e := by
  induction h with
  | nested _ ih => exact ih.trans ⟨.nested, fun | .nested h => h⟩
  | not _ ih => exact ih.trans ⟨.not, fun | .not h => h⟩
  | and _ _ ihl ihr | or _ _ ihl ihr =>
    rw [collectSubqueries, List.mem_append, ihl, ihr]
    constructor
    · rintro (h | h)
      · exact .left _ h
      · exact .right _ h
    · rintro (_ | _ | ⟨_, h⟩ | ⟨_, h⟩)
      · exact .inl h
      · exact .inr h
  | inSubquery e key negated =>
    exact List.mem_singleton.trans ⟨.inSubquery e key negated, fun | .inSubquery _ _ _ h => h⟩
  | «exists» key negated => exact List.mem_singleton.trans ⟨.exists key negated, fun | .exists _ _ h => h⟩
  | scalar hfree =>
    rw [collectSubqueries_free hfree]
    exact iff_of_false List.not_mem_nil (not_occurs_free hfree subquery)

section
variable [Host] {params : List Value} {table : TableDefinition} {row : List Value}
  (hhost : ∀ name args, Quiet (Host.scalarFunction name args))
include hhost

theorem quiet_scalar {e : Expr} (h : subqueryFree e) (resolved : ResolvedSubqueries) :
    Quiet (predicate params table row resolved e) := by
  have heval := quiet_evalExpression params hhost table row
  have hcompare := quiet_comparePredicate params hhost table row
  fun_induction predicate params table row resolved e with
  | case1 inner ih => exact ih h
  | case2 inner ih => exact (ih h).map _
  | case3 left right ihl ihr =>
    rw [subqueryFree, Bool.and_eq_true] at h
    exact (ihl h.1).bind fun _ => (ihr h.2).map _
  | case4 left right _ ihl ihr =>
    rw [subqueryFree, Bool.and_eq_true] at h
    exact (ihl h.1).bind fun _ => (ihr h.2).map _
  | case5 left op right => exact hcompare op left right
  | case6 => simp
  | case7 => cases h
  | case8 => cases h
  | case9 e list negated => exact (heval e).bind fun _ => (quiet_literalValues params hhost list).map _
  | case10 e negated low high => exact (hcompare _ _ _).bind fun _ => (hcompare _ _ _).map _
  | case11 e | case14 e => exact (heval e).map _
  | case12 => cases h
  | case13 => cases h
  | case15 e =>
    refine (heval e).bind fun value => ?_
    split <;> first | exact quiet_ok _ | simp

theorem quiet_predicate {e : Expr} (h : Where e) {execute : String → DbResult QueryResult}
    {resolved : ResolvedSubqueries}
    (hown : ∀ subquery, Occurs subquery e → resolved.Own execute subquery) :
    Quiet (predicate params table row resolved e) := by
  induction h with
  | nested _ ih =>
    rw [predicate]
    exact ih fun s hs => hown s (.nested hs)
  | not _ ih =>
    rw [predicate]
    exact (ih fun s hs => hown s (.not hs)).map _
  | and _ _ ihl ihr =>
    rw [predicate, if_pos rfl]
    exact (ihl fun s hs => hown s (.left _ hs)).bind fun _ => (ihr fun s hs => hown s (.right _ hs)).map _
  | or _ _ ihl ihr =>
    rw [predicate, if_neg (by decide), if_pos rfl]
    exact (ihl fun s hs => hown s (.left _ hs)).bind fun _ => (ihr fun s hs => hown s (.right _ hs)).map _
  | inSubquery e key negated =>
    obtain ⟨_, _, _, _, hget⟩ := hown (.isIn, key) (.inSubquery e key negated rfl)
    rw [predicate, hget]
    exact (quiet_evalExpression params hhost table row e).map _
  | «exists» key negated =>
    obtain ⟨_, _, hget⟩ := hown (.isExists, key) (.exists key negated rfl)
    rw [predicate, hget]
    exact quiet_ok _
  | scalar hfree => exact quiet_scalar hhost hfree resolved

end

/-- Once the subqueries of a WHERE are resolved, no row's evaluation misses an answer and every IN and
EXISTS is answered from its own subquery's result, exactly when no text stands in both forms. -/
theorem subqueries_resolved_iff [Host] (hhost : ∀ name args, Quiet (Host.scalarFunction name args))
    (execute : String → DbResult QueryResult) {e : Expr} (hwhere : Where e) {resolved : ResolvedSubqueries}
    (h : resolveSubqueries execute (some e) = .ok resolved) :
    ((∀ params table row, predicate params table row resolved e ≠ .error notResolved) ∧
        ∀ subquery, Occurs subquery e → resolved.Own execute subquery) ↔
      ∀ key, ¬ (Occurs (.isIn, key) e ∧ Occurs (.isExists, key) e) := by
  have hcovers := ResolvedSubqueries.Covers.empty.run h
  have hiff := hcovers.own_iff
  simp only [List.nil_append, mem_collectSubqueries hwhere] at hiff
  rw [← hiff]
  exact ⟨fun hall => hall.2, fun hown => ⟨fun params table row => quiet_predicate hhost hwhere hown, hown⟩⟩

/-- `NULL IN (q) AND EXISTS (p)`. -/
def inAndExists (p q : String) : Expr := .binaryOp (.inSubquery (.value .null) q false) .and (.exists p false)

theorem where_inAndExists (p q : String) : Where (inAndExists p q) := .and (.inSubquery _ _ _) (.exists _ _)

def oneEmptyColumn (_ : String) : DbResult QueryResult := .ok ⟨1, []⟩

theorem quiet_bare (name : String) (args : List Value) : Quiet (Host.bare.scalarFunction name args) :=
  (quiet_error _).mpr nofun

theorem subqueries_resolved_apart : ∃ resolved, resolveSubqueries oneEmptyColumn (some (inAndExists "p" "q")) =
    .ok resolved ∧
    ∀ params table row, @predicate Host.bare params table row resolved (inAndExists "p" "q") ≠ .error notResolved := by
  refine ⟨_, rfl, ?_⟩
  refine ((@subqueries_resolved_iff Host.bare quiet_bare oneEmptyColumn _ (where_inAndExists "p" "q") _ rfl).mpr ?_).1
  rintro key ⟨hin, hexists⟩
  have hin := (mem_collectSubqueries (where_inAndExists "p" "q") _).mpr hin
  have hexists := (mem_collectSubqueries (where_inAndExists "p" "q") _).mpr hexists
  simp [inAndExists, collectSubqueries] at hin hexists
  rw [hin] at hexists
  simp at hexists

/-- One text in both forms: it is resolved for the IN only, and the EXISTS finds no answer on any row. -/
theorem inAndExists_not_resolved : ∃ resolved, resolveSubqueries oneEmptyColumn (some (inAndExists "q" "q")) =
    .ok resolved ∧
    ∀ params table row, @predicate Host.bare params table row resolved (inAndExists "q" "q") = .error notResolved :=
  ⟨_, rfl, fun _ _ _ => rfl⟩

end OmenDb.Sql
