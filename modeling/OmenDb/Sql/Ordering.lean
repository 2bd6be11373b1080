import OmenDb.Lib.StableSort
import OmenDb.Sql.Value

/-! ORDER BY over the combined rows of a set operation and over grouped aggregates. Both sort the
result rows with one comparator, which reads a NULL as equal to every value. The abstract order
puts NULLs on a side that is fixed for each column. -/
namespace OmenDb.Sql

/-- `joined_value_ordering`: incomparable values, NULLs among them, order as equal. -/
def joinedValueOrdering [Host] : Value → Value → Ordering
  | .u64 l, .u64 r => cmp l.val r.val
  | .i64 l, .i64 r => cmp l.val r.val
  | .text l, .text r => cmp l r
  | .u64 l, .i64 r =>
    if 0 ≤ r.val then cmp l.val r.val.toNat else (valueCmp (.u64 l) (.i64 r)).getD .eq
  | .i64 l, .u64 r =>
    if 0 ≤ l.val then cmp l.val.toNat r.val else (valueCmp (.i64 l) (.u64 r)).getD .eq
  | .float64 l, .float64 r => l.order r
  | .date l, .date r => cmp l.val r.val
  | .timestamp l, .timestamp r => cmp l.val r.val
  | .decimal l, .decimal r => DecimalValue.order l r
  | .uuid l, .uuid r => cmp l.val r.val
  | left, right => (valueCmp left right).getD .eq

theorem joinedValueOrdering_eq [Host] (l r : Value) :
    joinedValueOrdering l r = (valueCmp l r).getD .eq := by
  cases l <;> cases r <;> simp only [joinedValueOrdering, valueCmp, Option.getD_some] <;>
    split <;> simp_all [not_lt.mpr]

/-- A result row has one value for each of the `n` output columns. -/
abbrev ResultRow (n : ℕ) := Fin n → Value

/-- A resolved ORDER BY term: output column and direction. -/
structure SortTerm (n : ℕ) where
  position : Fin n
  asc : Bool
  deriving DecidableEq

variable {n : ℕ}

/-- Resolve each ORDER BY name against the output columns, first match first. -/
def sortTerms (columns : Fin n → String) (order : List (String × Bool)) : DbResult (List (SortTerm n)) :=
  order.mapM fun (name, asc) =>
    match (List.finRange n).find? fun position => columns position == name with
    | some position => .ok ⟨position, asc⟩
    | none => .error (.sqlUndefinedColumn name)

def directed (asc : Bool) (ordering : Ordering) : Ordering := if asc then ordering else ordering.swap

/-- The closure given to `sort_by`: the first term that does not order the rows as equal. -/
def compareTerms [Host] : List (SortTerm n) → ResultRow n → ResultRow n → Ordering
  | [], _, _ => .eq
  | term :: terms, left, right =>
    let ordering :=
      directed term.asc (joinedValueOrdering (left term.position) (right term.position))
    if ordering ≠ .eq then ordering else compareTerms terms left right

inductive SetOperator
  | union | intersect | except
  deriving DecidableEq

/-- `==` on rows, as the hash sets use it. -/
def sameRow (l r : ResultRow n) : Bool := decide (∀ i, (l i).same (r i))

/-- `apply_distinct`: the first of every class of equal rows. -/
def applyDistinct (rows : List (ResultRow n)) : List (ResultRow n) :=
  rows.foldl (fun unique row => if unique.any (sameRow row) then unique else unique ++ [row]) []

/-- The rows of a set operation before ORDER BY. Both sides are already coerced to the common
column types. Only UNION heeds ALL. -/
def combineRows (op : SetOperator) (keepDuplicates : Bool) (left right : List (ResultRow n)) :
    List (ResultRow n) :=
  match op with
  | .union => if keepDuplicates then left ++ right else applyDistinct (left ++ right)
  | .intersect => applyDistinct (left.filter fun row => right.any (sameRow row))
  | .except => applyDistinct (left.filter fun row => !right.any (sameRow row))

section
variable [Host] (std : SortBy)

/-- Sort when there is an ORDER BY, then skip and take. `none` is a panic of the sort. -/
def orderedWindow (terms : Option (List (SortTerm n))) (offset limit : ℕ) (rows : List (ResultRow n)) :
    Option (List (ResultRow n)) :=
  (match terms with
    | some terms => std.sort (compareTerms terms) rows
    | none => some rows).map fun sorted => (List.drop offset sorted).take limit

/-- `execute_set_operation` from the rows of its two sides on. -/
def executeSetOperation (columns : Fin n → String) (op : SetOperator) (keepDuplicates : Bool)
    (order : Option (List (String × Bool))) (offset limit : ℕ) (left right : List (ResultRow n)) :
    DbResult (Option (List (ResultRow n))) := do
  let rows := combineRows op keepDuplicates left right
  let terms ← order.mapM (sortTerms columns)
  return orderedWindow std terms offset limit rows

/-- `execute_aggregate_query` from its grouped rows on. -/
def orderGroups (columns : Fin n → String) (order : Option (List (String × Bool))) (offset limit : ℕ)
    (rows : List (ResultRow n)) : DbResult (Option (List (ResultRow n))) := do
  let terms ← order.mapM (sortTerms columns)
  return orderedWindow std terms offset limit rows

end

/-- NULLs on one side of all values, which rank by family and place in the given direction. -/
def nullsCompare (first asc : Bool) (l r : Value) : Ordering :=
  if l = .null ∧ r = .null then .eq
  else if l = .null then (if first then .lt else .gt)
  else if r = .null then (if first then .gt else .lt)
  else directed asc (cmp l.rank r.rank)

/-- The terms in turn, with the NULLs of each column on its side. -/
def rowCompare (first : Fin n → Bool) : List (SortTerm n) → ResultRow n → ResultRow n → Ordering
  | [], _, _ => .eq
  | term :: terms, left, right =>
    (nullsCompare (first term.position) term.asc (left term.position) (right term.position)).then
      (rowCompare first terms left right)

theorem isLE_cmp {α : Type} [LinearOrder α] (a b : α) : (cmp a b).isLE = true ↔ a ≤ b := by
  rw [← not_lt, ← cmp_eq_gt_iff]
  cases cmp a b <;> simp

theorem directed_transCmp (asc : Bool) :
    Std.TransCmp fun l r : Value => directed asc (cmp l.rank r.rank) where
  eq_swap {a b} := by
    rw [← cmp_swap b.rank]
    cases asc <;> simp [directed]
  isLE_trans {a b c} := by
    cases asc
    · simp only [directed, Bool.false_eq_true, if_false, cmp_swap, isLE_cmp]
      exact fun h h' => h'.trans h
    · simp only [directed, if_true, isLE_cmp]
      exact fun h h' => h.trans h'

theorem nullsCompare_transCmp (first asc : Bool) : Std.TransCmp (nullsCompare first asc) where
  eq_swap {a b} := by
    unfold nullsCompare
    by_cases ha : a = .null <;> by_cases hb : b = .null <;> cases first <;> simp [ha, hb]
    all_goals exact (directed_transCmp asc).eq_swap
  isLE_trans {a b c} := by
    unfold nullsCompare
    by_cases ha : a = .null <;> by_cases hb : b = .null <;> by_cases hc : c = .null <;>
      cases first <;> simp [ha, hb, hc]
    all_goals exact (directed_transCmp asc).isLE_trans

theorem transCmp_at {c : Value → Value → Ordering} (h : Std.TransCmp c) (i : Fin n) :
    Std.TransCmp fun l r : ResultRow n => c (l i) (r i) where
  eq_swap := h.eq_swap
  isLE_trans := h.isLE_trans

instance rowCompare_transCmp (first : Fin n → Bool) (terms : List (SortTerm n)) :
    Std.TransCmp (rowCompare first terms) := by
  induction terms with
  | nil =>
    have : Std.OrientedCmp (rowCompare first ([] : List (SortTerm n))) := ⟨rfl⟩
    exact ⟨fun _ _ => rfl⟩
  | cons term terms ih =>
    have := transCmp_at (nullsCompare_transCmp (first term.position) term.asc) term.position
    exact inferInstanceAs (Std.TransCmp (compareLex
      (fun l r : ResultRow n => nullsCompare (first term.position) term.asc (l term.position)
        (r term.position)) (rowCompare first terms)))

section
variable [Host]

variable {l r : Value} {terms : List (SortTerm n)} {a b : ResultRow n} {first : Fin n → Bool}

theorem joinedValueOrdering_eq_cmp (hl : l.isFloat = false) (hr : r.isFloat = false) :
    joinedValueOrdering l r = if l.family = r.family then cmp l.rank r.rank else .eq := by
  rw [joinedValueOrdering_eq, valueCmp_eq hl hr]
  by_cases hfamily : l.family = r.family
  · rw [if_pos hfamily]
    split
    · -- of two values of one family either both are NULL or none is
      rename_i h
      have hnull : l = .null ∧ r = .null := by
        cases l <;> cases r <;> simp_all [Value.family]
      rw [hnull.1, hnull.2, cmp_self_eq_eq]
      rfl
    · rfl
  · rw [if_pos (.inr (.inr hfamily)), if_neg hfamily]
    rfl

theorem joinedValueOrdering_swap (hl : l.isFloat = false) (hr : r.isFloat = false) :
    joinedValueOrdering r l = (joinedValueOrdering l r).swap := by
  rw [joinedValueOrdering_eq_cmp hl hr, joinedValueOrdering_eq_cmp hr hl, ← cmp_swap l.rank]
  by_cases h : l.family = r.family
  · rw [if_pos h, if_pos h.symm]
  · rw [if_neg h, if_neg (Ne.symm h)]
    rfl

/-- Rows free of floats, the side condition of everything below. -/
def FloatFree (row : ResultRow n) : Prop := ∀ i, (row i).isFloat = false

theorem compareTerms_swap (ha : FloatFree a)
    (hb : FloatFree b) : compareTerms terms b a = (compareTerms terms a b).swap := by
  induction terms with
  | nil => rfl
  | cons term terms ih =>
    simp only [compareTerms, joinedValueOrdering_swap (ha term.position) (hb term.position), ih]
    cases joinedValueOrdering (a term.position) (b term.position) <;> cases term.asc <;>
      simp [directed]

omit [Host] in
theorem nullsCompare_eq_iff {first asc : Bool} : nullsCompare first asc l r = .eq ↔ l.rank = r.rank := by
  have hdirected : ∀ o : Ordering, directed asc o = .eq ↔ o = .eq := by
    intro o
    cases asc <;> cases o <;> simp [directed]
  unfold nullsCompare
  by_cases hl : l = .null <;> by_cases hr : r = .null
  · simp [hl, hr]
  · have hne : Value.null.rank ≠ r.rank := by
      cases r <;> simp_all [Value.rank, Value.family]
    cases first <;> simp [hl, hr, hne]
  · have hne : l.rank ≠ Value.null.rank := by
      cases l <;> simp_all [Value.rank, Value.family]
    cases first <;> simp [hl, hr, hne]
  · simp [hl, hr, hdirected, cmp_eq_eq_iff]

omit [Host] in
theorem family_of_rank (h : l.rank = r.rank) : l.family = r.family :=
  congrArg (fun rank => (ofLex rank).1) h

omit [Host] in
theorem nullsCompare_of_family {first asc : Bool} (h : l.family = r.family) :
    nullsCompare first asc l r = directed asc (cmp l.rank r.rank) := by
  unfold nullsCompare
  cases l <;> cases r <;> simp_all [Value.family]
  cases asc <;> simp [directed]

/-- The term orders two rows that have values of one family in it. -/
def Told (a b : ResultRow n) (term : SortTerm n) : Prop :=
  (a term.position).family = (b term.position).family ∧ (a term.position).rank ≠ (b term.position).rank

/-- Whenever two rows tie in the terms before one in which their values are of different families, as
when exactly one of them is NULL, the first later term that orders the two rows orders them as the
side of the NULLs does. -/
def Settled (first : Fin n → Bool) (terms : List (SortTerm n)) (a b : ResultRow n) : Prop :=
  ∀ before term after, terms = before ++ term :: after →
    (∀ t ∈ before, (a t.position).rank = (b t.position).rank) →
    (a term.position).family ≠ (b term.position).family →
    ∃ between later rest, after = between ++ later :: rest ∧ (∀ t ∈ between, ¬ Told a b t) ∧ Told a b later ∧
      directed later.asc (cmp (a later.position).rank (b later.position).rank) =
        nullsCompare (first term.position) term.asc (a term.position) (b term.position)

/-- The comparator answers with the first term that orders the rows. -/
theorem compareTerms_eq_iff (ha : FloatFree a) (hb : FloatFree b) {o : Ordering} (ho : o ≠ .eq) :
    compareTerms terms a b = o ↔ ∃ between later rest, terms = between ++ later :: rest ∧
      (∀ t ∈ between, ¬ Told a b t) ∧ Told a b later ∧
      directed later.asc (cmp (a later.position).rank (b later.position).rank) = o := by
  induction terms with
  | nil => simp [compareTerms, ho.symm]
  | cons term terms ih =>
    by_cases htold : Told a b term
    · have hne : directed term.asc (cmp (a term.position).rank (b term.position).rank) ≠ .eq := by
        have hcmp : cmp (a term.position).rank (b term.position).rank ≠ .eq := by
          simpa [cmp_eq_eq_iff] using htold.2
        cases term.asc <;> cases h : cmp (a term.position).rank (b term.position).rank <;> simp_all [directed]
      simp only [compareTerms, joinedValueOrdering_eq_cmp (ha _) (hb _), if_pos htold.1, ne_eq, hne,
        not_false_eq_true, if_true]
      constructor
      · exact fun h => ⟨[], term, terms, rfl, by simp, htold, h⟩
      · rintro ⟨between, later, rest, happ, hbetween, -, h⟩
        cases between with
        | nil =>
          cases happ
          exact h
        | cons t between =>
          cases happ
          exact absurd htold (hbetween _ List.mem_cons_self)
    · have heq : directed term.asc (joinedValueOrdering (a term.position) (b term.position)) = .eq := by
        rw [joinedValueOrdering_eq_cmp (ha _) (hb _)]
        split
        · next hfamily =>
          have hrank : (a term.position).rank = (b term.position).rank := by
            by_contra hrank
            exact htold ⟨hfamily, hrank⟩
          rw [hrank, cmp_self_eq_eq]
          cases term.asc <;> rfl
        · cases term.asc <;> rfl
      simp only [compareTerms, heq, ne_eq, not_true_eq_false, if_false, ih]
      constructor
      · rintro ⟨between, later, rest, rfl, hbetween, hlater, h⟩
        exact ⟨term :: between, later, rest, rfl, by simpa [htold] using hbetween, hlater, h⟩
      · rintro ⟨between, later, rest, happ, hbetween, hlater, h⟩
        cases between with
        | nil =>
          cases happ
          exact absurd hlater htold
        | cons t between =>
          cases happ
          exact ⟨between, later, rest, rfl, fun t ht => hbetween t (List.mem_cons_of_mem _ ht), hlater, h⟩

omit [Host] in
theorem settled_cons {term : SortTerm n} (h : (a term.position).rank = (b term.position).rank) :
    Settled first (term :: terms) a b ↔ Settled first terms a b := by
  constructor
  · intro hs before u after happ hbefore hfamily
    exact hs (term :: before) u after (by rw [happ]; rfl) (by simpa [h] using hbefore) hfamily
  · intro hs before u after happ hbefore hfamily
    cases before with
    | nil =>
      cases happ
      exact absurd (family_of_rank h) hfamily
    | cons t before =>
      cases happ
      exact hs before u after rfl (fun t ht => hbefore t (List.mem_cons_of_mem _ ht)) hfamily

/-- The comparator orders two rows as the terms do exactly when the NULLs are settled. -/
theorem compareTerms_eq_rowCompare (ha : FloatFree a) (hb : FloatFree b) :
    compareTerms terms a b = rowCompare first terms a b ↔ Settled first terms a b := by
  induction terms with
  | nil =>
    refine iff_of_true rfl fun before term after happ => ?_
    cases before <;> cases happ
  | cons term terms ih =>
    by_cases hrank : (a term.position).rank = (b term.position).rank
    · rw [settled_cons hrank, ← ih, rowCompare, nullsCompare_eq_iff.mpr hrank, compareTerms,
        joinedValueOrdering_eq_cmp (ha _) (hb _), if_pos (family_of_rank hrank), hrank, cmp_self_eq_eq]
      cases term.asc <;> rfl
    · have hne : nullsCompare (first term.position) term.asc (a term.position) (b term.position) ≠ .eq :=
        fun h => hrank (nullsCompare_eq_iff.mp h)
      have hrow : rowCompare first (term :: terms) a b =
          nullsCompare (first term.position) term.asc (a term.position) (b term.position) := by
        rw [rowCompare]
        cases h : nullsCompare (first term.position) term.asc (a term.position) (b term.position) with
        | eq => exact absurd h hne
        | lt | gt => rfl
      rw [hrow, compareTerms_eq_iff ha hb hne]
      by_cases hfamily : (a term.position).family = (b term.position).family
      · -- the term decides on both sides
        refine iff_of_true ⟨[], term, terms, rfl, by simp, ⟨hfamily, hrank⟩, (nullsCompare_of_family hfamily).symm⟩ ?_
        intro before u after happ hbefore hne
        cases before with
        | nil =>
          cases happ
          exact absurd hfamily hne
        | cons t before =>
          cases happ
          exact absurd (hbefore _ List.mem_cons_self) hrank
      · constructor
        · rintro ⟨between, later, rest, happ, hbetween, hlater, hdecides⟩ before u after happ' hbefore -
          cases before with
          | cons t before =>
            cases happ'
            exact absurd (hbefore _ List.mem_cons_self) hrank
          | nil =>
            cases happ'
            cases between with
            | nil =>
              cases happ
              exact absurd hlater.1 hfamily
            | cons t between =>
              cases happ
              exact ⟨between, later, rest, rfl, fun t ht => hbetween t (List.mem_cons_of_mem _ ht), hlater, hdecides⟩
        · intro hs
          obtain ⟨between, later, rest, rfl, hbetween, hlater, hdecides⟩ := hs [] term terms rfl (by simp) hfamily
          exact ⟨term :: between, later, rest, rfl, by simpa [Told, hfamily] using hbetween, hlater, hdecides⟩

omit [Host] in
theorem settled_of_eq (h : rowCompare first terms a b = .eq) : Settled first terms a b := by
  have hranks : ∀ t ∈ terms, (a t.position).rank = (b t.position).rank := by
    induction terms with
    | nil => simp
    | cons term terms ih =>
      rw [rowCompare, Ordering.then_eq_eq, nullsCompare_eq_iff] at h
      simpa [h.1] using ih h.2
  rintro before term after rfl - hfamily
  exact absurd (family_of_rank (hranks term (by simp))) hfamily

def InOrder (first : Fin n → Bool) (terms : List (SortTerm n))
    (result : DbResult (Option (List (ResultRow n)))) : Prop :=
  ∃ out, result = .ok (some out) ∧ out.Pairwise fun a b => (rowCompare first terms a b).isLE

theorem orderedWindow_inOrder (std : SortBy) {rows : List (ResultRow n)}
    (h : ∀ a ∈ rows, ∀ b ∈ rows, compareTerms terms a b = rowCompare first terms a b) (offset limit : ℕ) :
    InOrder first terms (.ok (orderedWindow std (some terms) offset limit rows)) := by
  obtain ⟨out, hsort, -, hsorted⟩ := std.sorts (compareTerms terms) (rowCompare first terms) rows h
  refine ⟨(out.drop offset).take limit, ?_, ?_⟩
  · rw [orderedWindow, hsort]
    rfl
  · exact hsorted.sublist ((List.take_sublist _ _).trans (List.drop_sublist _ _))

theorem compareTerms_of_inOrder (std : SortBy) (ha : FloatFree a) (hb : FloatFree b)
    (hab : InOrder first terms (.ok (orderedWindow std (some terms) 0 2 [a, b])))
    (hba : InOrder first terms (.ok (orderedWindow std (some terms) 0 2 [b, a]))) :
    compareTerms terms a b = rowCompare first terms a b := by
  -- of two rows, the one that must come first can only come out first by being strictly below
  have key : ∀ x y : ResultRow n, rowCompare first terms x y = .lt →
      InOrder first terms (.ok (orderedWindow std (some terms) 0 2 [y, x])) →
      compareTerms terms x y = .lt := by
    intro x y hlt hord
    obtain ⟨out, hout, hsorted⟩ := hord
    by_contra hne
    rw [orderedWindow, std.short _ _ (by simp), insertionSortBy_pair, if_neg hne] at hout
    obtain rfl : [y, x] = out := by simpa using hout
    have hle := (List.pairwise_cons.mp hsorted).1 x (by simp)
    rw [(inferInstance : Std.OrientedCmp (rowCompare first terms)).eq_swap, hlt] at hle
    simp at hle
  cases h : rowCompare first terms a b with
  | lt => exact key a b h hba
  | eq => exact ((compareTerms_eq_rowCompare ha hb).mpr (settled_of_eq h)).trans h
  | gt =>
    have hgt : rowCompare first terms b a = .lt := by
      rw [(inferInstance : Std.OrientedCmp (rowCompare first terms)).eq_swap, h]
      rfl
    rw [compareTerms_swap hb ha, key b a hgt hab]
    rfl

end

theorem mem_applyDistinct {rows : List (ResultRow n)} {row : ResultRow n}
    (h : row ∈ applyDistinct rows) : row ∈ rows := by
  have key : ∀ (rows acc : List (ResultRow n)),
      row ∈ rows.foldl (fun unique row => if unique.any (sameRow row) then unique else unique ++ [row])
        acc → row ∈ acc ∨ row ∈ rows := by
    intro rows
    induction rows with
    | nil => exact fun _ h => .inl h
    | cons r rows ih =>
      intro acc h
      rcases ih _ h with h | h
      · dsimp only at h
        split at h
        · exact .inl h
        · rcases List.mem_append.mp h with h | h
          · exact .inl h
          · exact .inr (by simp_all)
      · exact .inr (by simp [h])
  simpa using key rows [] h

theorem mem_combineRows {op : SetOperator} {keepDuplicates : Bool} {left right : List (ResultRow n)}
    {row : ResultRow n} (h : row ∈ combineRows op keepDuplicates left right) :
    row ∈ left ∨ row ∈ right := by
  cases op with
  | union =>
    simp only [combineRows] at h
    split at h
    · exact List.mem_append.mp h
    · exact List.mem_append.mp (mem_applyDistinct h)
  | intersect | except => exact .inl (List.mem_of_mem_filter (mem_applyDistinct h))

section
variable [Host] (std : SortBy) {columns : Fin n → String} {order : List (String × Bool)}
  {terms : List (SortTerm n)} (hterms : sortTerms columns order = .ok terms)
include hterms

theorem executeSetOperation_eq (op : SetOperator) (keepDuplicates : Bool) (offset limit : ℕ)
    (left right : List (ResultRow n)) :
    executeSetOperation std columns op keepDuplicates (some order) offset limit left right =
      .ok (orderedWindow std (some terms) offset limit (combineRows op keepDuplicates left right)) := by
  simp only [executeSetOperation, Option.mapM_some, hterms]
  rfl

theorem orderGroups_eq (offset limit : ℕ) (rows : List (ResultRow n)) :
    orderGroups std columns (some order) offset limit rows =
      .ok (orderedWindow std (some terms) offset limit rows) := by
  simp only [orderGroups, Option.mapM_some, hterms]
  rfl

end

def twoNullOne : List (ResultRow 1) :=
  [fun _ => .i64 ⟨2, I64.two_fits⟩, fun _ => .null, fun _ => .i64 ⟨1, I64.one_fits⟩]

end OmenDb.Sql
