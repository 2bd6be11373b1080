import OmenDb.Sql.Morsel

/-! SELECT DISTINCT on every execution path: constants, one table, a join, and the grouped forms of
the last two. The paths drop duplicates, or forget to, at places of their own. -/
namespace OmenDb.Sql

theorem F64.same_equivalence : Equivalence fun l r : F64 => l.same r = true := by
  refine ⟨fun a => ?_, fun {a b} h => ?_, fun {a b c} h h' => ?_⟩
  · cases ha : a.isNan <;> simp [F64.same, ha]
  · revert h
    cases ha : a.isNan <;> cases hb : b.isNan <;> simp [F64.same, ha, hb]
    grind
  · revert h h'
    cases ha : a.isNan <;> cases hb : b.isNan <;> cases hc : c.isNan <;> simp [F64.same, ha, hb, hc]
    grind

theorem Value.same_decimal (l r : DecimalValue) :
    (Value.decimal l).same (.decimal r) = decide (l.toRat = r.toRat) := by
  rw [Value.same, DecimalValue.order_eq, Bool.eq_iff_iff]
  simp [cmp_eq_eq_iff]

theorem Value.same_iff (a b : Value) : a.same b = true ↔
    a = b ∨ (∃ l r, a = .decimal l ∧ b = .decimal r ∧ l.toRat = r.toRat) ∨
      ∃ l r, a = .float64 l ∧ b = .float64 r ∧ l.same r = true := by
  constructor
  · intro h
    unfold Value.same at h
    split at h
    · rename_i l r
      exact .inr (.inl ⟨l, r, rfl, rfl, by simpa using (same_decimal l r).symm.trans h⟩)
    · rename_i l r
      exact .inr (.inr ⟨l, r, rfl, rfl, h⟩)
    · exact .inl (of_decide_eq_true h)
  · rintro (rfl | ⟨l, r, rfl, rfl, h⟩ | ⟨l, r, rfl, rfl, h⟩)
    · cases a with
      | decimal d => simp [same_decimal]
      | float64 f => exact F64.same_equivalence.refl f
      | _ => simp [same]
    · simp [same_decimal, h]
    · exact h

theorem Value.same_equivalence : Equivalence fun l r : Value => l.same r = true := by
  have hfloat := F64.same_equivalence
  refine ⟨fun a => (same_iff a a).mpr (.inl rfl), fun {a b} h => ?_, fun {a b c} h h' => ?_⟩
  · rw [same_iff] at h ⊢
    obtain rfl | ⟨l, r, rfl, rfl, h⟩ | ⟨l, r, rfl, rfl, h⟩ := h
    · exact .inl rfl
    · exact .inr (.inl ⟨r, l, rfl, rfl, h.symm⟩)
    · exact .inr (.inr ⟨r, l, rfl, rfl, hfloat.symm h⟩)
  · rw [same_iff] at h
    obtain rfl | ⟨l, r, rfl, rfl, h⟩ | ⟨l, r, rfl, rfl, h⟩ := h
    · exact h'
    · rw [same_iff] at h' ⊢
      obtain rfl | ⟨r, s, hr, rfl, h'⟩ | ⟨r, s, hr, -, -⟩ := h'
      · exact .inr (.inl ⟨l, r, rfl, rfl, h⟩)
      · cases hr
        exact .inr (.inl ⟨l, s, rfl, rfl, h.trans h'⟩)
      · cases hr
    · rw [same_iff] at h' ⊢
      obtain rfl | ⟨r, s, hr, -, -⟩ | ⟨r, s, hr, rfl, h'⟩ := h'
      · exact .inr (.inr ⟨l, r, rfl, rfl, h⟩)
      · cases hr
      · cases hr
        exact .inr (.inr ⟨l, s, rfl, rfl, hfloat.trans h h'⟩)

theorem sameRow_equivalence {n : ℕ} : Equivalence fun l r : ResultRow n => sameRow l r = true := by
  simp only [sameRow, decide_eq_true_eq]
  exact ⟨fun a i => Value.same_equivalence.refl (a i), fun h i => Value.same_equivalence.symm (h i),
    fun h h' i => Value.same_equivalence.trans (h i) (h' i)⟩

theorem applyDistinct_eq {n : ℕ} (rows : List (ResultRow n)) : applyDistinct rows = firsts sameRow rows := by
  rw [applyDistinct, foldl_insert_eq sameRow_equivalence]
  simp

/-- OFFSET and LIMIT; no LIMIT is `usize::MAX` in the source. -/
def queryWindow {α : Type} (offset : ℕ) (limit : Option ℕ) (rows : List α) : List α :=
  match limit with
  | some limit => (rows.drop offset).take limit
  | none => rows.drop offset

/-- An ORDER BY that has been resolved: a sort of the rows. -/
structure RowSort (α : Type) where
  sort : List α → List α
  perm : ∀ rows, (sort rows).Perm rows

def sorted {α : Type} (order : Option (RowSort α)) (rows : List α) : List α :=
  match order with
  | some order => order.sort rows
  | none => rows

theorem sorted_perm {α : Type} (order : Option (RowSort α)) (rows : List α) : (sorted order rows).Perm rows := by
  cases order with
  | none => exact .refl rows
  | some order => exact order.perm rows

variable {m n : ℕ}

/-- A query over the rows of one table, without aggregates. -/
structure PlainQuery (m n : ℕ) where
  candidates : List (ResultRow m)
  predicate : ResultRow m → DbResult Truth
  order : Option (RowSort (ResultRow m))
  windows : Option (List (ResultRow m) → DbResult (List (List Value)))
  project : ResultRow m → List Value → DbResult (ResultRow n)

/-- The loop that collects the matching rows; `required` is where it may stop. -/
def PlainQuery.collect (q : PlainQuery m n) (required : Option ℕ) :
    List (ResultRow m) → List (ResultRow m) → DbResult (List (ResultRow m))
  | [], matching => .ok matching
  | row :: rows, matching => do
    if (← q.predicate row) = .true then
      let matching := matching ++ [row]
      if required.any (· ≤ matching.length) then .ok matching else q.collect required rows matching
    else q.collect required rows matching

def PlainQuery.windowValues (q : PlainQuery m n) (matching : List (ResultRow m)) : DbResult (List (List Value)) :=
  match q.windows with
  | some windows => windows matching
  | none => .ok []

/-- The plain path of `execute_query`. -/
def PlainQuery.execute (q : PlainQuery m n) (distinct : Bool) (offset : ℕ) (limit : Option ℕ) :
    DbResult (List (ResultRow n)) :=
  if limit = some 0 then .ok []
  else do
    -- a window function needs all rows, as do ORDER BY and DISTINCT
    let canStop := q.order.isNone && !distinct && q.windows.isNone
    let matching ← q.collect (if canStop then limit.map (offset + ·) else none) q.candidates []
    let matching := sorted q.order matching
    let windowValues ← q.windowValues matching
    let projected ← matching.zipIdx.mapM fun (row, i) => q.project row (windowValues.getD i [])
    return queryWindow offset limit (if distinct then applyDistinct projected else projected)

/-- A query over the combined rows of a join, without aggregates. -/
structure JoinQuery (m n : ℕ) where
  combined : List (ResultRow m)
  order : Option (RowSort (ResultRow m))
  project : ResultRow m → DbResult (ResultRow n)

def JoinQuery.execute (q : JoinQuery m n) (distinct : Bool) (offset : ℕ) (limit : Option ℕ) :
    DbResult (List (ResultRow n)) := do
  let rows ← (sorted q.order q.combined).mapM q.project
  return queryWindow offset limit (if distinct then applyDistinct rows else rows)

/-- An item of the projection of a grouped query: a constant, a grouping column or an aggregate. -/
inductive OutputItem
  | constant (value : Value)
  | group
  | aggregate (spec : AggregateSpec)

def OutputItem.aggregate? : OutputItem → Option AggregateSpec
  | aggregate spec => some spec
  | _ => none

def OutputItem.isGroup : OutputItem → Bool
  | group => true
  | _ => false

/-- The values of the items. The key and the aggregates are read from the front, so that a grouping
column stands for the next value of the key, whichever column it names. -/
def emitItems : List OutputItem → List Value → List Value → List Value
  | [], _, _ => []
  | .constant value :: items, key, values => value :: emitItems items key values
  | .group :: items, value :: key, values => value :: emitItems items key values
  | .group :: items, [], values => emitItems items [] values
  | .aggregate _ :: items, key, value :: values => value :: emitItems items key values
  | .aggregate _ :: items, key, [] => emitItems items key []

/-- A row of the values; what is missing at its end is missing in every row of the query. -/
def rowOf (n : ℕ) (values : List Value) : ResultRow n := fun i => values.getD i .null

/-- A grouped or aggregate query over the rows of one table that match. -/
structure GroupedQuery (m n : ℕ) where
  columns : Fin m → ColumnDefinition
  matching : List (ResultRow m)
  groupBy : List (Fin m)
  items : Fin n → OutputItem
  order : Option (RowSort (ResultRow n))

def GroupedQuery.aggregates (q : GroupedQuery m n) : List AggregateSpec :=
  (List.ofFn q.items).filterMap OutputItem.aggregate?

def GroupedQuery.emit (q : GroupedQuery m n) (key values : List Value) : ResultRow n :=
  rowOf n (emitItems (List.ofFn q.items) key values)

section
variable [Host]

/-- The output rows of the groups, in the order of the map. -/
def GroupedQuery.groupRows (q : GroupedQuery m n) : DbResult (List (ResultRow n)) :=
  let update row accumulators := updateAll q.columns row q.aggregates accumulators
  if q.groupBy = [] then do
    let accumulators ← q.matching.foldlM (fun accumulators row => update row accumulators)
      (freshAccumulators q.aggregates)
    return [q.emit [] (accumulators.map AggregateAccumulator.finalize)]
  else do
    let groups ← q.matching.foldlM (fun groups row =>
      upsert sameKey (freshAccumulators q.aggregates) (update row) (q.groupBy.map row) groups) []
    return emitGroups q.emit groups

/-- `execute_aggregate_query`, which takes no notice of DISTINCT. -/
def GroupedQuery.execute (q : GroupedQuery m n) (_distinct : Bool) (offset : ℕ) (limit : Option ℕ) :
    DbResult (List (ResultRow n)) :=
  if limit = some 0 then .ok []
  else do
    let rows ← q.groupRows
    return queryWindow offset limit (sorted q.order rows)

end

/-- An aggregate over the combined rows of a join. -/
inductive JoinedAggregate (m : ℕ)
  | countStar
  | column (kind : AggregateKind) (position : Fin m)

def JoinedAggregate.value [Host] (rows : List (ResultRow m)) : JoinedAggregate m → DbResult Value
  | countStar => .ok (.u64 (Fin.ofNat (2 ^ 64) rows.length))
  | column kind position => AggregateAccumulator.finalize <$>
    rows.foldlM (fun accumulator row => accumulator.update (some (row position))) (.new kind)

/-- A grouped or aggregate query over the combined rows of a join. The output rows keep the columns
they are ordered by until they are sorted. -/
structure JoinedGroups (m n : ℕ) where
  combined : List (ResultRow m)
  groupBy : List (Fin m)
  aggregates : List (JoinedAggregate m)
  having : List Value → DbResult Bool
  /-- The positions of the projection in the key and the aggregates of a group. -/
  projected : Fin n → ℕ
  orderedBy : List ℕ
  order : Option (RowSort (List Value))

/-- `==` on group keys. -/
def sameValues : List Value → List Value → Bool
  | [], [] => true
  | l :: ls, r :: rs => l.same r && sameValues ls rs
  | _, _ => false

section
variable [Host]

def JoinedGroups.values (q : JoinedGroups m n) (rows : List (ResultRow m)) : DbResult (List Value) :=
  q.aggregates.mapM (JoinedAggregate.value rows)

omit [Host] in
def JoinedGroups.emit (q : JoinedGroups m n) (output : List Value) : List Value :=
  (List.ofFn q.projected ++ q.orderedBy).map fun position => output.getD position .null

def JoinedGroups.wideRows (q : JoinedGroups m n) : DbResult (List (List Value)) := do
  let groups ← q.combined.foldlM (fun groups row =>
    upsert sameValues [] (fun members => .ok (members ++ [row])) (q.groupBy.map row) groups) []
  let groups := if q.groupBy = [] ∧ groups = [] then [([], [])] else groups
  let rows ← groups.mapM fun group => do
    let output := group.1 ++ (← q.values group.2)
    return if ← q.having output then [q.emit output] else []
  return rows.flatten

/-- `joined_grouped_aggregates` and the end of `execute_join_query`; DISTINCT is not looked at. -/
def JoinedGroups.execute (q : JoinedGroups m n) (_distinct : Bool) (offset : ℕ) (limit : Option ℕ) :
    DbResult (List (ResultRow n)) := do
  let rows ← q.wideRows
  return queryWindow offset limit ((sorted q.order rows).map (rowOf n))

end

inductive SelectQuery (n : ℕ)
  | constants (row : DbResult (ResultRow n))
  | plain {m : ℕ} (q : PlainQuery m n)
  | join {m : ℕ} (q : JoinQuery m n)
  | grouped {m : ℕ} (q : GroupedQuery m n)
  | joinedGroups {m : ℕ} (q : JoinedGroups m n)

section
variable [Host]

/-- `execute_query`. -/
def SelectQuery.execute (distinct : Bool) (offset : ℕ) (limit : Option ℕ) :
    SelectQuery n → DbResult (List (ResultRow n))
  | .constants row => if offset ≠ 0 ∨ limit = some 0 then .ok [] else do return [← row]
  | .plain q => q.execute distinct offset limit
  | .join q => q.execute distinct offset limit
  | .grouped q => q.execute distinct offset limit
  | .joinedGroups q => q.execute distinct offset limit

/-- The query with DISTINCT returns the window of the distinct rows of the query without it, which
are pairwise different. -/
def SelectQuery.DropsDuplicates (q : SelectQuery n) : Prop :=
  ∀ rows, q.execute false 0 none = .ok rows → ∃ unique : List (ResultRow n),
    unique.Pairwise (fun a b => sameRow a b = false) ∧ unique = firsts sameRow rows ∧
      ∀ offset limit, q.execute true offset limit = .ok (queryWindow offset limit unique)

/-- The distinct keys of the matching rows, each as the first row with it has it. -/
def GroupedQuery.keys (q : GroupedQuery m n) : List (List Value) :=
  firsts sameKey (q.matching.map fun row => q.groupBy.map row)

/-- The value of an aggregate over the matching rows with a key. -/
def GroupedQuery.aggregateOf (q : GroupedQuery m n) (key : List Value) (spec : AggregateSpec) : DbResult Value :=
  aggregateOver q.columns (rowsOf q.groupBy q.matching key) spec

/-- Two keys that the projection does not tell apart: it shows too few of the grouping columns, and
every aggregate has the same value for both. -/
def GroupedQuery.Alike (q : GroupedQuery m n) (key key' : List Value) : Prop :=
  let shown := (List.ofFn q.items).countP OutputItem.isGroup
  sameValues (key.take shown) (key'.take shown) = true ∧
    ∀ spec ∈ q.aggregates, ∀ value value', q.aggregateOf key spec = .ok value →
      q.aggregateOf key' spec = .ok value' → value.same value' = true

def JoinedGroups.keys (q : JoinedGroups m n) : List (List Value) :=
  let keys := firsts sameValues (q.combined.map fun row => q.groupBy.map row)
  if q.groupBy = [] ∧ keys = [] then [[]] else keys

def JoinedGroups.membersOf (q : JoinedGroups m n) (key : List Value) : List (ResultRow m) :=
  q.combined.filter fun row => sameValues key (q.groupBy.map row)

/-- The key and the aggregates of the combined rows with a key. -/
def JoinedGroups.outputOf (q : JoinedGroups m n) (key : List Value) : DbResult (List Value) := do
  return key ++ (← q.values (q.membersOf key))

/-- Two keys that HAVING keeps and the projection does not tell apart. -/
def JoinedGroups.Alike (q : JoinedGroups m n) (key key' : List Value) : Prop :=
  ∃ output output', q.outputOf key = .ok output ∧ q.outputOf key' = .ok output' ∧
    q.having output = .ok true ∧ q.having output' = .ok true ∧
    ∀ i, (output.getD (q.projected i) .null).same (output'.getD (q.projected i) .null) = true

/-- The query is not grouped, or its aggregates and HAVING fail for some key, or it tells every two
distinct keys of its rows apart. -/
def SelectQuery.KeysTold : SelectQuery n → Prop
  | .grouped q => q.groupBy = [] ∨ (∃ key ∈ q.keys, ∃ spec ∈ q.aggregates, ∃ e, q.aggregateOf key spec = .error e) ∨
    ∀ key ∈ q.keys, ∀ key' ∈ q.keys, sameKey key key' = false → ¬ q.Alike key key'
  | .joinedGroups q => (∃ key ∈ q.keys, ∃ e, (q.outputOf key >>= q.having) = .error e) ∨
    ∀ key ∈ q.keys, ∀ key' ∈ q.keys, sameValues key key' = false → ¬ q.Alike key key'
  | _ => True

omit [Host] in
theorem sameValues_iff {l r : List Value} :
    sameValues l r = true ↔ List.Forall₂ (fun a b => a.same b = true) l r := by
  induction l generalizing r with
  | nil => cases r <;> simp [sameValues]
  | cons a l ih => cases r <;> simp [sameValues, ih]

omit [Host] in
theorem sameValues_equivalence : Equivalence fun l r => sameValues l r = true := by
  have hsame := Value.same_equivalence
  simp only [sameValues_iff]
  refine ⟨fun l => List.forall₂_same.mpr fun a _ => hsame.refl a, fun h => ?_, fun {a b c} h h' => ?_⟩
  · exact h.flip.imp fun a b hab => hsame.symm hab
  · refine (forall₂_factor fun x _ z => ?_).mp ⟨b, h, h'⟩
    exact ⟨fun ⟨y, hxy, hyz⟩ => hsame.trans hxy hyz, fun hxz => ⟨x, hsame.refl x, hxz⟩⟩

omit [Host] in
theorem sameRow_rowOf {l r : List Value} (hlength : l.length = r.length) (hn : l.length ≤ n) :
    sameRow (rowOf n l) (rowOf n r) = true ↔ sameValues l r = true := by
  rw [sameValues_iff, List.forall₂_iff_get, sameRow, decide_eq_true_eq]
  constructor
  · refine fun h => ⟨hlength, fun i hl hr => ?_⟩
    have hi := h ⟨i, by omega⟩
    simpa [rowOf, hl, hr] using hi
  · rintro ⟨-, h⟩ i
    simp only [rowOf]
    by_cases hi : i.val < l.length
    · simpa [hi, hlength ▸ hi] using h i.val hi (hlength ▸ hi)
    · rw [List.getD_eq_default _ _ (by omega), List.getD_eq_default _ _ (by omega)]
      exact Value.same_equivalence.refl _

omit [Host] in
theorem length_emitItems_le (items : List OutputItem) (key values : List Value) :
    (emitItems items key values).length ≤ items.length := by
  fun_induction emitItems items key values with
  | case1 => simp
  | case2 | case3 | case5 => simpa
  | case4 | case6 => simp only [List.length_cons]; omega

omit [Host] in
theorem length_emitItems (items : List OutputItem) {key key' values values' : List Value}
    (hkey : key.length = key'.length) (hvalues : values.length = values'.length) :
    (emitItems items key values).length = (emitItems items key' values').length := by
  fun_induction emitItems items key values generalizing key' values' with
  | case1 => simp [emitItems]
  | case2 value items key values ih => simp [emitItems, ih hkey hvalues]
  | case3 value items key values ih =>
    obtain ⟨k, key', rfl⟩ := List.exists_cons_of_length_eq_add_one hkey.symm
    simp [emitItems, ih (by simpa using hkey) hvalues]
  | case4 items values ih =>
    obtain rfl := List.length_eq_zero_iff.mp hkey.symm
    simp [emitItems, ih rfl hvalues]
  | case5 spec items key value values ih =>
    obtain ⟨v, values', rfl⟩ := List.exists_cons_of_length_eq_add_one hvalues.symm
    simp [emitItems, ih hkey (by simpa using hvalues)]
  | case6 spec items key ih =>
    obtain rfl := List.length_eq_zero_iff.mp hvalues.symm
    simp [emitItems, ih hkey rfl]

omit [Host] in
/-- Equal output rows: the grouping columns that are shown and the aggregates agree. -/
theorem sameValues_emitItems (items : List OutputItem) {key key' values values' : List Value}
    (hkey : key.length = key'.length) (hvalues : values.length = values'.length) :
    sameValues (emitItems items key values) (emitItems items key' values') = true ↔
      sameValues (key.take (items.countP OutputItem.isGroup)) (key'.take (items.countP OutputItem.isGroup)) = true ∧
        sameValues (values.take (items.filterMap OutputItem.aggregate?).length)
          (values'.take (items.filterMap OutputItem.aggregate?).length) = true := by
  have hrefl := Value.same_equivalence.refl
  fun_induction emitItems items key values generalizing key' values' with
  | case1 => simp [emitItems, sameValues]
  | case2 value items key values ih =>
    simp [emitItems, sameValues, hrefl, ih hkey hvalues, List.filterMap_cons, OutputItem.isGroup,
      OutputItem.aggregate?]
  | case3 items value key values ih =>
    obtain ⟨k, key', rfl⟩ := List.exists_cons_of_length_eq_add_one hkey.symm
    simp [emitItems, sameValues, ih (by simpa using hkey) hvalues, List.countP_cons, List.filterMap_cons,
      OutputItem.isGroup, OutputItem.aggregate?, and_assoc]
  | case4 items values ih =>
    obtain rfl := List.length_eq_zero_iff.mp hkey.symm
    simpa [emitItems, List.filterMap_cons, OutputItem.aggregate?] using ih rfl hvalues
  | case5 spec items key value values ih =>
    obtain ⟨v, values', rfl⟩ := List.exists_cons_of_length_eq_add_one hvalues.symm
    simp [emitItems, sameValues, ih hkey (by simpa using hvalues), OutputItem.isGroup, OutputItem.aggregate?,
      and_left_comm]
  | case6 spec items key ih =>
    obtain rfl := List.length_eq_zero_iff.mp hvalues.symm
    simpa [emitItems, List.countP_cons, OutputItem.isGroup] using ih hkey rfl

omit [Host] in
theorem sameValues_mapM {α : Type} {l : List α} {f g : α → DbResult Value} {values values' : List Value}
    (h : l.mapM f = .ok values) (h' : l.mapM g = .ok values') :
    sameValues values values' = true ↔
      ∀ a ∈ l, ∀ v v', f a = .ok v → g a = .ok v' → v.same v' = true := by
  rw [mapM_eq_ok] at h h'
  induction h generalizing values' with
  | nil =>
    cases h'
    simp [sameValues]
  | cons hf _ ih =>
    obtain ⟨v', rest, hg, hrest, rfl⟩ := List.forall₂_cons_left_iff.mp h'
    simp [sameValues, ih hrest, hf, hg]

theorem GroupedQuery.sameRow_iff {q : GroupedQuery m n} {key key' : List Value} {row row' : ResultRow n}
    (hlength : key.length = key'.length)
    (h : IsGroupRow q.columns q.emit q.aggregates q.groupBy q.matching key row)
    (h' : IsGroupRow q.columns q.emit q.aggregates q.groupBy q.matching key' row') :
    sameRow row row' = true ↔ q.Alike key key' := by
  obtain ⟨values, hvalues, rfl⟩ := h
  obtain ⟨values', hvalues', rfl⟩ := h'
  have hlen := (mapM_eq_ok.mp hvalues).length_eq
  have hlen' := (mapM_eq_ok.mp hvalues').length_eq
  have hitems := length_emitItems_le (List.ofFn q.items) key values
  rw [List.length_ofFn] at hitems
  rw [GroupedQuery.emit, GroupedQuery.emit, sameRow_rowOf (length_emitItems _ hlength (hlen.symm.trans hlen')) hitems,
    sameValues_emitItems _ hlength (hlen.symm.trans hlen'), ← GroupedQuery.aggregates, List.take_of_length_le hlen.ge,
    List.take_of_length_le hlen'.ge, sameValues_mapM hvalues hvalues']
  rfl

omit [Host] in
theorem sameRow_false_symm {a b : ResultRow n} (h : sameRow a b = false) : sameRow b a = false := by
  rw [← Bool.not_eq_true] at h ⊢
  exact fun h' => h (sameRow_equivalence.symm h')

variable {rows : List (ResultRow n)}

omit [Host] in
theorem PlainQuery.execute_distinct {q : PlainQuery m n}
    (h : q.execute false 0 none = .ok rows) (offset : ℕ) (limit : Option ℕ) :
    q.execute true offset limit = .ok (queryWindow offset limit (firsts sameRow rows)) := by
  rw [PlainQuery.execute, if_neg (by simp)] at h
  rw [PlainQuery.execute, ← applyDistinct_eq]
  split
  · rename_i hlimit
    rw [hlimit]
    simp [queryWindow]
  · simp only [Option.map_none, ite_self, bind_eq_ok, Bool.not_true, Bool.and_false, Bool.false_and,
      Bool.false_eq_true, if_false] at h ⊢
    obtain ⟨matching, hmatching, windowValues, hwindow, projected, hprojected, hout⟩ := h
    cases hout
    exact ⟨matching, hmatching, windowValues, hwindow, projected, hprojected, rfl⟩

omit [Host] in
theorem JoinQuery.execute_distinct {q : JoinQuery m n}
    (h : q.execute false 0 none = .ok rows) (offset : ℕ) (limit : Option ℕ) :
    q.execute true offset limit = .ok (queryWindow offset limit (firsts sameRow rows)) := by
  rw [JoinQuery.execute, bind_eq_ok] at h ⊢
  obtain ⟨projected, hprojected, hout⟩ := h
  cases hout
  exact ⟨projected, hprojected, by rw [← applyDistinct_eq]; rfl⟩

theorem SelectQuery.dropsDuplicates_iff {q : SelectQuery n}
    (h : ∀ distinct offset limit, q.execute distinct offset limit = .ok (queryWindow offset limit rows)) :
    q.DropsDuplicates ↔ rows.Pairwise fun a b => sameRow a b = false := by
  have hrows : ∀ distinct, q.execute distinct 0 none = .ok rows := fun distinct => h distinct 0 none
  constructor
  · intro hdrops
    obtain ⟨unique, hpairwise, -, hexecute⟩ := hdrops rows (hrows false)
    have heq : rows = unique := Except.ok.inj ((hrows true).symm.trans (hexecute 0 none))
    rwa [heq]
  · intro hpairwise rows' hrows'
    obtain rfl : rows = rows' := Except.ok.inj ((hrows false).symm.trans hrows')
    exact ⟨rows, hpairwise, (firsts_of_pairwise hpairwise).symm, h true⟩

/-- The rows of a grouped query, one for each key of its matching rows. -/
theorem GroupedQuery.groupRows_eq_ok {q : GroupedQuery m n} (hgroup : q.groupBy ≠ []) :
    q.groupRows = .ok rows ↔ ∃ keys : List (List Value), keys.Perm q.keys ∧
      keys.Pairwise (fun l r => keyOrder l r = .lt) ∧
      List.Forall₂ (IsGroupRow q.columns q.emit q.aggregates q.groupBy q.matching) keys rows := by
  rw [GroupedQuery.keys, ← emitGroups_iff, GroupedQuery.groupRows, if_neg hgroup, bind_eq_ok]
  refine exists_congr fun groups => and_congr (groupFold_eq_ok sameKey_equivalence) ?_
  exact ⟨fun h => (Except.ok.inj h).symm, fun h => h ▸ rfl⟩

omit [Host] in
theorem GroupedQuery.length_of_mem_keys {q : GroupedQuery m n} {key : List Value} (h : key ∈ q.keys) :
    key.length = q.groupBy.length := by
  obtain ⟨row, -, rfl⟩ := List.mem_map.mp (mem_of_mem_firsts h)
  simp

theorem GroupedQuery.pairwise_groupRows {q : GroupedQuery m n} (hgroup : q.groupBy ≠ [])
    (h : q.groupRows = .ok rows) : rows.Pairwise (fun a b => sameRow a b = false) ↔
      ∀ key ∈ q.keys, ∀ key' ∈ q.keys, sameKey key key' = false → ¬ q.Alike key key' := by
  obtain ⟨keys, hperm, -, hrows⟩ := (q.groupRows_eq_ok hgroup).mp h
  have hunique : ∀ key row row', IsGroupRow q.columns q.emit q.aggregates q.groupBy q.matching key row →
      IsGroupRow q.columns q.emit q.aggregates q.groupBy q.matching key row' → row = row' := by
    rintro key _ _ ⟨values, hvalues, rfl⟩ ⟨values', hvalues', rfl⟩
    rw [Except.ok.inj (hvalues.symm.trans hvalues')]
  have hmem := fun key (hkey : key ∈ keys) => GroupedQuery.length_of_mem_keys (hperm.subset hkey)
  have halike : ∀ {key key'}, q.Alike key key' → q.Alike key' key := fun ⟨hkeys, hvalues⟩ =>
    ⟨sameValues_equivalence.symm hkeys, fun spec hspec v v' hv hv' =>
      Value.same_equivalence.symm (hvalues spec hspec v' v hv' hv)⟩
  rw [forall₂_pairwise_iff hunique hrows, GroupedQuery.keys,
    ← pairwise_iff_distinct sameKey_equivalence.refl (fun h h' => h (halike h')) (firsts_pairwise _),
    ← GroupedQuery.keys, ← hperm.pairwise_iff fun h h' => h (halike h')]
  refine ⟨fun h => h.imp_of_mem fun ha hb hab => ?_, fun h => h.imp_of_mem fun ha hb hab row row' hrow hrow' => ?_⟩
  · obtain ⟨row, -, hrow⟩ := exists_of_mem_forall₂ hrows ha
    obtain ⟨row', -, hrow'⟩ := exists_of_mem_forall₂ hrows hb
    rw [← q.sameRow_iff ((hmem _ ha).trans (hmem _ hb).symm) hrow hrow', hab row row' hrow hrow']
    simp
  · rw [← Bool.not_eq_true, q.sameRow_iff ((hmem _ ha).trans (hmem _ hb).symm) hrow hrow']
    exact hab

theorem GroupedQuery.groupRows_ok {q : GroupedQuery m n} (hgroup : q.groupBy ≠ []) :
    (∃ rows, q.groupRows = .ok rows) ↔
      ¬ ∃ key ∈ q.keys, ∃ spec ∈ q.aggregates, ∃ e, q.aggregateOf key spec = .error e := by
  constructor
  · rintro ⟨rows, hrows⟩ ⟨key, hkey, spec, hspec, e, he⟩
    obtain ⟨keys, hperm, -, hkeys⟩ := (q.groupRows_eq_ok hgroup).mp hrows
    obtain ⟨row, -, values, hvalues, -⟩ := exists_of_mem_forall₂ hkeys (hperm.symm.subset hkey)
    obtain ⟨value, -, hvalue⟩ := exists_of_mem_forall₂ (mapM_eq_ok.mp hvalues) hspec
    rw [GroupedQuery.aggregateOf, hvalue] at he
    cases he
  · intro hnone
    have hgroups : ∀ key ∈ q.keys, ∃ group, IsGroup sameKey (fun row => q.groupBy.map row)
        (freshAccumulators q.aggregates) (fun accumulators row => updateAll q.columns row q.aggregates accumulators)
        q.matching key group := by
      intro key hkey
      obtain ⟨values, hvalues⟩ | ⟨spec, hspec, e, he⟩ := mapM_ok_or_error (q.aggregateOf key) q.aggregates
      · obtain ⟨group, hgroup, -⟩ := isGroupRow_iff.mp
          (⟨values, hvalues, rfl⟩ : IsGroupRow q.columns q.emit q.aggregates q.groupBy q.matching key _)
        exact ⟨group, hgroup⟩
      · exact absurd ⟨key, hkey, spec, hspec, e, he⟩ hnone
    obtain ⟨groups, hgroups⟩ := exists_forall₂ hgroups
    rw [GroupedQuery.groupRows, if_neg hgroup]
    exact ⟨_, bind_eq_ok.mpr ⟨groups, (groupFold_eq_ok sameKey_equivalence).mpr hgroups, rfl⟩⟩

theorem GroupedQuery.groupRows_ungrouped {q : GroupedQuery m n} (hgroup : q.groupBy = [])
    (h : q.groupRows = .ok rows) : rows.length = 1 := by
  rw [GroupedQuery.groupRows, if_pos hgroup] at h
  obtain ⟨accumulators, -, hout⟩ := bind_eq_ok.mp h
  cases hout
  rfl

omit [Host] in
theorem foldlM_members (members rows : List (ResultRow m)) :
    rows.foldlM (fun members row => (.ok (members ++ [row]) : DbResult _)) members = .ok (members ++ rows) := by
  induction rows generalizing members with
  | nil => simp [pure, Except.pure]
  | cons row rows ih => rw [List.foldlM_cons, ok_bind, ih, List.append_assoc, List.singleton_append]

/-- The rows of one group: none when HAVING refuses it. -/
def JoinedGroups.rowsOfKey (q : JoinedGroups m n) (key : List Value) : DbResult (List (List Value)) := do
  let output ← q.outputOf key
  return if ← q.having output then [q.emit output] else []

omit [Host] in
theorem JoinedGroups.groups_eq (q : JoinedGroups m n) :
    q.combined.foldlM (fun groups row => upsert sameValues [] (fun members => .ok (members ++ [row]))
      (q.groupBy.map row) groups) [] =
        (.ok ((firsts sameValues (q.combined.map fun row => q.groupBy.map row)).map fun key =>
          (key, q.membersOf key)) : DbResult _) := by
  refine (groupFold_eq_ok sameValues_equivalence).mpr ?_
  rw [List.forall₂_map_right_iff, List.forall₂_same]
  exact fun key _ => ⟨rfl, foldlM_members [] _⟩

theorem JoinedGroups.wideRows_eq (q : JoinedGroups m n) :
    q.wideRows = do return (← q.keys.mapM q.rowsOfKey).flatten := by
  have hgroups : (if q.groupBy = [] ∧ (firsts sameValues (q.combined.map fun row => q.groupBy.map row)).map
      (fun key => (key, q.membersOf key)) = [] then [([], [])] else
      (firsts sameValues (q.combined.map fun row => q.groupBy.map row)).map fun key => (key, q.membersOf key)) =
      q.keys.map fun key => (key, q.membersOf key) := by
    cases hcombined : q.combined with
    | nil =>
      simp only [JoinedGroups.keys, JoinedGroups.membersOf, hcombined, List.map_nil, firsts, and_true,
        List.filter_nil]
      split <;> rfl
    | cons row rows => simp [JoinedGroups.keys, hcombined, firsts]
  rw [JoinedGroups.wideRows, JoinedGroups.groups_eq, ok_bind]
  dsimp only
  rw [hgroups, List.mapM_map]
  congr 1
  refine congrArg (fun f => q.keys.mapM f) (funext fun key => ?_)
  simp [JoinedGroups.rowsOfKey, JoinedGroups.outputOf]

omit [Host] in
theorem JoinedGroups.keys_pairwise (q : JoinedGroups m n) :
    q.keys.Pairwise fun l r => sameValues l r = false := by
  rw [JoinedGroups.keys]
  split
  · exact List.pairwise_singleton _ _
  · exact firsts_pairwise _

theorem JoinedGroups.rowsOfKey_eq_ok {q : JoinedGroups m n} {key : List Value} {rows : List (List Value)} :
    q.rowsOfKey key = .ok rows ↔ ∃ output kept, q.outputOf key = .ok output ∧ q.having output = .ok kept ∧
      rows = if kept then [q.emit output] else [] := by
  simp only [JoinedGroups.rowsOfKey, bind_eq_ok, exists_and_left]
  refine exists_congr fun output => and_congr_right fun _ => exists_congr fun kept => and_congr_right fun _ => ?_
  exact ⟨fun h => (Except.ok.inj h).symm, fun h => h ▸ rfl⟩

omit [Host] in
theorem JoinedGroups.rowOf_emit (q : JoinedGroups m n) (output : List Value) :
    rowOf n (q.emit output) = fun i => output.getD (q.projected i) .null := by
  funext i
  rw [rowOf, JoinedGroups.emit, List.map_append, List.getD_append _ _ _ _ (by simp)]
  simp

theorem JoinedGroups.pairwise_wideRows {q : JoinedGroups m n} {rows : List (List Value)}
    (h : q.wideRows = .ok rows) :
    (rows.map (rowOf n)).Pairwise (fun a b => sameRow a b = false) ↔
      ∀ key ∈ q.keys, ∀ key' ∈ q.keys, sameValues key key' = false → ¬ q.Alike key key' := by
  rw [wideRows_eq] at h
  obtain ⟨lists, hlists, hout⟩ := bind_eq_ok.mp h
  cases hout
  rw [mapM_eq_ok] at hlists
  have hunique : ∀ key out out', q.rowsOfKey key = .ok out → q.rowsOfKey key = .ok out' → out = out' :=
    fun _ _ _ h h' => Except.ok.inj (h.symm.trans h')
  have hsymm : ∀ {key key'}, ¬ q.Alike key key' → ¬ q.Alike key' key :=
    fun h ⟨o, o', ho, ho', hk, hk', hsame⟩ =>
      h ⟨o', o, ho', ho, hk', hk, fun i => Value.same_equivalence.symm (hsame i)⟩
  -- a group gives at most one row, so only rows of different groups can be equal
  have hsingle : ∀ out ∈ lists, (out.map (rowOf n)).Pairwise fun a b => sameRow a b = false := by
    intro out hout
    obtain ⟨key, -, hkey⟩ := exists_of_mem_forall₂ hlists.flip hout
    obtain ⟨output, kept, -, -, rfl⟩ := q.rowsOfKey_eq_ok.mp hkey
    cases kept <;> simp
  rw [← pairwise_iff_distinct sameValues_equivalence.refl hsymm q.keys_pairwise, List.map_flatten,
    List.pairwise_flatten, List.forall_mem_map, and_iff_right hsingle, List.pairwise_map,
    forall₂_pairwise_iff hunique hlists]
  refine List.Pairwise.iff fun key key' => ⟨?_, ?_⟩
  · rintro hall ⟨output, output', houtput, houtput', hkept, hkept', hsame⟩
    have hdiffer := hall _ _ (q.rowsOfKey_eq_ok.mpr ⟨output, true, houtput, hkept, rfl⟩)
      (q.rowsOfKey_eq_ok.mpr ⟨output', true, houtput', hkept', rfl⟩) (rowOf n (q.emit output)) (by simp)
      (rowOf n (q.emit output')) (by simp)
    rw [q.rowOf_emit, q.rowOf_emit, sameRow, decide_eq_false_iff_not] at hdiffer
    exact hdiffer hsame
  · intro hdiffer _ _ hrows hrows' x hx y hy
    obtain ⟨output, kept, houtput, hkept, rfl⟩ := q.rowsOfKey_eq_ok.mp hrows
    obtain ⟨output', kept', houtput', hkept', rfl⟩ := q.rowsOfKey_eq_ok.mp hrows'
    cases kept with
    | false => simp at hx
    | true =>
      cases kept' with
      | false => simp at hy
      | true =>
        obtain rfl : x = rowOf n (q.emit output) := by simpa using hx
        obtain rfl : y = rowOf n (q.emit output') := by simpa using hy
        rw [q.rowOf_emit, q.rowOf_emit, sameRow, decide_eq_false_iff_not]
        exact fun hsame => hdiffer ⟨output, output', houtput, houtput', hkept, hkept', hsame⟩

theorem JoinedGroups.wideRows_ok (q : JoinedGroups m n) :
    (∃ rows, q.wideRows = .ok rows) ↔ ¬ ∃ key ∈ q.keys, ∃ e, (q.outputOf key >>= q.having) = .error e := by
  have hfails : ∀ key, (∃ e, (q.outputOf key >>= q.having) = .error e) ↔ ∃ e, q.rowsOfKey key = .error e := by
    intro key
    rw [JoinedGroups.rowsOfKey]
    cases q.outputOf key with
    | error e => exact iff_of_true ⟨e, rfl⟩ ⟨e, rfl⟩
    | ok output =>
      rw [ok_bind, ok_bind]
      cases q.having output with
      | error e => exact iff_of_true ⟨e, rfl⟩ ⟨e, rfl⟩
      | ok kept => exact iff_of_false (by simp) (by simp [pure, Except.pure])
  simp only [hfails]
  constructor
  · rintro ⟨rows, hrows⟩ ⟨key, hkey, e, he⟩
    rw [wideRows_eq] at hrows
    obtain ⟨lists, hlists, -⟩ := bind_eq_ok.mp hrows
    obtain ⟨out, -, hout⟩ := exists_of_mem_forall₂ (mapM_eq_ok.mp hlists) hkey
    rw [hout] at he
    cases he
  · intro hnone
    obtain ⟨lists, hlists⟩ | ⟨key, hkey, e, he⟩ := mapM_ok_or_error q.rowsOfKey q.keys
    · exact ⟨lists.flatten, by rw [wideRows_eq, hlists]; rfl⟩
    · exact absurd ⟨key, hkey, e, he⟩ hnone

theorem GroupedQuery.dropsDuplicates_iff (q : GroupedQuery m n) :
    (SelectQuery.grouped q).DropsDuplicates ↔
      ∀ rows, q.groupRows = .ok rows → rows.Pairwise fun a b => sameRow a b = false := by
  cases hgroups : q.groupRows with
  | error e =>
    refine iff_of_true (fun rows hrows => ?_) (by simp)
    simp [SelectQuery.execute, GroupedQuery.execute, hgroups, bind, Except.bind] at hrows
  | ok groups =>
    have hexecute : ∀ distinct offset limit, (SelectQuery.grouped q).execute distinct offset limit =
        .ok (queryWindow offset limit (sorted q.order groups)) := by
      intro distinct offset limit
      rw [SelectQuery.execute, GroupedQuery.execute, hgroups]
      split
      · rename_i hlimit
        simp [hlimit, queryWindow]
      · rfl
    rw [SelectQuery.dropsDuplicates_iff hexecute, (sorted_perm q.order groups).pairwise_iff sameRow_false_symm]
    simp

theorem JoinedGroups.dropsDuplicates_iff (q : JoinedGroups m n) :
    (SelectQuery.joinedGroups q).DropsDuplicates ↔
      ∀ rows, q.wideRows = .ok rows → (rows.map (rowOf n)).Pairwise fun a b => sameRow a b = false := by
  cases hgroups : q.wideRows with
  | error e =>
    refine iff_of_true (fun rows hrows => ?_) (by simp)
    simp [SelectQuery.execute, JoinedGroups.execute, hgroups, bind, Except.bind] at hrows
  | ok groups =>
    have hexecute : ∀ distinct offset limit, (SelectQuery.joinedGroups q).execute distinct offset limit =
        .ok (queryWindow offset limit ((sorted q.order groups).map (rowOf n))) := by
      intro distinct offset limit
      rw [SelectQuery.execute, JoinedGroups.execute, hgroups]
      rfl
    rw [SelectQuery.dropsDuplicates_iff hexecute,
      ((sorted_perm q.order groups).map (rowOf n)).pairwise_iff sameRow_false_symm]
    simp

end

/-- `SELECT DISTINCT count(*) FROM t GROUP BY a` on a table with the rows 1 and 2. -/
def distinctCounts : SelectQuery 1 :=
  .grouped (m := 1)
    { columns := fun _ => ⟨1, "a", .i64, false⟩
      matching := [fun _ => .i64 ⟨1, I64.one_fits⟩, fun _ => .i64 ⟨2, I64.two_fits⟩]
      groupBy := [0]
      items := fun _ => .aggregate ⟨.count, none, "count"⟩
      order := none }

end OmenDb.Sql
