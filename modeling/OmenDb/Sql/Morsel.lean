import OmenDb.Sql.Aggregate

/-! Analytical queries over morsels. The scanner reads a table in chunks: each chunk is the end of
a longer prefix of the table, and a short or empty chunk ends the scan. The executor folds the rows
of the chunks into the accumulators of their groups. -/
namespace OmenDb.Sql

variable {R : Type}

structure MorselBatch (R : Type) where
  rows : List R
  morselIndex : ℕ
  isLast : Bool

structure MorselScanner where
  morselSize : ℕ
  currentOffset : ℕ
  morselIndex : ℕ
  exhausted : Bool

def defaultMorselSize : ℕ := 64

namespace MorselScanner

def new (morselSize : ℕ) : MorselScanner where
  morselSize := if morselSize = 0 then defaultMorselSize else morselSize
  currentOffset := 0
  morselIndex := 0
  exhausted := false

/-- `next_morsel_inner` on the rows the table has in scan order. -/
def nextMorsel (table : List R) (s : MorselScanner) : Option (MorselBatch R) × MorselScanner :=
  if s.exhausted then (none, s)
  else
    let scanned := table.take (s.currentOffset + s.morselSize)
    let chunk := scanned.drop s.currentOffset
    if chunk.isEmpty then (none, { s with exhausted := true })
    else
      let isLast := decide (chunk.length < s.morselSize)
      (some ⟨chunk, s.morselIndex, isLast⟩,
        { s with
          currentOffset := s.currentOffset + chunk.length
          morselIndex := s.morselIndex + 1
          exhausted := isLast })

variable {table : List R} {s s' : MorselScanner}

theorem nextMorsel_some {batch : MorselBatch R} (h : s.nextMorsel table = (some batch, s')) :
    s.exhausted = false ∧ batch.rows = (table.drop s.currentOffset).take s.morselSize ∧ batch.rows ≠ [] ∧
      s'.currentOffset = s.currentOffset + batch.rows.length ∧ s'.morselSize = s.morselSize ∧
      s'.exhausted = decide (batch.rows.length < s.morselSize) := by
  unfold nextMorsel at h
  dsimp only at h
  split at h
  · cases h
  · split at h
    · cases h
    · rename_i hopen hchunk
      obtain ⟨hbatch, rfl⟩ := Prod.mk.inj h
      obtain rfl := Option.some.inj hbatch
      refine ⟨by simpa using hopen, ?_, by simpa using hchunk, rfl, rfl, rfl⟩
      rw [List.drop_take, Nat.add_sub_cancel_left]

theorem nextMorsel_none (h : s.nextMorsel table = (none, s')) :
    s.exhausted = true ∨ (table.drop s.currentOffset).take s.morselSize = [] := by
  unfold nextMorsel at h
  dsimp only at h
  split at h
  · exact .inl ‹_›
  · split at h
    · rename_i hchunk
      rw [List.isEmpty_iff, List.drop_take, Nat.add_sub_cancel_left] at hchunk
      exact .inr hchunk
    · cases h

/-- The batches of the loop `while let Some(morsel) = next_morsel()`. What is done with a batch has
no effect on the scanner. -/
def drain (table : List R) (s : MorselScanner) : List (MorselBatch R) :=
  match _h : s.nextMorsel table with
  | (none, _) => []
  | (some batch, s') => batch :: drain table s'
termination_by table.length - s.currentOffset
decreasing_by
  obtain ⟨-, hrows, hne, hoffset, -⟩ := nextMorsel_some _h
  have hlength := congrArg List.length hrows
  rw [List.length_take, List.length_drop] at hlength
  have hpos := List.length_pos_iff.mpr hne
  omega

theorem drain_exhausted (table : List R) (h : s.exhausted = true) : s.drain table = [] := by
  rw [drain]
  split
  · rfl
  · rename_i hnext
    obtain ⟨hopen, -⟩ := nextMorsel_some hnext
    rw [h] at hopen
    cases hopen

theorem drain_rows (table : List R) (s : MorselScanner) (hsize : 0 < s.morselSize)
    (hopen : s.exhausted = false) : (s.drain table).flatMap MorselBatch.rows = table.drop s.currentOffset := by
  fun_induction drain table s with
  | case1 s _ h =>
    obtain h | h := nextMorsel_none h
    · simp [hopen] at h
    · have hsize' : s.morselSize ≠ 0 := hsize.ne'
      simpa [List.take_eq_nil_iff, hsize'] using h.symm
  | case2 s batch s' h ih =>
    obtain ⟨-, hrows, -, hoffset, hsize', hlast⟩ := nextMorsel_some h
    have hsplit : table.drop s.currentOffset = batch.rows ++ table.drop s'.currentOffset := by
      rw [hoffset, ← List.drop_drop]
      conv_lhs => rw [← List.take_append_drop batch.rows.length (table.drop s.currentOffset)]
      congr 1
      rw [hrows, List.take_eq_take_iff, List.length_take]
      omega
    rw [List.flatMap_cons, hsplit]
    congr 1
    by_cases hshort : batch.rows.length < s.morselSize
    · -- a short batch is the rest of the table
      have hlength := congrArg List.length hrows
      rw [List.length_take, List.length_drop] at hlength
      rw [drain_exhausted table (by rw [hlast]; simpa using hshort), List.drop_eq_nil_of_le (by omega)]
      rfl
    · exact ih (hsize'.symm ▸ hsize) (by rw [hlast]; simpa using hshort)

end MorselScanner

structure AnalyticalQuery where
  morselSize : ℕ
  groupBy : List ℕ
  aggregates : List AggregateSpec
  maxMemoryBytes : ℕ

structure AnalyticalResult where
  columnNames : List String
  rows : List (List Value)
  morselsProcessed : ℕ
  totalRowsScanned : ℕ

variable {n : ℕ}

/-- The position of a column by its identifier, for `TableDefinition::column` and `Row::value`. -/
def columnAt (columns : Fin n → ColumnDefinition) (id : ℕ) : DbResult (Fin n) :=
  match (List.finRange n).find? fun i => (columns i).id == id with
  | some i => .ok i
  | none => .error (.invalidState s!"column {id} does not exist")

def freshAccumulators (aggregates : List AggregateSpec) : List AggregateAccumulator :=
  aggregates.map fun spec => .new spec.kind

section
variable [Host] (columns : Fin n → ColumnDefinition)

/-- What an aggregate reads of a row: nothing for `count(*)`. -/
def argument (row : ResultRow n) (spec : AggregateSpec) : DbResult (Option Value) :=
  match spec.column with
  | some id => (fun i => some (row i)) <$> columnAt columns id
  | none => .ok none

def accumulate (spec : AggregateSpec) (accumulator : AggregateAccumulator) (row : ResultRow n) :
    DbResult AggregateAccumulator := do
  accumulator.update (← argument columns row spec)

/-- One row into the accumulators, each with the value its aggregate reads. -/
def updateAll (row : ResultRow n) :
    List AggregateSpec → List AggregateAccumulator → DbResult (List AggregateAccumulator)
  | spec :: specs, accumulator :: accumulators => do
    let accumulator ← accumulate columns spec accumulator row
    return accumulator :: (← updateAll row specs accumulators)
  | _, accumulators => .ok accumulators

/-- The value of one aggregate over some rows, in their order. -/
def aggregateOver (rows : List (ResultRow n)) (spec : AggregateSpec) : DbResult Value :=
  AggregateAccumulator.finalize <$> rows.foldlM (accumulate columns spec) (.new spec.kind)

theorem foldlM_updateAll_cons {rows : List (ResultRow n)} {spec : AggregateSpec} {specs : List AggregateSpec}
    {accumulator : AggregateAccumulator} {accumulators out : List AggregateAccumulator} :
    rows.foldlM (fun all row => updateAll columns row (spec :: specs) all) (accumulator :: accumulators) =
        .ok out ↔
      ∃ first rest, rows.foldlM (accumulate columns spec) accumulator = .ok first ∧
        rows.foldlM (fun all row => updateAll columns row specs all) accumulators = .ok rest ∧
        out = first :: rest := by
  induction rows generalizing accumulator accumulators with
  | nil => simp [pure, Except.pure, eq_comm]
  | cons row rows ih =>
    simp only [List.foldlM_cons, updateAll, bind_eq_ok]
    constructor
    · rintro ⟨_, ⟨first, hfirst, rest, hrest, hpure⟩, htail⟩
      cases hpure
      obtain ⟨last, lasts, hlast, hlasts, rfl⟩ := ih.mp htail
      exact ⟨last, lasts, ⟨first, hfirst, hlast⟩, ⟨rest, hrest, hlasts⟩, rfl⟩
    · rintro ⟨last, lasts, ⟨first, hfirst, hlast⟩, ⟨rest, hrest, hlasts⟩, rfl⟩
      exact ⟨first :: rest, ⟨first, hfirst, rest, hrest, rfl⟩, ih.mpr ⟨last, lasts, hlast, hlasts, rfl⟩⟩

/-- Folding the accumulators side by side computes every aggregate on its own. -/
theorem mapM_aggregateOver {rows : List (ResultRow n)} {specs : List AggregateSpec} {values : List Value} :
    specs.mapM (aggregateOver columns rows) = .ok values ↔
      ∃ accumulators, rows.foldlM (fun all row => updateAll columns row specs all) (freshAccumulators specs) =
        .ok accumulators ∧ values = accumulators.map AggregateAccumulator.finalize := by
  induction specs generalizing values with
  | nil =>
    have hfold : rows.foldlM (fun all row => updateAll columns row [] all) (freshAccumulators []) =
        (.ok [] : DbResult _) := by
      induction rows with
      | nil => rfl
      | cons row rows ih => exact ih
    simp [hfold, pure, Except.pure, eq_comm]
  | cons spec specs ih =>
    rw [List.mapM_cons, freshAccumulators, List.map_cons, ← freshAccumulators]
    simp only [foldlM_updateAll_cons, bind_eq_ok, aggregateOver, map_eq_ok]
    constructor
    · rintro ⟨_, ⟨first, hfirst, rfl⟩, others, hothers, hpure⟩
      cases hpure
      obtain ⟨rest, hrest, rfl⟩ := ih.mp hothers
      exact ⟨_, ⟨first, rest, hfirst, hrest, rfl⟩, rfl⟩
    · rintro ⟨_, ⟨first, rest, hfirst, hrest, rfl⟩, rfl⟩
      exact ⟨_, ⟨first, hfirst, rfl⟩, _, ih.mpr ⟨rest, hrest, rfl⟩, rfl⟩

end

/-- A loop over the rows of all batches, with its two counters. -/
def overMorsels {S : Type} (step : S → R → DbResult S) (start : S) (batches : List (MorselBatch R)) :
    DbResult (S × ℕ × ℕ) :=
  batches.foldlM (fun (state, processed, scanned) batch => do
    let state ← batch.rows.foldlM step state
    return (state, processed + 1, scanned + batch.rows.length)) (start, 0, 0)

abbrev Groups := List (List Value × List AggregateAccumulator)

def sameKey (l r : List Value) : Bool := keyOrder l r == .eq

/-- The output rows of the groups, in the order of the map. -/
def emitGroups [Host] {S : Type} (emit : List Value → List Value → S) (groups : Groups) : List S :=
  (groups.insertionSort fun a b => (keyOrder a.1 b.1).isLE).map fun group =>
    emit group.1 (group.2.map AggregateAccumulator.finalize)

section
variable [Host] {S : Type} (columns : Fin n → ColumnDefinition) (emit : List Value → List Value → S)
  (aggregates : List AggregateSpec) (positions : List (Fin n)) (table : List (ResultRow n))

/-- The rows of the table with the given key. -/
def rowsOf (key : List Value) : List (ResultRow n) := table.filter fun row => sameKey key (positions.map row)

/-- A row of a grouped result: what is emitted for a key and the aggregates over its rows. -/
def IsGroupRow (key : List Value) (row : S) : Prop :=
  ∃ values, aggregates.mapM (aggregateOver columns (rowsOf positions table key)) = .ok values ∧
    row = emit key values

/-- The groups of a fold over the table. -/
def AreGroups (groups : Groups) : Prop :=
  List.Forall₂ (IsGroup sameKey (fun row => positions.map row) (freshAccumulators aggregates)
    (fun accumulators row => updateAll columns row aggregates accumulators) table)
    (firsts sameKey (table.map fun row => positions.map row)) groups

variable {columns emit aggregates positions table} {groups : Groups} {rows : List S}

omit [Host] in
theorem sameKey_eq_false {l r : List Value} : sameKey l r = false ↔ keyOrder l r ≠ .eq := by
  simp [sameKey]

omit [Host] in
theorem sameKey_false_symm {l r : List Value} (h : sameKey l r = false) : sameKey r l = false := by
  rw [sameKey_eq_false] at h ⊢
  exact fun h' => h (Std.OrientedCmp.eq_symm h')

omit [Host] in
theorem insertionSort_pairwise (groups : Groups) :
    (groups.insertionSort fun a b => (keyOrder a.1 b.1).isLE).Pairwise fun a b => (keyOrder a.1 b.1).isLE := by
  have htotal : Std.Total fun a b : List Value × List AggregateAccumulator => (keyOrder a.1 b.1).isLE := by
    refine ⟨fun a b => ?_⟩
    rw [@Std.OrientedCmp.eq_swap _ keyOrder _ b.1]
    cases keyOrder a.1 b.1 <;> simp
  have htrans : IsTrans (List Value × List AggregateAccumulator) fun a b => (keyOrder a.1 b.1).isLE :=
    ⟨fun a b c => Std.TransCmp.isLE_trans⟩
  exact List.pairwise_insertionSort _ groups

omit [Host] in
/-- A sorted list of groups whose keys differ is sorted strictly. -/
theorem strict_of_sorted (hsorted : groups.Pairwise fun a b => (keyOrder a.1 b.1).isLE)
    (hdistinct : groups.Pairwise fun a b => sameKey a.1 b.1 = false) :
    groups.Pairwise fun a b => keyOrder a.1 b.1 = .lt := by
  refine (hsorted.and hdistinct).imp fun {a b} h => ?_
  have hne := sameKey_eq_false.mp h.2
  revert h hne
  cases keyOrder a.1 b.1 <;> simp

omit [Host] in
theorem insertionSort_of_strict {sorted : Groups} (hperm : groups.Perm sorted)
    (hstrict : sorted.Pairwise fun a b => keyOrder a.1 b.1 = .lt) :
    (groups.insertionSort fun a b => (keyOrder a.1 b.1).isLE) = sorted := by
  have hperm' := (List.perm_insertionSort (fun a b => (keyOrder a.1 b.1).isLE) groups).trans hperm
  have hsymm : Std.Symm fun a b : List Value × List AggregateAccumulator => sameKey a.1 b.1 = false :=
    ⟨fun _ _ => sameKey_false_symm⟩
  have hdistinct : sorted.Pairwise fun a b => sameKey a.1 b.1 = false :=
    hstrict.imp fun h => sameKey_eq_false.mpr (by simp [h])
  refine List.Perm.eq_of_pairwise (fun a b ha hb hab hba => ?_)
    (insertionSort_pairwise groups) (hstrict.imp fun h => by simp [h]) hperm'
  by_contra hne
  have hab' := sameKey_eq_false.mp (hdistinct.forall (hperm'.subset ha) hb hne)
  exact hab' (Std.OrientedCmp.isLE_antisymm hab hba)

theorem isGroupRow_iff {key : List Value} {row : S} :
    IsGroupRow columns emit aggregates positions table key row ↔
      ∃ group, IsGroup sameKey (fun row => positions.map row) (freshAccumulators aggregates)
        (fun accumulators row => updateAll columns row aggregates accumulators) table key group ∧
        row = emit group.1 (group.2.map AggregateAccumulator.finalize) := by
  simp only [IsGroupRow, mapM_aggregateOver, IsGroup, rowsOf]
  constructor
  · rintro ⟨_, ⟨accumulators, hfold, rfl⟩, rfl⟩
    exact ⟨(key, accumulators), ⟨rfl, hfold⟩, rfl⟩
  · rintro ⟨⟨_, accumulators⟩, ⟨rfl, hfold⟩, rfl⟩
    exact ⟨_, ⟨accumulators, hfold, rfl⟩, rfl⟩

/-- The rows of the groups are one row for each distinct key, in the order of the keys. -/
theorem emitGroups_iff :
    (∃ groups, AreGroups columns aggregates positions table groups ∧ rows = emitGroups emit groups) ↔
      ∃ keys : List (List Value), keys.Perm (firsts sameKey (table.map fun row => positions.map row)) ∧
        keys.Pairwise (fun l r => keyOrder l r = .lt) ∧
        List.Forall₂ (IsGroupRow columns emit aggregates positions table) keys rows := by
  constructor
  · rintro ⟨groups, hgroups, rfl⟩
    have hsort := List.perm_insertionSort (fun a b => (keyOrder a.1 b.1).isLE) groups
    obtain ⟨keys, hkeys, hperm⟩ := List.perm_comp_forall₂ hsort hgroups.flip
    refine ⟨keys, hperm, ?_, ?_⟩
    · have hdistinct : groups.Pairwise fun a b => sameKey a.1 b.1 = false := by
        have hpairwise := @firsts_pairwise _ sameKey (table.map fun row => positions.map row)
        rw [← keys_of_groups hgroups] at hpairwise
        exact List.pairwise_map.mp hpairwise
      have hdistinct' := hdistinct.perm hsort.symm sameKey_false_symm
      rw [← keys_of_groups hkeys.flip, List.pairwise_map]
      exact strict_of_sorted (insertionSort_pairwise groups) hdistinct'
    · rw [emitGroups, List.forall₂_map_right_iff]
      exact hkeys.flip.imp fun key group h => isGroupRow_iff.mpr ⟨group, h, rfl⟩
  · rintro ⟨keys, hperm, hstrict, hrows⟩
    obtain ⟨sorted, hsorted, rfl⟩ : ∃ sorted, List.Forall₂ (IsGroup sameKey (fun row => positions.map row)
        (freshAccumulators aggregates) (fun accumulators row => updateAll columns row aggregates accumulators)
        table) keys sorted ∧
        rows = sorted.map fun group => emit group.1 (group.2.map AggregateAccumulator.finalize) := by
      clear hperm hstrict
      induction hrows with
      | nil => exact ⟨[], .nil, rfl⟩
      | cons hrow _ ih =>
        obtain ⟨group, hgroup, rfl⟩ := isGroupRow_iff.mp hrow
        obtain ⟨rest, hrest, rfl⟩ := ih
        exact ⟨group :: rest, .cons hgroup hrest, rfl⟩
    obtain ⟨groups, hgroups, hperm'⟩ := List.perm_comp_forall₂ hperm.symm hsorted
    rw [← keys_of_groups hsorted, List.pairwise_map] at hstrict
    exact ⟨groups, hgroups, by rw [emitGroups, insertionSort_of_strict hperm' hstrict]⟩

theorem AreGroups.length_eq (h : AreGroups columns aggregates positions table groups) :
    groups.length = (firsts sameKey (table.map fun row => positions.map row)).length :=
  (List.Forall₂.length_eq h).symm

end

def AnalyticalQuery.groupBytes (query : AnalyticalQuery) : ℕ :=
  64 + query.groupBy.length * 32 + query.aggregates.length * 32

def AnalyticalQuery.quotaExceeded (query : AnalyticalQuery) : DbError :=
  .resourceLimitExceeded s!"analytical query exceeded memory quota of {query.maxMemoryBytes} bytes"

section
variable [Host] (columns : Fin n → ColumnDefinition) (query : AnalyticalQuery)

/-- The memory after a row with the key: a new group is charged, if the quota allows it. -/
def charge (state : Groups × ℕ) (key : List Value) : DbResult ℕ :=
  if state.1.any fun group => sameKey group.1 key then .ok state.2
  else if query.maxMemoryBytes < state.2 + query.groupBytes then .error query.quotaExceeded
  else .ok (state.2 + query.groupBytes)

/-- One row into the group of its key. The map is kept in the order of insertion; only its
iteration depends on the order of the keys. -/
def groupRow (positions : List (Fin n)) (state : Groups × ℕ) (row : ResultRow n) : DbResult (Groups × ℕ) := do
  let key := positions.map row
  let memory ← charge query state key
  let groups ← upsert sameKey (freshAccumulators query.aggregates)
    (fun accumulators => updateAll columns row query.aggregates accumulators) key state.1
  return (groups, memory)

def groupedRows (groups : Groups) : List (List Value) := emitGroups (· ++ ·) groups

/-- `execute_inner` on the rows of the table in scan order. The grouping columns are looked up for
their names first, so reading them from a row does not fail. -/
def executeInner (table : List (ResultRow n)) : DbResult AnalyticalResult := do
  let batches := (MorselScanner.new query.morselSize).drain table
  let positions ← query.groupBy.mapM (columnAt columns)
  let names := positions.map (fun i => (columns i).name) ++ query.aggregates.map (·.«alias»)
  if query.groupBy = [] then
    let (accumulators, processed, scanned) ← overMorsels
      (fun accumulators row => updateAll columns row query.aggregates accumulators)
      (freshAccumulators query.aggregates) batches
    return ⟨names, [accumulators.map AggregateAccumulator.finalize], processed, scanned⟩
  else
    let (state, processed, scanned) ← overMorsels (groupRow columns query positions) ([], 0) batches
    return ⟨names, groupedRows state.1, processed, scanned⟩

/-- The rows and the count of the query over one full scan: the aggregates over all rows, or one row
for each distinct key, in the order of the keys and within the quota. -/
def FoldsOnce (table : List (ResultRow n)) (rows : List (List Value)) (scanned : ℕ) : Prop :=
  scanned = table.length ∧ ∃ positions, query.groupBy.mapM (columnAt columns) = .ok positions ∧
    if query.groupBy = [] then
      ∃ values, query.aggregates.mapM (aggregateOver columns table) = .ok values ∧ rows = [values]
    else
      ∃ keys : List (List Value), keys.Perm (firsts sameKey (table.map fun row => positions.map row)) ∧
        keys.Pairwise (fun l r => keyOrder l r = .lt) ∧
        (keys ≠ [] → query.groupBytes * keys.length ≤ query.maxMemoryBytes) ∧
        List.Forall₂ (IsGroupRow columns (· ++ ·) query.aggregates positions table) keys rows

omit [Host] in
theorem overMorsels_eq_ok {S : Type} {step : S → R → DbResult S} {start state : S}
    {batches : List (MorselBatch R)} {processed scanned : ℕ} :
    overMorsels step start batches = .ok (state, processed, scanned) ↔
      (batches.flatMap MorselBatch.rows).foldlM step start = .ok state ∧ processed = batches.length ∧
        scanned = (batches.flatMap MorselBatch.rows).length := by
  induction batches using List.reverseRecOn generalizing state processed scanned with
  | nil =>
    simp [overMorsels, pure, Except.pure, eq_comm]
  | append_singleton batches batch ih =>
    rw [overMorsels, List.foldlM_append, ← overMorsels, bind_eq_ok, List.flatMap_append, List.foldlM_append,
      bind_eq_ok]
    constructor
    · rintro ⟨⟨mid, p, c⟩, hmid, hlast⟩
      obtain ⟨hfold, rfl, rfl⟩ := ih.mp hmid
      simp only [List.foldlM_cons, List.foldlM_nil, bind_pure] at hlast
      obtain ⟨out, hout, hpure⟩ := bind_eq_ok.mp hlast
      cases hpure
      exact ⟨⟨mid, hfold, by simpa using hout⟩, by simp, by simp⟩
    · rintro ⟨⟨mid, hmid, hout⟩, rfl, rfl⟩
      refine ⟨(mid, _, _), ih.mpr ⟨hmid, rfl, rfl⟩, ?_⟩
      simp only [List.foldlM_cons, List.foldlM_nil, bind_pure]
      refine bind_eq_ok.mpr ⟨state, by simpa using hout, ?_⟩
      simp [pure, Except.pure]

omit [Host] in
theorem sameKey_equivalence : Equivalence fun l r => sameKey l r = true := by
  simp only [sameKey, beq_iff_eq]
  exact ⟨fun _ => Std.ReflCmp.compare_self, Std.OrientedCmp.eq_symm, Std.TransCmp.eq_trans⟩

omit [Host] in
theorem charge_eq_ok {groups : Groups} {memory memory' : ℕ} {key : List Value} :
    charge query (groups, memory) key = .ok memory' ↔
      memory' = memory + query.groupBytes * (if groups.any fun group => sameKey group.1 key then 0 else 1) ∧
        ((groups.any fun group => sameKey group.1 key) = false → memory' ≤ query.maxMemoryBytes) := by
  rw [charge]
  cases groups.any fun group => sameKey group.1 key <;> simp [eq_comm]
  split
  · simp
    omega
  · simp
    omega

theorem groupRows_eq_ok {positions : List (Fin n)} {table : List (ResultRow n)} {groups : Groups} {memory : ℕ} :
    table.foldlM (groupRow columns query positions) ([], 0) = .ok (groups, memory) ↔
      groupFold sameKey (fun row => positions.map row) (freshAccumulators query.aggregates)
        (fun accumulators row => updateAll columns row query.aggregates accumulators) table = .ok groups ∧
      memory = query.groupBytes * groups.length ∧ (groups ≠ [] → memory ≤ query.maxMemoryBytes) := by
  induction table using List.reverseRecOn generalizing groups memory with
  | nil =>
    simp only [groupFold, List.foldlM_nil, pure, Except.pure, Except.ok.injEq, Prod.mk.injEq]
    constructor
    · rintro ⟨rfl, rfl⟩
      simp
    · rintro ⟨rfl, rfl, -⟩
      simp
  | append_singleton table row ih =>
    rw [List.foldlM_append, bind_eq_ok, groupFold, List.foldlM_append, ← groupFold, bind_eq_ok]
    simp only [List.foldlM_cons, List.foldlM_nil, bind_pure, groupRow, bind_eq_ok]
    constructor
    · rintro ⟨⟨gs, m⟩, hgs, memory', hcharge, groups', hgroups, hpure⟩
      obtain ⟨hfold, rfl, hquota⟩ := ih.mp hgs
      obtain ⟨hmemory, hnew⟩ := (charge_eq_ok query).mp hcharge
      cases hpure
      refine ⟨⟨gs, hfold, hgroups⟩, ?_, fun _ => ?_⟩
      · rw [upsert_length hgroups, Nat.mul_add, hmemory]
      · cases hknown : gs.any fun group => sameKey group.1 (positions.map row) with
        | false => exact hnew hknown
        | true =>
          rw [hmemory, hknown, if_pos rfl, Nat.mul_zero, Nat.add_zero]
          refine hquota ?_
          rintro rfl
          cases hknown
    · rintro ⟨⟨gs, hfold, hgroups⟩, rfl, hquota⟩
      have hlength := upsert_length hgroups
      have hpos : 0 < List.length groups := by
        rw [hlength]
        cases gs <;> simp
      have hle : query.groupBytes * List.length groups ≤ query.maxMemoryBytes :=
        hquota (List.length_pos_iff.mp hpos)
      refine ⟨(gs, _), ih.mpr ⟨hfold, rfl, fun _ => ?_⟩, _, (charge_eq_ok query).mpr ⟨?_, fun _ => hle⟩,
        groups, hgroups, rfl⟩
      · exact le_trans (Nat.mul_le_mul_left _ (by omega)) hle
      · rw [hlength, Nat.mul_add]

/-- An analytical query has a result with given rows and count exactly when one fold over a full
scan gives them, whatever the size of the morsels. -/
theorem morsels_fold_once (size : ℕ) (table : List (ResultRow n)) (rows : List (List Value)) (scanned : ℕ) :
    (∃ result, executeInner columns { query with morselSize := size } table = .ok result ∧
      result.rows = rows ∧ result.totalRowsScanned = scanned) ↔ FoldsOnce columns query table rows scanned := by
  have hsize : 0 < (MorselScanner.new size).morselSize := by
    rw [MorselScanner.new]
    split
    · decide
    · exact Nat.pos_of_ne_zero ‹_›
  have hrows : ((MorselScanner.new size).drain table).flatMap MorselBatch.rows = table :=
    MorselScanner.drain_rows table _ hsize rfl
  simp only [executeInner, FoldsOnce, bind_eq_ok]
  by_cases hgroup : query.groupBy = []
  · simp only [if_pos hgroup, bind_eq_ok, mapM_aggregateOver]
    constructor
    · rintro ⟨_, ⟨positions, hpositions, ⟨accumulators, _, _⟩, hloop, hresult⟩, rfl, rfl⟩
      obtain ⟨hfold, -, rfl⟩ := overMorsels_eq_ok.mp hloop
      cases hresult
      rw [hrows] at hfold ⊢
      exact ⟨rfl, positions, hpositions, _, ⟨accumulators, hfold, rfl⟩, rfl⟩
    · rintro ⟨rfl, positions, hpositions, _, ⟨accumulators, hfold, rfl⟩, rfl⟩
      exact ⟨_, ⟨positions, hpositions, (accumulators, _, table.length),
        overMorsels_eq_ok.mpr ⟨by rw [hrows]; exact hfold, rfl, by rw [hrows]⟩, rfl⟩, rfl, rfl⟩
  · simp only [if_neg hgroup, bind_eq_ok]
    constructor
    · rintro ⟨_, ⟨positions, hpositions, ⟨⟨groups, memory⟩, _, _⟩, hloop, hresult⟩, rfl, rfl⟩
      obtain ⟨hfold, -, rfl⟩ := overMorsels_eq_ok.mp hloop
      cases hresult
      rw [hrows] at hfold ⊢
      obtain ⟨hgroups, rfl, hquota⟩ := (groupRows_eq_ok columns _).mp hfold
      have hareGroups := (groupFold_eq_ok sameKey_equivalence).mp hgroups
      obtain ⟨keys, hperm, hstrict, hkeys⟩ := emitGroups_iff.mp ⟨groups, hareGroups, rfl⟩
      have hlength := hperm.length_eq.trans (AreGroups.length_eq hareGroups).symm
      refine ⟨rfl, positions, hpositions, keys, hperm, hstrict, fun hne => ?_, hkeys⟩
      rw [hlength]
      refine hquota ?_
      rintro rfl
      exact hne (List.length_eq_zero_iff.mp hlength)
    · rintro ⟨rfl, positions, hpositions, keys, hperm, hstrict, hquota, hkeys⟩
      obtain ⟨groups, hgroups, rfl⟩ := emitGroups_iff.mpr ⟨keys, hperm, hstrict, hkeys⟩
      have hlength := hperm.length_eq.trans hgroups.length_eq.symm
      have hfold := (groupRows_eq_ok columns { query with morselSize := size }).mpr
        ⟨(groupFold_eq_ok sameKey_equivalence).mpr hgroups, rfl, fun hne => hlength ▸ hquota fun hnil => by
          rw [hnil] at hlength
          exact hne (List.length_eq_zero_iff.mp hlength.symm)⟩
      exact ⟨_, ⟨positions, hpositions, ((groups, _), _, table.length),
        overMorsels_eq_ok.mpr ⟨by rw [hrows]; exact hfold, rfl, by rw [hrows]⟩, rfl⟩, rfl, rfl⟩

end

/-- `SELECT g, count(*), sum(v) FROM t GROUP BY g`. -/
def countAndSum : AnalyticalQuery where
  morselSize := 0
  groupBy := [1]
  aggregates := [⟨.count, none, "count"⟩, ⟨.sum, some 2, "sum"⟩]
  maxMemoryBytes := 1000

def groupAndValue : Fin 2 → ColumnDefinition := ![⟨1, "g", .i64, false⟩, ⟨2, "v", .i64, true⟩]

def fourRows : List (ResultRow 2) :=
  [![.i64 ⟨2, I64.two_fits⟩, .i64 ⟨5, I64.five_fits⟩], ![.i64 ⟨1, I64.one_fits⟩, .i64 ⟨5, I64.five_fits⟩],
    ![.i64 ⟨2, I64.two_fits⟩, .i64 ⟨0, I64.zero_fits⟩], ![.i64 ⟨1, I64.one_fits⟩, .null]]

def twoGroups : List (List Value) :=
  [[.i64 ⟨1, I64.one_fits⟩, .u64 2, .i64 ⟨5, I64.five_fits⟩], [.i64 ⟨2, I64.two_fits⟩, .u64 2, .i64 ⟨5, I64.five_fits⟩]]

/-- In two morsels of two rows, the last one full, and in one of three and one of one. -/
theorem morsels_fold_once_fourRows :
    (∃ result, @executeInner 2 Host.bare groupAndValue { countAndSum with morselSize := 2 } fourRows = .ok result ∧
      result.rows = twoGroups ∧ result.totalRowsScanned = 4) ∧
    ∃ result, @executeInner 2 Host.bare groupAndValue { countAndSum with morselSize := 3 } fourRows = .ok result ∧
      result.rows = twoGroups ∧ result.totalRowsScanned = 4 := by
  let host := Host.bare
  have hfold : FoldsOnce groupAndValue countAndSum fourRows twoGroups 4 := by
    refine ⟨rfl, [0], rfl, [[.i64 ⟨1, I64.one_fits⟩], [.i64 ⟨2, I64.two_fits⟩]], ?_, ?_, ?_, ?_⟩
    · exact .swap _ _ []
    · simp [keyOrder]
      decide
    · decide
    · exact .cons ⟨_, rfl, rfl⟩ (.cons ⟨_, rfl, rfl⟩ .nil)
  exact ⟨(morsels_fold_once groupAndValue countAndSum 2 fourRows twoGroups 4).mpr hfold,
    (morsels_fold_once groupAndValue countAndSum 3 fourRows twoGroups 4).mpr hfold⟩

end OmenDb.Sql
