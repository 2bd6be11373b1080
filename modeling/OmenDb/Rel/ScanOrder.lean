import OmenDb.Lib.StableSort
import OmenDb.Rel.RowCodec

/-! The order of the rows of a query without ORDER BY. A scan gives the rows of a table in the byte
order of their identities; rows found through an index are put in the order of the key that is derived
from the identity by hashing it. -/
namespace OmenDb.Rel

open OmenDb.Sql

/-- A table with a primary key: the columns of the key, and where each stands in a row. -/
structure KeyedTable where
  id : Word 8
  primaryKey : List (Word 2 × ℕ)

def identityMagic : Bytes := [0x44, 0x42, 0x52, 0x49]

/-- The components of an identity, each after the number of its column. -/
def encodeComponents : List (Word 2 × Value) → DbResult Bytes
  | [] => .ok []
  | (column, value) :: rest => do
    let first ← encodeForKey value
    return column.toLe ++ (first ++ (← encodeComponents rest))

/-- `RowIdentity::encode`, after the checks of `RowIdentity::new`. -/
def encodeIdentity (table : Word 8) (columns : List (Word 2)) (values : List Value) : DbResult Bytes :=
  if columns = [] then .error (.invalidState "row identity requires at least one primary-key column")
  else if 256 < columns.length then
    .error (.invalidState s!"row identity has too many primary-key columns: {columns.length}")
  else if columns.length ≠ values.length then
    .error (.invalidState s!"row identity has {columns.length} columns but {values.length} values")
  else if ¬ columns.Nodup then .error (.invalidState "row identity repeats a primary-key column")
  else if values.any Value.isNull then .error (.invalidState "row identity cannot contain NULL")
  else do
    let components ← encodeComponents (columns.zip values)
    return identityMagic ++ 1 :: (table.toLe ++ ((Word.ofNat columns.length : Word 4).toLe ++ components))

/-- `row_identity_bytes` of a table with a primary key. -/
def KeyedTable.rowIdentityBytes (table : KeyedTable) (values : List Value) : DbResult Bytes := do
  let key ← table.primaryKey.mapM fun (column, position) =>
    match values[position]? with
    | some value => .ok value
    | none => .error (.invalidState s!"row is missing column {column.val}")
  encodeIdentity table.id (table.primaryKey.map Prod.fst) key

/-- `synthetic_primary`: the table, and the first eight bytes of the digest of the identity. The source
takes SHA-256 for `digest`. -/
def syntheticPrimary (digest : Bytes → Bytes) (table : Word 8) (identity : Bytes) : Bytes :=
  table.toBe ++ (digest identity).take 8

abbrev StoredRow := Bytes × List Value

def KeyedTable.load (digest : Bytes → Bytes) (table : KeyedTable) (row : StoredRow) : Row :=
  ⟨syntheticPrimary digest table.id row.1, row.2⟩

/-- The tree of a table and the tree of one of its indexes, in key order. A row is stored under its own
identity, and the index has one entry for every row it covers; `indexKey` is `row_index_key`. -/
structure IndexedTable (table : KeyedTable) (indexKey : List Value → Option Bytes) where
  rows : List StoredRow
  sorted : rows.Pairwise fun a b => a.1 < b.1
  identified : ∀ row ∈ rows, table.rowIdentityBytes row.2 = .ok row.1
  entries : List (Bytes × Bytes)
  entriesSorted : entries.Pairwise fun a b => a.1 < b.1
  indexed : ∀ entry identity, (entry, identity) ∈ entries ↔
    ∃ values key, (identity, values) ∈ rows ∧ indexKey values = some key ∧ encodeIndexEntry key identity = .ok entry
  encodable : ∀ row ∈ rows, ∀ key, indexKey row.2 = some key → ∃ entry, encodeIndexEntry key row.1 = .ok entry

namespace IndexedTable

variable (digest : Bytes → Bytes) {table : KeyedTable} {indexKey : List Value → Option Bytes}
  (t : IndexedTable table indexKey)

/-- `scan_tree`. -/
def scan : List Row := t.rows.map (table.load digest)

def inRange (start : Bytes) (key : Bytes) : Bool :=
  decide (start ≤ key) && (prefixSuccessor start).all fun stop => decide (key < stop)

/-- `index_identities_for`, from the prefix that the entries of the value key share. -/
def indexIdentitiesFor (start : Bytes) : List Bytes :=
  (t.entries.filter fun entry => inRange start entry.1).map Prod.snd

def get? (identity : Bytes) : Option StoredRow := t.rows.find? fun row => row.1 = identity

def indexGet (start : Bytes) : DbResult (List Row) :=
  (t.indexIdentitiesFor start).mapM fun identity =>
    match t.get? identity with
    | some row => .ok (table.load digest row)
    | none => .error (.corruption "direct SeerDB index" "index entry references a missing row")

/-- The index scan of `predicate_candidate_rows`: a stable sort by the key of the row. -/
def candidateRows (start : Bytes) : DbResult (List Row) := do
  return (← t.indexGet digest start).insertionSort fun l r => l.primary ≤ r.primary

def matching (valueKey : Bytes) : List StoredRow := t.rows.filter fun row => indexKey row.2 = some valueKey

/-- Where the index has one row before another: identities are behind their length there. -/
def Shorter (a b : StoredRow) : Prop := a.1.length < b.1.length ∨ a.1.length = b.1.length ∧ a.1 < b.1

variable {digest} {t}

variable {start valueKey : Bytes} {a b : StoredRow}

theorem inRange_iff {key : Bytes} : inRange start key ↔ InKeyRange start (prefixSuccessor start) key := by
  rw [inRange, Bool.and_eq_true, decide_eq_true_eq, InKeyRange]
  cases prefixSuccessor start <;> simp

theorem eq_of_identity (ha : a ∈ t.rows) (hb : b ∈ t.rows) (h : a.1 = b.1) : a = b := by
  have hnodup : (t.rows.map Prod.fst).Nodup := List.pairwise_map.mpr (t.sorted.imp fun hlt => hlt.ne)
  exact List.inj_on_of_nodup_map hnodup ha hb h

theorem get?_of_mem {row : StoredRow} (h : row ∈ t.rows) : t.get? row.1 = some row := by
  have hsome : (t.rows.find? fun other => other.1 = row.1).isSome := by
    rw [List.find?_isSome]
    exact ⟨row, h, by simp⟩
  obtain ⟨other, hother⟩ := Option.isSome_iff_exists.mp hsome
  have hidentity : other.1 = row.1 := by simpa using List.find?_some hother
  rw [get?, hother, eq_of_identity (List.mem_of_find?_eq_some hother) h hidentity]

theorem append_lt_append_left {α : Type} [LinearOrder α] (xs : List α) {ys zs : List α} :
    xs ++ ys < xs ++ zs ↔ ys < zs := by
  induction xs with
  | nil => rfl
  | cons x xs ih => rw [List.cons_append, List.cons_append, List.cons_lt_cons_iff, ih]; simp

theorem shorter_of_entry_lt {ea eb : Bytes} (ha : encodeIndexEntry valueKey a.1 = .ok ea)
    (hb : encodeIndexEntry valueKey b.1 = .ok eb) (h : ea < eb) : Shorter a b := by
  obtain ⟨m, na, hm, hna, rfl⟩ := encodeIndexEntry_eq_ok ha
  obtain ⟨m', nb, hm', hnb, rfl⟩ := encodeIndexEntry_eq_ok hb
  cases Option.some.inj (hm.symm.trans hm')
  rw [append_lt_append_left, append_lt_append_left] at h
  have hla := Word.ofLength?_eq_some hna
  have hlb := Word.ofLength?_eq_some hnb
  rcases lt_trichotomy na nb with hlt | rfl | hgt
  · exact .inl (by rw [← hla, ← hlb]; exact hlt)
  · exact .inr ⟨hla.symm.trans hlb, (append_lt_append_left _).mp h⟩
  · exact (lt_asymm h (Word.toBe_append_lt hgt _ _)).elim

theorem mem_range_iff {entry identity : Bytes} (hstart : indexEntryPrefix valueKey = some start) :
    (entry, identity) ∈ t.entries ∧ inRange start entry ↔
      ∃ values, (identity, values) ∈ t.matching valueKey ∧ encodeIndexEntry valueKey identity = .ok entry := by
  simp only [matching, List.mem_filter, decide_eq_true_eq, t.indexed, inRange_iff]
  constructor
  · rintro ⟨⟨values, key, hmem, hkey, hentry⟩, hrange⟩
    cases (entry_inKeyRange_iff hstart hentry).mp hrange
    exact ⟨values, ⟨hmem, hkey⟩, hentry⟩
  · rintro ⟨values, ⟨hmem, hkey⟩, hentry⟩
    exact ⟨⟨values, valueKey, hmem, hkey, hentry⟩, (entry_inKeyRange_iff hstart hentry).mpr rfl⟩

theorem exists_found (hstart : indexEntryPrefix valueKey = some start) :
    ∃ found : List StoredRow, found.map Prod.fst = t.indexIdentitiesFor start ∧ found.Perm (t.matching valueKey) ∧
      found.Pairwise Shorter := by
  have hrow : ∀ entry ∈ t.entries.filter fun entry => inRange start entry.1, ∃ row : StoredRow,
      row ∈ t.matching valueKey ∧ row.1 = entry.2 ∧ encodeIndexEntry valueKey row.1 = .ok entry.1 := by
    rintro ⟨entry, identity⟩ hentry
    obtain ⟨values, hmem, hkey⟩ := (mem_range_iff hstart).mp (List.mem_filter.mp hentry)
    exact ⟨(identity, values), hmem, rfl, hkey⟩
  choose! row hmem hidentity hkey using hrow
  set range := t.entries.filter fun entry => inRange start entry.1 with hrange
  have hsorted : range.Pairwise fun a b => a.1 < b.1 := t.entriesSorted.filter _
  have hshorter : (range.map row).Pairwise Shorter := by
    rw [List.pairwise_map]
    exact hsorted.imp_of_mem fun ha hb hlt => shorter_of_entry_lt (hkey _ ha) (hkey _ hb) hlt
  refine ⟨range.map row, ?_, ?_, hshorter⟩
  · rw [indexIdentitiesFor, List.map_map]
    exact List.map_congr_left hidentity
  · have hnodup : (range.map row).Nodup := hshorter.imp fun hlt heq => by
      subst heq
      rcases hlt with hlt | ⟨_, hlt⟩
      · exact lt_irrefl _ hlt
      · exact lt_irrefl _ hlt
    have hmatching : (t.matching valueKey).Nodup :=
      (t.sorted.imp fun hlt heq => hlt.ne (congrArg Prod.fst heq)).filter _
    rw [List.perm_ext_iff_of_nodup hnodup hmatching]
    intro stored
    rw [List.mem_map]
    constructor
    · rintro ⟨entry, hentry, rfl⟩
      exact hmem entry hentry
    · intro hstored
      obtain ⟨hin, hindex⟩ := List.mem_filter.mp hstored
      obtain ⟨entry, hentry⟩ := t.encodable stored hin valueKey (by simpa using hindex)
      have hentries : (entry, stored.1) ∈ range :=
        List.mem_filter.mpr ((mem_range_iff hstart).mpr ⟨stored.2, hstored, hentry⟩)
      refine ⟨_, hentries, ?_⟩
      exact eq_of_identity (List.mem_filter.mp (hmem _ hentries)).1 hin (hidentity _ hentries)

theorem mapM_get {identities : List Bytes} {found : List StoredRow} (hfound : found.map Prod.fst = identities)
    (hrows : ∀ row ∈ found, row ∈ t.rows) :
    (identities.mapM fun identity =>
      match t.get? identity with
      | some row => (.ok (table.load digest row) : DbResult Row)
      | none =>
        .error (.corruption "direct SeerDB index" "index entry references a missing row")) =
          .ok (found.map (table.load digest)) := by
  subst hfound
  induction found with
  | nil => rfl
  | cons row found ih =>
    rw [List.map_cons, List.mapM_cons, get?_of_mem (hrows row (by simp)), ok_bind,
      ih fun other hother => hrows other (List.mem_cons_of_mem _ hother)]
    rfl

theorem load_injective {ls rs : List StoredRow} (hl : ∀ row ∈ ls, row ∈ t.rows) (hr : ∀ row ∈ rs, row ∈ t.rows)
    (h : ls.map (table.load digest) = rs.map (table.load digest)) : ls = rs := by
  have hback : ∀ rows : List StoredRow, (∀ row ∈ rows, row ∈ t.rows) →
      (rows.map (table.load digest)).map (fun row => (table.rowIdentityBytes row.values, row.values)) =
        rows.map fun row => ((.ok row.1 : DbResult Bytes), row.2) := by
    intro rows hrows
    rw [List.map_map]
    exact List.map_congr_left fun row hrow => congrArg (·, row.2) (t.identified row (hrows row hrow))
  have hinj : Function.Injective fun row : StoredRow => ((.ok row.1 : DbResult Bytes), row.2) := by
    intro a b hab
    obtain ⟨hidentity, hvalues⟩ := Prod.mk.inj hab
    exact Prod.ext (Except.ok.inj hidentity) hvalues
  apply List.map_injective_iff.mpr hinj
  rw [← hback ls hl, ← hback rs hr, h]

def ByPrimary (digest : Bytes → Bytes) (table : KeyedTable) (l r : StoredRow) : Prop :=
  syntheticPrimary digest table.id l.1 ≤ syntheticPrimary digest table.id r.1

instance : DecidableRel (ByPrimary digest table) := fun _ _ => inferInstanceAs (Decidable (_ ≤ _))

/-- The digests of the rows of a value key are in the order of their identities; rows of equal
digests need the shorter identity to be the smaller. -/
def DigestOrdered (digest : Bytes → Bytes) (t : IndexedTable table indexKey) (valueKey : Bytes) : Prop :=
  ∀ a ∈ t.matching valueKey, ∀ b ∈ t.matching valueKey, a.1 < b.1 →
    syntheticPrimary digest table.id a.1 < syntheticPrimary digest table.id b.1 ∨
      syntheticPrimary digest table.id a.1 = syntheticPrimary digest table.id b.1 ∧ a.1.length ≤ b.1.length

theorem stable_iff (hlt : a.1 < b.1) :
    Stable (ByPrimary digest table) Shorter a b ↔
      syntheticPrimary digest table.id a.1 < syntheticPrimary digest table.id b.1 ∨
        syntheticPrimary digest table.id a.1 = syntheticPrimary digest table.id b.1 ∧ a.1.length ≤ b.1.length := by
  have hshorter : Shorter a b ↔ a.1.length ≤ b.1.length := by
    rw [Shorter, le_iff_lt_or_eq]
    exact or_congr_right (and_iff_left hlt)
  rw [Stable, hshorter, ByPrimary, ByPrimary]
  rcases lt_trichotomy (syntheticPrimary digest table.id a.1) (syntheticPrimary digest table.id b.1) with h | h | h
  · exact iff_of_true ⟨h.le, fun hge => (not_le.mpr h hge).elim⟩ (.inl h)
  · simp [h]
  · refine iff_of_false (fun hle => not_le.mpr h hle.1) ?_
    rintro (hlt | ⟨heq, _⟩)
    · exact lt_asymm h hlt
    · exact h.ne heq.symm

theorem matching_sorted (valueKey : Bytes) : (t.matching valueKey).Pairwise fun a b => a.1 < b.1 := t.sorted.filter _

theorem digestOrdered_iff : t.DigestOrdered digest valueKey ↔
    (t.matching valueKey).Pairwise (Stable (ByPrimary digest table) Shorter) := by
  constructor
  · intro h
    exact (matching_sorted valueKey).imp_of_mem fun ha hb hlt => (stable_iff hlt).mpr (h _ ha _ hb hlt)
  · intro h a ha b hb hlt
    rw [← stable_iff hlt]
    -- the list has `a` before `b`: their identities are in that order
    have hboth := (matching_sorted valueKey).and h
    rcases List.pairwise_iff_getElem.mp hboth with hget
    obtain ⟨i, hi, rfl⟩ := List.getElem_of_mem ha
    obtain ⟨j, hj, rfl⟩ := List.getElem_of_mem hb
    rcases lt_trichotomy i j with hij | rfl | hij
    · exact (hget i j hi hj hij).2
    · exact (lt_irrefl _ hlt).elim
    · exact (lt_asymm hlt (hget j i hj hi hij).1).elim

/-- The rows found through an index come in the order of a scan, so that a LIMIT cuts the same rows off,
exactly when the digests of their identities are in the order of the identities. -/
theorem index_keeps_scan_order_iff (digest : Bytes → Bytes) {table : KeyedTable} {indexKey : List Value → Option Bytes}
    (t : IndexedTable table indexKey) {valueKey start : Bytes} (hstart : indexEntryPrefix valueKey = some start) :
    (∃ rows, t.candidateRows digest start = .ok rows ∧ rows.Sublist (t.scan digest) ∧
        ∀ limit, rows.take limit = ((t.matching valueKey).map (table.load digest)).take limit) ↔
          t.DigestOrdered digest valueKey := by
  obtain ⟨found, hidentities, hperm, hshorter⟩ := exists_found (t := t) hstart
  have hsub : ∀ row ∈ t.matching valueKey, row ∈ t.rows := fun row hrow => (List.mem_filter.mp hrow).1
  have hcandidates : t.candidateRows digest start =
      .ok ((found.insertionSort (ByPrimary digest table)).map (table.load digest)) := by
    rw [candidateRows, indexGet, mapM_get hidentities fun row hrow => hsub row (hperm.mem_iff.mp hrow), ok_bind,
      List.map_insertionSort (ByPrimary digest table)
      (fun l r : Row => l.primary ≤ r.primary) (table.load digest) found fun _ _ _ _ => Iff.rfl]
    rfl
  have hstable : (found.insertionSort (ByPrimary digest table)).Pairwise (Stable (ByPrimary digest table) Shorter) :=
    insertionSort_stable (r := ByPrimary digest table) (fun _ _ => le_total (α := Bytes) _ _)
    (fun _ _ _ => le_trans (α := Bytes)) hshorter
  have hsortPerm : (found.insertionSort (ByPrimary digest table)).Perm (t.matching valueKey) :=
    (List.perm_insertionSort _ found).trans hperm
  rw [digestOrdered_iff]
  constructor
  · rintro ⟨rows, hrows, -, htake⟩
    cases hcandidates.symm.trans hrows
    have hall := htake (max ((found.insertionSort (ByPrimary digest table)).map (table.load digest)).length
      ((t.matching valueKey).map (table.load digest)).length)
    rw [List.take_of_length_le (le_max_left _ _), List.take_of_length_le (le_max_right _ _)] at hall
    rw [← load_injective (fun row hrow => hsub row (hsortPerm.mem_iff.mp hrow)) hsub hall]
    exact hstable
  · intro hmatching
    have hantisymm : ∀ a b : StoredRow, a ∈ found.insertionSort (ByPrimary digest table) → b ∈ t.matching valueKey →
      Stable (ByPrimary digest table) Shorter a b →
        Stable (ByPrimary digest table) Shorter b a → a = b := by
      rintro a b - - ⟨hab, hsab⟩ ⟨hba, hsba⟩
      rcases hsab hba with hlt | ⟨heq, hlt⟩
      · rcases hsba hab with hgt | ⟨heq, _⟩ <;> omega
      · rcases hsba hab with hgt | ⟨_, hgt⟩
        · omega
        · exact (lt_asymm hlt hgt).elim
    have hsame : found.insertionSort (ByPrimary digest table) = t.matching valueKey :=
      hsortPerm.eq_of_pairwise hantisymm hstable hmatching
    refine ⟨_, hcandidates, ?_, fun limit => by rw [hsame]⟩
    rw [hsame]
    exact List.filter_sublist.map (table.load digest)

end IndexedTable

/-- A table whose key is its first column, and an index on the second. -/
def idTable : KeyedTable := ⟨1, [(1, 0)]⟩

def secondColumn (values : List Value) : Option Bytes := do (encodeForKey (← values[1]?)).toOption

def sevens (ids : List I64) : List StoredRow :=
  ids.map fun id => (((idTable.rowIdentityBytes [.i64 id, .i64 ⟨7, by decide⟩]).toOption).getD [],
    [.i64 id, .i64 ⟨7, by decide⟩])

def sevenKey : Bytes := 3 :: leSigned 8 7

def sevenEntry (row : StoredRow) : Bytes × Bytes := ((encodeIndexEntry sevenKey row.1).toOption.getD [], row.1)

theorem identity_id (id : I64) :
    ∃ identity, idTable.rowIdentityBytes [.i64 id, .i64 ⟨7, by decide⟩] = .ok identity ∧ identity.length = 28 :=
  ⟨_, rfl, by simp [identityMagic]⟩

theorem mem_sevens {ids : List I64} {row : StoredRow} (h : row ∈ sevens ids) :
    idTable.rowIdentityBytes row.2 = .ok row.1 ∧
    secondColumn row.2 = some sevenKey ∧ encodeIndexEntry sevenKey row.1 = .ok (sevenEntry row).1 := by
  obtain ⟨id, _, rfl⟩ := List.mem_map.mp h
  obtain ⟨identity, hid, hlength⟩ := identity_id id
  dsimp only [sevenEntry]
  rw [hid]
  refine ⟨rfl, rfl, ?_⟩
  have hkey : sevenKey.length = 9 := rfl
  simp only [Except.toOption, Option.getD_some, encodeIndexEntry, hkey, hlength]
  rw [Word.ofLength?_of_lt (by norm_num), Word.ofLength?_of_lt (by norm_num)]
  rfl

/-- The table of such rows, with ids in the order of their identities. -/
def sevensTable (ids : List I64) (h : (sevens ids).Pairwise fun a b => a.1 < b.1)
    (hentries : ((sevens ids).map sevenEntry).Pairwise fun a b => a.1 < b.1) : IndexedTable idTable secondColumn where
  rows := sevens ids
  sorted := h
  identified row hrow := (mem_sevens hrow).1
  entries := (sevens ids).map sevenEntry
  entriesSorted := hentries
  indexed entry identity := by
    rw [List.mem_map]
    constructor
    · rintro ⟨⟨id, values⟩, hrow, heq⟩
      obtain ⟨_, hkey, hentry⟩ := mem_sevens hrow
      cases heq
      exact ⟨values, sevenKey, hrow, hkey, hentry⟩
    · rintro ⟨values, key, hrow, hkey, hentry⟩
      obtain ⟨_, hkey', hentry'⟩ := mem_sevens hrow
      cases hkey.symm.trans hkey'
      exact ⟨_, hrow, Prod.ext (Except.ok.inj (hentry'.symm.trans hentry)) rfl⟩
  encodable row hrow key hkey := by
    obtain ⟨_, hkey', hentry⟩ := mem_sevens hrow
    cases hkey.symm.trans hkey'
    exact ⟨_, hentry⟩

/-- What SHA-256 begins with on the identities of the ids one to four. -/
def sampleDigest (identity : Bytes) : Bytes :=
  match (identity.getD 20 0).val with
  | 1 => [0xd6, 0xfe, 0x6a, 0x6a, 0xea, 0x3d, 0x2b, 0x02]
  | 2 => [0x77, 0xe1, 0x22, 0x99, 0x24, 0x81, 0xc2, 0x02]
  | 3 => [0x68, 0xb2, 0x83, 0x0b, 0xc2, 0xce, 0x73, 0x24]
  | 4 => [0xe3, 0x3b, 0xe3, 0x5b, 0x8c, 0xa5, 0xa3, 0x88]
  | _ => []

def sevenStart : Bytes := (Word.ofNat 9 : Word 4).toBe ++ sevenKey

/-- The identities of three and four have their digests in order. -/
def inOrderTable : IndexedTable idTable secondColumn :=
  sevensTable [⟨3, by decide⟩, ⟨4, by decide⟩] (by decide +kernel) (by decide +kernel)

theorem index_keeps_scan_order_sevens : indexEntryPrefix sevenKey = some sevenStart ∧
    ∃ rows, inOrderTable.candidateRows sampleDigest sevenStart = .ok rows ∧
      rows.Sublist (inOrderTable.scan sampleDigest) ∧
      ∀ limit, rows.take limit = ((inOrderTable.matching sevenKey).map (idTable.load sampleDigest)).take limit := by
  refine ⟨rfl, (IndexedTable.index_keeps_scan_order_iff sampleDigest inOrderTable rfl).mpr ?_⟩
  have hall : ∀ a ∈ inOrderTable.rows, ∀ b ∈ inOrderTable.rows, a.1 < b.1 →
      syntheticPrimary sampleDigest idTable.id a.1 < syntheticPrimary sampleDigest idTable.id b.1 := by decide +kernel
  exact fun a ha b hb hlt => .inl (hall a (List.mem_filter.mp ha).1 b (List.mem_filter.mp hb).1 hlt)

/-- The identities of one and two do not: a scan gives the row of one first, the index the row of two. -/
def outOfOrderTable : IndexedTable idTable secondColumn :=
  sevensTable [⟨1, Sql.I64.one_fits⟩, ⟨2, Sql.I64.two_fits⟩] (by decide +kernel) (by decide +kernel)

theorem index_reverses_scan : indexEntryPrefix sevenKey = some sevenStart ∧
    (outOfOrderTable.scan sampleDigest).map Row.values =
    [[.i64 ⟨1, by decide⟩, .i64 ⟨7, by decide⟩], [.i64 ⟨2, by decide⟩, .i64 ⟨7, by decide⟩]] ∧
    ((outOfOrderTable.candidateRows sampleDigest sevenStart).toOption.map fun rows => rows.map Row.values) =
      some [[.i64 ⟨2, by decide⟩, .i64 ⟨7, by decide⟩], [.i64 ⟨1, by decide⟩, .i64 ⟨7, by decide⟩]] := by
  decide +kernel

end OmenDb.Rel
