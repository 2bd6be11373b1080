import OmenDb.Lib.VersionChain
import OmenDb.Mvcc.Records

/-! The append-oriented version store and the walk that resolves a snapshot through it. A store
carries the facts that reopening checks: predecessors are older and known. The walk over
versions is then the list lookup of `VersionChain.visible` over the chain of entries. -/
namespace OmenDb

/-- Version records by identity; `nextId` is the identity the next append takes. -/
structure VersionStore where
  records : OrdMap ℕ VersionRecord
  nextId : ℕ
  lt_next : ∀ {id : ℕ} {r : VersionRecord}, records[id]? = some r → id < nextId
  previous_lt : ∀ {id p : ℕ} {r : VersionRecord},
    records[id]? = some r → r.previous = some p → p < id
  previous_known : ∀ {id p : ℕ} {r : VersionRecord},
    records[id]? = some r → r.previous = some p → ∃ q, records[p]? = some q

namespace VersionStore

def create : VersionStore where
  records := ∅
  nextId := 1
  lt_next := by simp
  previous_lt := by simp
  previous_known := by simp

def get (store : VersionStore) (id : ℕ) : Result VersionRecord :=
  match store.records[id]? with
  | some record => .ok record
  | none => .error (.corruption s!"unknown MVCC version {id}")

/-- `encode_frame` as an admission check: 40 fixed bytes, the value and a 4-byte checksum. -/
def encodeFrame (value : Option Bytes) : Result Unit :=
  let length := (value.map List.length).getD 0
  if 2 ^ 32 ≤ length then .error (.invalidArgument "MVCC version value is too large")
  else if maxVersionBytes < 44 + length then
    .error (.invalidArgument "MVCC version frame exceeds the retention limit")
  else .ok ()

def Known (store : VersionStore) (head : Option ℕ) : Prop :=
  ∀ id, head = some id → ∃ r, store.records[id]? = some r

/-- Install a record at `nextId`. -/
def push (store : VersionStore) (record : VersionRecord) (h : store.Known record.previous) :
    VersionStore where
  records := store.records.insert store.nextId record
  nextId := store.nextId + 1
  lt_next := by
    intro id r hr
    rw [OrdMap.get_insert] at hr
    split at hr
    · omega
    · exact (store.lt_next hr).trans (Nat.lt_succ_self _)
  previous_lt := by
    intro id p r hr hp
    rw [OrdMap.get_insert] at hr
    split at hr
    · cases hr
      obtain ⟨q, hq⟩ := h p hp
      have := store.lt_next hq
      omega
    · exact store.previous_lt hr hp
  previous_known := by
    intro id p r hr hp
    rw [OrdMap.get_insert] at hr
    have known : ∃ q, store.records[p]? = some q := by
      split at hr
      · cases hr; exact h p hp
      · exact store.previous_known hr hp
    obtain ⟨q, hq⟩ := known
    have hne : store.nextId ≠ p := (store.lt_next hq).ne'
    exact ⟨q, by rw [OrdMap.get_insert_of_ne _ _ hne]; exact hq⟩

instance (store : VersionStore) (head : Option ℕ) : Decidable (store.Known head) :=
  match head with
  | none => .isTrue (by simp [Known])
  | some id =>
    match h : store.records[id]? with
    | some r => .isTrue (by intro i hi; cases hi; exact ⟨r, h⟩)
    | none => .isFalse (by intro hk; obtain ⟨r, hr⟩ := hk id rfl; simp [h] at hr)

/-- `VersionStore::append`: the predecessor must be known and the frame must fit. -/
def append (store : VersionStore) (previous : Option ℕ) (transaction : ℕ)
    (commit : ℕ) (value : Option Bytes) : Result (ℕ × VersionStore) :=
  if h : store.Known previous then
    match encodeFrame value with
    | .error e => .error e
    | .ok () => .ok (store.nextId, store.push ⟨previous, transaction, commit, value⟩ h)
  else .error (.corruption "MVCC version points to an unknown predecessor")

/-- `compact` keeps the retained records and forgets predecessors that were not retained. -/
def retain (store : VersionStore) (retained : Finset ℕ) : VersionStore where
  records := store.records.filterMap fun id r =>
    if id ∈ retained then some { r with previous := r.previous.filter (· ∈ retained) } else none
  nextId := store.nextId
  lt_next := by
    intro id r hr
    rw [OrdMap.get_filterMap, Option.bind_eq_some_iff] at hr
    obtain ⟨q, hq, _⟩ := hr
    exact store.lt_next hq
  previous_lt := by
    intro id p r hr hp
    rw [OrdMap.get_filterMap, Option.bind_eq_some_iff] at hr
    obtain ⟨q, hq, hr⟩ := hr
    split at hr
    · cases hr
      exact store.previous_lt hq (Option.filter_eq_some_iff.mp hp).1
    · cases hr
  previous_known := by
    intro id p r hr hp
    rw [OrdMap.get_filterMap, Option.bind_eq_some_iff] at hr
    obtain ⟨q, hq, hr⟩ := hr
    split at hr
    · cases hr
      obtain ⟨hp, hmem⟩ := Option.filter_eq_some_iff.mp hp
      obtain ⟨x, hx⟩ := store.previous_known hq hp
      have hmem : p ∈ retained := by simpa using hmem
      exact ⟨{ x with previous := x.previous.filter (· ∈ retained) },
        by rw [OrdMap.get_filterMap, hx]; simp [hmem]⟩
    · cases hr

/-- `VersionStore::compact`: a retained identity that is not stored is refused. -/
def compact (store : VersionStore) (retained : Finset ℕ) : Result VersionStore :=
  match (retained.sort (· ≤ ·)).find? fun id => (store.records[id]?).isNone with
  | some id => .error (.corruption s!"unknown MVCC version {id}")
  | none => .ok (store.retain retained)

/-- The greatest stored identity plus one: what `scan_existing` leaves in `next_id`. -/
def scanNext (records : OrdMap ℕ VersionRecord) : ℕ :=
  (records.toList.map fun p => p.1 + 1).foldl max 1

theorem le_foldl_max {l : List ℕ} {a b : ℕ} (h : b ∈ l ∨ b ≤ a) : b ≤ l.foldl max a := by
  induction l generalizing a with
  | nil => simpa using h
  | cons x xs ih =>
    apply ih
    rcases h with h | h
    · rcases List.mem_cons.mp h with rfl | h
      · exact .inr (le_max_right _ _)
      · exact .inl h
    · exact .inr (h.trans (le_max_left _ _))

theorem lt_scanNext {records : OrdMap ℕ VersionRecord} {id : ℕ}
    {r : VersionRecord} (h : records[id]? = some r) : id < scanNext records := by
  have hmem : id + 1 ∈ records.toList.map fun p => p.1 + 1 :=
    List.mem_map.mpr ⟨(id, r), (OrdMap.mem_toList _ _ _).mpr h, rfl⟩
  exact le_foldl_max (.inl hmem)

/-- Reopening after a crash that kept the frames of the identities below `durable`. -/
def reopen (store : VersionStore) (durable : ℕ) : VersionStore where
  records := store.records.filter fun id _ => decide (id < durable)
  nextId := scanNext (store.records.filter fun id _ => decide (id < durable))
  lt_next := lt_scanNext
  previous_lt := by
    intro id p r hr hp
    rw [OrdMap.get_filter] at hr
    exact store.previous_lt (Option.filter_eq_some_iff.mp hr).1 hp
  previous_known := by
    intro id p r hr hp
    rw [OrdMap.get_filter] at hr
    obtain ⟨hr, hlt⟩ := Option.filter_eq_some_iff.mp hr
    obtain ⟨q, hq⟩ := store.previous_known hr hp
    have := store.previous_lt hr hp
    have hlt : id < durable := by simpa using hlt
    refine ⟨q, ?_⟩
    rw [OrdMap.get_filter, hq]
    have : p < durable := by omega
    simp [this]

end VersionStore
end OmenDb
