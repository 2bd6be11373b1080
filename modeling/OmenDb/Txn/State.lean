import OmenDb.Lib.Machine
import OmenDb.Mvcc.Retention

/-! State of the transactional runtime. Physical records are kept typed: a tree record per tree,
a data record per key, and the status, change, lease and allocator records of the control
namespace. Ghost fields carry the committed history and the reads each transaction made. -/
namespace OmenDb.Txn

structure Change where
  transaction : ℕ
  snapshot : ℕ
  changedTrees : Finset ℕ
  writes : Finset Loc

/-- Identities whose implying records maintenance may already have pruned. -/
structure HighWater where
  nextTransaction : ℕ
  nextTree : ℕ

/-- The durable database: `csn` is the published commit sequence number. -/
structure Db where
  csn : ℕ
  trees : OrdMap ℕ CurrentRecord
  data : OrdMap Loc CurrentRecord
  statuses : Statuses
  changes : OrdMap ℕ Change
  leases : OrdMap Bytes ℕ
  allocator : Option HighWater

abbrev Writes := OrdMap Loc (Option Bytes)

/-- A registered read range `[start, stop)` of one tree; no `stop` reads to the tree's end. -/
abbrev ReadRange := ℕ × Bytes × Option Bytes

/-- `[start, stop)` membership of a key. -/
def inRange (start : Bytes) (stop : Option Bytes) (key : Bytes) : Bool :=
  decide (start ≤ key) && stop.all fun e => decide (key < e)

theorem inRange_iff {start : Bytes} {stop : Option Bytes} {key : Bytes} :
    inRange start stop key = true ↔ start ≤ key ∧ ∀ e, stop = some e → key < e := by
  cases stop <;> simp [inRange]

def ReadRange.covers (r : ReadRange) (l : Loc) : Bool :=
  decide (l.tree = r.1) && inRange r.2.1 r.2.2 l.key

structure Cursor where
  tree : ℕ
  stop : Option Bytes
  position : Option Bytes

/-- Where a live transaction handle stands: `waiting` inside a commit or a tree creation that the
publish lane has yet to settle, `done` once its commit succeeded and its snapshot is not yet
released. -/
inductive Phase
  | active | waiting | done
  deriving DecidableEq, Repr

structure Transaction where
  id : ℕ
  snapshot : ℕ
  writes : Writes
  created : Finset ℕ
  dropped : Finset ℕ
  readRanges : Finset ReadRange
  pointReads : Finset Loc
  treeStates : OrdMap ℕ Bool
  cursor : Option Cursor
  phase : Phase

structure StagedCommit where
  transaction : ℕ
  snapshot : ℕ
  writes : Writes
  treeLifecycles : OrdMap ℕ Bytes
  readRanges : Finset ReadRange
  pointReads : Finset Loc
  changedTrees : Finset ℕ
  writeKeys : Finset Loc

/-- A validated member of a wave, with its sequence number and physical mutations. -/
structure Member where
  staged : StagedCommit
  assigned : ℕ
  dataPuts : List (Loc × CurrentRecord)
  treePuts : List (ℕ × CurrentRecord)

structure Unpublished where
  keys : Finset Loc
  trees : Finset ℕ

def Unpublished.empty : Unpublished := ⟨∅, ∅⟩

/-- What one `gc_versions` pass decided before its maintenance batch. -/
structure GcPlan where
  watermark : Option ℕ
  retained : Finset ℕ
  treeRewrites : OrdMap ℕ CurrentRecord
  dataRewrites : OrdMap Loc CurrentRecord
  prunable : Finset ℕ

/-- What the publish lane is doing. From `installed` to `settled`, and through the collection
and reservation phases, the lane holder also holds the database lock; the collection and
reservation phases hold the version-store and status locks too. A change collection that has
`sampled` the oldest live snapshot holds the lane and the database lock, and no others yet. -/
inductive Lane
  | idle
  | drained (queue : List StagedCommit)
  | installed (wave : List Member)
  | positioned (wave : List Member)
  | mirrored (wave : List Member)
  | settled
  | collected (plan : GcPlan)
  | rebuilt (plan : GcPlan)
  | reserved (owner tree : ℕ) (record : CurrentRecord)
  | reservedMirrored (owner tree : ℕ)
  | sampled (oldest : Option ℕ)

def Lane.dbFree : Lane → Bool
  | .idle | .drained _ => true
  | _ => false

/-- The mirror-based visibility check resolves under the version-store and status locks. -/
def Lane.statusesFree : Lane → Bool
  | .collected _ | .rebuilt _ | .reserved _ _ _ | .reservedMirrored _ _ => false
  | _ => true

inductive Read
  | get (tree : ℕ) (key : Bytes)
  | scan (tree : ℕ) (start : Bytes) (stop : Option Bytes) (limit : ℕ)
  | next (tree : ℕ) (position : Bytes) (stop : Option Bytes)
  deriving DecidableEq, Repr

inductive Answer
  | value (v : Option Bytes)
  | entries (l : List (Bytes × Bytes))
  deriving DecidableEq, Repr

/-- A successful read with the writes its transaction had staged at that time. -/
structure ReadEvent where
  read : Read
  own : Writes
  created : Finset ℕ
  answer : Answer

/-- One published commit sequence number. A tree reservation has no writes and records its tree
as reserved. -/
structure Commit where
  csn : ℕ
  transaction : ℕ
  snapshot : ℕ
  reservation : Bool
  writes : Writes
  treeLifecycles : OrdMap ℕ Bytes
  reads : List ReadEvent

/-- The runtime, with what is durable in `db` and in the version store below `synced`. -/
structure State where
  db : Db
  versions : VersionStore
  synced : ℕ
  statuses : Statuses
  changes : OrdMap ℕ Change
  leases : OrdMap Bytes ℕ
  mirror : OrdMap ℕ CurrentRecord
  published : ℕ
  transactions : OrdMap ℕ Transaction
  queue : List StagedCommit
  prepare : Unpublished
  publishing : Unpublished
  lane : Lane
  nextTransaction : ℕ
  nextTree : ℕ
  lookups : OrdMap ℕ (ℕ × CurrentRecord)
  history : List Commit
  reads : OrdMap ℕ (List ReadEvent)

/-- `create`: an empty database whose next identities are one. -/
def State.create : State where
  db := ⟨0, ∅, ∅, ∅, ∅, ∅, none⟩
  versions := .create
  synced := 1
  statuses := ∅
  changes := ∅
  leases := ∅
  mirror := ∅
  published := 0
  transactions := ∅
  queue := []
  prepare := .empty
  publishing := .empty
  lane := .idle
  nextTransaction := 1
  nextTree := 1
  lookups := ∅
  history := []
  reads := ∅

/-- Run a check over a list in order and report its first failure. -/
def checkAll {α : Type} (f : α → Result Unit) : List α → Result Unit
  | [] => .ok ()
  | a :: as => do
    f a
    checkAll f as

theorem checkAll_eq_ok {α : Type} {f : α → Result Unit} {l : List α} :
    checkAll f l = .ok () ↔ ∀ a ∈ l, f a = .ok () := by
  induction l with
  | nil => simp [checkAll]
  | cons a as ih =>
    cases h : f a with
    | error e => simp [checkAll, h, bind, Except.bind]
    | ok u => simp [checkAll, h, bind, Except.bind, ih]

end OmenDb.Txn
