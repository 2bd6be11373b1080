import OmenDb.Txn.Publish

/-! Maintenance: version collection, change pruning, retention leases, and what reopening after a
crash rebuilds from durable records. None of these consumes a commit sequence number. -/
namespace OmenDb.Txn

def oldestActiveSnapshot (σ : State) : Option ℕ := (σ.transactions.toList.map (·.2.snapshot)).min?

def oldestLeaseFloor (σ : State) : Option ℕ := (σ.leases.toList.map (·.2)).min?

def retentionWatermark (σ : State) : Option ℕ :=
  match oldestActiveSnapshot σ, oldestLeaseFloor σ with
  | some s, some l => some (min s l)
  | some s, none => some s
  | none, l => l

/-- What collection rewrites a record to: its commit is frozen, and its history is cleared when
no protected snapshot can need it. -/
def frozen (watermark : Option ℕ) (current : CurrentRecord) (resolved : ℕ) : CurrentRecord :=
  { current with
    commit := resolved
    undoHead := if watermark.all fun w => decide (resolved ≤ w) then none else current.undoHead }

/-- One turn of `GcContext::collect`. -/
def collectRecord (store : VersionStore) (statuses : Statuses) (watermark : Option ℕ)
    (current : CurrentRecord) (retained : Finset ℕ) : Result (Finset ℕ × CurrentRecord) := do
  let retained ← store.retainCurrentChain statuses current watermark retained
  let resolved ← resolveCommit statuses current.transaction current.commit
  let record ←
    if frozen watermark current resolved = current then pure current
    else encodeCurrent (frozen watermark current resolved)
  return (retained, record)

/-- `GcContext::collect` over one family of records; only changed records are rewritten. -/
def collect {K : Type} [LinearOrder K] (store : VersionStore) (statuses : Statuses)
    (watermark : Option ℕ) :
    List (K × CurrentRecord) → Finset ℕ → OrdMap K CurrentRecord →
      Result (Finset ℕ × OrdMap K CurrentRecord)
  | [], retained, rewrites => .ok (retained, rewrites)
  | (k, current) :: rest, retained, rewrites => do
    let (retained, record) ← collectRecord store statuses watermark current retained
    collect store statuses watermark rest retained
      (if record = current then rewrites else rewrites.insert k record)

/-- The transactions whose status a retained version still needs. -/
def unfrozenOf (store : VersionStore) : List ℕ → Result (Finset ℕ)
  | [] => .ok ∅
  | id :: ids => do
    let record ← store.get id
    let rest ← unfrozenOf store ids
    return if record.commit = 0 then insert record.transaction rest else rest

/-- The decisions of `gc_versions`, all taken before its maintenance batch. -/
def gcPlan (σ : State) : Result GcPlan := do
  let watermark := retentionWatermark σ
  let (retained, treeRewrites) ← collect σ.versions σ.statuses watermark σ.db.trees.toList ∅ ∅
  let (retained, dataRewrites) ←
    collect σ.versions σ.statuses watermark σ.db.data.toList retained ∅
  let unfrozen ← unfrozenOf σ.versions (retained.sort (· ≤ ·))
  return ⟨watermark, retained, treeRewrites, dataRewrites,
    (σ.statuses.keys.filter fun t => decide (t ∉ unfrozen)).toFinset⟩

def GcPlan.writes (plan : GcPlan) : Bool :=
  !(plan.treeRewrites.isEmpty && plan.dataRewrites.isEmpty) || !decide (plan.prunable = ∅)

/-- The maintenance batch of `gc_versions`: rewrites, status deletions and the allocator
high-water in one generation. -/
def GcPlan.apply (plan : GcPlan) (σ : State) : Db :=
  if plan.writes then
    { σ.db with
      trees := σ.db.trees.insertAll plan.treeRewrites.toList
      data := σ.db.data.insertAll plan.dataRewrites.toList
      statuses := σ.db.statuses.eraseAll plan.prunable
      allocator := some
        ⟨max σ.nextTransaction ((σ.statuses.keys.getLast?).getD 0), σ.nextTree⟩ }
  else σ.db

/-- `gc_versions` through its maintenance batch. A failed plan and a batch refused before it is
installed change nothing. -/
def gcCollect (σ : State) (outcome : EngineOutcome) : State × Result Unit :=
  match gcPlan σ with
  | .error e => (σ, .error e)
  | .ok plan =>
    match outcome with
    | .published => ({ σ with db := plan.apply σ, lane := .collected plan }, .ok ())
    | _ => (σ, .error .io)

/-- The mirror is rebuilt from the rewritten lifecycle records. -/
def gcMirror (σ : State) (plan : GcPlan) : State :=
  { σ with
    mirror := if plan.writes then σ.db.trees else σ.mirror
    lane := .rebuilt plan }

def gcCompact (σ : State) (plan : GcPlan) : Result State := do
  let store ← σ.versions.compact plan.retained
  return { σ with
    versions := store
    synced := store.nextId
    statuses := σ.statuses.eraseAll plan.prunable
    lane := .idle }

/-- `gc_changes` reads the oldest live snapshot in a critical section of its own, before it takes
the lease and change guards. -/
def gcSample (σ : State) : State := { σ with lane := .sampled (oldestActiveSnapshot σ) }

/-- The floor of a change collection: the older of the least lease floor and the sampled
snapshot. Without leases nothing is pruned. -/
def changeFloor (σ : State) (oldest : Option ℕ) : Option ℕ :=
  (oldestLeaseFloor σ).map fun lease => (oldest.map fun s => min lease s).getD lease

/-- The rest of `gc_changes`: prune below the floor, durably and in memory. -/
def gcChanges (σ : State) (oldest : Option ℕ) : State :=
  match changeFloor σ oldest with
  | none => { σ with lane := .idle }
  | some floor =>
    { σ with
      db := { σ.db with changes := σ.db.changes.filter fun c _ => decide (floor ≤ c) }
      changes := σ.changes.filter fun c _ => decide (floor ≤ c)
      lane := .idle }

/-- `gc_changes` whose batch the engine refuses. -/
def gcRefused (σ : State) : State := { σ with lane := .idle }

def maxLeaseNameLen : ℕ := 255

def publishLeaseWrite (σ : State) (name : Bytes) (floor : Option ℕ) : State :=
  match floor with
  | some csn =>
    { σ with
      db := { σ.db with leases := σ.db.leases.insert name csn }
      leases := σ.leases.insert name csn }
  | none =>
    { σ with
      db := { σ.db with leases := σ.db.leases.erase name }
      leases := σ.leases.erase name }

/-- `acquire_change_lease`: any nonzero start is accepted for a new name. -/
def acquireChangeLease (σ : State) (name : Bytes) (start : ℕ) : Result State :=
  if name.length = 0 ∨ maxLeaseNameLen < name.length then
    .error (.invalidArgument "lease name must be 1..=255 bytes")
  else if start = 0 then
    .error (.invalidArgument "lease start must be a nonzero commit sequence")
  else
    match σ.leases[name]? with
    | some floor => .ok (if start ≤ floor then σ else publishLeaseWrite σ name (some start))
    | none => .ok (publishLeaseWrite σ name (some start))

/-- `RetentionLease::advance`: the floor only moves forward. -/
def advanceLease (σ : State) (name : Bytes) (csn : ℕ) : Result State :=
  match σ.leases[name]? with
  | none => .error (.corruption "retention lease record vanished from runtime state")
  | some current => .ok (if csn ≤ current then σ else publishLeaseWrite σ name (some csn))

/-- `RetentionLease::release`. -/
def releaseLease (σ : State) (name : Bytes) : Result State :=
  match σ.leases[name]? with
  | none => .error (.corruption "retention lease record vanished from runtime state")
  | some _ => .ok (publishLeaseWrite σ name none)

/-- Lifecycle values `load_control_state` accepts along a tree's chain. -/
def lifecycleValue (value : Option Bytes) : Bool :=
  decide (value = some treeLive ∨ value = some treeDropped ∨ value = some treeReserved ∨
    value = none)

def validateVersionChain (store : VersionStore) : ℕ → Option ℕ → Result Unit
  | _, none => .ok ()
  | 0, some _ => .ok ()
  | n + 1, some id => do
    let record ← store.get id
    if lifecycleValue record.value then validateVersionChain store n record.previous
    else throw (.corruption "malformed tree lifecycle value")

def validateTree (store : VersionStore) (p : ℕ × CurrentRecord) : Result Unit := do
  if lifecycleValue p.2.value ∧ p.2.value ≠ none then
    validateVersionChain store (VersionStore.fuel p.2.undoHead) p.2.undoHead
  else throw (.corruption "malformed tree lifecycle value")

def validateStatus (p : ℕ × ℕ) : Result Unit :=
  if p.1 = 0 then .error (.corruption "transaction status ID is zero")
  else if p.2 = 0 then .error (.corruption "transaction status commit is zero")
  else .ok ()

def validateChange (p : ℕ × Change) : Result Unit :=
  if p.1 < p.2.snapshot then
    .error (.corruption "transaction change snapshot is newer than its commit")
  else .ok ()

def validateLease (p : Bytes × ℕ) : Result Unit :=
  if p.1.length = 0 ∨ maxLeaseNameLen < p.1.length then
    .error (.corruption "retention lease record has malformed name")
  else if p.2 = 0 then .error (.corruption "retention lease floor is zero")
  else .ok ()

/-- The checks of `load_control_state` on the records of a typed database. -/
def loadControlState (store : VersionStore) (db : Db) : Result Unit := do
  checkAll validateStatus db.statuses.toList
  checkAll (validateTree store) db.trees.toList
  checkAll validateChange db.changes.toList
  checkAll validateLease db.leases.toList

/-- The greatest transaction identity the durable records imply. -/
def maxTransaction (db : Db) : ℕ :=
  (db.statuses.keys ++ (db.changes.toList.map fun p : ℕ × Change => p.2.transaction) ++
    [(db.allocator.map fun w : HighWater => w.nextTransaction - 1).getD 0]).foldl max 0

/-- The greatest tree identity the durable records imply. -/
def maxTree (db : Db) : ℕ :=
  (db.trees.keys ++ (db.changes.toList.map fun p : ℕ × Change => p.2.changedTrees.sup id) ++
    [(db.allocator.map fun w : HighWater => w.nextTree - 1).getD 0]).foldl max 0

/-- `open` after a crash that kept the version frames below `durable`: everything volatile is
rebuilt from durable records and every transaction handle is gone. -/
def reopen (σ : State) (durable : ℕ) : Result State := do
  let versions := σ.versions.reopen durable
  loadControlState versions σ.db
  return { σ with
    versions := versions
    synced := versions.nextId
    statuses := σ.db.statuses
    changes := σ.db.changes
    leases := σ.db.leases
    mirror := σ.db.trees
    published := σ.db.csn
    transactions := ∅
    queue := []
    prepare := .empty
    publishing := .empty
    lane := .idle
    nextTransaction := maxTransaction σ.db + 1
    nextTree := maxTree σ.db + 1
    lookups := ∅
    reads := ∅ }

end OmenDb.Txn
