import OmenDb.Txn.Stage

/-! Publication. A drained queue is validated member by member against the published state it
found, the survivors' mutations are built over that same state, and the wave is installed as
one engine group. The published position, the lifecycle mirror and the status table are then
brought up to date in separate critical sections. -/
namespace OmenDb.Txn

/-- `take_staged`: the queue and its conflict index move to the publishing side at once. -/
def takeStaged (σ : State) : State :=
  { σ with
    queue := []
    prepare := .empty
    publishing := σ.prepare
    lane := .drained σ.queue }

/-- Whether a record was committed after `snapshot` by another transaction. -/
def foreignAfter (statuses : Statuses) (record : CurrentRecord) (snapshot transaction : ℕ) :
    Result Bool := do
  let commit ← resolveCommit statuses record.transaction record.commit
  return decide (snapshot < commit ∧ record.transaction ≠ transaction)

/-- The loop of `tree_has_conflicting_write`. -/
def anyForeignAfter (statuses : Statuses) (snapshot transaction : ℕ) :
    List CurrentRecord → Result Bool
  | [] => .ok false
  | record :: rest => do
    if ← foreignAfter statuses record snapshot transaction then return true
    anyForeignAfter statuses snapshot transaction rest

def treeHasConflictingWrite (db : Db) (statuses : Statuses) (tree snapshot transaction : ℕ) :
    Result Bool :=
  anyForeignAfter statuses snapshot transaction
    ((db.data.toList.filter fun p => decide (p.1.tree = tree)).map (·.2))

/-- Lifecycle part of `validate_against_published`. -/
def validateLifecycle (staged : StagedCommit) (db : Db) (statuses : Statuses) (p : ℕ × Bytes) :
    Result Unit := do
  let current := decodeCurrent db.trees[p.1]?
  if p.2 = treeLive ∧ current.transaction ≠ staged.transaction ∧
      current.value ≠ some treeReserved then
    throw (.treeConflict p.1)
  if ← foreignAfter statuses current staged.snapshot staged.transaction then
    throw (.treeConflict p.1)
  if p.2 = treeDropped then
    if ← treeHasConflictingWrite db statuses p.1 staged.snapshot staged.transaction then
      throw (.treeConflict p.1)

/-- Write part: a write into a tree the commit itself creates or drops takes its conflict from
the lifecycle record. -/
def validateWrite (staged : StagedCommit) (db : Db) (statuses : Statuses) (l : Loc) :
    Result Unit := do
  if l.tree ∈ staged.treeLifecycles then return ()
  if ← foreignAfter statuses (decodeCurrent db.trees[l.tree]?) staged.snapshot
      staged.transaction then
    throw (.treeConflict l.tree)
  if ← foreignAfter statuses (decodeCurrent db.data[l]?) staged.snapshot staged.transaction then
    throw (.writeConflict l.tree l.key)

def validatePointRead (staged : StagedCommit) (db : Db) (statuses : Statuses) (l : Loc) :
    Result Unit := do
  if ← foreignAfter statuses (decodeCurrent db.data[l]?) staged.snapshot staged.transaction then
    throw (.serializationConflict staged.snapshot db.csn)

/-- `validate_staged_range_dependencies`: change records in `(snapshot, current]`. -/
def validateRanges (staged : StagedCommit) (db : Db) : Result Unit :=
  if ∃ r ∈ staged.readRanges, ∃ p ∈ db.changes.toList,
      (staged.snapshot < p.1 ∧ p.1 ≤ db.csn) ∧ ∃ l ∈ p.2.writes, r.covers l = true then
    .error (.serializationConflict staged.snapshot db.csn)
  else .ok ()

def validateAgainstPublished (staged : StagedCommit) (db : Db) (statuses : Statuses) :
    Result Unit := do
  if db.csn < staged.snapshot then
    throw (.serializationConflict staged.snapshot db.csn)
  checkAll (validateLifecycle staged db statuses) staged.treeLifecycles.toList
  checkAll (validateWrite staged db statuses) staged.writes.keys
  checkAll (validatePointRead staged db statuses)
    (staged.pointReads.sort (· ≤ ·))
  validateRanges staged db

/-- Build the current records for a list of writes: each takes the before-image of the record it
overwrites. Before-images appended by a failing build stay in the store. -/
def buildPuts {K : Type} (current : K → CurrentRecord) (transaction : ℕ) :
    List (K × Option Bytes) → VersionStore → VersionStore × Result (List (K × CurrentRecord))
  | [], store => (store, .ok [])
  | (k, value) :: rest, store =>
    match appendBeforeImage store (current k) with
    | .error e => (store, .error e)
    | .ok (undo, store') =>
      match encodeCurrent ⟨transaction, 0, undo, value⟩ with
      | .error e => (store', .error e)
      | .ok record =>
        let (store'', r) := buildPuts current transaction rest store'
        (store'', r.map ((k, record) :: ·))

/-- `build_mutations`: data records first, then lifecycle records. -/
def buildMutations (staged : StagedCommit) (db : Db) (store : VersionStore) :
    VersionStore × Result (List (Loc × CurrentRecord) × List (ℕ × CurrentRecord)) :=
  let (store, data) := buildPuts (fun l : Loc => decodeCurrent db.data[l]?) staged.transaction
    staged.writes.toList store
  match data with
  | .error e => (store, .error e)
  | .ok dataPuts =>
    let (store, trees) := buildPuts (fun tree : ℕ => decodeCurrent db.trees[tree]?)
      staged.transaction (staged.treeLifecycles.toList.map fun p => (p.1, some p.2)) store
    (store, trees.map fun treePuts => (dataPuts, treePuts))

/-- The members, failures and version store a build phase ends with. -/
structure Build where
  members : List Member
  failures : List (ℕ × Error)
  store : VersionStore

/-- One turn of the build phase: only survivors consume sequence numbers. -/
def buildMember (db : Db) (statuses : Statuses) (b : Build) (staged : StagedCommit) : Build :=
  match validateAgainstPublished staged db statuses with
  | .error e => { b with failures := b.failures ++ [(staged.transaction, e)] }
  | .ok () =>
    match buildMutations staged db b.store with
    | (store, .error e) =>
      { b with failures := b.failures ++ [(staged.transaction, e)], store := store }
    | (store, .ok (dataPuts, treePuts)) =>
      { b with
        members := b.members ++ [⟨staged, db.csn + b.members.length + 1, dataPuts, treePuts⟩]
        store := store }

/-- The build phase of `publish_drained`. -/
def buildWave (db : Db) (statuses : Statuses) (store : VersionStore) (queue : List StagedCommit) :
    Build := queue.foldl (buildMember db statuses) ⟨[], [], store⟩

def StagedCommit.change (s : StagedCommit) : Change :=
  ⟨s.transaction, s.snapshot, s.changedTrees, s.writeKeys⟩

/-- One batch of `commit_group_at`: it consumes the next commit sequence number. -/
def Db.commitMember (db : Db) (m : Member) : Db :=
  { db with
    csn := db.csn + 1
    data := db.data.insertAll m.dataPuts
    trees := db.trees.insertAll m.treePuts
    statuses := db.statuses.insert m.staged.transaction m.assigned
    changes := db.changes.insert m.assigned m.staged.change }

/-- `commit_group_at` as the engine's contract has it: all batches or none. -/
def Db.commitGroup (db : Db) (members : List Member) : Db := members.foldl Db.commitMember db

def Member.commit (reads : OrdMap ℕ (List ReadEvent)) (m : Member) : Commit where
  csn := m.assigned
  transaction := m.staged.transaction
  snapshot := m.staged.snapshot
  reservation := false
  writes := m.staged.writes
  treeLifecycles := m.staged.treeLifecycles
  reads := (reads[m.staged.transaction]?).getD []

def setPhase (phase : Phase) (ts : OrdMap ℕ Transaction) (id : ℕ) : OrdMap ℕ Transaction :=
  match ts[id]? with
  | some t => ts.insert id { t with phase := phase }
  | none => ts

/-- How an attempt to publish ends. `syncFailed` is the version store's answer; `refused` is an engine
that finds no room for the batch, in its log or on the device, before it installs anything. A batch
that is refused after it was installed is a step of the machine `engine`. -/
inductive EngineOutcome
  | published | syncFailed | refused
  deriving DecidableEq, Repr

/-- `publish_drained` up to and including the engine call. Failed members are settled at once,
and a failed group is settled with every member's error. -/
def publishDrained (σ : State) (queue : List StagedCommit) (outcome : EngineOutcome) : State :=
  let b : Build := buildWave σ.db σ.statuses σ.versions queue
  let σ : State := { σ with
    versions := b.store
    transactions := b.failures.foldl (fun ts f => setPhase .active ts f.1) σ.transactions }
  if b.members.isEmpty then { σ with lane := .settled }
  else
    match outcome with
    | .published =>
      { σ with
        synced := b.store.nextId
        db := σ.db.commitGroup b.members
        history := (b.members.map (Member.commit σ.reads)).reverse ++ σ.history
        lane := .installed b.members }
    | _ =>
      { σ with
        transactions := b.members.foldl (fun ts m => setPhase .active ts m.staged.transaction)
          σ.transactions
        lane := .settled }

def publishPosition (σ : State) (wave : List Member) : State :=
  { σ with published := σ.db.csn, lane := .positioned wave }

def publishMirror (σ : State) (wave : List Member) : State :=
  { σ with
    mirror := wave.foldl (fun m w => m.insertAll w.treePuts) σ.mirror
    lane := .mirrored wave }

/-- Statuses and changes take the wave, and its members learn their outcome. -/
def publishStatuses (σ : State) (wave : List Member) : State :=
  { σ with
    statuses := σ.statuses.insertAll (wave.map fun m => (m.staged.transaction, m.assigned))
    changes := σ.changes.insertAll (wave.map fun m => (m.assigned, m.staged.change))
    transactions := wave.foldl (fun ts m => setPhase .done ts m.staged.transaction)
      σ.transactions
    lane := .settled }

def releaseLane (σ : State) : State := { σ with publishing := .empty, lane := .idle }

/-- `reserve_tree` up to the engine call and the status table, which it updates before any other
lock is released. A refused reservation leaves only its before-image in the version store. -/
def reserveTree (σ : State) (owner tree : ℕ) (outcome : EngineOutcome) : State × Result Unit :=
  match appendBeforeImage σ.versions (decodeCurrent σ.db.trees[tree]?) with
  | .error e => (σ, .error e)
  | .ok (undo, store) =>
    let record : CurrentRecord := ⟨owner, 0, undo, some treeReserved⟩
    let next := σ.db.csn + 1
    let change : Change := ⟨owner, σ.db.csn, {tree}, ∅⟩
    match outcome with
    | .published =>
      ({ σ with
          versions := store
          synced := store.nextId
          db := { σ.db with
            csn := next
            trees := σ.db.trees.insert tree record
            statuses := σ.db.statuses.insert owner next
            changes := σ.db.changes.insert next change }
          statuses := σ.statuses.insert owner next
          changes := σ.changes.insert next change
          history := ⟨next, owner, σ.db.csn, true, ∅,
            (∅ : OrdMap ℕ Bytes).insert tree treeReserved, []⟩ :: σ.history
          lane := .reserved owner tree record }, .ok ())
    | _ => ({ σ with versions := store }, .error .io)

def reserveMirror (σ : State) (owner tree : ℕ) (record : CurrentRecord) : State :=
  { σ with mirror := σ.mirror.insert tree record, lane := .reservedMirrored owner tree }

/-- The published position follows, and the creating transaction owns the tree. -/
def reservePublish (σ : State) (owner tree : ℕ) : State :=
  { σ with
    published := σ.db.csn
    lane := .idle
    transactions :=
      match σ.transactions[owner]? with
      | some t => σ.transactions.insert owner { t with created := insert tree t.created, phase := .active }
      | none => σ.transactions }

end OmenDb.Txn
