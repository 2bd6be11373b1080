import OmenDb.Txn.Reads
import OmenDb.Txn.History
import OmenDb.Txn.Maintenance

/-! The runtime as a transition system at mutex-critical-section granularity. An action is one
critical section, or one call under the database lock; a call that reports an error is an action
too and leaves what the code leaves. `get`, `scan` and `cursor` take the database lock twice, for the
tree and for its contents; they are one action, since a snapshot reads the same in between. -/
namespace OmenDb.Txn

inductive Action
  | begin
  | cloneLifecycle (id tree : ℕ)
  | resolveLifecycle (id : ℕ)
  | put (id tree : ℕ) (key value : Bytes)
  | delete (id tree : ℕ) (key : Bytes)
  | dropTree (id tree : ℕ)
  | createTree (id : ℕ) (outcome : EngineOutcome)
  | reserveMirror
  | reservePublish
  | get (id tree : ℕ) (key : Bytes)
  | scan (id tree : ℕ) (start : Bytes) (stop : Option Bytes) (limit : ℕ)
  | openCursor (id tree : ℕ) (start : Bytes) (stop : Option Bytes)
  | advance (id : ℕ)
  | stage (id : ℕ)
  | finish (id : ℕ)
  | drain
  | publish (outcome : EngineOutcome)
  | publishPosition
  | publishMirror
  | publishStatuses
  | release
  | gcCollect (outcome : EngineOutcome)
  | gcMirror
  | gcCompact
  | gcSample
  | gcChanges
  | gcRefused
  | acquireLease (name : Bytes) (start : ℕ)
  | advanceLease (name : Bytes) (csn : ℕ)
  | releaseLease (name : Bytes)
  | crash (durable : ℕ)
  deriving DecidableEq, Repr

/-- `begin`: the identity is allocated first, the snapshot is the published position. The
registry of live snapshots stays locked from the sampling of that position to the registration, so
nobody sees the registry in between. -/
def begin (σ : State) : State :=
  { σ with
    nextTransaction := σ.nextTransaction + 1
    transactions := σ.transactions.insert σ.nextTransaction
      { id := σ.nextTransaction, snapshot := σ.published, writes := ∅, created := ∅, dropped := ∅,
        readRanges := ∅, pointReads := ∅, treeStates := ∅, cursor := none, phase := .active } }

/-- The transaction behind a handle that may issue its next call. -/
def ready (σ : State) (id : ℕ) : Option Transaction :=
  match σ.transactions[id]?, σ.lookups[id]? with
  | some t, none => if t.phase = .active then some t else none
  | _, _ => none

def setTxn (σ : State) (t : Transaction) : State :=
  { σ with transactions := σ.transactions.insert t.id t }

/-- First half of the cached `tree_visible`: clone the mirror's record under the mirror lock. -/
def cloneLifecycle (σ : State) (t : Transaction) (tree : ℕ) : State × Result Unit :=
  match σ.mirror[tree]? with
  | none => (σ, .error (.treeNotFound tree))
  | some record => ({ σ with lookups := σ.lookups.insert t.id (tree, record) }, .ok ())

/-- What the second half of `tree_visible` answers for a cloned record. -/
def lifecycleVisible (σ : State) (t : Transaction) (record : CurrentRecord) : Result Bool := do
  let value ← visibleValue σ record t.snapshot
  return decide (value = some treeLive)

def resolveLifecycle (σ : State) (t : Transaction) (tree : ℕ) (record : CurrentRecord) :
    State × Result Bool :=
  let σ' := { σ with lookups := σ.lookups.erase t.id }
  match lifecycleVisible σ t record with
  | .error e => (σ', .error e)
  | .ok visible =>
    (setTxn σ' { t with treeStates := t.treeStates.insert tree visible }, .ok visible)

/-- `check_tree_for_write` once the visibility answer is cached; `none` while it is not. -/
def checkTreeForWrite (t : Transaction) (tree : ℕ) : Option (Result Unit) :=
  if tree ∈ t.dropped then some (.error (.treeNotFound tree))
  else if tree ∈ t.created then some (.ok ())
  else (t.treeStates[tree]?).map fun visible =>
    if visible then .ok () else .error (.treeNotFound tree)

/-- `put` and `delete`. -/
def write (σ : State) (t : Transaction) (l : Loc) (value : Option Bytes) : Option State :=
  (checkTreeForWrite t l.tree).map fun
    | .ok () => setTxn σ { t with writes := t.writes.insert l value }
    | .error _ => σ

def dropTree (σ : State) (t : Transaction) (tree : ℕ) : Option State :=
  if tree ∈ t.created then some (setTxn σ { t with dropped := insert tree t.dropped })
  else (t.treeStates[tree]?).map fun visible =>
    if visible then setTxn σ { t with dropped := insert tree t.dropped } else σ

/-- `create_tree`: the identity is spent even when the reservation fails. -/
def createTree (σ : State) (t : Transaction) (outcome : EngineOutcome) : State :=
  let tree := σ.nextTree
  let σ : State := { σ with nextTree := σ.nextTree + 1 }
  match reserveTree σ t.id tree outcome with
  | (σ, .error _) => σ
  | (σ, .ok ()) => setTxn σ { t with phase := .waiting }

def logRead (σ : State) (t : Transaction) (read : Read) (answer : Answer) : State :=
  let event : ReadEvent := ⟨read, t.writes, t.created, answer⟩
  { σ with reads := σ.reads.insert t.id (event :: (σ.reads[t.id]?).getD []) }

def getStep (σ : State) (t : Transaction) (tree : ℕ) (key : Bytes) : State :=
  match get σ t tree key with
  | (t', .ok v) => logRead (setTxn σ t') t' (.get tree key) (.value v)
  | (t', .error _) => setTxn σ t'

def scanStep (σ : State) (t : Transaction) (tree : ℕ) (start : Bytes) (stop : Option Bytes)
    (limit : ℕ) : State :=
  match scan σ t tree start stop limit with
  | (t', .ok l) => logRead (setTxn σ t') t' (.scan tree start stop limit) (.entries l)
  | (t', .error _) => setTxn σ t'

def cursorStep (σ : State) (t : Transaction) (tree : ℕ) (start : Bytes) (stop : Option Bytes) : State :=
  match openCursor σ t tree start stop with
  | .ok t' => setTxn σ t'
  | .error _ => σ

def advanceStep (σ : State) (t : Transaction) (c : Cursor) : State :=
  match c.position, advance σ t c with
  | some position, .ok (entry, position') =>
    logRead (setTxn σ { t with cursor := some { c with position := position' } }) t
      (.next c.tree position c.stop) (.entries entry.toList)
  | _, _ => σ

/-- `is_read_only`. -/
def Transaction.readOnly (t : Transaction) : Bool :=
  t.writes.isEmpty && decide (t.created = ∅) && decide (t.dropped = ∅)

/-- Release the snapshot of a transaction that aborted, committed, or had nothing to commit. -/
def finish (σ : State) (t : Transaction) : Option State :=
  if t.phase ≠ .waiting ∧ (σ.lookups[t.id]?).isNone then
    some { σ with
      transactions := σ.transactions.erase t.id
      reads := σ.reads.erase t.id }
  else none

def step (σ : State) : Action → Option State
  | .begin => some (begin σ)
  | .cloneLifecycle id tree => do
    let t ← ready σ id
    if (t.treeStates[tree]?).isNone then some (cloneLifecycle σ t tree).1 else none
  | .resolveLifecycle id => do
    let t ← σ.transactions[id]?
    let (tree, record) ← σ.lookups[id]?
    if σ.lane.statusesFree then some (resolveLifecycle σ t tree record).1 else none
  | .put id tree key value => do write σ (← ready σ id) ⟨tree, key⟩ (some value)
  | .delete id tree key => do write σ (← ready σ id) ⟨tree, key⟩ none
  | .dropTree id tree => do dropTree σ (← ready σ id) tree
  | .createTree id outcome => do
    let t ← ready σ id
    match σ.lane with
    | .idle => some (createTree σ t outcome)
    | _ => none
  | .reserveMirror =>
    match σ.lane with
    | .reserved owner tree record => some (reserveMirror σ owner tree record)
    | _ => none
  | .reservePublish =>
    match σ.lane with
    | .reservedMirrored owner tree => some (reservePublish σ owner tree)
    | _ => none
  | .get id tree key => do
    let t ← ready σ id
    if σ.lane.dbFree then some (getStep σ t tree key) else none
  | .scan id tree start stop limit => do
    let t ← ready σ id
    if σ.lane.dbFree then some (scanStep σ t tree start stop limit) else none
  | .openCursor id tree start stop => do
    let t ← ready σ id
    if σ.lane.dbFree then some (cursorStep σ t tree start stop) else none
  | .advance id => do
    let t ← ready σ id
    let c ← t.cursor
    if σ.lane.dbFree then some (advanceStep σ t c) else none
  | .stage id => do
    let t ← ready σ id
    if t.readOnly then none else some (stageCommit σ t).1
  | .finish id => do finish σ (← σ.transactions[id]?)
  | .drain =>
    match σ.lane with
    | .idle => some (takeStaged σ)
    | _ => none
  | .publish outcome =>
    match σ.lane with
    | .drained queue => some (publishDrained σ queue outcome)
    | _ => none
  | .publishPosition =>
    match σ.lane with
    | .installed wave => some (publishPosition σ wave)
    | _ => none
  | .publishMirror =>
    match σ.lane with
    | .positioned wave => some (publishMirror σ wave)
    | _ => none
  | .publishStatuses =>
    match σ.lane with
    | .mirrored wave => some (publishStatuses σ wave)
    | _ => none
  | .release =>
    match σ.lane with
    | .settled => some (releaseLane σ)
    | _ => none
  | .gcCollect outcome =>
    match σ.lane with
    | .idle => some (gcCollect σ outcome).1
    | _ => none
  | .gcMirror =>
    match σ.lane with
    | .collected plan => some (gcMirror σ plan)
    | _ => none
  | .gcCompact =>
    match σ.lane with
    | .rebuilt plan => (gcCompact σ plan).toOption
    | _ => none
  | .gcSample =>
    match σ.lane with
    | .idle => some (gcSample σ)
    | _ => none
  | .gcChanges =>
    match σ.lane with
    | .sampled oldest => some (gcChanges σ oldest)
    | _ => none
  | .gcRefused =>
    match σ.lane with
    | .sampled _ => some (gcRefused σ)
    | _ => none
  | .acquireLease name start =>
    match σ.lane with
    | .idle => (acquireChangeLease σ name start).toOption
    | _ => none
  | .advanceLease name csn =>
    match σ.lane with
    | .idle => (advanceLease σ name csn).toOption
    | _ => none
  | .releaseLease name =>
    match σ.lane with
    | .idle => (releaseLease σ name).toOption
    | _ => none
  | .crash durable => if σ.synced ≤ durable then (reopen σ durable).toOption else none

/-- The transactional runtime, from a newly created database. -/
def runtime : Machine State Action where
  init := fun σ => σ = State.create
  step := step

end OmenDb.Txn
