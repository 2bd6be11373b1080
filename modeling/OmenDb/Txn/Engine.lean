import OmenDb.Txn.CursorRun
import OmenDb.Txn.References

/-! The runtime over an engine that can refuse a batch late. The engine installs a batch in its trees
before it asks for the space of the publication; when that is refused the caller gets an error, the
records stay where every read finds them, and only a later publication makes them durable. A batch
that gives the tree a new root is left out: with nothing else pending, it makes every later call fail. -/
namespace OmenDb.Txn

variable {σ : State} {x : ℕ} {t : Transaction}

/-- `state.db` is what the engine reads and writes. -/
structure Node where
  state : State
  /-- What a crash comes back to, if that is not `state.db`. -/
  durable : Option Db
  /-- The commit sequence number that publishing the pending mutations will reach. -/
  pending : Option ℕ

def Node.create : Node := ⟨State.create, none, none⟩

inductive EngineAction
  | call (a : Action)
  /-- The engine call of the action installs its batch and is then refused. -/
  | leave (a : Action)
  /-- The flush with which a maintenance batch begins publishes what is pending. -/
  | flush
  deriving DecidableEq, Repr

/-- What the runtime makes of an engine call that fails. -/
def refuse (σ : State) : Action → Option State
  | .publish _ => step σ (.publish .refused)
  | .createTree id _ => step σ (.createTree id .refused)
  | .gcCollect _ => step σ (.gcCollect .refused)
  | .gcChanges => step σ .gcRefused
  | .acquireLease _ _ | .advanceLease _ _ | .releaseLease _ => some σ
  | _ => none

def Action.accepted : Action → Action
  | .publish _ => .publish .published
  | .createTree id _ => .createTree id .published
  | .gcCollect _ => .gcCollect .published
  | a => a

/-- Whether the action makes the engine publish something. A collection with nothing to rewrite or
prune skips its batch. -/
def publishes (σ : State) : Action → Bool
  | .publish .published => match σ.lane with
    | .drained queue => !(buildWave σ.db σ.statuses σ.versions queue).members.isEmpty
    | _ => false
  | .createTree _ .published => (appendBeforeImage σ.versions (decodeCurrent σ.db.trees[σ.nextTree]?)).isOk
  | .gcCollect .published => (gcPlan σ).toOption.any GcPlan.writes
  | .gcChanges => match σ.lane with
    | .sampled oldest => (changeFloor σ oldest).any fun floor => σ.changes.keys.any (· < floor)
    | _ => false
  | .acquireLease name start => (σ.leases[name]?).all (· < start)
  | .advanceLease name csn => (σ.leases[name]?).any (· < csn)
  | .releaseLease name => (σ.leases[name]?).isSome
  | _ => false

/-- A call that leaves nothing behind. With mutations pending the engine refuses to commit, and
maintenance flushes them first. -/
def Node.call (n : Node) : Action → Option Node
  | .crash durable =>
    (Txn.step { n.state with db := n.durable.getD n.state.db } (.crash durable)).map (⟨·, none, none⟩)
  | a =>
    if n.pending.isSome && publishes n.state a then none
    else (Txn.step n.state a).map (⟨·, if publishes n.state a then none else n.durable, n.pending⟩)

def Node.leave (n : Node) (a : Action) : Option Node :=
  if n.pending.isNone && publishes n.state a.accepted then do
    let refused ← refuse n.state a
    let accepted ← Txn.step n.state a.accepted
    return {
      state := { refused with db := { accepted.db with csn := n.state.db.csn } }
      durable := some (n.durable.getD n.state.db)
      pending := if accepted.db.csn = n.state.db.csn then none else some accepted.db.csn }
  else none

def Node.flush (n : Node) : Option Node := do
  let csn ← n.pending
  match n.state.lane with
  | .idle | .sampled _ => return ⟨{ n.state with db := { n.state.db with csn := csn } }, none, none⟩
  | _ => none

def Node.step (n : Node) : EngineAction → Option Node
  | .call a => n.call a
  | .leave a => n.leave a
  | .flush => n.flush

def engine : Machine Node EngineAction where
  init := fun n => n = Node.create
  step := Node.step

/-- No engine call is refused after it has installed its batch. -/
def EngineAction.certain : EngineAction → Bool
  | .leave _ => false
  | _ => true

theorem Node.call_settled {n n' : Node} {a : Action} (hdurable : n.durable = none) (hpending : n.pending = none)
    (h : n.call a = some n') : ∃ σ, Txn.step n.state a = some σ ∧ n' = ⟨σ, none, none⟩ := by
  unfold Node.call at h
  split at h
  · obtain ⟨σ, hσ, rfl⟩ := Option.map_eq_some_iff.mp h
    exact ⟨σ, by simpa [hdurable] using hσ, rfl⟩
  · rw [hpending, hdurable, Option.isSome_none, Bool.false_and, if_neg (by decide)] at h
    obtain ⟨σ, hσ, rfl⟩ := Option.map_eq_some_iff.mp h
    exact ⟨σ, hσ, by rw [ite_self]⟩

theorem reachable_of_certain {n : Node} (h : engine.Reach (fun _ a => a.certain = true) n) :
    runtime.Reachable n.state ∧ n.durable = none ∧ n.pending = none := by
  induction h with
  | init hi =>
    obtain rfl : _ = Node.create := hi
    exact ⟨.init rfl, rfl, rfl⟩
  | @step n n' a _ hcertain hs ih =>
    obtain ⟨hreach, hdurable, hpending⟩ := ih
    cases a with
    | leave a => cases hcertain
    | flush =>
      change n.flush = some n' at hs
      rw [Node.flush, hpending] at hs
      cases hs
    | call a =>
      obtain ⟨σ, hσ, rfl⟩ := n.call_settled hdurable hpending hs
      exact ⟨.step a hreach trivial hσ, rfl, rfl⟩

/-- A reader opens a cursor beside a transaction that overwrites the only key. -/
def readerBesideWriter : List EngineAction := List.flatten
  [openTree.map .call, List.map .call
    [.begin, .begin, .openCursor 2 1 [] none, .cloneLifecycle 3 1, .resolveLifecycle 3, .put 3 1 [1] [9],
      .stage 3, .drain]]

def refusedCommit : List EngineAction := [.leave (.publish .published), .call .release]

def collection : List EngineAction := List.map .call [.gcCollect .published, .gcMirror, .gcCompact]

/-- A collection whose batch is refused after it was installed, with a reader gone by then: the next
collection finds nothing to rewrite, skips its batch and drops the old version, which the record that
a crash brings back still names. -/
example : ((engine.run Node.create (List.flatten
    [openTree.map .call, collection, [.call .begin], (rewriteKey 3 [8]).map .call, collection, [.call (.finish 2)],
      [.leave (.gcCollect .published)], collection, [.call (.crash 100)]])).bind fun n =>
    (n.state.db.data[(⟨1, [1]⟩ : Loc)]?).map fun r =>
      (r.undoHead.isSome, r.undoHead.all fun id => (n.state.versions.records[id]?).isSome)) =
    some (true, false) := by
  decide +kernel

end OmenDb.Txn
