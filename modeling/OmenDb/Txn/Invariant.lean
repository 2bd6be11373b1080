import OmenDb.Txn.Collect
import OmenDb.Txn.Runtime
import OmenDb.Txn.Wave

/-! The invariant of the runtime. Each part is stated over the components it reads, so that a
step which leaves those components alone keeps the part by definition. While a wave is between
its installation and the status update its statuses count as resolved, although memory does not
hold them yet. -/
namespace OmenDb.Txn

namespace Lane

def wave : Lane → List Member
  | .installed w | .positioned w | .mirrored w => w
  | _ => []

def waveIds (lane : Lane) : List ℕ := lane.wave.map (·.staged.transaction)

def plan : Lane → Option GcPlan
  | .collected p | .rebuilt p => some p
  | _ => none

def prunable (lane : Lane) : Finset ℕ := (lane.plan.map (·.prunable)).getD ∅

/-- Whether the published position has caught up with the engine. -/
def caughtUp : Lane → Bool
  | .installed _ | .reserved _ _ _ | .reservedMirrored _ _ => false
  | _ => true

def taken : Lane → List StagedCommit
  | .drained q => q
  | _ => []

def reserving : Lane → Option (ℕ × ℕ)
  | .reserved owner tree _ | .reservedMirrored owner tree => some (owner, tree)
  | _ => none

def serves (lane : Lane) : List ℕ :=
  lane.taken.map (·.transaction) ++ lane.waveIds ++ (lane.reserving.map (·.1)).toList

end Lane

def resolved (statuses : Statuses) (wave : List Member) : Statuses :=
  statuses.insertAll (wave.map fun m => (m.staged.transaction, m.assigned))

/-- The snapshots that a present or future transaction may read at. -/
def Guarded (published : ℕ) (transactions : OrdMap ℕ Transaction) (s : ℕ) : Prop :=
  published ≤ s ∨ ∃ (x : ℕ) (t : Transaction), transactions[x]? = some t ∧ t.snapshot ≤ s

structure Sequence (history : List Commit) (csn published : ℕ) (caughtUp : Bool) : Prop where
  positive : ∀ c ∈ history, 0 < c.csn
  bounded : ∀ c ∈ history, c.csn ≤ csn
  sorted : history.Pairwise fun a b => b.csn < a.csn
  published_le : published ≤ csn
  caught_up : caughtUp = true → published = csn

structure Tables (db : Db) (statuses : Statuses) (versions : VersionStore) (guarded : ℕ → Prop)
    (history : List Commit) : Prop where
  data : dataFamily.Tracks db.data statuses versions guarded history db.csn
  trees : treeFamily.Tracks db.trees statuses versions guarded history db.csn

/-- The before-images that current records name are synced. -/
structure Durable (db : Db) (synced : ℕ) : Prop where
  data : ∀ (l : Loc) (r : CurrentRecord), db.data[l]? = some r →
    ∀ id, r.undoHead = some id → id < synced
  trees : ∀ (tree : ℕ) (r : CurrentRecord), db.trees[tree]? = some r →
    ∀ id, r.undoHead = some id → id < synced

/-- Compaction will find what the plan retains, and the tables it leaves track the history. -/
structure Pending (db : Db) (statuses : Statuses) (versions : VersionStore) (guarded : ℕ → Prop)
    (history : List Commit) (plan : GcPlan) : Prop where
  stored : ∀ id ∈ plan.retained, ∃ r, versions.records[id]? = some r
  tables : Tables db (statuses.eraseAll plan.prunable) (versions.retain plan.retained) guarded history

/-- Transaction identities are never reused, and an unfinished transaction has not committed. -/
structure Identities (transactions : OrdMap ℕ Transaction) (history : List Commit)
    (next published : ℕ) (waveIds : List ℕ) : Prop where
  positive : 0 < next
  own : ∀ (x : ℕ) (t : Transaction), transactions[x]? = some t →
    t.id = x ∧ 0 < x ∧ x < next ∧ t.snapshot ≤ published
  past : ∀ c ∈ history, 0 < c.transaction ∧ c.transaction < next
  fresh : ∀ (x : ℕ) (t : Transaction), transactions[x]? = some t → t.phase ≠ .done → x ∉ waveIds →
    ¬ Committed history x

def Implied (db : Db) (history : List Commit) : Prop :=
  ∀ c ∈ history, c.transaction ∈ db.statuses ∨
    ∃ w, db.allocator = some w ∧ c.transaction < w.nextTransaction

/-- The creator of a tree, or a later transaction, has committed a lifecycle for it. -/
def Opened (history : List Commit) (tree : ℕ) : Prop :=
  ∃ c ∈ history, c.reservation = false ∧ tree ∈ c.treeLifecycles

def ReservedBy (history : List Commit) (x tree : ℕ) : Prop :=
  ∃ c ∈ history, c.reservation = true ∧ c.transaction = x ∧ tree ∈ c.treeLifecycles

structure Commit.Shape (c : Commit) : Prop where
  reservation : c.reservation = true → c.writes = ∅ ∧
    ∀ (tree : ℕ) (v : Bytes), c.treeLifecycles[tree]? = some v → v = treeReserved
  commit : c.reservation = false →
    ∀ (tree : ℕ) (v : Bytes), c.treeLifecycles[tree]? = some v → v = treeLive ∨ v = treeDropped

/-- Which trees a transaction may touch: those it reserved, which nobody else knows yet, and
those that some commit has opened. -/
structure Ownership (transactions : OrdMap ℕ Transaction) (history : List Commit) (nextTree : ℕ)
    (waveIds : List ℕ) (reserving : Option (ℕ × ℕ)) : Prop where
  shape : ∀ c ∈ history, c.Shape
  below : ∀ c ∈ history, ∀ tree, tree ∈ c.treeLifecycles → tree < nextTree
  unique : ∀ x y tree, ReservedBy history x tree → ReservedBy history y tree → x = y
  opened : ∀ c ∈ history, ∀ l, l ∈ c.writes → Opened history l.tree
  created : ∀ (x : ℕ) (t : Transaction), transactions[x]? = some t → ∀ tree ∈ t.created,
    ReservedBy history x tree
  unopened : ∀ (x : ℕ) (t : Transaction), transactions[x]? = some t → t.phase ≠ .done →
    x ∉ waveIds → ∀ tree ∈ t.created, ¬ Opened history tree
  dropped : ∀ (x : ℕ) (t : Transaction), transactions[x]? = some t → ∀ tree ∈ t.dropped,
    tree ∈ t.created ∨ Opened history tree
  writes : ∀ (x : ℕ) (t : Transaction), transactions[x]? = some t → ∀ l, l ∈ t.writes →
    l.tree ∈ t.created ∨ Opened history l.tree
  states : ∀ (x : ℕ) (t : Transaction), transactions[x]? = some t →
    ∀ tree : ℕ, t.treeStates[tree]? = some true → Opened history tree
  reserving : ∀ x tree, reserving = some (x, tree) →
    ReservedBy history x tree ∧ ¬ Opened history tree

/-- A lifecycle record whose chain shows a tree live only if the tree was opened. -/
structure LiveSourced (versions : VersionStore) (history : List Commit) (tree : ℕ)
    (record : CurrentRecord) : Prop where
  bounded : ∀ id, record.undoHead = some id → id < versions.nextId
  live : ∀ e ∈ versions.chain record, e.value = some treeLive → Opened history tree

/-- The lifecycle records the lane has installed and the mirror may not hold yet. -/
def Lane.treePuts : Lane → List (ℕ × CurrentRecord)
  | .installed w | .positioned w | .mirrored w => w.flatMap (·.treePuts)
  | .reserved _ tree record => [(tree, record)]
  | _ => []

/-- Every lifecycle record a visibility check may resolve is sourced. -/
structure Lifecycles (db : Db) (mirror : OrdMap ℕ CurrentRecord)
    (lookups : OrdMap ℕ (ℕ × CurrentRecord)) (installed : List (ℕ × CurrentRecord))
    (versions : VersionStore) (history : List Commit) : Prop where
  trees : ∀ (tree : ℕ) (r : CurrentRecord), db.trees[tree]? = some r →
    LiveSourced versions history tree r
  mirror : ∀ (tree : ℕ) (r : CurrentRecord), mirror[tree]? = some r →
    LiveSourced versions history tree r
  lookups : ∀ (x tree : ℕ) (r : CurrentRecord), lookups[x]? = some (tree, r) →
    LiveSourced versions history tree r
  installed : ∀ p ∈ installed, LiveSourced versions history p.1 p.2

/-- The keys and trees that later transactions are checked against. -/
def StagedCommit.index (s : StagedCommit) : Unpublished :=
  ⟨s.writeKeys, s.changedTrees ∪ s.writeKeys.image (·.tree)⟩

/-- A staged commit was checked against another one ahead of it. -/
def Before (transactions : OrdMap ℕ Transaction) (a b : StagedCommit) : Prop :=
  ∀ t, transactions[b.transaction]? = some t → Admits t a.index

structure Queues (transactions : OrdMap ℕ Transaction) (lane : Lane) (queue : List StagedCommit)
    (prepare : Unpublished) (lookups : OrdMap ℕ (ℕ × CurrentRecord)) : Prop where
  waiting : ∀ x ∈ lane.serves ++ queue.map (·.transaction),
    ∃ t, transactions[x]? = some t ∧ t.phase = .waiting
  distinct : (lane.serves ++ queue.map (·.transaction)).Nodup
  staged : ∀ s ∈ lane.taken ++ lane.wave.map (·.staged) ++ queue,
    ∃ t, transactions[s.transaction]? = some t ∧ s = stagedOf t
  index : ∀ s ∈ queue, s.index.keys ⊆ prepare.keys ∧ s.index.trees ⊆ prepare.trees
  taken : lane.taken.Pairwise (Before transactions)
  queue : queue.Pairwise (Before transactions)
  lookups : ∀ (x : ℕ) (p : ℕ × CurrentRecord), lookups[x]? = some p →
    ∃ t, transactions[x]? = some t ∧ t.phase = .active

theorem Queues.relane {ts : OrdMap ℕ Transaction} {lane lane' : Lane} {queue : List StagedCommit}
    {prepare : Unpublished} {lookups : OrdMap ℕ (ℕ × CurrentRecord)} (h : Queues ts lane queue prepare lookups)
    (hserves : lane'.serves = lane.serves) (htaken : lane'.taken = lane.taken) (hwave : lane'.wave = lane.wave) :
    Queues ts lane' queue prepare lookups :=
  ⟨hserves ▸ h.waiting, hserves ▸ h.distinct, htaken ▸ hwave ▸ h.staged, h.index, htaken ▸ h.taken, h.queue, h.lookups⟩

def Transaction.depends (t : Transaction) (l : Loc) : Prop :=
  l ∈ t.pointReads ∨ l ∈ t.writes ∨ ∃ r ∈ t.readRanges, r.covers l = true

/-- A read is registered for validation and agrees with the store at the snapshot. -/
structure ReadEvent.Sound (history : List Commit) (t : Transaction) (e : ReadEvent) : Prop where
  registered : ∀ l, e.read.touches l → e.own[l]? = none → t.depends l
  answer : e.read.eval (storeAt t.snapshot history) e.own = e.answer

structure Registered (transactions : OrdMap ℕ Transaction) (reads : OrdMap ℕ (List ReadEvent))
    (history : List Commit) (next : ℕ) : Prop where
  event : ∀ (x : ℕ) (t : Transaction), transactions[x]? = some t → ∀ e ∈ (reads[x]?).getD [],
    e.Sound history t
  cursor : ∀ (x : ℕ) (t : Transaction) (c : Cursor) (p : Bytes), transactions[x]? = some t →
    t.cursor = some c → c.position = some p →
    ∃ start, (c.tree, start, c.stop) ∈ t.readRanges ∧ start ≤ p
  recent : ∀ x, next ≤ x → reads[x]? = none

/-- Change records cover every commit that a live snapshot precedes. -/
def Recorded (db : Db) (published : ℕ) (transactions : OrdMap ℕ Transaction)
    (history : List Commit) : Prop :=
  ∀ c ∈ history, (published < c.csn ∨
      ∃ (x : ℕ) (t : Transaction), transactions[x]? = some t ∧ t.snapshot < c.csn) →
    ∃ ch, db.changes[c.csn]? = some ch ∧ ∀ l, l ∈ c.writes → l ∈ ch.writes

/-- While a change collection is under way, a live snapshot is at or above the sampled one or was
taken at the present position. -/
def Sampled (σ : State) : Prop :=
  ∀ oldest, σ.lane = .sampled oldest → ∀ (x : ℕ) (t : Transaction), σ.transactions[x]? = some t →
    σ.published ≤ t.snapshot ∨ ∃ m, oldest = some m ∧ m ≤ t.snapshot

/-- Every committed read is the one its commit would have made in sequence order. -/
def Serial (history : List Commit) : Prop :=
  ∀ c ∈ history, ∀ e ∈ c.reads, e.read.eval (storeAt (c.csn - 1) history) e.own = e.answer

structure Inv (σ : State) : Prop where
  sequence : Sequence σ.history σ.db.csn σ.published σ.lane.caughtUp
  statuses : σ.db.statuses = (resolved σ.statuses σ.lane.wave).eraseAll σ.lane.prunable
  tables : Tables σ.db (resolved σ.statuses σ.lane.wave) σ.versions
    (Guarded σ.published σ.transactions) σ.history
  pending : ∀ plan, σ.lane.plan = some plan → Pending σ.db σ.statuses σ.versions
    (Guarded σ.published σ.transactions) σ.history plan
  durable : Durable σ.db σ.synced
  identities : Identities σ.transactions σ.history σ.nextTransaction σ.published σ.lane.waveIds
  implied : Implied σ.db σ.history
  ownership : Ownership σ.transactions σ.history σ.nextTree σ.lane.waveIds σ.lane.reserving
  lifecycles : Lifecycles σ.db σ.mirror σ.lookups σ.lane.treePuts σ.versions σ.history
  queues : Queues σ.transactions σ.lane σ.queue σ.prepare σ.lookups
  registered : Registered σ.transactions σ.reads σ.history σ.nextTransaction
  recorded : Recorded σ.db σ.published σ.transactions σ.history
  serial : Serial σ.history

end OmenDb.Txn
