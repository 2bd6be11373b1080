import OmenDb.Txn.Local

/-! What a step of the runtime does. The step function is inverted once; most of its actions work
on transactions, the queue or the lane and leave every table alone, so an invariant about the
tables has one case per action that writes them. -/
namespace OmenDb.Txn

variable {σ σ' : State}

/-- What an enabled action does, with the guards under which it is enabled. -/
inductive Moves (σ : State) : Action → State → Prop
  | begin : Moves σ .begin (begin σ)
  | cloneLifecycle {id tree : ℕ} {t : Transaction} (hr : ready σ id = some t)
      (hn : t.treeStates[tree]? = none) :
      Moves σ (.cloneLifecycle id tree) (cloneLifecycle σ t tree).1
  | resolveLifecycle {id tree : ℕ} {t : Transaction} {record : CurrentRecord}
      (ht : σ.transactions[id]? = some t) (hl : σ.lookups[id]? = some (tree, record))
      (hf : σ.lane.statusesFree = true) :
      Moves σ (.resolveLifecycle id) (resolveLifecycle σ t tree record).1
  | put {id tree : ℕ} {key value : Bytes} {t : Transaction} {σ' : State}
      (hr : ready σ id = some t) (hw : write σ t ⟨tree, key⟩ (some value) = some σ') :
      Moves σ (.put id tree key value) σ'
  | delete {id tree : ℕ} {key : Bytes} {t : Transaction} {σ' : State}
      (hr : ready σ id = some t) (hw : write σ t ⟨tree, key⟩ none = some σ') :
      Moves σ (.delete id tree key) σ'
  | dropTree {id tree : ℕ} {t : Transaction} {σ' : State}
      (hr : ready σ id = some t) (hd : dropTree σ t tree = some σ') :
      Moves σ (.dropTree id tree) σ'
  | createTree {id : ℕ} {outcome : EngineOutcome} {t : Transaction}
      (hr : ready σ id = some t) (hl : σ.lane = .idle) :
      Moves σ (.createTree id outcome) (createTree σ t outcome)
  | reserveMirror {owner tree : ℕ} {record : CurrentRecord}
      (hl : σ.lane = .reserved owner tree record) :
      Moves σ .reserveMirror (reserveMirror σ owner tree record)
  | reservePublish {owner tree : ℕ} (hl : σ.lane = .reservedMirrored owner tree) :
      Moves σ .reservePublish (reservePublish σ owner tree)
  | get {id tree : ℕ} {key : Bytes} {t : Transaction}
      (hr : ready σ id = some t) (hd : σ.lane.dbFree = true) :
      Moves σ (.get id tree key) (getStep σ t tree key)
  | scan {id tree limit : ℕ} {start : Bytes} {stop : Option Bytes} {t : Transaction}
      (hr : ready σ id = some t) (hd : σ.lane.dbFree = true) :
      Moves σ (.scan id tree start stop limit) (scanStep σ t tree start stop limit)
  | openCursor {id tree : ℕ} {start : Bytes} {stop : Option Bytes} {t : Transaction}
      (hr : ready σ id = some t) (hd : σ.lane.dbFree = true) :
      Moves σ (.openCursor id tree start stop) (cursorStep σ t tree start stop)
  | advance {id : ℕ} {t : Transaction} {c : Cursor}
      (hr : ready σ id = some t) (hc : t.cursor = some c) (hd : σ.lane.dbFree = true) :
      Moves σ (.advance id) (advanceStep σ t c)
  | stage {id : ℕ} {t : Transaction} (hr : ready σ id = some t) (hw : t.readOnly = false) :
      Moves σ (.stage id) (stageCommit σ t).1
  | finish {id : ℕ} {t : Transaction} {σ' : State} (ht : σ.transactions[id]? = some t)
      (hf : finish σ t = some σ') : Moves σ (.finish id) σ'
  | drain (hl : σ.lane = .idle) : Moves σ .drain (takeStaged σ)
  | publish {outcome : EngineOutcome} {queue : List StagedCommit} (hl : σ.lane = .drained queue) :
      Moves σ (.publish outcome) (publishDrained σ queue outcome)
  | publishPosition {wave : List Member} (hl : σ.lane = .installed wave) :
      Moves σ .publishPosition (publishPosition σ wave)
  | publishMirror {wave : List Member} (hl : σ.lane = .positioned wave) :
      Moves σ .publishMirror (publishMirror σ wave)
  | publishStatuses {wave : List Member} (hl : σ.lane = .mirrored wave) :
      Moves σ .publishStatuses (publishStatuses σ wave)
  | release (hl : σ.lane = .settled) : Moves σ .release (releaseLane σ)
  | gcCollect {outcome : EngineOutcome} (hl : σ.lane = .idle) :
      Moves σ (.gcCollect outcome) (gcCollect σ outcome).1
  | gcMirror {plan : GcPlan} (hl : σ.lane = .collected plan) :
      Moves σ .gcMirror (gcMirror σ plan)
  | gcCompact {plan : GcPlan} {σ' : State} (hl : σ.lane = .rebuilt plan)
      (hs : gcCompact σ plan = .ok σ') : Moves σ .gcCompact σ'
  | gcSample (hl : σ.lane = .idle) : Moves σ .gcSample (gcSample σ)
  | gcChanges {oldest : Option ℕ} (hl : σ.lane = .sampled oldest) :
      Moves σ .gcChanges (gcChanges σ oldest)
  | gcRefused {oldest : Option ℕ} (hl : σ.lane = .sampled oldest) : Moves σ .gcRefused (gcRefused σ)
  | acquireLease {name : Bytes} {start : ℕ} {σ' : State} (hl : σ.lane = .idle)
      (hs : acquireChangeLease σ name start = .ok σ') : Moves σ (.acquireLease name start) σ'
  | advanceLease {name : Bytes} {csn : ℕ} {σ' : State} (hl : σ.lane = .idle)
      (hs : advanceLease σ name csn = .ok σ') : Moves σ (.advanceLease name csn) σ'
  | releaseLease {name : Bytes} {σ' : State} (hl : σ.lane = .idle)
      (hs : releaseLease σ name = .ok σ') : Moves σ (.releaseLease name) σ'
  | crash {durable : ℕ} {σ' : State} (hd : σ.synced ≤ durable)
      (hs : reopen σ durable = .ok σ') : Moves σ (.crash durable) σ'

theorem Result.toOption_eq_some {α : Type} {r : Result α} {a : α} (h : r.toOption = some a) :
    r = .ok a := by
  cases r with
  | error e => cases h
  | ok b => cases h; rfl

variable {a : Action} {name start : Bytes} {t : Transaction} {x tree : ℕ} {stop : Option Bytes}

theorem step_moves (h : step σ a = some σ') : Moves σ a σ' := by
  cases a with
  | begin => cases h; exact .begin
  | cloneLifecycle id tree =>
    obtain ⟨t, hr, h⟩ := Option.bind_eq_some_iff.mp h
    split at h
    · next hn => cases h; exact .cloneLifecycle hr (Option.isNone_iff_eq_none.mp hn)
    · cases h
  | resolveLifecycle id =>
    obtain ⟨t, ht, h⟩ := Option.bind_eq_some_iff.mp h
    obtain ⟨⟨tree, record⟩, hl, h⟩ := Option.bind_eq_some_iff.mp h
    dsimp only at h
    split at h
    · next hf => cases h; exact .resolveLifecycle ht hl hf
    · cases h
  | put _ _ _ _ | delete _ _ _ | dropTree _ _ =>
    obtain ⟨t, hr, h⟩ := Option.bind_eq_some_iff.mp h
    constructor
    · exact hr
    · exact h
  | createTree _ _ | get _ _ _ | scan _ _ _ _ _ | openCursor _ _ _ _ =>
    obtain ⟨t, hr, h⟩ := Option.bind_eq_some_iff.mp h
    split at h
    · next hfree =>
      cases h
      constructor
      · exact hr
      · exact hfree
    · cases h
  | advance id =>
    obtain ⟨t, hr, h⟩ := Option.bind_eq_some_iff.mp h
    obtain ⟨c, hc, h⟩ := Option.bind_eq_some_iff.mp h
    split at h
    · next hd => cases h; exact .advance hr hc hd
    · cases h
  | stage id =>
    obtain ⟨t, hr, h⟩ := Option.bind_eq_some_iff.mp h
    split at h
    · cases h
    · next hw => cases h; exact .stage hr (by simpa using hw)
  | finish id =>
    obtain ⟨t, ht, h⟩ := Option.bind_eq_some_iff.mp h
    exact .finish ht h
  -- a step of the lane asks for its place only
  | reserveMirror | reservePublish | drain | publish _ | publishPosition | publishMirror | publishStatuses
  | release | gcCollect _ | gcMirror | gcSample | gcChanges | gcRefused =>
    simp only [step] at h
    split at h
    · next hl =>
      cases h
      constructor
      exact hl
    · cases h
  | gcCompact | acquireLease _ _ | advanceLease _ _ | releaseLease _ | crash _ =>
    simp only [step] at h
    split at h
    · next hl =>
      constructor
      · exact hl
      · exact Result.toOption_eq_some h
    · cases h

/-- The snapshots of a transaction table are among those of another, or newly taken. -/
def SnapshotsFrom (σ : State) (ts : OrdMap ℕ Transaction) : Prop :=
  ∀ (x : ℕ) (t' : Transaction), ts[x]? = some t' →
    t'.snapshot = σ.published ∨
      ∃ (y : ℕ) (t : Transaction), σ.transactions[y]? = some t ∧ t.snapshot = t'.snapshot

theorem SnapshotsFrom.refl : SnapshotsFrom σ σ.transactions := fun x t h => .inr ⟨x, t, h, rfl⟩

theorem SnapshotsFrom.insert {x y : ℕ} {t t' : Transaction} (ht : σ.transactions[x]? = some t)
    (hs : t'.snapshot = t.snapshot) : SnapshotsFrom σ (σ.transactions.insert y t') := by
  intro z u hu
  rw [OrdMap.get_insert] at hu
  split at hu
  · cases hu; exact .inr ⟨x, t, ht, hs.symm⟩
  · exact .inr ⟨z, u, hu, rfl⟩

/-- What the tables and files hold, and the lane's unfinished work on them. -/
structure Storage where
  db : Db
  versions : VersionStore
  synced : ℕ
  statuses : Statuses
  changes : OrdMap ℕ Change
  leases : OrdMap Bytes ℕ
  history : List Commit
  wave : List Member
  plan : Option GcPlan

@[simps]
def State.storage (σ : State) : Storage where
  db := σ.db
  versions := σ.versions
  synced := σ.synced
  statuses := σ.statuses
  changes := σ.changes
  leases := σ.leases
  history := σ.history
  wave := σ.lane.wave
  plan := σ.lane.plan

theorem State.storage_relane {lane : Lane} (hw : lane.wave = σ.lane.wave)
    (hp : lane.plan = σ.lane.plan) : ({ σ with lane := lane } : State).storage = σ.storage := by
  simp only [State.storage, hw, hp]

structure Keeps (σ σ' : State) : Prop where
  storage : σ'.storage = σ.storage
  snapshots : SnapshotsFrom σ σ'.transactions
  sampled : ∀ o, σ'.lane = .sampled o → σ.lane = .sampled o ∧ σ'.published = σ.published ∨
    o = oldestActiveSnapshot σ ∧ σ'.transactions = σ.transactions

theorem Keeps.refl : Keeps σ σ :=
  ⟨rfl, .refl, fun _ h => .inl ⟨h, rfl⟩⟩

theorem Keeps.transactions {ts : OrdMap ℕ Transaction} (hs : SnapshotsFrom σ ts)
    (lookups : OrdMap ℕ (ℕ × CurrentRecord)) (reads : OrdMap ℕ (List ReadEvent))
    (queue : List StagedCommit) (prepare : Unpublished) (next : ℕ) :
    Keeps σ { σ with
      transactions := ts, lookups := lookups, reads := reads, queue := queue, prepare := prepare
      nextTransaction := next } :=
  ⟨rfl, hs, fun _ h => .inl ⟨h, rfl⟩⟩

/-- What a step does to the tables: nothing, or what the action that writes them does. -/
inductive Touches (σ : State) : Action → State → Prop
  | quiet {a : Action} {σ' : State} (h : Keeps σ σ') : Touches σ a σ'
  | createTree {id : ℕ} {outcome : EngineOutcome} {t : Transaction} (hr : ready σ id = some t)
      (hl : σ.lane = .idle) : Touches σ (.createTree id outcome) (createTree σ t outcome)
  | publish {outcome : EngineOutcome} {queue : List StagedCommit} (hl : σ.lane = .drained queue) :
      Touches σ (.publish outcome) (publishDrained σ queue outcome)
  | publishStatuses {wave : List Member} (hl : σ.lane = .mirrored wave) :
      Touches σ .publishStatuses (publishStatuses σ wave)
  | gcCollect {outcome : EngineOutcome} (hl : σ.lane = .idle) :
      Touches σ (.gcCollect outcome) (gcCollect σ outcome).1
  | gcCompact {plan : GcPlan} {σ' : State} (hl : σ.lane = .rebuilt plan)
      (hs : gcCompact σ plan = .ok σ') : Touches σ .gcCompact σ'
  | gcChanges {oldest : Option ℕ} (hl : σ.lane = .sampled oldest) :
      Touches σ .gcChanges (gcChanges σ oldest)
  | lease {a : Action} {name : Bytes} {floor : Option ℕ} (hl : σ.lane = .idle)
      (ha : ∀ new, floor = some new →
        a = .acquireLease name new ∧ validateLease (name, new) = .ok () ∨ σ.leases[name]? ≠ none)
      (hup : ∀ old new, σ.leases[name]? = some old → floor = some new → old ≤ new) :
      Touches σ a (publishLeaseWrite σ name floor)
  | crash {durable : ℕ} {σ' : State} (hd : σ.synced ≤ durable) (hs : reopen σ durable = .ok σ') :
      Touches σ (.crash durable) σ'

theorem touches_acquireLease {start : ℕ} (hl : σ.lane = .idle)
    (hs : acquireChangeLease σ name start = .ok σ') : Touches σ (.acquireLease name start) σ' := by
  unfold acquireChangeLease at hs
  split at hs
  · cases hs
  next hname =>
  split at hs
  · cases hs
  next hstart =>
  have hvalid : validateLease (name, start) = .ok () := by
    rw [validateLease, if_neg hname, if_neg hstart]
  split at hs
  · next floor hf =>
    cases hs
    split
    · exact .quiet .refl
    · next hlt =>
      refine .lease hl (fun new hn => .inl (by cases hn; exact ⟨rfl, hvalid⟩)) fun old new ho hn => ?_
      cases hn
      rw [hf] at ho
      cases ho
      omega
  · next hf =>
    cases hs
    refine .lease hl (fun new hn => .inl (by cases hn; exact ⟨rfl, hvalid⟩)) fun old new ho => ?_
    rw [hf] at ho
    cases ho

theorem touches_advanceLease {csn : ℕ} (hl : σ.lane = .idle)
    (hs : advanceLease σ name csn = .ok σ') : Touches σ (.advanceLease name csn) σ' := by
  unfold advanceLease at hs
  split at hs
  · cases hs
  next current hf =>
  cases hs
  split
  · exact .quiet .refl
  · next hlt =>
    refine .lease hl (fun _ _ => .inr (by rw [hf]; simp)) fun old new ho hn => ?_
    cases hn
    rw [hf] at ho
    cases ho
    omega

theorem touches_releaseLease (hl : σ.lane = .idle)
    (hs : releaseLease σ name = .ok σ') : Touches σ (.releaseLease name) σ' := by
  unfold releaseLease at hs
  split at hs
  · cases hs
  cases hs
  exact .lease hl (fun _ hn => by cases hn) fun _ _ _ hn => by cases hn

theorem keeps_finish (h : finish σ t = some σ') : Keeps σ σ' := by
  unfold finish at h
  split at h
  · cases h
    refine .transactions (fun x u hu => ?_) _ _ _ _ _
    rw [OrdMap.get_erase] at hu
    split at hu
    · cases hu
    · exact .inr ⟨x, u, hu, rfl⟩
  · cases h

theorem keeps_getStep {key : Bytes}
    (ht : σ.transactions[x]? = some t) : Keeps σ (getStep σ t tree key) := by
  have hsnap : (get σ t tree key).1.snapshot = t.snapshot := by
    unfold get
    split
    · rfl
    · split <;> rfl
  unfold getStep
  split
  all_goals
    next t' _ heq =>
    rw [heq] at hsnap
    exact .transactions (.insert ht hsnap) _ _ _ _ _

theorem keeps_scanStep {limit : ℕ}
    (ht : σ.transactions[x]? = some t) : Keeps σ (scanStep σ t tree start stop limit) := by
  have hsnap : (scan σ t tree start stop limit).1.snapshot = t.snapshot := by
    unfold scan
    split
    · rfl
    · split <;> rfl
  unfold scanStep
  split
  all_goals
    next t' _ heq =>
    rw [heq] at hsnap
    exact .transactions (.insert ht hsnap) _ _ _ _ _

theorem keeps_cursorStep (ht : σ.transactions[x]? = some t) : Keeps σ (cursorStep σ t tree start stop) := by
  unfold cursorStep
  split
  · next t' heq =>
    obtain ⟨_, _, heq⟩ := bind_eq_ok.mp heq
    split at heq
    · cases heq
    · cases heq
      exact .transactions (.insert ht (by rfl)) _ _ _ _ _
  · exact .refl

theorem keeps_stageCommit (ht : σ.transactions[x]? = some t) : Keeps σ (stageCommit σ t).1 := by
  unfold stageCommit
  dsimp only
  split <;> exact .transactions (.insert ht (by rfl)) _ _ _ _ _

theorem step_touches (h : step σ a = some σ') : Touches σ a σ' := by
  cases step_moves h with
  | begin =>
    refine .quiet (.transactions (fun x u hu => ?_) _ _ _ _ _)
    rw [OrdMap.get_insert] at hu
    split at hu
    · cases hu; exact .inl rfl
    · exact .inr ⟨x, u, hu, rfl⟩
  | cloneLifecycle _ _ =>
    refine .quiet ?_
    unfold cloneLifecycle
    split
    · exact .refl
    · exact .transactions .refl _ _ _ _ _
  | resolveLifecycle ht _ _ =>
    refine .quiet ?_
    unfold resolveLifecycle
    dsimp only
    split
    · exact .transactions .refl _ _ _ _ _
    · exact .transactions (.insert ht (by rfl)) _ _ _ _ _
  | put hr hw | delete hr hw =>
    obtain ⟨r, _, rfl⟩ := Option.map_eq_some_iff.mp hw
    cases r with
    | error e => exact .quiet .refl
    | ok u => exact .quiet (.transactions (.insert (ready_eq hr).1 (by rfl)) _ _ _ _ _)
  | dropTree hr hd =>
    unfold dropTree at hd
    split at hd
    · cases hd; exact .quiet (.transactions (.insert (ready_eq hr).1 (by rfl)) _ _ _ _ _)
    · obtain ⟨v, _, rfl⟩ := Option.map_eq_some_iff.mp hd
      cases v
      · exact .quiet .refl
      · exact .quiet (.transactions (.insert (ready_eq hr).1 (by rfl)) _ _ _ _ _)
  | createTree hr hl => exact .createTree hr hl
  | reservePublish hl =>
    refine .quiet ⟨State.storage_relane (by rw [hl]; rfl) (by rw [hl]; rfl), ?_, fun _ h => by cases h⟩
    unfold reservePublish
    dsimp only
    split
    · next t ht => exact .insert ht rfl
    · exact .refl
  | get hr _ => exact .quiet (keeps_getStep (ready_eq hr).1)
  | scan hr _ => exact .quiet (keeps_scanStep (ready_eq hr).1)
  | openCursor hr _ => exact .quiet (keeps_cursorStep (ready_eq hr).1)
  | advance hr _ _ =>
    refine .quiet ?_
    unfold advanceStep
    split
    · exact .transactions (.insert (ready_eq hr).1 (by rfl)) _ _ _ _ _
    · exact .refl
  | stage hr _ => exact .quiet (keeps_stageCommit (ready_eq hr).1)
  | finish _ hf => exact .quiet (keeps_finish hf)
  | reserveMirror hl | drain hl | publishPosition hl | publishMirror hl | release hl | gcMirror hl | gcRefused hl =>
    exact .quiet ⟨State.storage_relane (by rw [hl]; rfl) (by rw [hl]; rfl), .refl,
      fun _ h => by cases h⟩
  | publish hl => exact .publish hl
  | publishStatuses hl => exact .publishStatuses hl
  | gcCollect hl => exact .gcCollect hl
  | gcCompact hl hs => exact .gcCompact hl hs
  | gcSample hl =>
    refine .quiet ⟨State.storage_relane (by rw [hl]; rfl) (by rw [hl]; rfl), .refl, fun o h => ?_⟩
    cases h
    exact .inr ⟨rfl, rfl⟩
  | gcChanges hl => exact .gcChanges hl
  | acquireLease hl hs => exact touches_acquireLease hl hs
  | advanceLease hl hs => exact touches_advanceLease hl hs
  | releaseLease hl hs => exact touches_releaseLease hl hs
  | crash hd hs => exact .crash hd hs

theorem Touches.not_sampled (h : Touches σ a σ') : Keeps σ σ' ∨ ∀ o, σ'.lane ≠ .sampled o := by
  cases h with
  | quiet h => exact .inl h
  | @createTree _ outcome _ _ hl =>
    refine .inr fun o => ?_
    unfold Txn.createTree reserveTree
    dsimp only
    cases appendBeforeImage σ.versions (decodeCurrent σ.db.trees[σ.nextTree]?) with
    | error e => simp [hl]
    | ok p => cases outcome with
      | published => simp [setTxn]
      | syncFailed | refused => simp [hl]
  | publish hl =>
    refine .inr fun o => ?_
    unfold publishDrained
    grind
  | publishStatuses hl => exact .inr fun o h => by cases h
  | gcCollect hl =>
    refine .inr fun o => ?_
    unfold Txn.gcCollect
    grind
  | gcChanges hl =>
    refine .inr fun o => ?_
    unfold Txn.gcChanges
    grind
  | lease hl _ _ =>
    refine .inr fun o => ?_
    unfold publishLeaseWrite
    grind
  | gcCompact _ hs | crash _ hs =>
    obtain ⟨_, _, hs⟩ := bind_eq_ok.mp hs
    cases hs
    exact .inr fun o h => by cases h

theorem min_le_of_mem {l : List ℕ} {a : ℕ} (h : a ∈ l) : ∃ m, l.min? = some m ∧ m ≤ a := by
  cases hm : l.min? with
  | none => simp [List.min?_eq_none_iff.mp hm] at h
  | some m => exact ⟨m, rfl, (List.min?_eq_some_iff.mp hm).2 a h⟩

theorem oldestActiveSnapshot_le (h : σ.transactions[x]? = some t) :
    ∃ m, oldestActiveSnapshot σ = some m ∧ m ≤ t.snapshot :=
  min_le_of_mem (List.mem_map.mpr ⟨(x, t), (OrdMap.mem_toList _ _ _).mpr h, rfl⟩)

theorem Sampled.step (h : Sampled σ) (hs : step σ a = some σ') : Sampled σ' := by
  intro o ho x t' ht'
  rcases (step_touches hs).not_sampled with hk | hn
  · rcases hk.sampled o ho with ⟨hl, hp⟩ | ⟨rfl, htx⟩
    · rw [hp]
      rcases hk.snapshots x t' ht' with heq | ⟨y, t, ht, heq⟩
      · exact .inl heq.ge
      · exact heq ▸ h o hl y t ht
    · rw [htx] at ht'
      exact .inr (oldestActiveSnapshot_le ht')
  · exact absurd ho (hn o)

theorem sampled_of_reachable (h : runtime.Reachable σ) : Sampled σ :=
  h.invariant (fun _ hi => by subst hi; intro o ho; cases ho) fun _ _ _ hi _ hs => hi.step hs

end OmenDb.Txn
