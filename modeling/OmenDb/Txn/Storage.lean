import OmenDb.Txn.Reachable

/-! What a step does to the tables and files of a reachable state: one case for each way in which
they change. Invariants of the storage are proved over these cases. -/
namespace OmenDb.Txn

variable {σ σ' : State}

inductive Stores (σ : State) (a : Action) : Storage → Prop
  | same : Stores σ a σ.storage
  /-- A publication or a reservation failed after it had appended before-images. -/
  | appended {store : VersionStore} (hw : σ.lane.wave = []) (hp : σ.lane.plan = none)
      (hx : VersionStore.Extends σ.versions store) (hi : Images σ.db σ.versions store) :
      Stores σ a { σ.storage with versions := store }
  | reserved {x : ℕ} {t : Transaction} {undo : Option ℕ} {store : VersionStore}
      (hl : σ.lane = .idle) (hr : ready σ x = some t)
      (ha : appendBeforeImage σ.versions (decodeCurrent σ.db.trees[σ.nextTree]?) =
        .ok (undo, store)) :
      Stores σ a { σ.storage with
        db := σ.db.reserve x σ.nextTree ⟨x, 0, undo, some treeReserved⟩
        versions := store
        synced := store.nextId
        statuses := σ.statuses.insert x (σ.db.csn + 1)
        changes := σ.changes.insert (σ.db.csn + 1) ⟨x, σ.db.csn, {σ.nextTree}, ∅⟩
        history := reservation σ.db.csn x σ.nextTree :: σ.history }
  | installed {queue : List StagedCommit} {ms : List Member} {store : VersionStore}
      (hl : σ.lane = .drained queue) (hok : WaveOk σ ms store)
      (hseq : ms.map (·.assigned) = List.range' (σ.db.csn + 1) ms.length)
      (hi : Images σ.db σ.versions store) (ha : ∃ outcome, a = .publish outcome)
      (hsurvivors : (ms.map (·.staged)).Sublist queue) :
      Stores σ a { σ.storage with
        db := σ.db.commitGroup ms
        versions := store
        synced := store.nextId
        history := waveCommits σ.reads ms ++ σ.history
        wave := ms }
  | settled {ms : List Member} (hl : σ.lane = .mirrored ms) :
      Stores σ a { σ.storage with
        statuses := resolved σ.statuses ms
        changes := σ.changes.insertAll (ms.map fun m => (m.assigned, m.staged.change))
        wave := [] }
  | collected {plan : GcPlan} (hl : σ.lane = .idle) (hp : gcPlan σ = .ok plan) :
      Stores σ a { σ.storage with db := plan.apply σ, plan := some plan }
  | compacted {plan : GcPlan} (hl : σ.lane = .rebuilt plan) :
      Stores σ a { σ.storage with
        versions := σ.versions.retain plan.retained
        synced := σ.versions.nextId
        statuses := σ.statuses.eraseAll plan.prunable
        plan := none }
  | pruned {oldest : Option ℕ} {floor : ℕ} (ha : a = .gcChanges) (hl : σ.lane = .sampled oldest)
      (hf : changeFloor σ oldest = some floor) :
      Stores σ a { σ.storage with
        db := { σ.db with changes := σ.db.changes.filter fun c _ => decide (floor ≤ c) }
        changes := σ.changes.filter fun c _ => decide (floor ≤ c) }
  | leased {name : Bytes} {csn : ℕ} (hl : σ.lane = .idle)
      (ha : a = .acquireLease name csn ∧ validateLease (name, csn) = .ok () ∨ σ.leases[name]? ≠ none)
      (hup : ∀ old, σ.leases[name]? = some old → old ≤ csn) :
      Stores σ a { σ.storage with
        db := { σ.db with leases := σ.db.leases.insert name csn }
        leases := σ.leases.insert name csn }
  | released {name : Bytes} (hl : σ.lane = .idle) :
      Stores σ a { σ.storage with
        db := { σ.db with leases := σ.db.leases.erase name }
        leases := σ.leases.erase name }
  | reopened {durable : ℕ} (ha : a = .crash durable) (hd : σ.synced ≤ durable) :
      Stores σ a ⟨σ.db, σ.versions.reopen durable, (σ.versions.reopen durable).nextId,
        σ.db.statuses, σ.db.changes, σ.db.leases, σ.history, [], none⟩

theorem appendBeforeImage_images {db : Db} {store store' : VersionStore} {undo : Option ℕ} {tree : ℕ}
    (ha : appendBeforeImage store (decodeCurrent db.trees[tree]?) = .ok (undo, store')) :
    Images db store store' := fun _ _ hr =>
  (appendBeforeImage_image ha hr).imp_right fun h => .inr ⟨tree, h⟩

theorem Inv.stores_createTree (h : Inv σ) {id : ℕ} {t : Transaction} {a : Action}
    (hr : ready σ id = some t) (hl : σ.lane = .idle) (outcome : EngineOutcome) :
    Stores σ a (Txn.createTree σ t outcome).storage := by
  obtain ⟨rfl, -, -, -⟩ := h.identities.own id t (ready_eq hr).1
  have hw : σ.lane.wave = [] := by rw [hl]; rfl
  have hp : σ.lane.plan = none := by rw [hl]; rfl
  unfold Txn.createTree reserveTree
  dsimp only
  cases ha : appendBeforeImage σ.versions (decodeCurrent σ.db.trees[σ.nextTree]?) with
  | error e => exact .same
  | ok p =>
    obtain ⟨undo, store⟩ := p
    cases outcome with
    | published =>
      have hs := Stores.reserved (a := a) hl hr ha
      simp only [State.storage, hw, hp] at hs
      exact hs
    | syncFailed | refused =>
      exact .appended hw hp (appendBeforeImage_spec ha).1 (appendBeforeImage_images ha)

theorem Inv.stores_publish (h : Inv σ) {queue : List StagedCommit}
    (hl : σ.lane = .drained queue) (outcome : EngineOutcome) :
    Stores σ (.publish outcome) (Txn.publishDrained σ queue outcome).storage := by
  have hb : WaveBuilt σ.db σ.statuses σ.versions queue (buildWave σ.db σ.statuses σ.versions queue) :=
    buildWave_spec h.tables.known queue
  have hok := h.wave_ok hl
  have hw : σ.lane.wave = [] := by rw [hl]; rfl
  have hp : σ.lane.plan = none := by rw [hl]; rfl
  have happended : Stores σ (.publish outcome) { σ.storage with
      versions := (buildWave σ.db σ.statuses σ.versions queue).store } :=
    .appended hw hp hb.extends_store (buildWave_images _ _)
  have hinstalled := Stores.installed hl hok hb.assigned (buildWave_images _ _) ⟨outcome, rfl⟩ hb.survivors
  unfold Txn.publishDrained
  simp only [State.storage, hw, hp] at happended hinstalled ⊢
  split
  · exact happended
  · cases outcome with
    | published => exact hinstalled
    | syncFailed | refused => exact happended

theorem Inv.stores {a : Action} (h : Inv σ) (hs : Txn.step σ a = some σ') : Stores σ a σ'.storage := by
  cases step_touches hs with
  | quiet hk => exact hk.storage ▸ .same
  | createTree hr hl => exact h.stores_createTree hr hl _
  | publish hl => exact h.stores_publish hl _
  | publishStatuses hl =>
    have hst := Stores.settled (a := .publishStatuses) hl
    simp only [State.storage, hl, Lane.plan] at hst
    exact hst
  | @gcCollect outcome hl =>
    have hsame : Stores σ (.gcCollect outcome) σ.storage := .same
    unfold Txn.gcCollect
    split
    · exact hsame
    next plan hp =>
    have hst := Stores.collected (a := .gcCollect outcome) hl hp
    simp only [State.storage, hl, Lane.wave] at hst
    cases outcome with
    | published => exact hst
    | syncFailed | refused => exact hsame
  | gcCompact hl hs =>
    obtain ⟨store, hc, hs⟩ := bind_eq_ok.mp hs
    cases hs
    have hst := Stores.compacted (a := .gcCompact) hl
    rw [(h.pending _ (by rw [hl]; rfl)).compact_eq] at hc
    cases hc
    simp only [State.storage, hl, Lane.wave] at hst
    exact hst
  | gcChanges hl =>
    have hsame : Stores σ .gcChanges ({ σ with lane := .idle } : State).storage := by
      rw [State.storage_relane (by rw [hl]; rfl) (by rw [hl]; rfl)]
      exact .same
    unfold Txn.gcChanges
    split
    · exact hsame
    next floor hf =>
    have hst := Stores.pruned (a := .gcChanges) rfl hl hf
    simp only [State.storage, hl, Lane.wave, Lane.plan] at hst
    exact hst
  | @lease _ name floor hl ha hup =>
    cases floor with
    | none => exact .released hl
    | some csn => exact .leased hl (ha csn rfl) fun old ho => hup old csn ho rfl
  | crash hd hs =>
    obtain ⟨_, _, hs⟩ := bind_eq_ok.mp hs
    cases hs
    exact .reopened rfl hd

theorem Stores.history {a : Action} {S : Storage} (h : Stores σ a S) :
    ∃ new, S.history = new ++ σ.history := by
  cases h with
  | reserved _ _ _ => exact ⟨[_], rfl⟩
  | installed _ _ _ _ => exact ⟨_, rfl⟩
  | same | appended _ _ _ _ | settled _ | collected _ _ | compacted _ | pruned _ _ _ | leased _ _ _
  | released _ | reopened _ _ => exact ⟨[], rfl⟩

theorem history_run {acts : List Action} (hr : runtime.Reachable σ)
    (h : runtime.run σ acts = some σ') : ∃ new, σ'.history = new ++ σ.history := by
  induction acts generalizing σ with
  | nil => cases h; exact ⟨[], rfl⟩
  | cons a as ih =>
    obtain ⟨τ, hst, hrest⟩ := Option.bind_eq_some_iff.mp h
    obtain ⟨mid, hmid⟩ := ((inv_of_reachable hr).stores hst).history
    obtain ⟨new, hnew⟩ := ih (.step a hr trivial hst) hrest
    exact ⟨new ++ mid, by rw [hnew, List.append_assoc, ← hmid]; rfl⟩

/-- The invariant rule for the storage of the runtime: an initial property kept by every change
of the storage that the guard allows holds along every guarded run. -/
theorem storage_invariant {P : Storage → Prop} {guard : State → Action → Prop}
    (h0 : P State.create.storage)
    (hs : ∀ {σ : State} {a : Action} {S : Storage}, Inv σ → P σ.storage → guard σ a →
      Stores σ a S → P S) (h : runtime.Reach guard σ) : P σ.storage :=
  h.invariant_of (P := Inv) (Q := fun σ => P σ.storage) (fun _ hr => inv_of_reachable hr.reachable)
    (fun _ hi => hi ▸ h0) fun _ _ _ hi hP hg hst => hs hi hP hg (hi.stores hst)

end OmenDb.Txn
