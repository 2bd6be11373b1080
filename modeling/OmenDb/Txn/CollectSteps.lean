import OmenDb.Txn.Reservation
import OmenDb.Txn.Effects

/-! Collection, change pruning, leases and crashes. -/
namespace OmenDb.Txn

variable {σ σ' : State} {plan : GcPlan}

variable {x tree f floor : ℕ} {t : Transaction} {r' r : CurrentRecord} {versions : VersionStore} {history : List Commit}
  {name : Bytes} {oldest : Option ℕ}

theorem retentionWatermark_le (h : σ.transactions[x]? = some t) :
    ∃ m, retentionWatermark σ = some m ∧ m ≤ t.snapshot := by
  obtain ⟨m, hm, hle⟩ := oldestActiveSnapshot_le h
  unfold retentionWatermark
  rw [hm]
  cases oldestLeaseFloor σ with
  | none => exact ⟨m, rfl, hle⟩
  | some l => exact ⟨min m l, rfl, (min_le_left _ _).trans hle⟩

theorem Inv.covers (h : Inv σ) (hl : σ.lane = .idle) :
    Family.Covers (retentionWatermark σ) σ.db.csn (Guarded σ.published σ.transactions) := by
  intro s hs
  rcases hs with hs | ⟨x, t, ht, hle⟩
  · have := h.sequence.caught_up (by rw [hl]; rfl)
    exact .inl (this ▸ hs)
  · obtain ⟨m, hm, hmle⟩ := retentionWatermark_le ht
    exact .inr ⟨m, hm, hmle.trans hle⟩

/-- A plan with nothing to write changes nothing, so its batch can always be read as written. -/
theorem apply_trees : (plan.apply σ).trees = σ.db.trees.insertAll plan.treeRewrites.toList := by
  unfold GcPlan.apply
  split
  · rfl
  · next h =>
    have : plan.treeRewrites.isEmpty = true := by
      simp only [GcPlan.writes] at h
      grind
    rw [Std.ExtTreeMap.isEmpty_iff.mp this, OrdMap.insertAll_empty]

theorem apply_data : (plan.apply σ).data = σ.db.data.insertAll plan.dataRewrites.toList := by
  unfold GcPlan.apply
  split
  · rfl
  · next h =>
    have : plan.dataRewrites.isEmpty = true := by
      simp only [GcPlan.writes] at h
      grind
    rw [Std.ExtTreeMap.isEmpty_iff.mp this, OrdMap.insertAll_empty]

theorem apply_statuses : (plan.apply σ).statuses = σ.db.statuses.eraseAll plan.prunable := by
  unfold GcPlan.apply
  split
  · rfl
  · next h =>
    have : plan.prunable = ∅ := by
      simp only [GcPlan.writes] at h
      grind
    simp [this]

theorem apply_rest : (plan.apply σ).csn = σ.db.csn ∧ (plan.apply σ).changes = σ.db.changes ∧
    (plan.apply σ).leases = σ.db.leases := by
  unfold GcPlan.apply
  split <;> exact ⟨rfl, rfl, rfl⟩

theorem Planned.rewritten (hp : Planned σ plan) (h : (plan.apply σ).trees[tree]? = some r') :
    ∃ r n, σ.db.trees[tree]? = some r ∧ r' = frozen plan.watermark r n :=
  hp.trees.rewritten (apply_trees ▸ h)

theorem Planned.rewritten_data (hp : Planned σ plan) {l : Loc} (h : (plan.apply σ).data[l]? = some r') :
    ∃ r n, σ.db.data[l]? = some r ∧ r' = frozen plan.watermark r n :=
  hp.data.rewritten (apply_data ▸ h)

theorem frozen_undoHead {w : Option ℕ} {n id : ℕ}
    (h : (frozen w r n).undoHead = some id) : r.undoHead = some id := by
  unfold frozen at h
  dsimp only at h
  split at h
  · cases h
  · exact h

theorem LiveSourced.frozen (h : LiveSourced versions history tree r) (w : Option ℕ) (n : ℕ) :
    LiveSourced versions history tree (frozen w r n) where
  bounded id hid := h.bounded id (frozen_undoHead hid)
  live e he hv := by
    rw [VersionStore.chain_eq] at he
    rcases List.mem_cons.mp he with rfl | he
    · exact h.live r.entry (by rw [VersionStore.chain_eq]; exact List.mem_cons_self) hv
    · refine h.live e ?_ hv
      rw [VersionStore.chain_eq]
      refine List.mem_cons_of_mem _ ?_
      unfold Txn.frozen at he
      dsimp only at he
      split at he
      · cases he
      · exact he

theorem Inv.planned (h : Inv σ) (hp : gcPlan σ = .ok plan) : Planned σ plan := by
  have hk := h.tables.known
  exact gcPlan_spec hp (fun _ _ hr => hk.of_data hr) fun _ _ hr => hk.of_tree hr

theorem Planned.spares (hp : Planned σ plan) :
    Spares σ.versions plan.retained σ.statuses (σ.statuses.eraseAll plan.prunable) := by
  intro id hid v hv h0
  obtain ⟨v', hv', hnot⟩ := hp.stored id hid
  rw [hv] at hv'
  cases hv'
  rw [OrdMap.get_eraseAll, if_neg (hnot h0)]

theorem Inv.collected_tables (h : Inv σ) (hl : σ.lane = .idle) (hp : Planned σ plan) :
    Tables (plan.apply σ) σ.statuses σ.versions (Guarded σ.published σ.transactions) σ.history ∧
    Pending (plan.apply σ) σ.statuses σ.versions (Guarded σ.published σ.transactions) σ.history
      plan := by
  have ht := h.tables
  rw [hl] at ht
  change Tables σ.db σ.statuses σ.versions _ _ at ht
  have hcov := h.covers hl
  rw [← hp.watermark] at hcov
  have hpos := h.sequence.positive
  refine ⟨⟨?_, ?_⟩, fun id hid => (hp.stored id hid).imp fun _ hv => hv.1, ?_, ?_⟩
  · rw [apply_data, apply_rest.1]
    exact ht.data.collect hpos hp.data hcov
  · rw [apply_trees, apply_rest.1]
    exact ht.trees.collect hpos hp.trees hcov
  · rw [apply_data, apply_rest.1]
    exact ht.data.compact hpos hp.data hcov hp.spares
  · rw [apply_trees, apply_rest.1]
    exact ht.trees.compact hpos hp.trees hcov hp.spares

theorem Inv.implied_collected (h : Inv σ) : Implied (plan.apply σ) σ.history := by
  intro c hc
  unfold GcPlan.apply
  split
  · exact .inr ⟨_, rfl, (h.identities.past c hc).2.trans_le (le_max_left _ _)⟩
  · exact h.implied c hc

theorem Inv.gcCollect (h : Inv σ) (hl : σ.lane = .idle) (outcome : EngineOutcome) :
    Inv (gcCollect σ outcome).1 := by
  unfold Txn.gcCollect
  split
  · exact h
  next plan hplan =>
  split
  swap
  · exact h
  have hp := h.planned hplan
  obtain ⟨htab, hpend⟩ := h.collected_tables hl hp
  have hstat := h.statuses
  have hseq := h.sequence
  have hid := h.identities
  have hown := h.ownership
  have hlc := h.lifecycles
  have hq := h.queues
  rw [hl] at hstat hseq hid hown hlc hq
  refine ⟨?_, ?_, htab, ?_, ?_, hid, h.implied_collected, hown, ?_, ?_, h.registered, ?_, h.serial⟩
  · dsimp only; rw [apply_rest.1]; exact hseq
  · dsimp only
    rw [apply_statuses, hstat]
    change (σ.statuses.eraseAll ∅).eraseAll plan.prunable = σ.statuses.eraseAll plan.prunable
    rw [OrdMap.eraseAll_empty]
  · intro p hpl
    cases hpl
    exact hpend
  · refine ⟨fun l r hr id hid => ?_, fun tree r hr id hid => ?_⟩
    · obtain ⟨r₀, n, hr₀, rfl⟩ := hp.rewritten_data hr
      exact h.durable.data l r₀ hr₀ id (frozen_undoHead hid)
    · obtain ⟨r₀, n, hr₀, rfl⟩ := hp.rewritten hr
      exact h.durable.trees tree r₀ hr₀ id (frozen_undoHead hid)
  · refine ⟨fun tree r hr => ?_, hlc.mirror, hlc.lookups, hlc.installed⟩
    obtain ⟨r₀, n, hr₀, rfl⟩ := hp.rewritten hr
    exact (hlc.trees tree r₀ hr₀).frozen _ _
  · exact hq.relane rfl rfl rfl
  · intro c hc hx
    dsimp only
    rw [apply_rest.2.1]
    exact h.recorded c hc hx

theorem Inv.gcMirror (h : Inv σ) (hl : σ.lane = .collected plan) : Inv (gcMirror σ plan) := by
  have hstat := h.statuses
  have hseq := h.sequence
  have htab := h.tables
  have hpend := h.pending
  have hid := h.identities
  have hown := h.ownership
  have hlc := h.lifecycles
  have hq := h.queues
  rw [hl] at hstat hseq htab hpend hid hown hlc hq
  refine ⟨hseq, hstat, htab, hpend, h.durable, hid, h.implied, hown, ?_, ?_, h.registered,
    h.recorded, h.serial⟩
  · refine ⟨hlc.trees, fun tree r hr => ?_, hlc.lookups, hlc.installed⟩
    change (if plan.writes then σ.db.trees else σ.mirror)[tree]? = some r at hr
    split at hr
    · exact hlc.trees tree r hr
    · exact hlc.mirror tree r hr
  · exact hq.relane rfl rfl rfl

theorem retain_chain_subset (R : Finset ℕ) (r : CurrentRecord) :
    (versions.retain R).chain r ⊆ versions.chain r := by
  rw [VersionStore.chain_eq, VersionStore.chain_eq]
  refine List.cons_subset_cons _ ?_
  by_cases hk : versions.Known r.undoHead
  · rw [VersionStore.retain_below R hk]
    exact ((List.takeWhile_prefix _).map _).subset
  · unfold VersionStore.Known at hk
    push Not at hk
    obtain ⟨id, hid, hno⟩ := hk
    have hnone : (versions.retain R).records[id]? = none := by
      rw [VersionStore.retain, OrdMap.get_filterMap]
      cases hr : versions.records[id]? with
      | none => rfl
      | some v => exact absurd hr (hno v)
    rw [VersionStore.below, hid, VersionStore.versionsFrom_unknown hnone]
    simp

theorem LiveSourced.retain (h : LiveSourced versions history tree r) (R : Finset ℕ) :
    LiveSourced (versions.retain R) history tree r where
  bounded := h.bounded
  live e he := h.live e (retain_chain_subset R r he)

theorem Pending.compact_eq {db : Db} {statuses : Statuses} {guarded : ℕ → Prop}
    (h : Pending db statuses versions guarded history plan) :
    versions.compact plan.retained = .ok (versions.retain plan.retained) := by
  unfold VersionStore.compact
  split
  · next id hf =>
    obtain ⟨r, hr⟩ := h.stored id ((Finset.mem_sort _).mp (List.mem_of_find?_eq_some hf))
    simpa [hr] using List.find?_some hf
  · rfl

theorem Inv.gcCompact (h : Inv σ) (hl : σ.lane = .rebuilt plan)
    (hs : gcCompact σ plan = .ok σ') : Inv σ' := by
  have hpend := h.pending plan (by rw [hl]; rfl)
  unfold Txn.gcCompact at hs
  rw [hpend.compact_eq] at hs
  cases hs
  have hstat := h.statuses
  have hseq := h.sequence
  have hid := h.identities
  have hown := h.ownership
  have hlc := h.lifecycles
  have hq := h.queues
  rw [hl] at hstat hseq hid hown hlc hq
  refine ⟨hseq, ?_, hpend.tables, (fun p hp => by cases hp), hpend.tables.durable, hid, h.implied,
    hown, ?_, ?_, h.registered, h.recorded, h.serial⟩
  · change σ.db.statuses = (σ.statuses.eraseAll plan.prunable).eraseAll ∅
    rw [OrdMap.eraseAll_empty]
    exact hstat
  · exact ⟨fun tree r hr => (hlc.trees tree r hr).retain _,
      fun tree r hr => (hlc.mirror tree r hr).retain _,
      fun x tree r hr => (hlc.lookups x tree r hr).retain _, by simp [Lane.treePuts]⟩
  · exact hq.relane rfl rfl rfl

theorem Inv.redb (h : Inv σ) {changes changes' : OrdMap ℕ Change} {leases leases' : OrdMap Bytes ℕ}
    (hrec : Recorded { σ.db with changes := changes, leases := leases } σ.published σ.transactions
      σ.history) :
    Inv { σ with
      db := { σ.db with changes := changes, leases := leases }
      changes := changes'
      leases := leases' } where
  sequence := h.sequence
  statuses := h.statuses
  tables := ⟨h.tables.data, h.tables.trees⟩
  pending plan hp :=
    ⟨(h.pending plan hp).stored, (h.pending plan hp).tables.data, (h.pending plan hp).tables.trees⟩
  durable := ⟨h.durable.data, h.durable.trees⟩
  identities := h.identities
  implied := h.implied
  ownership := h.ownership
  lifecycles := ⟨h.lifecycles.trees, h.lifecycles.mirror, h.lifecycles.lookups,
    h.lifecycles.installed⟩
  queues := h.queues
  registered := h.registered
  recorded := hrec
  serial := h.serial

theorem oldestLeaseFloor_le (h : σ.leases[name]? = some f) : ∃ m, oldestLeaseFloor σ = some m ∧ m ≤ f :=
  min_le_of_mem (List.mem_map.mpr ⟨(name, f), (OrdMap.mem_toList _ _ _).mpr h, rfl⟩)

theorem changeFloor_le_lease (h : changeFloor σ oldest = some floor) (hf : σ.leases[name]? = some f) : floor ≤ f := by
  obtain ⟨m, hm, hle⟩ := oldestLeaseFloor_le hf
  rw [changeFloor, hm] at h
  cases h
  cases oldest with
  | none => exact hle
  | some s => exact (min_le_left _ _).trans hle

theorem changeFloor_le_sampled {m : ℕ} (h : changeFloor σ (some m) = some floor) : floor ≤ m := by
  obtain ⟨lease, _, rfl⟩ := Option.map_eq_some_iff.mp h
  exact min_le_right _ _

theorem Inv.gcSample (h : Inv σ) (hl : σ.lane = .idle) : Inv (gcSample σ) := by
  have hq := h.queues
  rw [hl] at hq
  exact h.relane (by rw [hl]; rfl) (by rw [hl]; rfl) (by rw [hl]; rfl) (by rw [hl]; rfl)
    (by rw [hl]; rfl) (hq.relane rfl rfl rfl)

/-- Pruning spares every commit that a live snapshot precedes: a transaction that began after the
sampling began at the present position, and no commit lies above that. -/
theorem Sampled.spares (h : Inv σ) (hs : Sampled σ)
    (hl : σ.lane = .sampled oldest) (hf : changeFloor σ oldest = some floor) (ht : σ.transactions[x]? = some t) {c : ℕ}
    (hlt : t.snapshot < c) (hc : c ≤ σ.db.csn) : floor ≤ c := by
  rcases hs oldest hl x t ht with hp | ⟨m, rfl, hm⟩
  · have : σ.published = σ.db.csn := h.sequence.caught_up (by rw [hl]; rfl)
    omega
  · exact (changeFloor_le_sampled hf).trans (hm.trans hlt.le)

theorem Inv.gcRefused (h : Inv σ) {oldest : Option ℕ} (hl : σ.lane = .sampled oldest) : Inv (gcRefused σ) := by
  have hq := h.queues
  rw [hl] at hq
  exact h.relane (by rw [hl]; rfl) (by rw [hl]; rfl) (by rw [hl]; rfl) (by rw [hl]; rfl)
    (by rw [hl]; rfl) (hq.relane rfl rfl rfl)

theorem Inv.gcChanges (h : Inv σ) (hs : Sampled σ) {oldest : Option ℕ}
    (hl : σ.lane = .sampled oldest) : Inv (gcChanges σ oldest) := by
  have hidle : Inv { σ with lane := .idle } := h.gcRefused hl
  unfold Txn.gcChanges
  split
  · exact hidle
  next floor hf =>
  refine hidle.redb fun c hc hx => ?_
  obtain ⟨ch, hch, hw⟩ := h.recorded c hc hx
  have hle : c.csn ≤ σ.db.csn := h.sequence.bounded c hc
  have hspared : floor ≤ c.csn := by
    rcases hx with hx | ⟨x, t, ht, hlt⟩
    · have : σ.published = σ.db.csn := h.sequence.caught_up (by rw [hl]; rfl)
      dsimp only at hx
      omega
    · exact hs.spares h hl hf ht hlt hle
  refine ⟨ch, ?_, hw⟩
  dsimp only
  rw [OrdMap.get_filter, hch]
  simpa using hspared

theorem Inv.publishLeaseWrite (h : Inv σ) (name : Bytes) (floor : Option ℕ) :
    Inv (publishLeaseWrite σ name floor) := by
  unfold Txn.publishLeaseWrite
  split <;> exact h.redb h.recorded

theorem Inv.acquireChangeLease (h : Inv σ) {start : ℕ}
    (hs : acquireChangeLease σ name start = .ok σ') : Inv σ' := by
  unfold Txn.acquireChangeLease at hs
  split at hs
  · cases hs
  split at hs
  · cases hs
  split at hs
  · cases hs
    split
    · exact h
    · exact h.publishLeaseWrite _ _
  · cases hs
    exact h.publishLeaseWrite _ _

theorem Inv.advanceLease (h : Inv σ) {csn : ℕ} (hs : advanceLease σ name csn = .ok σ') : Inv σ' := by
  unfold Txn.advanceLease at hs
  split at hs
  · cases hs
  · cases hs
    split
    · exact h
    · exact h.publishLeaseWrite _ _

theorem Inv.releaseLease (h : Inv σ) (hs : releaseLease σ name = .ok σ') : Inv σ' := by
  unfold Txn.releaseLease at hs
  split at hs
  · cases hs
  · cases hs
    exact h.publishLeaseWrite _ _

end OmenDb.Txn
