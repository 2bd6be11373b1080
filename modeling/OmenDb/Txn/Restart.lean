import OmenDb.Txn.CollectSteps

/-! Reopening after a crash: the newest version of every key, the identities that durable records
imply, and nothing of what was volatile. -/
namespace OmenDb.Txn

variable {σ σ' : State} {durable : ℕ}

theorem wave_of_plan {plan : GcPlan} (hp : σ.lane.plan = some plan) : σ.lane.wave = [] := by
  cases hl : σ.lane <;> rw [hl] at hp <;> first | rfl | cases hp

/-- The statuses that were durable at the crash still resolve every current record, whether or not
a collection had pruned some of them. -/
theorem Inv.durable_tables (h : Inv σ) : ∃ versions guarded,
    Tables σ.db σ.db.statuses versions guarded σ.history := by
  have hs := h.statuses
  cases hp : σ.lane.plan with
  | none =>
    have hpr : σ.lane.prunable = ∅ := by rw [Lane.prunable, hp]; rfl
    rw [hpr, OrdMap.eraseAll_empty] at hs
    rw [hs]
    exact ⟨_, _, h.tables⟩
  | some plan =>
    have hpr : σ.lane.prunable = plan.prunable := by rw [Lane.prunable, hp]; rfl
    have hw := wave_of_plan hp
    rw [hpr, hw] at hs
    rw [hs]
    exact ⟨_, _, (h.pending plan hp).tables⟩

theorem Inv.reopen_tables (h : Inv σ) (hd : σ.synced ≤ durable) :
    Tables σ.db σ.db.statuses (σ.versions.reopen durable) (fun s => σ.db.csn ≤ s) σ.history := by
  obtain ⟨_, _, h'⟩ := h.durable_tables
  exact ⟨h.tables.data.restart h'.data fun l r hr id hid => (h.durable.data l r hr id hid).trans_le hd,
    h.tables.trees.restart h'.trees fun t r hr id hid => (h.durable.trees t r hr id hid).trans_le hd⟩

theorem Inv.le_maxTransaction (h : Inv σ) {c : Commit} (hc : c ∈ σ.history) :
    c.transaction ≤ maxTransaction σ.db := by
  unfold maxTransaction
  rcases h.implied c hc with hmem | ⟨w, hw, hlt⟩
  · refine VersionStore.le_foldl_max (.inl ?_)
    simp only [List.mem_append]
    exact .inl (.inl (Std.ExtTreeMap.mem_keys.mpr hmem))
  · have hle : c.transaction ≤ (σ.db.allocator.map fun w : HighWater => w.nextTransaction - 1).getD 0 := by
      rw [hw]
      simp only [Option.map_some, Option.getD_some]
      omega
    refine hle.trans (VersionStore.le_foldl_max (.inl ?_))
    simp

theorem Inv.le_maxTree (h : Inv σ) {c : Commit} (hc : c ∈ σ.history) {tree : ℕ}
    (ht : tree ∈ c.treeLifecycles) : tree ≤ maxTree σ.db := by
  have hmem : tree ∈ σ.db.trees := by
    cases hl : lastCommit (treeFamily.field tree) σ.history with
    | none =>
      have := lastCommit_eq_none.mp hl c hc
      obtain ⟨v, hv⟩ := (OrdMap.mem_iff_get _ _).mp ht
      simp [treeFamily, hv] at this
    | some d =>
      obtain ⟨r, hr, _⟩ := h.tables.trees.head tree d hl
      exact (OrdMap.mem_iff_get _ _).mpr ⟨r, hr⟩
  unfold maxTree
  refine VersionStore.le_foldl_max (.inl ?_)
  simp only [List.mem_append]
  exact .inl (.inl (Std.ExtTreeMap.mem_keys.mpr hmem))

theorem LiveSourced.reopen {versions : VersionStore} {history : List Commit} {tree : ℕ}
    {r : CurrentRecord} (h : LiveSourced versions history tree r) (hk : versions.Known r.undoHead)
    (hd : ∀ id, r.undoHead = some id → id < durable) :
    LiveSourced (versions.reopen durable) history tree r where
  bounded id hid := by
    obtain ⟨v, hv⟩ := VersionStore.reopen_known hk hd id hid
    exact (versions.reopen durable).lt_next hv
  live e he := by
    rw [VersionStore.chain_eq, VersionStore.reopen_below hk hd, ← VersionStore.chain_eq] at he
    exact h.live e he

theorem Inv.reopen_lifecycles (h : Inv σ) (hd : σ.synced ≤ durable) (tree : ℕ) (r : CurrentRecord)
    (hr : σ.db.trees[tree]? = some r) : LiveSourced (σ.versions.reopen durable) σ.history tree r := by
  have hk := h.tables.known.trees tree
  rw [hr] at hk
  exact (h.lifecycles.trees tree r hr).reopen hk fun id hid =>
    (h.durable.trees tree r hr id hid).trans_le hd

theorem Inv.reopen (h : Inv σ) (hd : σ.synced ≤ durable) (hs : reopen σ durable = .ok σ') : Inv σ' := by
  unfold Txn.reopen at hs
  obtain ⟨u, _, hs⟩ := bind_eq_ok.mp hs
  cases hs
  have ht := h.reopen_tables hd
  have hguard : ∀ s, Guarded σ.db.csn (∅ : OrdMap ℕ Transaction) s → σ.db.csn ≤ s := by
    rintro s (hs | ⟨x, t, hx, _⟩)
    · exact hs
    · simp at hx
  have ht' : Tables σ.db σ.db.statuses (σ.versions.reopen durable)
      (Guarded σ.db.csn (∅ : OrdMap ℕ Transaction)) σ.history :=
    ⟨ht.data.mono hguard, ht.trees.mono hguard⟩
  constructor
  case sequence =>
    exact ⟨h.sequence.positive, h.sequence.bounded, h.sequence.sorted, le_rfl, fun _ => rfl⟩
  case statuses => exact (OrdMap.eraseAll_empty _).symm
  case tables => exact ht'
  case pending =>
    intro p hp
    cases hp
  case durable => exact ht'.durable
  case identities =>
    refine ⟨Nat.succ_pos _, fun x t hx => ?_, fun c hc => ?_, fun x t hx => ?_⟩
    · simp at hx
    · exact ⟨(h.identities.past c hc).1, Nat.lt_succ_of_le (h.le_maxTransaction hc)⟩
    · simp at hx
  case implied => exact h.implied
  case ownership =>
    refine ⟨h.ownership.shape, fun c hc tree hm => Nat.lt_succ_of_le (h.le_maxTree hc hm),
      h.ownership.unique, h.ownership.opened, ?_, ?_, ?_, ?_, ?_, fun x tree hx => by cases hx⟩ <;>
    · intro x t hx
      simp at hx
  case lifecycles =>
    refine ⟨h.reopen_lifecycles hd, h.reopen_lifecycles hd, fun x tree r hr => ?_, ?_⟩
    · simp at hr
    · simp [Lane.treePuts]
  case queues =>
    refine ⟨?_, ?_, ?_, by simp, List.Pairwise.nil, List.Pairwise.nil, fun x p hp => ?_⟩
    · simp [Lane.serves, Lane.taken, Lane.waveIds, Lane.wave, Lane.reserving]
    · simp [Lane.serves, Lane.taken, Lane.waveIds, Lane.wave, Lane.reserving]
    · simp [Lane.taken, Lane.wave]
    · simp at hp
  case registered =>
    refine ⟨fun x t hx => ?_, fun x t c p hx => ?_, fun x _ => ?_⟩
    · simp at hx
    · simp at hx
    · simp
  case recorded =>
    rintro c hc (hlt | ⟨x, t, hx, _⟩)
    · have := h.sequence.bounded c hc
      dsimp only at hlt
      omega
    · simp at hx
  case serial => exact h.serial

end OmenDb.Txn
