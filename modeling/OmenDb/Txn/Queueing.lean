import OmenDb.Txn.Local

/-! Staging a commit and taking the queue: the conflict index covers the queue, so every staged
commit was checked against all those ahead of it. -/
namespace OmenDb.Txn

variable {σ : State} {x : ℕ} {t : Transaction}

theorem Admits.mono {a b : Unpublished} (h : Admits t b) (hk : a.keys ⊆ b.keys)
    (ht : a.trees ⊆ b.trees) : Admits t a where
  writes l hl hm := h.writes l hl (hk hm)
  dropped tree hd hm := h.dropped tree hd (ht hm)
  ranges r hr l hl := h.ranges r hr l (hk hl)
  points l hl hm := h.points l hl (hk hm)

/-- A pruned point read is a write, so nothing is lost. -/
theorem pruneReads_depends {l : Loc} (h : t.depends l) : (pruneReads t).depends l := by
  rcases h with h | h
  · by_cases hw : l ∈ t.writes
    · exact .inr (.inl hw)
    · have hn : t.writes[l]? = none := by simpa using hw
      exact .inl (Finset.mem_filter.mpr ⟨h, by simp [hn]⟩)
  · exact .inr h

theorem Inv.evolve_pruned (h : Inv σ) (ht : σ.transactions[x]? = some t) (phase : Phase) :
    Evolves σ.history t { pruneReads t with phase := phase } where
  id := rfl
  snapshot := rfl
  created _ h := .inl h
  depends _ hk := pruneReads_depends hk
  dropped _ h := .inl h
  writes _ h := .inl h
  states _ h := .inl h
  kept _ h := h
  cursor c p hc := h.cursor ht c p hc

theorem stageCommit_ok (h : (stageCommit σ t).2 = .ok ()) : Admits (pruneReads t) σ.prepare ∧
    (stageCommit σ t).1 =
      { σ with
        prepare :=
          { keys := σ.prepare.keys ∪ (stagedOf (pruneReads t)).writeKeys
            trees := σ.prepare.trees ∪ (stagedOf (pruneReads t)).changedTrees ∪
              (stagedOf (pruneReads t)).writeKeys.image (·.tree) }
        queue := σ.queue ++ [stagedOf (pruneReads t)]
        transactions := σ.transactions.insert t.id { pruneReads t with phase := .waiting } } := by
  unfold stageCommit at h ⊢
  dsimp only at h ⊢
  split at h
  · cases h
  · next hout =>
    obtain ⟨_, h1, _⟩ := bind_eq_ok.mp hout
    exact ⟨rejectUnpublishedConflicts_eq_ok h1, rfl⟩

theorem stageCommit_error {e : Error} (h : (stageCommit σ t).2 = .error e) :
    (stageCommit σ t).1 = { σ with transactions := σ.transactions.insert t.id (pruneReads t) } := by
  unfold stageCommit at h ⊢
  dsimp only at h ⊢
  split at h
  · rfl
  · cases h

theorem Inv.staged_queues (h : Inv σ) (ht : σ.transactions[t.id]? = some t)
    (hp : t.phase = .active) (hl : σ.lookups[t.id]? = none) (ha : Admits (pruneReads t) σ.prepare) :
    Queues (σ.transactions.insert t.id { pruneReads t with phase := .waiting }) σ.lane
      (σ.queue ++ [stagedOf (pruneReads t)])
      { keys := σ.prepare.keys ∪ (stagedOf (pruneReads t)).writeKeys
        trees := σ.prepare.trees ∪ (stagedOf (pruneReads t)).changedTrees ∪
          (stagedOf (pruneReads t)).writeKeys.image (·.tree) } σ.lookups := by
  have hnot := h.queues.notMem ht (by simp [hp])
  have hsame : ∀ y ∈ σ.lane.serves ++ σ.queue.map (·.transaction),
      (σ.transactions.insert t.id { pruneReads t with phase := .waiting })[y]? =
        σ.transactions[y]? := fun y hy =>
    OrdMap.get_insert_of_ne _ _ fun hxy => hnot (hxy ▸ hy)
  have hbusy : σ.lane.serves ++ (σ.queue ++ [stagedOf (pruneReads t)]).map (·.transaction) =
      (σ.lane.serves ++ σ.queue.map (·.transaction)) ++ [t.id] := by
    simp [stagedOf, pruneReads]
  have hself : (σ.transactions.insert t.id { pruneReads t with phase := .waiting })[t.id]? =
      some { pruneReads t with phase := .waiting } := OrdMap.get_insert_self _ _ _
  have hlook : ∀ (y : ℕ) (p : ℕ × CurrentRecord), σ.lookups[y]? = some p →
      ∃ u, (σ.transactions.insert t.id { pruneReads t with phase := .waiting })[y]? = some u ∧
        u.phase = .active := by
    intro y p hy
    obtain ⟨u, hu, hph⟩ := h.queues.lookups y p hy
    have hne : t.id ≠ y := by
      rintro rfl
      rw [hl] at hy
      cases hy
    exact ⟨u, by rw [OrdMap.get_insert_of_ne _ _ hne, hu], hph⟩
  have hold := h.queues.congr hsame hlook
  refine ⟨?_, ?_, ?_, ?_, hold.taken, ?_, hlook⟩
  · rw [hbusy]
    intro y hy
    rcases List.mem_append.mp hy with hy | hy
    · exact hold.waiting y hy
    · rw [List.mem_singleton.mp hy]
      exact ⟨_, hself, rfl⟩
  · rw [hbusy]
    exact hold.distinct.append (List.nodup_singleton _) (by simpa using hnot)
  · intro s hs
    rw [← List.append_assoc] at hs
    rcases List.mem_append.mp hs with hs | hs
    · exact hold.staged s hs
    · rw [List.mem_singleton.mp hs]
      exact ⟨_, hself, rfl⟩
  · intro s hs
    rcases List.mem_append.mp hs with hs | hs
    · obtain ⟨hk, ht⟩ := h.queues.index s hs
      exact ⟨hk.trans Finset.subset_union_left, ht.trans (Finset.subset_union_left.trans
        Finset.subset_union_left)⟩
    · rw [List.mem_singleton.mp hs]
      refine ⟨Finset.subset_union_right, ?_⟩
      rw [Finset.union_assoc]
      exact Finset.subset_union_right
  · refine List.pairwise_append.mpr ⟨hold.queue, List.pairwise_singleton _ _, fun a ha' b hb u hu => ?_⟩
    rw [List.mem_singleton.mp hb] at hu
    obtain ⟨hk, ht⟩ := h.queues.index a ha'
    have hu' := hself.symm.trans hu
    cases hu'
    have hadm := ha.mono hk ht
    exact ⟨hadm.writes, hadm.dropped, hadm.ranges, hadm.points⟩

theorem Inv.stageCommit (h : Inv σ) (hr : ready σ x = some t) : Inv (stageCommit σ t).1 := by
  obtain ⟨ht, hl, hp⟩ := ready_eq hr
  obtain ⟨rfl, -, -, -⟩ := h.identities.own x t ht
  cases hout : (Txn.stageCommit σ t).2 with
  | error e =>
    rw [stageCommit_error hout]
    exact h.update ht hp (h.evolve_pruned ht t.phase) hp
  | ok u =>
    obtain ⟨hadm, heq⟩ := stageCommit_ok hout
    rw [heq]
    have hf : Follows σ.history σ.transactions
        (σ.transactions.insert t.id { pruneReads t with phase := .waiting }) σ.lane.waveIds
        σ.lane.waveIds := .insert h.registered ht (h.evolve_pruned ht .waiting) (by simp [hp])
    exact h.follow hf h.lifecycles.lookups (h.staged_queues ht hp hl hadm)
      (fun _ _ _ _ he => .inl he) h.registered.recent

theorem Inv.relane (h : Inv σ) {lane' : Lane} {queue' : List StagedCommit}
    {prepare' publishing' : Unpublished} (hw : lane'.wave = σ.lane.wave)
    (hpl : lane'.plan = σ.lane.plan) (hc : lane'.caughtUp = σ.lane.caughtUp)
    (hres : lane'.reserving = σ.lane.reserving) (htp : lane'.treePuts = σ.lane.treePuts)
    (hq : Queues σ.transactions lane' queue' prepare' σ.lookups) :
    Inv { σ with
      lane := lane', queue := queue', prepare := prepare', publishing := publishing' } := by
  have hids : lane'.waveIds = σ.lane.waveIds := by rw [Lane.waveIds, hw, Lane.waveIds]
  refine ⟨?_, ?_, ?_, ?_, h.durable, ?_, h.implied, ?_, ?_, hq, h.registered, h.recorded, h.serial⟩
  · dsimp only; rw [hc]; exact h.sequence
  · dsimp only; rw [hw, Lane.prunable, hpl]; exact h.statuses
  · dsimp only; rw [hw]; exact h.tables
  · dsimp only; rw [hpl]; exact h.pending
  · dsimp only; rw [hids]; exact h.identities
  · dsimp only; rw [hids, hres]; exact h.ownership
  · dsimp only; rw [htp]; exact h.lifecycles

theorem Inv.takeStaged (h : Inv σ) (hl : σ.lane = .idle) : Inv (takeStaged σ) := by
  have hq := h.queues
  rw [hl] at hq
  refine h.relane (by rw [hl]; rfl) (by rw [hl]; rfl) (by rw [hl]; rfl) (by rw [hl]; rfl)
    (by rw [hl]; rfl) ?_
  have hserves : (Lane.drained σ.queue).serves ++ ([] : List StagedCommit).map (·.transaction) =
      Lane.idle.serves ++ σ.queue.map (·.transaction) := by
    simp [Lane.serves, Lane.taken, Lane.waveIds, Lane.wave, Lane.reserving]
  refine ⟨by rw [hserves]; exact hq.waiting, by rw [hserves]; exact hq.distinct, ?_, by simp,
    hq.queue, .nil, hq.lookups⟩
  simpa [Lane.taken, Lane.wave] using hq.staged

theorem Inv.releaseLane (h : Inv σ) (hl : σ.lane = .settled) : Inv (releaseLane σ) := by
  have hq := h.queues
  rw [hl] at hq
  exact h.relane (by rw [hl]; rfl) (by rw [hl]; rfl) (by rw [hl]; rfl) (by rw [hl]; rfl)
    (by rw [hl]; rfl) (hq.relane rfl rfl rfl)

end OmenDb.Txn
