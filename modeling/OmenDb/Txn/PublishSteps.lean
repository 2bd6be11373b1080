import OmenDb.Txn.Publication

/-! The lane's steps from a drained queue to the announcement of its outcome. -/
namespace OmenDb.Txn

variable {σ : State} {ms : List Member} {store' : VersionStore} {q : List StagedCommit}

theorem mem_serves_drained {x : ℕ} (hx : x ∈ q.map (·.transaction)) :
    x ∈ (Lane.drained q).serves ++ σ.queue.map (·.transaction) := by
  simp only [Lane.serves, Lane.taken, List.mem_append]
  exact .inl (.inl (.inl hx))

theorem Inv.queue_apart (h : Inv σ) (hl : σ.lane = .drained q) {x : ℕ}
    (hx : x ∈ σ.queue.map (·.transaction)) : x ∉ q.map (·.transaction) := by
  intro hq
  have hd := h.queues.distinct
  rw [hl] at hd
  refine (List.nodup_append.mp hd).2.2 x ?_ x hx rfl
  simp only [Lane.serves, Lane.taken, List.mem_append]
  exact .inl (.inl hq)

theorem Inv.drained_waiting (h : Inv σ) (hl : σ.lane = .drained q) {x : ℕ}
    (hx : x ∈ q.map (·.transaction)) : ∃ t, σ.transactions[x]? = some t ∧ t.phase = .waiting := by
  have hw := h.queues.waiting
  rw [hl] at hw
  exact hw x (mem_serves_drained hx)

theorem Inv.abandon (h : Inv σ) (hl : σ.lane = .drained q)
    (hx : VersionStore.Extends σ.versions store') (l : List ℕ)
    (hmem : ∀ x ∈ l, x ∈ q.map (·.transaction)) :
    Inv { σ with
      versions := store', transactions := l.foldl (setPhase .active) σ.transactions,
      lane := .settled } := by
  have hw : σ.lane.wave = [] := by rw [hl]; rfl
  have hids : σ.lane.waveIds = [] := by simp [Lane.waveIds, hw]
  have hf : Follows σ.history σ.transactions (l.foldl (setPhase .active) σ.transactions) [] [] := by
    refine .resume h.registered l fun x hx t ht => ?_
    obtain ⟨u, hu, hp⟩ := h.drained_waiting hl (hmem x hx)
    rw [ht] at hu
    cases hu
    simp [hp]
  have hT := h.tables
  rw [hw] at hT
  have hlife := h.lifecycles.grow hx []
  rw [hl] at hlife
  refine ⟨?_, ?_, ?_, by rintro plan ⟨⟩, h.durable, ?_, h.implied, ?_, hlife, ?_, ?_, h.recorded.follow hf,
    h.serial⟩
  · have hs := h.sequence
    rw [hl] at hs
    exact hs
  · have hs := h.statuses
    rw [hl] at hs
    exact hs
  · exact ⟨(hT.data.extend hx).mono fun _ => hf.guarded, (hT.trees.extend hx).mono fun _ => hf.guarded⟩
  · have hi := h.identities
    rw [hids] at hi
    exact hi.follow hf
  · have ho := h.ownership
    rw [hids, hl] at ho
    have hi := h.identities
    rw [hids] at hi
    exact ho.follow hi hf
  · refine h.queues.retire (List.nil_sublist _) rfl (by simp [Lane.wave]) (fun x hx => ?_)
      (lookups_resume h.queues.lookups l)
    refine foldl_setPhase_of_notMem fun hxl => ?_
    rcases List.mem_append.mp hx with hx | hx
    · simp [Lane.serves, Lane.taken, Lane.waveIds, Lane.wave, Lane.reserving] at hx
    · exact h.queue_apart hl hx (hmem x hxl)
  · exact h.registered.follow hf (fun _ _ _ _ he => .inl he) h.registered.recent

theorem Inv.install (h : Inv σ) (hl : σ.lane = .drained q) (hok : WaveOk σ ms store')
    (hsub : (ms.map (·.staged)).Sublist q) (l : List ℕ) (hmem : ∀ x ∈ l, x ∈ q.map (·.transaction))
    (hapart : ∀ m ∈ ms, m.staged.transaction ∉ l) :
    Inv { σ with
      versions := store'
      transactions := l.foldl (setPhase .active) σ.transactions
      synced := store'.nextId
      db := σ.db.commitGroup ms
      history := waveCommits σ.reads ms ++ σ.history
      lane := .installed ms } := by
  have hw : σ.lane.wave = [] := by rw [hl]; rfl
  have hT := hok.tables h hw
  have hreg : Registered σ.transactions σ.reads (waveCommits σ.reads ms ++ σ.history)
      σ.nextTransaction := h.registered.grow fun x t ht c hc => hok.snapshot_lt h ht hc
  have hf : Follows (waveCommits σ.reads ms ++ σ.history) σ.transactions
      (l.foldl (setPhase .active) σ.transactions) (ms.map (·.staged.transaction))
      (ms.map (·.staged.transaction)) := by
    refine .resume hreg l fun x hx t ht => ?_
    obtain ⟨u, hu, hp⟩ := h.drained_waiting hl (hmem x hx)
    rw [ht] at hu
    cases hu
    simp [hp]
  refine ⟨hok.sequence h, ?_, hT.follow hf, nofun, hT.durable, (hok.identities h hw).follow hf,
    hok.implied h, (hok.ownership h hw).follow (hok.identities h hw) hf, hok.lifecycles h hw, ?_,
    hreg.follow hf (fun _ _ _ _ he => .inl he) hreg.recent, (hok.recorded h).follow hf,
    hok.serial h hw⟩
  · have hs := h.statuses
    rw [hw, hl] at hs
    have hs' : σ.db.statuses = σ.statuses := by simpa [resolved, Lane.prunable, Lane.plan] using hs
    simp only [commitGroup_statuses, hs', Lane.prunable, Lane.plan, Option.map_none,
      Option.getD_none, OrdMap.eraseAll_empty]
    rfl
  · refine h.queues.retire ?_ rfl (fun m hm => ?_) (fun x hx => ?_)
      (lookups_resume h.queues.lookups l)
    · rw [hl]
      have := hsub.map (·.transaction)
      rw [List.map_map] at this
      simpa [Lane.serves, Lane.taken, Lane.waveIds, Lane.wave, Lane.reserving, Function.comp_def] using this
    · rw [hl]
      exact List.mem_append_left _ (hsub.subset (List.mem_map_of_mem hm))
    · refine foldl_setPhase_of_notMem fun hxl => ?_
      rcases List.mem_append.mp hx with hx | hx
      · have hx : x ∈ ms.map (·.staged.transaction) := by
          simpa [Lane.serves, Lane.taken, Lane.waveIds, Lane.wave, Lane.reserving] using hx
        obtain ⟨m, hm, rfl⟩ := List.mem_map.mp hx
        exact hapart m hm hxl
      · exact h.queue_apart hl hx (hmem x hxl)

theorem foldl_failures (ts : OrdMap ℕ Transaction) (l : List (ℕ × Error)) :
    l.foldl (fun ts f => setPhase .active ts f.1) ts =
      (l.map (·.1)).foldl (setPhase .active) ts := List.foldl_map.symm

theorem foldl_members (phase : Phase) (ts : OrdMap ℕ Transaction) (ms : List Member) :
    ms.foldl (fun ts m => setPhase phase ts m.staged.transaction) ts =
      (ms.map (·.staged.transaction)).foldl (setPhase phase) ts := List.foldl_map.symm

theorem Inv.publishDrained (h : Inv σ) (hl : σ.lane = .drained q) (outcome : EngineOutcome) :
    Inv (publishDrained σ q outcome) := by
  have hb : WaveBuilt σ.db σ.statuses σ.versions q (buildWave σ.db σ.statuses σ.versions q) :=
    buildWave_spec h.tables.known q
  have hok := h.wave_ok hl
  unfold Txn.publishDrained
  generalize buildWave σ.db σ.statuses σ.versions q = b at hb hok
  have hfail : ∀ x ∈ b.failures.map (·.1), x ∈ q.map (·.transaction) := fun x hx =>
    hb.settled.subset (List.mem_append_right _ hx)
  have hmembers : ∀ x ∈ b.members.map (·.staged.transaction), x ∈ q.map (·.transaction) :=
    fun x hx => hb.settled.subset (List.mem_append_left _ hx)
  have hnodup : (b.members.map (·.staged.transaction) ++ b.failures.map (·.1)).Nodup := by
    refine hb.settled.nodup_iff.mpr ?_
    have hd := h.queues.distinct
    rw [hl] at hd
    have hd := hd.of_append_left
    simpa [Lane.serves, Lane.taken, Lane.waveIds, Lane.wave, Lane.reserving] using hd
  have habandon : Inv { σ with
      versions := b.store
      transactions := (b.failures.map (·.1) ++ b.members.map (·.staged.transaction)).foldl
        (setPhase .active) σ.transactions
      lane := .settled } :=
    h.abandon hl hb.extends_store _ fun x hx =>
      (List.mem_append.mp hx).elim (hfail x) (hmembers x)
  dsimp only
  rw [foldl_failures]
  split
  · exact h.abandon hl hb.extends_store _ hfail
  · cases outcome with
    | published =>
      exact h.install hl hok hb.survivors _ hfail fun m hm hx =>
        (List.nodup_append.mp hnodup).2.2 _ (List.mem_map_of_mem hm) _ hx rfl
    | syncFailed | refused =>
      dsimp only
      rw [foldl_members, ← List.foldl_append]
      exact habandon

theorem Inv.publishPosition (h : Inv σ) (hl : σ.lane = .installed ms) : Inv (publishPosition σ ms) := by
  have hle := h.sequence.published_le
  have hguard : ∀ s, Guarded σ.db.csn σ.transactions s → Guarded σ.published σ.transactions s :=
    fun s hs => hs.imp hle.trans id
  obtain ⟨hpos, hbd, hsort, -, -⟩ := h.sequence
  have hst := h.statuses
  have hT := h.tables
  have hid := h.identities
  have ho := h.ownership
  have hli := h.lifecycles
  have hq := h.queues
  rw [hl] at hst hT hid ho hli hq
  refine ⟨⟨hpos, hbd, hsort, le_rfl, fun _ => rfl⟩, hst, ⟨hT.data.mono hguard, hT.trees.mono hguard⟩,
    nofun, h.durable, ⟨hid.positive, fun x t ht => ?_, hid.past, hid.fresh⟩, h.implied, ho, hli,
    hq.relane rfl rfl rfl, h.registered,
    fun c hc hlt => h.recorded c hc (hlt.imp hle.trans_lt id), h.serial⟩
  obtain ⟨h1, h2, h3, h4⟩ := hid.own x t ht
  exact ⟨h1, h2, h3, h4.trans hle⟩

theorem foldl_mirror (m : OrdMap ℕ CurrentRecord) (ms : List Member) :
    ms.foldl (fun m w => m.insertAll w.treePuts) m = m.insertAll (ms.flatMap (·.treePuts)) := by
  induction ms generalizing m with
  | nil => rfl
  | cons w ws ih => rw [List.foldl_cons, ih, List.flatMap_cons, OrdMap.insertAll_append]

theorem Lifecycles.mirror_insertAll {db : Db} {mirror : OrdMap ℕ CurrentRecord}
    {lookups : OrdMap ℕ (ℕ × CurrentRecord)} {installed : List (ℕ × CurrentRecord)}
    {versions : VersionStore} {history : List Commit}
    (h : Lifecycles db mirror lookups installed versions history) :
    Lifecycles db (mirror.insertAll installed) lookups installed versions history where
  trees := h.trees
  mirror tree r hr := by
    have main : ∀ (ps : List (ℕ × CurrentRecord)) (m : OrdMap ℕ CurrentRecord),
        (∀ p ∈ ps, LiveSourced versions history p.1 p.2) →
        (∀ (k : ℕ) (r : CurrentRecord), m[k]? = some r → LiveSourced versions history k r) →
        ∀ (k : ℕ) (r : CurrentRecord), (m.insertAll ps)[k]? = some r →
          LiveSourced versions history k r := by
      intro ps
      induction ps with
      | nil => intro m _ hm; exact hm
      | cons p ps ih =>
        intro m hp hm
        refine ih (m.insert p.1 p.2) (fun q hq => hp q (by simp [hq])) fun k r hk => ?_
        rw [OrdMap.get_insert] at hk
        split at hk
        · next heq => cases hk; rw [← heq]; exact hp p (by simp)
        · exact hm k r hk
    exact main installed mirror h.installed h.mirror tree r hr
  lookups := h.lookups
  installed := h.installed

theorem Inv.publishMirror (h : Inv σ) (hl : σ.lane = .positioned ms) : Inv (publishMirror σ ms) := by
  have hseq := h.sequence
  have hst := h.statuses
  have hT := h.tables
  have hid := h.identities
  have ho := h.ownership
  have hli := h.lifecycles.mirror_insertAll
  have hq := h.queues
  rw [hl] at hseq hst hT hid ho hli hq
  refine ⟨hseq, hst, hT, nofun, h.durable, hid, h.implied, ho, ?_, hq.relane rfl rfl rfl, h.registered,
    h.recorded, h.serial⟩
  change Lifecycles σ.db (ms.foldl (fun m w => m.insertAll w.treePuts) σ.mirror) _ _ _ _
  rw [foldl_mirror]
  exact hli

theorem Inv.publishStatuses (h : Inv σ) (hl : σ.lane = .mirrored ms) : Inv (publishStatuses σ ms) := by
  have hseq := h.sequence
  have hst := h.statuses
  have hT := h.tables
  have hid := h.identities
  have ho := h.ownership
  have hli := h.lifecycles
  have hq := h.queues
  rw [hl] at hseq hst hT hid ho hli hq
  have hf : Follows σ.history σ.transactions
      ((ms.map (·.staged.transaction)).foldl (setPhase .done) σ.transactions)
      (ms.map (·.staged.transaction)) [] := .settle h.registered _
  unfold Txn.publishStatuses
  rw [foldl_members]
  refine ⟨hseq, hst, hT.follow hf, nofun, h.durable, hid.follow hf, h.implied, ho.follow hid hf,
    ⟨hli.trees, hli.mirror, hli.lookups, by simp [Lane.treePuts]⟩, ?_,
    h.registered.follow hf (fun _ _ _ _ he => .inl he) h.registered.recent, h.recorded.follow hf,
    h.serial⟩
  -- the members wait until now, so neither the queue nor a pending lookup names one
  have hwait : ∀ x ∈ ms.map (·.staged.transaction),
      x ∈ (Lane.mirrored ms).serves := fun x hx => by
    simpa [Lane.serves, Lane.taken, Lane.waveIds, Lane.wave, Lane.reserving] using hx
  refine hq.retire (List.nil_sublist _) rfl (by simp [Lane.wave]) (fun x hx => ?_)
    fun x p hx => ?_
  · refine foldl_setPhase_of_notMem fun hxl => ?_
    rcases List.mem_append.mp hx with hx | hx
    · simp [Lane.serves, Lane.taken, Lane.waveIds, Lane.wave, Lane.reserving] at hx
    · exact (List.nodup_append.mp hq.distinct).2.2 x (hwait x hxl) x hx rfl
  · obtain ⟨t, ht, hp⟩ := hq.lookups x p hx
    refine ⟨t, ?_, hp⟩
    rw [foldl_setPhase_of_notMem, ht]
    exact fun hxl => hq.notMem ht (by simp [hp]) (List.mem_append_left _ (hwait x hxl))

end OmenDb.Txn
