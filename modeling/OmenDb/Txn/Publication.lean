import OmenDb.Txn.Validation

/-! Publishing a wave. The members of a wave write disjoint keys and trees, so installing them as
one group extends the history by one commit each, and each member's reads still hold at its own
place in the sequence. -/
namespace OmenDb.Txn

/-- What the lane knows about the wave it built from a drained queue. -/
structure WaveOk (σ : State) (ms : List Member) (store' : VersionStore) : Prop where
  extends_store : VersionStore.Extends σ.versions store'
  built : ∀ m ∈ ms, Built σ.db σ.statuses σ.versions store' m
  staged : ∀ m ∈ ms, ∃ t, σ.transactions[m.staged.transaction]? = some t ∧ t.phase = .waiting ∧
    m.staged = stagedOf t
  distinct : (ms.map (·.staged.transaction)).Nodup
  ordered : ms.Pairwise fun a b =>
    a.assigned < b.assigned ∧ Before σ.transactions a.staged b.staged
  assigned : ∀ m ∈ ms, σ.db.csn < m.assigned ∧ m.assigned ≤ σ.db.csn + ms.length

variable {σ : State} {ms : List Member} {store' : VersionStore} {q : List StagedCommit}

variable {db : Db} {statuses : Statuses} {versions : VersionStore} {guarded : ℕ → Prop} {history : List Commit}
  {reads : OrdMap ℕ (List ReadEvent)} {m : Member} {tree x : ℕ} {c : Commit}

theorem Tables.known (h : Tables db statuses versions guarded history) :
    db.Known versions := ⟨fun l => (h.data.cell l).known, fun tree => (h.trees.cell tree).known⟩

theorem Inv.wave_ok (h : Inv σ) (hl : σ.lane = .drained q) :
    WaveOk σ (buildWave σ.db σ.statuses σ.versions q).members
      (buildWave σ.db σ.statuses σ.versions q).store := by
  have hb : WaveBuilt σ.db σ.statuses σ.versions q (buildWave σ.db σ.statuses σ.versions q) :=
    buildWave_spec h.tables.known q
  have hq := h.queues
  rw [hl] at hq
  have hmem : ∀ m ∈ (buildWave σ.db σ.statuses σ.versions q).members, m.staged ∈ q :=
    fun m hm => hb.survivors.subset (List.mem_map_of_mem hm)
  refine ⟨hb.extends_store, hb.built, fun m hm => ?_, ?_, ?_, fun m hm => ?_⟩
  · obtain ⟨t, ht, hst⟩ := hq.staged m.staged (by simp [Lane.taken, hmem m hm])
    obtain ⟨u, hu, hw⟩ := hq.waiting m.staged.transaction (by
      simp only [Lane.serves, Lane.taken, List.mem_append, List.mem_map]
      exact .inl (.inl (.inl ⟨m.staged, hmem m hm, rfl⟩)))
    rw [ht] at hu
    cases hu
    exact ⟨t, ht, hw, hst⟩
  · have hnd : (q.map (·.transaction)).Nodup := by
      have := hq.distinct
      simp only [Lane.serves, Lane.taken, Lane.waveIds, Lane.wave, Lane.reserving, List.map_nil,
        List.append_nil, Option.map_none, Option.toList_none] at this
      exact this.of_append_left
    have hsub := hb.survivors.map (·.transaction)
    rw [List.map_map] at hsub
    exact hsub.nodup hnd
  · have hlt : ((buildWave σ.db σ.statuses σ.versions q).members.map (·.assigned)).Pairwise
        (· < ·) := by
      rw [hb.assigned]
      exact List.pairwise_lt_range'
    have hbef := hq.taken.sublist hb.survivors
    exact (List.pairwise_map.mp hlt).and (List.pairwise_map.mp hbef)
  · have hmem' : m.assigned ∈ (buildWave σ.db σ.statuses σ.versions q).members.map (·.assigned) :=
      List.mem_map_of_mem hm
    rw [hb.assigned, List.mem_range'_1] at hmem'
    omega

theorem WaveOk.before (h : WaveOk σ ms store') {a b : Member} (ha : a ∈ ms) (hb : b ∈ ms)
    (hlt : a.assigned < b.assigned) : Before σ.transactions a.staged b.staged := by
  have hR : ms.Pairwise fun a b => (a.assigned < b.assigned → Before σ.transactions a.staged b.staged) ∧
      (b.assigned < a.assigned → Before σ.transactions b.staged a.staged) :=
    h.ordered.imp fun hab => ⟨fun _ => hab.2, fun hba => absurd hab.1 (by omega)⟩
  have hsymm : Std.Symm fun a b : Member =>
      (a.assigned < b.assigned → Before σ.transactions a.staged b.staged) ∧
      (b.assigned < a.assigned → Before σ.transactions b.staged a.staged) := ⟨fun _ _ h => h.symm⟩
  exact (hR.forall ha hb (fun heq => by rw [heq] at hlt; exact lt_irrefl _ hlt)).1 hlt

section Puts
variable {K : Type} {F : Family K} {c : Commit} {current : K → CurrentRecord}
  {writes : List (K × Option Bytes)} {store : VersionStore} {puts : List (K × CurrentRecord)}

section

variable (h : Puts current c.transaction writes store store' puts)
include h

theorem Puts.field_iff (hf : ∀ k v, F.field k c = some v ↔ (k, v) ∈ writes) (k : K) :
    (F.field k c).isSome ↔ ∃ r, (k, r) ∈ puts := by
  have hk : (∃ r, (k, r) ∈ puts) ↔ k ∈ puts.map Prod.fst := by simp
  rw [hk, h.keys, Option.isSome_iff_exists]
  simp [hf]

theorem Puts.put_family (hf : ∀ k v, F.field k c = some v ↔ (k, v) ∈ writes) {p : K × CurrentRecord} (hp : p ∈ puts) :
    Family.Put F p.1 c (current p.1) store store' p.2 := by
  obtain ⟨hw, ht, hc, hk, hch⟩ := h.put p hp
  exact ⟨hk, hch, ht, hc, (hf _ _).mpr hw⟩

theorem Puts.distinct (hd : writes.Pairwise fun a b => a.1 ≠ b.1) : puts.Pairwise fun a b => a.1 ≠ b.1 := by
  have hkeys : (writes.map Prod.fst).Pairwise (· ≠ ·) := List.pairwise_map.mpr hd
  rw [← h.keys] at hkeys
  exact List.pairwise_map.mp hkeys

end

end Puts

section Fields
variable (reads : OrdMap ℕ (List ReadEvent)) (m : Member)

theorem data_field_iff (l : Loc) (v : Option Bytes) :
    dataFamily.field l (m.commit reads) = some v ↔ (l, v) ∈ m.staged.writes.toList :=
  (OrdMap.mem_toList _ _ _).symm

theorem tree_field_iff (tree : ℕ) (v : Option Bytes) :
    treeFamily.field tree (m.commit reads) = some v ↔
      (tree, v) ∈ m.staged.treeLifecycles.toList.map fun p => (p.1, some p.2) := by
  simp only [treeFamily, Member.commit, Option.map_eq_some_iff, List.mem_map, Prod.mk.injEq,
    Prod.exists, OrdMap.mem_toList]
  constructor
  · rintro ⟨b, hb, rfl⟩
    exact ⟨tree, b, hb, rfl, rfl⟩
  · rintro ⟨k, b, hb, rfl, rfl⟩
    exact ⟨b, hb, rfl⟩

end Fields

theorem WaveOk.apart_data (h : WaveOk σ ms store') :
    ms.Pairwise (Family.Apart dataFamily (Member.commit σ.reads)) := by
  refine h.ordered.imp_of_mem fun {a b} ha hb hab l => ?_
  rintro ⟨hla, hlb⟩
  obtain ⟨ta, -, -, hsa⟩ := h.staged a ha
  obtain ⟨tb, htb, -, hsb⟩ := h.staged b hb
  have hadm := hab.2 tb htb
  rw [hsa] at hadm
  have hwa : l ∈ (stagedOf ta).writes := by
    rw [← hsa, OrdMap.mem_iff_get]
    exact Option.isSome_iff_exists.mp hla
  have hwb : l ∈ (stagedOf tb).writes := by
    rw [← hsb, OrdMap.mem_iff_get]
    exact Option.isSome_iff_exists.mp hlb
  exact hadm.apart (.inr (.inl (mem_stagedOf_writes.mp hwb).1)) hwa

theorem mem_lifecycles_of_field
    (h : (treeFamily.field tree (m.commit reads)).isSome) : tree ∈ m.staged.treeLifecycles := by
  rw [OrdMap.mem_iff_get]
  simp only [treeFamily, Member.commit, Option.isSome_map] at h
  exact Option.isSome_iff_exists.mp h

/-- Two waiting transactions never change the same tree in one wave: a drop is checked against the
trees ahead of it, and a created tree is known to its creator alone. -/
theorem WaveOk.apart_trees (h : WaveOk σ ms store') (hi : Inv σ) (hw : σ.lane.wave = []) :
    ms.Pairwise (Family.Apart treeFamily (Member.commit σ.reads)) := by
  have hids : ∀ x, x ∉ σ.lane.waveIds := by simp [Lane.waveIds, hw]
  have hne : ms.Pairwise fun a b => a.staged.transaction ≠ b.staged.transaction :=
    List.pairwise_map.mp h.distinct
  refine (h.ordered.and hne).imp_of_mem fun {a b} ha hb hab tree => ?_
  rintro ⟨hta, htb⟩
  obtain ⟨ta, hga, hpa, hsa⟩ := h.staged a ha
  obtain ⟨tb, hgb, hpb, hsb⟩ := h.staged b hb
  have hma := mem_lifecycles_of_field hta
  have hmb := mem_lifecycles_of_field htb
  rw [hsa, mem_stagedOf_lifecycles] at hma
  rw [hsb, mem_stagedOf_lifecycles] at hmb
  have hadm := hab.1.2 tb hgb
  by_cases hdb : tree ∈ tb.dropped
  · refine hadm.dropped tree hdb (Finset.mem_union_left _ ?_)
    rw [hsa]
    exact Finset.mem_union.mpr hma
  · have hcb : tree ∈ tb.created := hmb.resolve_right hdb
    have hun := hi.ownership.unopened _ tb hgb (by simp [hpb]) (hids _) tree hcb
    have hca : tree ∈ ta.created := by
      rcases hma with hc | hd
      · exact hc
      · exact (hi.ownership.dropped _ ta hga tree hd).resolve_right hun
    exact hab.2 (hi.ownership.unique _ _ tree (hi.ownership.created _ ta hga tree hca)
      (hi.ownership.created _ tb hgb tree hcb))

def waveCommits (reads : OrdMap ℕ (List ReadEvent)) (ms : List Member) : List Commit :=
  (ms.map (Member.commit reads)).reverse

theorem mem_waveCommits : c ∈ waveCommits reads ms ↔ ∃ m ∈ ms, m.commit reads = c := by
  simp [waveCommits]

section Resolved
variable {statuses : Statuses}

theorem resolved_of_mem (hd : (ms.map (·.staged.transaction)).Nodup) {m : Member} (hm : m ∈ ms) :
    (resolved statuses ms)[m.staged.transaction]? = some m.assigned := by
  refine OrdMap.get_insertAll_of_mem _ ?_ (List.mem_map.mpr ⟨m, hm, rfl⟩)
  rw [List.pairwise_map]
  exact List.pairwise_map.mp hd

theorem resolved_of_notMem {x : ℕ} (hx : x ∉ ms.map (·.staged.transaction)) :
    (resolved statuses ms)[x]? = statuses[x]? := by
  refine OrdMap.get_insertAll_of_notMem _ fun p hp hpx => hx ?_
  obtain ⟨m, hm, rfl⟩ := List.mem_map.mp hp
  exact List.mem_map.mpr ⟨m, hm, hpx⟩

end Resolved

section

variable (h : WaveOk σ ms store')
include h

theorem WaveOk.uncommitted (hi : Inv σ) (hw : σ.lane.wave = []) (hm : m ∈ ms) :
    ¬ Committed σ.history m.staged.transaction := by
  obtain ⟨t, ht, hp, -⟩ := h.staged m hm
  exact hi.identities.fresh _ t ht (by simp [hp]) (by simp [Lane.waveIds, hw])

theorem WaveOk.grows (hi : Inv σ) (hw : σ.lane.wave = []) :
    Family.Grows σ.history σ.db.csn (σ.db.csn + ms.length) σ.statuses (resolved σ.statuses ms) where
  committed x hx := by
    refine resolved_of_notMem fun hmem => ?_
    obtain ⟨m, hm, rfl⟩ := List.mem_map.mp hmem
    exact h.uncommitted hi hw hm hx
  moved x := by
    by_cases hx : x ∈ ms.map (·.staged.transaction)
    · obtain ⟨m, hm, rfl⟩ := List.mem_map.mp hx
      obtain ⟨hlo, hhi⟩ := h.assigned m hm
      exact .inr ⟨m.assigned, resolved_of_mem h.distinct hm, hlo.le, hhi⟩
    · exact .inl (resolved_of_notMem hx)

theorem WaveOk.commit_facts (hi : Inv σ)
    (hc : c ∈ waveCommits σ.reads ms) : c.csn ≤ σ.db.csn + ms.length ∧ c.transaction ≠ 0 ∧
      (resolved σ.statuses ms)[c.transaction]? = some c.csn := by
  obtain ⟨m, hm, rfl⟩ := mem_waveCommits.mp hc
  obtain ⟨t, ht, -, -⟩ := h.staged m hm
  exact ⟨(h.assigned m hm).2, (hi.identities.own _ t ht).2.1.ne', resolved_of_mem h.distinct hm⟩

theorem WaveOk.lifecycle_value (hm : m ∈ ms)
    {v : Bytes} (hv : m.staged.treeLifecycles[tree]? = some v) : v = treeLive ∨ v = treeDropped := by
  obtain ⟨t, -, -, hs⟩ := h.staged m hm
  rw [hs, stagedOf_lifecycle] at hv
  split at hv
  · cases hv; exact .inr rfl
  · split at hv
    · cases hv; exact .inl rfl
    · cases hv

theorem WaveOk.installs_data :
    Family.Installs dataFamily σ.db.data (σ.db.data.insertAll (ms.flatMap (·.dataPuts))) σ.versions
      store' (waveCommits σ.reads ms) :=
  Family.installs_group (·.dataPuts) (Member.commit σ.reads) h.apart_data
    (fun m hm => (h.built m hm).data.field_iff (c := m.commit σ.reads) (data_field_iff σ.reads m))
    (fun m hm _ hp => (h.built m hm).data.put_family (c := m.commit σ.reads)
      (data_field_iff σ.reads m) hp)
    (fun m hm => (h.built m hm).data.distinct (c := m.commit σ.reads)
      m.staged.writes.distinct_toList)

theorem WaveOk.installs_trees (hi : Inv σ) (hw : σ.lane.wave = []) :
    Family.Installs treeFamily σ.db.trees (σ.db.trees.insertAll (ms.flatMap (·.treePuts))) σ.versions
      store' (waveCommits σ.reads ms) :=
  Family.installs_group (·.treePuts) (Member.commit σ.reads) (h.apart_trees hi hw)
    (fun m hm => (h.built m hm).trees.field_iff (c := m.commit σ.reads) (tree_field_iff σ.reads m))
    (fun m hm _ hp => (h.built m hm).trees.put_family (c := m.commit σ.reads)
      (tree_field_iff σ.reads m) hp)
    (fun m hm => (h.built m hm).trees.distinct (c := m.commit σ.reads)
      (List.pairwise_map.mpr m.staged.treeLifecycles.distinct_toList))

theorem WaveOk.tables (hi : Inv σ) (hw : σ.lane.wave = []) :
    Tables (σ.db.commitGroup ms) (resolved σ.statuses ms) store'
      (Guarded σ.published σ.transactions) (waveCommits σ.reads ms ++ σ.history) := by
  have hT := hi.tables
  rw [hi.resolved_eq hw] at hT
  have hg := h.grows hi hw
  have hfacts := fun c hc => h.commit_facts hi (c := c) hc
  refine ⟨?_, ?_⟩
  · rw [commitGroup_data, commitGroup_csn]
    refine hT.data.install h.installs_data h.extends_store hg (Nat.le_add_right _ _) hfacts
      fun l c hc v hv => .inr ⟨id, ?_⟩
    obtain ⟨m, hm, rfl⟩ := mem_waveCommits.mp hc
    rfl
  · rw [commitGroup_trees, commitGroup_csn]
    refine hT.trees.install (h.installs_trees hi hw) h.extends_store hg (Nat.le_add_right _ _) hfacts
      fun tree c hc v hv => .inr ?_
    obtain ⟨m, hm, rfl⟩ := mem_waveCommits.mp hc
    refine ⟨?_, rfl⟩
    obtain ⟨b, hb, rfl⟩ := Option.map_eq_some_iff.mp hv
    rcases h.lifecycle_value hm hb with rfl | rfl <;> simp [treeFamily, treeLive, treeDropped, treeReserved]

theorem WaveOk.sequence (hi : Inv σ) :
    Sequence (waveCommits σ.reads ms ++ σ.history) (σ.db.commitGroup ms).csn σ.published false := by
  have hs := hi.sequence
  rw [commitGroup_csn]
  refine ⟨fun c hc => ?_, fun c hc => ?_, ?_, hs.published_le.trans (Nat.le_add_right _ _), nofun⟩
  · rcases List.mem_append.mp hc with hc | hc
    · obtain ⟨m, hm, rfl⟩ := mem_waveCommits.mp hc
      exact (Nat.zero_le _).trans_lt (h.assigned m hm).1
    · exact hs.positive c hc
  · rcases List.mem_append.mp hc with hc | hc
    · exact (h.commit_facts hi hc).1
    · exact (hs.bounded c hc).trans (Nat.le_add_right _ _)
  · refine List.pairwise_append.mpr ⟨?_, hs.sorted, fun a ha b hb => ?_⟩
    · rw [waveCommits, List.pairwise_reverse, List.pairwise_map]
      exact h.ordered.imp And.left
    · obtain ⟨m, hm, rfl⟩ := mem_waveCommits.mp ha
      exact (hs.bounded b hb).trans_lt (h.assigned m hm).1

theorem WaveOk.snapshot_lt (hi : Inv σ) {t : Transaction}
    (ht : σ.transactions[x]? = some t) (hc : c ∈ waveCommits σ.reads ms) : t.snapshot < c.csn := by
  obtain ⟨m, hm, rfl⟩ := mem_waveCommits.mp hc
  have hle := (hi.identities.own x t ht).2.2.2.trans hi.sequence.published_le
  exact hle.trans_lt (h.assigned m hm).1

end

theorem mem_of_waveIds (hm : m ∈ ms) :
    m.staged.transaction ∈ ms.map (·.staged.transaction) := List.mem_map_of_mem hm

theorem WaveOk.identities (h : WaveOk σ ms store') (hi : Inv σ) (hw : σ.lane.wave = []) :
    Identities σ.transactions (waveCommits σ.reads ms ++ σ.history) σ.nextTransaction σ.published
      (ms.map (·.staged.transaction)) where
  positive := hi.identities.positive
  own := hi.identities.own
  past c hc := by
    rcases List.mem_append.mp hc with hc | hc
    · obtain ⟨m, hm, rfl⟩ := mem_waveCommits.mp hc
      obtain ⟨t, ht, -, -⟩ := h.staged m hm
      obtain ⟨-, h0, hlt, -⟩ := hi.identities.own _ t ht
      exact ⟨h0, hlt⟩
    · exact hi.identities.past c hc
  fresh x t ht hp hx := by
    rintro ⟨c, hc, rfl, hr⟩
    rcases List.mem_append.mp hc with hc | hc
    · obtain ⟨m, hm, rfl⟩ := mem_waveCommits.mp hc
      exact hx (mem_of_waveIds hm)
    · exact hi.identities.fresh _ t ht hp (by simp [Lane.waveIds, hw]) ⟨c, hc, rfl, hr⟩

theorem WaveOk.reservedBy (_h : WaveOk σ ms store')
    (hr : ReservedBy (waveCommits σ.reads ms ++ σ.history) x tree) : ReservedBy σ.history x tree := by
  obtain ⟨c, hc, hres, ht⟩ := hr
  rcases List.mem_append.mp hc with hc | hc
  · obtain ⟨m, _, rfl⟩ := mem_waveCommits.mp hc
    cases hres
  · exact ⟨c, hc, hres, ht⟩

theorem WaveOk.changed (h : WaveOk σ ms store') (hi : Inv σ) (hm : m ∈ ms)
    (ht : tree ∈ m.staged.treeLifecycles) :
    ReservedBy σ.history m.staged.transaction tree ∨ Opened σ.history tree := by
  obtain ⟨t, htx, -, hs⟩ := h.staged m hm
  rw [hs, mem_stagedOf_lifecycles] at ht
  rcases ht with hc | hd
  · exact .inl (hi.ownership.created _ t htx tree hc)
  · exact (hi.ownership.dropped _ t htx tree hd).imp (hi.ownership.created _ t htx tree) id

theorem WaveOk.ownership (h : WaveOk σ ms store') (hi : Inv σ) (hw : σ.lane.wave = []) :
    Ownership σ.transactions (waveCommits σ.reads ms ++ σ.history) σ.nextTree
      (ms.map (·.staged.transaction)) none where
  shape c hc := by
    rcases List.mem_append.mp hc with hc | hc
    · obtain ⟨m, hm, rfl⟩ := mem_waveCommits.mp hc
      exact ⟨nofun, fun _ tree v hv => h.lifecycle_value hm hv⟩
    · exact hi.ownership.shape c hc
  below c hc tree ht := by
    rcases List.mem_append.mp hc with hc | hc
    · obtain ⟨m, hm, rfl⟩ := mem_waveCommits.mp hc
      rcases h.changed hi hm ht with ⟨d, hd, _, _, hdt⟩ | ⟨d, hd, _, hdt⟩
      · exact hi.ownership.below d hd tree hdt
      · exact hi.ownership.below d hd tree hdt
    · exact hi.ownership.below c hc tree ht
  unique x y tree hx hy := hi.ownership.unique x y tree (h.reservedBy hx) (h.reservedBy hy)
  opened c hc l hl := by
    rcases List.mem_append.mp hc with hc | hc
    · obtain ⟨m, hm, rfl⟩ := mem_waveCommits.mp hc
      obtain ⟨t, htx, -, hs⟩ := h.staged m hm
      have hlw : l ∈ t.writes := by
        have : l ∈ (stagedOf t).writes := by rw [← hs]; exact hl
        exact (mem_stagedOf_writes.mp this).1
      rcases hi.ownership.writes _ t htx l hlw with hc | ho
      · refine ⟨m.commit σ.reads, List.mem_append_left _ (mem_waveCommits.mpr ⟨m, hm, rfl⟩), rfl, ?_⟩
        change l.tree ∈ m.staged.treeLifecycles
        rw [hs]
        exact mem_stagedOf_lifecycles.mpr (.inl hc)
      · exact ho.append _
    · exact (hi.ownership.opened c hc l hl).append _
  created x t ht tree hc := (hi.ownership.created x t ht tree hc).append _
  unopened x t ht hp hx tree hc := by
    have hun := hi.ownership.unopened x t ht hp (by simp [Lane.waveIds, hw]) tree hc
    rintro ⟨c, hc', hr, hct⟩
    rcases List.mem_append.mp hc' with hc' | hc'
    · -- the tree is known to its creator alone, which is not in the wave
      obtain ⟨m, hm, rfl⟩ := mem_waveCommits.mp hc'
      have hres := (h.changed hi hm hct).resolve_right hun
      have heq := hi.ownership.unique _ _ tree hres (hi.ownership.created x t ht tree hc)
      exact hx (heq ▸ mem_of_waveIds hm)
    · exact hun ⟨c, hc', hr, hct⟩
  dropped x t ht tree hd := (hi.ownership.dropped x t ht tree hd).imp id fun h => h.append _
  writes x t ht l hl := (hi.ownership.writes x t ht l hl).imp id fun h => h.append _
  states x t ht tree hs := (hi.ownership.states x t ht tree hs).append _
  reserving := nofun

/-- A member's reads hold at its own place in the sequence: nothing it depends on was written
since its snapshot, neither before the wave nor by an earlier member. -/
theorem WaveOk.serial (h : WaveOk σ ms store') (hi : Inv σ) (hw : σ.lane.wave = []) :
    Serial (waveCommits σ.reads ms ++ σ.history) := by
  refine hi.serial.grow (fun c hc d hd => ?_) hi.sequence.positive fun c hc e he => ?_
  · obtain ⟨m, hm, rfl⟩ := mem_waveCommits.mp hd
    exact (hi.sequence.bounded c hc).trans (h.assigned m hm).1.le
  · obtain ⟨m, hm, rfl⟩ := mem_waveCommits.mp hc
    obtain ⟨t, ht, hp, hs⟩ := h.staged m hm
    have hsound := hi.registered.event _ t ht e he
    have hval := validated_of_ok (h.built m hm).valid
    rw [hs] at hval
    have hsnap := h.snapshot_lt hi ht hc
    have hstart : storeAt t.snapshot (waveCommits σ.reads ms ++ σ.history) =
        storeAt t.snapshot σ.history := storeAt_append fun d hd => h.snapshot_lt hi ht hd
    rw [← hsound.answer, ← hstart]
    refine Read.eval_congr _ fun l hl hown => ?_
    have hdep := hsound.registered l hl hown
    rw [storeAt_get, storeAt_get, valueAt, valueAt]
    refine congrArg _ (lastAt_between (by omega) fun d hd hlo hhi => ?_).symm
    by_contra hne
    have hdl : l ∈ d.writes := (OrdMap.mem_iff_get _ _).mpr (Option.ne_none_iff_exists'.mp hne)
    rcases List.mem_append.mp hd with hd | hd
    · obtain ⟨a, ha, rfl⟩ := mem_waveCommits.mp hd
      obtain ⟨ta, -, -, hsa⟩ := h.staged a ha
      have hlt : a.assigned < m.assigned := by
        have hpos := (h.assigned m hm).1
        change a.assigned ≤ m.assigned - 1 at hhi
        omega
      have hadm := h.before ha hm hlt t ht
      rw [hsa] at hadm
      refine hadm.apart hdep ?_
      rw [← hsa]
      exact hdl
    · have := hi.quiet_depends hw ht (by simp [hp]) hval hdep d hd hdl
      omega

theorem Tables.durable (h : Tables db statuses versions guarded history) :
    Durable db versions.nextId where
  data l r hr id hid := by
    have hk := h.known.data l
    rw [hr] at hk
    obtain ⟨v, hv⟩ := hk id hid
    exact versions.lt_next hv
  trees tree r hr id hid := by
    have hk := h.known.trees tree
    rw [hr] at hk
    obtain ⟨v, hv⟩ := hk id hid
    exact versions.lt_next hv

theorem WaveOk.lifecycles (h : WaveOk σ ms store') (hi : Inv σ) (hw : σ.lane.wave = []) :
    Lifecycles (σ.db.commitGroup ms) σ.mirror σ.lookups (Lane.installed ms).treePuts store'
      (waveCommits σ.reads ms ++ σ.history) := by
  have hgrow := hi.lifecycles.grow h.extends_store (waveCommits σ.reads ms)
  -- a member of the wave gave the tree a lifecycle
  have hput : ∀ p ∈ ms.flatMap (·.treePuts), Opened (waveCommits σ.reads ms ++ σ.history) p.1 := by
    intro p hp
    obtain ⟨m, hm, hp⟩ := List.mem_flatMap.mp hp
    have hf := ((h.built m hm).trees.field_iff (c := m.commit σ.reads)
      (tree_field_iff σ.reads m) p.1).mpr ⟨p.2, hp⟩
    exact ⟨m.commit σ.reads, List.mem_append_left _ (mem_waveCommits.mpr ⟨m, hm, rfl⟩), rfl,
      mem_lifecycles_of_field hf⟩
  refine ⟨fun tree r hr => ⟨(h.tables hi hw).durable.trees tree r hr, fun e he hlive => ?_⟩,
    hgrow.mirror, hgrow.lookups, fun p hp => ⟨fun id hid => ?_, fun _ _ _ => hput p hp⟩⟩
  · rw [commitGroup_trees] at hr
    by_cases hmem : ∃ p ∈ ms.flatMap (·.treePuts), p.1 = tree
    · obtain ⟨p, hp, rfl⟩ := hmem
      exact hput p hp
    · rw [OrdMap.get_insertAll_of_notMem _ fun p hp hpt => hmem ⟨p, hp, hpt⟩] at hr
      exact (hgrow.trees tree r hr).live e he hlive
  · obtain ⟨m, hm, hp⟩ := List.mem_flatMap.mp hp
    obtain ⟨-, -, -, hk, -⟩ := (h.built m hm).trees.put p hp
    obtain ⟨v, hv⟩ := hk id hid
    exact store'.lt_next hv

theorem WaveOk.implied (h : WaveOk σ ms store') (hi : Inv σ) :
    Implied (σ.db.commitGroup ms) (waveCommits σ.reads ms ++ σ.history) := by
  intro c hc
  rw [commitGroup_statuses, (commitGroup_rest σ.db ms).2]
  change _ ∈ resolved σ.db.statuses ms ∨ _
  rcases List.mem_append.mp hc with hc | hc
  · obtain ⟨m, hm, rfl⟩ := mem_waveCommits.mp hc
    exact .inl ((OrdMap.mem_iff_get _ _).mpr ⟨_, resolved_of_mem h.distinct hm⟩)
  · refine (hi.implied c hc).imp (fun hmem => ?_) id
    rw [OrdMap.mem_iff_get]
    by_cases hx : c.transaction ∈ ms.map (·.staged.transaction)
    · obtain ⟨m, hm, heq⟩ := List.mem_map.mp hx
      exact ⟨m.assigned, by rw [← heq]; exact resolved_of_mem h.distinct hm⟩
    · rw [resolved_of_notMem hx]
      exact (OrdMap.mem_iff_get _ _).mp hmem

theorem WaveOk.recorded (h : WaveOk σ ms store') (hi : Inv σ) :
    Recorded (σ.db.commitGroup ms) σ.published σ.transactions
      (waveCommits σ.reads ms ++ σ.history) := by
  intro c hc hlt
  rw [commitGroup_changes]
  rcases List.mem_append.mp hc with hc | hc
  · obtain ⟨m, hm, rfl⟩ := mem_waveCommits.mp hc
    refine ⟨m.staged.change, OrdMap.get_insertAll_of_mem _ ?_ (List.mem_map.mpr ⟨m, hm, rfl⟩), ?_⟩
    · rw [List.pairwise_map]
      exact h.ordered.imp fun hab => hab.1.ne
    · intro l hl
      obtain ⟨t, -, -, hs⟩ := h.staged m hm
      change l ∈ m.staged.writeKeys
      rw [hs]
      refine mem_stagedOf_writeKeys.mpr ?_
      rw [← hs]
      exact hl
  · obtain ⟨ch, hch, hw⟩ := hi.recorded c hc hlt
    refine ⟨ch, ?_, hw⟩
    rw [OrdMap.get_insertAll_of_notMem, hch]
    intro p hp hpc
    obtain ⟨m, hm, rfl⟩ := List.mem_map.mp hp
    have hlo := (h.assigned m hm).1
    have hhi := hi.sequence.bounded c hc
    change m.assigned = c.csn at hpc
    omega

end OmenDb.Txn
