import OmenDb.Txn.PublishSteps

/-! Reserving a tree. A reservation consumes a sequence number and leaves a provisional record on
a tree identity that nothing has used before. -/
namespace OmenDb.Txn

variable {σ : State} {x : ℕ} {t : Transaction}

def reservation (csn owner tree : ℕ) : Commit :=
  ⟨csn + 1, owner, csn, true, ∅, (∅ : OrdMap ℕ Bytes).insert tree treeReserved, []⟩

variable {owner tree : ℕ} {store : VersionStore}

theorem mem_reservation {csn k : ℕ} : k ∈ (reservation csn owner tree).treeLifecycles ↔ tree = k := by
  rw [OrdMap.mem_iff_get]
  simp only [reservation, OrdMap.get_insert]
  by_cases hk : tree = k <;> simp [hk]

section History
variable {csn owner tree : ℕ} {history : List Commit}

theorem committed_reservation {y : ℕ} :
    Committed (reservation csn owner tree :: history) y ↔ Committed history y := by
  constructor
  · rintro ⟨c, hc, ht, hr⟩
    rcases List.mem_cons.mp hc with rfl | hc
    · cases hr
    · exact ⟨c, hc, ht, hr⟩
  · exact fun h => h.append [_]

theorem opened_reservation {k : ℕ} :
    Opened (reservation csn owner tree :: history) k ↔ Opened history k := by
  constructor
  · rintro ⟨c, hc, hr, ht⟩
    rcases List.mem_cons.mp hc with rfl | hc
    · cases hr
    · exact ⟨c, hc, hr, ht⟩
  · exact fun h => h.append [_]

theorem reservedBy_reservation {y k : ℕ} (h : ReservedBy (reservation csn owner tree :: history) y k) :
    y = owner ∧ k = tree ∨ ReservedBy history y k := by
  obtain ⟨c, hc, hr, ht, hk⟩ := h
  rcases List.mem_cons.mp hc with rfl | hc
  · exact .inl ⟨ht.symm, (mem_reservation.mp hk).symm⟩
  · exact .inr ⟨c, hc, hr, ht, hk⟩

end History

def Db.reserve (db : Db) (owner tree : ℕ) (record : CurrentRecord) : Db :=
  { db with
    csn := db.csn + 1
    trees := db.trees.insert tree record
    statuses := db.statuses.insert owner (db.csn + 1)
    changes := db.changes.insert (db.csn + 1) ⟨owner, db.csn, {tree}, ∅⟩ }

theorem Inv.fresh_tree (h : Inv σ) {c : Commit} (hc : c ∈ σ.history) :
    σ.nextTree ∉ c.treeLifecycles := fun hmem =>
  lt_irrefl _ (h.ownership.below c hc σ.nextTree hmem)

theorem Inv.fresh_lastCommit (h : Inv σ) :
    lastCommit (treeFamily.field σ.nextTree) σ.history = none := by
  refine lastCommit_eq_none.mpr fun c hc => ?_
  have hno := h.fresh_tree hc
  rw [OrdMap.mem_iff_get] at hno
  cases hv : c.treeLifecycles[σ.nextTree]? with
  | none => simp [treeFamily, hv]
  | some v => exact absurd ⟨v, hv⟩ hno

section Published
variable {versions store : VersionStore} {undo : Option ℕ}

theorem Inv.reserve_grows (h : Inv σ) (hw : σ.lane.wave = []) (ht : σ.transactions[x]? = some t)
    (hp : t.phase = .active) :
    Family.Grows σ.history σ.db.csn (σ.db.csn + 1) σ.statuses
      (σ.statuses.insert x (σ.db.csn + 1)) := by
  have hfresh := h.identities.fresh x t ht (by simp [hp]) (by simp [Lane.waveIds, hw])
  refine ⟨fun y hy => ?_, fun y => ?_⟩
  · exact OrdMap.get_insert_of_ne _ _ fun hxy => hfresh (hxy ▸ hy)
  · by_cases hxy : x = y
    · exact .inr ⟨_, by rw [hxy, OrdMap.get_insert_self], Nat.le_succ _, le_rfl⟩
    · exact .inl (OrdMap.get_insert_of_ne _ _ hxy)

theorem reservation_field (csn x tree k : ℕ) : treeFamily.field k (reservation csn x tree) =
    if tree = k then some (some treeReserved) else none := by
  simp only [treeFamily, reservation, OrdMap.get_insert]
  split <;> simp

theorem reserve_installs_data (csn x tree : ℕ) (data : OrdMap Loc CurrentRecord)
    (store store' : VersionStore) :
    Family.Installs dataFamily data data store store' [reservation csn x tree] := by
  refine ⟨fun _ _ => rfl, fun l c hc hf => ?_, fun l c hc d hd _ _ => ?_⟩
  · rw [List.mem_singleton] at hc
    subst hc
    simp [dataFamily, reservation] at hf
  · rw [List.mem_singleton] at hc hd
    rw [hc, hd]

theorem reserve_installs_trees {csn tree : ℕ} {trees : OrdMap ℕ CurrentRecord}
    (ha : appendBeforeImage versions (decodeCurrent trees[tree]?) = .ok (undo, store)) :
    Family.Installs treeFamily trees (trees.insert tree ⟨x, 0, undo, some treeReserved⟩) versions
      store [reservation csn x tree] := by
  obtain ⟨-, hk, -⟩ := appendBeforeImage_spec ha
  refine ⟨fun k hn => ?_, fun k c hc hf => ?_, fun k c hc d hd _ _ => ?_⟩
  · have hne : tree ≠ k := by
      intro heq
      have hnone := hn _ (List.mem_singleton.mpr rfl)
      rw [reservation_field, if_pos heq] at hnone
      cases hnone
    exact OrdMap.get_insert_of_ne _ _ hne
  · rw [List.mem_singleton] at hc
    subst hc
    rw [reservation_field] at hf
    split at hf
    · next heq =>
      subst heq
      exact ⟨_, OrdMap.get_insert_self _ _ _, hk, chain_overwrite ha _ _ _, rfl, rfl,
        by rw [reservation_field, if_pos rfl]⟩
    · simp at hf
  · rw [List.mem_singleton] at hc hd
    rw [hc, hd]

theorem Inv.reserve_tables (h : Inv σ) (hw : σ.lane.wave = []) (ht : σ.transactions[x]? = some t)
    (hp : t.phase = .active)
    (ha : appendBeforeImage σ.versions (decodeCurrent σ.db.trees[σ.nextTree]?) = .ok (undo, store)) :
    Tables (σ.db.reserve x σ.nextTree ⟨x, 0, undo, some treeReserved⟩)
      (σ.statuses.insert x (σ.db.csn + 1)) store (Guarded σ.published σ.transactions)
      (reservation σ.db.csn x σ.nextTree :: σ.history) := by
  obtain ⟨-, h0, -, -⟩ := h.identities.own x t ht
  have hT := h.tables
  rw [h.resolved_eq hw] at hT
  obtain ⟨hx, -, -⟩ := appendBeforeImage_spec ha
  have hg := h.reserve_grows hw ht hp
  have hnew : ∀ c ∈ [reservation σ.db.csn x σ.nextTree], c.csn ≤ σ.db.csn + 1 ∧ c.transaction ≠ 0 ∧
      (σ.statuses.insert x (σ.db.csn + 1))[c.transaction]? = some c.csn := by
    intro c hc
    rw [List.mem_singleton] at hc
    subst hc
    exact ⟨le_rfl, h0.ne', OrdMap.get_insert_self _ _ _⟩
  refine ⟨?_, ?_⟩
  · refine hT.data.install (reserve_installs_data _ _ _ _ _ _) hx hg (Nat.le_succ _) hnew
      fun l c hc v hv => ?_
    rw [List.mem_singleton] at hc
    subst hc
    simp [dataFamily, reservation] at hv
  · refine hT.trees.install (reserve_installs_trees ha) hx hg (Nat.le_succ _) hnew
      fun k c hc v hv => .inl ?_
    rw [List.mem_singleton] at hc
    subst hc
    rw [reservation_field] at hv
    split at hv
    · next heq => cases hv; exact ⟨rfl, heq ▸ h.fresh_lastCommit⟩
    · cases hv

theorem Inv.reserve_ownership (h : Inv σ) (hw : σ.lane.wave = []) :
    Ownership σ.transactions (reservation σ.db.csn x σ.nextTree :: σ.history) (σ.nextTree + 1) []
      (some (x, σ.nextTree)) where
  shape c hc := by
    rcases List.mem_cons.mp hc with rfl | hc
    · refine ⟨fun _ => ⟨rfl, fun k v hv => ?_⟩, by rintro ⟨⟩⟩
      simp only [reservation, OrdMap.get_insert] at hv
      split at hv
      · cases hv; rfl
      · simp at hv
    · exact h.ownership.shape c hc
  below c hc k hk := by
    rcases List.mem_cons.mp hc with rfl | hc
    · rw [← mem_reservation.mp hk]
      exact Nat.lt_succ_self _
    · exact (h.ownership.below c hc k hk).trans (Nat.lt_succ_self _)
  unique y z k hy hz := by
    -- nobody reserved the fresh identity before
    have hno : ∀ {u}, ¬ ReservedBy σ.history u σ.nextTree := by
      rintro u ⟨c, hc, _, _, hk⟩
      exact h.fresh_tree hc hk
    rcases reservedBy_reservation hy with ⟨hyx, rfl⟩ | hy'
    · rcases reservedBy_reservation hz with ⟨hzx, -⟩ | hz'
      · rw [hyx, hzx]
      · exact absurd hz' hno
    · rcases reservedBy_reservation hz with ⟨-, rfl⟩ | hz'
      · exact absurd hy' hno
      · exact h.ownership.unique y z k hy' hz'
  opened c hc l hl := by
    rw [opened_reservation]
    rcases List.mem_cons.mp hc with rfl | hc
    · simp [reservation] at hl
    · exact h.ownership.opened c hc l hl
  created y u hu k hk := (h.ownership.created y u hu k hk).append [_]
  unopened y u hu hp _ k hk := by
    rw [opened_reservation]
    exact h.ownership.unopened y u hu hp (by simp [Lane.waveIds, hw]) k hk
  dropped y u hu k hk := (h.ownership.dropped y u hu k hk).imp id opened_reservation.mpr
  writes y u hu l hl := (h.ownership.writes y u hu l hl).imp id opened_reservation.mpr
  states y u hu k hk := opened_reservation.mpr (h.ownership.states y u hu k hk)
  reserving y k hyk := by
    cases hyk
    refine ⟨⟨_, List.mem_cons_self, rfl, rfl, mem_reservation.mpr rfl⟩, ?_⟩
    rw [opened_reservation]
    rintro ⟨c, hc, _, hk⟩
    exact h.fresh_tree hc hk

theorem Inv.reserve_lifecycles (h : Inv σ)
    (ha : appendBeforeImage σ.versions (decodeCurrent σ.db.trees[σ.nextTree]?) = .ok (undo, store)) :
    Lifecycles (σ.db.reserve x σ.nextTree ⟨x, 0, undo, some treeReserved⟩) σ.mirror σ.lookups
      [(σ.nextTree, ⟨x, 0, undo, some treeReserved⟩)] store
      (reservation σ.db.csn x σ.nextTree :: σ.history) := by
  obtain ⟨hx, hk, -⟩ := appendBeforeImage_spec ha
  have hgrow := h.lifecycles.grow hx [reservation σ.db.csn x σ.nextTree]
  -- a reserved tree was never live
  have hnew : LiveSourced store (reservation σ.db.csn x σ.nextTree :: σ.history) σ.nextTree
      ⟨x, 0, undo, some treeReserved⟩ := by
    refine ⟨fun id hid => ?_, fun e he hlive => ?_⟩
    · obtain ⟨v, hv⟩ := hk id hid
      exact store.lt_next hv
    · rw [chain_overwrite ha, h.tables.trees.absent _ h.fresh_lastCommit] at he
      rcases List.mem_cons.mp he with rfl | he
      · exact absurd hlive (by simp [treeReserved, treeLive])
      · rw [decodeCurrent, Family.Tracks.chain_absent, List.mem_singleton] at he
        subst he
        cases hlive
  refine ⟨fun k r hr => ?_, hgrow.mirror, hgrow.lookups, fun p hp => ?_⟩
  · simp only [Db.reserve, OrdMap.get_insert] at hr
    split at hr
    · next heq => cases hr; exact heq ▸ hnew
    · exact hgrow.trees k r hr
  · rw [List.mem_singleton] at hp
    subst hp
    exact hnew

theorem Inv.reserve_recorded (h : Inv σ) (record : CurrentRecord) :
    Recorded (σ.db.reserve x σ.nextTree record) σ.published σ.transactions
      (reservation σ.db.csn x σ.nextTree :: σ.history) := by
  intro c hc hlt
  rcases List.mem_cons.mp hc with rfl | hc
  · exact ⟨_, OrdMap.get_insert_self _ _ _, fun l hl => by simp [reservation] at hl⟩
  · obtain ⟨ch, hch, hw⟩ := h.recorded c hc hlt
    refine ⟨ch, ?_, hw⟩
    have hle := h.sequence.bounded c hc
    simp only [Db.reserve]
    rw [OrdMap.get_insert_of_ne _ _ (by omega), hch]

theorem Inv.reserve_queues (h : Inv σ) (hl : σ.lane = .idle) (hr : ready σ x = some t)
    (tree : ℕ) (record : CurrentRecord) :
    Queues (σ.transactions.insert x { t with phase := .waiting }) (.reserved x tree record) σ.queue
      σ.prepare σ.lookups := by
  obtain ⟨ht, hlk, hp⟩ := ready_eq hr
  have hq := h.queues
  rw [hl] at hq
  have hnot := hq.notMem ht (by simp [hp])
  have hserves : Lane.idle.serves ++ σ.queue.map (·.transaction) = σ.queue.map (·.transaction) := rfl
  rw [hserves] at hnot
  have hsame : ∀ y ∈ Lane.idle.serves ++ σ.queue.map (·.transaction),
      (σ.transactions.insert x { t with phase := .waiting })[y]? = σ.transactions[y]? := fun y hy =>
    OrdMap.get_insert_of_ne _ _ fun hxy => hnot (hxy ▸ hy)
  have hold := hq.congr hsame fun y p hy => by
    obtain ⟨u, hu, hph⟩ := hq.lookups y p hy
    have hne : x ≠ y := by
      rintro rfl
      rw [hlk] at hy
      cases hy
    exact ⟨u, by rw [OrdMap.get_insert_of_ne _ _ hne, hu], hph⟩
  have hbusy : (Lane.reserved x tree record).serves ++ σ.queue.map (·.transaction) =
      x :: σ.queue.map (·.transaction) := rfl
  refine ⟨?_, ?_, hold.staged, hold.index, hold.taken, hold.queue, hold.lookups⟩
  · rw [hbusy]
    intro y hy
    rcases List.mem_cons.mp hy with rfl | hy
    · exact ⟨_, OrdMap.get_insert_self _ _ _, rfl⟩
    · exact hold.waiting y hy
  · rw [hbusy]
    exact List.nodup_cons.mpr ⟨hnot, hold.distinct⟩

end Published

theorem Inv.spendTree (h : Inv σ) (hl : σ.lane = .idle) (hx : VersionStore.Extends σ.versions store) :
    Inv { σ with versions := store, nextTree := σ.nextTree + 1 } := by
  have ho := h.ownership
  refine ⟨h.sequence, h.statuses, ⟨h.tables.data.extend hx, h.tables.trees.extend hx⟩,
    fun plan hp => ?_, h.durable, h.identities, h.implied,
    ⟨ho.shape, fun c hc k hk => (ho.below c hc k hk).trans (Nat.lt_succ_self _), ho.unique, ho.opened,
      ho.created, ho.unopened, ho.dropped, ho.writes, ho.states, ho.reserving⟩,
    h.lifecycles.grow hx [], h.queues, h.registered, h.recorded, h.serial⟩
  rw [hl] at hp
  cases hp

theorem Inv.reserve (h : Inv σ) (hl : σ.lane = .idle) (hr : ready σ x = some t) {undo : Option ℕ}
    (ha : appendBeforeImage σ.versions (decodeCurrent σ.db.trees[σ.nextTree]?) = .ok (undo, store)) :
    Inv { σ with
      nextTree := σ.nextTree + 1
      versions := store
      synced := store.nextId
      db := σ.db.reserve x σ.nextTree ⟨x, 0, undo, some treeReserved⟩
      statuses := σ.statuses.insert x (σ.db.csn + 1)
      changes := σ.changes.insert (σ.db.csn + 1) ⟨x, σ.db.csn, {σ.nextTree}, ∅⟩
      history := reservation σ.db.csn x σ.nextTree :: σ.history
      lane := .reserved x σ.nextTree ⟨x, 0, undo, some treeReserved⟩
      transactions := σ.transactions.insert x { t with phase := .waiting } } := by
  obtain ⟨ht, -, hp⟩ := ready_eq hr
  obtain ⟨hid, h0, hlt, -⟩ := h.identities.own x t ht
  have hw : σ.lane.wave = [] := by rw [hl]; rfl
  have hids : σ.lane.waveIds = [] := by simp [Lane.waveIds, hw]
  have hT := h.reserve_tables hw ht hp ha
  have hreg : Registered σ.transactions σ.reads (reservation σ.db.csn x σ.nextTree :: σ.history)
      σ.nextTransaction := by
    change Registered _ _ ([reservation σ.db.csn x σ.nextTree] ++ σ.history) _
    refine h.registered.grow fun y u hu c hc => ?_
    rw [List.mem_singleton] at hc
    subst hc
    exact Nat.lt_succ_of_le ((h.identities.own y u hu).2.2.2.trans h.sequence.published_le)
  have hf : Follows (reservation σ.db.csn x σ.nextTree :: σ.history) σ.transactions
      (σ.transactions.insert x { t with phase := .waiting }) [] [] :=
    .insert hreg ht (evolves_phase (h.cursor ht) .waiting) (by simp [hp])
  have hident : Identities σ.transactions (reservation σ.db.csn x σ.nextTree :: σ.history)
      σ.nextTransaction σ.published [] := by
    have hi := h.identities
    rw [hids] at hi
    refine ⟨hi.positive, hi.own, fun c hc => ?_, fun y u hu hph hy => ?_⟩
    · rcases List.mem_cons.mp hc with rfl | hc
      · exact ⟨h0, hlt⟩
      · exact hi.past c hc
    · rw [committed_reservation]
      exact hi.fresh y u hu hph hy
  refine ⟨?_, ?_, hT.follow hf, by rintro plan ⟨⟩, hT.durable, hident.follow hf, ?_,
    (h.reserve_ownership hw).follow hident hf, h.reserve_lifecycles ha, h.reserve_queues hl hr _ _,
    hreg.follow hf (fun _ _ _ _ he => .inl he) hreg.recent, (h.reserve_recorded _).follow hf, ?_⟩
  · obtain ⟨hpos, hbd, hsort, hle, -⟩ := h.sequence
    refine ⟨fun c hc => ?_, fun c hc => ?_, List.pairwise_cons.mpr ⟨fun c hc => ?_, hsort⟩,
      hle.trans (Nat.le_succ _), by rintro ⟨⟩⟩
    · rcases List.mem_cons.mp hc with rfl | hc
      · exact Nat.succ_pos _
      · exact hpos c hc
    · rcases List.mem_cons.mp hc with rfl | hc
      · exact le_rfl
      · exact (hbd c hc).trans (Nat.le_succ _)
    · exact Nat.lt_succ_of_le (hbd c hc)
  · have hs := h.statuses
    rw [hl] at hs
    have hs' : σ.db.statuses = σ.statuses := by
      simpa [resolved, Lane.prunable, Lane.plan, Lane.wave] using hs
    simp [Db.reserve, hs', resolved, Lane.prunable, Lane.plan, Lane.wave]
  · intro c hc
    rcases List.mem_cons.mp hc with rfl | hc
    · exact .inl ((OrdMap.mem_iff_get _ _).mpr ⟨_, OrdMap.get_insert_self _ _ _⟩)
    · exact (h.implied c hc).imp (fun hm => Std.ExtTreeMap.mem_insert.mpr (.inr hm)) id
  · change Serial ([reservation σ.db.csn x σ.nextTree] ++ σ.history)
    refine h.serial.grow (fun c hc d hd => ?_) h.sequence.positive fun c hc e he => ?_
    · rw [List.mem_singleton] at hd
      subst hd
      exact (h.sequence.bounded c hc).trans (Nat.le_succ _)
    · rw [List.mem_singleton] at hc
      subst hc
      simp [reservation] at he

theorem Inv.createTree (h : Inv σ) (hl : σ.lane = .idle) (hr : ready σ x = some t)
    (outcome : EngineOutcome) : Inv (createTree σ t outcome) := by
  obtain ⟨ht, -, -⟩ := ready_eq hr
  obtain ⟨rfl, -, -, -⟩ := h.identities.own x t ht
  unfold Txn.createTree reserveTree
  dsimp only
  cases ha : appendBeforeImage σ.versions (decodeCurrent σ.db.trees[σ.nextTree]?) with
  | error e => exact h.spendTree hl (.refl _)
  | ok p =>
    obtain ⟨undo, store⟩ := p
    have hx := (appendBeforeImage_spec ha).1
    cases outcome with
    | published => exact h.reserve hl hr ha
    | syncFailed | refused => exact h.spendTree hl hx

theorem Inv.reserveMirror (h : Inv σ) {record : CurrentRecord}
    (hl : σ.lane = .reserved owner tree record) : Inv (reserveMirror σ owner tree record) := by
  have hseq := h.sequence
  have hst := h.statuses
  have hT := h.tables
  have hid := h.identities
  have ho := h.ownership
  have hli := h.lifecycles.mirror_insertAll
  have hq := h.queues
  rw [hl] at hseq hst hT hid ho hli hq
  exact ⟨hseq, hst, hT, nofun, h.durable, hid, h.implied, ho,
    ⟨hli.trees, hli.mirror, hli.lookups, by simp [Txn.reserveMirror, Lane.treePuts]⟩,
    hq.relane rfl rfl rfl, h.registered,
    h.recorded, h.serial⟩

theorem Inv.evolve_created (h : Inv σ) (ht : σ.transactions[x]? = some t)
    (hres : ReservedBy σ.history x tree) (hun : ¬ Opened σ.history tree) :
    Evolves σ.history t { t with created := insert tree t.created, phase := .active } where
  id := rfl
  snapshot := rfl
  created k hk := by
    rcases Finset.mem_insert.mp hk with rfl | hk
    · exact .inr ⟨(h.identities.own x t ht).1 ▸ hres, hun⟩
    · exact .inl hk
  depends _ hk := hk
  dropped _ h := .inl h
  writes _ h := .inl h
  states _ h := .inl h
  kept _ hk := Finset.mem_insert_of_mem hk
  cursor c p hc := h.cursor ht c p hc

theorem Inv.reservePublish (h : Inv σ)
    (hl : σ.lane = .reservedMirrored owner tree) : Inv (reservePublish σ owner tree) := by
  have hle := h.sequence.published_le
  have hq := h.queues
  have hT := h.tables
  have hid := h.identities
  have ho := h.ownership
  have hst := h.statuses
  have hli := h.lifecycles
  rw [hl] at hq hT hid ho hst hli
  obtain ⟨t, ht, hp⟩ := hq.waiting owner (by simp [Lane.serves, Lane.reserving])
  obtain ⟨hres, hun⟩ := ho.reserving owner tree rfl
  have hf : Follows σ.history σ.transactions
      (σ.transactions.insert owner { t with created := insert tree t.created, phase := .active })
      [] [] := .insert h.registered ht (h.evolve_created ht hres hun) (by simp [hp])
  have hguard : ∀ s, Guarded σ.db.csn (σ.transactions.insert owner
      { t with created := insert tree t.created, phase := .active }) s →
      Guarded σ.published σ.transactions s := fun s hs =>
    hf.guarded (hs.imp hle.trans id)
  unfold Txn.reservePublish
  simp only [ht]
  obtain ⟨hpos, hbd, hsort, -, -⟩ := h.sequence
  refine ⟨⟨hpos, hbd, hsort, le_rfl, fun _ => rfl⟩, hst, ⟨hT.data.mono hguard, hT.trees.mono hguard⟩,
    by rintro plan ⟨⟩, h.durable, ?_, h.implied, ?_, hli, ?_,
    h.registered.follow hf (fun _ _ _ _ he => .inl he) h.registered.recent, fun c hc hlt => ?_,
    h.serial⟩
  · obtain ⟨h1, h2, h3, h4⟩ := hid.follow hf
    exact ⟨h1, fun y u hu => by
      obtain ⟨a, b, c, d⟩ := h2 y u hu
      exact ⟨a, b, c, d.trans hle⟩, h3, h4⟩
  · have hown := ho.follow hid hf
    exact ⟨hown.shape, hown.below, hown.unique, hown.opened, hown.created, hown.unopened,
      hown.dropped, hown.writes, hown.states, by rintro y k ⟨⟩⟩
  · have hsame : ∀ y ∈ Lane.idle.serves ++ σ.queue.map (·.transaction),
        (σ.transactions.insert owner
          { t with created := insert tree t.created, phase := .active })[y]? =
          σ.transactions[y]? := by
      intro y hy
      refine OrdMap.get_insert_of_ne _ _ fun hxy => ?_
      have hd := hq.distinct
      have hbusy : (Lane.reservedMirrored owner tree).serves ++ σ.queue.map (·.transaction) =
          owner :: σ.queue.map (·.transaction) := rfl
      rw [hbusy] at hd
      exact (List.nodup_cons.mp hd).1 (hxy ▸ hy)
    refine hq.retire (List.nil_sublist _) rfl (by simp [Lane.wave]) hsame fun y p hy => ?_
    by_cases hxy : owner = y
    · exact ⟨_, by rw [← hxy, OrdMap.get_insert_self], rfl⟩
    · obtain ⟨u, hu, hph⟩ := hq.lookups y p hy
      exact ⟨u, by rw [OrdMap.get_insert_of_ne _ _ hxy, hu], hph⟩
  · refine (h.recorded.follow hf) c hc (hlt.imp hle.trans_lt id)

end OmenDb.Txn
