import OmenDb.Txn.ChangeStream
import OmenDb.Txn.SnapshotSpec

/-! Lifecycle records and their before-images hold nothing but lifecycles, in every reachable state, so
whatever a crash leaves passes the checks of opening. -/
namespace OmenDb.Txn

variable {σ σ' : State}

/-- Lifecycle records and their before-images hold nothing but lifecycles. -/
structure Lifecycled (db : Db) (store : VersionStore) : Prop where
  present : ∀ (tree : ℕ) (r : CurrentRecord), db.trees[tree]? = some r → r.value ≠ none
  values : ∀ (tree : ℕ) (r : CurrentRecord), db.trees[tree]? = some r →
    ∀ e ∈ store.chain r, lifecycleValue e.value = true

section Lifecycled
variable {db db' : Db} {store store' : VersionStore}

theorem Lifecycled.shrink (h : Lifecycled db store) (htrees : db'.trees = db.trees)
    (hc : ∀ (tree : ℕ) (r : CurrentRecord), db.trees[tree]? = some r →
      store'.chain r ⊆ store.chain r) : Lifecycled db' store' where
  present tree r hr := h.present tree r (htrees ▸ hr)
  values tree r hr e he := h.values tree r (htrees ▸ hr) e (hc tree r (htrees ▸ hr) he)

theorem lifecycleValue_of_shape {c : Commit} (hs : c.Shape) {tree : ℕ} {v : Bytes}
    (hv : c.treeLifecycles[tree]? = some v) : lifecycleValue (some v) = true := by
  cases hr : c.reservation with
  | true => rw [(hs.reservation hr).2 tree v hv]; rfl
  | false => rcases hs.commit hr tree v hv with rfl | rfl <;> rfl

theorem Lifecycled.install {new : List Commit} (h : Lifecycled db store) (hk : db.Known store)
    (hi : Family.Installs treeFamily db.trees db'.trees store store' new)
    (hx : VersionStore.Extends store store') (hs : ∀ c ∈ new, c.Shape) : Lifecycled db' store' := by
  have hchain : ∀ (tree : ℕ), ∀ e ∈ store.chain (decodeCurrent db.trees[tree]?),
      lifecycleValue e.value = true := by
    intro tree e he
    cases hr : db.trees[tree]? with
    | none =>
      rw [hr, decodeCurrent, Family.Tracks.chain_absent, List.mem_singleton] at he
      subst he
      rfl
    | some r => rw [hr] at he; exact h.values tree r hr e he
  have hrecord : ∀ (tree : ℕ) (r : CurrentRecord), db'.trees[tree]? = some r → r.value ≠ none ∧
      ∀ e ∈ store'.chain r, lifecycleValue e.value = true := by
    intro tree r hr
    by_cases hn : ∀ c ∈ new, treeFamily.field tree c = none
    · rw [hi.old tree hn] at hr
      rw [hx.chain (hk.of_tree hr)]
      exact ⟨h.present tree r hr, h.values tree r hr⟩
    · push Not at hn
      obtain ⟨c, hc, hw⟩ := hn
      obtain ⟨record, hr', hp⟩ := hi.put tree c hc (Option.ne_none_iff_isSome.mp hw)
      rw [hr] at hr'
      cases hr'
      obtain ⟨v, hv, hvalue⟩ := Option.map_eq_some_iff.mp hp.value
      refine ⟨by simp [← hvalue], fun e he => ?_⟩
      rw [hp.chain] at he
      rcases List.mem_cons.mp he with rfl | he
      · change lifecycleValue r.value = true
        rw [← hvalue]
        exact lifecycleValue_of_shape (hs c hc) hv
      · exact hchain tree e he
  exact ⟨fun tree r hr => (hrecord tree r hr).1, fun tree r hr => (hrecord tree r hr).2⟩

theorem frozen_chain_values {w : Option ℕ} {r : CurrentRecord} {n : ℕ} {e : Entry}
    (he : e ∈ store.chain (frozen w r n)) : e.value = r.value ∨ e ∈ store.chain r := by
  rw [VersionStore.chain_eq] at he
  rcases List.mem_cons.mp he with rfl | he
  · exact .inl rfl
  · refine .inr (List.mem_cons_of_mem _ ?_)
    unfold frozen at he
    dsimp only at he
    split at he
    · cases he
    · exact he

end Lifecycled

theorem Lifecycled.stores {a : Action} {S : Storage} (hi : Inv σ) (h : Lifecycled σ.db σ.versions)
    (hs : Stores σ a S) : Lifecycled S.db S.versions := by
  have hk := hi.tables.known
  cases hs with
  | same | settled _ | pruned _ _ _ | leased _ _ _ | released _ => exact ⟨h.present, h.values⟩
  | appended _ _ hx _ =>
    refine h.shrink rfl fun tree r hr => ?_
    dsimp only
    rw [hx.chain (hk.of_tree hr)]
    exact List.Subset.refl _
  | @reserved x t undo store hl hr ha =>
    have hw : σ.lane.wave = [] := by rw [hl]; rfl
    refine @Lifecycled.install _ (σ.db.reserve x σ.nextTree ⟨x, 0, undo, some treeReserved⟩) _ _
      [reservation σ.db.csn x σ.nextTree] h hk (reserve_installs_trees ha) (appendBeforeImage_spec ha).1
      fun c hc => ?_
    rw [List.mem_singleton] at hc
    exact (hi.reserve_ownership (x := x) hw).shape c (hc ▸ List.mem_cons_self)
  | @installed queue ms store hl hok _ _ =>
    have hw : σ.lane.wave = [] := by rw [hl]; rfl
    refine @Lifecycled.install _ (σ.db.commitGroup ms) _ _ _ h hk ?_ hok.extends_store fun c hc =>
      (hok.ownership hi hw).shape c (List.mem_append_left _ hc)
    rw [commitGroup_trees]
    exact hok.installs_trees hi hw
  | @collected plan hl hp =>
    have hplan := hi.planned hp
    refine ⟨fun tree r' hr' => ?_, fun tree r' hr' e he => ?_⟩
    · obtain ⟨r, n, hr, rfl⟩ := hplan.rewritten hr'
      exact h.present tree r hr
    · obtain ⟨r, n, hr, rfl⟩ := hplan.rewritten hr'
      rcases frozen_chain_values he with heq | he
      · rw [heq]
        exact h.values tree r hr r.entry List.mem_cons_self
      · exact h.values tree r hr e he
  | @compacted plan _ => exact h.shrink rfl fun tree r _ => retain_chain_subset plan.retained r
  | @reopened durable _ hd =>
    refine h.shrink rfl fun tree r hr => ?_
    dsimp only
    rw [VersionStore.chain_eq, VersionStore.chain_eq,
      VersionStore.reopen_below (hk.of_tree hr) fun id hid =>
        (hi.durable.trees tree r hr id hid).trans_le hd]
    exact List.Subset.refl _

theorem lifecycled_of_reachable (h : runtime.Reachable σ) : Lifecycled σ.db σ.versions :=
  storage_invariant (P := fun S => Lifecycled S.db S.versions)
    ⟨by simp [State.create], by simp [State.create]⟩ (fun hi hP _ hS => hP.stores hi hS) h

theorem validateVersionChain_ok {store : VersionStore} (head : Option ℕ) (hk : store.Known head) :
    ∀ n, VersionStore.fuel head ≤ n → (∀ e ∈ store.below head, lifecycleValue e.value = true) →
      validateVersionChain store n head = .ok () := by
  refine VersionStore.walk_induction (P := fun head => ∀ n, VersionStore.fuel head ≤ n →
    (∀ e ∈ store.below head, lifecycleValue e.value = true) →
      validateVersionChain store n head = .ok ()) ?nil ?cons head hk
  case nil => intro n _ _; cases n <;> rfl
  case cons =>
    intro id v hv ih n hn hvalues
    cases n with
    | zero => simp [VersionStore.fuel] at hn
    | succ n =>
      have hbelow : store.below (some id) = v.entry :: store.below v.previous := by
        simp only [VersionStore.below, VersionStore.versionsFrom_some hv, List.map_cons]
      rw [hbelow] at hvalues
      have hvalue : lifecycleValue v.value = true := hvalues v.entry List.mem_cons_self
      simp only [validateVersionChain, VersionStore.get_of_known hv, bind, Except.bind, hvalue, if_true]
      exact ih n (VersionStore.fuel_previous hv hn) fun e he => hvalues e (List.mem_cons_of_mem _ he)

section
variable {K V : Type} [LinearOrder K] {m : OrdMap K V} {P : K → V → Prop}

theorem OrdMap.forall_insert {k : K} {v : V} (hm : ∀ k v, m[k]? = some v → P k v) (hp : P k v) :
    ∀ a w, (m.insert k v)[a]? = some w → P a w := by
  intro a w hw
  rw [OrdMap.get_insert] at hw
  split at hw
  · next h =>
    obtain rfl := h
    exact Option.some.inj hw ▸ hp
  · exact hm a w hw

theorem OrdMap.forall_insertAll {ps : List (K × V)} (hm : ∀ k v, m[k]? = some v → P k v)
    (hp : ∀ p ∈ ps, P p.1 p.2) : ∀ k v, (m.insertAll ps)[k]? = some v → P k v := by
  induction ps generalizing m with
  | nil => exact hm
  | cons p ps ih =>
    exact ih (OrdMap.forall_insert hm (hp p List.mem_cons_self)) fun q hq => hp q (List.mem_cons_of_mem _ hq)

end

/-- What `load_control_state` asks of the records other than lifecycles. -/
structure Controlled (db : Db) : Prop where
  statuses : ∀ (x c : ℕ), db.statuses[x]? = some c → 0 < x ∧ 0 < c
  changes : ∀ (c : ℕ) (change : Change), db.changes[c]? = some change → change.snapshot ≤ c
  leases : ∀ (name : Bytes) (floor : ℕ), db.leases[name]? = some floor → validateLease (name, floor) = .ok ()

theorem Controlled.stores {a : Action} {S : Storage} (hi : Inv σ) (h : Controlled σ.db)
    (hl : σ.leases = σ.db.leases) (hs : Stores σ a S) : Controlled S.db := by
  cases hs with
  | same | appended _ _ _ _ | settled _ | compacted _ | reopened _ _ => exact h
  | @reserved x t undo store _ hr _ =>
    obtain ⟨-, hpos, -, -⟩ := hi.identities.own x t (ready_eq hr).1
    exact ⟨OrdMap.forall_insert h.statuses ⟨hpos, Nat.succ_pos _⟩, OrdMap.forall_insert h.changes (Nat.le_succ _),
      h.leases⟩
  | @installed queue ms store hdrained hok _ _ =>
    have hpublished : σ.published ≤ σ.db.csn := hi.sequence.published_le
    refine ⟨?_, ?_, ?_⟩
    · rw [commitGroup_statuses]
      refine OrdMap.forall_insertAll h.statuses fun p hp => ?_
      obtain ⟨m, hm, rfl⟩ := List.mem_map.mp hp
      obtain ⟨t, ht, -, -⟩ := hok.staged m hm
      exact ⟨(hi.identities.own _ t ht).2.1, (Nat.zero_le _).trans_lt (hok.assigned m hm).1⟩
    · rw [commitGroup_changes]
      refine OrdMap.forall_insertAll h.changes fun p hp => ?_
      obtain ⟨m, hm, rfl⟩ := List.mem_map.mp hp
      obtain ⟨t, ht, -, hst⟩ := hok.staged m hm
      have hsnapshot := (hi.identities.own _ t ht).2.2.2
      have hassigned := (hok.assigned m hm).1
      have hstaged : m.staged.snapshot = t.snapshot := by
        rw [hst]
        rfl
      simp only [StagedCommit.change, hstaged]
      omega
    · rw [(commitGroup_rest σ.db ms).1]
      exact h.leases
  | @collected plan _ _ =>
    obtain ⟨-, hchanges, hleases⟩ := @apply_rest σ plan
    refine ⟨fun x c hx => h.statuses x c ?_, hchanges ▸ h.changes, hleases ▸ h.leases⟩
    rw [apply_statuses, OrdMap.get_eraseAll] at hx
    split at hx
    · cases hx
    · exact hx
  | pruned _ _ _ =>
    refine ⟨h.statuses, fun c change hc => ?_, h.leases⟩
    rw [OrdMap.get_filter, Option.filter_eq_some_iff] at hc
    exact h.changes c change hc.1
  | @leased name csn _ ha hup =>
    refine ⟨h.statuses, h.changes, OrdMap.forall_insert h.leases ?_⟩
    obtain ⟨-, hvalid⟩ | hold := ha
    · exact hvalid
    · -- the name was checked when the lease was taken, and floors only move up
      obtain ⟨old, hold⟩ := Option.ne_none_iff_exists'.mp hold
      have hvalid := h.leases name old (hl ▸ hold)
      have hle := hup old hold
      simp only [validateLease] at hvalid ⊢
      split at hvalid
      · cases hvalid
      split at hvalid
      · cases hvalid
      rw [if_neg (by omega), if_neg (by omega)]
  | released _ =>
    refine ⟨h.statuses, h.changes, fun name floor hf => h.leases name floor ?_⟩
    rw [OrdMap.get_erase] at hf
    split at hf
    · cases hf
    · exact hf

theorem controlled_of_reachable (h : runtime.Reachable σ) : Controlled σ.db :=
  (storage_invariant (P := fun S => Stream S ∧ Controlled S.db)
    ⟨Stream.create, ⟨by simp [State.create], by simp [State.create], by simp [State.create]⟩⟩
    (fun hi hP _ hS => ⟨hP.1.stores hS, hP.2.stores hi hP.1.leases hS⟩) h).2

theorem Inv.reopen_ok (h : Inv σ) (hv : Lifecycled σ.db σ.versions) (hc : Controlled σ.db) {durable : ℕ}
    (hd : σ.synced ≤ durable) : ∃ σ', Txn.reopen σ durable = .ok σ' := by
  have hstatuses : checkAll validateStatus σ.db.statuses.toList = .ok () := by
    refine checkAll_eq_ok.mpr fun p hp => ?_
    obtain ⟨hx, hcommit⟩ := hc.statuses p.1 p.2 ((OrdMap.mem_toList _ _ _).mp hp)
    simp [validateStatus, hx.ne', hcommit.ne']
  have hchanges : checkAll validateChange σ.db.changes.toList = .ok () :=
    checkAll_eq_ok.mpr fun p hp => if_neg (hc.changes p.1 p.2 ((OrdMap.mem_toList _ _ _).mp hp)).not_gt
  have hleases : checkAll validateLease σ.db.leases.toList = .ok () :=
    checkAll_eq_ok.mpr fun p hp => hc.leases p.1 p.2 ((OrdMap.mem_toList _ _ _).mp hp)
  have hcheck : checkAll (validateTree (σ.versions.reopen durable)) σ.db.trees.toList = .ok () := by
    refine checkAll_eq_ok.mpr fun p hp => ?_
    have hr := (OrdMap.mem_toList _ _ _).mp hp
    have hk := h.tables.known.of_tree hr
    have hbound : ∀ id, p.2.undoHead = some id → id < durable := fun id hid =>
      (h.durable.trees p.1 p.2 hr id hid).trans_le hd
    have hvalue : lifecycleValue p.2.value = true :=
      hv.values p.1 p.2 hr p.2.entry List.mem_cons_self
    rw [validateTree, if_pos ⟨hvalue, hv.present p.1 p.2 hr⟩]
    refine validateVersionChain_ok _ (VersionStore.reopen_known hk hbound) _ le_rfl fun e he => ?_
    rw [VersionStore.reopen_below hk hbound] at he
    exact hv.values p.1 p.2 hr e (List.mem_cons_of_mem _ he)
  simp only [Txn.reopen, loadControlState, hstatuses, hcheck, hchanges, hleases]
  exact ⟨_, rfl⟩

end OmenDb.Txn
