import OmenDb.Txn.Follow
import OmenDb.Txn.SnapshotReads

/-! Steps of a single transaction: reads, staged writes, visibility checks, and the beginning and
end of a transaction. They leave the database and the lane alone. -/
namespace OmenDb.Txn

variable {σ σ' : State} {x : ℕ} {t t' : Transaction}

variable {v : Option Bytes} {r : CurrentRecord} {s tree y : ℕ}

theorem dataFamily_agrees {v' : Option Bytes} (h : dataFamily.Agrees v v') : v = v' := by
  rcases h with rfl | ⟨hv | hv, hv' | hv'⟩
  · rfl
  · rw [hv, hv']
  all_goals exact absurd ‹False› id

theorem Family.Cell.visibleValue_eq {K : Type} {F : Family K} {k : K} {guarded : ℕ → Prop}
    {history : List Commit} (h : F.Cell k σ.statuses σ.versions guarded history r) (hs : guarded s) :
    ∃ v, visibleValue σ r s = .ok v ∧ F.Agrees v (valueAt (F.field k) s history) := by
  obtain ⟨e, he, ha⟩ := h.visible s hs
  refine ⟨e.bind (·.value), ?_, ha⟩
  rw [visibleValue, VersionStore.visibleCurrent_eq h.known he]
  cases e <;> rfl

theorem Inv.resolved_eq (_h : Inv σ) (hw : σ.lane.wave = []) :
    resolved σ.statuses σ.lane.wave = σ.statuses := by
  rw [hw]
  rfl

theorem wave_of_dbFree (h : σ.lane.dbFree = true) : σ.lane.wave = [] := by
  cases hl : σ.lane <;> simp [Lane.dbFree, Lane.wave, hl] at h ⊢

theorem guarded_of_live (ht : σ.transactions[x]? = some t) :
    Guarded σ.published σ.transactions t.snapshot := .inr ⟨x, t, ht, le_rfl⟩

theorem Inv.shows (h : Inv σ) (hw : σ.lane.wave = [])
    (hs : Guarded σ.published σ.transactions s) : Shows σ s (storeAt s σ.history) := by
  intro l
  have hcell := h.tables.data.cell l
  rw [h.resolved_eq hw] at hcell
  obtain ⟨v, hv, ha⟩ := hcell.visibleValue_eq hs
  rw [hv, storeAt_get]
  exact congrArg _ (dataFamily_agrees ha)

theorem Inv.shows_live (h : Inv σ) (hd : σ.lane.dbFree = true) (ht : σ.transactions[x]? = some t) :
    Shows σ t.snapshot (storeAt t.snapshot σ.history) :=
  h.shows (wave_of_dbFree hd) (guarded_of_live ht)

theorem Inv.storeAt_unopened (h : Inv σ) (hu : ¬ Opened σ.history tree) (s : ℕ)
    (key : Bytes) : (storeAt s σ.history)[(⟨tree, key⟩ : Loc)]? = none := by
  have hnone : lastAt (fun c : Commit => c.writes[(⟨tree, key⟩ : Loc)]?) s σ.history = none := by
    refine lastAt_eq_none fun c hc _ => ?_
    by_contra hne
    obtain ⟨v, hv⟩ := Option.ne_none_iff_exists'.mp hne
    exact hu (h.ownership.opened c hc ⟨tree, key⟩ ((OrdMap.mem_iff_get _ _).mpr ⟨v, hv⟩))
  rw [storeAt_get, valueAt, hnone]
  rfl

theorem Inv.vacant (h : Inv σ) (ht : σ.transactions[x]? = some t) (hp : t.phase = .active) :
    Vacant t (storeAt t.snapshot σ.history) := by
  intro tree hc key
  refine h.storeAt_unopened (h.ownership.unopened x t ht (by simp [hp]) (fun hx => ?_) tree hc) _ key
  refine h.queues.notMem ht (by simp [hp]) ?_
  simp only [Lane.serves, List.mem_append]
  exact .inl (.inl (.inr hx))

theorem ready_eq {id : ℕ} (h : ready σ id = some t) :
    σ.transactions[id]? = some t ∧ σ.lookups[id]? = none ∧ t.phase = .active := by
  unfold ready at h
  split at h
  · next t₀ ht hl =>
    split at h
    · next hp => cases h; exact ⟨ht, hl, hp⟩
    · cases h
  · cases h

theorem Inv.cursor (h : Inv σ) (ht : σ.transactions[x]? = some t) : ∀ c p, t.cursor = some c →
    c.position = some p → ∃ start, (c.tree, start, c.stop) ∈ t.readRanges ∧ start ≤ p :=
  fun c p => h.registered.cursor x t c p ht

theorem Inv.update (h : Inv σ) (ht : σ.transactions[x]? = some t) (hp : t.phase = .active)
    (he : Evolves σ.history t t') (hp' : t'.phase = .active) :
    Inv { σ with transactions := σ.transactions.insert x t' } := by
  have hf : Follows σ.history σ.transactions (σ.transactions.insert x t') σ.lane.waveIds
      σ.lane.waveIds := .insert h.registered ht he (by simp [hp])
  exact h.follow hf h.lifecycles.lookups (h.queues.update ht hp hp' fun _ _ => .inl)
    (fun y u _ e he => .inl he) h.registered.recent

theorem Inv.read (h : Inv σ) (ht : σ.transactions[x]? = some t) (hp : t.phase = .active)
    (he : Evolves σ.history t t') (hp' : t'.phase = .active) {e : ReadEvent}
    (hs : e.Sound σ.history t') :
    Inv { σ with
      transactions := σ.transactions.insert x t'
      reads := σ.reads.insert x (e :: (σ.reads[x]?).getD []) } := by
  have hf : Follows σ.history σ.transactions (σ.transactions.insert x t') σ.lane.waveIds
      σ.lane.waveIds := .insert h.registered ht he (by simp [hp])
  refine h.follow hf h.lifecycles.lookups (h.queues.update ht hp hp' fun _ _ => .inl)
    (fun y u hu e' he' => ?_) fun y hy => ?_
  · rw [OrdMap.get_insert] at he' hu
    split at he'
    · next hxy =>
      rw [if_pos hxy] at hu
      cases hu
      rcases List.mem_cons.mp he' with rfl | he'
      · exact .inr hs
      · exact .inl (hxy ▸ he')
    · exact .inl he'
  · have hlt := (h.identities.own x t ht).2.2.1
    rw [OrdMap.get_insert_of_ne _ _ (by omega)]
    exact h.registered.recent y hy

theorem Inv.begin_get (h : Inv σ) {u : Transaction} (hu : (begin σ).transactions[y]? = some u) :
    y = σ.nextTransaction ∧
      u = ⟨σ.nextTransaction, σ.published, ∅, ∅, ∅, ∅, ∅, ∅, none, .active⟩ ∨
    y < σ.nextTransaction ∧ σ.transactions[y]? = some u := by
  simp only [begin, OrdMap.get_insert] at hu
  split at hu
  · next hxy => cases hu; exact .inl ⟨hxy.symm, rfl⟩
  · exact .inr ⟨(h.identities.own y u hu).2.2.1, hu⟩

theorem begin_same (hy : y < σ.nextTransaction) :
    (begin σ).transactions[y]? = σ.transactions[y]? := OrdMap.get_insert_of_ne _ _ hy.ne'

section

variable (h : Inv σ)
include h

theorem Inv.begin_guarded (hs : Guarded σ.published (begin σ).transactions s) :
    Guarded σ.published σ.transactions s := by
  rcases hs with hs | ⟨y, u, hu, hle⟩
  · exact .inl hs
  · rcases h.begin_get hu with ⟨-, rfl⟩ | ⟨-, hu⟩
    · exact .inl hle
    · exact .inr ⟨y, u, hu, hle⟩

theorem Inv.begin_identities : Identities (begin σ).transactions σ.history
    (σ.nextTransaction + 1) σ.published σ.lane.waveIds where
  positive := Nat.succ_pos _
  own y u hu := by
    rcases h.begin_get hu with ⟨rfl, rfl⟩ | ⟨_, hu⟩
    · exact ⟨rfl, h.identities.positive, Nat.lt_succ_self _, le_rfl⟩
    · obtain ⟨h1, h2, h3, h4⟩ := h.identities.own y u hu
      exact ⟨h1, h2, h3.trans (Nat.lt_succ_self _), h4⟩
  past c hc := (h.identities.past c hc).imp_right fun h => h.trans (Nat.lt_succ_self _)
  fresh y u hu hph hy := by
    rcases h.begin_get hu with ⟨rfl, rfl⟩ | ⟨_, hu⟩
    · rintro ⟨c, hc, ht, _⟩
      exact absurd (h.identities.past c hc).2 (by omega)
    · exact h.identities.fresh y u hu hph hy

theorem Inv.begin_ownership : Ownership (begin σ).transactions σ.history σ.nextTree
    σ.lane.waveIds σ.lane.reserving := by
  have hw := h.ownership
  refine ⟨hw.shape, hw.below, hw.unique, hw.opened, fun y u hu => ?_, fun y u hu => ?_,
    fun y u hu => ?_, fun y u hu => ?_, fun y u hu => ?_, hw.reserving⟩
  all_goals rcases h.begin_get hu with ⟨rfl, rfl⟩ | ⟨_, hu⟩
  · simp
  · exact hw.created y u hu
  · simp
  · exact hw.unopened y u hu
  · simp
  · exact hw.dropped y u hu
  · simp
  · exact hw.writes y u hu
  · simp
  · exact hw.states y u hu

theorem Inv.begin_registered :
    Registered (begin σ).transactions σ.reads σ.history (σ.nextTransaction + 1) where
  event y u hu e he := by
    rcases h.begin_get hu with ⟨rfl, rfl⟩ | ⟨_, hu⟩
    · simp [h.registered.recent _ le_rfl] at he
    · exact h.registered.event y u hu e he
  cursor y u c p hu hc hpos := by
    rcases h.begin_get hu with ⟨rfl, rfl⟩ | ⟨_, hu⟩
    · cases hc
    · exact h.registered.cursor y u c p hu hc hpos
  recent y hy := h.registered.recent y (Nat.le_of_succ_le hy)

theorem Inv.begin : Inv (begin σ) where
  sequence := h.sequence
  statuses := h.statuses
  tables := ⟨h.tables.data.mono fun _ => h.begin_guarded, h.tables.trees.mono fun _ => h.begin_guarded⟩
  pending plan hp := by
    have hpl := h.pending plan hp
    exact ⟨hpl.stored, hpl.tables.data.mono fun _ => h.begin_guarded,
      hpl.tables.trees.mono fun _ => h.begin_guarded⟩
  durable := h.durable
  identities := h.begin_identities
  implied := h.implied
  ownership := h.begin_ownership
  lifecycles := h.lifecycles
  queues := by
    refine h.queues.congr (fun y hy => ?_) fun y p hy => ?_
    · obtain ⟨u, hu, _⟩ := h.queues.waiting y hy
      exact begin_same (h.identities.own y u hu).2.2.1
    · obtain ⟨u, hu, hph⟩ := h.queues.lookups y p hy
      exact ⟨u, (begin_same (h.identities.own y u hu).2.2.1).trans hu, hph⟩
  registered := h.begin_registered
  recorded c hc hlt := by
    refine h.recorded c hc ?_
    rcases hlt with hs | ⟨y, u, hu, hs⟩
    · exact .inl hs
    · rcases h.begin_get hu with ⟨-, rfl⟩ | ⟨_, hu⟩
      · exact .inl hs
      · exact .inr ⟨y, u, hu, hs⟩
  serial := h.serial

theorem Inv.finish (ht : σ.transactions[x]? = some t) (hf : finish σ t = some σ') : Inv σ' := by
  obtain ⟨hid, -, -, -⟩ := h.identities.own x t ht
  unfold Txn.finish at hf
  split at hf
  · next hc =>
    cases hf
    rw [hid] at hc ⊢
    have hfol : Follows σ.history σ.transactions (σ.transactions.erase x) σ.lane.waveIds
        σ.lane.waveIds := .erase h.registered x
    refine h.follow hfol h.lifecycles.lookups ?_ (fun y u hu e he => ?_) fun y hy => ?_
    · refine h.queues.congr (fun y hy => ?_) fun y p hy => ?_
      · have hne : x ≠ y := fun hxy => h.queues.notMem ht hc.1 (hxy ▸ hy)
        simp [hne]
      · obtain ⟨u, hu, hph⟩ := h.queues.lookups y p hy
        have hne : x ≠ y := by
          rintro rfl
          simp [hy] at hc
        exact ⟨u, by simp [hne, hu], hph⟩
    · left
      rw [OrdMap.get_erase] at he
      split at he
      · simp at he
      · exact he
    · simp [h.registered.recent y hy]
  · cases hf

theorem Inv.evolve_pointReads (ht : σ.transactions[x]? = some t) (l : Loc) :
    Evolves σ.history t { t with pointReads := insert l t.pointReads } where
  id := rfl
  snapshot := rfl
  created _ h := .inl h
  depends _ hk := hk.imp Finset.mem_insert_of_mem id
  dropped _ h := .inl h
  writes _ h := .inl h
  states _ h := .inl h
  kept _ h := h
  cursor c p hc := h.cursor ht c p hc

theorem Inv.evolve_readRanges (ht : σ.transactions[x]? = some t) (r : ReadRange)
    (c : Option Cursor) (hc : c = t.cursor ∨ ∃ p, c = some ⟨r.1, r.2.2, some p⟩ ∧ r.2.1 ≤ p) :
    Evolves σ.history t { t with readRanges := insert r t.readRanges, cursor := c } where
  id := rfl
  snapshot := rfl
  created _ h := .inl h
  depends _ hk := hk.imp id (Or.imp id fun ⟨q, hq, hcov⟩ => ⟨q, Finset.mem_insert_of_mem hq, hcov⟩)
  dropped _ h := .inl h
  writes _ h := .inl h
  states _ h := .inl h
  kept _ h := h
  cursor k p hk hp := by
    rcases hc with rfl | ⟨q, rfl, hle⟩
    · obtain ⟨start, hmem, hle⟩ := h.cursor ht k p hk hp
      exact ⟨start, Finset.mem_insert_of_mem hmem, hle⟩
    · cases hk
      cases hp
      exact ⟨r.2.1, Finset.mem_insert_self _ _, hle⟩

theorem Inv.getStep (ht : σ.transactions[x]? = some t) (hp : t.phase = .active)
    (hd : σ.lane.dbFree = true) (tree : ℕ) (key : Bytes) : Inv (getStep σ t tree key) := by
  obtain ⟨rfl, -, -, -⟩ := h.identities.own x t ht
  have hrefl : Evolves σ.history t t := .refl (h.cursor ht)
  unfold Txn.getStep get
  cases hck : checkTreeVisibleForRead σ t tree with
  | error e => exact h.update ht hp hrefl hp
  | ok u =>
    cases hw : t.writes[(⟨tree, key⟩ : Loc)]? with
    | some v =>
      refine h.read ht hp hrefl hp ⟨?_, ?_⟩
      · intro l hl hn
        cases hl
        rw [hw] at hn
        cases hn
      · simp [Read.eval, overlay_get, hw]
    | none =>
      simp only [readKey_eq (h.shows_live hd ht)]
      refine h.read ht hp (h.evolve_pointReads ht ⟨tree, key⟩) hp ⟨?_, ?_⟩
      · intro l hl _
        cases hl
        exact .inl (Finset.mem_insert_self _ _)
      · simp [Read.eval, overlay_get, hw]

theorem Inv.scanStep (ht : σ.transactions[x]? = some t) (hp : t.phase = .active)
    (hd : σ.lane.dbFree = true) (tree : ℕ) (start : Bytes) (stop : Option Bytes) (limit : ℕ) :
    Inv (scanStep σ t tree start stop limit) := by
  obtain ⟨rfl, -, -, -⟩ := h.identities.own x t ht
  have hrefl : Evolves σ.history t t := .refl (h.cursor ht)
  unfold Txn.scanStep scan
  cases hck : checkTreeVisibleForRead σ t tree with
  | error e => exact h.update ht hp hrefl hp
  | ok u =>
    by_cases hl : limit = 0
    · subst hl
      simp only [if_true]
      refine h.read ht hp hrefl hp ⟨fun l hl _ => absurd hl.1 (lt_irrefl 0), ?_⟩
      simp [Read.eval, entriesIn]
    · simp only [hl, if_false]
      have hev := h.evolve_readRanges ht (tree, start, stop) t.cursor (.inl rfl)
      by_cases hs : (stop.any fun e => decide (e < start)) = true
      · simp only [hs, if_true]
        exact h.update ht hp hev hp
      · simp only [hs, scan_merged (h.shows_live hd ht) (h.vacant ht hp)]
        refine h.read ht hp hev hp ⟨fun l hl _ => ?_, rfl⟩
        refine .inr (.inr ⟨(tree, start, stop), Finset.mem_insert_self _ _, ?_⟩)
        simp [ReadRange.covers, hl.2.1, hl.2.2]

theorem Inv.cursorStep (ht : σ.transactions[x]? = some t) (hp : t.phase = .active)
    (tree : ℕ) (start : Bytes) (stop : Option Bytes) : Inv (cursorStep σ t tree start stop) := by
  obtain ⟨rfl, -, -, -⟩ := h.identities.own x t ht
  unfold Txn.cursorStep
  split
  · next t' hc =>
    unfold openCursor at hc
    obtain ⟨_, _, hc⟩ := bind_eq_ok.mp hc
    split at hc
    · cases hc
    · cases hc
      exact h.update ht hp
        (h.evolve_readRanges ht (tree, start, stop) _ (.inr ⟨start, rfl, le_rfl⟩)) hp
  · exact h

theorem Inv.advanceStep (ht : σ.transactions[x]? = some t) (hp : t.phase = .active)
    (hd : σ.lane.dbFree = true) {c : Cursor} (hc : t.cursor = some c) : Inv (advanceStep σ t c) := by
  obtain ⟨rfl, -, -, -⟩ := h.identities.own x t ht
  unfold Txn.advanceStep
  cases hpos : c.position with
  | none => exact h
  | some position =>
    obtain ⟨e, next, hadv, he, hnext, -⟩ := advance_spec (h.shows_live hd ht) (h.vacant ht hp) hpos
    obtain ⟨start, hmem, hle⟩ := h.cursor ht c position hc hpos
    simp only [hadv]
    have hev : Evolves σ.history t { t with cursor := some { c with position := next } } := by
      refine ⟨rfl, rfl, fun _ h => .inl h, fun _ h => h, fun _ h => .inl h, fun _ h => .inl h,
        fun _ h => .inl h, fun _ h => h, fun k p hk hp => ?_⟩
      cases hk
      exact ⟨start, hmem, hle.trans (hnext p hp)⟩
    refine h.read ht hp hev hp ⟨fun l hl _ => ?_, ?_⟩
    · refine .inr (.inr ⟨(c.tree, start, c.stop), hmem, ?_⟩)
      obtain ⟨hge, hlt⟩ := inRange_iff.mp hl.2
      simp [ReadRange.covers, hl.1, inRange_iff.mpr ⟨hle.trans hge, hlt⟩]
    · simp [Read.eval, he]

end

theorem checkTreeForWrite_ok (h : checkTreeForWrite t tree = some (.ok ())) :
    tree ∈ t.created ∨ t.treeStates[tree]? = some true := by
  unfold checkTreeForWrite at h
  split at h
  · cases h
  · split at h
    · exact .inl ‹_›
    · cases hs : t.treeStates[tree]? with
      | none => simp [hs] at h
      | some b => cases b <;> simp [hs] at h ⊢

theorem Inv.write (h : Inv σ) (ht : σ.transactions[x]? = some t) (hp : t.phase = .active) {l : Loc}
    (hw : write σ t l v = some σ') : Inv σ' := by
  obtain ⟨rfl, -, -, -⟩ := h.identities.own x t ht
  obtain ⟨r, hr, rfl⟩ := Option.map_eq_some_iff.mp hw
  cases r with
  | error e => exact h
  | ok u =>
    have htree := (checkTreeForWrite_ok hr).imp id (h.ownership.states _ t ht l.tree)
    refine h.update ht hp ⟨rfl, rfl, fun _ h => .inl h, fun k hk => ?_, fun _ h => .inl h, fun k hk => ?_,
      fun _ h => .inl h, fun _ h => h, fun c p hc => h.cursor ht c p hc⟩ hp
    · exact hk.imp id (Or.imp (fun h => Std.ExtTreeMap.mem_insert.mpr (.inr h)) id)
    · rcases Std.ExtTreeMap.mem_insert.mp hk with hk | hk
      · rw [← compare_eq_iff_eq.mp hk]
        exact .inr htree
      · exact .inl hk

theorem Inv.dropTree (h : Inv σ) (ht : σ.transactions[x]? = some t) (hp : t.phase = .active)
    (hd : dropTree σ t tree = some σ') : Inv σ' := by
  obtain ⟨rfl, -, -, -⟩ := h.identities.own x t ht
  have hupd : tree ∈ t.created ∨ Opened σ.history tree →
      Inv (setTxn σ { t with dropped := insert tree t.dropped }) := fun htree =>
    h.update ht hp ⟨rfl, rfl, fun _ h => .inl h, fun _ h => h, fun k hk => by
      rcases Finset.mem_insert.mp hk with rfl | hk
      · exact .inr htree
      · exact .inl hk, fun _ h => .inl h, fun _ h => .inl h, fun _ h => h,
      fun c p hc => h.cursor ht c p hc⟩ hp
  unfold Txn.dropTree at hd
  split at hd
  · next hc => cases hd; exact hupd (.inl hc)
  · obtain ⟨b, hb, rfl⟩ := Option.map_eq_some_iff.mp hd
    cases b with
    | false => exact h
    | true => exact hupd (.inr (h.ownership.states _ t ht tree hb))

theorem mem_chain_of_visibleCurrent {store : VersionStore} {statuses : Statuses} {v : VisibleVersion}
    (h : store.visibleCurrent statuses r s = .ok (some v)) : ∃ e ∈ store.chain r, e.value = v.value := by
  by_cases hk : store.Known r.undoHead
  · have ho : VersionStore.Outcome statuses s _ _ := VersionStore.visibleCurrent_outcome hk
    unfold VersionStore.Outcome at ho
    split at ho
    · next e he =>
      rw [h, Except.ok.injEq] at ho
      obtain ⟨e', rfl, rfl⟩ := Option.map_eq_some_iff.mp ho.symm
      exact ⟨e', VersionChain.mem_of_visible he, rfl⟩
    · obtain ⟨m, hm⟩ := ho
      rw [h] at hm
      cases hm
  · -- an unknown head fails as soon as the walk leaves the current record
    obtain ⟨c, hc, h⟩ := bind_eq_ok.mp h
    split at h
    · cases h
      exact ⟨r.entry, by simp [VersionStore.chain_eq], rfl⟩
    · cases hu : r.undoHead with
      | none => exact absurd (hu ▸ VersionStore.known_none) hk
      | some id =>
        rw [hu] at h hk
        obtain ⟨rec, hrec, _⟩ := bind_eq_ok.mp h
        unfold VersionStore.get at hrec
        split at hrec
        · next v hv => exact absurd (fun i hi => ⟨v, by cases hi; exact hv⟩) hk
        · cases hrec

theorem lifecycleVisible_true {record : CurrentRecord} (h : lifecycleVisible σ t record = .ok true) :
    ∃ e ∈ σ.versions.chain record, e.value = some treeLive := by
  obtain ⟨v, hv, h⟩ := bind_eq_ok.mp h
  obtain ⟨w, hw, hv⟩ := bind_eq_ok.mp hv
  cases hv
  have hlive : (w.bind fun x => x.value) = some treeLive := by simpa [pure, Except.pure] using h
  obtain ⟨v, rfl, hval⟩ := Option.bind_eq_some_iff.mp hlive
  obtain ⟨e, he, hev⟩ := mem_chain_of_visibleCurrent hw
  exact ⟨e, he, hev.trans hval⟩

theorem Inv.setLookups (h : Inv σ) {lookups' : OrdMap ℕ (ℕ × CurrentRecord)}
    (hl : ∀ (y tree : ℕ) (r : CurrentRecord), lookups'[y]? = some (tree, r) →
      LiveSourced σ.versions σ.history tree r ∧ ∃ u, σ.transactions[y]? = some u ∧ u.phase = .active) :
    Inv { σ with lookups := lookups' } := by
  have hf : Follows σ.history σ.transactions σ.transactions σ.lane.waveIds σ.lane.waveIds :=
    ⟨fun y u hu => ⟨u, hu, .refl (h.cursor hu), fun h hx => ⟨h, hx⟩⟩⟩
  exact h.follow hf (fun y tree r hy => (hl y tree r hy).1)
    (h.queues.congr (fun _ _ => rfl) fun y p hy => (hl y p.1 p.2 hy).2)
    (fun _ _ _ _ he => .inl he) h.registered.recent

theorem Inv.cloneLifecycle (h : Inv σ) (ht : σ.transactions[x]? = some t) (hp : t.phase = .active)
    (tree : ℕ) : Inv (cloneLifecycle σ t tree).1 := by
  obtain ⟨rfl, -, -, -⟩ := h.identities.own x t ht
  unfold Txn.cloneLifecycle
  split
  · exact h
  · next record hr =>
    refine h.setLookups fun y tr r hy => ?_
    rw [OrdMap.get_insert] at hy
    split at hy
    · next hxy =>
      cases hy
      exact ⟨h.lifecycles.mirror tree record hr, t, by rw [← hxy]; exact ht, hp⟩
    · exact ⟨h.lifecycles.lookups y tr r hy, h.queues.lookups y _ hy⟩

theorem Inv.resolveLifecycle (h : Inv σ) (ht : σ.transactions[x]? = some t) {tree : ℕ}
    {record : CurrentRecord} (hl : σ.lookups[x]? = some (tree, record)) :
    Inv (resolveLifecycle σ t tree record).1 := by
  obtain ⟨rfl, -, -, -⟩ := h.identities.own x t ht
  have hp : t.phase = .active := by
    obtain ⟨u, hu, hph⟩ := h.queues.lookups _ _ hl
    rw [ht] at hu
    cases hu
    exact hph
  have herase : Inv { σ with lookups := σ.lookups.erase t.id } := by
    refine h.setLookups fun y tr r hy => ?_
    rw [OrdMap.get_erase] at hy
    split at hy
    · cases hy
    · exact ⟨h.lifecycles.lookups y tr r hy, h.queues.lookups y _ hy⟩
  unfold Txn.resolveLifecycle
  dsimp only
  split
  · exact herase
  · next visible hv =>
    refine herase.update ht hp ⟨rfl, rfl, fun _ h => .inl h, fun _ h => h, fun _ h => .inl h,
      fun _ h => .inl h, fun k hk => ?_, fun _ h => h, fun c p hc => h.cursor ht c p hc⟩ hp
    rw [OrdMap.get_insert] at hk
    split at hk
    · next hkt =>
      cases hk
      subst hkt
      obtain ⟨e, he, hlive⟩ := lifecycleVisible_true hv
      exact .inr ((h.lifecycles.lookups _ _ _ hl).live e he hlive)
    · exact .inl hk

end OmenDb.Txn
