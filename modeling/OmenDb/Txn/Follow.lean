import OmenDb.Txn.Invariant

/-! How the invariant's parts about live transactions survive a change of the transaction table.
Between two states each surviving transaction only gains dependencies, and touches only trees
it reserved or that some commit opened. -/
namespace OmenDb.Txn

structure Evolves (history : List Commit) (t t' : Transaction) : Prop where
  id : t'.id = t.id
  snapshot : t'.snapshot = t.snapshot
  created : ∀ tree ∈ t'.created, tree ∈ t.created ∨
    ReservedBy history t.id tree ∧ ¬ Opened history tree
  depends : ∀ l, t.depends l → t'.depends l
  dropped : ∀ tree ∈ t'.dropped, tree ∈ t.dropped ∨ tree ∈ t'.created ∨ Opened history tree
  writes : ∀ l, l ∈ t'.writes → l ∈ t.writes ∨ l.tree ∈ t'.created ∨ Opened history l.tree
  states : ∀ tree : ℕ, t'.treeStates[tree]? = some true → t.treeStates[tree]? = some true ∨
    Opened history tree
  kept : ∀ tree ∈ t.created, tree ∈ t'.created
  cursor : ∀ c p, t'.cursor = some c → c.position = some p →
    ∃ start, (c.tree, start, c.stop) ∈ t'.readRanges ∧ start ≤ p

/-- A transaction table after a step that starts no transaction. -/
structure Follows (history : List Commit) (ts ts' : OrdMap ℕ Transaction) (ids ids' : List ℕ) :
    Prop where
  evolves : ∀ (x : ℕ) (t' : Transaction), ts'[x]? = some t' →
    ∃ t, ts[x]? = some t ∧ Evolves history t t' ∧
      (t'.phase ≠ .done → x ∉ ids' → t.phase ≠ .done ∧ x ∉ ids)

variable {history : List Commit} {ts ts' : OrdMap ℕ Transaction} {ids ids' : List ℕ}
  {published next : ℕ}

theorem Follows.guarded (h : Follows history ts ts' ids ids') {s : ℕ}
    (hs : Guarded published ts' s) : Guarded published ts s := by
  rcases hs with hs | ⟨x, t', ht', hle⟩
  · exact .inl hs
  · obtain ⟨t, ht, he, _⟩ := h.evolves x t' ht'
    exact .inr ⟨x, t, ht, he.snapshot ▸ hle⟩

theorem Identities.follow (hi : Identities ts history next published ids)
    (h : Follows history ts ts' ids ids') : Identities ts' history next published ids' where
  positive := hi.positive
  own x t' ht' := by
    obtain ⟨t, ht, he, _⟩ := h.evolves x t' ht'
    rw [he.id, he.snapshot]
    exact hi.own x t ht
  past := hi.past
  fresh x t' ht' hp hx := by
    obtain ⟨t, ht, _, ho⟩ := h.evolves x t' ht'
    exact hi.fresh x t ht (ho hp hx).1 (ho hp hx).2

theorem Ownership.follow {nextTree : ℕ} {reserving : Option (ℕ × ℕ)}
    (hw : Ownership ts history nextTree ids reserving) (hi : Identities ts history next published ids)
    (h : Follows history ts ts' ids ids') : Ownership ts' history nextTree ids' reserving where
  shape := hw.shape
  below := hw.below
  unique := hw.unique
  opened := hw.opened
  created x t' ht' tree hc := by
    obtain ⟨t, ht, he, _⟩ := h.evolves x t' ht'
    rcases he.created tree hc with hc | ⟨hr, -⟩
    · exact hw.created x t ht tree hc
    · exact (hi.own x t ht).1 ▸ hr
  unopened x t' ht' hp hx tree hc := by
    obtain ⟨t, ht, he, ho⟩ := h.evolves x t' ht'
    rcases he.created tree hc with hc | ⟨-, hu⟩
    · exact hw.unopened x t ht (ho hp hx).1 (ho hp hx).2 tree hc
    · exact hu
  dropped x t' ht' tree hd := by
    obtain ⟨t, ht, he, _⟩ := h.evolves x t' ht'
    rcases he.dropped tree hd with hd | hd
    · exact (hw.dropped x t ht tree hd).imp (he.kept tree) id
    · exact hd
  writes x t' ht' l hl := by
    obtain ⟨t, ht, he, _⟩ := h.evolves x t' ht'
    rcases he.writes l hl with hl | hl
    · exact (hw.writes x t ht l hl).imp (he.kept l.tree) id
    · exact hl
  states x t' ht' tree hs := by
    obtain ⟨t, ht, he, _⟩ := h.evolves x t' ht'
    exact (he.states tree hs).elim (hw.states x t ht tree) id
  reserving := hw.reserving

variable {t : Transaction} {reads reads' : OrdMap ℕ (List ReadEvent)} {db : Db} {lane : Lane}
    {queue : List StagedCommit}
  {lookups : OrdMap ℕ (ℕ × CurrentRecord)}

theorem ReadEvent.Sound.evolve {t' : Transaction} {e : ReadEvent} (h : e.Sound history t)
    (he : Evolves history t t') : e.Sound history t' where
  registered l hl ho := he.depends l (h.registered l hl ho)
  answer := by rw [he.snapshot]; exact h.answer

theorem Registered.follow (hr : Registered ts reads history next) (h : Follows history ts ts' ids ids')
    (hnew : ∀ (x : ℕ) (t' : Transaction), ts'[x]? = some t' → ∀ e ∈ (reads'[x]?).getD [],
      e ∈ (reads[x]?).getD [] ∨ e.Sound history t')
    (hrecent : ∀ x, next ≤ x → reads'[x]? = none) : Registered ts' reads' history next where
  event x t' ht' e he := by
    obtain ⟨t, ht, hev, _⟩ := h.evolves x t' ht'
    rcases hnew x t' ht' e he with he | he
    · exact (hr.event x t ht e he).evolve hev
    · exact he
  cursor x t' c p ht' hc hp := by
    obtain ⟨t, ht, hev, _⟩ := h.evolves x t' ht'
    exact hev.cursor c p hc hp
  recent := hrecent

theorem Recorded.follow (hr : Recorded db published ts history)
    (h : Follows history ts ts' ids ids') : Recorded db published ts' history := by
  intro c hc hlt
  refine hr c hc (hlt.imp id ?_)
  rintro ⟨x, t', ht', hs⟩
  obtain ⟨t, ht, he, _⟩ := h.evolves x t' ht'
  exact ⟨x, t, ht, he.snapshot ▸ hs⟩

theorem evolves_phase (hc : ∀ c p, t.cursor = some c → c.position = some p →
    ∃ start, (c.tree, start, c.stop) ∈ t.readRanges ∧ start ≤ p) (phase : Phase) :
    Evolves history t { t with phase := phase } :=
  ⟨rfl, rfl, fun _ h => .inl h, fun _ h => h, fun _ h => .inl h, fun _ h => .inl h,
    fun _ h => .inl h, fun _ h => h, hc⟩

theorem Evolves.refl (hc : ∀ c p, t.cursor = some c → c.position = some p →
    ∃ start, (c.tree, start, c.stop) ∈ t.readRanges ∧ start ≤ p) : Evolves history t t :=
  evolves_phase hc t.phase

theorem Follows.insert {reads : OrdMap ℕ (List ReadEvent)} (hr : Registered ts reads history next)
    {x : ℕ} {t t' : Transaction} (ht : ts[x]? = some t) (he : Evolves history t t')
    (hp : t'.phase ≠ .done → t.phase ≠ .done) : Follows history ts (ts.insert x t') ids ids where
  evolves y u hu := by
    rw [OrdMap.get_insert] at hu
    split at hu
    · next hxy =>
      cases hu
      subst hxy
      exact ⟨t, ht, he, fun h hx => ⟨hp h, hx⟩⟩
    · exact ⟨u, hu, .refl fun c p => hr.cursor y u c p hu, fun h hx => ⟨h, hx⟩⟩

theorem Follows.erase (hr : Registered ts reads history next)
    (x : ℕ) : Follows history ts (ts.erase x) ids ids where
  evolves y u hu := by
    rw [OrdMap.get_erase] at hu
    split at hu
    · cases hu
    · exact ⟨u, hu, .refl fun c p => hr.cursor y u c p hu, fun h hx => ⟨h, hx⟩⟩

theorem mem_serves {s : StagedCommit} (h : s ∈ lane.taken ++ lane.wave.map (·.staged) ++ queue) :
    s.transaction ∈ lane.serves ++ queue.map (·.transaction) := by
  simp only [List.mem_append, List.mem_map] at h
  simp only [Lane.serves, Lane.waveIds, List.mem_append, List.mem_map]
  rcases h with (h | ⟨m, hm, rfl⟩) | h
  · exact .inl (.inl (.inl ⟨s, h, rfl⟩))
  · exact .inl (.inl (.inr ⟨m, hm, rfl⟩))
  · exact .inr ⟨s, h, rfl⟩

section Queues
variable {lane : Lane} {queue : List StagedCommit} {prepare : Unpublished}
  {lookups lookups' : OrdMap ℕ (ℕ × CurrentRecord)}

theorem Queues.congr (hq : Queues ts lane queue prepare lookups)
    (hsame : ∀ x ∈ lane.serves ++ queue.map (·.transaction), ts'[x]? = ts[x]?)
    (hl : ∀ (x : ℕ) (p : ℕ × CurrentRecord), lookups'[x]? = some p →
      ∃ t, ts'[x]? = some t ∧ t.phase = .active) : Queues ts' lane queue prepare lookups' where
  waiting x hx := by rw [hsame x hx]; exact hq.waiting x hx
  distinct := hq.distinct
  staged s hs := by rw [hsame _ (mem_serves hs)]; exact hq.staged s hs
  index := hq.index
  taken := hq.taken.imp_of_mem fun _ hb hab t ht =>
    hab t (by rw [← hsame _ (mem_serves (by simp [hb]))]; exact ht)
  queue := hq.queue.imp_of_mem fun _ hb hab t ht =>
    hab t (by rw [← hsame _ (mem_serves (by simp [hb]))]; exact ht)
  lookups := hl

theorem Queues.notMem (hq : Queues ts lane queue prepare lookups) {x : ℕ} {t : Transaction}
    (ht : ts[x]? = some t) (hp : t.phase ≠ .waiting) :
    x ∉ lane.serves ++ queue.map (·.transaction) := by
  intro hx
  obtain ⟨u, hu, hw⟩ := hq.waiting x hx
  rw [ht] at hu
  cases hu
  exact hp hw

theorem Queues.update (hq : Queues ts lane queue prepare lookups) {x : ℕ} {t t' : Transaction}
    (ht : ts[x]? = some t) (hp : t.phase = .active) (hp' : t'.phase = .active)
    (hl : ∀ (y : ℕ) (p : ℕ × CurrentRecord), lookups'[y]? = some p →
      lookups[y]? = some p ∨ y = x) : Queues (ts.insert x t') lane queue prepare lookups' := by
  refine hq.congr (fun y hy => ?_) fun y p hy => ?_
  · have hne : x ≠ y := fun h => hq.notMem ht (by simp [hp]) (h ▸ hy)
    exact OrdMap.get_insert_of_ne _ _ hne
  · by_cases hxy : x = y
    · exact ⟨t', by simp [hxy], hp'⟩
    · rw [OrdMap.get_insert_of_ne _ _ hxy]
      rcases hl y p hy with h | h
      · exact hq.lookups y p h
      · exact absurd h.symm hxy

end Queues

theorem Queues.retire {lane' : Lane} {prepare : Unpublished} (hq : Queues ts lane queue prepare lookups)
    (hs : lane'.serves.Sublist lane.serves) (ht : lane'.taken = [])
    (hw : ∀ m ∈ lane'.wave, m.staged ∈ lane.taken ++ lane.wave.map (·.staged))
    (hsame : ∀ x ∈ lane'.serves ++ queue.map (·.transaction), ts'[x]? = ts[x]?)
    (hl : ∀ (x : ℕ) (p : ℕ × CurrentRecord), lookups[x]? = some p →
      ∃ t, ts'[x]? = some t ∧ t.phase = .active) : Queues ts' lane' queue prepare lookups := by
  have hsub := hs.append (List.Sublist.refl (queue.map (·.transaction)))
  refine ⟨fun x hx => ?_, hsub.nodup hq.distinct, fun s hs' => ?_, hq.index, by simp [ht], ?_, hl⟩
  · rw [hsame x hx]
    exact hq.waiting x (hsub.subset hx)
  · rw [hsame _ (mem_serves hs')]
    refine hq.staged s ?_
    rw [ht, List.nil_append] at hs'
    rcases List.mem_append.mp hs' with h | h
    · obtain ⟨m, hm, rfl⟩ := List.mem_map.mp h
      exact List.mem_append_left _ (hw m hm)
    · exact List.mem_append_right _ h
  · refine hq.queue.imp_of_mem fun _ hb hab t ht => hab t ?_
    rw [← hsame _ (List.mem_append_right _ (List.mem_map_of_mem hb))]
    exact ht

theorem foldl_setPhase_get (phase : Phase) (l : List ℕ) (ts : OrdMap ℕ Transaction) (x : ℕ) :
    (l.foldl (setPhase phase) ts)[x]? =
      (ts[x]?).map fun t => if x ∈ l then { t with phase := phase } else t := by
  induction l generalizing ts with
  | nil => simp
  | cons y ys ih =>
    rw [List.foldl_cons, ih]
    unfold setPhase
    cases hy : ts[y]? with
    | none =>
      by_cases hxy : y = x
      · subst hxy; simp [hy]
      · cases ts[x]? <;> simp [Ne.symm hxy]
    | some t =>
      by_cases hxy : y = x
      · subst hxy; simp [hy]
      · rw [OrdMap.get_insert_of_ne _ _ hxy]
        cases ts[x]? <;> simp [Ne.symm hxy]

theorem foldl_setPhase_of_notMem {phase : Phase} {l : List ℕ} {x : ℕ} (hx : x ∉ l) :
    (l.foldl (setPhase phase) ts)[x]? = ts[x]? := by
  rw [foldl_setPhase_get]
  cases ts[x]? <;> simp [hx]

theorem Follows.resume (hr : Registered ts reads history next)
    (l : List ℕ) (hl : ∀ x ∈ l, ∀ t, ts[x]? = some t → t.phase ≠ .done) :
    Follows history ts (l.foldl (setPhase .active) ts) ids ids where
  evolves x t' ht' := by
    rw [foldl_setPhase_get] at ht'
    obtain ⟨t, ht, rfl⟩ := Option.map_eq_some_iff.mp ht'
    refine ⟨t, ht, ?_, fun hp hx => ⟨?_, hx⟩⟩
    · split
      · exact evolves_phase (fun c p => hr.cursor x t c p ht) _
      · exact .refl fun c p => hr.cursor x t c p ht
    · by_cases hx : x ∈ l
      · exact hl x hx t ht
      · simpa [hx] using hp

theorem Follows.settle {reads : OrdMap ℕ (List ReadEvent)} (hr : Registered ts reads history next)
    (l : List ℕ) : Follows history ts (l.foldl (setPhase .done) ts) l [] where
  evolves x t' ht' := by
    rw [foldl_setPhase_get] at ht'
    obtain ⟨t, ht, rfl⟩ := Option.map_eq_some_iff.mp ht'
    refine ⟨t, ht, ?_, fun hp _ => ?_⟩
    · split
      · exact evolves_phase (fun c p => hr.cursor x t c p ht) _
      · exact .refl fun c p => hr.cursor x t c p ht
    · by_cases hx : x ∈ l
      · simp [hx] at hp
      · exact ⟨by simpa [hx] using hp, hx⟩

theorem lookups_resume (hl : ∀ (x : ℕ) (p : ℕ × CurrentRecord), lookups[x]? = some p →
      ∃ t, ts[x]? = some t ∧ t.phase = .active) (l : List ℕ) :
    ∀ (x : ℕ) (p : ℕ × CurrentRecord), lookups[x]? = some p →
      ∃ t, (l.foldl (setPhase .active) ts)[x]? = some t ∧ t.phase = .active := by
  intro x p hx
  obtain ⟨t, ht, hp⟩ := hl x p hx
  rw [foldl_setPhase_get, ht]
  refine ⟨_, rfl, ?_⟩
  split
  · rfl
  · exact hp

theorem Tables.follow {statuses : Statuses} {versions : VersionStore}
    (hT : Tables db statuses versions (Guarded published ts) history)
    (h : Follows history ts ts' ids ids') :
    Tables db statuses versions (Guarded published ts') history :=
  ⟨hT.data.mono fun _ => h.guarded, hT.trees.mono fun _ => h.guarded⟩

theorem Inv.follow {σ : State} (h : Inv σ) {ts' : OrdMap ℕ Transaction}
    {lookups' : OrdMap ℕ (ℕ × CurrentRecord)} {queue' : List StagedCommit} {prepare' : Unpublished}
    (hf : Follows σ.history σ.transactions ts' σ.lane.waveIds σ.lane.waveIds)
    (hl : ∀ (x tree : ℕ) (r : CurrentRecord), lookups'[x]? = some (tree, r) →
      LiveSourced σ.versions σ.history tree r) (hq : Queues ts' σ.lane queue' prepare' lookups')
    (hnew : ∀ (x : ℕ) (t' : Transaction), ts'[x]? = some t' → ∀ e ∈ (reads'[x]?).getD [],
      e ∈ (σ.reads[x]?).getD [] ∨ e.Sound σ.history t')
    (hrecent : ∀ x, σ.nextTransaction ≤ x → reads'[x]? = none) :
    Inv { σ with
      transactions := ts', lookups := lookups', reads := reads', queue := queue',
      prepare := prepare' } where
  sequence := h.sequence
  statuses := h.statuses
  tables := h.tables.follow hf
  pending plan hp := ⟨(h.pending plan hp).stored, (h.pending plan hp).tables.follow hf⟩
  durable := h.durable
  identities := h.identities.follow hf
  implied := h.implied
  ownership := h.ownership.follow h.identities hf
  lifecycles := ⟨h.lifecycles.trees, h.lifecycles.mirror, hl, h.lifecycles.installed⟩
  queues := hq
  registered := h.registered.follow hf hnew hrecent
  recorded := h.recorded.follow hf
  serial := h.serial

section Grow
variable {new : List Commit}

variable {tree : ℕ} {versions versions' : VersionStore}

theorem Opened.append (h : Opened history tree) (new : List Commit) : Opened (new ++ history) tree := by
  obtain ⟨c, hc, h⟩ := h
  exact ⟨c, List.mem_append_right _ hc, h⟩

theorem ReservedBy.append {x : ℕ} (h : ReservedBy history x tree) (new : List Commit) :
    ReservedBy (new ++ history) x tree := by
  obtain ⟨c, hc, h⟩ := h
  exact ⟨c, List.mem_append_right _ hc, h⟩

theorem LiveSourced.grow {r : CurrentRecord}
    (h : LiveSourced versions history tree r) (hx : VersionStore.Extends versions versions')
    (new : List Commit) : LiveSourced versions' (new ++ history) tree r where
  bounded id hid := (h.bounded id hid).trans_le hx.next_le
  live e he hl := by
    rw [hx.chain_of_lt h.bounded] at he
    exact (h.live e he hl).append new

theorem Lifecycles.grow {db : Db} {mirror : OrdMap ℕ CurrentRecord}
    {lookups : OrdMap ℕ (ℕ × CurrentRecord)} {installed : List (ℕ × CurrentRecord)}
    (h : Lifecycles db mirror lookups installed versions history)
    (hx : VersionStore.Extends versions versions') (new : List Commit) :
    Lifecycles db mirror lookups installed versions' (new ++ history) where
  trees tree r hr := (h.trees tree r hr).grow hx new
  mirror tree r hr := (h.mirror tree r hr).grow hx new
  lookups x tree r hr := (h.lookups x tree r hr).grow hx new
  installed p hp := (h.installed p hp).grow hx new

theorem Registered.grow {reads : OrdMap ℕ (List ReadEvent)} (hr : Registered ts reads history next)
    (hn : ∀ (x : ℕ) (t : Transaction), ts[x]? = some t → ∀ c ∈ new, t.snapshot < c.csn) :
    Registered ts reads (new ++ history) next where
  event x t ht e he := by
    have hs := hr.event x t ht e he
    refine ⟨hs.registered, ?_⟩
    rw [storeAt_append (hn x t ht)]
    exact hs.answer
  cursor := hr.cursor
  recent := hr.recent

theorem Serial.grow (hs : Serial history) (hn : ∀ c ∈ history, ∀ d ∈ new, c.csn ≤ d.csn)
    (hpos : ∀ c ∈ history, 0 < c.csn) (hnew : ∀ c ∈ new, ∀ e ∈ c.reads,
      e.read.eval (storeAt (c.csn - 1) (new ++ history)) e.own = e.answer) :
    Serial (new ++ history) := by
  intro c hc e he
  rcases List.mem_append.mp hc with hc | hc
  · exact hnew c hc e he
  · rw [storeAt_append fun d hd => ?_]
    · exact hs c hc e he
    · have := hn c hc d hd
      have := hpos c hc
      omega

end Grow

end OmenDb.Txn
