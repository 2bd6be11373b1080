import OmenDb.Txn.Serializability
import OmenDb.Txn.Storage

/-! Writers and droppers of one tree. A write is checked against lifecycle records of the state
that a wave starts from, and never against the other members of its wave: a drop that is ahead of
it in the same wave goes unnoticed. Every other order is refused. -/
namespace OmenDb.Txn

variable {σ : State} {queue : List StagedCommit} {ms : List Member} {a : Action} {t : Transaction}
  {store : VersionStore} {history : List Commit}

/-- A tree is reserved before any commit changes its lifecycle. -/
def ReservedFirst (history : List Commit) : Prop :=
  ∀ c ∈ history, ∀ d ∈ history, ∀ tree, c.reservation = true → d.reservation = false →
    tree ∈ c.treeLifecycles → tree ∈ d.treeLifecycles → c.csn < d.csn

theorem Inv.reservedFirst {S : Storage} (h : Inv σ) (hf : ReservedFirst σ.history) (hs : Stores σ a S) :
    ReservedFirst S.history := by
  intro c hc d hd tree hcr hdr hct hdt
  cases hs with
  | installed _ hok _ _ =>
    rcases List.mem_append.mp hc with hc | hc
    · obtain ⟨m, _, rfl⟩ := mem_waveCommits.mp hc
      cases hcr
    rcases List.mem_append.mp hd with hd | hd
    · obtain ⟨m, hm, rfl⟩ := mem_waveCommits.mp hd
      exact (h.sequence.bounded c hc).trans_lt (hok.assigned m hm).1
    · exact hf c hc d hd tree hcr hdr hct hdt
  | reserved _ _ _ =>
    rcases List.mem_cons.mp hd with rfl | hd
    · cases hdr
    rcases List.mem_cons.mp hc with rfl | hc
    · rw [mem_reservation] at hct
      have := h.ownership.below d hd tree hdt
      omega
    · exact hf c hc d hd tree hcr hdr hct hdt
  | _ => exact hf c hc d hd tree hcr hdr hct hdt

/-- If a commit with snapshot `s` writes into a tree at `c`, no other transaction that dropped the
tree committed strictly between. -/
def DropLaw (history : List Commit) : Prop :=
  ∀ w ∈ history, ∀ d ∈ history, ∀ l, l ∈ w.writes →
    d.treeLifecycles[l.tree]? = some treeDropped → d.transaction ≠ w.transaction →
    ¬ (w.snapshot < d.csn ∧ d.csn < w.csn)

instance (history : List Commit) : Decidable (DropLaw history) :=
  decidable_of_iff (∀ w ∈ history, ∀ d ∈ history, ∀ l ∈ w.writes.keys,
    d.treeLifecycles[l.tree]? = some treeDropped → d.transaction ≠ w.transaction →
    ¬ (w.snapshot < d.csn ∧ d.csn < w.csn)) <| by
    simp only [DropLaw, Std.ExtTreeMap.mem_keys]

/-- One staged commit drops a tree that another one writes into. -/
def StagedCommit.dropsUnder (a b : StagedCommit) : Prop :=
  ∃ l, l ∈ b.writes ∧ a.treeLifecycles[l.tree]? = some treeDropped

/-- No member of the drained queue that validation accepts is behind one that drops a tree it
writes into. -/
def DropsBehind (σ : State) : Action → Prop
  | .publish _ => ∀ queue, σ.lane = .drained queue →
      queue.Pairwise fun a b => validateAgainstPublished a σ.db σ.statuses = .ok () →
        validateAgainstPublished b σ.db σ.statuses = .ok () → ¬ a.dropsUnder b
  | _ => True

instance (a b : StagedCommit) : Decidable (a.dropsUnder b) :=
  decidable_of_iff (∃ l ∈ b.writes.keys, a.treeLifecycles[l.tree]? = some treeDropped) <| by
    simp only [StagedCommit.dropsUnder, Std.ExtTreeMap.mem_keys]

instance (σ : State) (a : Action) : Decidable (DropsBehind σ a) :=
  match a with
  | .publish _ =>
    match hl : σ.lane with
    | .drained queue =>
      decidable_of_iff (queue.Pairwise fun a b => validateAgainstPublished a σ.db σ.statuses = .ok () →
        validateAgainstPublished b σ.db σ.statuses = .ok () → ¬ a.dropsUnder b)
        ⟨fun h _ hq => Lane.drained.inj (hl.symm.trans hq) ▸ h, fun h => h queue hl⟩
    | .idle | .installed _ | .positioned _ | .mirrored _ | .settled | .collected _ | .rebuilt _
    | .reserved _ _ _ | .reservedMirrored _ _ | .sampled _ => .isTrue fun _ hq => by rw [hl] at hq; cases hq
  | .begin | .cloneLifecycle _ _ | .resolveLifecycle _ | .put _ _ _ _ | .delete _ _ _
  | .dropTree _ _ | .createTree _ _ | .reserveMirror | .reservePublish | .get _ _ _
  | .scan _ _ _ _ _ | .openCursor _ _ _ _ | .advance _ | .stage _ | .finish _ | .drain
  | .publishPosition | .publishMirror | .publishStatuses | .release | .gcCollect _ | .gcMirror
  | .gcCompact | .gcSample | .gcChanges | .gcRefused | .acquireLease _ _ | .advanceLease _ _
  | .releaseLease _ | .crash _ => .isTrue trivial

theorem Inv.quiet_tree (h : Inv σ) (hf : ReservedFirst σ.history) (hw : σ.lane.wave = [])
    {x : ℕ} (ht : σ.transactions[x]? = some t) (hp : t.phase ≠ .done)
    (hv : Validated (stagedOf t) σ.db σ.statuses) {l : Loc} (hl : l ∈ (stagedOf t).writes)
    {d : Commit} (hd : d ∈ σ.history) (hdrop : d.treeLifecycles[l.tree]? = some treeDropped) :
    d.csn ≤ t.snapshot := by
  obtain ⟨rfl, -, -, -⟩ := h.identities.own x t ht
  have hids : t.id ∉ σ.lane.waveIds := by simp [Lane.waveIds, hw]
  have hmem : l.tree ∈ d.treeLifecycles := (OrdMap.mem_iff_get _ _).mpr ⟨_, hdrop⟩
  have hdr : d.reservation = false := by
    by_contra hne
    have := ((h.ownership.shape d hd).reservation (by simpa using hne)).2 _ _ hdrop
    revert this
    decide
  have hval := hv.writes l hl
  unfold validateWrite at hval
  split at hval
  · next hlife =>
    -- its own tree was not opened yet, so nobody could drop it
    have hc := (mem_stagedOf_lifecycles.mp hlife).resolve_right (mem_stagedOf_writes.mp hl).2
    exact absurd ⟨d, hd, hdr, hmem⟩ (h.ownership.unopened t.id t ht hp hids l.tree hc)
  · obtain ⟨hno, -⟩ := guard_eq_ok hval (by rintro ⟨⟩)
    have hsome : (treeFamily.field l.tree d).isSome := by simp [treeFamily, hdrop]
    cases hlast : lastCommit (treeFamily.field l.tree) σ.history with
    | none => simp [lastCommit_eq_none.mp hlast d hd] at hsome
    | some c₀ =>
      have hle := le_lastCommit h.sequence.sorted hlast hd hsome
      obtain ⟨r, hr, hh⟩ := h.tables.trees.head l.tree c₀ hlast
      obtain ⟨n, hn, hlo, -, -⟩ := hh.stamped
      rw [h.resolved_eq hw] at hn
      obtain ⟨m, hm, hb⟩ := foreignAfter_eq_ok hno
      rw [hr] at hm hb
      have hnm := hn.symm.trans hm
      cases hnm
      by_contra hlt
      -- the last lifecycle is the transaction's own, which can only be a reservation
      have hown : r.transaction = t.id := by
        by_contra hne
        have hsn : t.snapshot < n := by omega
        have hst : (stagedOf t).snapshot = t.snapshot := rfl
        have htx : (stagedOf t).transaction = t.id := rfl
        simp [decodeCurrent, hst, htx, hsn, hne] at hb
      rw [hh.transaction] at hown
      have hres : c₀.reservation = true := by
        by_contra hne
        exact h.identities.fresh t.id t ht hp hids
          ⟨c₀, lastCommit_mem hlast, hown, by simpa using hne⟩
      have hc₀ : l.tree ∈ c₀.treeLifecycles := by
        simpa [treeFamily] using lastCommit_writes hlast
      have := hf c₀ (lastCommit_mem hlast) d hd l.tree hres hdr hc₀ hmem
      omega

theorem pairwise_total {α : Type} {R : α → α → Prop} {l : List α} (h : l.Pairwise R) {a b : α}
    (ha : a ∈ l) (hb : b ∈ l) : a = b ∨ R a b ∨ R b a := by
  have hsymm : Std.Symm fun a b : α => a = b ∨ R a b ∨ R b a :=
    ⟨fun a b hab => hab.imp Eq.symm Or.symm⟩
  have hS : l.Pairwise fun a b => a = b ∨ R a b ∨ R b a := h.imp fun hab => .inr (.inl hab)
  exact hS.forall_of_forall (fun a _ => .inl rfl) ha hb

theorem Inv.dropLaw_wave (h : Inv σ) (hf : ReservedFirst σ.history) (hlaw : DropLaw σ.history)
    (hw : σ.lane.wave = []) (hok : WaveOk σ ms store) (hsurvivors : (ms.map (·.staged)).Sublist queue)
    (hguard : queue.Pairwise fun a b => validateAgainstPublished a σ.db σ.statuses = .ok () →
      validateAgainstPublished b σ.db σ.statuses = .ok () → ¬ a.dropsUnder b) :
    DropLaw (waveCommits σ.reads ms ++ σ.history) := by
  have horder := hok.ordered.and (List.pairwise_map.mp (hguard.sublist hsurvivors))
  rintro w hmem d hd l hwl hdl hne ⟨hsd, hdw⟩
  rcases List.mem_append.mp hmem with hmem | hmem
  · obtain ⟨m, hm, rfl⟩ := mem_waveCommits.mp hmem
    rcases List.mem_append.mp hd with hd | hd
    · -- both are members: the dropper is ahead, which the guard excludes
      obtain ⟨m', hm', rfl⟩ := mem_waveCommits.mp hd
      have hlt : m'.assigned < m.assigned := hdw
      rcases pairwise_total horder hm' hm with rfl | ⟨-, hno⟩ | ⟨⟨hgt, -⟩, -⟩
      · exact hne rfl
      · exact hno (hok.built m' hm').valid (hok.built m hm).valid ⟨l, hwl, hdl⟩
      · omega
    · -- the dropper was published before: validation of the writer has seen it
      obtain ⟨t, ht, hp, hst⟩ := hok.staged m hm
      have hv := validated_of_ok (hok.built m hm).valid
      have hwl' : l ∈ m.staged.writes := hwl
      rw [hst] at hv hwl'
      have := h.quiet_tree hf hw ht (by rw [hp]; nofun) hv hwl' hd hdl
      have hsnap : m.staged.snapshot = t.snapshot := by rw [hst]; rfl
      have hsd' : m.staged.snapshot < d.csn := hsd
      omega
  · rcases List.mem_append.mp hd with hd | hd
    · obtain ⟨m', hm', rfl⟩ := mem_waveCommits.mp hd
      have h1 : m'.assigned < w.csn := hdw
      have h2 := (hok.assigned m' hm').1
      have h3 := h.sequence.bounded w hmem
      omega
    · exact hlaw w hmem d hd l hwl hdl hne ⟨hsd, hdw⟩

theorem dropLaw_reserved (hlaw : DropLaw history) (csn owner tree : ℕ) :
    DropLaw (reservation csn owner tree :: history) := by
  intro w hw d hd l hwl hdl
  rcases List.mem_cons.mp hw with rfl | hw
  · simp [reservation] at hwl
  rcases List.mem_cons.mp hd with rfl | hd
  · have hres : some treeReserved ≠ some treeDropped := by decide
    simp only [reservation, OrdMap.get_insert] at hdl
    split at hdl
    · exact absurd hdl hres
    · simp at hdl
  · exact hlaw w hw d hd l hwl hdl

/-- In every run whose waves put no drop ahead of a write into the dropped tree, the law holds of
every state reached. -/
theorem dropLaw_of_dropsBehind (h : runtime.Reach DropsBehind σ) : DropLaw σ.history := by
  refine (storage_invariant (P := fun S => ReservedFirst S.history ∧ DropLaw S.history)
    ⟨by simp [ReservedFirst, State.storage, State.create], by simp [DropLaw, State.storage, State.create]⟩ ?_ h).2
  rintro σ a S hi ⟨hf, hlaw⟩ hguard hs
  refine ⟨hi.reservedFirst hf hs, ?_⟩
  cases hs with
  | installed hl hok _ _ ha hsurvivors =>
    obtain ⟨outcome, rfl⟩ := ha
    exact hi.dropLaw_wave hf hlaw (by rw [hl]; rfl) hok hsurvivors (hguard _ hl)
  | reserved _ _ _ => exact dropLaw_reserved hlaw _ _ _
  | _ => exact hlaw

/-- A drop is published before another transaction stages its write into the tree, which is then
refused. -/
def dropBeforeWrite : List Action := List.flatten
  [openTree,
    [.begin, .begin, .cloneLifecycle 2 1, .resolveLifecycle 2, .cloneLifecycle 3 1,
      .resolveLifecycle 3, .dropTree 2 1, .put 3 1 [2] [9], .stage 2],
    publishWave, [.stage 3, .drain, .publish .published, .release]]

theorem dropLaw_of_dropsBehind_dropBeforeWrite :
    ∃ σ, runtime.runWhere (fun σ a => decide (DropsBehind σ a)) State.create dropBeforeWrite =
        some σ ∧
      (σ.history.map fun c => (c.csn, c.transaction, c.snapshot)) =
        [(3, 2, 2), (2, 1, 0), (1, 1, 0)] ∧
      DropLaw σ.history := by
  have hview : (runtime.runWhere (fun σ a => decide (DropsBehind σ a)) State.create
      dropBeforeWrite).map (fun σ => σ.history.map fun c => (c.csn, c.transaction, c.snapshot)) =
      some [(3, 2, 2), (2, 1, 0), (1, 1, 0)] := by
    decide +kernel
  obtain ⟨σ, hrun, hh⟩ := Option.map_eq_some_iff.mp hview
  exact ⟨σ, hrun, hh, dropLaw_of_dropsBehind
    (Machine.reach_runWhere (fun _ _ hok => of_decide_eq_true hok) (.init rfl) hrun)⟩

/-- A drop and a write into the same tree, staged in this order and drained as one wave. -/
def dropThenWrite : List Action := List.flatten
  [openTree,
    [.begin, .begin, .cloneLifecycle 2 1, .resolveLifecycle 2, .cloneLifecycle 3 1,
      .resolveLifecycle 3, .dropTree 2 1, .put 3 1 [2] [9], .stage 2, .stage 3],
    publishWave]

/-- Both commit, the writer after the dropper and with the older snapshot. -/
theorem dropLaw_fails_dropThenWrite :
    ∃ σ, runtime.run State.create dropThenWrite = some σ ∧ runtime.Reachable σ ∧
      ¬ DropLaw σ.history := by
  have hview : (runtime.run State.create dropThenWrite).map (fun σ => decide (DropLaw σ.history)) =
      some false := by
    decide +kernel
  obtain ⟨σ, hrun, hlaw⟩ := Option.map_eq_some_iff.mp hview
  exact ⟨σ, hrun, Machine.reachable_run (.init rfl) hrun, of_decide_eq_false hlaw⟩

end OmenDb.Txn
