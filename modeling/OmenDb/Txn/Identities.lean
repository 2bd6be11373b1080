import OmenDb.Txn.ChangeStream

/-! Identities are handed out once. Whatever a durable record names was named by a commit or a
reservation before, histories only grow, and the allocators stay above everything in them. -/
namespace OmenDb.Txn

variable {σ τ τ' : State}

/-- A commit or a reservation was published for the transaction. -/
def Issued (history : List Commit) (x : ℕ) : Prop := ∃ c ∈ history, c.transaction = x

/-- A commit or a reservation recorded a lifecycle of the tree. -/
def Grown (history : List Commit) (tree : ℕ) : Prop := ∃ c ∈ history, tree ∈ c.treeLifecycles

/-- The transaction ids in durable records, and those of committed operations. -/
inductive NamesTransaction (σ : State) (x : ℕ) : Prop
  | current {l : Loc} {r : CurrentRecord} (hr : σ.db.data[l]? = some r) (hx : r.transaction = x)
  | version {id : ℕ} {r : VersionRecord} (hr : σ.versions.records[id]? = some r)
      (hx : r.transaction = x)
  | status (hx : x ∈ σ.db.statuses)
  | lifecycle {tree : ℕ} {r : CurrentRecord} (hr : σ.db.trees[tree]? = some r)
      (hx : r.transaction = x)
  | change {csn : ℕ} {ch : Change} (hr : σ.db.changes[csn]? = some ch) (hx : ch.transaction = x)
  | returned (hx : Issued σ.history x)

/-- The tree ids in durable records, and those that reservations returned. -/
inductive NamesTree (σ : State) (tree : ℕ) : Prop
  | current {l : Loc} {r : CurrentRecord} (hr : σ.db.data[l]? = some r) (ht : l.tree = tree)
  | lifecycle {r : CurrentRecord} (hr : σ.db.trees[tree]? = some r)
  | change {csn : ℕ} {ch : Change} (hr : σ.db.changes[csn]? = some ch)
      (ht : tree ∈ ch.changedTrees ∨ ∃ l ∈ ch.writes, l.tree = tree)
  | returned (ht : Grown σ.history tree)

variable {store : VersionStore} {history : List Commit} {x tree : ℕ}

theorem Family.Tracks.writer {K : Type} [LinearOrder K] {F : Family K}
    {table : OrdMap K CurrentRecord} {statuses : Statuses} {guarded : ℕ → Prop} {csn : ℕ}
    (h : F.Tracks table statuses store guarded history csn) {k : K} {r : CurrentRecord}
    (hr : table[k]? = some r) :
    ∃ c ∈ history, (F.field k c).isSome ∧ c.transaction = r.transaction := by
  cases hl : lastCommit (F.field k) history with
  | none => rw [h.absent k hl] at hr; cases hr
  | some c =>
    obtain ⟨record, hrec, hhead⟩ := h.head k c hl
    rw [hr] at hrec
    cases hrec
    exact ⟨c, lastCommit_mem hl, lastCommit_writes hl, hhead.transaction.symm⟩

/-- Versions and statuses name transactions of the history only. -/
structure Named (S : Storage) : Prop where
  versions : ∀ (id : ℕ) (r : VersionRecord), S.versions.records[id]? = some r →
    r.transaction = 0 ∨ Issued S.history r.transaction
  statuses : ∀ x, x ∈ S.db.statuses → Issued S.history x

theorem Issued.append (h : Issued history x) (new : List Commit) : Issued (new ++ history) x := by
  obtain ⟨c, hc, hx⟩ := h
  exact ⟨c, List.mem_append_right new hc, hx⟩

theorem Named.create : Named State.create.storage where
  versions id r hr := by simp [State.create, VersionStore.create] at hr
  statuses x hx := by simp [State.create] at hx

theorem Named.images (hi : Inv σ) (h : Named σ.storage)
    (him : Images σ.db σ.versions store) (new : List Commit) (id : ℕ) (r : VersionRecord)
    (hr : store.records[id]? = some r) :
    r.transaction = 0 ∨ Issued (new ++ σ.history) r.transaction := by
  rcases him id r hr with hr | ⟨l, rfl⟩ | ⟨tree, rfl⟩
  · exact (h.versions id r hr).imp_right fun hx => hx.append new
  · cases hl : σ.db.data[l]? with
    | none => exact .inl rfl
    | some current =>
      obtain ⟨c, hc, _, hx⟩ := hi.tables.data.writer hl
      exact .inr (Issued.append ⟨c, hc, hx⟩ new)
  · cases hl : σ.db.trees[tree]? with
    | none => exact .inl rfl
    | some current =>
      obtain ⟨c, hc, _, hx⟩ := hi.tables.trees.writer hl
      exact .inr (Issued.append ⟨c, hc, hx⟩ new)

theorem Named.stores {a : Action} {S : Storage} (hi : Inv σ) (h : Named σ.storage)
    (hs : Stores σ a S) : Named S := by
  cases hs with
  | same => exact h
  | appended _ _ _ him => exact ⟨fun id r hr => h.images hi him [] id r hr, h.statuses⟩
  | @reserved x t undo store _ _ ha =>
    refine ⟨h.images hi (appendBeforeImage_images ha) [reservation σ.db.csn x σ.nextTree],
      fun y hy => ?_⟩
    rcases Std.ExtTreeMap.mem_insert.mp hy with hy | hy
    · exact ⟨_, List.mem_cons_self, by simpa [reservation] using hy⟩
    · exact (h.statuses y hy).append [reservation σ.db.csn x σ.nextTree]
  | @installed queue ms store _ _ _ him =>
    refine ⟨h.images hi him (waveCommits σ.reads ms), fun y hy => ?_⟩
    dsimp only at hy
    rw [commitGroup_statuses, ← Std.ExtTreeMap.isSome_getElem?_iff_mem] at hy
    by_cases hm : ∃ m ∈ ms, m.staged.transaction = y
    · obtain ⟨m, hm, rfl⟩ := hm
      exact ⟨m.commit σ.reads, List.mem_append_left _ (mem_waveCommits.mpr ⟨m, hm, rfl⟩), rfl⟩
    · push Not at hm
      rw [OrdMap.get_insertAll_of_notMem _ (by simpa using hm)] at hy
      exact (h.statuses y (Std.ExtTreeMap.isSome_getElem?_iff_mem.mp hy)).append _
  | settled _ | pruned _ _ _ | leased _ _ _ | released _ => exact ⟨h.versions, h.statuses⟩
  | collected _ _ =>
    refine ⟨h.versions, fun y hy => h.statuses y ?_⟩
    dsimp only at hy
    rw [apply_statuses] at hy
    exact Std.ExtTreeMap.mem_of_mem_filter hy
  | @compacted plan _ =>
    refine ⟨fun id r hr => ?_, h.statuses⟩
    obtain ⟨q, hq, hr⟩ := VersionStore.of_retain hr
    exact hr ▸ h.versions id q hq
  | reopened _ _ =>
    refine ⟨fun id r hr => h.versions id r ?_, h.statuses⟩
    simp only [VersionStore.reopen, OrdMap.get_filter] at hr
    exact (Option.filter_eq_some_iff.mp hr).1

theorem named_of_reachable (h : runtime.Reachable σ) : Named σ.storage :=
  storage_invariant Named.create (fun hi hn _ hs => hn.stores hi hs) h

theorem issued_of_names (hr : runtime.Reachable σ) (h : NamesTransaction σ x) :
    x = 0 ∨ Issued σ.history x := by
  have hi := inv_of_reachable hr
  cases h with
  | current hr hx =>
    obtain ⟨c, hc, _, ht⟩ := hi.tables.data.writer hr
    exact .inr ⟨c, hc, ht.trans hx⟩
  | version hv hx => exact hx ▸ (named_of_reachable hr).versions _ _ hv
  | status hx => exact .inr ((named_of_reachable hr).statuses x hx)
  | lifecycle hr hx =>
    obtain ⟨c, hc, _, ht⟩ := hi.tables.trees.writer hr
    exact .inr ⟨c, hc, ht.trans hx⟩
  | change hch hx =>
    obtain ⟨c, hc, _, rfl⟩ := (stream_of_reachable hr).recorded _ _ hch
    exact .inr ⟨c, hc, hx⟩
  | returned hx => exact .inr hx

theorem grown_of_write (hi : Inv σ) {c : Commit} (hc : c ∈ σ.history) {l : Loc} (hl : l ∈ c.writes) :
    Grown σ.history l.tree := by
  obtain ⟨d, hd, _, htree⟩ := hi.ownership.opened c hc l hl
  exact ⟨d, hd, htree⟩

theorem grown_of_names (hr : runtime.Reachable σ) (h : NamesTree σ tree) : Grown σ.history tree := by
  have hi := inv_of_reachable hr
  cases h with
  | @current l r hr ht =>
    obtain ⟨c, hc, hw, _⟩ := hi.tables.data.writer hr
    exact ht ▸ grown_of_write hi hc (Std.ExtTreeMap.isSome_getElem?_iff_mem.mp hw)
  | lifecycle hr =>
    obtain ⟨c, hc, hw, _⟩ := hi.tables.trees.writer hr
    simp only [treeFamily, Option.isSome_map] at hw
    exact ⟨c, hc, Std.ExtTreeMap.isSome_getElem?_iff_mem.mp hw⟩
  | change hch ht =>
    obtain ⟨c, hc, _, rfl⟩ := (stream_of_reachable hr).recorded _ _ hch
    simp only [Commit.change, List.mem_toFinset, Std.ExtTreeMap.mem_keys] at ht
    rcases ht with ht | ⟨l, hl, rfl⟩
    · exact ⟨c, hc, ht⟩
    · exact grown_of_write hi hc hl
  | returned ht => exact ht

theorem createTree_spares {t : Transaction} {outcome : EngineOutcome}
    (hl : σ.lane = .idle) (hn : tree < σ.nextTree) :
    (createTree σ t outcome).db.trees[tree]? = σ.db.trees[tree]? ∧
      ∀ owner, (createTree σ t outcome).lane.reserving ≠ some (owner, tree) := by
  have hidle : ∀ owner, σ.lane.reserving ≠ some (owner, tree) := by rw [hl]; nofun
  unfold createTree reserveTree
  dsimp only
  cases appendBeforeImage σ.versions (decodeCurrent σ.db.trees[σ.nextTree]?) with
  | error e => exact ⟨rfl, hidle⟩
  | ok p =>
    cases outcome with
    | published =>
      refine ⟨OrdMap.get_insert_of_ne _ _ hn.ne', fun owner h => hn.ne' ?_⟩
      exact (Prod.mk.inj (Option.some.inj h)).2
    | syncFailed | refused => exact ⟨rfl, hidle⟩

/-- Whatever a durable record of a reachable state names, and whatever a committed operation has
returned, is not allocated in any continuation of the run. -/
theorem identities_not_reused {acts : List Action} (hr : runtime.Reachable σ)
    (hrun : runtime.run σ acts = some τ) :
    (∀ x, NamesTransaction σ x → ∀ τ', step τ .begin = some τ' →
      τ'.transactions[x]? = τ.transactions[x]?) ∧
    ∀ tree, NamesTree σ tree → ∀ id outcome τ', step τ (.createTree id outcome) = some τ' →
      τ'.db.trees[tree]? = τ.db.trees[tree]? ∧
        ∀ owner, τ'.lane.reserving ≠ some (owner, tree) := by
  have hi := inv_of_reachable (Machine.reachable_run hr hrun)
  obtain ⟨new, hnew⟩ := history_run hr hrun
  have hmem : ∀ c ∈ σ.history, c ∈ τ.history := fun c hc => hnew ▸ List.mem_append_right new hc
  refine ⟨fun x hx τ' hst => ?_, fun tree ht id outcome τ' hst => ?_⟩
  · have hlt : x < τ.nextTransaction := by
      rcases issued_of_names hr hx with rfl | ⟨c, hc, rfl⟩
      · exact hi.identities.positive
      · exact (hi.identities.past c (hmem c hc)).2
    cases step_moves hst with
    | begin => exact OrdMap.get_insert_of_ne _ _ hlt.ne'
  · obtain ⟨c, hc, ht⟩ := grown_of_names hr ht
    cases step_moves hst with
    | createTree _ hl => exact createTree_spares hl (hi.ownership.below c (hmem c hc) tree ht)

/-- Both collections erase the records that name the first transaction, then a crash. -/
def collectThenReopen : List Action :=
  [.gcCollect .published, .gcMirror, .gcCompact, .gcSample, .gcChanges, .crash 100]

theorem identities_not_reused_collectThenReopen :
    ∃ σ τ τ', runtime.run State.create openTree = some σ ∧
      runtime.run σ collectThenReopen = some τ ∧ step τ .begin = some τ' ∧
      1 ∈ σ.db.statuses ∧ 1 ∉ τ.db.statuses ∧ NamesTree σ 1 ∧
      τ'.transactions[1]? = τ.transactions[1]? := by
  have hview : (runtime.run State.create openTree).bind (fun σ =>
      (runtime.run σ collectThenReopen).bind fun τ => (step τ .begin).map fun _ =>
        decide (1 ∈ σ.db.statuses ∧ 1 ∉ τ.db.statuses ∧ (σ.db.trees[1]?).isSome = true)) =
      some true := by
    decide +kernel
  obtain ⟨σ, hσ, hview⟩ := Option.bind_eq_some_iff.mp hview
  obtain ⟨τ, hτ, hview⟩ := Option.bind_eq_some_iff.mp hview
  obtain ⟨τ', hst, hview⟩ := Option.map_eq_some_iff.mp hview
  obtain ⟨hin, hout, htree⟩ := of_decide_eq_true hview
  obtain ⟨r, htree⟩ := Option.isSome_iff_exists.mp htree
  exact ⟨σ, τ, τ', hσ, hτ, hst, hin, hout, .lifecycle htree,
    (identities_not_reused (Machine.reachable_run (.init rfl) hσ) hτ).1 1 (.status hin) τ' hst⟩

end OmenDb.Txn
