import OmenDb.Txn.DropLaw

/-! What a transaction reads at its snapshot, as a function of the commit history alone. -/
namespace OmenDb.Txn

variable {σ : State} {x : ℕ} {t : Transaction}

theorem lifecycleAt_values {history : List Commit} (hs : ∀ c ∈ history, c.Shape) {s tree : ℕ}
    {v : Bytes} (h : lifecycleAt s tree history = some v) :
    v = treeLive ∨ v = treeDropped ∨ v = treeReserved := by
  rw [lifecycleAt_eq, valueAt, Option.join_eq_some_iff] at h
  obtain ⟨c, hc, hv⟩ := lastAt_source h
  obtain ⟨w, hw, hwv⟩ := Option.map_eq_some_iff.mp hv
  cases hwv
  cases hr : c.reservation with
  | true => exact .inr (.inr (((hs c hc).reservation hr).2 tree v hw))
  | false => exact ((hs c hc).commit hr tree v hw).imp_right Or.inl

theorem lifecycle_answer {history : List Commit} (hs : ∀ c ∈ history, c.Shape) {s tree : ℕ}
    {v : Option Bytes} (h : treeFamily.Agrees v (valueAt (treeFamily.field tree) s history)) :
    (v = some treeLive ↔ liveAt s tree history = true) ∧
      ∀ w, v = some w → w = treeLive ∨ w = treeDropped ∨ w = treeReserved := by
  have hval : valueAt (treeFamily.field tree) s history = lifecycleAt s tree history :=
    (lifecycleAt_eq s tree history).symm
  rw [hval] at h
  have hsettled : ∀ u : Option Bytes, treeFamily.Unsettled u → u ≠ some treeLive := by
    rintro u (rfl | hu) hlive
    · cases hlive
    · have : some treeReserved = some treeLive := hu.symm.trans hlive
      revert this
      decide
  rcases h with rfl | ⟨hv, hv'⟩
  · refine ⟨by simp [liveAt], fun w hw => lifecycleAt_values hs hw⟩
  · refine ⟨⟨fun hl => absurd hl (hsettled _ hv), fun hl => ?_⟩, fun w hw => ?_⟩
    · exact absurd (of_decide_eq_true hl) (hsettled _ hv')
    · rcases hv with rfl | hv
      · cases hw
      · have : some treeReserved = some w := hv.symm.trans hw
        cases this
        exact .inr (.inr rfl)

theorem Inv.treeVisible_eq (h : Inv σ) (hw : σ.lane.wave = []) {s : ℕ}
    (hs : Guarded σ.published σ.transactions s) (tree : ℕ) :
    treeVisible σ tree s = .ok (liveAt s tree σ.history) := by
  have hcell := h.tables.trees.cell tree
  rw [h.resolved_eq hw] at hcell
  obtain ⟨v, hv, ha⟩ := hcell.visibleValue_eq hs
  obtain ⟨hlive, hvalues⟩ := lifecycle_answer h.ownership.shape ha
  have hne : ∀ w, v = some w → w ≠ treeLive → liveAt s tree σ.history = false := by
    intro w hw hwl
    rw [← Bool.not_eq_true, ← hlive, hw]
    simpa using hwl
  unfold treeVisible
  rw [hv]
  cases hc : v with
  | none =>
    have : liveAt s tree σ.history = false := by
      rw [← Bool.not_eq_true, ← hlive, hc]
      nofun
    rw [this]
    rfl
  | some w =>
    rcases hvalues w hc with rfl | rfl | rfl
    · rw [hlive.mp hc]
      rfl
    · rw [hne _ hc (by decide)]
      rfl
    · rw [hne _ hc (by decide)]
      rfl

/-- The trees a transaction may read: its own, and those live at its snapshot, unless it has
dropped them. -/
def Transaction.readable (t : Transaction) (history : List Commit) (tree : ℕ) : Bool :=
  decide (tree ∉ t.dropped) && (decide (tree ∈ t.created) || liveAt t.snapshot tree history)

theorem Inv.checkTreeVisibleForRead_eq (h : Inv σ) (hd : σ.lane.dbFree = true)
    (ht : σ.transactions[x]? = some t) (tree : ℕ) :
    checkTreeVisibleForRead σ t tree =
      if t.readable σ.history tree then .ok () else .error (.treeNotFound tree) := by
  unfold checkTreeVisibleForRead Transaction.readable
  by_cases hdrop : tree ∈ t.dropped
  · simp [hdrop]
  · by_cases hcr : tree ∈ t.created
    · simp [hdrop, hcr]
    · rw [h.treeVisible_eq (wave_of_dbFree hd) (guarded_of_live ht)]
      cases liveAt t.snapshot tree σ.history <;> simp [hdrop, hcr] <;> rfl

/-- The store a transaction reads: the newest values at its snapshot under its own writes. -/
def Transaction.view (t : Transaction) (history : List Commit) : Store :=
  overlay (storeAt t.snapshot history) t.writes

/-- What a transaction reads is exactly the newest values committed at or below its snapshot,
overlaid with its own staged writes. -/
def ReadsExactly (σ : State) (t : Transaction) : Prop :=
  (∀ tree key, (get σ t tree key).2 =
    if t.readable σ.history tree then .ok (t.view σ.history)[(⟨tree, key⟩ : Loc)]?
    else .error (.treeNotFound tree)) ∧
  ∀ tree start stop limit, (scan σ t tree start stop limit).2 =
    if ¬ t.readable σ.history tree then .error (.treeNotFound tree)
    else if limit = 0 then .ok []
    else if stop.any fun e => decide (e < start) then
      .error (.invalidArgument "scan end must not precede scan start")
    else .ok (entriesIn (t.view σ.history) tree start stop limit)

theorem reads_exact (h : runtime.Reachable σ) (hr : ready σ x = some t) (hd : σ.lane.dbFree = true) :
    ReadsExactly σ t := by
  have hi := inv_of_reachable h
  obtain ⟨ht, -, hp⟩ := ready_eq hr
  refine ⟨fun tree key => ?_, fun tree start stop limit => ?_⟩
  · rw [Txn.get, hi.checkTreeVisibleForRead_eq hd ht]
    cases t.readable σ.history tree with
    | false => rfl
    | true =>
      simp only [if_true]
      rw [Transaction.view, overlay_get]
      cases t.writes[(⟨tree, key⟩ : Loc)]? with
      | some v => rfl
      | none => exact readKey_eq (hi.shows_live hd ht) _
  · rw [scan, hi.checkTreeVisibleForRead_eq hd ht]
    cases t.readable σ.history tree with
    | false => rfl
    | true =>
      simp only [if_true, not_true_eq_false, if_false]
      split
      · rfl
      · dsimp only
        split
        · rfl
        · exact scan_merged (hi.shows_live hd ht) (hi.vacant ht hp) tree start stop limit

/-- A reader opens its snapshot, its key is overwritten and collection runs. -/
def readerAcrossGc : List Action := List.flatten
  [openTree,
    [.begin, .begin, .cloneLifecycle 3 1, .resolveLifecycle 3, .put 3 1 [1] [9], .stage 3],
    publishWave, [.finish 3, .gcCollect .published, .gcMirror, .gcCompact]]

end OmenDb.Txn
