import OmenDb.Txn.Queueing

/-! What validation against the published state establishes: no commit after the snapshot wrote a
key the transaction depends on. Together with the checks made at staging, nothing a member
depends on changes between its snapshot and its own sequence number. -/
namespace OmenDb.Txn

variable {σ : State} {t : Transaction}

/-- No commit after `snapshot` wrote the key. -/
def Quiet (history : List Commit) (snapshot : ℕ) (l : Loc) : Prop :=
  ∀ c ∈ history, l ∈ c.writes → c.csn ≤ snapshot

variable {statuses : Statuses} {s x : ℕ} {l : Loc}

theorem foreignAfter_eq_ok {r : CurrentRecord} {b : Bool} (h : foreignAfter statuses r s x = .ok b) :
    ∃ n, stamp statuses r.entry = some n ∧ b = decide (s < n ∧ r.transaction ≠ x) := by
  obtain ⟨n, hn, h⟩ := bind_eq_ok.mp h
  cases h
  exact ⟨n, stamp_of_resolve hn, rfl⟩

theorem Inv.quiet_of_record (h : Inv σ) (hw : σ.lane.wave = []) (hx : ¬ Committed σ.history x)
    (hf : foreignAfter σ.statuses (decodeCurrent σ.db.data[l]?) s x = .ok false) :
    Quiet σ.history s l := by
  intro c hc hl
  obtain ⟨v, hv⟩ := (OrdMap.mem_iff_get _ _).mp hl
  have hsome : (dataFamily.field l c).isSome := by simp [dataFamily, hv]
  cases hlast : lastCommit (dataFamily.field l) σ.history with
  | none => simp [lastCommit_eq_none.mp hlast c hc] at hsome
  | some c₀ =>
    have hle := le_lastCommit h.sequence.sorted hlast hc hsome
    obtain ⟨r, hr, hh⟩ := h.tables.data.head l c₀ hlast
    obtain ⟨n, hn, -, -, hexact⟩ := hh.stamped
    rw [h.resolved_eq hw] at hn
    have hn0 : n = c₀.csn := hexact id
    obtain ⟨m, hm, hb⟩ := foreignAfter_eq_ok hf
    rw [hr] at hm hb
    have hm' := hn.symm.trans hm
    cases hm'
    -- the last writer has committed, so it is not the transaction being validated
    have hc₀ := lastCommit_mem hlast
    have hres : c₀.reservation = false := by
      by_contra hne
      have hempty := ((h.ownership.shape c₀ hc₀).reservation (by simpa using hne)).1
      have hwr := lastCommit_writes hlast
      simp [dataFamily, hempty] at hwr
    have hne : r.transaction ≠ x := by
      rw [hh.transaction]
      rintro rfl
      exact hx ⟨c₀, hc₀, rfl, hres⟩
    have : ¬ s < n := by
      intro hlt
      simp [decodeCurrent, hlt, hne] at hb
    omega

theorem anyForeignAfter_false {l : List CurrentRecord}
    (h : anyForeignAfter statuses s x l = .ok false) :
    ∀ r ∈ l, foreignAfter statuses r s x = .ok false := by
  induction l with
  | nil => simp
  | cons r rs ih =>
    obtain ⟨b, hb, h⟩ := bind_eq_ok.mp h
    cases b with
    | true => cases h
    | false =>
      intro r' hr'
      rcases List.mem_cons.mp hr' with rfl | hr'
      · exact hb
      · exact ih h r' hr'

structure Validated (staged : StagedCommit) (db : Db) (statuses : Statuses) : Prop where
  lifecycles : ∀ p ∈ staged.treeLifecycles.toList, validateLifecycle staged db statuses p = .ok ()
  writes : ∀ l, l ∈ staged.writes → validateWrite staged db statuses l = .ok ()
  points : ∀ l ∈ staged.pointReads, validatePointRead staged db statuses l = .ok ()
  ranges : validateRanges staged db = .ok ()

theorem validated_of_ok {staged : StagedCommit} {db : Db}
    (h : validateAgainstPublished staged db statuses = .ok ()) : Validated staged db statuses := by
  unfold validateAgainstPublished at h
  split at h
  · cases h
  · obtain ⟨_, h1, h⟩ := bind_eq_ok.mp h
    obtain ⟨_, h2, h⟩ := bind_eq_ok.mp h
    obtain ⟨_, h3, h4⟩ := bind_eq_ok.mp h
    exact ⟨checkAll_eq_ok.mp h1, fun l hl => checkAll_eq_ok.mp h2 l (Std.ExtTreeMap.mem_keys.mpr hl),
      fun l hl => checkAll_eq_ok.mp h3 l ((Finset.mem_sort _).mpr hl), h4⟩

/-- A check that turns a foreign write into an error passed, so there was none. -/
theorem guard_eq_ok {r : Result Bool} {f : Bool → Result Unit} (h : (r >>= f) = .ok ())
    (ht : f true ≠ .ok ()) : r = .ok false ∧ f false = .ok () := by
  obtain ⟨b, hb, h⟩ := bind_eq_ok.mp h
  cases b with
  | true => exact absurd h ht
  | false => exact ⟨hb, h⟩

theorem mem_stagedOf_writes : l ∈ (stagedOf t).writes ↔ l ∈ t.writes ∧ l.tree ∉ t.dropped := by
  rw [OrdMap.mem_iff_get, OrdMap.mem_iff_get]
  simp only [stagedOf, OrdMap.get_filter, Option.filter_eq_some_iff, decide_eq_true_eq]
  exact exists_and_right

theorem mem_stagedOf_writeKeys : l ∈ (stagedOf t).writeKeys ↔ l ∈ (stagedOf t).writes := by
  rw [mem_stagedOf_writes]
  simp [stagedOf]

theorem stagedOf_lifecycle (tree : ℕ) : (stagedOf t).treeLifecycles[tree]? =
    if tree ∈ t.dropped then some treeDropped
    else if tree ∈ t.created then some treeLive else none := by
  have main : ∀ (l : List ℕ) (m : OrdMap ℕ Bytes),
      (l.foldl (fun m k => m.insert k (if k ∈ t.dropped then treeDropped else treeLive)) m)[tree]? =
        if tree ∈ l then some (if tree ∈ t.dropped then treeDropped else treeLive)
        else m[tree]? := by
    intro l
    induction l with
    | nil => simp
    | cons k ks ih =>
      intro m
      rw [List.foldl_cons, ih]
      by_cases hk : tree ∈ ks
      · simp [hk]
      · by_cases hkt : k = tree
        · simp [hkt]
        · simp [hk, hkt, Ne.symm hkt]
  rw [stagedOf, main]
  by_cases hd : tree ∈ t.dropped
  · simp [hd]
  · by_cases hc : tree ∈ t.created <;> simp [hd, hc]

theorem mem_stagedOf_lifecycles {tree : ℕ} :
    tree ∈ (stagedOf t).treeLifecycles ↔ tree ∈ t.created ∨ tree ∈ t.dropped := by
  rw [OrdMap.mem_iff_get]
  rw [stagedOf_lifecycle]
  by_cases hd : tree ∈ t.dropped
  · simp [hd]
  · by_cases hc : tree ∈ t.created <;> simp [hd, hc]

theorem Inv.quiet_dropped (h : Inv σ) (hw : σ.lane.wave = [])
    (hx : ¬ Committed σ.history t.id) (hv : Validated (stagedOf t) σ.db σ.statuses)
    (hd : l.tree ∈ t.dropped) : Quiet σ.history t.snapshot l := by
  have hlife : (l.tree, treeDropped) ∈ (stagedOf t).treeLifecycles.toList :=
    (OrdMap.mem_toList _ _ _).mpr (by rw [stagedOf_lifecycle, if_pos hd])
  have hval := hv.lifecycles _ hlife
  unfold validateLifecycle at hval
  dsimp only at hval
  split at hval
  · cases hval
  · obtain ⟨-, hval⟩ := guard_eq_ok hval nofun
    simp only [Bool.false_eq_true, if_false, if_true] at hval
    obtain ⟨hno, -⟩ := guard_eq_ok hval nofun
    cases hr : σ.db.data[l]? with
    | none =>
      -- nobody ever wrote the key
      intro c hc hl
      cases hlast : lastCommit (dataFamily.field l) σ.history with
      | none =>
        have := lastCommit_eq_none.mp hlast c hc
        simp only [dataFamily] at this
        obtain ⟨v, hv⟩ := (OrdMap.mem_iff_get _ _).mp hl
        rw [this] at hv
        cases hv
      | some c₀ =>
        obtain ⟨r, hr', _⟩ := h.tables.data.head l c₀ hlast
        rw [hr] at hr'
        cases hr'
    | some r =>
      refine h.quiet_of_record hw hx ?_
      rw [hr]
      refine anyForeignAfter_false hno r (List.mem_map.mpr ⟨(l, r), List.mem_filter.mpr ⟨?_, ?_⟩, rfl⟩)
      · exact (OrdMap.mem_toList _ _ _).mpr hr
      · simp

theorem Inv.quiet_depends (h : Inv σ) (hw : σ.lane.wave = [])
    (ht : σ.transactions[x]? = some t) (hp : t.phase ≠ .done)
    (hv : Validated (stagedOf t) σ.db σ.statuses) (hl : t.depends l) :
    Quiet σ.history t.snapshot l := by
  obtain ⟨rfl, -, -, -⟩ := h.identities.own x t ht
  have hids : t.id ∉ σ.lane.waveIds := by simp [Lane.waveIds, hw]
  have hx := h.identities.fresh t.id t ht hp hids
  rcases hl with hl | hl | ⟨r, hr, hcov⟩
  · -- a point read is validated on its own record
    exact h.quiet_of_record hw hx (guard_eq_ok (hv.points l hl) (by rintro ⟨⟩)).1
  · by_cases hd : l.tree ∈ t.dropped
    · exact h.quiet_dropped hw hx hv hd
    · have hval := hv.writes l (mem_stagedOf_writes.mpr ⟨hl, hd⟩)
      unfold validateWrite at hval
      split at hval
      · next hlife =>
        -- a tree of its own has no writer yet
        have hc : l.tree ∈ t.created := (mem_stagedOf_lifecycles.mp hlife).resolve_right hd
        intro c hc' hl'
        exact absurd (h.ownership.opened c hc' l hl')
          (h.ownership.unopened t.id t ht hp hids l.tree hc)
      · obtain ⟨-, hval⟩ := guard_eq_ok hval (by rintro ⟨⟩)
        exact h.quiet_of_record hw hx (guard_eq_ok hval (by rintro ⟨⟩)).1
  · -- a range is validated against the change records after the snapshot
    intro c hc hl
    by_contra hlt
    obtain ⟨ch, hch, hmem⟩ := h.recorded c hc (.inr ⟨t.id, t, ht, by omega⟩)
    have hval := hv.ranges
    unfold validateRanges at hval
    split at hval
    · cases hval
    · next hno =>
      exact hno ⟨r, hr, (c.csn, ch), (OrdMap.mem_toList _ _ _).mpr hch,
        ⟨not_le.mp hlt, h.sequence.bounded c hc⟩, l, hmem l hl, hcov⟩

theorem Admits.apart {a : Transaction} (h : Admits t (stagedOf a).index)
    (hl : t.depends l) : l ∉ (stagedOf a).writes := by
  intro hw
  have hk : l ∈ (stagedOf a).index.keys := mem_stagedOf_writeKeys.mpr hw
  rcases hl with hl | hl | ⟨r, hr, hcov⟩
  · exact h.points l hl hk
  · exact h.writes l hl hk
  · rw [h.ranges r hr l hk] at hcov
    cases hcov

end OmenDb.Txn
