import OmenDb.Txn.History
import OmenDb.Txn.Reads

/-! The read paths compute the abstract reads. Throughout, `store` is what the database shows at
the transaction's snapshot, and the trees a transaction created hold nothing in it. -/
namespace OmenDb.Txn

/-- Every key of the database shows the store's value at the snapshot. -/
def Shows (σ : State) (snapshot : ℕ) (store : Store) : Prop :=
  ∀ l : Loc, visibleValue σ (decodeCurrent σ.db.data[l]?) snapshot = .ok store[l]?

/-- The trees a transaction created are still empty below it. -/
def Vacant (t : Transaction) (store : Store) : Prop :=
  ∀ tree ∈ t.created, ∀ key, store[(⟨tree, key⟩ : Loc)]? = none

section Scan
variable {σ : State} {snapshot : ℕ} {store : Store}

variable {l : Loc} {r : CurrentRecord} {tree : ℕ} {start k : Bytes} {stop : Option Bytes}

theorem Shows.record (h : Shows σ snapshot store)
    (hr : σ.db.data[l]? = some r) : visibleValue σ r snapshot = .ok store[l]? := by
  simpa [hr, decodeCurrent] using h l

theorem Shows.absent (h : Shows σ snapshot store) (hr : σ.db.data[l]? = none) : store[l]? = none := by
  have hv := h l
  rw [hr, decodeCurrent] at hv
  have hvis : σ.versions.visibleCurrent σ.statuses .absent snapshot = .ok (some ⟨0, 0, none⟩) :=
    VersionStore.visibleCurrent_eq (e := some ⟨0, 0, none⟩) VersionStore.known_none
      (VersionChain.visible_cons_of_le _ (stamp_of_system rfl) (Nat.zero_le _))
  simpa [visibleValue, hvis] using hv.symm

theorem rangeEntries_eq (db : Db) (tree : ℕ) (start : Bytes) (stop : Option Bytes) :
    rangeEntries db tree start stop = ((db.data.filter fun l _ => decide (l.tree = tree) &&
      inRange start stop l.key).toList).map fun p => (p.1.key, p.2) := by
  rw [rangeEntries, Std.ExtTreeMap.toList_filter]

theorem mem_rangeEntries {db : Db} {key : Bytes} : (key, r) ∈ rangeEntries db tree start stop ↔
      inRange start stop key = true ∧ db.data[(⟨tree, key⟩ : Loc)]? = some r := by
  rw [rangeEntries_eq, mem_entries]

theorem sorted_rangeEntries (db : Db) (tree : ℕ) (start : Bytes) (stop : Option Bytes) :
    (rangeEntries db tree start stop).Pairwise fun a b => a.1 < b.1 :=
  rangeEntries_eq db tree start stop ▸ sorted_entries db.data tree start stop

theorem collectVisible_spec (tree : ℕ) {l : List (Bytes × CurrentRecord)}
    (hv : ∀ p ∈ l, visibleValue σ p.2 snapshot = .ok store[(⟨tree, p.1⟩ : Loc)]?)
    (values : OrdMap Bytes Bytes)
    (hvals : ∀ (k : Bytes) (v : Bytes), values[k]? = some v → store[(⟨tree, k⟩ : Loc)]? = some v) :
    ∃ values', collectVisible σ snapshot l values = .ok values' ∧
      ∀ k v : Bytes, values'[k]? = some v ↔ store[(⟨tree, k⟩ : Loc)]? = some v ∧
        (values[k]? = some v ∨ k ∈ l.map Prod.fst) := by
  induction l generalizing values with
  | nil =>
    refine ⟨values, rfl, fun k v => ?_⟩
    simpa using hvals k v
  | cons p ps ih =>
    obtain ⟨key, current⟩ := p
    have hp : visibleValue σ current snapshot = .ok store[(⟨tree, key⟩ : Loc)]? :=
      hv (key, current) (by simp)
    have htail := fun q hq => hv q (List.mem_cons_of_mem _ hq)
    cases hs : store[(⟨tree, key⟩ : Loc)]? with
    | none =>
      obtain ⟨values', hc, hmem⟩ := ih htail values hvals
      refine ⟨values', by simp [collectVisible, hp, hs, hc], fun k v => ?_⟩
      rw [hmem k v, List.map_cons, List.mem_cons]
      constructor
      · exact fun ⟨h, h'⟩ => ⟨h, h'.imp id .inr⟩
      · rintro ⟨h, h' | rfl | h'⟩
        · exact ⟨h, .inl h'⟩
        · simp [hs] at h
        · exact ⟨h, .inr h'⟩
    | some value =>
      have hvals' : ∀ k v : Bytes, (values.insert key value)[k]? = some v →
          store[(⟨tree, k⟩ : Loc)]? = some v := by
        intro k v hk
        rw [OrdMap.get_insert] at hk
        split at hk
        · next heq => cases hk; rw [← heq]; exact hs
        · exact hvals k v hk
      obtain ⟨values', hc, hmem⟩ := ih htail (values.insert key value) hvals'
      refine ⟨values', by simp [collectVisible, hp, hs, hc], fun k v => ?_⟩
      rw [hmem k v, List.map_cons, List.mem_cons, OrdMap.get_insert]
      refine and_congr_right fun hk => ?_
      by_cases heq : key = k
      · subst heq
        rw [hs] at hk
        cases hk
        simp
      · simp [heq, Ne.symm heq]

theorem mergeWrite_get (tree : ℕ) (start : Bytes) (stop : Option Bytes) (values : OrdMap Bytes Bytes)
    (p : Loc × Option Bytes) (k : Bytes) :
    (mergeWrite tree start stop values p)[k]? =
      if p.1 = ⟨tree, k⟩ ∧ inRange start stop k = true then p.2 else values[k]? := by
  obtain ⟨⟨tr, key⟩, v⟩ := p
  by_cases hk : key = k
  · subst hk
    by_cases hin : tr = tree ∧ inRange start stop key = true
    · obtain ⟨rfl, hr⟩ := hin
      cases v <;> simp [mergeWrite, hr]
    · simp [mergeWrite, hin]
  · have hne : ¬ ((⟨tr, key⟩ : Loc) = ⟨tree, k⟩ ∧ inRange start stop k = true) := by
      simp [hk]
    rw [if_neg hne, mergeWrite]
    split
    · cases v <;> simp [hk]
    · rfl

theorem foldl_mergeWrite_get (tree : ℕ) (start : Bytes) (stop : Option Bytes) (writes : Writes)
    (values : OrdMap Bytes Bytes) (hr : inRange start stop k = true) :
    (writes.toList.foldl (mergeWrite tree start stop) values)[k]? =
      (writes[(⟨tree, k⟩ : Loc)]?).getD values[k]? := by
  -- inside the range a merge is the overlay's write of the same key
  have main : ∀ (ws : List (Loc × Option Bytes)) (values : OrdMap Bytes Bytes) (m : Store),
      values[k]? = m[(⟨tree, k⟩ : Loc)]? →
      (ws.foldl (mergeWrite tree start stop) values)[k]? =
        (ws.foldl putWrite m)[(⟨tree, k⟩ : Loc)]? := by
    intro ws
    induction ws with
    | nil => intro values m h; exact h
    | cons w ws ih =>
      intro values m h
      refine ih _ _ ?_
      rw [mergeWrite_get, putWrite_get, h]
      simp [hr]
  have hm : ∃ m : Store, values[k]? = m[(⟨tree, k⟩ : Loc)]? := by
    cases h : values[k]? with
    | none => exact ⟨∅, by simp⟩
    | some v => exact ⟨(∅ : Store).insert ⟨tree, k⟩ v, by simp⟩
  obtain ⟨m, hm⟩ := hm
  rw [main _ _ m hm, hm]
  exact overlay_get m writes _

theorem foldl_mergeWrite_outside (tree : ℕ) (start : Bytes) (stop : Option Bytes)
    (ws : List (Loc × Option Bytes)) (values : OrdMap Bytes Bytes) (hr : inRange start stop k = false) :
    (ws.foldl (mergeWrite tree start stop) values)[k]? = values[k]? := by
  induction ws generalizing values with
  | nil => rfl
  | cons w ws ih => rw [List.foldl_cons, ih, mergeWrite_get]; simp [hr]

theorem toList_eq_entries {values : OrdMap Bytes Bytes} {store : Store}
    (h : ∀ k : Bytes, values[k]? = if inRange start stop k then store[(⟨tree, k⟩ : Loc)]? else none)
    (limit : ℕ) : values.toList.take limit = entriesIn store tree start stop limit := by
  unfold entriesIn
  refine congrArg _ (OrdMap.eq_of_sorted values.sorted_toList (sorted_entries _ _ _ _) ?_)
  rintro ⟨k, v⟩
  rw [OrdMap.mem_toList, mem_entries, h k]
  cases inRange start stop k <;> simp

end Scan

variable {σ : State} {t : Transaction} {store : Store}

theorem readKey_eq (h : Shows σ t.snapshot store) (l : Loc) : readKey σ t l = .ok store[l]? := h l

theorem scanValues_spec (h : Shows σ t.snapshot store) (hv : Vacant t store) (tree : ℕ)
    (start : Bytes) (stop : Option Bytes) :
    ∃ values : OrdMap Bytes Bytes, scanValues σ t tree start stop = .ok values ∧
      ∀ k : Bytes, values[k]? =
        if inRange start stop k then store[(⟨tree, k⟩ : Loc)]? else none := by
  unfold scanValues
  by_cases hc : tree ∈ t.created ∨ stop = some start
  · refine ⟨∅, by simp [hc], fun k => ?_⟩
    rcases hc with hc | rfl
    · simp [hv tree hc k]
    · have hno : inRange start (some start) k = false := by
        by_contra hne
        obtain ⟨hle, hlt⟩ := inRange_iff.mp (Bool.not_eq_false _ ▸ hne)
        exact absurd (hlt start rfl) (not_lt.mpr hle)
      simp [hno]
  · have hshow : ∀ p ∈ rangeEntries σ.db tree start stop,
        visibleValue σ p.2 t.snapshot = .ok store[(⟨tree, p.1⟩ : Loc)]? :=
      fun p hp => h.record (mem_rangeEntries.mp hp).2
    obtain ⟨values, hcol, hmem⟩ := collectVisible_spec tree hshow ∅ (by simp)
    refine ⟨values, by rw [if_neg hc, hcol], fun k => ?_⟩
    ext v
    rw [hmem k v]
    by_cases hr : inRange start stop k = true
    · simp only [hr, if_true, OrdMap.get_empty, reduceCtorEq, false_or]
      refine and_iff_left_of_imp fun hs => ?_
      cases hd : σ.db.data[(⟨tree, k⟩ : Loc)]? with
      | none => simp [h.absent hd] at hs
      | some r => exact List.mem_map.mpr ⟨(k, r), mem_rangeEntries.mpr ⟨hr, hd⟩, rfl⟩
    · simp only [hr, Bool.false_eq_true, if_false, OrdMap.get_empty, reduceCtorEq, false_or,
        iff_false, not_and]
      intro _ hk
      obtain ⟨p, hp, rfl⟩ := List.mem_map.mp hk
      exact hr (mem_rangeEntries.mp hp).1

theorem scan_merged (h : Shows σ t.snapshot store) (hv : Vacant t store) (tree : ℕ) (start : Bytes)
    (stop : Option Bytes) (limit : ℕ) :
    (do
      let values ← scanValues σ t tree start stop
      return (t.writes.toList.foldl (mergeWrite tree start stop) values).toList.take limit) =
    (.ok (entriesIn (overlay store t.writes) tree start stop limit) :
      Result (List (Bytes × Bytes))) := by
  obtain ⟨values, hval, hget⟩ := scanValues_spec h hv tree start stop
  rw [hval]
  simp only [bind, Except.bind, pure, Except.pure, Except.ok.injEq]
  refine toList_eq_entries (fun k => ?_) limit
  cases hr : inRange start stop k with
  | true => rw [foldl_mergeWrite_get _ _ _ _ _ hr, hget k, overlay_get]; simp [hr]
  | false => rw [foldl_mergeWrite_outside _ _ _ _ _ hr, hget k]; simp [hr]

variable {a b start position k v : Bytes} {tree : ℕ} {stop : Option Bytes} {writes : Writes}

theorem successor_le_iff : successor a ≤ b ↔ a < b := by
  induction a generalizing b with
  | nil =>
    cases b with
    | nil => simp [successor]
    | cons y ys =>
      simp only [successor, List.nil_append, List.nil_lt_cons, iff_true]
      rw [← not_lt, List.cons_lt_cons_iff]
      simp
  | cons x xs ih =>
    cases b with
    | nil => simp [successor]
    | cons y ys =>
      have := ih (b := ys)
      rw [← not_lt] at this ⊢
      simp only [successor, List.cons_append, List.cons_lt_cons_iff] at this ⊢
      constructor
      · intro h
        push Not at h
        rcases lt_or_eq_of_le h.1 with hlt | rfl
        · exact .inl hlt
        · exact .inr ⟨rfl, this.mp (not_lt.mpr (h.2 rfl))⟩
      · rintro (hlt | ⟨rfl, hlt⟩)
        · rintro (h | ⟨rfl, _⟩)
          · exact absurd hlt (not_lt.mpr h.le)
          · exact lt_irrefl _ hlt
        · rintro (h | ⟨_, h⟩)
          · exact lt_irrefl _ h
          · exact this.mpr hlt h

theorem lt_successor (a : Bytes) : a < successor a := successor_le_iff.mp le_rfl

def First (store : Store) (tree : ℕ) (start : Bytes) (stop : Option Bytes) :
    Option (Bytes × Bytes) → Prop
  | none => ∀ k, inRange start stop k = true → store[(⟨tree, k⟩ : Loc)]? = none
  | some (k, v) => inRange start stop k = true ∧ store[(⟨tree, k⟩ : Loc)]? = some v ∧
      ∀ k', inRange start stop k' = true → k' < k → store[(⟨tree, k'⟩ : Loc)]? = none

theorem First.entriesIn_one {store : Store}
    {e : Option (Bytes × Bytes)} (h : First store tree start stop e) :
    entriesIn store tree start stop 1 = e.toList := by
  have hsort := sorted_entries store tree start stop
  have hmem : ∀ k v, (k, v) ∈ ((store.filter fun l _ => decide (l.tree = tree) &&
      inRange start stop l.key).toList).map (fun p => (p.1.key, p.2)) ↔
      inRange start stop k = true ∧ store[(⟨tree, k⟩ : Loc)]? = some v := fun _ _ => mem_entries
  unfold entriesIn
  generalize ((store.filter fun l _ => decide (l.tree = tree) && inRange start stop l.key).toList).map
    (fun p => (p.1.key, p.2)) = l at hsort hmem
  cases l with
  | nil =>
    cases e with
    | none => rfl
    | some p => exact absurd ((hmem p.1 p.2).mpr ⟨h.1, h.2.1⟩) (by simp)
  | cons q qs =>
    obtain ⟨hq, hs⟩ := (hmem q.1 q.2).mp (by simp)
    cases e with
    | none => simp [h q.1 hq] at hs
    | some p =>
      obtain ⟨k, v⟩ := p
      obtain ⟨hk, hkv, hleast⟩ := h
      rcases List.mem_cons.mp ((hmem k v).mpr ⟨hk, hkv⟩) with hp | hp
      · simp [← hp]
      · have hlt := (List.pairwise_cons.mp hsort).1 _ hp
        simp [hleast q.1 hq hlt] at hs

theorem entriesIn_skip {store : Store} {start' : Bytes} (hle : start ≤ start')
    (h : ∀ k, inRange start stop k = true → k < start' → store[(⟨tree, k⟩ : Loc)]? = none)
    (limit : ℕ) : entriesIn store tree start stop limit = entriesIn store tree start' stop limit := by
  unfold entriesIn
  refine congrArg _ (OrdMap.eq_of_sorted (sorted_entries _ _ _ _) (sorted_entries _ _ _ _) ?_)
  rintro ⟨k, v⟩
  rw [mem_entries, mem_entries]
  constructor
  · rintro ⟨hr, hv⟩
    refine ⟨inRange_iff.mpr ⟨?_, (inRange_iff.mp hr).2⟩, hv⟩
    by_contra hlt
    simp [h k hr (not_le.mp hlt)] at hv
  · rintro ⟨hr, hv⟩
    exact ⟨inRange_iff.mpr ⟨hle.trans (inRange_iff.mp hr).1, (inRange_iff.mp hr).2⟩, hv⟩

theorem firstVisible_spec {snapshot : ℕ} (tree : ℕ) {l : List (Bytes × CurrentRecord)}
    (hv : ∀ p ∈ l, visibleValue σ p.2 snapshot = .ok store[(⟨tree, p.1⟩ : Loc)]?)
    (hs : l.Pairwise fun a b => a.1 < b.1) :
    ∃ e, firstVisible σ snapshot l = .ok e ∧
      match e with
      | none => ∀ p ∈ l, store[(⟨tree, p.1⟩ : Loc)]? = none
      | some (k, v) => k ∈ l.map Prod.fst ∧ store[(⟨tree, k⟩ : Loc)]? = some v ∧
          ∀ p ∈ l, p.1 < k → store[(⟨tree, p.1⟩ : Loc)]? = none := by
  induction l with
  | nil => exact ⟨none, rfl, by simp⟩
  | cons p ps ih =>
    obtain ⟨key, current⟩ := p
    obtain ⟨hp, hps⟩ := List.pairwise_cons.mp hs
    have hcur : visibleValue σ current snapshot = .ok store[(⟨tree, key⟩ : Loc)]? :=
      hv (key, current) (by simp)
    cases hk : store[(⟨tree, key⟩ : Loc)]? with
    | some v =>
      refine ⟨some (key, v), by simp [firstVisible, hcur, hk, bind, Except.bind, pure, Except.pure],
        by simp, hk, fun q hq hlt => ?_⟩
      rcases List.mem_cons.mp hq with rfl | hq
      · exact absurd hlt (lt_irrefl _)
      · exact absurd hlt (not_lt.mpr (hp q hq).le)
    | none =>
      obtain ⟨e, he, hspec⟩ := ih (fun q hq => hv q (List.mem_cons_of_mem _ hq)) hps
      refine ⟨e, by simp [firstVisible, hcur, hk, he], ?_⟩
      cases e with
      | none =>
        intro q hq
        rcases List.mem_cons.mp hq with rfl | hq
        · exact hk
        · exact hspec q hq
      | some e =>
        obtain ⟨hmem, hval, hleast⟩ := hspec
        refine ⟨by simp [hmem], hval, fun q hq hlt => ?_⟩
        rcases List.mem_cons.mp hq with rfl | hq
        · exact hk
        · exact hleast q hq hlt

theorem storageEntry_spec (h : Shows σ t.snapshot store) (hv : Vacant t store) (tree : ℕ)
    (stop : Option Bytes) (position : Bytes) :
    ∃ e, storageEntry σ t tree stop position = .ok e ∧ First store tree position stop e := by
  unfold storageEntry
  by_cases hc : tree ∈ t.created
  · exact ⟨none, by simp [hc], fun k _ => hv tree hc k⟩
  · have hshow : ∀ p ∈ rangeEntries σ.db tree position stop,
        visibleValue σ p.2 t.snapshot = .ok store[(⟨tree, p.1⟩ : Loc)]? :=
      fun p hp => h.record (mem_rangeEntries.mp hp).2
    obtain ⟨e, he, hspec⟩ :=
      firstVisible_spec tree hshow (sorted_rangeEntries σ.db tree position stop)
    -- a key of the range without a record shows nothing
    have hall : ∀ k, inRange position stop k = true →
        store[(⟨tree, k⟩ : Loc)]? = none ∨ ∃ r, (k, r) ∈ rangeEntries σ.db tree position stop := by
      intro k hr
      cases hd : σ.db.data[(⟨tree, k⟩ : Loc)]? with
      | none => exact .inl (h.absent hd)
      | some r => exact .inr ⟨r, mem_rangeEntries.mpr ⟨hr, hd⟩⟩
    refine ⟨e, by rw [if_neg hc, he], ?_⟩
    cases e with
    | none =>
      intro k hr
      rcases hall k hr with hn | ⟨r, hmem⟩
      · exact hn
      · exact hspec (k, r) hmem
    | some e =>
      obtain ⟨hmem, hval, hleast⟩ := hspec
      obtain ⟨p, hp, hpe⟩ := List.mem_map.mp hmem
      refine ⟨by rw [← hpe]; exact (mem_rangeEntries.mp hp).1, hval, fun k hr hlt => ?_⟩
      rcases hall k hr with hn | ⟨r, hmem⟩
      · exact hn
      · exact hleast (k, r) hmem hlt

def FirstStaged (writes : Writes) (tree : ℕ) (start : Bytes) (stop : Option Bytes) :
    Option (Bytes × Option Bytes) → Prop
  | none => ∀ k, inRange start stop k = true → writes[(⟨tree, k⟩ : Loc)]? = none
  | some (k, v) => inRange start stop k = true ∧ writes[(⟨tree, k⟩ : Loc)]? = some v ∧
      ∀ k', inRange start stop k' = true → k' < k → writes[(⟨tree, k'⟩ : Loc)]? = none

theorem Loc.le_same : (⟨tree, a⟩ : Loc) ≤ ⟨tree, b⟩ ↔ a ≤ b := by
  rw [← not_lt, ← not_lt, Loc.lt_iff]
  simp

theorem find_first {l : Loc} {p : Loc × Option Bytes}
    (h : writes.toList.find? (fun p => decide (l ≤ p.1)) = some p) :
    writes[p.1]? = some p.2 ∧ l ≤ p.1 ∧
      ∀ (l' : Loc) (v : Option Bytes), writes[l']? = some v → l ≤ l' → p.1 ≤ l' := by
  obtain ⟨hp, as, bs, hl, has⟩ := List.find?_eq_some_iff_append.mp h
  have hsort := writes.sorted_toList
  rw [hl] at hsort
  obtain ⟨_, hright, _⟩ := List.pairwise_append.mp hsort
  refine ⟨(OrdMap.mem_toList _ _ _).mp (by rw [hl]; simp), by simpa using hp, fun l' v hv hle => ?_⟩
  have hmem : (l', v) ∈ as ++ p :: bs := hl ▸ (OrdMap.mem_toList _ _ _).mpr hv
  rcases List.mem_append.mp hmem with hmem | hmem
  · have := has _ hmem
    simp [hle] at this
  · rcases List.mem_cons.mp hmem with rfl | hmem
    · exact le_rfl
    · exact ((List.pairwise_cons.mp hright).1 _ hmem).le

theorem stagedEntry_spec (t : Transaction) (tree : ℕ) (stop : Option Bytes) (position : Bytes) :
    FirstStaged t.writes tree position stop (stagedEntry t tree stop position) := by
  unfold stagedEntry
  cases hf : t.writes.toList.find? fun p => decide ((⟨tree, position⟩ : Loc) ≤ p.1) with
  | none =>
    intro k hr
    cases hw : t.writes[(⟨tree, k⟩ : Loc)]? with
    | none => rfl
    | some v =>
      have := List.find?_eq_none.mp hf _ ((OrdMap.mem_toList _ _ _).mpr hw)
      simp [Loc.le_same, (inRange_iff.mp hr).1] at this
  | some p =>
    obtain ⟨hp, hle, hleast⟩ := find_first hf
    -- no staged write of the range lies below the one found
    have hbelow : ∀ k, inRange position stop k = true →
        ∀ v, t.writes[(⟨tree, k⟩ : Loc)]? = some v → p.1 ≤ ⟨tree, k⟩ := fun k hr v hw =>
      hleast _ v hw (Loc.le_same.mpr (inRange_iff.mp hr).1)
    obtain ⟨⟨tr, key⟩, v⟩ := p
    by_cases hin : tr = tree ∧ ∀ e, stop = some e → key < e
    · obtain ⟨rfl, hstop⟩ := hin
      have hfil : (decide (tr = tr) && stop.all fun e => decide (key < e)) = true := by
        cases stop <;> simp_all
      rw [Option.filter_some_pos (by simpa using hfil)]
      refine ⟨inRange_iff.mpr ⟨Loc.le_same.mp hle, hstop⟩, hp, fun k hr hlt => ?_⟩
      cases hw : t.writes[(⟨tr, k⟩ : Loc)]? with
      | none => rfl
      | some w => exact absurd (Loc.le_same.mp (hbelow k hr w hw)) (not_le.mpr hlt)
    · have hfil : ¬ (decide (tr = tree) && stop.all fun e => decide (key < e)) = true := by
        intro h
        apply hin
        cases stop <;> simp_all
      rw [Option.filter_some_neg (by simpa using hfil)]
      intro k hr
      cases hw : t.writes[(⟨tree, k⟩ : Loc)]? with
      | none => rfl
      | some w =>
        have hkey := hbelow k hr w hw
        have htree : tr = tree := by
          rw [← not_lt, Loc.lt_iff] at hle hkey
          simp only [not_or, not_lt] at hle hkey
          exact le_antisymm hkey.1 hle.1
        subst htree
        refine absurd ⟨rfl, fun e he => ?_⟩ hin
        exact (Loc.le_same.mp hkey).trans_lt ((inRange_iff.mp hr).2 e he)

def ahead (t : Transaction) (tree : ℕ) (position : Bytes) : ℕ :=
  (t.writes.toList.filter fun p => decide ((⟨tree, position⟩ : Loc) ≤ p.1)).length

theorem ahead_le (t : Transaction) (tree : ℕ) (position : Bytes) :
    ahead t tree position ≤ t.writes.size := by
  rw [← Std.ExtTreeMap.length_toList]
  exact List.length_filter_le _ _

theorem ahead_successor {t : Transaction} {key : Bytes} {v : Option Bytes}
    (hw : t.writes[(⟨tree, key⟩ : Loc)]? = some v) (hle : position ≤ key) :
    ahead t tree (successor key) < ahead t tree position := by
  unfold ahead
  have hsub : t.writes.toList.filter (fun p => decide ((⟨tree, successor key⟩ : Loc) ≤ p.1)) =
      (t.writes.toList.filter fun p => decide ((⟨tree, position⟩ : Loc) ≤ p.1)).filter
        fun p => decide ((⟨tree, successor key⟩ : Loc) ≤ p.1) := by
    rw [List.filter_filter]
    refine List.filter_congr fun p _ => ?_
    have hmono : (⟨tree, position⟩ : Loc) ≤ ⟨tree, successor key⟩ :=
      Loc.le_same.mpr (hle.trans (lt_successor key).le)
    by_cases hp : (⟨tree, successor key⟩ : Loc) ≤ p.1
    · simp [hp, hmono.trans hp]
    · simp [hp]
  rw [hsub, List.length_filter_lt_length_iff_exists]
  refine ⟨(⟨tree, key⟩, v), List.mem_filter.mpr ⟨(OrdMap.mem_toList _ _ _).mpr hw, ?_⟩, ?_⟩
  · simpa [Loc.le_same] using hle
  · simpa [Loc.le_same] using lt_successor key

theorem First.overlay_stored (h : First store tree start stop (some (k, v)))
    (hw : ∀ k', inRange start stop k' = true → k' ≤ k → writes[(⟨tree, k'⟩ : Loc)]? = none) :
    First (overlay store writes) tree start stop (some (k, v)) := by
  refine ⟨h.1, ?_, fun k' hr hlt => ?_⟩
  · rw [overlay_get, hw k h.1 le_rfl]
    exact h.2.1
  · rw [overlay_get, hw k' hr hlt.le]
    exact h.2.2 k' hr hlt

theorem First.overlay_staged (h : FirstStaged writes tree start stop (some (k, some v)))
    (hs : ∀ k', inRange start stop k' = true → k' < k → store[(⟨tree, k'⟩ : Loc)]? = none) :
    First (overlay store writes) tree start stop (some (k, v)) := by
  refine ⟨h.1, ?_, fun k' hr hlt => ?_⟩
  · rw [overlay_get, h.2.1]
    rfl
  · rw [overlay_get, h.2.2 k' hr hlt]
    exact hs k' hr hlt

/-- The cursor loop returns the first entry of the overlaid store at or after its position, never
moves back, and goes on right behind the entry. -/
theorem advanceFrom_spec (h : Shows σ t.snapshot store) (hv : Vacant t store) (tree : ℕ)
    (stop : Option Bytes) (n : ℕ) (position : Bytes) (hn : ahead t tree position < n) :
    ∃ e next, advanceFrom σ t tree stop n position = .ok (e, next) ∧
      e.toList = entriesIn (overlay store t.writes) tree position stop 1 ∧
      (∀ p, next = some p → position ≤ p) ∧ next = e.map fun p => successor p.1 := by
  induction n generalizing position with
  | zero => omega
  | succ n ih =>
    by_cases hstop : (stop.any fun e => decide (e ≤ position)) = true
    · refine ⟨none, none, by simp [advanceFrom, hstop], ?_, by simp, rfl⟩
      have hempty : First (overlay store t.writes) tree position stop none := by
        intro k hr
        cases stop with
        | none => simp at hstop
        | some e =>
          have he : e ≤ position := by simpa using hstop
          exact absurd ((inRange_iff.mp hr).2 e rfl) (not_lt.mpr (he.trans (inRange_iff.mp hr).1))
      exact hempty.entriesIn_one.symm
    · obtain ⟨storage, hs, hfirst⟩ := storageEntry_spec h hv tree stop position
      have hstaged := stagedEntry_spec t tree stop position
      -- an entry found in storage or in the staged writes ends the loop
      have found : ∀ k v, First (overlay store t.writes) tree position stop (some (k, v)) →
          (some (k, v) : Option (Bytes × Bytes)).toList =
            entriesIn (overlay store t.writes) tree position stop 1 ∧
          (∀ p, some (successor k) = some p → position ≤ p) ∧
          some (successor k) = (some (k, v)).map fun p => successor p.1 := by
        intro k v hf
        refine ⟨hf.entriesIn_one.symm, fun p hp => ?_, rfl⟩
        cases hp
        exact (inRange_iff.mp hf.1).1.trans (lt_successor k).le
      cases hst : stagedEntry t tree stop position with
      | none =>
        rw [hst] at hstaged
        cases storage with
        | none =>
          refine ⟨none, none, by simp [advanceFrom, hstop, hs, hst, pure,
            Except.pure], ?_, by simp, rfl⟩
          have hnone : First (overlay store t.writes) tree position stop none := fun k hr => by
            rw [overlay_get, hstaged k hr]
            exact hfirst k hr
          exact hnone.entriesIn_one.symm
        | some e =>
          obtain ⟨k, v⟩ := e
          exact ⟨some (k, v), some (successor k), by simp [advanceFrom, hstop, hs, hst, bind,
            Except.bind, pure, Except.pure], found k v (hfirst.overlay_stored fun k' hr _ =>
              hstaged k' hr)⟩
      | some q =>
        obtain ⟨sk, sv⟩ := q
        rw [hst] at hstaged
        obtain ⟨hsr, hsw, hsleast⟩ := hstaged
        cases hfil : storage.filter fun p => decide (p.1 < sk) with
        | some e =>
          obtain ⟨k, v⟩ := e
          obtain ⟨rfl, hlt⟩ := Option.filter_eq_some_iff.mp hfil
          have hlt : k < sk := by simpa using hlt
          refine ⟨some (k, v), some (successor k), by simp [advanceFrom, hstop, hs, hst, bind,
            Except.bind, pure, Except.pure, hfil], found k v (hfirst.overlay_stored fun k' hr hle =>
              hsleast k' hr (hle.trans_lt hlt))⟩
        | none =>
          have hbelow : ∀ k', inRange position stop k' = true → k' < sk →
              store[(⟨tree, k'⟩ : Loc)]? = none := by
            intro k' hr hlt
            cases storage with
            | none => exact hfirst k' hr
            | some e =>
              have hge : ¬ e.1 < sk := by simpa using hfil
              exact hfirst.2.2 k' hr (hlt.trans_le (not_lt.mp hge))
          cases sv with
          | some v =>
            exact ⟨some (sk, v), some (successor sk), by simp [advanceFrom, hstop, hs, hst, bind,
              Except.bind, pure, Except.pure, hfil],
              found sk v (First.overlay_staged ⟨hsr, hsw, hsleast⟩ hbelow)⟩
          | none =>
            -- a staged delete hides its key, so the range goes on behind it
            have hpos := (inRange_iff.mp hsr).1
            obtain ⟨e, next, hadv, he, hnext, hbehind⟩ := ih (successor sk)
              ((ahead_successor hsw hpos).trans_le (by omega))
            refine ⟨e, next, by simp [advanceFrom, hstop, hs, hst, hfil, hadv],
              ?_, fun p hp => (hpos.trans (lt_successor sk).le).trans (hnext p hp), hbehind⟩
            rw [he]
            refine (entriesIn_skip (hpos.trans (lt_successor sk).le) (fun k hr hlt => ?_) 1).symm
            have hle : k ≤ sk := not_lt.mp fun hgt => absurd hlt (not_lt.mpr (successor_le_iff.mpr hgt))
            rw [overlay_get]
            rcases lt_or_eq_of_le hle with hlt | rfl
            · rw [hsleast k hr hlt]
              exact hbelow k hr hlt
            · rw [hsw]
              rfl

theorem advance_spec (h : Shows σ t.snapshot store) (hv : Vacant t store) {c : Cursor}
    (hc : c.position = some position) : ∃ e next, advance σ t c = .ok (e, next) ∧
      e.toList = entriesIn (overlay store t.writes) c.tree position c.stop 1 ∧
      (∀ p, next = some p → position ≤ p) ∧ next = e.map fun p => successor p.1 := by
  unfold advance
  rw [hc]
  exact advanceFrom_spec h hv c.tree c.stop _ position (Nat.lt_succ_of_le (ahead_le t _ _))

end OmenDb.Txn
