import OmenDb.Mvcc.Chain

/-! What garbage collection keeps of a chain. `retain_current_chain` marks the versions that a
snapshot at the watermark can still reach; compaction then leaves a prefix of the chain that
contains them. -/
namespace OmenDb.VersionStore

variable (store : VersionStore)

/-- The watermark-free loop of `retain_current_chain`: it only checks that the chain is stored. -/
def skipFrom : ℕ → Option ℕ → Result Unit
  | _, none => .ok ()
  | 0, some _ => .ok ()
  | n + 1, some id => do
    let record ← store.get id
    skipFrom n record.previous

/-- The marking loop of `retain_current_chain`. -/
def retainFrom (statuses : Statuses) (watermark : ℕ) : ℕ → Option ℕ → Finset ℕ → Result (Finset ℕ)
  | _, none, retained => .ok retained
  | 0, some _, retained => .ok retained
  | n + 1, some id, retained => do
    let record ← store.get id
    let commit ← resolveCommit statuses record.transaction record.commit
    if commit ≤ watermark then return insert id retained
    retainFrom statuses watermark n record.previous (insert id retained)

def retainCurrentChain (statuses : Statuses) (current : CurrentRecord) (watermark : Option ℕ)
    (retained : Finset ℕ) : Result (Finset ℕ) :=
  match watermark with
  | none => do
    store.skipFrom (fuel current.undoHead) current.undoHead
    return retained
  | some w => do
    let commit ← resolveCommit statuses current.transaction current.commit
    if commit ≤ w then return retained
    store.retainFrom statuses w (fuel current.undoHead) current.undoHead retained

variable {store} {statuses : Statuses}

variable {id durable : ℕ} {v : VersionRecord}

theorem fuel_previous (hv : store.records[id]? = some v) {n : ℕ}
    (hn : fuel (some id) ≤ n + 1) : fuel v.previous ≤ n := by
  simp only [fuel] at hn
  cases h : v.previous with
  | none => simp [fuel]
  | some p =>
    have := store.previous_lt hv h
    simp [fuel]
    omega

def versionStamp (statuses : Statuses) (p : ℕ × VersionRecord) : Option ℕ := stamp statuses p.2.entry

/-- What marking the chain below `head` adds to the retained set: exactly the cut chain, all of
it resolvable. -/
structure Marks (store : VersionStore) (statuses : Statuses) (w : ℕ) (head : Option ℕ)
    (retained r : Finset ℕ) : Prop where
  mono : retained ⊆ r
  cut : ∀ p ∈ VersionChain.cut (versionStamp statuses) w (store.versionsFrom head),
    p.1 ∈ r ∧ (versionStamp statuses p).isSome
  only : ∀ id ∈ r, id ∈ retained ∨
    ∃ p ∈ VersionChain.cut (versionStamp statuses) w (store.versionsFrom head), p.1 = id

theorem retainFrom_marks {w : ℕ} (head : Option ℕ) (hk : store.Known head) :
    ∀ (n : ℕ) (retained r : Finset ℕ), fuel head ≤ n →
      store.retainFrom statuses w n head retained = .ok r →
      Marks store statuses w head retained r := by
  refine walk_induction (P := fun head => ∀ (n : ℕ) (retained r : Finset ℕ), fuel head ≤ n →
      store.retainFrom statuses w n head retained = .ok r →
      Marks store statuses w head retained r) ?nil ?cons head hk
  case nil =>
    intro n retained r _ h
    have hr : r = retained := by cases n <;> exact (Except.ok.inj h).symm
    subst hr
    exact ⟨subset_rfl, by simp [VersionChain.cut], fun _ h => .inl h⟩
  case cons =>
    intro id v hv ih n retained r hn h
    cases n with
    | zero => simp [fuel] at hn
    | succ n =>
      have hp : fuel v.previous ≤ n := fuel_previous hv hn
      rcases resolve_cases statuses v.entry with ⟨c, hs, hr⟩ | ⟨hs, m, hr⟩
      · have hs' : versionStamp statuses (id, v) = some c := hs
        simp only [VersionRecord.entry] at hr
        simp only [retainFrom, get_of_known hv, bind, Except.bind, hr] at h
        by_cases hc : c ≤ w
        · simp only [hc, if_true, pure, Except.pure, Except.ok.injEq] at h
          subst h
          have hcut : VersionChain.cut (versionStamp statuses) w (store.versionsFrom (some id)) =
              [(id, v)] := by simp [versionsFrom_some hv, VersionChain.cut, hs', hc]
          refine ⟨Finset.subset_insert _ _, by simp [hcut, hs'], ?_⟩
          intro i hi
          rcases Finset.mem_insert.mp hi with rfl | hi
          · exact .inr ⟨(i, v), by simp [hcut], rfl⟩
          · exact .inl hi
        · simp only [hc, if_false] at h
          have hm := ih n _ _ hp h
          have hcut : VersionChain.cut (versionStamp statuses) w (store.versionsFrom (some id)) =
              (id, v) :: VersionChain.cut (versionStamp statuses) w
                (store.versionsFrom v.previous) := by
            simp [versionsFrom_some hv, VersionChain.cut, hs', hc]
          refine ⟨(Finset.subset_insert _ _).trans hm.mono, ?_, ?_⟩
          · intro p hmem
            rw [hcut] at hmem
            rcases List.mem_cons.mp hmem with rfl | hmem
            · exact ⟨hm.mono (Finset.mem_insert_self _ _), by simp [hs']⟩
            · exact hm.cut p hmem
          · intro i hi
            rcases hm.only i hi with hi | ⟨p, hp, rfl⟩
            · rcases Finset.mem_insert.mp hi with rfl | hi
              · exact .inr ⟨(i, v), by simp [hcut], rfl⟩
              · exact .inl hi
            · exact .inr ⟨p, by simp [hcut, hp], rfl⟩
      · simp only [VersionRecord.entry] at hr
        simp [retainFrom, get_of_known hv, bind, Except.bind, hr] at h

/-- The identity and entry of a stored version; compaction changes neither. -/
def tag (p : ℕ × VersionRecord) : ℕ × Entry := (p.1, p.2.entry)

theorem retain_get (r : Finset ℕ) (h : store.records[id]? = some v)
    (hid : id ∈ r) : (store.retain r).records[id]? =
      some { v with previous := v.previous.filter (· ∈ r) } := by
  simp [retain, h, hid]

theorem retain_get_of_notMem (r : Finset ℕ) (hid : id ∉ r) : (store.retain r).records[id]? = none := by
  rw [retain, OrdMap.get_filterMap]
  cases store.records[id]? <;> simp [hid]

theorem of_retain {r : Finset ℕ}
    (h : (store.retain r).records[id]? = some v) : ∃ q, store.records[id]? = some q ∧
      v = { q with previous := q.previous.filter (· ∈ r) } := by
  rw [retain, OrdMap.get_filterMap, Option.bind_eq_some_iff] at h
  obtain ⟨q, hq, h⟩ := h
  split at h
  · exact ⟨q, hq, (Option.some.inj h).symm⟩
  · cases h

theorem retain_versionsFrom_filter (r : Finset ℕ) (head : Option ℕ) :
    (store.retain r).versionsFrom (head.filter (· ∈ r)) = (store.retain r).versionsFrom head := by
  cases head with
  | none => rfl
  | some p =>
    by_cases hp : p ∈ r
    · rw [Option.filter_some_pos (by simpa using hp)]
    · rw [Option.filter_some_neg (by simpa using hp),
        versionsFrom_unknown (retain_get_of_notMem r hp), versionsFrom_none]

theorem retain_versionsFrom (r : Finset ℕ) (head : Option ℕ) (hk : store.Known head) :
    ((store.retain r).versionsFrom head).map tag =
      ((store.versionsFrom head).takeWhile fun p => decide (p.1 ∈ r)).map tag := by
  refine walk_induction (P := fun head => ((store.retain r).versionsFrom head).map tag =
      ((store.versionsFrom head).takeWhile fun p => decide (p.1 ∈ r)).map tag) ?nil ?cons head hk
  case nil => rfl
  case cons =>
    intro id v hv ih
    by_cases hid : id ∈ r
    · rw [versionsFrom_some (retain_get r hv hid), versionsFrom_some hv,
        List.takeWhile_cons_of_pos (by simpa using hid), List.map_cons, List.map_cons,
        retain_versionsFrom_filter, ih]
      rfl
    · rw [versionsFrom_unknown (retain_get_of_notMem r hid), versionsFrom_some hv,
        List.takeWhile_cons_of_neg (by simpa using hid)]

theorem reopen_versionsFrom (head : Option ℕ) (hk : store.Known head)
    (hd : ∀ id, head = some id → id < durable) :
    (store.reopen durable).versionsFrom head = store.versionsFrom head := by
  have main : ∀ head, store.Known head → (∀ id, head = some id → id < durable) →
      (store.reopen durable).versionsFrom head = store.versionsFrom head := by
    refine walk_induction ?nil ?cons
    case nil => intro _; rfl
    case cons =>
      intro id v hv ih hlt
      have hid := hlt id rfl
      have hget : (store.reopen durable).records[id]? = some v := by
        simp [reopen, hv, hid]
      rw [versionsFrom_some hget, versionsFrom_some hv]
      refine congrArg _ (ih fun p hp => ?_)
      exact (store.previous_lt hv hp).trans hid
  exact main head hk hd

theorem reopen_known {head : Option ℕ} (hk : store.Known head)
    (hd : ∀ id, head = some id → id < durable) : (store.reopen durable).Known head := by
  intro id hid
  obtain ⟨v, hv⟩ := hk id hid
  exact ⟨v, by simp [reopen, hv, hd id hid]⟩

end OmenDb.VersionStore
