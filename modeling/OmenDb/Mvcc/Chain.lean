import OmenDb.Mvcc.VersionStore

/-! Undo chains. `visible_current` and `retain_current_chain` walk a record's before-images; the
chain of a record is the list of entries that walk passes, and both walks are list functions
of it. -/
namespace OmenDb

/-- The part of a current record or before-image that resolution looks at. -/
structure Entry where
  transaction : ℕ
  commit : ℕ
  value : Option Bytes
  deriving DecidableEq, Repr

def CurrentRecord.entry (r : CurrentRecord) : Entry := ⟨r.transaction, r.commit, r.value⟩
def VersionRecord.entry (r : VersionRecord) : Entry := ⟨r.transaction, r.commit, r.value⟩

/-- The resolved commit of an entry, when its status is known. -/
def stamp (statuses : Statuses) (e : Entry) : Option ℕ :=
  (resolveCommit statuses e.transaction e.commit).toOption

variable {statuses : Statuses} {e : Entry} {store store' : VersionStore} {current : CurrentRecord} {undo : Option ℕ}

theorem stamp_of_ne_zero (h : e.commit ≠ 0) :
    stamp statuses e = some e.commit := by simp [stamp, resolveCommit, h, Except.toOption]

theorem stamp_of_system (h : e.transaction = 0) :
    stamp statuses e = some e.commit := by simp [stamp, resolveCommit, h, Except.toOption]

theorem stamp_of_zero (hc : e.commit = 0)
    (ht : e.transaction ≠ 0) : stamp statuses e = statuses[e.transaction]? := by
  cases h : statuses[e.transaction]? <;> simp [stamp, resolveCommit, hc, ht, h, Except.toOption]

theorem resolveCommit_error {t c : ℕ} {e : Error}
    (h : resolveCommit statuses t c = .error e) : ∃ m, e = .corruption m := by
  unfold resolveCommit at h
  split at h
  · cases h
  · split at h
    · cases h
    · cases h; exact ⟨_, rfl⟩

namespace VersionStore

variable (store : VersionStore)

/-- Fuel that covers a walk from `head`: predecessors are strictly older. -/
def fuel : Option ℕ → ℕ
  | none => 0
  | some id => id + 1

/-- The `while let Some(id) = head` loop of `visible_current`. -/
def visibleFrom (statuses : Statuses) (snapshot : ℕ) : ℕ → Option ℕ → Result (Option VisibleVersion)
  | _, none => .ok none
  | 0, some _ => .ok none
  | n + 1, some id => do
    let record ← store.get id
    let commit ← resolveCommit statuses record.transaction record.commit
    if commit ≤ snapshot then return some ⟨record.transaction, commit, record.value⟩
    visibleFrom statuses snapshot n record.previous

/-- `visible_current`: resolve the newest version visible to a snapshot. -/
def visibleCurrent (statuses : Statuses) (current : CurrentRecord) (snapshot : ℕ) :
    Result (Option VisibleVersion) := do
  let commit ← resolveCommit statuses current.transaction current.commit
  if commit ≤ snapshot then return some ⟨current.transaction, commit, current.value⟩
  store.visibleFrom statuses snapshot (fuel current.undoHead) current.undoHead

/-- The versions a walk from `head` passes. -/
def walk : ℕ → Option ℕ → List (ℕ × VersionRecord)
  | _, none => []
  | 0, some _ => []
  | n + 1, some id =>
    match store.records[id]? with
    | none => []
    | some r => (id, r) :: walk n r.previous

/-- Every version from `head` down. -/
def versionsFrom (head : Option ℕ) : List (ℕ × VersionRecord) := store.walk (fuel head) head

/-- The entries of a current record and its before-images, newest first. -/
def chain (current : CurrentRecord) : List Entry :=
  current.entry :: (store.versionsFrom current.undoHead).map fun p => p.2.entry

variable {store}

theorem walk_fuel {n m : ℕ} {head : Option ℕ} (hn : fuel head ≤ n) (hm : fuel head ≤ m) :
    store.walk n head = store.walk m head := by
  induction n generalizing m head with
  | zero =>
    cases head with
    | none => cases m <;> rfl
    | some id => simp [fuel] at hn
  | succ n ih =>
    cases head with
    | none => cases m <;> rfl
    | some id =>
      cases m with
      | zero => simp [fuel] at hm
      | succ m =>
        simp only [walk]
        cases hr : store.records[id]? with
        | none => rfl
        | some r =>
          have hp : fuel r.previous ≤ id := by
            cases h : r.previous with
            | none => simp [fuel]
            | some p => have := store.previous_lt hr h; simp [fuel]; omega
          simp only [fuel] at hn hm
          exact congrArg _ (ih (by omega) (by omega))

@[simp] theorem versionsFrom_none : store.versionsFrom none = [] := rfl

theorem versionsFrom_some {id : ℕ} {r : VersionRecord} (h : store.records[id]? = some r) :
    store.versionsFrom (some id) = (id, r) :: store.versionsFrom r.previous := by
  have hp : fuel r.previous ≤ id := by
    cases hp : r.previous with
    | none => simp [fuel]
    | some p => have := store.previous_lt h hp; simp [fuel]; omega
  change store.walk (id + 1) (some id) = _
  simp only [walk, h]
  exact congrArg _ (walk_fuel hp le_rfl)

theorem versionsFrom_unknown {id : ℕ} (h : store.records[id]? = none) :
    store.versionsFrom (some id) = [] := by simp [versionsFrom, walk, fuel, h]

theorem walk_induction {P : Option ℕ → Prop} (nil : P none)
    (cons : ∀ id r, store.records[id]? = some r → P r.previous → P (some id)) :
    ∀ head, store.Known head → P head := by
  have step : ∀ id, (∃ r, store.records[id]? = some r) → P (some id) := by
    intro id
    induction id using Nat.strong_induction_on with
    | _ id ih =>
      rintro ⟨r, hr⟩
      refine cons id r hr ?_
      cases hp : r.previous with
      | none => exact nil
      | some p => exact ih p (store.previous_lt hr hp) (store.previous_known hr hp)
  intro head hk
  cases head with
  | none => exact nil
  | some id => exact step id (hk id rfl)

theorem known_none : store.Known none := by simp [Known]

end VersionStore

def Entry.version (statuses : Statuses) (e : Entry) : VisibleVersion :=
  ⟨e.transaction, (stamp statuses e).getD 0, e.value⟩

namespace VersionStore

variable {store : VersionStore} {statuses : Statuses} {snapshot : ℕ}

variable {id : ℕ} {r : VersionRecord} {current : CurrentRecord} {store' : VersionStore}

theorem get_of_known (h : store.records[id]? = some r) :
    store.get id = .ok r := by simp [get, h]

theorem resolve_cases (statuses : Statuses) (e : Entry) :
    (∃ c, stamp statuses e = some c ∧ resolveCommit statuses e.transaction e.commit = .ok c) ∨
    (stamp statuses e = none ∧
      ∃ m, resolveCommit statuses e.transaction e.commit = .error (.corruption m)) := by
  cases h : resolveCommit statuses e.transaction e.commit with
  | ok c => exact .inl ⟨c, by simp [stamp, h, Except.toOption], rfl⟩
  | error x =>
    obtain ⟨m, rfl⟩ := resolveCommit_error h
    exact .inr ⟨by simp [stamp, h, Except.toOption], m, rfl⟩

/-- What a walk returns, read off the list of entries it passes. -/
def Outcome (statuses : Statuses) (snapshot : ℕ) (l : List Entry)
    (r : Result (Option VisibleVersion)) : Prop :=
  match VersionChain.visible (stamp statuses) snapshot l with
  | some e => r = .ok (e.map (Entry.version statuses))
  | none => ∃ m, r = .error (.corruption m)

theorem outcome_cons {e : Entry} {es : List Entry} {r : Result (Option VisibleVersion)}
    (h : Outcome statuses snapshot es r) :
    Outcome statuses snapshot (e :: es) (do
      let commit ← resolveCommit statuses e.transaction e.commit
      if commit ≤ snapshot then return some ⟨e.transaction, commit, e.value⟩
      r) := by
  rcases resolve_cases statuses e with ⟨c, hs, hr⟩ | ⟨hs, m, hr⟩
  · by_cases hc : c ≤ snapshot
    · simp [Outcome, VersionChain.visible, hs, hr, hc, Entry.version, pure, Except.pure]
    · simpa [Outcome, VersionChain.visible, hs, hr, hc] using h
  · simp [Outcome, VersionChain.visible, hs, hr, bind, Except.bind]

theorem visibleFrom_outcome (head : Option ℕ) (hk : store.Known head) :
    ∀ n, fuel head ≤ n → Outcome statuses snapshot ((store.versionsFrom head).map fun p => p.2.entry)
      (store.visibleFrom statuses snapshot n head) := by
  refine walk_induction (P := fun head => ∀ n, fuel head ≤ n → Outcome statuses snapshot
    ((store.versionsFrom head).map fun p => p.2.entry)
      (store.visibleFrom statuses snapshot n head)) ?nil ?cons head hk
  case nil => intro n _; cases n <;> simp [Outcome, visibleFrom]
  case cons =>
    intro id r hr ih n hn
    cases n with
    | zero => simp [fuel] at hn
    | succ n =>
      have hp : fuel r.previous ≤ n := by
        simp only [fuel] at hn
        cases h : r.previous with
        | none => simp [fuel]
        | some p => have := store.previous_lt hr h; simp [fuel]; omega
      rw [versionsFrom_some hr, List.map_cons]
      have h := outcome_cons (e := r.entry) (ih n hp)
      simpa [visibleFrom, get_of_known hr, VersionRecord.entry] using h

theorem visibleCurrent_outcome (hk : store.Known current.undoHead) :
    Outcome statuses snapshot (store.chain current)
      (store.visibleCurrent statuses current snapshot) :=
  outcome_cons (visibleFrom_outcome _ hk _ le_rfl)

theorem visibleCurrent_eq (hk : store.Known current.undoHead) {e : Option Entry}
    (h : VersionChain.visible (stamp statuses) snapshot (store.chain current) = some e) :
    store.visibleCurrent statuses current snapshot = .ok (e.map (Entry.version statuses)) := by
  have ho : Outcome statuses snapshot _ _ := visibleCurrent_outcome hk
  simpa [Outcome, h] using ho

/-- A store that keeps every record of another and adds new ones above its identities. -/
structure Extends (store store' : VersionStore) : Prop where
  next_le : store.nextId ≤ store'.nextId
  same : ∀ id, id < store.nextId → store'.records[id]? = store.records[id]?

theorem Extends.refl (store : VersionStore) : Extends store store := ⟨le_rfl, fun _ _ => rfl⟩

theorem Extends.trans {a b c : VersionStore} (h : Extends a b) (h' : Extends b c) : Extends a c where
  next_le := h.next_le.trans h'.next_le
  same id hid := (h'.same id (hid.trans_le h.next_le)).trans (h.same id hid)

section

variable (h : Extends store store')
include h

theorem Extends.get (hr : store.records[id]? = some r) : store'.records[id]? = some r := by
  rw [h.same id (store.lt_next hr), hr]

theorem Extends.known {head : Option ℕ} (hk : store.Known head) : store'.Known head := by
  intro id hid
  obtain ⟨r, hr⟩ := hk id hid
  exact ⟨r, h.get hr⟩

theorem Extends.versionsFrom (head : Option ℕ) (hk : store.Known head) :
    store'.versionsFrom head = store.versionsFrom head := by
  refine walk_induction (P := fun head => store'.versionsFrom head = store.versionsFrom head)
    ?nil ?cons head hk
  case nil => rfl
  case cons =>
    intro id r hr ih
    rw [versionsFrom_some hr, versionsFrom_some (h.get hr), ih]

theorem Extends.chain (hk : store.Known current.undoHead) : store'.chain current = store.chain current := by
  simp [VersionStore.chain, h.versionsFrom _ hk]

theorem Extends.chain_of_lt (hb : ∀ id, current.undoHead = some id → id < store.nextId) :
    store'.chain current = store.chain current := by
  by_cases hk : store.Known current.undoHead
  · exact h.chain hk
  · cases hu : current.undoHead with
    | none => exact absurd (hu ▸ known_none) hk
    | some id =>
      have hnone : store.records[id]? = none := by
        cases hr : store.records[id]? with
        | none => rfl
        | some r => exact absurd (fun i hi => ⟨r, by rw [hu] at hi; cases hi; exact hr⟩) hk
      have hnone' : store'.records[id]? = none := (h.same id (hb id hu)).trans hnone
      simp [VersionStore.chain, hu, versionsFrom_unknown hnone, versionsFrom_unknown hnone']

end

theorem append_eq_ok {previous : Option ℕ} {t c : ℕ} {v : Option Bytes}
    (h : store.append previous t c v = .ok (id, store')) :
    ∃ hk : store.Known previous, id = store.nextId ∧ store' = store.push ⟨previous, t, c, v⟩ hk := by
  unfold append at h
  split at h
  · rename_i hk
    split at h
    · cases h
    · cases h; exact ⟨hk, rfl, rfl⟩
  · cases h

theorem push_extends (record : VersionRecord) (hk : store.Known record.previous) :
    Extends store (store.push record hk) where
  next_le := Nat.le_succ _
  same id hid := by simp [push, hid.ne']

theorem push_get (record : VersionRecord) (hk : store.Known record.previous) :
    (store.push record hk).records[store.nextId]? = some record := by simp [push]

end VersionStore

/-- `append_before_image`: the overwritten record becomes the newest version of its chain. -/
def appendBeforeImage (store : VersionStore) (current : CurrentRecord) :
    Result (Option ℕ × VersionStore) := do
  let (id, store) ← store.append current.undoHead current.transaction current.commit current.value
  return (some id, store)

section

variable (h : appendBeforeImage store current = .ok (undo, store'))
include h

theorem appendBeforeImage_spec :
    VersionStore.Extends store store' ∧ store'.Known undo ∧
    (store'.versionsFrom undo).map (fun p => p.2.entry) = store.chain current := by
  unfold appendBeforeImage at h
  cases ha : store.append current.undoHead current.transaction current.commit current.value with
  | error e => simp [ha] at h
  | ok p =>
    obtain ⟨id, store₁⟩ := p
    simp only [ha, bind, Except.bind, pure, Except.pure, Except.ok.injEq, Prod.mk.injEq] at h
    obtain ⟨rfl, rfl⟩ := h
    obtain ⟨hk, rfl, rfl⟩ := VersionStore.append_eq_ok ha
    have hext := VersionStore.push_extends
      ⟨current.undoHead, current.transaction, current.commit, current.value⟩ hk
    have hget := VersionStore.push_get
      ⟨current.undoHead, current.transaction, current.commit, current.value⟩ hk
    refine ⟨hext, fun i hi => ?_, ?_⟩
    · cases hi; exact ⟨_, hget⟩
    · rw [VersionStore.versionsFrom_some hget, hext.versionsFrom _ hk]
      rfl

def CurrentRecord.image (current : CurrentRecord) : VersionRecord :=
  ⟨current.undoHead, current.transaction, current.commit, current.value⟩

theorem appendBeforeImage_image {id : ℕ} {r : VersionRecord} (hr : store'.records[id]? = some r) :
    store.records[id]? = some r ∨ r = current.image := by
  obtain ⟨⟨id', store₁⟩, ha, h⟩ := bind_eq_ok.mp h
  cases h
  obtain ⟨hk, rfl, rfl⟩ := VersionStore.append_eq_ok ha
  simp only [VersionStore.push, OrdMap.get_insert] at hr
  split at hr
  · exact .inr (Option.some.inj hr).symm
  · exact .inl hr

theorem chain_overwrite (t c : ℕ) (v : Option Bytes) :
    store'.chain ⟨t, c, undo, v⟩ = ⟨t, c, v⟩ :: store.chain current := by
  rw [VersionStore.chain, (appendBeforeImage_spec h).2.2]
  rfl

end

end OmenDb
