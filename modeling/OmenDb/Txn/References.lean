import OmenDb.Txn.Lifecycled

/-! Version references across crashes. The runtime is run together with a log of the record that
each version identity was last appended with; whatever a reopened database refers to is present
and is what the log says, up to the predecessors that a compaction has dropped. -/
namespace OmenDb.Txn

variable {σ σ' : State}

abbrev AppendLog := OrdMap ℕ VersionRecord

/-- Log the records that a step has appended: appends take identities from `nextId` on. -/
def noteAppends (before after : VersionStore) (log : AppendLog) : AppendLog :=
  log.insertAll (after.records.toList.filter fun p => decide (before.nextId ≤ p.1))

/-- The runtime with the log of its appends. An identity whose append was lost in a crash may be
taken again, and the log then has the later record. -/
def logged : Machine (State × AppendLog) Action where
  init p := p = (State.create, ∅)
  step p a := (step p.1 a).map fun σ' => (σ', noteAppends p.1.versions σ'.versions p.2)

variable {p : State × AppendLog} {before after store : VersionStore} {log : AppendLog} {id durable : ℕ}
    {r : VersionRecord}

theorem logged_reachable (h : logged.Reachable p) : runtime.Reachable p.1 := by
  induction h with
  | init hi => cases hi; exact .init rfl
  | step a _ _ hst ih =>
    obtain ⟨σ', hs, rfl⟩ := Option.map_eq_some_iff.mp hst
    exact .step a ih trivial hs

theorem noteAppends_old (h : id < before.nextId) : (noteAppends before after log)[id]? = log[id]? := by
  refine OrdMap.get_insertAll_of_notMem _ fun p hp hid => ?_
  have hle := of_decide_eq_true (List.mem_filter.mp hp).2
  omega

theorem noteAppends_new (h : before.nextId ≤ id) (hr : after.records[id]? = some r) :
    (noteAppends before after log)[id]? = some r :=
  OrdMap.get_insertAll_of_mem _ (after.records.distinct_toList.sublist List.filter_sublist)
    (List.mem_filter.mpr ⟨(OrdMap.mem_toList _ _ _).mpr hr, decide_eq_true h⟩)

/-- A logged record without a predecessor that the store no longer has. -/
def trimmed (store : VersionStore) (r : VersionRecord) : VersionRecord :=
  { r with previous := r.previous.filter fun p => (store.records[p]?).isSome }

/-- Every stored version is its log entry, up to a predecessor that is gone. -/
def Faithful (store : VersionStore) (log : AppendLog) : Prop :=
  ∀ (id : ℕ) (r : VersionRecord), store.records[id]? = some r →
    ∃ r₀, log[id]? = some r₀ ∧ r = trimmed store r₀ ∧ ∀ p, r₀.previous = some p → p < id

theorem trimmed_congr {store' : VersionStore}
    (h : ∀ p, r.previous = some p → (store'.records[p]?).isSome = (store.records[p]?).isSome) :
    trimmed store' r = trimmed store r := by
  unfold trimmed
  cases hp : r.previous with
  | none => rfl
  | some p => simp [Option.filter, h p hp]

theorem trimmed_stored (hr : store.records[id]? = some r) : trimmed store r = r := by
  have hk := fun p hp => store.previous_known (p := p) hr hp
  obtain ⟨_ | p, t, c, v⟩ := r
  · rfl
  · obtain ⟨q, hq⟩ := hk p rfl
    simp [trimmed, Option.filter, hq]

section Steps
variable {store store' : VersionStore} {log : AppendLog}

theorem Faithful.extend (h : Faithful store log) (hx : VersionStore.Extends store store') :
    Faithful store' (noteAppends store store' log) := by
  intro id r hr
  by_cases hid : id < store.nextId
  · obtain ⟨r₀, hlog, rfl, hlt⟩ := h id r (hx.same id hid ▸ hr)
    refine ⟨r₀, (noteAppends_old hid).trans hlog, (trimmed_congr fun p hp => ?_).symm, hlt⟩
    rw [hx.same p ((hlt p hp).trans hid)]
  · exact ⟨r, noteAppends_new (not_lt.mp hid) hr, (trimmed_stored hr).symm,
      fun p hp => store'.previous_lt hr hp⟩

theorem Faithful.shrink (h : Faithful store log)
    (hr : ∀ (id : ℕ) (r' : VersionRecord), store'.records[id]? = some r' →
      ∃ r, store.records[id]? = some r ∧ r' = trimmed store' r)
    (hkeep : ∀ p : ℕ, (store'.records[p]?).isSome → (store.records[p]?).isSome) :
    Faithful store' (noteAppends store store' log) := by
  intro id r' hr'
  obtain ⟨r, hst, rfl⟩ := hr id r' hr'
  obtain ⟨r₀, hlog, rfl, hlt⟩ := h id r hst
  refine ⟨r₀, (noteAppends_old (store.lt_next hst)).trans hlog, ?_, hlt⟩
  unfold trimmed
  cases hp : r₀.previous with
  | none => rfl
  | some p =>
    by_cases hin : (store'.records[p]?).isSome
    · simp [Option.filter, hin, hkeep p hin]
    · by_cases hin' : (store.records[p]?).isSome <;> simp [Option.filter, hin, hin']

theorem Faithful.retain (h : Faithful store log) (retained : Finset ℕ) :
    Faithful (store.retain retained) (noteAppends store (store.retain retained) log) := by
  refine h.shrink (fun id r' hr' => ?_) fun p hp => ?_
  · obtain ⟨r, hr, rfl⟩ := VersionStore.of_retain hr'
    refine ⟨r, hr, ?_⟩
    unfold trimmed
    cases hp : r.previous with
    | none => rfl
    | some p =>
      obtain ⟨q, hq⟩ := store.previous_known hr hp
      by_cases hin : p ∈ retained
      · simp [Option.filter, hin, VersionStore.retain_get retained hq hin]
      · simp [Option.filter, hin, VersionStore.retain_get_of_notMem retained hin]
  · obtain ⟨r', hr'⟩ := Option.isSome_iff_exists.mp hp
    obtain ⟨r, hr, _⟩ := VersionStore.of_retain hr'
    simp [hr]

theorem VersionStore.reopen_get (store : VersionStore) (durable id : ℕ) :
    (store.reopen durable).records[id]? = store.records[id]?.filter fun _ => decide (id < durable) :=
  OrdMap.get_filter _ _ _

theorem Faithful.reopen (h : Faithful store log) (durable : ℕ) :
    Faithful (store.reopen durable) (noteAppends store (store.reopen durable) log) := by
  refine h.shrink (fun id r hr => ?_) fun p hp => ?_
  · have hself := trimmed_stored hr
    rw [VersionStore.reopen_get] at hr
    exact ⟨r, (Option.filter_eq_some_iff.mp hr).1, hself.symm⟩
  · rw [VersionStore.reopen_get] at hp
    cases hs : store.records[p]? with
    | none => simp [hs] at hp
    | some r => rfl

end Steps

theorem Stores.versions {a : Action} {S : Storage} (h : Stores σ a S) :
    VersionStore.Extends σ.versions S.versions ∨ (∃ retained, S.versions = σ.versions.retain retained) ∨
    ∃ durable, S.versions = σ.versions.reopen durable := by
  cases h with
  | appended _ _ hx _ => exact .inl hx
  | reserved _ _ ha => exact .inl (appendBeforeImage_spec ha).1
  | installed _ hok _ _ => exact .inl hok.extends_store
  | compacted _ => exact .inr (.inl ⟨_, rfl⟩)
  | reopened _ _ => exact .inr (.inr ⟨_, rfl⟩)
  | same | settled _ | collected _ _ | pruned _ _ _ | leased _ _ _ | released _ =>
    exact .inl (.refl _)

theorem faithful_of_reachable (h : logged.Reachable p) : Faithful p.1.versions p.2 := by
  refine h.invariant_of (P := fun p => runtime.Reachable p.1)
    (Q := fun p => Faithful p.1.versions p.2) (fun _ hr => logged_reachable hr) ?_ ?_
  · rintro _ rfl id r hr
    simp [State.create, VersionStore.create] at hr
  · rintro ⟨σ, log⟩ a _ hr hf _ hst
    obtain ⟨σ', hs, rfl⟩ := Option.map_eq_some_iff.mp hst
    have hS : σ'.storage.versions = σ'.versions := rfl
    rcases ((inv_of_reachable hr).stores hs).versions with hx | ⟨retained, he⟩ | ⟨durable, he⟩
    · exact hf.extend (hS ▸ hx)
    · exact (hS.symm.trans he) ▸ hf.retain retained
    · exact (hS.symm.trans he) ▸ hf.reopen durable

inductive Refers (store : VersionStore) : Option ℕ → ℕ → Prop
  | head {id : ℕ} : Refers store (some id) id
  | previous {id p : ℕ} {r : VersionRecord} (hr : store.records[id]? = some r)
      (h : Refers store r.previous p) : Refers store (some id) p

def Referenced (db : Db) (head : Option ℕ) : Prop :=
  (∃ (l : Loc) (r : CurrentRecord), db.data[l]? = some r ∧ r.undoHead = head) ∨
    ∃ (tree : ℕ) (r : CurrentRecord), db.trees[tree]? = some r ∧ r.undoHead = head

theorem Refers.present {head : Option ℕ} (h : Refers store head id)
    (hk : store.Known head) : ∃ r, store.records[id]? = some r := by
  induction h with
  | head => exact hk _ rfl
  | previous hr _ ih => exact ih fun p hp => store.previous_known hr hp

theorem logged_crash (h : logged.Reachable (σ, log)) (hd : σ.synced ≤ durable) :
    ∃ σ' log', logged.step (σ, log) (.crash durable) = some (σ', log') := by
  have hr := logged_reachable h
  obtain ⟨σ', hσ'⟩ :=
    (inv_of_reachable hr).reopen_ok (lifecycled_of_reachable hr) (controlled_of_reachable hr) hd
  refine ⟨σ', _, Option.map_eq_some_iff.mpr ⟨σ', ?_, rfl⟩⟩
  simp only [step, hd, if_true, hσ', Except.toOption]

theorem log_before_crash {log' : AppendLog}
    (hst : logged.step (σ, log) (.crash durable) = some (σ', log'))
    (hr : σ'.versions.records[id]? = some r) : log'[id]? = log[id]? := by
  obtain ⟨σ₁, hs, he⟩ := Option.map_eq_some_iff.mp hst
  cases he
  refine noteAppends_old ?_
  cases step_moves hs with
  | crash _ hs =>
    obtain ⟨_, _, hs⟩ := bind_eq_ok.mp hs
    cases hs
    rw [VersionStore.reopen_get] at hr
    exact σ.versions.lt_next (Option.filter_eq_some_iff.mp hr).1

/-- After a crash at any point the database opens, and whatever a durable current record refers to,
directly or through predecessors, is present as it was appended, up to predecessors that are gone
from the store. -/
theorem references_after_crash {log : AppendLog} {durable : ℕ} (h : logged.Reachable (σ, log))
    (hd : σ.synced ≤ durable) :
    ∃ σ' log', logged.step (σ, log) (.crash durable) = some (σ', log') ∧
      ∀ head, Referenced σ'.db head → ∀ id, Refers σ'.versions head id →
        ∃ r r₀, σ'.versions.records[id]? = some r ∧ log[id]? = some r₀ ∧ r.value = r₀.value ∧
          r.transaction = r₀.transaction ∧ r.commit = r₀.commit ∧
          r.previous = r₀.previous.filter fun p => (σ'.versions.records[p]?).isSome := by
  obtain ⟨σ', log', hst⟩ := logged_crash h hd
  refine ⟨σ', log', hst, fun head hh id hr => ?_⟩
  have hreach : logged.Reachable (σ', log') := .step (.crash durable) h trivial hst
  have hi := inv_of_reachable (logged_reachable hreach)
  have hk : σ'.versions.Known head := by
    rcases hh with ⟨l, r, hl, rfl⟩ | ⟨tree, r, ht, rfl⟩
    · exact hi.tables.known.of_data hl
    · exact hi.tables.known.of_tree ht
  obtain ⟨r, hid⟩ := hr.present hk
  obtain ⟨r₀, hlog, rfl, _⟩ := faithful_of_reachable hreach id r hid
  exact ⟨_, r₀, hid, (log_before_crash hst hid).symm.trans hlog, rfl, rfl, rfl, rfl⟩

/-- Transaction `x` replaces the key of tree one. -/
def rewriteKey (x : ℕ) (value : Bytes) : List Action := List.flatten
  [[.begin, .cloneLifecycle x 1, .resolveLifecycle x, .put x 1 [1] value, .stage x], publishWave,
    [.finish x]]

/-- A collection drops the oldest version of a key, with an older snapshot still open. -/
def compactThenCrash : List Action := List.flatten
  [openTree, rewriteKey 2 [8], [.begin], rewriteKey 4 [9],
    [.gcCollect .published, .gcMirror, .gcCompact]]

theorem references_after_crash_compactThenCrash :
    ∃ σ σ' log log', logged.run (State.create, ∅) compactThenCrash = some (σ, log) ∧
      logged.step (σ, log) (.crash 100) = some (σ', log') ∧ Referenced σ'.db (some 5) ∧
      ∃ r r₀, σ'.versions.records[5]? = some r ∧ log[5]? = some r₀ ∧ r.value = r₀.value := by
  have hview : (logged.run (State.create, ∅) compactThenCrash).bind (fun p =>
      (logged.step p (.crash 100)).map fun p' =>
        (decide (p.1.synced ≤ 100), (p'.1.db.data[(⟨1, [1]⟩ : Loc)]?).map (·.undoHead))) =
      some (true, some (some 5)) := by
    decide +kernel
  obtain ⟨⟨σ, log⟩, hrun, hview⟩ := Option.bind_eq_some_iff.mp hview
  obtain ⟨⟨σ₁, log₁⟩, hst₁, hview⟩ := Option.map_eq_some_iff.mp hview
  obtain ⟨hd, hview⟩ := Prod.mk.inj hview
  obtain ⟨current, hcur, hundo⟩ := Option.map_eq_some_iff.mp hview
  obtain ⟨σ', log', hst, hrefs⟩ := references_after_crash
    (Machine.reachable_run (.init rfl) hrun) (of_decide_eq_true hd)
  cases hst₁.symm.trans hst
  have href : Referenced σ₁.db (some 5) := .inl ⟨_, current, hcur, hundo⟩
  obtain ⟨r, r₀, hr, hlog, hv, _⟩ := hrefs _ href 5 .head
  exact ⟨σ, σ₁, log, log₁, hrun, hst, href, r, r₀, hr, hlog, hv⟩

/-- The compaction has cut the version off from the predecessor it was appended with. -/
theorem predecessor_lost_compactThenCrash :
    ∃ σ σ' log log', logged.run (State.create, ∅) compactThenCrash = some (σ, log) ∧
      logged.Reachable (σ, log) ∧ logged.step (σ, log) (.crash 100) = some (σ', log') ∧
      Referenced σ'.db (some 5) ∧ ∃ r r₀, σ'.versions.records[5]? = some r ∧ log[5]? = some r₀ ∧
        r.previous = none ∧ r₀.previous = some 4 := by
  have hview : (logged.run (State.create, ∅) compactThenCrash).bind (fun p =>
      (logged.step p (.crash 100)).map fun p' =>
        ((p'.1.db.data[(⟨1, [1]⟩ : Loc)]?).map (·.undoHead),
          (p'.1.versions.records[5]?).map (·.previous), (p.2[5]?).map (·.previous))) =
      some (some (some 5), some none, some (some 4)) := by
    decide +kernel
  obtain ⟨⟨σ, log⟩, hrun, hview⟩ := Option.bind_eq_some_iff.mp hview
  obtain ⟨⟨σ', log'⟩, hst, hview⟩ := Option.map_eq_some_iff.mp hview
  simp only [Prod.mk.injEq, Option.map_eq_some_iff] at hview
  obtain ⟨⟨current, hcur, hundo⟩, ⟨r, hr, hprev⟩, r₀, hlog, hprev₀⟩ := hview
  exact ⟨σ, σ', log, log', hrun, Machine.reachable_run (.init rfl) hrun, hst,
    .inl ⟨_, current, hcur, hundo⟩, r, r₀, hr, hlog, hprev, hprev₀⟩

end OmenDb.Txn
