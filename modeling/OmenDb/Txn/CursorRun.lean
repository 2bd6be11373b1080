import OmenDb.Txn.SnapshotSpec

/-! A cursor over a whole run. The cursor borrows its transaction, so until it is dropped the
transaction makes no other call; every other party may go on, commit, collect and publish between any two
calls of the cursor. Its answers are then the entries the transaction had at the opening, in order. -/
namespace OmenDb.Txn

variable {σ σ' : State} {x : ℕ} {t : Transaction} {a : Action}

def Action.caller : Action → Option ℕ
  | .cloneLifecycle id _ | .resolveLifecycle id | .put id _ _ _ | .delete id _ _ | .dropTree id _ | .createTree id _
  | .get id _ _ | .scan id _ _ _ _ | .openCursor id _ _ _ | .advance id | .stage id | .finish id => some id
  | _ => none

def Action.crashes : Action → Bool
  | .crash _ => true
  | _ => false

/-- A step that may be taken while the handle of a transaction is borrowed. A crash ends every handle. -/
def Action.beside (x : ℕ) (a : Action) : Prop := a.caller ≠ some x ∧ a.crashes = false

theorem ready_congr (ht : σ'.transactions[x]? = σ.transactions[x]?) (hl : σ'.lookups[x]? = σ.lookups[x]?) :
    ready σ' x = ready σ x := by
  unfold ready
  rw [ht, hl]

theorem ready_setTxn {u : Transaction} (h : u.id ≠ x) : ready (setTxn σ u) x = ready σ x :=
  ready_congr (OrdMap.get_insert_of_ne _ _ h) rfl

variable {u : Transaction} {tree : ℕ} {start name : Bytes} {stop : Option Bytes} {c : Cursor} {store : Store}
    {p : Bytes × Bytes}

theorem ready_setTxn_self (hr : ready σ x = some t) (hid : u.id = x) (hp : u.phase = .active) :
    ready (setTxn σ u) x = some u := by
  have htable : (setTxn σ u).transactions[x]? = some u := by simp [setTxn, hid]
  have hlookup : (setTxn σ u).lookups[x]? = none := (ready_eq hr).2.1
  unfold ready
  rw [htable, hlookup]
  simp [hp]

theorem ready_logRead (read : Read) (answer : Answer) : ready (logRead σ u read answer) x = ready σ x :=
  ready_congr rfl rfl

theorem ready_write {l : Loc} {value : Option Bytes} (hid : t.id ≠ x) (hw : write σ t l value = some σ') :
    ready σ' x = ready σ x := by
  obtain ⟨result, -, rfl⟩ := Option.map_eq_some_iff.mp hw
  cases result with
  | ok u => exact ready_setTxn hid
  | error e => rfl

theorem ready_dropTree (hid : t.id ≠ x) (hd : dropTree σ t tree = some σ') : ready σ' x = ready σ x := by
  unfold dropTree at hd
  split at hd
  · cases hd; exact ready_setTxn hid
  · obtain ⟨visible, -, rfl⟩ := Option.map_eq_some_iff.mp hd
    cases visible with
    | true => exact ready_setTxn hid
    | false => rfl

theorem ready_reserveTree (owner tree : ℕ) (outcome : EngineOutcome) :
    ready (reserveTree σ owner tree outcome).1 x = ready σ x := by
  unfold reserveTree
  cases appendBeforeImage σ.versions (decodeCurrent σ.db.trees[tree]?) with
  | error e => rfl
  | ok r => cases outcome <;> rfl

theorem ready_createTree {outcome : EngineOutcome} (hid : t.id ≠ x) : ready (createTree σ t outcome) x = ready σ x := by
  have hreserve : ready (reserveTree { σ with nextTree := σ.nextTree + 1 } t.id σ.nextTree outcome).1 x = ready σ x :=
    ready_reserveTree t.id σ.nextTree outcome
  unfold createTree
  dsimp only
  generalize reserveTree { σ with nextTree := σ.nextTree + 1 } t.id σ.nextTree outcome = r at hreserve ⊢
  obtain ⟨σ₁, result⟩ := r
  cases result with
  | error e => exact hreserve
  | ok u => exact (@ready_setTxn σ₁ x { t with phase := .waiting } hid).trans hreserve

theorem ready_stageCommit (hid : t.id ≠ x) : ready (stageCommit σ t).1 x = ready σ x := by
  unfold stageCommit
  dsimp only
  split
  · exact ready_congr (OrdMap.get_insert_of_ne _ _ hid) rfl
  · exact ready_congr (OrdMap.get_insert_of_ne _ _ hid) rfl

theorem ready_getStep {key : Bytes} (hid : t.id ≠ x) : ready (getStep σ t tree key) x = ready σ x := by
  have hget : (get σ t tree key).1.id = t.id := by
    unfold get
    split
    · rfl
    · split <;> rfl
  unfold getStep
  generalize get σ t tree key = r at hget ⊢
  obtain ⟨t', result⟩ := r
  cases result <;> exact ready_setTxn (hget.trans_ne hid)

theorem ready_scanStep {limit : ℕ} (hid : t.id ≠ x) :
    ready (scanStep σ t tree start stop limit) x = ready σ x := by
  have hscan : (scan σ t tree start stop limit).1.id = t.id := by
    unfold scan
    split
    · rfl
    · split <;> rfl
  unfold scanStep
  generalize scan σ t tree start stop limit = r at hscan ⊢
  obtain ⟨t', result⟩ := r
  cases result <;> exact ready_setTxn (hscan.trans_ne hid)

theorem openCursor_eq_ok {t' : Transaction} (h : openCursor σ t tree start stop = .ok t') :
    checkTreeVisibleForRead σ t tree = .ok () ∧ ¬ (stop.any fun e => decide (e < start)) = true ∧
      t' = { t with
        readRanges := insert (tree, start, stop) t.readRanges, cursor := some ⟨tree, stop, some start⟩ } := by
  obtain ⟨_, hcheck, h⟩ := bind_eq_ok.mp h
  split at h
  · cases h
  · next hbounds =>
    cases h
    exact ⟨hcheck, hbounds, rfl⟩

theorem ready_cursorStep (hid : t.id ≠ x) : ready (cursorStep σ t tree start stop) x = ready σ x := by
  unfold cursorStep
  split
  · next t' hopen =>
    obtain ⟨-, -, rfl⟩ := openCursor_eq_ok hopen
    exact ready_setTxn hid
  · rfl

theorem ready_advanceStep (hid : t.id ≠ x) : ready (advanceStep σ t c) x = ready σ x := by
  unfold advanceStep
  split
  · exact ready_setTxn hid
  · rfl

theorem ready_finish (hid : t.id ≠ x) (hf : finish σ t = some σ') : ready σ' x = ready σ x := by
  unfold finish at hf
  split at hf
  · cases hf
    exact ready_congr (by simp [hid]) rfl
  · cases hf

theorem ready_acquireChangeLease {start : ℕ} (hs : acquireChangeLease σ name start = .ok σ') :
    ready σ' x = ready σ x := by
  unfold acquireChangeLease at hs
  split at hs
  · cases hs
  · split at hs
    · cases hs
    · split at hs
      · cases hs
        split <;> rfl
      · cases hs
        rfl

theorem ready_advanceLease {csn : ℕ} (hs : advanceLease σ name csn = .ok σ') : ready σ' x = ready σ x := by
  unfold advanceLease at hs
  split at hs
  · cases hs
  · cases hs
    split <;> rfl

theorem ready_releaseLease (hs : releaseLease σ name = .ok σ') : ready σ' x = ready σ x := by
  unfold releaseLease at hs
  split at hs <;> cases hs
  rfl

theorem ready_gcCollect (outcome : EngineOutcome) : ready (gcCollect σ outcome).1 x = ready σ x := by
  unfold gcCollect
  cases gcPlan σ with
  | error e => rfl
  | ok plan => cases outcome <;> rfl

theorem ready_gcChanges (oldest : Option ℕ) : ready (gcChanges σ oldest) x = ready σ x := by
  unfold gcChanges
  split <;> rfl

theorem ready_publishDrained (h : Inv σ) {q : List StagedCommit} (hl : σ.lane = .drained q) (hr : ready σ x = some t)
    (outcome : EngineOutcome) : ready (publishDrained σ q outcome) x = ready σ x := by
  obtain ⟨ht, -, hp⟩ := ready_eq hr
  have hserved : x ∉ q.map (·.transaction) := by
    have hnot := h.queues.notMem ht (by simp [hp])
    rw [hl] at hnot
    exact fun hx => hnot (List.mem_append_left _ (List.mem_append_left _ (List.mem_append_left _ hx)))
  have hb : WaveBuilt σ.db σ.statuses σ.versions q (buildWave σ.db σ.statuses σ.versions q) :=
    buildWave_spec h.tables.known q
  unfold publishDrained
  generalize buildWave σ.db σ.statuses σ.versions q = b at hb
  have hfailures : x ∉ b.failures.map (·.1) := fun hx => hserved (hb.settled.subset (List.mem_append_right _ hx))
  have hmembers : x ∉ b.members.map (·.staged.transaction) :=
    fun hx => hserved (hb.settled.subset (List.mem_append_left _ hx))
  have hkept : (b.failures.foldl (fun ts f => setPhase .active ts f.1) σ.transactions)[x]? = σ.transactions[x]? := by
    rw [foldl_failures]
    exact foldl_setPhase_of_notMem hfailures
  have habandoned : (b.members.foldl (fun ts m => setPhase .active ts m.staged.transaction)
      (b.failures.foldl (fun ts f => setPhase .active ts f.1) σ.transactions))[x]? = σ.transactions[x]? := by
    rw [foldl_members]
    exact (foldl_setPhase_of_notMem hmembers).trans hkept
  dsimp only
  split
  · exact ready_congr hkept rfl
  · cases outcome with
    | published => exact ready_congr hkept rfl
    | syncFailed | refused => exact ready_congr habandoned rfl

theorem ready_publishStatuses (h : Inv σ) {wave : List Member} (hl : σ.lane = .mirrored wave)
    (hr : ready σ x = some t) : ready (publishStatuses σ wave) x = ready σ x := by
  obtain ⟨ht, -, hp⟩ := ready_eq hr
  have hserved : x ∉ wave.map (·.staged.transaction) := by
    have hnot := h.queues.notMem ht (by simp [hp])
    rw [hl] at hnot
    exact fun hx => hnot (List.mem_append_left _ (List.mem_append_left _ (List.mem_append_right _ hx)))
  refine ready_congr ?_ rfl
  unfold publishStatuses
  dsimp only
  rw [foldl_members]
  exact foldl_setPhase_of_notMem hserved

theorem ready_reservePublish (h : Inv σ) {owner : ℕ} (hl : σ.lane = .reservedMirrored owner tree)
    (hr : ready σ x = some t) : ready (reservePublish σ owner tree) x = ready σ x := by
  obtain ⟨ht, -, hp⟩ := ready_eq hr
  have hserved : owner ≠ x := by
    rintro rfl
    refine h.queues.notMem ht (by simp [hp]) ?_
    simp [hl, Lane.serves, Lane.reserving]
  refine ready_congr ?_ rfl
  unfold reservePublish
  dsimp only
  split
  · exact OrdMap.get_insert_of_ne _ _ hserved
  · rfl

theorem ready_beside (h : Inv σ) (hr : ready σ x = some t) (hb : a.beside x) (hs : step σ a = some σ') :
    ready σ' x = some t := by
  rw [← hr]
  obtain ⟨-, -, hlt, -⟩ := h.identities.own x t (ready_eq hr).1
  -- a call is made by another transaction
  have hother : ∀ {id : ℕ} {u : Transaction}, a.caller = some id → σ.transactions[id]? = some u → u.id ≠ x := by
    rintro id u hcaller hu rfl
    exact hb.1 (by rw [hcaller, (h.identities.own id u hu).1])
  cases step_moves hs with
  | begin => exact ready_congr (OrdMap.get_insert_of_ne _ _ hlt.ne') rfl
  | @cloneLifecycle id tree u hu _ =>
    have hne := hother rfl (ready_eq hu).1
    unfold cloneLifecycle
    split
    · rfl
    · exact ready_congr rfl (OrdMap.get_insert_of_ne _ _ hne)
  | @resolveLifecycle id tree u record hu hl _ =>
    have hne := hother rfl hu
    have herase : ready { σ with lookups := σ.lookups.erase u.id } x = ready σ x := ready_congr rfl (by simp [hne])
    unfold resolveLifecycle
    dsimp only
    split
    · exact herase
    · exact (@ready_setTxn _ x { u with treeStates := u.treeStates.insert tree _ } hne).trans herase
  | put hu hw | delete hu hw => exact ready_write (hother rfl (ready_eq hu).1) hw
  | dropTree hu hd => exact ready_dropTree (hother rfl (ready_eq hu).1) hd
  | createTree hu _ => exact ready_createTree (hother rfl (ready_eq hu).1)
  | reserveMirror => rfl
  | reservePublish hl => exact ready_reservePublish h hl hr
  | get hu _ => exact ready_getStep (hother rfl (ready_eq hu).1)
  | scan hu _ => exact ready_scanStep (hother rfl (ready_eq hu).1)
  | openCursor hu _ => exact ready_cursorStep (hother rfl (ready_eq hu).1)
  | advance hu _ _ => exact ready_advanceStep (hother rfl (ready_eq hu).1)
  | stage hu _ => exact ready_stageCommit (hother rfl (ready_eq hu).1)
  | finish hu hf => exact ready_finish (hother rfl hu) hf
  | publish hl => exact ready_publishDrained h hl hr _
  | publishStatuses hl => exact ready_publishStatuses h hl hr
  | drain | publishPosition | publishMirror | release | gcMirror | gcSample | gcRefused => rfl
  | gcCollect => exact ready_gcCollect _
  | gcChanges => exact ready_gcChanges _
  | gcCompact _ hs =>
    obtain ⟨store, -, hs⟩ := bind_eq_ok.mp hs
    cases hs
    rfl
  | acquireLease _ hs => exact ready_acquireChangeLease hs
  | advanceLease _ hs => exact ready_advanceLease hs
  | releaseLease _ hs => exact ready_releaseLease hs
  | crash => cases hb.2

theorem Stores.recent {S : Storage} (h : Stores σ a S) : ∃ new, S.history = new ++ σ.history ∧
    ∀ c ∈ new, σ.db.csn < c.csn := by
  cases h with
  | reserved _ _ _ => exact ⟨[_], rfl, by simp [reservation]⟩
  | installed _ hok _ _ =>
    refine ⟨_, rfl, fun c hc => ?_⟩
    obtain ⟨m, hm, rfl⟩ := mem_waveCommits.mp hc
    exact (hok.assigned m hm).1
  | same | appended _ _ _ _ | settled _ | collected _ _ | compacted _ | pruned _ _ _ | leased _ _ _
  | released _ | reopened _ _ => exact ⟨[], rfl, by simp⟩

theorem storeAt_step (h : Inv σ) (ht : σ.transactions[x]? = some t) (hs : step σ a = some σ') :
    storeAt t.snapshot σ'.history = storeAt t.snapshot σ.history := by
  have hle : t.snapshot ≤ σ.db.csn := (h.identities.own x t ht).2.2.2.trans h.sequence.published_le
  obtain ⟨new, hhistory, hrecent⟩ := (h.stores hs).recent
  change storeAt t.snapshot σ'.storage.history = _
  rw [hhistory]
  exact storeAt_append fun c hc => hle.trans_lt (hrecent c hc)

def entriesFrom (store : Store) (tree : ℕ) (stop : Option Bytes) (start : Bytes) : List (Bytes × Bytes) :=
  ((store.filter fun l _ => decide (l.tree = tree) && inRange start stop l.key).toList).map fun p => (p.1.key, p.2)

theorem mem_entriesFrom :
    p ∈ entriesFrom store tree stop start ↔ inRange start stop p.1 = true ∧ store[(⟨tree, p.1⟩ : Loc)]? = some p.2 := by
  obtain ⟨k, v⟩ := p
  simp only [entriesFrom, List.mem_map, Prod.exists, OrdMap.mem_toList, OrdMap.get_filter, Option.filter_eq_some_iff,
    Bool.and_eq_true, decide_eq_true_eq, Prod.mk.injEq]
  constructor
  · rintro ⟨⟨tree', key⟩, v', ⟨hget, rfl, hrange⟩, rfl, rfl⟩
    exact ⟨hrange, hget⟩
  · rintro ⟨hrange, hget⟩
    exact ⟨⟨tree, k⟩, v, ⟨hget, rfl, hrange⟩, rfl, rfl⟩

theorem entriesFrom_successor {rest : List (Bytes × Bytes)} (h : entriesFrom store tree stop start = p :: rest) :
    entriesFrom store tree stop (successor p.1) = rest := by
  have hsorted : (p :: rest).Pairwise fun a b => a.1 < b.1 := h ▸ sorted_entries store tree start stop
  obtain ⟨hhead, htail⟩ := List.pairwise_cons.mp hsorted
  have hmem : ∀ q, q ∈ p :: rest ↔ inRange start stop q.1 = true ∧ store[(⟨tree, q.1⟩ : Loc)]? = some q.2 := fun q => by
    rw [← h, mem_entriesFrom]
  have hp : inRange start stop p.1 = true := ((hmem p).mp (by simp)).1
  refine OrdMap.eq_of_sorted (sorted_entries store tree (successor p.1) stop) htail fun q => ?_
  rw [mem_entriesFrom, inRange_iff, successor_le_iff]
  constructor
  · rintro ⟨⟨hlt, hstop⟩, hget⟩
    have hrange : inRange start stop q.1 = true := inRange_iff.mpr ⟨(inRange_iff.mp hp).1.trans hlt.le, hstop⟩
    rcases List.mem_cons.mp ((hmem q).mpr ⟨hrange, hget⟩) with rfl | hq
    · exact absurd hlt (lt_irrefl _)
    · exact hq
  · intro hq
    obtain ⟨hrange, hget⟩ := (hmem q).mp (List.mem_cons_of_mem _ hq)
    exact ⟨⟨hhead q hq, (inRange_iff.mp hrange).2⟩, hget⟩

def remaining (store : Store) (c : Cursor) : List (Bytes × Bytes) :=
  match c.position with
  | none => []
  | some position => entriesFrom store c.tree c.stop position

theorem advance_remaining (h : Shows σ t.snapshot store) (hv : Vacant t store) (c : Cursor) :
    ∃ position, advance σ t c = .ok ((remaining (overlay store t.writes) c).head?, position) ∧
      remaining (overlay store t.writes) { c with position := position } =
        (remaining (overlay store t.writes) c).tail := by
  cases hposition : c.position with
  | none => exact ⟨none, by simp [advance, remaining, hposition]⟩
  | some position =>
    obtain ⟨e, next, hadvance, hentry, -, hbehind⟩ := advance_spec h hv hposition
    have hremaining : remaining (overlay store t.writes) c =
        entriesFrom (overlay store t.writes) c.tree c.stop position := by
      simp [remaining, hposition]
    have hhead : e.toList = (remaining (overlay store t.writes) c).take 1 := by rw [hentry, hremaining]; rfl
    cases hlist : remaining (overlay store t.writes) c with
    | nil =>
      obtain rfl : e = none := by simpa [hlist] using hhead
      exact ⟨next, hadvance, by rw [hbehind]; rfl⟩
    | cons p rest =>
      obtain rfl : e = some p := by
        cases e with
        | none => simp [hlist] at hhead
        | some q => simpa [hlist] using hhead
      refine ⟨next, hadvance, ?_⟩
      rw [hbehind]
      exact entriesFrom_successor (hremaining.symm.trans hlist)

/-- A run of the runtime with an open cursor, and what the calls of the cursor returned. -/
inductive CursorRun (x : ℕ) : State → List (Result (Option (Bytes × Bytes))) → Prop
  | nil {σ : State} : CursorRun x σ []
  | beside {σ σ' : State} {a : Action} {answers : List (Result (Option (Bytes × Bytes)))} (hb : a.beside x)
      (hs : step σ a = some σ') (rest : CursorRun x σ' answers) : CursorRun x σ answers
  | next {σ σ' : State} {t : Transaction} {c : Cursor} {answers : List (Result (Option (Bytes × Bytes)))}
      (hr : ready σ x = some t) (hc : t.cursor = some c) (hs : step σ (.advance x) = some σ')
      (rest : CursorRun x σ' answers) : CursorRun x σ ((advance σ t c).map Prod.fst :: answers)

theorem step_advance (h : Inv σ) (hr : ready σ x = some t) (hc : t.cursor = some c)
    (hs : step σ (.advance x) = some σ') :
    σ.lane.dbFree = true ∧ σ'.lane = σ.lane ∧ σ'.history = σ.history ∧ ∃ position,
      ready σ' x = some { t with cursor := some { c with position := position } } ∧
      advance σ t c = .ok ((remaining (t.view σ.history) c).head?, position) ∧
      remaining (t.view σ.history) { c with position := position } = (remaining (t.view σ.history) c).tail := by
  obtain ⟨ht, hl, hp⟩ := ready_eq hr
  obtain ⟨hid, -⟩ := h.identities.own x t ht
  cases step_moves hs with
  | @advance _ u c' hu hc' hd =>
    cases hr.symm.trans hu
    cases hc.symm.trans hc'
    obtain ⟨position, hadvance, hremaining⟩ := advance_remaining (h.shows_live hd ht) (h.vacant ht hp) c
    unfold advanceStep
    cases hposition : c.position with
    | none =>
      have hdone : advance σ t c = .ok (none, none) := by simp [advance, hposition]
      obtain ⟨-, rfl⟩ := Prod.mk.inj (Except.ok.inj (hdone.symm.trans hadvance))
      have hsame : { t with cursor := some { c with position := none } } = t := by
        rw [← hposition, ← hc]
      exact ⟨hd, rfl, rfl, none, by rw [hsame]; exact hr, hadvance, hremaining⟩
    | some p =>
      rw [hadvance]
      refine ⟨hd, rfl, rfl, position, ?_, rfl, hremaining⟩
      exact (ready_logRead _ _).trans (ready_setTxn_self hr hid hp)

theorem view_beside (h : Inv σ) (hr : ready σ x = some t) (hs : step σ a = some σ') :
    t.view σ'.history = t.view σ.history := by
  rw [Transaction.view, Transaction.view, storeAt_step h (ready_eq hr).1 hs]

theorem CursorRun.answers_eq {answers : List (Result (Option (Bytes × Bytes)))} (hrun : CursorRun x σ answers)
    (h : runtime.Reachable σ) (hr : ready σ x = some t) (hc : t.cursor = some c) :
    answers = (List.range answers.length).map fun i => .ok (remaining (t.view σ.history) c)[i]? := by
  induction hrun generalizing t c with
  | nil => rfl
  | @beside σ σ' a answers hb hs _ ih =>
    have hinv := inv_of_reachable h
    rw [← view_beside hinv hr hs]
    exact ih (.step a h trivial hs) (ready_beside hinv hr hb hs) hc
  | @next σ σ' u d answers hu hd hs _ ih =>
    obtain rfl : t = u := Option.some.inj (hr.symm.trans hu)
    obtain rfl : c = d := Option.some.inj (hc.symm.trans hd)
    obtain ⟨-, -, hhistory, position, hready, hadvance, hremaining⟩ := step_advance (inv_of_reachable h) hr hc hs
    have hrest := ih (.step (.advance x) h trivial hs) hready rfl
    have hview : ({ t with cursor := some { c with position := position } } : Transaction).view σ'.history =
        t.view σ.history := by
      rw [hhistory]
      rfl
    rw [hview, hremaining] at hrest
    rw [hadvance, List.length_cons, List.range_succ_eq_map, List.map_cons, List.map_map, List.head?_eq_getElem?]
    refine congrArg _ (hrest.trans (List.map_congr_left fun i _ => ?_))
    simp [List.getElem?_tail]

theorem cursorRun_exists (h : runtime.Reachable σ) (hr : ready σ x = some t) (hc : t.cursor = some c)
    (hd : σ.lane.dbFree = true) (n : ℕ) : ∃ answers, answers.length = n ∧ CursorRun x σ answers := by
  induction n generalizing σ t c with
  | zero => exact ⟨[], rfl, .nil⟩
  | succ n ih =>
    have hs : step σ (.advance x) = some (advanceStep σ t c) := by simp [step, hr, hc, hd]
    obtain ⟨-, hlane, -, position, hready, -⟩ := step_advance (inv_of_reachable h) hr hc hs
    obtain ⟨answers, hlength, hrun⟩ := ih (.step (.advance x) h trivial hs) hready rfl (hlane ▸ hd)
    exact ⟨_, by rw [List.length_cons, hlength], .next hr hc hs hrun⟩

/-- A cursor opens exactly when a scan of its range succeeds. Whatever runs beside it, its answers are
the entries that a scan at the opening returns, each once and in key order, and then nothing. -/
def CursorYieldsScan (σ : State) (x : ℕ) (t : Transaction) : Prop :=
  ∀ tree start stop, ∃ entries : List (Bytes × Bytes), entries.Pairwise (fun a b => a.1 < b.1) ∧
    (∀ limit, limit ≠ 0 →
      ((∃ t', openCursor σ t tree start stop = .ok t') ↔ ∃ l, (scan σ t tree start stop limit).2 = .ok l) ∧
      ∀ l, (scan σ t tree start stop limit).2 = .ok l → l = entries.take limit) ∧
    ∀ t', openCursor σ t tree start stop = .ok t' → ∀ σ', step σ (.openCursor x tree start stop) = some σ' →
      (∀ n, ∃ answers, answers.length = n ∧ CursorRun x σ' answers) ∧
      ∀ answers, CursorRun x σ' answers → answers = (List.range answers.length).map fun i => .ok entries[i]?

theorem cursor_reads_scan (h : runtime.Reachable σ) (hr : ready σ x = some t) (hd : σ.lane.dbFree = true) :
    CursorYieldsScan σ x t := by
  have hinv := inv_of_reachable h
  obtain ⟨ht, hl, hp⟩ := ready_eq hr
  obtain ⟨hid, -⟩ := hinv.identities.own x t ht
  intro tree start stop
  refine ⟨entriesFrom (t.view σ.history) tree stop start, sorted_entries _ _ _ _, fun limit hlimit => ?_,
    fun t' hopen σ' hs => ?_⟩
  · have hcheck := hinv.checkTreeVisibleForRead_eq hd ht tree
    cases hreadable : t.readable σ.history tree with
    | false =>
      rw [hreadable] at hcheck
      simp [openCursor, scan, hcheck, bind, Except.bind]
    | true =>
      simp only [hreadable, if_true] at hcheck
      have hmerged := scan_merged (hinv.shows_live hd ht) (hinv.vacant ht hp) tree start stop limit
      by_cases hbounds : (stop.any fun e => decide (e < start)) = true
      · simp [openCursor, scan, hcheck, hlimit, hbounds, throw, throwThe, MonadExceptOf.throw]
      · have hscan : (scan σ t tree start stop limit).2 = .ok (entriesIn (t.view σ.history) tree start stop limit) := by
          simp only [scan, hcheck, hlimit, hbounds, if_false]
          exact hmerged
        have hopen : ∃ t', openCursor σ t tree start stop = .ok t' := by
          simp [openCursor, hcheck, hbounds]
        refine ⟨iff_of_true hopen ⟨_, hscan⟩, fun l hl => ?_⟩
        rw [hscan] at hl
        exact (Except.ok.inj hl).symm
  · obtain ⟨hcheck, hbounds, rfl⟩ := openCursor_eq_ok hopen
    have hstep : σ' = setTxn σ { t with
        readRanges := insert (tree, start, stop) t.readRanges, cursor := some ⟨tree, stop, some start⟩ } := by
      simpa [step, hr, hd, cursorStep, hopen] using hs.symm
    have hready : ready σ' x = some
        { t with readRanges := insert (tree, start, stop) t.readRanges, cursor := some ⟨tree, stop, some start⟩ } := by
      rw [hstep]
      exact ready_setTxn_self hr hid hp
    have hreach : runtime.Reachable σ' := .step (.openCursor x tree start stop) h trivial hs
    refine ⟨cursorRun_exists hreach hready rfl ?_, fun answers hrun => ?_⟩
    · rw [hstep]
      exact hd
    · have hanswers := hrun.answers_eq hreach hready rfl
      rw [hstep] at hanswers
      exact hanswers

/-- A reader with a staged write, whose other key is then overwritten by a commit. -/
def readerWithStagedWrite : List Action := List.flatten
  [openTree,
    [.begin, .begin, .cloneLifecycle 2 1, .resolveLifecycle 2, .put 2 1 [2] [8], .cloneLifecycle 3 1,
      .resolveLifecycle 3, .put 3 1 [1] [9], .stage 3],
    publishWave]

end OmenDb.Txn
