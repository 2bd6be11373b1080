import OmenDb.Txn.Lifecycled

/-! What clients may rely on across a whole history: no update is lost between two writers of one
key, and no commit is lost or halved by a crash. -/
namespace OmenDb.Txn

variable {σ : State} {ms : List Member} {store : VersionStore}

/-- Of two commits that wrote one key, the later one had seen the earlier one. -/
def NoLostUpdate (history : List Commit) : Prop :=
  ∀ c ∈ history, ∀ d ∈ history, ∀ l, l ∈ c.writes → l ∈ d.writes → d.csn < c.csn → d.csn ≤ c.snapshot

/-- A member of a wave has seen every other writer of its keys: validation refuses it behind a published
one, staging behind one that waits. -/
theorem WaveOk.noLostUpdate (h : WaveOk σ ms store) (hi : Inv σ) (hw : σ.lane.wave = [])
    (hold : NoLostUpdate σ.history) : NoLostUpdate (waveCommits σ.reads ms ++ σ.history) := by
  intro c hc d hd l hcl hdl hlt
  rcases List.mem_append.mp hc with hc | hc
  · obtain ⟨m, hm, rfl⟩ := mem_waveCommits.mp hc
    obtain ⟨t, ht, hp, hs⟩ := h.staged m hm
    have hvalid := validated_of_ok (h.built m hm).valid
    change l ∈ m.staged.writes at hcl
    change d.csn ≤ m.staged.snapshot
    rw [hs] at hvalid hcl ⊢
    have hdepends : t.depends l := .inr (.inl (mem_stagedOf_writes.mp hcl).1)
    rcases List.mem_append.mp hd with hd | hd
    · obtain ⟨n, hn, rfl⟩ := mem_waveCommits.mp hd
      obtain ⟨u, -, -, hu⟩ := h.staged n hn
      have hadmits := h.before hn hm hlt t ht
      change l ∈ n.staged.writes at hdl
      rw [hu] at hadmits hdl
      exact absurd hdl (hadmits.apart hdepends)
    · exact hi.quiet_depends hw ht (by simp [hp]) hvalid hdepends d hd hdl
  · rcases List.mem_append.mp hd with hd | hd
    · obtain ⟨n, hn, rfl⟩ := mem_waveCommits.mp hd
      have hnew := (h.assigned n hn).1
      have hbound := hi.sequence.bounded c hc
      change n.assigned < c.csn at hlt
      omega
    · exact hold c hc d hd l hcl hdl hlt

theorem NoLostUpdate.stores {a : Action} {S : Storage} (hi : Inv σ) (h : NoLostUpdate σ.history)
    (hs : Stores σ a S) : NoLostUpdate S.history := by
  cases hs with
  | reserved hl hr ha =>
    -- a reservation writes no key
    intro c hc d hd l hcl hdl hlt
    rcases List.mem_cons.mp hc with rfl | hc
    · simp [reservation] at hcl
    · rcases List.mem_cons.mp hd with rfl | hd
      · simp [reservation] at hdl
      · exact h c hc d hd l hcl hdl hlt
  | installed hl hok hseq him => exact hok.noLostUpdate hi (by rw [hl]; rfl) h
  | _ => exact h

/-- Along every run, the first of two concurrent writers of a key to commit wins: whoever commits to it
later took its snapshot at or after that commit. -/
theorem no_lost_update (h : runtime.Reachable σ) : NoLostUpdate σ.history :=
  storage_invariant (P := fun S => NoLostUpdate S.history) (by simp [NoLostUpdate, State.storage, State.create])
    (fun hi hP _ hs => NoLostUpdate.stores hi hP hs) h

theorem no_lost_update_readerAcrossGc :
    ∃ σ, runtime.run State.create readerAcrossGc = some σ ∧
      (σ.history.map fun c => (c.csn, c.snapshot, c.writes.keys)) =
        [(3, 2, [⟨1, [1]⟩]), (2, 0, [⟨1, [1]⟩]), (1, 0, [])] ∧ NoLostUpdate σ.history := by
  have hview : (runtime.run State.create readerAcrossGc).map (fun σ =>
      σ.history.map fun c => (c.csn, c.snapshot, c.writes.keys)) =
        some [(3, 2, [⟨1, [1]⟩]), (2, 0, [⟨1, [1]⟩]), (1, 0, [])] := by
    decide +kernel
  obtain ⟨σ, hrun, hh⟩ := Option.map_eq_some_iff.mp hview
  exact ⟨σ, hrun, hh, no_lost_update (Machine.reachable_run (.init rfl) hrun)⟩

theorem ready_begin (h : σ.lookups = ∅) : ready (begin σ) σ.nextTransaction =
    some ⟨σ.nextTransaction, σ.published, ∅, ∅, ∅, ∅, ∅, ∅, none, .active⟩ := by
  simp [ready, begin, h]

theorem get_begun (hi : Inv (begin σ)) (hd : σ.lane.dbFree = true) (hpublished : σ.published = σ.db.csn)
    {t : Transaction} (hr : ready (begin σ) σ.nextTransaction = some t) (tree : ℕ) (key : Bytes) :
    (get (begin σ) t tree key).2 =
      if liveAt σ.db.csn tree σ.history then .ok (replay σ.history)[(⟨tree, key⟩ : Loc)]?
      else .error (.treeNotFound tree) := by
  obtain ⟨ht, -, -⟩ := ready_eq hr
  have hshows := hi.shows_live hd ht
  have hcheck := hi.checkTreeVisibleForRead_eq hd ht tree
  rw [begin, OrdMap.get_insert_self] at ht
  cases ht
  have hstore : storeAt σ.published σ.history = replay σ.history :=
    storeAt_replay (hpublished ▸ hi.sequence.bounded)
  rw [Txn.get, hcheck, ← hpublished, ← hstore]
  cases hlive : liveAt σ.published tree σ.history with
  | false => simp [Transaction.readable, begin, hlive]
  | true => simpa [Transaction.readable, begin, hlive] using readKey_eq hshows ⟨tree, key⟩

/-- Whatever a crash between any two steps leaves behind, opening succeeds, and the first transaction
after it reads the outcome of every commit, in order: none is lost and none is half applied. -/
theorem crash_loses_nothing (h : runtime.Reachable σ) {durable : ℕ} (hd : σ.synced ≤ durable) :
    ∃ σ', step σ (.crash durable) = some σ' ∧ σ'.history = σ.history ∧
      ∃ t, ready (begin σ') σ'.nextTransaction = some t ∧ ∀ tree key, (get (begin σ') t tree key).2 =
        if liveAt σ.db.csn tree σ.history then .ok (replay σ.history)[(⟨tree, key⟩ : Loc)]?
        else .error (.treeNotFound tree) := by
  obtain ⟨σ', hopen⟩ :=
    (inv_of_reachable h).reopen_ok (lifecycled_of_reachable h) (controlled_of_reachable h) hd
  have hstep : step σ (.crash durable) = some σ' := by simp [step, hd, hopen, Except.toOption]
  have hafter : runtime.Reachable σ' := .step (.crash durable) h trivial hstep
  have hi := inv_of_reachable (.step .begin hafter trivial rfl)
  unfold reopen at hopen
  obtain ⟨-, -, hopen⟩ := bind_eq_ok.mp hopen
  cases hopen
  exact ⟨_, hstep, rfl, _, ready_begin rfl, get_begun hi rfl rfl (ready_begin rfl)⟩

theorem crash_loses_nothing_readerAcrossGc :
    ∃ σ σ' t, runtime.run State.create readerAcrossGc = some σ ∧ step σ (.crash 100) = some σ' ∧
      ready (begin σ') σ'.nextTransaction = some t ∧ (get (begin σ') t 1 [1]).2 = .ok (some [9]) := by
  have hview : (runtime.run State.create readerAcrossGc).map (fun σ => decide (σ.synced ≤ 100 ∧
      liveAt σ.db.csn 1 σ.history = true ∧ (replay σ.history)[(⟨1, [1]⟩ : Loc)]? = some [9])) = some true := by
    decide +kernel
  obtain ⟨σ, hrun, hσ⟩ := Option.map_eq_some_iff.mp hview
  obtain ⟨hd, hlive, hvalue⟩ := of_decide_eq_true hσ
  obtain ⟨σ', hstep, -, t, hr, hget⟩ := crash_loses_nothing (Machine.reachable_run (.init rfl) hrun) hd
  exact ⟨σ, σ', t, hrun, hstep, hr, by rw [hget, if_pos hlive, hvalue]⟩

end OmenDb.Txn
