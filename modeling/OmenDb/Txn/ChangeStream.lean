import OmenDb.Txn.Storage
import OmenDb.Txn.Serializability

/-! The committed-change stream. Every commit sequence number leaves one change record, pruning
removes a prefix, and so the retained records always run without a gap up to the head. -/
namespace OmenDb.Txn

variable {σ σ' : State}

def oldestRetainedChange (σ : State) : Option ℕ := (σ.changes.toList.head?).map (·.1)

/-- The loop of `read_changes` over the records from `start` on, with its check of the tail. -/
def streamChanges (start limit head : ℕ) :
    List (ℕ × Change) → List (ℕ × Change) → Result (List (ℕ × Change))
  | out, [] =>
    let last := (out.getLast?).map (·.1)
    if last.elim (decide (start ≤ head)) fun c => decide (c < head) then
      let shown := last.getD start
      .error (.corruption
        s!"committed-change stream ends at CommitSeq({shown}) below the head CommitSeq({head})")
    else .ok out
  | out, (commit, change) :: rest =>
    if commit ≠ start + out.length then
      .error (.corruption s!"committed-change stream has a gap before CommitSeq({commit})")
    else if out.length + 1 = limit then .ok (out ++ [(commit, change)])
    else streamChanges start limit head (out ++ [(commit, change)]) rest

/-- `read_changes`. A record carries its commit sequence number. -/
def readChanges (σ : State) (start limit : ℕ) : Result (List (ℕ × Change)) :=
  if limit = 0 then .ok []
  else if σ.db.csn < start then .ok []
  else
    match oldestRetainedChange σ with
    | none =>
      .error (.corruption "committed-change stream has no records despite published commits")
    | some oldest =>
      if start < oldest then .error (.changesPruned start oldest)
      else streamChanges start limit σ.db.csn []
        (σ.changes.toList.filter fun p => decide (start ≤ p.1))

variable {start limit oldest : ℕ} {a : Action} {S : Storage}

theorem streamChanges_eq {head : ℕ} {out rest : List (ℕ × Change)}
    (hout : out.map (·.1) = List.range' start out.length)
    (hrest : rest.map (·.1) = List.range' (start + out.length) rest.length)
    (hend : start + out.length + rest.length = head + 1) (hlimit : out.length < limit) :
    streamChanges start limit head out rest = .ok (out ++ rest.take (limit - out.length)) := by
  induction rest generalizing out with
  | nil =>
    -- the last record taken is the head, or nothing was asked for
    have hlast : (out.getLast?).map (·.1) = (List.range' start out.length).getLast? := by
      rw [← hout, List.getLast?_map]
    have hnot : ((out.getLast?).map (·.1)).elim (decide (start ≤ head))
        (fun c => decide (c < head)) = false := by
      rw [hlast]
      rcases Nat.eq_zero_or_pos out.length with h0 | hpos
      · simp only [h0, List.length_nil] at hend
        simp only [h0, List.range'_zero, List.getLast?_nil, Option.elim_none, decide_eq_false_iff_not]
        omega
      · rw [List.getLast?_range', if_neg hpos.ne']
        simp only [List.length_nil] at hend
        simp only [Option.elim_some, decide_eq_false_iff_not]
        omega
    simp [streamChanges, hnot]
  | cons p rest ih =>
    obtain ⟨commit, change⟩ := p
    simp only [List.map_cons, List.length_cons, List.range'_succ, List.cons.injEq] at hrest
    obtain ⟨hc, hrest⟩ := hrest
    simp only [streamChanges, hc, ne_eq, not_true_eq_false, if_false]
    split
    · next hl =>
      have : limit - out.length = 1 := by omega
      simp [this]
    · next hl =>
      rw [ih]
      · have : limit - out.length = limit - (out.length + 1) + 1 := by omega
        simp [this]
      · simp [hout, List.range'_concat]
      · simpa [Nat.add_assoc] using hrest
      · simp only [List.length_append, List.length_cons, List.length_nil] at hend ⊢
        omega
      · simp only [List.length_append, List.length_cons, List.length_nil]
        omega

def Commit.change (c : Commit) : Change :=
  ⟨c.transaction, c.snapshot, c.treeLifecycles.keys.toFinset, c.writes.keys.toFinset⟩

theorem change_stagedOf (t : Transaction) (reads : OrdMap ℕ (List ReadEvent)) {m : Member}
    (hm : m.staged = stagedOf t) : m.staged.change = (m.commit reads).change := by
  have htrees : (stagedOf t).changedTrees = (stagedOf t).treeLifecycles.keys.toFinset := by
    ext tree
    rw [List.mem_toFinset, Std.ExtTreeMap.mem_keys, mem_stagedOf_lifecycles]
    exact Finset.mem_union
  have hkeys : (stagedOf t).writeKeys = (stagedOf t).writes.keys.toFinset := by
    ext l
    rw [List.mem_toFinset, Std.ExtTreeMap.mem_keys, mem_stagedOf_writeKeys]
  simp only [StagedCommit.change, Member.commit, Commit.change, hm, htrees, hkeys]

theorem change_reservation (csn x tree : ℕ) :
    (reservation csn x tree).change = ⟨x, csn, {tree}, ∅⟩ := by
  have htrees : (reservation csn x tree).treeLifecycles.keys.toFinset = {tree} := by
    ext k
    rw [List.mem_toFinset, Std.ExtTreeMap.mem_keys, mem_reservation, Finset.mem_singleton, eq_comm]
  have hkeys : (reservation csn x tree).writes.keys.toFinset = ∅ := by
    ext l
    rw [List.mem_toFinset, Std.ExtTreeMap.mem_keys]
    simp [reservation]
  rw [Commit.change, htrees, hkeys]
  rfl

structure Stream (S : Storage) : Prop where
  memory : S.db.changes = S.changes.insertAll (S.wave.map fun m => (m.assigned, m.staged.change))
  bounded : ∀ c, c ∈ S.db.changes → 0 < c ∧ c ≤ S.db.csn
  contiguous : ∀ c d, c ∈ S.db.changes → c ≤ d → d ≤ S.db.csn → d ∈ S.db.changes
  recorded : ∀ (c : ℕ) (ch : Change), S.db.changes[c]? = some ch →
    ∃ k ∈ S.history, k.csn = c ∧ k.change = ch
  leases : S.leases = S.db.leases

theorem Stream.create : Stream State.create.storage := by
  constructor <;> simp [State.create, State.storage, Lane.wave]

theorem Stream.memory_idle (h : Stream σ.storage) (hw : σ.lane.wave = []) :
    σ.db.changes = σ.changes := by simpa [hw] using h.memory

theorem Stream.extend {S : Storage} (h : Stream S) {new : List (ℕ × Change)} {history : List Commit}
    (hkeys : new.map (·.1) = List.range' (S.db.csn + 1) new.length)
    (hnew : ∀ p ∈ new, ∃ k ∈ history, k.csn = p.1 ∧ k.change = p.2) :
    (∀ c, c ∈ S.db.changes.insertAll new → 0 < c ∧ c ≤ S.db.csn + new.length) ∧
    (∀ c d, c ∈ S.db.changes.insertAll new → c ≤ d → d ≤ S.db.csn + new.length →
      d ∈ S.db.changes.insertAll new) ∧
    ∀ (c : ℕ) (ch : Change), (S.db.changes.insertAll new)[c]? = some ch →
      ∃ k ∈ history ++ S.history, k.csn = c ∧ k.change = ch := by
  have hmem : ∀ c : ℕ, (∃ ch, (c, ch) ∈ new) ↔ S.db.csn < c ∧ c ≤ S.db.csn + new.length := by
    intro c
    have : c ∈ new.map (·.1) ↔ ∃ ch, (c, ch) ∈ new := by simp
    rw [← this, hkeys, List.mem_range'_1]
    omega
  have hdistinct : new.Pairwise fun a b => a.1 ≠ b.1 := by
    have hlt : (new.map (·.1)).Pairwise (· < ·) := hkeys ▸ List.pairwise_lt_range'
    exact (List.pairwise_map.mp hlt).imp fun hab => hab.ne
  have hold : ∀ c : ℕ, c ≤ S.db.csn → (S.db.changes.insertAll new)[c]? = S.db.changes[c]? :=
    fun c hc => OrdMap.get_insertAll_of_notMem _ fun p hp hpc => by
      have := ((hmem c).mp ⟨p.2, hpc ▸ hp⟩).1
      omega
  have hin : ∀ c : ℕ, S.db.csn < c → c ≤ S.db.csn + new.length →
      ∃ ch, (c, ch) ∈ new ∧ (S.db.changes.insertAll new)[c]? = some ch := by
    intro c hlo hhi
    obtain ⟨ch, hch⟩ := (hmem c).mpr ⟨hlo, hhi⟩
    exact ⟨ch, hch, OrdMap.get_insertAll_of_mem _ hdistinct hch⟩
  have hle : ∀ c, c ∈ S.db.changes.insertAll new → c ≤ S.db.csn + new.length := by
    intro c hc
    by_contra hgt
    obtain ⟨ch, hch⟩ := (OrdMap.mem_iff_get _ _).mp hc
    rw [OrdMap.get_insertAll_of_notMem _ fun p hp hpc => by
      have := ((hmem c).mp ⟨p.2, hpc ▸ hp⟩).2
      omega] at hch
    have := (h.bounded c ((OrdMap.mem_iff_get _ _).mpr ⟨ch, hch⟩)).2
    omega
  refine ⟨fun c hc => ⟨?_, hle c hc⟩, fun c d hc hcd hd => ?_, fun c ch hch => ?_⟩
  · rcases Nat.lt_or_ge S.db.csn c with hlt | hge
    · omega
    · rw [OrdMap.mem_iff_get, hold c hge, ← OrdMap.mem_iff_get] at hc
      exact (h.bounded c hc).1
  · rcases Nat.lt_or_ge S.db.csn d with hlt | hge
    · obtain ⟨ch, -, hch⟩ := hin d hlt hd
      exact (OrdMap.mem_iff_get _ _).mpr ⟨ch, hch⟩
    · rw [OrdMap.mem_iff_get, hold c (hcd.trans hge), ← OrdMap.mem_iff_get] at hc
      rw [OrdMap.mem_iff_get, hold d hge, ← OrdMap.mem_iff_get]
      exact h.contiguous c d hc hcd hge
  · rcases Nat.lt_or_ge S.db.csn c with hlt | hge
    · obtain ⟨ch', hmem', hch'⟩ := hin c hlt (hle c ((OrdMap.mem_iff_get _ _).mpr ⟨ch, hch⟩))
      rw [hch'] at hch
      cases hch
      obtain ⟨k, hk, hkc⟩ := hnew _ hmem'
      exact ⟨k, List.mem_append_left _ hk, hkc⟩
    · rw [hold c hge] at hch
      obtain ⟨k, hk, hkc⟩ := h.recorded c ch hch
      exact ⟨k, List.mem_append_right _ hk, hkc⟩

theorem Stream.stores (h : Stream σ.storage) (hs : Stores σ a S) : Stream S := by
  cases hs with
  | same => exact h
  | appended _ _ _ _ | compacted _ => exact ⟨h.memory, h.bounded, h.contiguous, h.recorded, h.leases⟩
  | @reserved x t undo store hl hr ha =>
    have hw : σ.lane.wave = [] := by rw [hl]; rfl
    obtain ⟨hb, hc, hr⟩ := @Stream.extend _ h [(σ.db.csn + 1, ⟨x, σ.db.csn, {σ.nextTree}, ∅⟩)]
      [reservation σ.db.csn x σ.nextTree] rfl fun p hp => by
        rw [List.mem_singleton] at hp
        subst hp
        exact ⟨_, List.mem_singleton_self _, rfl, change_reservation _ _ _⟩
    refine ⟨?_, hb, hc, hr, h.leases⟩
    simp [Db.reserve, h.memory_idle hw, hw]
  | @installed queue ms store hl hok hseq _ =>
    have hw : σ.lane.wave = [] := by rw [hl]; rfl
    obtain ⟨hb, hc, hr⟩ := @Stream.extend _ h
      (ms.map fun m => (m.assigned, m.staged.change)) (waveCommits σ.reads ms) (by simpa [Function.comp_def] using hseq)
        fun p hp => by
        obtain ⟨m, hm, rfl⟩ := List.mem_map.mp hp
        obtain ⟨t, -, -, hst⟩ := hok.staged m hm
        exact ⟨m.commit σ.reads, mem_waveCommits.mpr ⟨m, hm, rfl⟩, rfl,
          (change_stagedOf t σ.reads hst).symm⟩
    rw [List.length_map] at hb hc
    refine ⟨?_, ?_, ?_, ?_, ?_⟩
    · dsimp only
      rw [commitGroup_changes]
      rw [State.storage_changes, ← h.memory_idle hw]
    · dsimp only
      rw [commitGroup_changes, commitGroup_csn]
      exact hb
    · dsimp only
      rw [commitGroup_changes, commitGroup_csn]
      exact hc
    · dsimp only
      rw [commitGroup_changes]
      exact hr
    · dsimp only
      rw [(commitGroup_rest σ.db ms).1]
      exact h.leases
  | @settled ms hl =>
    have hm := h.memory
    simp only [State.storage, hl, Lane.wave] at hm
    exact ⟨hm, h.bounded, h.contiguous, h.recorded, h.leases⟩
  | @collected plan hl hp =>
    obtain ⟨hcsn, hch, hle⟩ := @apply_rest σ plan
    refine ⟨?_, ?_, ?_, ?_, ?_⟩
    · dsimp only
      rw [hch]
      exact h.memory
    · dsimp only
      rw [hch, hcsn]
      exact h.bounded
    · dsimp only
      rw [hch, hcsn]
      exact h.contiguous
    · dsimp only
      rw [hch]
      exact h.recorded
    · dsimp only
      rw [hle]
      exact h.leases
  | @pruned oldest floor _ hl hf =>
    have hw : σ.lane.wave = [] := by rw [hl]; rfl
    have hget : ∀ c, c ∈ (σ.db.changes.filter fun c _ => decide (floor ≤ c)) ↔
        c ∈ σ.db.changes ∧ floor ≤ c := by
      intro c
      simp [OrdMap.mem_iff_get, Option.filter_eq_some_iff]
    refine ⟨?_, fun c hc => h.bounded c ((hget c).mp hc).1, fun c d hc hcd hd => ?_,
      fun c ch hch => ?_, h.leases⟩
    · simp [h.memory_idle hw, hw]
    · obtain ⟨hc, hfloor⟩ := (hget c).mp hc
      exact (hget d).mpr ⟨h.contiguous c d hc hcd hd, hfloor.trans hcd⟩
    · rw [OrdMap.get_filter, Option.filter_eq_some_iff] at hch
      exact h.recorded c ch hch.1
  | leased _ _ _ | released _ =>
    have hle : σ.leases = σ.db.leases := h.leases
    exact ⟨h.memory, h.bounded, h.contiguous, h.recorded, by simp [hle]⟩
  | reopened _ _ => exact ⟨rfl, h.bounded, h.contiguous, h.recorded, rfl⟩

theorem stream_of_reachable (h : runtime.Reachable σ) : Stream σ.storage :=
  storage_invariant Stream.create (fun _ hP _ hS => hP.stores hS) h

/-- A step takes a change record away, from disk or from memory. -/
def Removed (σ σ' : State) (c : ℕ) : Prop :=
  c ∈ σ.db.changes ∧ c ∉ σ'.db.changes ∨ c ∈ σ.changes ∧ c ∉ σ'.changes

theorem Stores.removed (h : Stream σ.storage) (hs : Stores σ a S)
    {c : ℕ} (hc : c ∈ σ.db.changes ∧ c ∉ S.db.changes ∨ c ∈ σ.changes ∧ c ∉ S.changes) :
    c ∈ σ.db.changes ∧ ∃ oldest floor, σ.lane = .sampled oldest ∧
      changeFloor σ oldest = some floor ∧ c < floor := by
  have keeps : ∀ {m : OrdMap ℕ Change} {ps : List (ℕ × Change)}, c ∈ m → c ∈ m.insertAll ps := by
    intro m ps hm
    induction ps generalizing m with
    | nil => exact hm
    | cons p ps ih => exact ih (Std.ExtTreeMap.mem_insert.mpr (.inr hm))
  have hmem : c ∈ σ.changes → c ∈ σ.db.changes := fun hm => h.memory ▸ keeps hm
  cases hs with
  | same | appended _ _ _ _ | compacted _ | leased _ _ _ | released _ => simp at hc
  | reserved _ _ _ =>
    have hn : ∀ {m : OrdMap ℕ Change} {k : ℕ} {v : Change}, c ∈ m → c ∈ m.insert k v :=
      fun hm => Std.ExtTreeMap.mem_insert.mpr (.inr hm)
    rcases hc with ⟨hin, hout⟩ | ⟨hin, hout⟩
    · exact absurd (hn hin) hout
    · exact absurd (hn hin) hout
  | installed _ _ _ _ =>
    rcases hc with ⟨hin, hout⟩ | ⟨hin, hout⟩
    · dsimp only at hout
      rw [commitGroup_changes] at hout
      exact absurd (keeps hin) hout
    · exact absurd hin hout
  | settled _ =>
    rcases hc with ⟨hin, hout⟩ | ⟨hin, hout⟩
    · exact absurd hin hout
    · exact absurd (keeps hin) hout
  | @collected plan _ _ =>
    dsimp only at hc
    rw [(@apply_rest σ plan).2.1] at hc
    simp at hc
  | @pruned oldest floor _ hl hf =>
    have hlt : ∀ {m : OrdMap ℕ Change}, c ∈ m → c ∉ (m.filter fun c _ => decide (floor ≤ c)) →
        c < floor := by
      intro m hin hout
      by_contra hge
      obtain ⟨v, hv⟩ := (OrdMap.mem_iff_get _ _).mp hin
      refine hout ((OrdMap.mem_iff_get _ _).mpr ⟨v, ?_⟩)
      rw [OrdMap.get_filter, hv]
      simpa using hge
    rcases hc with ⟨hin, hout⟩ | ⟨hin, hout⟩
    · exact ⟨hin, oldest, floor, hl, hf, hlt hin hout⟩
    · exact ⟨hmem hin, oldest, floor, hl, hf, hlt hin hout⟩
  | reopened _ _ =>
    rcases hc with ⟨hin, hout⟩ | ⟨hin, hout⟩
    · exact absurd hin hout
    · exact absurd (hmem hin) hout

theorem Stores.floor_le (h : Stream σ.storage) (hs : Stores σ a S)
    {name : Bytes} {f f' : ℕ} (hf : σ.leases[name]? = some f) (hf' : S.leases[name]? = some f') :
    f ≤ f' := by
  have same : σ.leases[name]? = some f' → f ≤ f' := fun heq => by
    rw [hf] at heq
    cases heq
    exact le_rfl
  have hle : σ.leases = σ.db.leases := h.leases
  cases hs with
  | leased _ _ hup =>
    dsimp only at hf'
    rw [OrdMap.get_insert] at hf'
    split at hf'
    · next heq =>
      cases hf'
      exact hup f (heq ▸ hf)
    · exact same hf'
  | released _ =>
    dsimp only at hf'
    rw [OrdMap.get_erase] at hf'
    split at hf'
    · cases hf'
    · exact same hf'
  | reopened _ _ => exact same (hle ▸ hf')
  | _ => exact same hf'

/-- Whatever the interleaving, no step takes away a change record at or above the floor of a live
lease, or one that a live snapshot precedes, and the floor of a lease never moves back. -/
theorem change_records_retained (h : runtime.Reachable σ) {a : Action} (hs : step σ a = some σ') :
    (∀ c, Removed σ σ' c →
      (∀ (name : Bytes) (f : ℕ), σ.leases[name]? = some f → c < f) ∧
      ∀ (x : ℕ) (t : Transaction), σ.transactions[x]? = some t →
        ¬ (t.snapshot < c ∧ c ≤ σ.db.csn)) ∧
    ∀ (name : Bytes) (f f' : ℕ), σ.leases[name]? = some f → σ'.leases[name]? = some f' →
      f ≤ f' := by
  have hi := inv_of_reachable h
  have hst := stream_of_reachable h
  have hS := hi.stores hs
  refine ⟨fun c hc => ?_, fun name f f' hf hf' => hS.floor_le hst hf hf'⟩
  obtain ⟨-, oldest, floor, hl, hfloor, hlt⟩ := hS.removed hst hc
  refine ⟨fun name f hf => hlt.trans_le (changeFloor_le_lease hfloor hf), fun x t ht hbetween => ?_⟩
  have := (sampled_of_reachable h).spares hi hl hfloor ht hbetween.1 hbetween.2
  omega

/-- A lease pins the second commit; a transaction begins between the sampling and the pruning. -/
def beginWhilePruning : List Action := List.flatten
  [openTree, [.acquireLease [5] 2, .gcSample, .begin]]

theorem change_records_retained_beginWhilePruning :
    ∃ σ σ', runtime.run State.create beginWhilePruning = some σ ∧ step σ .gcChanges = some σ' ∧
      Removed σ σ' 1 ∧ σ.leases[([5] : Bytes)]? = some 2 ∧ (σ.transactions[2]?).isSome ∧
      (∀ f : ℕ, σ.leases[([5] : Bytes)]? = some f → 1 < f) ∧
      ∀ t : Transaction, σ.transactions[2]? = some t → ¬ (t.snapshot < 1 ∧ 1 ≤ σ.db.csn) := by
  have hview : (runtime.run State.create beginWhilePruning).map (fun σ =>
      (step σ .gcChanges).map fun σ' =>
        decide (1 ∈ σ.db.changes ∧ 1 ∉ σ'.db.changes ∧ σ.leases[([5] : Bytes)]? = some 2 ∧
          (σ.transactions[2]?).isSome = true)) = some (some true) := by
    decide +kernel
  obtain ⟨σ, hrun, hσ⟩ := Option.map_eq_some_iff.mp hview
  obtain ⟨σ', hst, hd⟩ := Option.map_eq_some_iff.mp hσ
  obtain ⟨hin, hout, hf, ht⟩ := of_decide_eq_true hd
  have hrem : Removed σ σ' 1 := .inl ⟨hin, hout⟩
  have hmain := (change_records_retained (Machine.reachable_run (.init rfl) hrun) hst).1 1 hrem
  exact ⟨σ, σ', hrun, hst, hrem, hf, ht, hmain.1 [5], hmain.2 2⟩

/-- The answers `read_changes` owes its caller. -/
structure ChangeSpec (σ : State) (start limit : ℕ) : Prop where
  beyond : σ.db.csn < start → readChanges σ start limit = .ok []
  pruned : start ≤ σ.db.csn → ∀ oldest, oldestRetainedChange σ = some oldest → start < oldest →
    readChanges σ start limit = .error (.changesPruned start oldest)
  retained : start ≤ σ.db.csn → (∀ oldest, oldestRetainedChange σ = some oldest → oldest ≤ start) →
    ∃ l, readChanges σ start limit = .ok l ∧
      l.map (·.1) = List.range' start (min (σ.db.csn + 1 - start) limit) ∧
      ∀ p ∈ l, ∃ c ∈ σ.history, c.csn = p.1 ∧ c.change = p.2
  sound : (readChanges σ start limit).isCorruption = false

def keepsHead (σ : State) : Action → Bool
  | .gcChanges =>
    match σ.lane with
    | .sampled oldest =>
      (changeFloor σ oldest).all fun floor => decide (σ.db.csn = 0 ∨ floor ≤ σ.db.csn)
    | _ => true
  | _ => true

theorem head_retained (h : runtime.Reach (fun σ a => keepsHead σ a = true) σ) :
    σ.db.csn = 0 ∨ σ.db.csn ∈ σ.db.changes := by
  refine storage_invariant (P := fun S => S.db.csn = 0 ∨ S.db.csn ∈ S.db.changes) (.inl rfl) ?_ h
  intro σ a S hi hP hg hs
  cases hs with
  | reserved _ _ _ => exact .inr (Std.ExtTreeMap.mem_insert_self)
  | @installed _ ms _ _ hok hseq _ =>
    dsimp only
    rw [commitGroup_csn, commitGroup_changes]
    rcases List.eq_nil_or_concat ms with rfl | ⟨init, m, rfl⟩
    · simpa using hP
    · -- the last member of the wave has the new head
      have hm : m.assigned = σ.db.csn + (init.concat m).length := by
        simp only [List.concat_eq_append, List.map_append, List.map_cons, List.map_nil,
          List.length_append, List.length_cons, List.length_nil, List.range'_concat] at hseq
        have := (List.append_inj' hseq rfl).2
        simp only [List.cons.injEq, and_true] at this
        simp only [List.concat_eq_append, List.length_append, List.length_cons, List.length_nil]
        omega
      refine .inr ((OrdMap.mem_iff_get _ _).mpr ⟨m.staged.change, ?_⟩)
      refine OrdMap.get_insertAll_of_mem _ ?_ (List.mem_map.mpr ⟨m, by simp, by rw [hm]⟩)
      rw [List.pairwise_map]
      exact hok.ordered.imp fun hab => hab.1.ne
  | @collected plan _ _ =>
    obtain ⟨hcsn, hch, -⟩ := @apply_rest σ plan
    dsimp only
    rw [hcsn, hch]
    exact hP
  | @pruned oldest floor ha hl hf =>
    subst ha
    have hg : σ.db.csn = 0 ∨ floor ≤ σ.db.csn := by simpa [keepsHead, hl, hf] using hg
    rcases hP with h0 | hmem
    · exact .inl h0
    · refine hg.imp id fun hle => ?_
      obtain ⟨ch, hch⟩ := (OrdMap.mem_iff_get _ _).mp hmem
      refine (OrdMap.mem_iff_get _ _).mpr ⟨ch, ?_⟩
      change (σ.db.changes.filter _)[σ.db.csn]? = some ch
      rw [OrdMap.get_filter]
      change (σ.db.changes[σ.db.csn]?).filter _ = some ch
      rw [show σ.db.changes[σ.db.csn]? = some ch from hch]
      simpa using hle
  | _ => exact hP

theorem oldestRetainedChange_eq_some (h : oldestRetainedChange σ = some oldest) :
    oldest ∈ σ.changes ∧ ∀ c, c ∈ σ.changes → oldest ≤ c := by
  obtain ⟨p, hp, rfl⟩ := Option.map_eq_some_iff.mp h
  obtain ⟨rest, hl⟩ := List.head?_eq_some_iff.mp hp
  have hsorted := σ.changes.sorted_toList
  rw [hl] at hsorted
  have hmem : ∀ c v, (c, v) ∈ σ.changes.toList ↔ σ.changes[c]? = some v := OrdMap.mem_toList _
  refine ⟨(OrdMap.mem_iff_get _ _).mpr ⟨p.2, (hmem _ _).mp (by simp [hl])⟩, fun c hc => ?_⟩
  obtain ⟨v, hv⟩ := (OrdMap.mem_iff_get _ _).mp hc
  have hin := (hmem c v).mpr hv
  rw [hl] at hin
  rcases List.mem_cons.mp hin with rfl | hin
  · exact le_rfl
  · exact ((List.pairwise_cons.mp hsorted).1 _ hin).le

theorem oldestRetainedChange_eq_none (h : oldestRetainedChange σ = none) (c : ℕ) : c ∉ σ.changes := by
  intro hc
  obtain ⟨v, hv⟩ := (OrdMap.mem_iff_get _ _).mp hc
  have hnil : σ.changes.toList = [] := List.head?_eq_none_iff.mp (Option.map_eq_none_iff.mp h)
  have := (OrdMap.mem_toList σ.changes c v).mpr hv
  simp [hnil] at this

theorem eq_range'_of_sorted {l : List ℕ} {lo n : ℕ} (hs : l.Pairwise (· < ·))
    (hm : ∀ c, c ∈ l ↔ lo ≤ c ∧ c < lo + n) : l = List.range' lo n := by
  have hperm : l.Perm (List.range' lo n) :=
    (List.perm_ext_iff_of_nodup (hs.imp ne_of_lt) (List.nodup_range')).mpr fun c => by
      rw [hm, List.mem_range'_1]
  exact hperm.eq_of_pairwise (fun a b _ _ hab hba => absurd (hab.trans hba) (lt_irrefl a)) hs
    List.pairwise_lt_range'

theorem Stream.retained_keys (h : Stream σ.storage) (hw : σ.lane.wave = [])
    (ho : oldestRetainedChange σ = some oldest) (hle : oldest ≤ start) :
    (σ.changes.toList.filter fun p => decide (start ≤ p.1)).map (·.1) =
      List.range' start (σ.db.csn + 1 - start) := by
  have hmem := h.memory_idle hw
  refine eq_range'_of_sorted ?_ fun c => ?_
  · exact List.pairwise_map.mpr (σ.changes.sorted_toList.sublist List.filter_sublist)
  · have hiff : c ∈ (σ.changes.toList.filter fun p => decide (start ≤ p.1)).map (·.1) ↔
        start ≤ c ∧ c ∈ σ.changes := by
      simp only [List.mem_map, List.mem_filter, decide_eq_true_eq, OrdMap.mem_iff_get σ.changes c]
      constructor
      · rintro ⟨p, ⟨hp, hs⟩, rfl⟩
        exact ⟨hs, p.2, (OrdMap.mem_toList _ _ _).mp hp⟩
      · rintro ⟨hs, v, hv⟩
        exact ⟨(c, v), ⟨(OrdMap.mem_toList _ _ _).mpr hv, hs⟩, rfl⟩
    rw [hiff]
    constructor
    · rintro ⟨hs, hc⟩
      have := (h.bounded c (hmem ▸ hc)).2
      simp only [State.storage_db] at this
      omega
    · rintro ⟨hs, hc⟩
      refine ⟨hs, ?_⟩
      rw [← hmem]
      have hold : oldest ∈ σ.db.changes := hmem ▸ (oldestRetainedChange_eq_some ho).1
      exact h.contiguous oldest c hold (hle.trans hs) (by simp only [State.storage_db]; omega)

theorem Stream.readChanges_retained (h : Stream σ.storage) (hw : σ.lane.wave = []) (hl : 0 < limit)
    (hs : start ≤ σ.db.csn) (ho : oldestRetainedChange σ = some oldest) (hle : oldest ≤ start) :
    ∃ l, readChanges σ start limit = .ok l ∧
      l.map (·.1) = List.range' start (min (σ.db.csn + 1 - start) limit) ∧
      ∀ p ∈ l, ∃ c ∈ σ.history, c.csn = p.1 ∧ c.change = p.2 := by
  have hkeys := h.retained_keys hw ho hle
  have hread : readChanges σ start limit = streamChanges start limit σ.db.csn []
      (σ.changes.toList.filter fun p => decide (start ≤ p.1)) := by
    simp only [readChanges, hl.ne', if_false, Nat.not_lt.mpr hs, ho, Nat.not_lt.mpr hle]
  generalize hrest : (σ.changes.toList.filter fun p => decide (start ≤ p.1)) = rest at hkeys hread
  have hlen : rest.length = σ.db.csn + 1 - start := by
    simpa using congrArg List.length hkeys
  rw [streamChanges_eq rfl (by simpa [hlen] using hkeys) (by simp only [List.length_nil]; omega) hl]
    at hread
  refine ⟨_, hread, ?_, fun p hp => ?_⟩
  · rw [List.nil_append, List.map_take, hkeys, List.length_nil, Nat.sub_zero]
    exact List.ext_getElem (by simp [Nat.min_comm]) fun i _ _ => by simp
  · have hp : p ∈ rest := List.mem_of_mem_take (by simpa using hp)
    rw [← hrest, List.mem_filter] at hp
    have hget := (OrdMap.mem_toList σ.changes p.1 p.2).mp hp.1
    rw [← h.memory_idle hw] at hget
    exact h.recorded p.1 p.2 hget

/-- Reads that the stream answers as it should: at least one record is asked for, or none that
lies below the retained ones, and commit zero is not asked for before there is a commit. -/
def Asks (σ : State) (start limit : ℕ) : Prop :=
  (limit = 0 → σ.db.csn < start ∨ ∀ oldest, oldestRetainedChange σ = some oldest → oldest ≤ start) ∧
  (0 < limit → 0 < start ∨ 0 < σ.db.csn)

theorem Stream.changeSpec_iff (h : Stream σ.storage) (hw : σ.lane.wave = [])
    (hhead : σ.db.csn = 0 ∨ σ.db.csn ∈ σ.db.changes) (start limit : ℕ) :
    ChangeSpec σ start limit ↔ Asks σ start limit := by
  rcases Nat.eq_zero_or_pos limit with rfl | hl
  · -- nothing is asked for
    have hread : readChanges σ start 0 = .ok [] := rfl
    constructor
    · intro hspec
      refine ⟨fun _ => ?_, fun hpos => absurd hpos (lt_irrefl 0)⟩
      rcases Nat.lt_or_ge σ.db.csn start with hlt | hge
      · exact .inl hlt
      · refine .inr fun oldest ho => ?_
        by_contra hlt
        have := hspec.pruned hge oldest ho (by omega)
        rw [hread] at this
        cases this
    · rintro ⟨hasks, -⟩
      refine ⟨fun _ => hread, fun hle oldest ho hlt => ?_, fun _ _ => ⟨[], hread, by simp, by simp⟩,
        rfl⟩
      rcases hasks rfl with hgt | hold
      · omega
      · have := hold oldest ho
        omega
  rcases Nat.lt_or_ge σ.db.csn start with hlt | hle
  · -- beyond the head
    have hread : readChanges σ start limit = .ok [] := by
      simp only [readChanges, hl.ne', if_false, hlt, if_true]
    have hpos : 0 < start := by omega
    exact ⟨fun _ => ⟨fun h0 => absurd h0 hl.ne', fun _ => .inl hpos⟩, fun _ =>
      ⟨fun _ => hread, fun hge => absurd hge (by omega), fun hge => absurd hge (by omega),
        by rw [hread]; rfl⟩⟩
  cases ho : oldestRetainedChange σ with
  | none =>
    -- only a database without commits has no record of its head
    have hzero : σ.db.csn = 0 := by
      rcases hhead with h0 | hmem
      · exact h0
      · exact absurd (h.memory_idle hw ▸ hmem) (oldestRetainedChange_eq_none ho _)
    have hread : (readChanges σ start limit).isCorruption = true := by
      simp only [readChanges, hl.ne', if_false, Nat.not_lt.mpr hle, ho]
      rfl
    constructor
    · intro hspec
      have := hspec.sound
      rw [hread] at this
      cases this
    · rintro ⟨-, hasks⟩
      have := hasks hl
      omega
  | some oldest =>
    have hbound := h.bounded oldest (h.memory_idle hw ▸ (oldestRetainedChange_eq_some ho).1)
    simp only [State.storage_db] at hbound
    have hasks : Asks σ start limit :=
      ⟨fun h0 => absurd h0 hl.ne', fun _ => .inr (hbound.1.trans_le hbound.2)⟩
    refine iff_of_true ?_ hasks
    rcases Nat.lt_or_ge start oldest with hlt | hge
    · have hread : readChanges σ start limit = .error (.changesPruned start oldest) := by
        simp only [readChanges, hl.ne', if_false, Nat.not_lt.mpr hle, ho, hlt, if_true]
      refine ⟨fun hgt => absurd hgt (by omega), fun _ o ho' _ => ?_, fun _ hold => ?_, by rw [hread]; rfl⟩
      · rw [ho] at ho'
        cases ho'
        exact hread
      · have := hold oldest ho
        omega
    · obtain ⟨l, hread, hkeys, hrec⟩ := h.readChanges_retained hw hl hle ho hge
      refine ⟨fun hgt => absurd hgt (by omega), fun _ o ho' hlt => ?_, fun _ _ =>
        ⟨l, hread, hkeys, hrec⟩, by rw [hread]; rfl⟩
      rw [ho] at ho'
      cases ho'
      omega

/-- While change collections spare the head, the stream answers exactly the reads above; a
collection that does not leaves a state in which reading the head reports corruption. -/
theorem change_stream_exact (σ : State) :
    (runtime.Reach (fun σ a => keepsHead σ a = true) σ → σ.lane.dbFree = true →
      ∀ start limit, ChangeSpec σ start limit ↔ Asks σ start limit) ∧
    ∀ σ', runtime.Reachable σ → step σ .gcChanges = some σ' → keepsHead σ .gcChanges = false →
      ¬ ChangeSpec σ' σ'.db.csn 1 := by
  constructor
  · intro hr hd start limit
    exact (stream_of_reachable hr.reachable).changeSpec_iff (wave_of_dbFree hd) (head_retained hr) _ _
  · intro σ' hr hs hk hspec
    have hst := stream_of_reachable hr
    have hw : ∀ c, c ∉ σ'.changes := by
      cases step_moves hs with
      | @gcChanges oldest hl =>
        cases hf : changeFloor σ oldest with
        | none => simp [keepsHead, hl, hf] at hk
        | some floor =>
          have hlt : σ.db.csn < floor := by
            simp [keepsHead, hl, hf] at hk
            omega
          have hmem := hst.memory_idle (by rw [hl]; rfl)
          intro c hc
          simp only [gcChanges, hf] at hc
          obtain ⟨ch, hch⟩ := (OrdMap.mem_iff_get _ _).mp hc
          rw [OrdMap.get_filter, Option.filter_eq_some_iff] at hch
          have hle := (hst.bounded c ((OrdMap.mem_iff_get _ _).mpr ⟨ch, hmem ▸ hch.1⟩)).2
          have hge : floor ≤ c := by simpa using hch.2
          simp only [State.storage_db] at hle
          omega
    have hnone : oldestRetainedChange σ' = none := by
      cases ho : oldestRetainedChange σ' with
      | none => rfl
      | some oldest => exact absurd (oldestRetainedChange_eq_some ho).1 (hw _)
    have hsound := hspec.sound
    simp only [readChanges, Nat.one_ne_zero, if_false, lt_irrefl, hnone] at hsound
    cases hsound

/-- A lease floor at the head: the record of the first commit goes. -/
def pruneToHead : List Action := List.flatten
  [openTree, [.acquireLease [5] 2, .gcSample, .gcChanges]]

def sampleBeyondHead : List Action := List.flatten [openTree, [.acquireLease [5] 9, .gcSample]]

theorem change_stream_exact_pruneToHead :
    (∃ σ, runtime.runWhere keepsHead State.create pruneToHead = some σ ∧
      oldestRetainedChange σ = some 2 ∧ ChangeSpec σ 1 4 ∧ ChangeSpec σ 2 4 ∧ ChangeSpec σ 3 4) ∧
    ∃ σ σ', runtime.run State.create sampleBeyondHead = some σ ∧ step σ .gcChanges = some σ' ∧
      ¬ ChangeSpec σ' σ'.db.csn 1 := by
  constructor
  · have hview : (runtime.runWhere keepsHead State.create pruneToHead).map (fun σ =>
        decide (σ.lane.dbFree = true ∧ oldestRetainedChange σ = some 2 ∧ σ.db.csn = 2)) =
        some true := by
      decide +kernel
    obtain ⟨σ, hrun, hσ⟩ := Option.map_eq_some_iff.mp hview
    obtain ⟨hd, ho, hcsn⟩ := of_decide_eq_true hσ
    have hasks : ∀ start, Asks σ start 4 := fun start => ⟨nofun, fun _ => .inr (by omega)⟩
    have hexact := (change_stream_exact σ).1
      (Machine.reach_runWhere (fun _ _ hok => hok) (.init rfl) hrun) hd
    exact ⟨σ, hrun, ho, (hexact 1 4).mpr (hasks 1), (hexact 2 4).mpr (hasks 2),
      (hexact 3 4).mpr (hasks 3)⟩
  · have hview : (runtime.run State.create sampleBeyondHead).map (fun σ =>
        ((step σ .gcChanges).map fun _ => keepsHead σ .gcChanges)) = some (some false) := by
      decide +kernel
    obtain ⟨σ, hrun, hσ⟩ := Option.map_eq_some_iff.mp hview
    obtain ⟨σ', hst, hk⟩ := Option.map_eq_some_iff.mp hσ
    exact ⟨σ, σ', hrun, hst,
      (change_stream_exact σ).2 σ' (Machine.reachable_run (.init rfl) hrun) hst hk⟩

/-- Two commits are published, a lease starts at nine and change collection runs: reading the
published commits reports corruption. -/
theorem change_stream_corrupt_sampleBeyondHead :
    ∃ σ, runtime.run State.create (sampleBeyondHead.concat .gcChanges) = some σ ∧
      runtime.Reachable σ ∧ σ.lane.dbFree = true ∧ σ.db.csn = 2 ∧
      (readChanges σ 1 1).isCorruption = true ∧ (readChanges σ 2 1).isCorruption = true := by
  have hview : (runtime.run State.create (sampleBeyondHead.concat .gcChanges)).map (fun σ =>
      decide (σ.lane.dbFree = true ∧ σ.db.csn = 2 ∧ (readChanges σ 1 1).isCorruption = true ∧
        (readChanges σ 2 1).isCorruption = true)) = some true := by
    decide +kernel
  obtain ⟨σ, hrun, hσ⟩ := Option.map_eq_some_iff.mp hview
  exact ⟨σ, hrun, Machine.reachable_run (.init rfl) hrun, of_decide_eq_true hσ⟩

end OmenDb.Txn
