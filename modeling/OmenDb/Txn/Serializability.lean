import OmenDb.Txn.Reachable

/-! Committed transactions are serializable in commit order: running them one at a time, oldest
first, gives every read the answer it got while they ran concurrently. -/
namespace OmenDb.Txn

/-- The store that commits leave when they run one at a time; the newest comes first. -/
def replay : List Commit → Store
  | [] => ∅
  | c :: cs => overlay (replay cs) c.writes

/-- Every read of every commit has the answer it would have had after the commits before it. -/
def SerialRun : List Commit → Prop
  | [] => True
  | c :: cs => SerialRun cs ∧ ∀ e ∈ c.reads, e.read.eval (replay cs) e.own = e.answer

theorem storeAt_skip {s : ℕ} {later : List Commit} (h : ∀ c ∈ later, s < c.csn)
    (cs : List Commit) : storeAt s (later ++ cs) = storeAt s cs := by
  induction later with
  | nil => rfl
  | cons c later ih =>
    rw [List.cons_append, storeAt, if_neg (h c List.mem_cons_self).not_ge]
    exact ih fun d hd => h d (List.mem_cons_of_mem _ hd)

theorem storeAt_replay {s : ℕ} {cs : List Commit} (h : ∀ c ∈ cs, c.csn ≤ s) :
    storeAt s cs = replay cs := by
  induction cs with
  | nil => rfl
  | cons c cs ih =>
    rw [storeAt, if_pos (h c List.mem_cons_self), ih fun d hd => h d (List.mem_cons_of_mem _ hd),
      replay]

theorem storeAt_pred {later earlier : List Commit} {c : Commit} (hpos : 0 < c.csn)
    (hs : (later ++ c :: earlier).Pairwise fun a b => b.csn < a.csn) :
    storeAt (c.csn - 1) (later ++ c :: earlier) = replay earlier := by
  obtain ⟨_, hce, hcross⟩ := List.pairwise_append.mp hs
  obtain ⟨hc, _⟩ := List.pairwise_cons.mp hce
  rw [storeAt_skip fun d hd => ?later, storeAt, if_neg (by omega),
    storeAt_replay fun d hd => Nat.le_sub_one_of_lt (hc d hd)]
  have := hcross d hd c List.mem_cons_self
  omega

theorem Serial.serialRun {history : List Commit} (h : Serial history)
    (hpos : ∀ c ∈ history, 0 < c.csn) (hs : history.Pairwise fun a b => b.csn < a.csn) :
    SerialRun history := by
  have main : ∀ later cs : List Commit, later ++ cs = history → SerialRun cs := by
    intro later cs
    induction cs generalizing later with
    | nil => exact fun _ => trivial
    | cons c cs ih =>
      intro heq
      refine ⟨ih (later ++ [c]) (by simpa using heq), fun e he => ?_⟩
      have hc : c ∈ history := by simp [← heq]
      have hread := h c hc e he
      rw [← heq] at hs hread
      rwa [storeAt_pred (hpos c hc) hs] at hread
  exact main [] history rfl

/-- In every reachable state the commits are in sequence order and every read of a committed
transaction is the one it would have made had they run one at a time in that order. -/
theorem committed_serializable {σ : State} (h : runtime.Reachable σ) :
    (σ.history.Pairwise fun a b => b.csn < a.csn) ∧ SerialRun σ.history := by
  have hi := inv_of_reachable h
  exact ⟨hi.sequence.sorted, hi.serial.serialRun hi.sequence.positive hi.sequence.sorted⟩

def publishWave : List Action :=
  [.drain, .publish .published, .publishPosition, .publishMirror, .publishStatuses, .release]

/-- The first transaction creates tree one with a single key in it. -/
def openTree : List Action := List.flatten
  [[.begin, .createTree 1 .published, .reserveMirror, .reservePublish, .put 1 1 [1] [7], .stage 1],
    publishWave, [.finish 1]]

/-- Two concurrent transactions: one scans below the key that the other, committing first, writes. -/
def scanBesideWriter : List Action := List.flatten
  [openTree,
    [.begin, .begin, .cloneLifecycle 2 1, .resolveLifecycle 2, .cloneLifecycle 3 1,
      .resolveLifecycle 3, .scan 2 1 [] (some [2]) 5, .get 2 1 [1], .put 3 1 [2] [9], .stage 3],
    publishWave, [.put 2 1 [3] [8], .stage 2], publishWave]

theorem committed_serializable_scanBesideWriter :
    ∃ σ, runtime.run State.create scanBesideWriter = some σ ∧
      (σ.history.map fun c => (c.csn, c.transaction, c.snapshot, c.reads.map (·.answer))) =
        [(4, 2, 2, [.value (some [7]), .entries [([1], [7])]]), (3, 3, 2, []), (2, 1, 0, []),
          (1, 1, 0, [])] ∧
      (σ.history.Pairwise fun a b => b.csn < a.csn) ∧ SerialRun σ.history := by
  have hview : (runtime.run State.create scanBesideWriter).map (fun σ =>
      σ.history.map fun c => (c.csn, c.transaction, c.snapshot, c.reads.map (·.answer))) =
        some [(4, 2, 2, [.value (some [7]), .entries [([1], [7])]]), (3, 3, 2, []), (2, 1, 0, []),
          (1, 1, 0, [])] := by
    decide +kernel
  obtain ⟨σ, hrun, hh⟩ := Option.map_eq_some_iff.mp hview
  exact ⟨σ, hrun, hh, committed_serializable (Machine.reachable_run (.init rfl) hrun)⟩

end OmenDb.Txn
