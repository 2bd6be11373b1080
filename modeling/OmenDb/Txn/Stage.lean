import OmenDb.Txn.State

/-! Staging a commit: conflicts with unpublished work are decided here, against the keys and trees
of queued and publishing commits. Writes are compared with written keys and drops with changed
trees; a write is not compared with changed trees. -/
namespace OmenDb.Txn

def maxChangeRecordBytes : ℕ := 16 * 1024 * 1024

def changeRecordBytes (trees : Finset ℕ) (writes : Finset Loc) : ℕ :=
  24 + 8 * trees.card + 4 + ∑ l ∈ writes, (12 + l.key.length)

/-- `encode_change_body` as an admission check. -/
def encodeChangeBody (trees : Finset ℕ) (writes : Finset Loc) : Result Unit :=
  if 2 ^ 32 ≤ trees.card then .error (.invalidArgument "too many changed trees")
  else if 2 ^ 32 ≤ writes.card then .error (.invalidArgument "too many transaction writes")
  else if ∃ l ∈ writes, 2 ^ 32 ≤ l.key.length then
    .error (.invalidArgument "transaction key is too large")
  else if maxChangeRecordBytes < changeRecordBytes trees writes then
    .error (.invalidArgument "transaction change record exceeds the size limit")
  else .ok ()

/-- `reject_unpublished_conflicts`. A phantom or overwritten point read names the transaction's
own snapshot on both sides, since the unpublished writer has no sequence number yet. -/
def rejectUnpublishedConflicts (t : Transaction) (index : Unpublished) : Result Unit := do
  match t.writes.keys.find? fun l => decide (l ∈ index.keys) with
  | some l => throw (.writeConflict l.tree l.key)
  | none => pure ()
  match (t.dropped.sort (· ≤ ·)).find? fun tree => decide (tree ∈ index.trees) with
  | some tree => throw (.treeConflict tree)
  | none => pure ()
  if ∃ r ∈ t.readRanges, ∃ l ∈ index.keys, r.covers l = true then
    throw (.serializationConflict t.snapshot t.snapshot)
  if ∃ l ∈ t.pointReads, l ∈ index.keys then
    throw (.serializationConflict t.snapshot t.snapshot)

/-- A point read of a key the commit also writes is subsumed by the write check on that key. -/
def pruneReads (t : Transaction) : Transaction :=
  { t with pointReads := t.pointReads.filter fun l => (t.writes[l]?).isNone }

/-- The queue entry of a transaction: writes into trees it drops are left out. -/
def stagedOf (t : Transaction) : StagedCommit where
  transaction := t.id
  snapshot := t.snapshot
  writes := t.writes.filter fun l _ => decide (l.tree ∉ t.dropped)
  treeLifecycles := (((t.created ∪ t.dropped).sort (· ≤ ·)).foldl
    (fun m tree => m.insert tree (if tree ∈ t.dropped then treeDropped else treeLive)) ∅)
  readRanges := t.readRanges
  pointReads := t.pointReads
  changedTrees := t.created ∪ t.dropped
  writeKeys := (t.writes.keys.filter fun l => decide (l.tree ∉ t.dropped)).toFinset

/-- `stage_commit`. A conflict leaves the queue untouched; the pruning of point reads stays. -/
def stageCommit (σ : State) (t : Transaction) : State × Result Unit :=
  let t := pruneReads t
  let staged := stagedOf t
  let outcome := do
    rejectUnpublishedConflicts t σ.prepare
    rejectUnpublishedConflicts t σ.publishing
    encodeChangeBody staged.changedTrees staged.writeKeys
  match outcome with
  | .error e => ({ σ with transactions := σ.transactions.insert t.id t }, .error e)
  | .ok () =>
    ({ σ with
        prepare :=
          { keys := σ.prepare.keys ∪ staged.writeKeys
            trees := σ.prepare.trees ∪ staged.changedTrees ∪ staged.writeKeys.image (·.tree) }
        queue := σ.queue ++ [staged]
        transactions := σ.transactions.insert t.id { t with phase := .waiting } }, .ok ())

/-- No conflict of a transaction with an index of unpublished work. -/
structure Admits (t : Transaction) (index : Unpublished) : Prop where
  writes : ∀ l ∈ t.writes, l ∉ index.keys
  dropped : ∀ tree ∈ t.dropped, tree ∉ index.trees
  ranges : ∀ r ∈ t.readRanges, ∀ l ∈ index.keys, r.covers l = false
  points : ∀ l ∈ t.pointReads, l ∉ index.keys

theorem rejectUnpublishedConflicts_eq_ok {t : Transaction} {index : Unpublished}
    (h : rejectUnpublishedConflicts t index = .ok ()) : Admits t index := by
  unfold rejectUnpublishedConflicts at h
  cases hw : t.writes.keys.find? fun l => decide (l ∈ index.keys) with
  | some l => simp [hw, bind, Except.bind, throw, throwThe, MonadExceptOf.throw] at h
  | none =>
    cases hd : (t.dropped.sort (· ≤ ·)).find? fun tree => decide (tree ∈ index.trees) with
    | some tree => simp [hw, hd, bind, Except.bind, throw, throwThe, MonadExceptOf.throw] at h
    | none =>
      by_cases hr : ∃ r ∈ t.readRanges, ∃ l ∈ index.keys, r.covers l = true
      · simp [hw, hd, hr, bind, Except.bind, throw, throwThe, MonadExceptOf.throw] at h
      · by_cases hp : ∃ l ∈ t.pointReads, l ∈ index.keys
        · simp [hw, hd, hr, hp, throw, throwThe, MonadExceptOf.throw] at h
        · rw [List.find?_eq_none] at hw hd
          push Not at hr hp
          refine ⟨?_, ?_, ?_, hp⟩
          · intro l hl hmem
            exact hw l (Std.ExtTreeMap.mem_keys.mpr hl) (by simpa using hmem)
          · intro tree htree hmem
            exact hd tree ((Finset.mem_sort _).mpr htree) (by simpa using hmem)
          · intro r hr' l hl
            simpa using hr r hr' l hl

end OmenDb.Txn
