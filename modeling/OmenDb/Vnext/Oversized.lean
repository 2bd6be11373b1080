import OmenDb.Vnext.CommitAppend

/-! Batches that no segment takes. The device refuses such a batch before it writes, the log counts every
failed append as one whose outcome is not known, and the appender has no check of its own. -/
namespace OmenDb.Vnext

def walHeaderBytes : ℕ := 40

/-- `Lsn::MAX_OFFSET`. -/
def maxOffset : ℕ := 2 ^ 32 - 1

/-- The batch does not fit the record region of a segment. -/
def PreparedLogBatch.TooLong (segmentBytes : ℕ) (batch : PreparedLogBatch) : Prop :=
  segmentBytes - walHeaderBytes < batch.bytes.length ∨ maxOffset < batch.bytes.length

instance (segmentBytes : ℕ) (batch : PreparedLogBatch) : Decidable (batch.TooLong segmentBytes) := by
  unfold PreparedLogBatch.TooLong
  infer_instance

/-- `SegmentedFileLogDevice::append`, with the outcome of its I/O: how much of the batch is written when
it fails. Its two checks come before any I/O. -/
def segmentAppend (segmentBytes : ℕ) (batch : PreparedLogBatch) (failedAfter : Option ℕ) : Option ℕ :=
  if batch.bytes = [] ∨ batch.TooLong segmentBytes then some 0 else failedAfter

namespace Appender

section

variable (crc : Bytes → Word 4) (segmentBytes : ℕ) (s : Appender) (handle : ℕ) (txn : Committer)
    (failedAfter : Option ℕ)

/-- The next part of a call to `append_validated`, if it is under way. -/
def resume : Appender :=
  match s.transactions[handle]? with
  | none => s
  | some txn =>
    match txn.stage with
    | .outside => s
    | .waiting => s.lock crc handle txn
    | .holding batch => s.write handle txn batch (segmentAppend segmentBytes batch failedAfter)

/-- `append_validated` on a free lane, over a device of segments. -/
def appendValidated : Appender :=
  ((s.enter handle txn).resume crc segmentBytes handle failedAfter).resume crc segmentBytes handle failedAfter

end

/-- A call that has failed with no effect: no byte is written, the transaction is aborted or can be, and
the log takes the next batch under the same number. The coordinator fences the runtime after a failed
append just if it leaves the transaction in `recoveryRequired`. -/
structure CleanFailure (s : Appender) (handle : ℕ) (s' : Appender) : Prop where
  failed : ∃ txn error, s'.transactions[handle]? = some txn ∧ txn.returned = some (.error error) ∧
    txn.phase ∈ [Phase.active, .validating, .prepared, .aborted]
  written : s'.written = s.written
  unfenced : s'.fenced = false
  number : s'.nextCsn = s.nextCsn

variable {crc : Bytes → Word 4} {segmentBytes : ℕ} {s : Appender} {handle : ℕ} {txn : Committer}
  {failedAfter : Option ℕ} {csn : Word 8} {batch : PreparedLogBatch}

theorem set_get (s : Appender) (handle : ℕ) (txn : Committer) : (s.set handle txn).transactions[handle]? = some txn :=
  OrdMap.get_insert_self _ _ _

theorem resume_of_get (h : s.transactions[handle]? = some txn) :
    s.resume crc segmentBytes handle failedAfter =
      match txn.stage with
      | .outside => s
      | .waiting => s.lock crc handle txn
      | .holding batch => s.write handle txn batch (segmentAppend segmentBytes batch failedAfter) := by
  rw [resume, h]

theorem appendValidated_rejected {error : FinalWriteSetError} (hphase : txn.phase = .validating)
    (heffects : normalizeFinalEffects txn.id txn.mutations = .error error) :
    s.appendValidated crc segmentBytes handle txn failedAfter = s.set handle (txn.ret (.error (.writeSet error))) := by
  have henter : s.enter handle txn = s.set handle (txn.ret (.error (.writeSet error))) := by
    rw [enter, if_neg (not_not.mpr hphase), heffects]
  have hresume : (s.set handle (txn.ret (.error (.writeSet error)))).resume crc segmentBytes handle failedAfter =
      s.set handle (txn.ret (.error (.writeSet error))) := resume_of_get (set_get _ _ _)
  rw [appendValidated, henter, hresume, hresume]

/-- The lane is taken, and the batch is handed to the device. -/
theorem appendValidated_entered {effects : List LoggedMutation} (hphase : txn.phase = .validating)
    (heffects : normalizeFinalEffects txn.id txn.mutations = .ok effects) (hcsn : s.nextCsn = some csn)
    (hbatch : PreparedLogBatch.forCommit crc txn.id csn txn.mutations = .ok batch) :
    ∃ (locked : Appender) (holding : Committer), locked.written = s.written ∧
      s.appendValidated crc segmentBytes handle txn failedAfter =
        locked.write handle holding batch (segmentAppend segmentBytes batch failedAfter) := by
  have henter : s.enter handle txn = s.set handle { txn with stage := .waiting } := by
    rw [enter, if_neg (not_not.mpr hphase), heffects]
  have hlock : (s.set handle { txn with stage := .waiting }).lock crc handle { txn with stage := .waiting } =
      { (s.set handle { txn with stage := .waiting }).set handle
          { txn with phase := .prepared, commitSeq := some csn, stage := .holding batch } with
        lane := some handle } := by
    rw [lock]
    dsimp only [set]
    rw [hcsn]
    dsimp only
    rw [hbatch]
  rw [appendValidated, henter, resume_of_get (set_get _ _ _)]
  dsimp only
  rw [hlock, resume_of_get (OrdMap.get_insert_self _ _ _)]
  refine ⟨_, _, ?_, rfl⟩
  rfl

theorem write_refused (s : Appender) (handle : ℕ) (txn : Committer) (batch : PreparedLogBatch) :
    (s.write handle txn batch (some 0)).fenced = true ∧ (s.write handle txn batch (some 0)).written = s.written ∧
      ∃ txn' error, (s.write handle txn batch (some 0)).transactions[handle]? = some txn' ∧
        txn'.returned = some (.error error) := by
  rw [write]
  split
  · next hfenced => exact ⟨hfenced, rfl, _, _, set_get _ _ _, rfl⟩
  · exact ⟨rfl, by simp, _, _, set_get _ _ _, rfl⟩

/-- A transaction that is to be appended, with one value. -/
def putting (id : TxnId) (length : ℕ) : Committer :=
  ⟨id, .validating, [⟨id, 0, 1, .orderedPut, [1], List.replicate length 0⟩], none, none, .outside, none⟩

end Appender
end OmenDb.Vnext
