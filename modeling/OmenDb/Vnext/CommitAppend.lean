import OmenDb.Lib.Machine
import OmenDb.Vnext.Assembler
import OmenDb.Vnext.Preflight

/-! The commit appender over the durable log. A call validates its transaction, waits for the append
lane, takes the next commit number and encodes its batch, and hands the batch to the device; the lane
is held from the number to the end of the append. The device may write any part of a batch and fail,
which fences the log. Syncs go on beside the appends. -/
namespace OmenDb.Vnext

open FrameLog

/-- `TransactionPhase`. -/
inductive Phase
  | active
  | validating
  | prepared
  | walAppended
  | durableDecision
  | visible
  | aborted
  | recoveryRequired
  | released
  deriving DecidableEq

/-- The records of a batch with their encodings, `encoded` of `from_decision`. -/
def encodeFrames (crc : Bytes → Word 4) : List LogRecord → Except LogEncodeError (List (LogRecord × Bytes))
  | [] => .ok []
  | record :: records =>
    match record.toBytes crc with
    | .error error => .error error
    | .ok raw =>
      match encodeFrames crc records with
      | .error error => .error error
      | .ok frames => .ok ((record, raw) :: frames)

/-- The mutations of a transaction and its decision, in the order of the log. -/
def batchRecords (mutations : List LoggedMutation) (decision : CommitDecision) : List LogRecord :=
  mutations.map .mutation ++ [.commit decision]

structure PreparedLogBatch where
  decision : CommitDecision
  mutations : List LoggedMutation
  frames : List (LogRecord × Bytes)
  deriving DecidableEq

def PreparedLogBatch.bytes (batch : PreparedLogBatch) : Bytes := raws batch.frames

def PreparedLogBatch.forCommit (crc : Bytes → Word 4) (txn : TxnId) (csn : Word 8) (mutations : List LoggedMutation) :
    Except LogEncodeError PreparedLogBatch :=
  match (Word.ofLength? mutations.length : Option (Word 4)) with
  | none => .error .recordTooLarge
  | some count =>
    match mutationDigest crc mutations with
    | .error error => .error error
    | .ok digest =>
      let decision : CommitDecision := ⟨txn, csn, count, digest⟩
      match encodeFrames crc (batchRecords mutations decision) with
      | .error error => .error error
      | .ok frames => .ok ⟨decision, mutations, frames⟩

structure AppendTicket where
  txn : TxnId
  csn : Word 8
  decisionLsn : Lsn
  deriving DecidableEq

/-- The errors of `append_validated`. -/
inductive AppendError
  | wrongPhase (actual : Phase)
  | commitSeqExhausted
  | writeSet (error : FinalWriteSetError)
  | encoding (error : LogEncodeError)
  | logUnavailable
  | outcomeUncertain
  deriving DecidableEq

/-- Where a call to `append_validated` stands. -/
inductive AppendStage
  | outside
  | waiting
  | holding (batch : PreparedLogBatch)
  deriving DecidableEq

/-- A transaction as the appender sees it, with the call that borrows it and what the last call
returned. -/
structure Committer where
  id : TxnId
  phase : Phase
  mutations : List LoggedMutation
  commitSeq : Option (Word 8)
  decisionLsn : Option Lsn
  stage : AppendStage
  returned : Option (Except AppendError AppendTicket)

def Committer.ret (txn : Committer) (result : Except AppendError AppendTicket) : Committer :=
  { txn with stage := .outside, returned := some result }

/-- A batch that was handed to the device, and where it ends in the log if it is written whole. -/
structure Entered where
  batch : PreparedLogBatch
  lsn : Lsn
  deriving DecidableEq

/-- The appender, its log and the transactions. A position in the log is a number of bytes. `entered`
is the history of the device's appends; no step reads it. -/
structure Appender where
  transactions : OrdMap ℕ Committer
  nextCsn : Option (Word 8)
  lane : Option ℕ
  fenced : Bool
  durableLsn : Lsn
  written : Bytes
  entered : List Entered

inductive AppendAct
  | start (handle : ℕ) (id : TxnId) (mutations : List LoggedMutation)
  | beginValidation (handle : ℕ)
  | abort (handle : ℕ)
  | enter (handle : ℕ)
  | lock (handle : ℕ)
  | write (handle : ℕ) (failedAfter : Option ℕ)
  | sync (lsn : Lsn) (failed : Bool)
  deriving DecidableEq

namespace Appender

/-- `CommitAppender::new` on a fresh log. -/
def new (recovered : Word 8) : Appender :=
  ⟨∅, Word.ofLength? (recovered.val + 1), none, false, 0, [], []⟩

def set (s : Appender) (handle : ℕ) (txn : Committer) : Appender :=
  { s with transactions := s.transactions.insert handle txn }

def idle? (s : Appender) (handle : ℕ) : Option Committer :=
  s.transactions[handle]?.filter fun txn => decide (txn.stage = .outside)

/-- `append_validated` up to the lock of the lane. -/
def enter (s : Appender) (handle : ℕ) (txn : Committer) : Appender :=
  if txn.phase ≠ .validating then s.set handle (txn.ret (.error (.wrongPhase txn.phase)))
  else match normalizeFinalEffects txn.id txn.mutations with
  | .error error => s.set handle (txn.ret (.error (.writeSet error)))
  | .ok _ => s.set handle { txn with stage := .waiting }

/-- The number, the batch and `mark_prepared`, under the lane. -/
def lock (crc : Bytes → Word 4) (s : Appender) (handle : ℕ) (txn : Committer) : Appender :=
  match s.nextCsn with
  | none => s.set handle (txn.ret (.error .commitSeqExhausted))
  | some csn =>
    match PreparedLogBatch.forCommit crc txn.id csn txn.mutations with
    | .error error => s.set handle (txn.ret (.error (.encoding error)))
    | .ok batch =>
      { s.set handle { txn with phase := .prepared, commitSeq := some csn, stage := .holding batch }
        with lane := some handle }

/-- `DurableLog::append` and the end of the call. A failed append leaves any part of the batch behind;
the number is used up just if the append succeeds. -/
def write (s : Appender) (handle : ℕ) (txn : Committer) (batch : PreparedLogBatch)
    (failedAfter : Option ℕ) : Appender :=
  if s.fenced then
    { s.set handle (Committer.ret { txn with phase := .aborted, commitSeq := none, decisionLsn := none }
      (.error .logUnavailable)) with
      lane := none }
  else
    let lsn := s.written.length + batch.bytes.length
    match failedAfter with
    | none =>
      { s.set handle (Committer.ret { txn with phase := .walAppended, decisionLsn := some lsn }
          (.ok ⟨batch.decision.txn, batch.decision.csn, lsn⟩)) with
        lane := none, nextCsn := Word.ofLength? (batch.decision.csn.val + 1), written := s.written ++ batch.bytes
        entered := s.entered ++ [⟨batch, lsn⟩] }
    | some part =>
      { s.set handle (Committer.ret { txn with phase := .recoveryRequired } (.error .outcomeUncertain)) with
        lane := none, fenced := true, written := s.written ++ batch.bytes.take part
        entered := s.entered ++ [⟨batch, lsn⟩] }

/-- `DurableLog::sync_through`. A device cannot make durable what was never written. -/
def sync (s : Appender) (lsn : Lsn) (failed : Bool) : Appender :=
  if s.fenced then s
  else if failed ∨ s.written.length < lsn then { s with fenced := true }
  else { s with durableLsn := max s.durableLsn lsn }

/-- One step. A transaction may hold any mutations, also such as no staging makes; a call borrows its
transaction, so nothing else is done to it meanwhile. -/
def step (crc : Bytes → Word 4) (s : Appender) : AppendAct → Option Appender
  | .start handle id mutations =>
    if s.transactions[handle]?.isNone then some (s.set handle ⟨id, .active, mutations, none, none, .outside, none⟩)
      else none
  | .beginValidation handle => (s.idle? handle).bind fun txn =>
    if txn.phase = .active then some (s.set handle { txn with phase := .validating }) else none
  | .abort handle => (s.idle? handle).bind fun txn =>
    if txn.phase = .active ∨ txn.phase = .validating then
      some (s.set handle { txn with phase := .aborted, commitSeq := none, decisionLsn := none })
    else none
  | .enter handle => (s.idle? handle).map (s.enter handle)
  | .lock handle => s.transactions[handle]?.bind fun txn =>
    if txn.stage = .waiting ∧ s.lane = none then some (s.lock crc handle txn) else none
  | .write handle failedAfter => s.transactions[handle]?.bind fun txn =>
    match txn.stage with
    | .holding batch => some (s.write handle txn batch failedAfter)
    | _ => none
  | .sync lsn failed => some (s.sync lsn failed)

def machine (crc : Bytes → Word 4) (recovered : Word 8) : Machine Appender AppendAct where
  init s := s = new recovered
  step := step crc

end Appender

variable {crc : Bytes → Word 4} {frames : List (LogRecord × Bytes)} {mutations : List LoggedMutation}
    {batch : PreparedLogBatch}
  {offset : ℕ}

theorem encodeFrames_ok {records : List LogRecord} (h : encodeFrames crc records = .ok frames) :
    frames.map Prod.fst = records ∧ ∀ frame ∈ frames, frame.1.toBytes crc = .ok frame.2 := by
  induction records generalizing frames with
  | nil =>
    cases h
    simp
  | cons record records ih =>
    rw [encodeFrames] at h
    split at h
    · cases h
    next raw hraw =>
    split at h
    · cases h
    next rest hrest =>
    cases h
    obtain ⟨hrecords, hencoded⟩ := ih hrest
    refine ⟨by rw [List.map_cons, hrecords], ?_⟩
    intro frame hmem
    rcases List.mem_cons.mp hmem with rfl | hmem
    · exact hraw
    · exact hencoded frame hmem

/-- A batch of a write set that passes the check of the final effects, encoded as `for_commit` does. -/
structure PreparedLogBatch.Sound (crc : Bytes → Word 4) (batch : PreparedLogBatch) : Prop where
  effects : ∃ effects, normalizeFinalEffects batch.decision.txn batch.mutations = .ok effects
  count : (Word.ofLength? batch.mutations.length : Option (Word 4)) = some batch.decision.mutationCount
  digest : mutationDigest crc batch.mutations = .ok batch.decision.mutationDigest
  records : batch.frames.map Prod.fst = batchRecords batch.mutations batch.decision
  encoded : ∀ frame ∈ batch.frames, frame.1.toBytes crc = .ok frame.2

theorem PreparedLogBatch.forCommit_ok {txn : TxnId} {csn : Word 8} (h : forCommit crc txn csn mutations = .ok batch)
    (heffects : ∃ effects, normalizeFinalEffects txn mutations = .ok effects) :
    batch.Sound crc ∧ batch.decision.csn = csn ∧ batch.decision.txn = txn ∧ batch.mutations = mutations := by
  rw [forCommit] at h
  split at h
  · cases h
  next count hcount =>
  split at h
  · cases h
  next digest hdigest =>
  dsimp only at h
  split at h
  · cases h
  next frames hframes =>
  cases h
  obtain ⟨hrecords, hencoded⟩ := encodeFrames_ok hframes
  exact ⟨⟨heffects, hcount, hdigest, hrecords, hencoded⟩, rfl, rfl, rfl⟩

theorem PreparedLogBatch.Sound.frames_eq (h : batch.Sound crc) :
    ∃ front raw, batch.frames = front ++ [(.commit batch.decision, raw)] ∧
      front.map Prod.fst = batch.mutations.map .mutation := by
  obtain ⟨front, last, hframes, hfront, hlast⟩ := List.map_eq_append_iff.mp h.records
  obtain ⟨⟨record, raw⟩, rfl, rfl⟩ := List.map_eq_singleton_iff.mp hlast
  exact ⟨front, raw, hframes, hfront⟩

theorem run_mutations {decision : CommitDecision} {done rest : List LoggedMutation}
    {byKey byKey' : OrdMap LogicalKey LoggedMutation} (hzero : decision.txn ≠ 0)
    (hcollect : collectEffects decision.txn rest done.length byKey = .ok byKey')
    (hfits : (LogRecord.commit decision).Fits crc (done ++ rest)) :
    ((TxnLog.waiting done).run crc (batchRecords rest decision)).isSome := by
  induction rest generalizing done byKey with
  | nil =>
    rw [List.append_nil] at hfits
    rw [batchRecords, List.map_nil, List.nil_append, TxnLog.run, TxnLog.step, if_pos ⟨hzero, hfits⟩]
    rfl
  | cons mutation rest ih =>
    rw [collectEffects] at hcollect
    split at hcollect
    · cases hcollect
    next expected hexpected =>
    split at hcollect
    · cases hcollect
    next hordinal =>
    split at hcollect
    · cases hcollect
    next htxn =>
    have hordinal : mutation.ordinal = expected := not_not.mp hordinal
    have htxn : mutation.txn = decision.txn := not_not.mp htxn
    have hmutation : (LogRecord.mutation mutation).Fits crc done := by
      rw [LogRecord.Fits, hordinal, clampLength, hexpected]
      rfl
    have hstep : (TxnLog.waiting done).step crc (.mutation mutation) = some (.waiting (done ++ [mutation])) :=
      if_pos ⟨by rw [LogRecord.txn, htxn]; exact hzero, hmutation⟩
    have hrest : ((TxnLog.waiting (done ++ [mutation])).run crc (batchRecords rest decision)).isSome :=
      @ih (done ++ [mutation]) _ (by rw [List.length_append]; exact hcollect) (by rw [List.append_assoc]; exact hfits)
    rw [batchRecords, List.map_cons, List.cons_append, TxnLog.run, hstep, Option.bind_some]
    exact hrest

theorem PreparedLogBatch.Sound.run (h : batch.Sound crc) (hcsn : batch.decision.csn ≠ 0) :
    ((TxnLog.waiting []).run crc (batchRecords batch.mutations batch.decision)).isSome := by
  obtain ⟨effects, heffects⟩ := h.effects
  rw [normalizeFinalEffects] at heffects
  split at heffects
  · cases heffects
  next hzero =>
  split at heffects
  · cases heffects
  next byKey hcollect =>
  have hfits : (LogRecord.commit batch.decision).Fits crc ([] ++ batch.mutations) :=
    ⟨hcsn, by rw [List.nil_append, clampLength, h.count]; rfl, h.digest⟩
  exact run_mutations hzero hcollect hfits

theorem PreparedLogBatch.Sound.txn_eq (h : batch.Sound crc) {record : LogRecord}
    (hmem : record ∈ batchRecords batch.mutations batch.decision) : record.txn = batch.decision.txn := by
  obtain ⟨effects, heffects⟩ := h.effects
  rw [normalizeFinalEffects] at heffects
  split at heffects
  · cases heffects
  split at heffects
  · cases heffects
  next byKey hcollect =>
  rcases List.mem_append.mp hmem with hmutation | hcommit
  · obtain ⟨mutation, hstaged, rfl⟩ := List.mem_map.mp hmutation
    exact (collectEffects_ok hcollect).2 mutation hstaged
  · rw [List.mem_singleton.mp hcommit]
    rfl

def Placed : ℕ → List Entered → Prop
  | _, [] => True
  | offset, e :: entered => e.lsn = offset + e.batch.bytes.length ∧ Placed e.lsn entered

def allFrames (entered : List Entered) : List (LogRecord × Bytes) := entered.flatMap fun e => e.batch.frames

theorem placed_append {entered : List Entered} {e : Entered} (h : Placed offset entered)
    (hlsn : e.lsn = offset + (raws (allFrames entered)).length + e.batch.bytes.length) :
    Placed offset (entered ++ [e]) := by
  induction entered generalizing offset with
  | nil => exact ⟨by simpa [allFrames] using hlsn, trivial⟩
  | cons first entered ih =>
    refine ⟨h.1, ih h.2 ?_⟩
    rw [hlsn, h.1, allFrames, List.flatMap_cons, raws_append, List.length_append, ← Nat.add_assoc]
    rfl

namespace Appender

variable {crc : Bytes → Word 4} {recovered : Word 8} {s s' : Appender} {handle : ℕ} {txn : Committer}

def Committer.Prepared (crc : Bytes → Word 4) (s : Appender) (handle : ℕ) (txn : Committer) : Prop :=
  match txn.stage with
  | .outside => True
  | .waiting => ∃ effects, normalizeFinalEffects txn.id txn.mutations = .ok effects
  | .holding batch => s.lane = some handle ∧ s.nextCsn = some batch.decision.csn ∧ batch.Sound crc ∧
      batch.decision.txn = txn.id ∧ batch.mutations = txn.mutations

/-- A transaction that knows its position has entered the log there. -/
def Committer.Recorded (entered : List Entered) (txn : Committer) : Prop :=
  ∀ lsn, txn.decisionLsn = some lsn → ∃ e ∈ entered, e.lsn = lsn ∧ e.batch.decision.txn = txn.id ∧
    e.batch.mutations = txn.mutations

/-- The log holds the batches that entered, the last one perhaps in part; as long as it is open, all of
them, and the lane hands out the next number. -/
structure Inv (crc : Bytes → Word 4) (recovered : Word 8) (s : Appender) : Prop where
  sound : ∀ e ∈ s.entered, e.batch.Sound crc
  placed : Placed 0 s.entered
  numbered : (s.entered.map fun e => e.batch.decision.csn.val) = List.range' (recovered.val + 1) s.entered.length
  written : s.written <+: raws (allFrames s.entered)
  whole : s.fenced = false → s.written = raws (allFrames s.entered)
  next : s.fenced = false → s.nextCsn = Word.ofLength? (recovered.val + s.entered.length + 1)
  calls : ∀ (handle : ℕ) (txn : Committer), s.transactions[handle]? = some txn → Committer.Prepared crc s handle txn
  recorded : ∀ (handle : ℕ) (txn : Committer), s.transactions[handle]? = some txn → Committer.Recorded s.entered txn

theorem inv_new : Inv crc recovered (new recovered) where
  sound := by simp [new]
  placed := trivial
  numbered := rfl
  written := List.nil_prefix
  whole := fun _ => rfl
  next := fun _ => rfl
  calls := by simp [new]
  recorded := by simp [new]

theorem Inv.recorded_insert (h : Inv crc recovered s) (hrecorded : Committer.Recorded s'.entered txn)
    (htransactions : s'.transactions = s.transactions.insert handle txn) (hentered : s.entered ⊆ s'.entered) :
    ∀ (other : ℕ) (txn : Committer), s'.transactions[other]? = some txn → Committer.Recorded s'.entered txn := by
  intro other txn' hget
  rw [htransactions, OrdMap.get_insert] at hget
  split at hget
  · cases hget
    exact hrecorded
  · intro lsn hlsn
    obtain ⟨e, hmem, he⟩ := h.recorded other txn' hget lsn hlsn
    exact ⟨e, hentered hmem, he⟩

theorem Inv.set (h : Inv crc recovered s) (hprepared : Committer.Prepared crc s handle txn)
    (hrecorded : Committer.Recorded s.entered txn) : Inv crc recovered (s.set handle txn) where
  sound := h.sound
  placed := h.placed
  numbered := h.numbered
  written := h.written
  whole := h.whole
  next := h.next
  calls := by
    intro other txn' hget
    rw [Appender.set, OrdMap.get_insert] at hget
    split at hget
    · next heq =>
      cases hget
      subst heq
      exact hprepared
    · exact h.calls other txn' hget
  recorded := h.recorded_insert hrecorded rfl (List.Subset.refl _)

theorem idle?_eq_some (h : s.idle? handle = some txn) : s.transactions[handle]? = some txn ∧ txn.stage = .outside := by
  obtain ⟨hget, hstage⟩ := Option.filter_eq_some_iff.mp h
  exact ⟨hget, by simpa using hstage⟩

section

variable (h : Inv crc recovered s)
include h

theorem Inv.enter (hget : s.transactions[handle]? = some txn) :
    Inv crc recovered (s.enter handle txn) := by
  have hrecorded := h.recorded handle txn hget
  rw [Appender.enter]
  split
  · exact h.set trivial hrecorded
  split
  · exact h.set trivial hrecorded
  · next effects heffects => exact h.set ⟨effects, heffects⟩ hrecorded

theorem Inv.lock (hget : s.transactions[handle]? = some txn) (hstage : txn.stage = .waiting)
    (hlane : s.lane = none) : Inv crc recovered (s.lock crc handle txn) := by
  have heffects := h.calls handle txn hget
  rw [Committer.Prepared, hstage] at heffects
  have hrecorded := h.recorded handle txn hget
  rw [Appender.lock]
  split
  · exact h.set trivial hrecorded
  next csn hcsn =>
  split
  · exact h.set trivial hrecorded
  next batch hbatch =>
  obtain ⟨hsound, hnumber, hid, hmutations⟩ := PreparedLogBatch.forCommit_ok hbatch heffects
  refine ⟨h.sound, h.placed, h.numbered, h.written, h.whole, h.next, ?_, ?_⟩
  swap
  · have hmoved : Committer.Recorded s.entered
      { txn with phase := .prepared, commitSeq := some csn, stage := .holding batch } := hrecorded
    exact h.recorded_insert hmoved rfl (List.Subset.refl _)
  intro other txn' hother
  simp only [Appender.set] at hother
  rw [OrdMap.get_insert] at hother
  split at hother
  · next heq =>
    cases hother
    subst heq
    exact ⟨rfl, by rw [hnumber]; exact hcsn, hsound, hid, hmutations⟩
  · -- the lane was free, so no other call holds a batch
    have hprepared := h.calls other txn' hother
    rw [Committer.Prepared] at hprepared ⊢
    split
    · trivial
    · next hwaiting => rwa [hwaiting] at hprepared
    · next batch' hholding =>
      rw [hholding, hlane] at hprepared
      exact absurd hprepared.1 (by simp)

theorem Inv.entered (hopen : s.fenced = false) {batch : PreparedLogBatch} (hsound : batch.Sound crc)
    (hcsn : s.nextCsn = some batch.decision.csn)
    (hentered : s'.entered = s.entered ++ [⟨batch, s.written.length + batch.bytes.length⟩]) :
    (∀ e ∈ s'.entered, e.batch.Sound crc) ∧ Placed 0 s'.entered ∧
      (s'.entered.map fun e => e.batch.decision.csn.val) = List.range' (recovered.val + 1) s'.entered.length ∧
      raws (allFrames s'.entered) = s.written ++ batch.bytes ∧ s'.entered.length = s.entered.length + 1 ∧
      batch.decision.csn.val = recovered.val + s.entered.length + 1 := by
  have hval : batch.decision.csn.val = recovered.val + s.entered.length + 1 := by
    have hnext := h.next hopen
    rw [hcsn, Word.ofLength?] at hnext
    split at hnext
    · rw [Option.some.inj hnext]
    · cases hnext
  have hwhole := h.whole hopen
  rw [hentered]
  refine ⟨?_, ?_, ?_, ?_, by simp, hval⟩
  · intro e hmem
    rcases List.mem_append.mp hmem with hmem | hmem
    · exact h.sound e hmem
    · rw [List.mem_singleton.mp hmem]
      exact hsound
  · apply placed_append h.placed
    rw [← hwhole, Nat.zero_add]
  · rw [List.map_append, h.numbered, List.length_append, List.length_singleton, List.range'_concat]
    simp only [List.map_cons, List.map_nil, hval]
    congr 2
    omega
  · rw [allFrames, List.flatMap_append, raws_append, hwhole, List.flatMap_singleton]
    rfl

theorem Inv.calls_release (hlane : s.lane = some handle) {txn' : Committer}
    (hout : txn'.stage = .outside) (htransactions : s'.transactions = s.transactions.insert handle txn') :
    ∀ (other : ℕ) (txn : Committer), s'.transactions[other]? = some txn → Committer.Prepared crc s' other txn := by
  intro other txn hget
  rw [htransactions, OrdMap.get_insert] at hget
  split at hget
  · cases hget
    rw [Committer.Prepared, hout]
    trivial
  · next hne =>
    have hprepared := h.calls other txn hget
    rw [Committer.Prepared] at hprepared ⊢
    split
    · trivial
    · next hwaiting => rwa [hwaiting] at hprepared
    · next batch hholding =>
      rw [hholding, hlane] at hprepared
      exact absurd (Option.some.inj hprepared.1) hne

theorem Inv.write (hget : s.transactions[handle]? = some txn) {batch : PreparedLogBatch}
    (hstage : txn.stage = .holding batch) (failedAfter : Option ℕ) :
    Inv crc recovered (s.write handle txn batch failedAfter) := by
  have hprepared := h.calls handle txn hget
  rw [Committer.Prepared, hstage] at hprepared
  obtain ⟨hlane, hcsn, hsound, hid, hmutations⟩ := hprepared
  rw [Appender.write]
  split
  · exact ⟨h.sound, h.placed, h.numbered, h.written, h.whole, h.next, h.calls_release hlane rfl rfl,
      h.recorded_insert (fun lsn hlsn => by cases hlsn) rfl (List.Subset.refl _)⟩
  next hfenced =>
  have hopen : s.fenced = false := by simpa using hfenced
  dsimp only
  cases failedAfter with
  | none =>
    dsimp only
    generalize hs' : Appender.mk _ _ _ _ _ _ _ = s'
    obtain ⟨hsounds, hplaced, hnumbered, hraws, hlength, hval⟩ :=
      @Inv.entered _ _ _ s' h hopen _ hsound hcsn (by rw [← hs'])
    have hwritten : s'.written = raws (allFrames s'.entered) := by
      rw [hraws, ← hs']
    have hrecorded : ∀ (other : ℕ) (txn : Committer), s'.transactions[other]? = some txn →
        Committer.Recorded s'.entered txn := by
      refine h.recorded_insert ?_ (by rw [← hs']; rfl) (by rw [← hs']; exact List.subset_append_left _ _)
      intro lsn hlsn
      cases hlsn
      refine ⟨⟨batch, s.written.length + batch.bytes.length⟩, ?_, rfl, hid, hmutations⟩
      rw [← hs']
      exact List.mem_append_right _ (List.mem_singleton_self _)
    refine ⟨hsounds, hplaced, hnumbered, ?_, fun _ => hwritten, fun _ =>
      ?_, h.calls_release hlane rfl (by rw [← hs']; rfl), hrecorded⟩
    · rw [hwritten]
    · rw [hlength, ← hs']
      show Word.ofLength? (batch.decision.csn.val + 1) = _
      rw [hval]
      congr 1
  | some part =>
    dsimp only
    generalize hs' : Appender.mk _ _ _ _ _ _ _ = s'
    obtain ⟨hsounds, hplaced, hnumbered, hraws, -, -⟩ := @Inv.entered _ _ _ s' h hopen _ hsound hcsn (by rw [← hs'])
    have hclosed : s'.fenced = true := by rw [← hs']
    have hrecorded : ∀ (other : ℕ) (txn : Committer), s'.transactions[other]? = some txn →
        Committer.Recorded s'.entered txn := by
      refine h.recorded_insert ?_ (by rw [← hs']; rfl) (by rw [← hs']; exact List.subset_append_left _ _)
      intro lsn hlsn
      obtain ⟨e, hmem, he⟩ := h.recorded handle txn hget lsn hlsn
      refine ⟨e, ?_, he⟩
      rw [← hs']
      exact List.mem_append_left _ hmem
    refine ⟨hsounds, hplaced, hnumbered, ?_, fun h => ?_, fun h =>
      ?_, h.calls_release hlane rfl (by rw [← hs']; rfl), hrecorded⟩
    · rw [hraws, ← hs']
      exact (List.prefix_append_right_inj _).mpr (List.take_prefix _ _)
    · rw [hclosed] at h
      cases h
    · rw [hclosed] at h
      cases h

theorem Inv.sync (lsn : Lsn) (failed : Bool) : Inv crc recovered (s.sync lsn failed) := by
  rw [Appender.sync]
  split
  · exact h
  split
  · exact ⟨h.sound, h.placed, h.numbered, h.written, by simp, by simp, h.calls, h.recorded⟩
  · exact ⟨h.sound, h.placed, h.numbered, h.written, h.whole, h.next, h.calls, h.recorded⟩

theorem Inv.step {act : AppendAct} (hstep : s.step crc act = some s') : Inv crc recovered s' := by
  cases act with
  | start handle id mutations =>
    rw [Appender.step] at hstep
    split at hstep
    · cases hstep
      exact h.set trivial fun lsn hlsn => by cases hlsn
    · cases hstep
  | beginValidation handle =>
    obtain ⟨txn, hidle, hstep⟩ := Option.bind_eq_some_iff.mp hstep
    obtain ⟨hget, hout⟩ := idle?_eq_some hidle
    split at hstep
    · cases hstep
      exact h.set (by rw [Committer.Prepared]; simp only [hout]) (h.recorded handle txn hget)
    · cases hstep
  | abort handle =>
    obtain ⟨txn, hidle, hstep⟩ := Option.bind_eq_some_iff.mp hstep
    obtain ⟨-, hout⟩ := idle?_eq_some hidle
    split at hstep
    · cases hstep
      exact h.set (by rw [Committer.Prepared]; simp only [hout]) fun lsn hlsn => by cases hlsn
    · cases hstep
  | enter handle =>
    obtain ⟨txn, hidle, rfl⟩ := Option.map_eq_some_iff.mp hstep
    exact h.enter (idle?_eq_some hidle).1
  | lock handle =>
    obtain ⟨txn, hget, hstep⟩ := Option.bind_eq_some_iff.mp hstep
    split at hstep
    · next hfree =>
      cases hstep
      exact h.lock hget hfree.1 hfree.2
    · cases hstep
  | write handle failedAfter =>
    obtain ⟨txn, hget, hstep⟩ := Option.bind_eq_some_iff.mp hstep
    split at hstep
    · next batch hstage =>
      cases hstep
      exact h.write hget hstage failedAfter
    · cases hstep
  | sync lsn failed =>
    cases hstep
    exact h.sync lsn failed

end

theorem inv_of_reachable (h : (machine crc recovered).Reachable s) : Inv crc recovered s := by
  apply Machine.Reach.invariant _ _ h
  · intro s hinit
    rw [show s = new recovered from hinit]
    exact inv_new
  · exact fun s act s' hinv _ hstep => hinv.step hstep

end Appender

def positions (parsed : List ParsedLogRecord) : List (Lsn × LogRecord) := parsed.map fun p => (p.endOffset, p.record)

/-- The records of the batches, where they end in the log. -/
def streamFrom : ℕ → List Entered → List (Lsn × LogRecord)
  | _, [] => []
  | offset, e :: entered =>
    positions (endOffsets offset e.batch.frames) ++ streamFrom (offset + e.batch.bytes.length) entered

theorem endOffsets_append (offset : ℕ) (first second : List (LogRecord × Bytes)) :
    endOffsets offset (first ++ second) = endOffsets offset first ++
      endOffsets (offset + (raws first).length) second := by
  induction first generalizing offset with
  | nil => rfl
  | cons frame first ih =>
    rw [List.cons_append, endOffsets, endOffsets, ih, raws_cons, List.length_append, List.cons_append, Nat.add_assoc]

theorem positions_append (first second : List ParsedLogRecord) :
    positions (first ++ second) = positions first ++ positions second :=
  List.map_append

theorem positions_allFrames (offset : ℕ) (entered : List Entered) :
    positions (endOffsets offset (allFrames entered)) = streamFrom offset entered := by
  induction entered generalizing offset with
  | nil => rfl
  | cons e entered ih =>
    rw [allFrames, List.flatMap_cons, endOffsets_append, positions_append, streamFrom, ← ih]
    rfl

theorem records_positions (offset : ℕ) (frames : List (LogRecord × Bytes)) :
    (positions (endOffsets offset frames)).map Prod.snd = frames.map Prod.fst := by
  induction frames generalizing offset with
  | nil => rfl
  | cons frame frames ih => exact congrArg _ (ih _)

/-- Positions advance, since no record is empty. -/
theorem pairwise_positions (hne : ∀ frame ∈ frames, frame.2 ≠ []) :
    ((positions (endOffsets offset frames)).map Prod.fst).Pairwise (· < ·) := by
  induction frames generalizing offset with
  | nil => exact .nil
  | cons frame frames ih =>
    refine List.pairwise_cons.mpr ⟨?_, ih fun other hother => hne other (by simp [hother])⟩
    intro position hmem
    obtain ⟨item, hitem, rfl⟩ := List.mem_map.mp hmem
    obtain ⟨parsed, hparsed, rfl⟩ := List.mem_map.mp hitem
    cases frames with
    | nil => simp [endOffsets] at hparsed
    | cons next frames =>
      have hpos : 0 < next.2.length := List.length_pos_iff.mpr (hne next (by simp))
      have hle : offset + frame.2.length + next.2.length ≤ parsed.endOffset := by
        rcases List.mem_cons.mp hparsed with rfl | hparsed
        · exact le_rfl
        · exact le_endOffset hparsed
      show offset + frame.2.length < parsed.endOffset
      omega

theorem commitsOf_append (first second : List (Lsn × LogRecord)) :
    commitsOf (first ++ second) = commitsOf first ++ commitsOf second := List.filterMap_append

theorem commitsOf_mutations {stream : List (Lsn × LogRecord)}
    (h : stream.map Prod.snd = mutations.map .mutation) : commitsOf stream = [] := by
  rw [commitsOf, List.filterMap_eq_nil_iff]
  rintro ⟨lsn, record⟩ hmem
  have hrecord : record ∈ mutations.map LogRecord.mutation := by
    rw [← h]
    exact List.mem_map_of_mem hmem
  obtain ⟨mutation, -, rfl⟩ := List.mem_map.mp hrecord
  rfl

theorem commitsOf_streamFrom {entered : List Entered} (hsound : ∀ e ∈ entered, e.batch.Sound crc)
    (hplaced : Placed offset entered) : commitsOf (streamFrom offset entered) = entered.map fun e =>
    (e.lsn, e.batch.decision) := by
  induction entered generalizing offset with
  | nil => rfl
  | cons e entered ih =>
    obtain ⟨front, raw, hframes, hfront⟩ := (hsound e (by simp)).frames_eq
    have hhead : commitsOf (positions (endOffsets offset e.batch.frames)) = [(e.lsn, e.batch.decision)] := by
      have hlsn : e.lsn = offset + (raws front).length + raw.length := by
        rw [hplaced.1, PreparedLogBatch.bytes, hframes, raws_append, List.length_append, ← Nat.add_assoc]
        simp [raws]
      rw [hframes, endOffsets_append, positions_append, commitsOf_append,
        commitsOf_mutations ((records_positions offset front).trans hfront), List.nil_append, hlsn]
      rfl
    rw [streamFrom, commitsOf_append, hhead, List.map_cons, ← hplaced.1,
      ih (fun e he => hsound e (by simp [he])) hplaced.2]
    rfl

theorem recordsOf_streamFrom {entered : List Entered} (hsound : ∀ e ∈ entered, e.batch.Sound crc)
    (txn : TxnId) : recordsOf txn (streamFrom offset entered) =
      (entered.filter fun e => decide (e.batch.decision.txn = txn)).flatMap fun e =>
        batchRecords e.batch.mutations e.batch.decision := by
  induction entered generalizing offset with
  | nil => rfl
  | cons e entered ih =>
    have hbatch := hsound e (by simp)
    have hrecords : (positions (endOffsets offset e.batch.frames)).map Prod.snd =
        batchRecords e.batch.mutations e.batch.decision :=
      (records_positions offset _).trans hbatch.records
    rw [streamFrom, recordsOf_append, ih fun e he => hsound e (by simp [he]), recordsOf, hrecords]
    by_cases htxn : e.batch.decision.txn = txn
    · rw [List.filter_cons_of_pos (by simpa using htxn), List.flatMap_cons, List.filter_eq_self.mpr]
      intro record hmem
      simpa [hbatch.txn_eq hmem] using htxn
    · rw [List.filter_cons_of_neg (by simpa using htxn), List.filter_eq_nil_iff.mpr, List.nil_append]
      intro record hmem
      simpa [hbatch.txn_eq hmem] using htxn

theorem filter_prefix {α : Type} {p : α → Bool} {l : List α} (h : l.Pairwise fun a b => p b = true → p a = true) :
    l.filter p <+: l := by
  induction l with
  | nil => exact List.nil_prefix
  | cons a l ih =>
    obtain ⟨hhead, htail⟩ := List.pairwise_cons.mp h
    by_cases ha : p a = true
    · rw [List.filter_cons_of_pos ha]
      exact (List.prefix_cons_inj a).mpr (ih htail)
    · have hnone : l.filter p = [] := List.filter_eq_nil_iff.mpr fun b hb hp => ha (hhead b hb hp)
      rw [List.filter_cons_of_neg ha, hnone]
      exact List.nil_prefix

theorem eq_range'_of_prefix {start count : ℕ} {l : List ℕ} (h : l <+: List.range' start count) :
    l = List.range' start l.length := by
  apply List.ext_getElem (by simp)
  intro i hi hi'
  rw [h.getElem hi, List.getElem_range', List.getElem_range']

namespace Appender

variable {crc : Bytes → Word 4} {recovered : Word 8} {s : Appender}

def recoveredStream (crc : Bytes → Word 4) (log : Bytes) : List (Lsn × LogRecord) :=
  positions (parseLogPrefixFrames crc log).1

theorem Inv.nonempty (h : Inv crc recovered s) : ∀ frame ∈ allFrames s.entered, frame.2 ≠ [] := by
  intro frame hmem
  obtain ⟨e, he, hframe⟩ := List.mem_flatMap.mp hmem
  exact (framed_toBytes ((h.sound e he).encoded frame hframe)).nonempty

variable {n : ℕ} {e : Entered} {stream : List (Lsn × LogRecord)}

section

variable (h : Inv crc recovered s)
include h

theorem Inv.recoveredStream_eq (hn : n ≤ s.written.length) :
    recoveredStream crc (s.written.take n) = (streamFrom 0 s.entered).filter fun item => decide (item.1 ≤ n) := by
  have hframed : ∀ frame ∈ allFrames s.entered, frame.1.toBytes crc = .ok frame.2 := by
    intro frame hmem
    obtain ⟨e, he, hframe⟩ := List.mem_flatMap.mp hmem
    exact (h.sound e he).encoded frame hframe
  have hle : n ≤ (raws (allFrames s.entered)).length := hn.trans h.written.length_le
  have htake : s.written.take n = (raws (allFrames s.entered)).take n := by
    obtain ⟨rest, hrest⟩ := h.written
    rw [← hrest, List.take_append_of_le_length hn]
  rw [recoveredStream, htake, parseLogPrefixFrames_take hframed hle, endOffsets_whole, Nat.zero_add,
    ← positions_allFrames, positions, positions, List.filter_map]
  rfl

theorem Inv.pairwise_stream : ((streamFrom 0 s.entered).map Prod.fst).Pairwise (· < ·) := by
  rw [← positions_allFrames]
  exact pairwise_positions h.nonempty

theorem Inv.stream_prefix (n : ℕ) :
    ((streamFrom 0 s.entered).filter fun item => decide (item.1 ≤ n)) <+: streamFrom 0 s.entered := by
  apply filter_prefix
  refine (List.pairwise_map.mp h.pairwise_stream).imp ?_
  intro a b hlt hb
  simp only [decide_eq_true_eq] at hb ⊢
  exact hlt.le.trans hb

theorem Inv.commitsOf_cut (hn : n ≤ s.written.length) :
    commitsOf (recoveredStream crc (s.written.take n)) =
      (s.entered.filter fun e => decide (e.lsn ≤ n)).map fun e => (e.lsn, e.batch.decision) := by
  have hfilter : ∀ stream : List (Lsn × LogRecord), commitsOf (stream.filter fun item => decide (item.1 ≤ n)) =
      (commitsOf stream).filter fun commit => decide (commit.1 ≤ n) := by
    intro stream
    induction stream with
    | nil => rfl
    | cons item stream ih =>
      obtain ⟨lsn, record⟩ := item
      by_cases hle : lsn ≤ n <;> cases record <;> simp_all [commitsOf]
  rw [h.recoveredStream_eq hn, hfilter, commitsOf_streamFrom h.sound h.placed, List.filter_map]
  rfl

theorem Inv.entered_prefix (n : ℕ) : (s.entered.filter fun e => decide (e.lsn ≤ n)) <+: s.entered := by
  have hlsns : (s.entered.map Entered.lsn).Pairwise (· < ·) := by
    have hsub : ((commitsOf (streamFrom 0 s.entered)).map Prod.fst).Sublist
        ((streamFrom 0 s.entered).map Prod.fst) := by
      generalize streamFrom 0 s.entered = stream
      induction stream with
      | nil => exact .slnil
      | cons item stream ih =>
        obtain ⟨lsn, record⟩ := item
        cases record with
        | mutation | abort => exact ih.cons _
        | commit => exact ih.cons_cons _
    have hpairwise := h.pairwise_stream.sublist hsub
    rwa [commitsOf_streamFrom h.sound h.placed, List.map_map] at hpairwise
  apply filter_prefix
  refine (List.pairwise_map.mp hlsns).imp ?_
  intro a b hlt hb
  simp only [decide_eq_true_eq] at hb ⊢
  exact hlt.le.trans hb

theorem Inv.numbers_cut (hn : n ≤ s.written.length) :
    ((commitsOf (recoveredStream crc (s.written.take n))).map fun commit => commit.2.csn.val) =
      List.range' (recovered.val + 1) (commitsOf (recoveredStream crc (s.written.take n))).length := by
  have hkept := (h.entered_prefix n).map fun e => e.batch.decision.csn.val
  rw [h.numbered] at hkept
  have heq := eq_range'_of_prefix hkept
  rw [List.length_map] at heq
  rw [h.commitsOf_cut hn, List.map_map, List.length_map]
  exact heq

end

/-- In every run, also where appends fail, the commit records in the log carry the numbers after the
recovered one, one after the other, one for each batch that is whole in the log. -/
theorem commit_numbers_contiguous (h : (machine crc recovered).Reachable s) :
    ((commitsOf (recoveredStream crc s.written)).map fun commit => commit.2.csn.val) =
      List.range' (recovered.val + 1) (s.entered.filter fun e => decide (e.lsn ≤ s.written.length)).length := by
  have hinv := inv_of_reachable h
  have hnumbers := hinv.numbers_cut le_rfl
  rwa [hinv.commitsOf_cut le_rfl, List.length_map, ← hinv.commitsOf_cut le_rfl, List.take_length] at hnumbers

/-- A commit that is made durable, and one whose append fails after five bytes. -/
def failingActs : List AppendAct :=
  [.start 0 1 [⟨1, 0, 1, .orderedPut, [1], [2]⟩], .beginValidation 0, .enter 0, .lock 0, .write 0 none, .sync 87 false,
    .start 1 2 [], .beginValidation 1, .enter 1, .lock 1, .write 1 (some 5)]

theorem commit_numbers_contiguous_failing :
    ∃ s, (machine (fun _ => 0) 0).run (new 0) failingActs = some s ∧ s.fenced = true ∧ s.entered.length = 2 ∧
      ((commitsOf (recoveredStream (fun _ => 0) s.written)).map fun commit => commit.2.csn.val) = [1] := by
  have hrun : ((machine (fun _ => 0) 0).run (new 0) failingActs).map (fun s => (s.fenced, s.entered.length,
      (s.entered.filter fun e => decide (e.lsn ≤ s.written.length)).length)) = some (true, 2, 1) := by decide +kernel
  obtain ⟨s, hs, hview⟩ := Option.map_eq_some_iff.mp hrun
  have hwhole : (s.entered.filter fun e => decide (e.lsn ≤ s.written.length)).length = 1 :=
    congrArg (fun view => view.2.2) hview
  refine ⟨s, hs, congrArg Prod.fst hview, congrArg (fun view => view.2.1) hview, ?_⟩
  rw [commit_numbers_contiguous (Machine.reachable_run (.init rfl) hs), hwhole]
  rfl

theorem Inv.recordsOf_entered (h : Inv crc recovered s) (hids : (s.entered.map fun e => e.batch.decision.txn).Nodup)
    (hmem : e ∈ s.entered) :
    recordsOf e.batch.decision.txn (streamFrom 0 s.entered) = batchRecords e.batch.mutations e.batch.decision := by
  have hone : (s.entered.filter fun e' => decide (e'.batch.decision.txn = e.batch.decision.txn)) = [e] := by
    obtain ⟨before, after, hsplit⟩ := List.append_of_mem hmem
    rw [hsplit] at hids ⊢
    rw [List.map_append, List.map_cons] at hids
    have hother : ∀ l : List Entered, (∀ e' ∈ l, e'.batch.decision.txn ≠ e.batch.decision.txn) →
        (l.filter fun e' => decide (e'.batch.decision.txn = e.batch.decision.txn)) = [] := by
      intro l hl
      exact List.filter_eq_nil_iff.mpr fun e' he' => by simpa using hl e' he'
    have hnodup := List.nodup_middle.mp hids
    obtain ⟨hnotin, -⟩ := List.nodup_cons.mp hnodup
    rw [List.mem_append, not_or] at hnotin
    rw [List.filter_append, List.filter_cons_of_pos (by simp), hother before, hother after, List.nil_append]
    · intro e' he' heq
      exact hnotin.2 (List.mem_map.mpr ⟨e', he', heq⟩)
    · intro e' he' heq
      exact hnotin.1 (List.mem_map.mpr ⟨e', he', heq⟩)
  rw [recordsOf_streamFrom h.sound, hone, List.flatMap_singleton]

theorem Inv.csn_ne_zero (h : Inv crc recovered s) (hmem : e ∈ s.entered) : e.batch.decision.csn ≠ 0 := by
  intro hzero
  have hnumber : e.batch.decision.csn.val ∈ List.range' (recovered.val + 1) s.entered.length := by
    rw [← h.numbered]
    exact List.mem_map_of_mem hmem
  rw [hzero, List.mem_range'_1] at hnumber
  simp at hnumber

theorem Inv.run_cut (h : Inv crc recovered s) (hids : (s.entered.map fun e => e.batch.decision.txn).Nodup)
    (hpre : stream <+: streamFrom 0 s.entered) (txn : TxnId) :
    ((TxnLog.waiting []).run crc (recordsOf txn stream)).isSome := by
  have hall : ((TxnLog.waiting []).run crc (recordsOf txn (streamFrom 0 s.entered))).isSome := by
    by_cases hin : ∃ e ∈ s.entered, e.batch.decision.txn = txn
    · obtain ⟨e, hmem, rfl⟩ := hin
      rw [h.recordsOf_entered hids hmem]
      exact (h.sound e hmem).run (h.csn_ne_zero hmem)
    · have hnone : (s.entered.filter fun e => decide (e.batch.decision.txn = txn)) = [] :=
        List.filter_eq_nil_iff.mpr fun e he => by simpa using fun heq => hin ⟨e, he, heq⟩
      rw [recordsOf_streamFrom h.sound, hnone]
      rfl
  obtain ⟨rest, hrest⟩ := hpre
  rw [← hrest, recordsOf_append, TxnLog.run_append] at hall
  cases hrun : (TxnLog.waiting []).run crc (recordsOf txn stream) with
  | none => simp [hrun] at hall
  | some log => rfl

theorem Inv.mutationsOf_cut (h : Inv crc recovered s) (hids : (s.entered.map fun e => e.batch.decision.txn).Nodup)
    (hpre : stream <+: streamFrom 0 s.entered) (hmem : e ∈ s.entered)
    (hcommit : (e.lsn, e.batch.decision) ∈ commitsOf stream) :
    mutationsOf e.batch.decision.txn stream = e.batch.mutations := by
  have hrecords : recordsOf e.batch.decision.txn stream <+: batchRecords e.batch.mutations e.batch.decision := by
    rw [← h.recordsOf_entered hids hmem]
    exact (hpre.map Prod.snd).filter _
  have hdecision : LogRecord.commit e.batch.decision ∈ recordsOf e.batch.decision.txn stream :=
    List.mem_filter.mpr ⟨List.mem_map.mpr ⟨_, mem_commitsOf.mp hcommit, rfl⟩, by simp [LogRecord.txn]⟩
  -- the decision is the last record of the batch, so all of them are there
  rcases List.prefix_concat_iff.mp hrecords with heq | hshort
  · rw [mutationsOf_eq, heq, mutationRecords, List.filterMap_append, List.filterMap_map]
    simp
  · obtain ⟨mutation, -, heq⟩ := List.mem_map.mp (hshort.subset hdecision)
    cases heq

/-- Whatever the log has lost behind its durable position, recovery of what is left gives out the
first of the transactions that were handed to the log, each with its mutations, among them every one
whose decision is durable; as long as no two of them bear the same identity. -/
theorem crash_prefix_recovers (h : (machine crc recovered).Reachable s)
    (hids : (s.entered.map fun e => e.batch.decision.txn).Nodup)
    {n : ℕ} (hdurable : s.durableLsn ≤ n) (hn : n ≤ s.written.length) :
    ∃ emitted last, RecoveryAssembler.new.feed crc (recoveredStream crc (s.written.take n)) = .ok (emitted, last) ∧
      (emitted.map RecoveredTransaction.logical <+:
        s.entered.map fun e => (e.batch.decision.txn, e.batch.decision.csn, e.batch.mutations)) ∧
      (emitted.map fun transaction => transaction.csn.val) = List.range' (recovered.val + 1) emitted.length ∧
      ∀ (handle : ℕ) (txn : Committer), s.transactions[handle]? = some txn → ∀ lsn, txn.decisionLsn = some lsn →
        lsn ≤ s.durableLsn →
        ∃ transaction ∈ emitted, transaction.txn = txn.id ∧ transaction.lsn = lsn ∧
          transaction.mutations = txn.mutations := by
  have hinv := inv_of_reachable h
  set stream := recoveredStream crc (s.written.take n) with hstream
  have hcut := hinv.recoveredStream_eq hn
  have hpre : stream <+: streamFrom 0 s.entered := by
    rw [hstream, hcut]
    exact hinv.stream_prefix n
  have hcommits : commitsOf stream = (s.entered.filter fun e => decide (e.lsn ≤ n)).map fun e =>
      (e.lsn, e.batch.decision) :=
    hinv.commitsOf_cut hn
  have hempty : ∀ txn, RecoveryAssembler.new.log txn = .waiting [] := fun txn => by
    simp [RecoveryAssembler.log, RecoveryAssembler.new, RecoveryAssembler.waiting]
  have hnumbers : ((commitsOf stream).map fun commit => commit.2.csn.val) =
      List.range' (recovered.val + 1) (commitsOf stream).length :=
    hinv.numbers_cut hn
  have haccepts : RecoveryAssembler.new.Accepts crc stream := by
    refine ⟨?_, fun txn => ?_, ?_⟩
    · exact hinv.pairwise_stream.sublist (hpre.map Prod.fst).sublist
    · rw [hempty]
      exact hinv.run_cut hids hpre txn
    · have hlt : (((commitsOf stream).map fun commit => commit.2.csn.val)).Pairwise (· < ·) := by
        rw [hnumbers]
        exact List.pairwise_lt_range'
      show ((commitsOf stream).map fun commit => commit.2.csn).Pairwise (· < ·)
      rw [List.pairwise_map] at hlt ⊢
      exact hlt
  obtain ⟨-, last, hfeed⟩ :=
    (RecoveryAssembler.feed_cases crc .new stream).resolve_right fun hrefused => hrefused.1 haccepts
  have hemitted : RecoveryAssembler.new.emittedFrom stream =
      (s.entered.filter fun e => decide (e.lsn ≤ n)).map fun e =>
        ⟨e.batch.decision.txn, e.batch.decision.csn, e.lsn, e.batch.mutations⟩ := by
    rw [RecoveryAssembler.emittedFrom, hcommits, List.map_map]
    refine List.map_congr_left fun e hmem => ?_
    have hcommit : (e.lsn, e.batch.decision) ∈ commitsOf stream := by
      rw [hcommits]
      exact List.mem_map_of_mem hmem
    have hmutations := hinv.mutationsOf_cut hids hpre (List.mem_filter.mp hmem).1 hcommit
    simp [hempty, TxnLog.mutations, hmutations]
  refine ⟨_, last, hfeed, ?_, ?_, ?_⟩
  · rw [hemitted, List.map_map]
    exact (hinv.entered_prefix n).map _
  · rw [RecoveryAssembler.emittedFrom, List.map_map, List.length_map]
    exact hnumbers
  · intro handle txn hget lsn hlsn hle
    obtain ⟨e, hmem, rfl, hid, hmutations⟩ := hinv.recorded handle txn hget lsn hlsn
    refine ⟨⟨e.batch.decision.txn, e.batch.decision.csn, e.lsn, e.batch.mutations⟩, ?_, hid, rfl, hmutations⟩
    rw [hemitted]
    exact List.mem_map.mpr ⟨e, List.mem_filter.mpr ⟨hmem, by simpa using hle.trans hdurable⟩, rfl⟩

/-- The failing append cut after two of its bytes. -/
theorem crash_prefix_recovers_failing :
    ∃ s, (machine (fun _ => 0) 0).run (new 0) failingActs = some s ∧ s.durableLsn = 87 ∧ s.written.length = 92 ∧
      ∃ emitted last, RecoveryAssembler.new.feed (fun _ => 0) (recoveredStream (fun _ => 0) (s.written.take 89)) =
        .ok (emitted, last) ∧ (emitted.map fun transaction => transaction.csn.val) = List.range' 1 emitted.length := by
  have hrun : ((machine (fun _ => 0) 0).run (new 0) failingActs).map (fun s =>
      (s.durableLsn, s.written.length, s.entered.map fun e => e.batch.decision.txn)) = some (87, 92, [1, 2]) := by
      decide +kernel
  obtain ⟨s, hs, hvalues⟩ := Option.map_eq_some_iff.mp hrun
  simp only [Prod.mk.injEq] at hvalues
  obtain ⟨hdurable, hlength, hids⟩ := hvalues
  obtain ⟨emitted, last, hfeed, -, hnumbers, -⟩ :=
    crash_prefix_recovers (Machine.reachable_run (.init rfl) hs) (by rw [hids]; decide)
    (show s.durableLsn ≤ 89 by rw [hdurable]; decide) (by omega)
  exact ⟨s, hs, hdurable, hlength, emitted, last, hfeed, hnumbers⟩

def sameIdActs : List AppendAct :=
  [.start 0 1 [], .beginValidation 0, .enter 0, .lock 0, .write 0 none, .start 1 1 [], .beginValidation 1, .enter 1,
    .lock 1, .write 1 none]

/-- Recovery refuses a log in which one identity has committed twice. -/
theorem same_id_not_recovered :
    ∃ s, (machine (fun _ => 0) 0).Reachable s ∧
      (∀ handle < 2, (s.transactions[handle]?.map Committer.phase) = some .walAppended) ∧
      ∃ error, RecoveryAssembler.new.feed (fun _ => 0) (recoveredStream (fun _ => 0) s.written) = .error error := by
  have hrun : ((machine (fun _ => 0) 0).run (new 0) sameIdActs).map (fun s =>
      (s.transactions[0]?.map Committer.phase, s.transactions[1]?.map Committer.phase,
        (RecoveryAssembler.new.feed (fun _ => 0) (recoveredStream (fun _ => 0) s.written)).toOption.isNone)) =
      some (some .walAppended, some .walAppended, true) := by decide +kernel
  obtain ⟨s, hs, hvalues⟩ := Option.map_eq_some_iff.mp hrun
  simp only [Prod.mk.injEq] at hvalues
  obtain ⟨hfirst, hsecond, hnone⟩ := hvalues
  refine ⟨s, Machine.reachable_run (.init rfl) hs, ?_, ?_⟩
  · intro handle hlt
    interval_cases handle
    · exact hfirst
    · exact hsecond
  · cases hfeed : RecoveryAssembler.new.feed (fun _ => 0) (recoveredStream (fun _ => 0) s.written) with
    | error error => exact ⟨error, rfl⟩
    | ok fed => simp [hfeed, Except.toOption] at hnone

end Appender
end OmenDb.Vnext
