import OmenDb.Lib.Fields
import OmenDb.Lib.FrameParse
import OmenDb.Vnext.FinalEffects

/-! The records of the transaction log and their frames. A frame is a header of twelve bytes with a
checksum of its own, a payload, and a checksum over both. A cut frame is told from a damaged one by
its header, so the header is checked before its length is used. The checksum is an arbitrary function
of bytes here. -/
namespace OmenDb.Vnext

open FrameLog

structure CommitDecision where
  txn : TxnId
  csn : Word 8
  mutationCount : Word 4
  mutationDigest : Word 4
  deriving DecidableEq

inductive LogRecord
  | mutation (mutation : LoggedMutation)
  | commit (decision : CommitDecision)
  | abort (txn : TxnId)
  deriving DecidableEq

inductive LogEncodeError
  | recordTooLarge
  deriving DecidableEq

inductive LogParseStatus
  | complete
  | incomplete
  | corrupt
  deriving DecidableEq

structure ParsedLogRecord where
  record : LogRecord
  endOffset : ℕ
  deriving DecidableEq

def logFormatVersion : Word 2 := 2
def headerChecksumOffset : ℕ := 8
def logHeaderSize : ℕ := 12
def logTrailerSize : ℕ := 4
def minRecordLength : ℕ := logHeaderSize - 4 + logTrailerSize
def mutationFixedPayload : ℕ := 8 + 4 + 8 + 1 + 4 + 4

def MutationKind.raw : MutationKind → Fin 256
  | .orderedPut => 1
  | .orderedDelete => 2

def encodeMutationPayload (mutation : LoggedMutation) : Except LogEncodeError Bytes :=
  match (Word.ofLength? mutation.key.length : Option (Word 4)),
      (Word.ofLength? mutation.value.length : Option (Word 4)) with
  | some keyLength, some valueLength =>
    if mutation.kind = .orderedDelete ∧ valueLength ≠ 0 then .error .recordTooLarge
    else .ok (mutation.txn.toLe ++ (mutation.ordinal.toLe ++ (mutation.object.toLe ++ ([mutation.kind.raw] ++
      (keyLength.toLe ++ (valueLength.toLe ++ (mutation.key ++ mutation.value)))))))
  | _, _ => .error .recordTooLarge

def encodeCommitPayload (decision : CommitDecision) : Bytes :=
  decision.txn.toLe ++ (decision.csn.toLe ++ (decision.mutationCount.toLe ++ decision.mutationDigest.toLe))

def LogRecord.kind : LogRecord → Fin 256
  | .mutation _ => 1
  | .commit _ => 2
  | .abort _ => 3

def LogRecord.payload : LogRecord → Except LogEncodeError Bytes
  | .mutation logged => encodeMutationPayload logged
  | .commit decision => .ok (encodeCommitPayload decision)
  | .abort txn => .ok txn.toLe

section Checksum

variable (crc : Bytes → Word 4)

def logHeader (length : Word 4) (kind : Fin 256) : Bytes :=
  let fields := length.toLe ++ (logFormatVersion.toLe ++ [kind, 0])
  fields ++ (crc fields).toLe

def LogRecord.toBytes (record : LogRecord) : Except LogEncodeError Bytes :=
  match record.payload with
  | .error error => .error error
  | .ok payload =>
    match (Word.ofLength? (logHeaderSize - 4 + payload.length + logTrailerSize) : Option (Word 4)) with
    | none => .error .recordTooLarge
    | some length =>
      let bytes := logHeader crc length record.kind ++ payload
      .ok (bytes ++ (crc bytes).toLe)

def mutationPayloads : List LoggedMutation → Except LogEncodeError Bytes
  | [] => .ok []
  | mutation :: mutations =>
    match encodeMutationPayload mutation with
    | .error error => .error error
    | .ok payload =>
      match mutationPayloads mutations with
      | .error error => .error error
      | .ok rest => .ok (payload ++ rest)

def mutationDigest (mutations : List LoggedMutation) : Except LogEncodeError (Word 4) :=
  match mutationPayloads mutations with
  | .error error => .error error
  | .ok canonical => .ok (crc canonical)

def ValidRecordHeader (header : Bytes) : Prop :=
  header.length = logHeaderSize ∧ (Word.ofLe (slice header 4 6) : Word 2) = logFormatVersion ∧ slice header 7 8 = [0] ∧
    (slice header 6 7 = [1] ∨ slice header 6 7 = [2] ∨ slice header 6 7 = [3]) ∧
    (Word.ofLe (slice header headerChecksumOffset logHeaderSize) : Word 4) = crc (slice header 0 headerChecksumOffset)

instance (header : Bytes) : Decidable (ValidRecordHeader crc header) := by
  unfold ValidRecordHeader
  infer_instance

def decodeMutationKind (raw : Bytes) : Option MutationKind :=
  if raw = [1] then some .orderedPut else if raw = [2] then some .orderedDelete else none

def decodeMutationPayload (payload : Bytes) : Option LoggedMutation :=
  if payload.length < mutationFixedPayload then none
  else match decodeMutationKind (slice payload 20 21) with
  | none => none
  | some kind =>
    let keyLength := (Word.ofLe (slice payload 21 25) : Word 4).val
    let valueLength := (Word.ofLe (slice payload 25 29) : Word 4).val
    if kind = .orderedDelete ∧ valueLength ≠ 0 then none
    else
      let keyEnd := mutationFixedPayload + keyLength
      let valueEnd := keyEnd + valueLength
      if valueEnd ≠ payload.length then none
      else some ⟨.ofLe (slice payload 0 8), .ofLe (slice payload 8 12), .ofLe (slice payload 12 20), kind,
        slice payload mutationFixedPayload keyEnd, slice payload keyEnd valueEnd⟩

def decodeCommitPayload (payload : Bytes) : Option CommitDecision :=
  if payload.length ≠ 24 then none
  else some ⟨.ofLe (slice payload 0 8), .ofLe (slice payload 8 16), .ofLe (slice payload 16 20),
    .ofLe (slice payload 20 24)⟩

def decodePayload (kind payload : Bytes) : Option LogRecord :=
  if kind = [1] then (decodeMutationPayload payload).map .mutation
  else if kind = [2] then (decodeCommitPayload payload).map .commit
  else if kind = [3] then (if payload.length = 8 then some (.abort (.ofLe (slice payload 0 8))) else none)
  else none

def recordLength (header : Bytes) : ℕ := (Word.ofLe (slice header 0 4) : Word 4).val

def decodeCompleteRecord (frame : Bytes) : Option LogRecord :=
  if frame.length < logHeaderSize + logTrailerSize ∨ ¬ValidRecordHeader crc (slice frame 0 logHeaderSize) then none
  else if recordLength frame < minRecordLength ∨ frame.length ≠ 4 + recordLength frame then none
  else
    let payloadEnd := frame.length - logTrailerSize
    if (Word.ofLe (slice frame payloadEnd frame.length) : Word 4) ≠ crc (slice frame 0 payloadEnd) then none
    else decodePayload (slice frame 6 7) (slice frame logHeaderSize payloadEnd)

/-- The record at the front of the input, one round of the loop of `parse_log_prefix_frames`. -/
def nextRecord : Reader (Fin 256) Unit LogRecord := fun bytes =>
  if bytes.length < logHeaderSize then .ok none
  else if ¬ValidRecordHeader crc (slice bytes 0 logHeaderSize) then .error ()
  else if recordLength bytes < minRecordLength then .error ()
  else if bytes.length < 4 + recordLength bytes then .ok none
  else match decodeCompleteRecord crc (slice bytes 0 (4 + recordLength bytes)) with
  | none => .error ()
  | some record => .ok (some (record, 4 + recordLength bytes))

def endOffsets : ℕ → List (LogRecord × Bytes) → List ParsedLogRecord
  | _, [] => []
  | offset, frame :: frames => ⟨frame.1, offset + frame.2.length⟩ :: endOffsets (offset + frame.2.length) frames

def parseStatus : Stop Unit → LogParseStatus
  | .complete => .complete
  | .incomplete => .incomplete
  | .refused _ => .corrupt

def parseLogPrefixFrames (bytes : Bytes) : List ParsedLogRecord × LogParseStatus :=
  let (frames, stop) := parse (nextRecord crc) bytes.length bytes
  (endOffsets 0 frames, parseStatus stop)

end Checksum

theorem decodeMutationKind_raw (kind : MutationKind) : decodeMutationKind [kind.raw] = some kind := by
  cases kind <;> rfl

theorem raw_of_decodeMutationKind {raw : Bytes} {kind : MutationKind} (h : decodeMutationKind raw = some kind) :
    raw = [kind.raw] := by
  rw [decodeMutationKind] at h
  split at h
  · next heq =>
    cases h
    exact heq
  split at h
  · next heq =>
    cases h
    exact heq
  · cases h

variable {mutation : LoggedMutation} {payload : Bytes} {record : LogRecord} {frames framed : List (LogRecord × Bytes)}
  {crc : Bytes → Word 4}

theorem encodeMutationPayload_ok (h : encodeMutationPayload mutation = .ok payload) :
    ∃ keyLength valueLength : Word 4, keyLength.val = mutation.key.length ∧ valueLength.val = mutation.value.length ∧
      ¬(mutation.kind = .orderedDelete ∧ valueLength ≠ 0) ∧
      payload = mutation.txn.toLe ++ (mutation.ordinal.toLe ++ (mutation.object.toLe ++ ([mutation.kind.raw] ++
        (keyLength.toLe ++ (valueLength.toLe ++ (mutation.key ++ mutation.value)))))) := by
  rw [encodeMutationPayload] at h
  split at h
  · next keyLength valueLength hkey hvalue =>
    split at h
    · cases h
    next hdelete =>
    cases h
    exact ⟨keyLength, valueLength, Word.ofLength?_eq_some hkey, Word.ofLength?_eq_some hvalue, hdelete, rfl⟩
  · cases h

theorem decodeMutationPayload_encode (h : encodeMutationPayload mutation = .ok payload) :
    decodeMutationPayload payload = some mutation := by
  obtain ⟨keyLength, valueLength, hkey, hvalue, hdelete, rfl⟩ := encodeMutationPayload_ok h
  generalize hfixed : mutation.txn.toLe ++ (mutation.ordinal.toLe ++ (mutation.object.toLe ++ ([mutation.kind.raw] ++
    (keyLength.toLe ++ valueLength.toLe)))) = fixed
  have hlength : fixed.length = mutationFixedPayload := by
    rw [← hfixed]
    simp [mutationFixedPayload]
  have hparts : mutation.txn.toLe ++ (mutation.ordinal.toLe ++ (mutation.object.toLe ++ ([mutation.kind.raw] ++
      (keyLength.toLe ++ (valueLength.toLe ++ (mutation.key ++ mutation.value)))))) = fixed ++
        (mutation.key ++ mutation.value) := by
    rw [← hfixed]
    simp
  have hfields : ∀ a b, b ≤ mutationFixedPayload → slice (fixed ++ (mutation.key ++ mutation.value)) a b =
      slice fixed a b :=
    fun a b hb => slice_append_of_le _ _ (hlength ▸ hb)
  have htxn : slice fixed 0 8 = mutation.txn.toLe := by
    rw [← hfixed]
    exact slice_front _ _ (Word.length_toLe _)
  have hordinal : slice fixed 8 12 = mutation.ordinal.toLe := by
    rw [← hfixed, slice_skip _ _ (Word.length_toLe _) le_rfl]
    exact slice_front _ _ (Word.length_toLe _)
  have hobject : slice fixed 12 20 = mutation.object.toLe := by
    rw [← hfixed, slice_skip _ _ (Word.length_toLe _) (by decide), slice_skip _ _ (Word.length_toLe _) (by decide)]
    exact slice_front _ _ (Word.length_toLe _)
  have htail : ∀ a b, 20 ≤ a → slice fixed a b = slice ([mutation.kind.raw] ++ (keyLength.toLe ++ valueLength.toLe))
      (a - 20) (b - 20) := by
    intro a b ha
    rw [← hfixed, slice_skip _ _ (Word.length_toLe _) (by omega), slice_skip _ _ (Word.length_toLe _) (by omega),
      slice_skip _ _ (Word.length_toLe _) (by omega)]
    congr 1
  have hkind : slice fixed 20 21 = [mutation.kind.raw] := by
    rw [htail 20 21 le_rfl]
    exact slice_front _ _ rfl
  have hkeyField : slice fixed 21 25 = keyLength.toLe := by
    rw [htail 21 25 (by decide), slice_skip _ _ (show [mutation.kind.raw].length = 1 from rfl) le_rfl]
    exact slice_front _ _ (Word.length_toLe _)
  have hvalueField : slice fixed 25 29 = valueLength.toLe := by
    rw [htail 25 29 (by decide), slice_skip _ _ (show [mutation.kind.raw].length = 1 from rfl) (by decide),
      slice_skip _ _ (Word.length_toLe _) le_rfl]
    exact slice_all _ (by simp)
  have hsize : (fixed ++ (mutation.key ++ mutation.value)).length =
      mutationFixedPayload + mutation.key.length + mutation.value.length := by
    simp only [List.length_append, hlength]
    omega
  have hkeyBytes : slice (fixed ++ (mutation.key ++ mutation.value)) mutationFixedPayload
    (mutationFixedPayload + mutation.key.length) =
      mutation.key := by
    rw [slice_skip _ _ hlength le_rfl, Nat.sub_self, Nat.add_sub_cancel_left]
    exact slice_front _ _ rfl
  have hvalueBytes : slice (fixed ++ (mutation.key ++ mutation.value)) (mutationFixedPayload + mutation.key.length)
      (mutationFixedPayload + mutation.key.length + mutation.value.length) = mutation.value := by
    rw [slice_skip _ _ hlength (by omega), Nat.add_sub_cancel_left, Nat.add_assoc, Nat.add_sub_cancel_left,
      slice_append_at]
    exact slice_all _ le_rfl
  rw [hparts, decodeMutationPayload, if_neg (by rw [hsize]; omega), hfields 20 21 (by decide), hkind,
    decodeMutationKind_raw]
  dsimp only
  rw [hfields 21 25 (by decide), hkeyField, hfields 25 29 (by decide), hvalueField, Word.ofLe_toLe,
    Word.ofLe_toLe, if_neg,
    hkey, hvalue, if_neg (by rw [hsize]; simp), hfields 0 8 (by decide), htxn, hfields 8 12 (by decide), hordinal,
    hfields 12 20 (by decide), hobject, hkeyBytes, hvalueBytes, Word.ofLe_toLe, Word.ofLe_toLe, Word.ofLe_toLe]
  rintro ⟨hkind, hne⟩
  exact hdelete ⟨hkind, fun heq => hne (by rw [heq]; rfl)⟩

theorem encodeMutationPayload_decode (h : decodeMutationPayload payload = some mutation) :
    encodeMutationPayload mutation = .ok payload := by
  rw [decodeMutationPayload] at h
  split at h
  · cases h
  next hlong =>
  split at h
  · cases h
  next kind hkind =>
  dsimp only at h
  split at h
  · cases h
  next hdelete =>
  split at h
  · cases h
  next hend =>
  cases h
  push Not at hend
  have hlong : mutationFixedPayload ≤ payload.length := not_lt.mp hlong
  have hraw := raw_of_decodeMutationKind hkind
  generalize hkl : (Word.ofLe (slice payload 21 25) : Word 4) = keyLength at *
  generalize hvl : (Word.ofLe (slice payload 25 29) : Word 4) = valueLength at *
  have hwidth : ∀ a b, b ≤ mutationFixedPayload → (slice payload a b).length = b - a :=
    fun a b hb => length_slice_le _ (hb.trans hlong)
  have hkeyLength : (slice payload mutationFixedPayload (mutationFixedPayload + keyLength.val)).length =
      keyLength.val := by
    rw [length_slice_le _ (by omega), Nat.add_sub_cancel_left]
  have hvalueLength : (slice payload (mutationFixedPayload + keyLength.val)
    (mutationFixedPayload + keyLength.val + valueLength.val)).length =
      valueLength.val := by
    rw [length_slice_le _ (by omega), Nat.add_sub_cancel_left]
  have hkeyWord : (Word.ofLength? (slice payload mutationFixedPayload (mutationFixedPayload + keyLength.val)).length :
    Option (Word 4)) =
      some keyLength := by
    rw [hkeyLength, Word.ofLength?_of_lt keyLength.isLt]
  have hvalueWord : (Word.ofLength? (slice payload (mutationFixedPayload + keyLength.val)
      (mutationFixedPayload + keyLength.val + valueLength.val)).length : Option (Word 4)) = some valueLength := by
    rw [hvalueLength, Word.ofLength?_of_lt valueLength.isLt]
  have hkeyField : keyLength.toLe = slice payload 21 25 := by rw [← hkl, Word.toLe_ofLe (hwidth 21 25 (by decide))]
  have hvalueField : valueLength.toLe = slice payload 25 29 := by rw [← hvl, Word.toLe_ofLe (hwidth 25 29 (by decide))]
  rw [encodeMutationPayload]
  dsimp only
  rw [hkeyWord, hvalueWord]
  dsimp only
  rw [if_neg, Word.toLe_ofLe (hwidth 0 8 (by decide)), Word.toLe_ofLe (hwidth 8 12 (by decide)),
    Word.toLe_ofLe (hwidth 12 20 (by decide)), ← hraw, hkeyField, hvalueField]
  · have hfixed : mutationFixedPayload = 29 := rfl
    rw [slice_append_slice (by omega) (by omega), hend]
    rw [hfixed] at hlong ⊢
    rw [slice_append_slice (by decide) hlong, slice_append_slice (by decide) (by omega),
      slice_append_slice (by decide) (by omega),
      slice_append_slice (by decide) (by omega), slice_append_slice (by decide) (by omega),
      slice_append_slice (by decide) (by omega), slice_all _ le_rfl]
  · rintro ⟨hkind, hne⟩
    exact hdelete ⟨hkind, fun heq => hne (Fin.ext heq)⟩

theorem decodeCommitPayload_encode (decision : CommitDecision) :
    decodeCommitPayload (encodeCommitPayload decision) = some decision := by
  have htxn : slice (encodeCommitPayload decision) 0 8 = decision.txn.toLe := slice_front _ _ (Word.length_toLe _)
  have hcsn : slice (encodeCommitPayload decision) 8 16 = decision.csn.toLe := by
    rw [encodeCommitPayload, slice_skip _ _ (Word.length_toLe _) le_rfl]
    exact slice_front _ _ (Word.length_toLe _)
  have hcount : slice (encodeCommitPayload decision) 16 20 = decision.mutationCount.toLe := by
    rw [encodeCommitPayload, slice_skip _ _ (Word.length_toLe _) (by decide),
      slice_skip _ _ (Word.length_toLe _) (by decide)]
    exact slice_front _ _ (Word.length_toLe _)
  have hdigest : slice (encodeCommitPayload decision) 20 24 = decision.mutationDigest.toLe := by
    rw [encodeCommitPayload, slice_skip _ _ (Word.length_toLe _) (by decide),
      slice_skip _ _ (Word.length_toLe _) (by decide), slice_skip _ _ (Word.length_toLe _) (by decide)]
    exact slice_all _ (by simp)
  rw [decodeCommitPayload, if_neg (by simp [encodeCommitPayload]), htxn, hcsn, hcount, hdigest]
  simp

theorem encodeCommitPayload_decode {decision : CommitDecision} (h : decodeCommitPayload payload = some decision) :
    encodeCommitPayload decision = payload := by
  rw [decodeCommitPayload] at h
  split at h
  · cases h
  next hlength =>
  cases h
  have hlength : payload.length = 24 := not_not.mp hlength
  have hwidth : ∀ a b, b ≤ 24 → (slice payload a b).length = b - a := fun a b hb => length_slice_le _ (hlength ▸ hb)
  rw [encodeCommitPayload, Word.toLe_ofLe (hwidth 0 8 (by decide)), Word.toLe_ofLe (hwidth 8 16 (by decide)),
    Word.toLe_ofLe (hwidth 16 20 (by decide)), Word.toLe_ofLe (hwidth 20 24 (by decide)),
    slice_append_slice (by decide) (by decide),
    slice_append_slice (by decide) (by decide), slice_append_slice (by decide) (by decide), slice_all _ hlength.le]

theorem decodePayload_payload (h : record.payload = .ok payload) :
    decodePayload [record.kind] payload = some record := by
  cases record with
  | mutation logged =>
    show (decodeMutationPayload payload).map LogRecord.mutation = _
    rw [decodeMutationPayload_encode h]
    rfl
  | commit decision =>
    cases h
    show (decodeCommitPayload (encodeCommitPayload decision)).map LogRecord.commit = _
    rw [decodeCommitPayload_encode]
    rfl
  | abort txn =>
    cases h
    show (if txn.toLe.length = 8 then some (LogRecord.abort (.ofLe (slice txn.toLe 0 8))) else none) = _
    rw [if_pos (Word.length_toLe _), slice_all _ (Word.length_toLe _).le, Word.ofLe_toLe]

theorem payload_of_decodePayload {kind : Bytes} (h : decodePayload kind payload = some record) :
    kind = [record.kind] ∧ record.payload = .ok payload := by
  rw [decodePayload] at h
  split at h
  · next hkind =>
    obtain ⟨mutation, hmutation, rfl⟩ := Option.map_eq_some_iff.mp h
    exact ⟨hkind, encodeMutationPayload_decode hmutation⟩
  split at h
  · next hkind =>
    obtain ⟨decision, hdecision, rfl⟩ := Option.map_eq_some_iff.mp h
    exact ⟨hkind, congrArg Except.ok (encodeCommitPayload_decode hdecision)⟩
  split at h
  · next hkind =>
    split at h
    · next hlength =>
      cases h
      refine ⟨hkind, congrArg Except.ok ?_⟩
      rw [slice_all _ hlength.le, Word.toLe_ofLe hlength]
    · cases h
  · cases h

section Frames

variable {crc : Bytes → Word 4} {record : LogRecord} {raw : Bytes}

@[simp] theorem length_logHeader (length : Word 4) (kind : Fin 256) :
    (logHeader crc length kind).length = logHeaderSize := by
  simp [logHeader, logHeaderSize]

theorem LogRecord.toBytes_ok (h : record.toBytes crc = .ok raw) :
    ∃ (payload : Bytes) (length : Word 4), record.payload = .ok payload ∧
      length.val = logHeaderSize - 4 + payload.length + logTrailerSize ∧
      raw = logHeader crc length record.kind ++ payload ++
        (crc (logHeader crc length record.kind ++ payload)).toLe := by
  rw [toBytes] at h
  split at h
  · cases h
  next payload hpayload =>
  split at h
  · cases h
  next length hlength =>
  cases h
  exact ⟨payload, length, hpayload, Word.ofLength?_eq_some hlength, rfl⟩

theorem validRecordHeader_logHeader (length : Word 4) (record : LogRecord) :
    ValidRecordHeader crc (logHeader crc length record.kind) := by
  have hfields : (length.toLe ++ (logFormatVersion.toLe ++ [record.kind, 0])).length = headerChecksumOffset := by
    simp [headerChecksumOffset]
  have hfront : ∀ a b, b ≤ headerChecksumOffset →
      slice (logHeader crc length record.kind) a b =
        slice (length.toLe ++ (logFormatVersion.toLe ++ [record.kind, 0])) a b :=
    fun a b hb => slice_append_of_le _ _ (hfields ▸ hb)
  have hafter : ∀ a b, 6 ≤ a → slice (length.toLe ++ (logFormatVersion.toLe ++ [record.kind, 0])) a b =
      slice [record.kind, 0] (a - 6) (b - 6) := by
    intro a b ha
    rw [slice_skip _ _ (Word.length_toLe _) (by omega), slice_skip _ _ (Word.length_toLe _) (by omega)]
    congr 1
  have hkind : slice (logHeader crc length record.kind) 6 7 = [record.kind] := by
    rw [hfront 6 7 (by decide), hafter 6 7 le_rfl]
    rfl
  refine ⟨length_logHeader _ _, ?_, ?_, ?_, ?_⟩
  · rw [hfront 4 6 (by decide), slice_skip _ _ (Word.length_toLe _) le_rfl, slice_front _ _ (Word.length_toLe _),
      Word.ofLe_toLe]
  · rw [hfront 7 8 (by decide), hafter 7 8 (by decide)]
    rfl
  · rw [hkind]
    cases record with
    | mutation => exact .inl rfl
    | commit => exact .inr (.inl rfl)
    | abort => exact .inr (.inr rfl)
  · rw [hfront 0 _ le_rfl, slice_all _ hfields.le, logHeader]
    rw [slice_skip _ _ hfields le_rfl, Nat.sub_self, slice_all _ (by simp [logHeaderSize, headerChecksumOffset]),
      Word.ofLe_toLe]

theorem recordLength_logHeader (length : Word 4) (kind : Fin 256) (rest : Bytes) :
    recordLength (logHeader crc length kind ++ rest) = length.val := by
  rw [recordLength, slice_append_of_le _ _ (by simp [logHeaderSize]), logHeader]
  rw [slice_append_of_le _ _ (by simp), slice_front _ _ (Word.length_toLe _), Word.ofLe_toLe]

theorem ValidRecordHeader.eq_logHeader {header : Bytes} (h : ValidRecordHeader crc header) {kind : Fin 256}
    (hkind : slice header 6 7 = [kind]) : header = logHeader crc (.ofLe (slice header 0 4)) kind := by
  obtain ⟨hlength, hversion, hflags, -, hcrc⟩ := h
  have hwidth : ∀ a b, b ≤ logHeaderSize → (slice header a b).length = b - a :=
    fun a b hb => length_slice_le _ (hlength ▸ hb)
  have hversion : logFormatVersion.toLe = slice header 4 6 := by
    rw [← hversion, Word.toLe_ofLe (hwidth 4 6 (by decide))]
  have hfields : (Word.ofLe (slice header 0 4) : Word 4).toLe ++ (logFormatVersion.toLe ++ [kind, 0]) =
      slice header 0 headerChecksumOffset := by
    have hpair : [kind, 0] = slice header 6 7 ++ slice header 7 8 := by rw [hkind, hflags]; rfl
    rw [Word.toLe_ofLe (hwidth 0 4 (by decide)), hversion, hpair, slice_append_slice (by decide) (by decide),
      slice_append_slice (by decide) (by decide), slice_append_slice (by decide) (by decide)]
    rfl
  have hchecksum : (slice header headerChecksumOffset logHeaderSize).length = 4 := hwidth _ _ le_rfl
  rw [logHeader, hfields, ← hcrc, Word.toLe_ofLe hchecksum, slice_append_slice (by decide) (by decide),
    slice_all _ hlength.le]

theorem decodeCompleteRecord_toBytes (h : record.toBytes crc = .ok raw) :
    decodeCompleteRecord crc raw = some record := by
  obtain ⟨payload, length, hpayload, hlength, rfl⟩ := LogRecord.toBytes_ok h
  generalize hbody : logHeader crc length record.kind ++ payload = body
  have hbodyLength : body.length = logHeaderSize + payload.length := by simp [← hbody]
  have hsize : (body ++ (crc body).toLe).length = logHeaderSize + payload.length + logTrailerSize := by
    simp [hbodyLength, logTrailerSize]
  have hfront : ∀ a b, b ≤ logHeaderSize → slice (body ++ (crc body).toLe) a b =
      slice (logHeader crc length record.kind) a b := by
    intro a b hb
    rw [slice_append_of_le _ _ (by omega), ← hbody, slice_append_of_le _ _ (by simpa using hb)]
  have hheader : slice (body ++ (crc body).toLe) 0 logHeaderSize = logHeader crc length record.kind := by
    rw [hfront 0 _ le_rfl, slice_all _ (by simp)]
  have hrecordLength : recordLength (body ++ (crc body).toLe) = length.val := by
    rw [← hbody, List.append_assoc, recordLength_logHeader]
  have hend : (body ++ (crc body).toLe).length - logTrailerSize = body.length := by omega
  have hkind : slice (logHeader crc length record.kind) 6 7 = [record.kind] := by
    rw [logHeader, slice_append_of_le _ _ (by simp), slice_skip _ _ (Word.length_toLe _) (by decide),
      slice_skip _ _ (Word.length_toLe _) (by decide)]
    rfl
  rw [decodeCompleteRecord, if_neg, if_neg, hend]
  · dsimp only
    rw [slice_append_of_le _ _ le_rfl, slice_all _ le_rfl, if_neg, hfront 6 7 (by decide), hkind,
      slice_append_of_le _ _ le_rfl, ← hbody,
      slice_skip _ _ (length_logHeader _ _) le_rfl, List.length_append, length_logHeader, Nat.sub_self,
      Nat.add_sub_cancel_left, slice_all _ le_rfl, decodePayload_payload hpayload]
    rw [slice_skip _ _ rfl le_rfl, Nat.sub_self, slice_all _ (by simp), Word.ofLe_toLe]
    exact not_not.mpr rfl
  · rw [hrecordLength, hlength, hsize]
    unfold minRecordLength logHeaderSize logTrailerSize
    omega
  · rw [hheader, hsize]
    rintro (hshort | hinvalid)
    · omega
    · exact hinvalid (validRecordHeader_logHeader length record)

theorem toBytes_of_decodeCompleteRecord (h : decodeCompleteRecord crc raw = some record) :
    record.toBytes crc = .ok raw := by
  rw [decodeCompleteRecord] at h
  split at h
  · cases h
  next hheader =>
  split at h
  · cases h
  next hlength =>
  dsimp only at h
  split at h
  · cases h
  next hcrc =>
  push Not at hheader hlength hcrc
  obtain ⟨hkind, hpayload⟩ := payload_of_decodePayload h
  obtain ⟨hsize, hvalid⟩ := hheader
  have hkind' : slice (slice raw 0 logHeaderSize) 6 7 = [record.kind] := by rw [slice_slice (by decide), ← hkind]
  have hheader := hvalid.eq_logHeader hkind'
  rw [slice_slice (by decide)] at hheader
  generalize hword : (Word.ofLe (slice raw (0 + 0) (0 + 4)) : Word 4) = length at hheader
  have hrecordLength : recordLength raw = length.val := by rw [← hword, recordLength]
  rw [hrecordLength] at hlength
  have hpayloadLength : (slice raw logHeaderSize (raw.length - logTrailerSize)).length =
      raw.length - logTrailerSize - logHeaderSize :=
    length_slice_le _ (Nat.sub_le _ _)
  have hlengthWord : (Word.ofLength?
    (logHeaderSize - 4 + (slice raw logHeaderSize (raw.length - logTrailerSize)).length + logTrailerSize) :
      Option (Word 4)) = some length := by
    have hval : logHeaderSize - 4 + (slice raw logHeaderSize (raw.length - logTrailerSize)).length + logTrailerSize =
        length.val := by
      unfold logHeaderSize logTrailerSize at *
      omega
    rw [hval, Word.ofLength?_of_lt length.isLt]
  have hbody : logHeader crc length record.kind ++ slice raw logHeaderSize (raw.length - logTrailerSize) =
      slice raw 0 (raw.length - logTrailerSize) := by
    rw [← hheader, slice_append_slice (Nat.zero_le _) (by omega)]
  have htrailer : (slice raw (raw.length - logTrailerSize) raw.length).length = 4 := by
    rw [length_slice_le _ le_rfl]
    unfold logHeaderSize logTrailerSize at *
    omega
  rw [LogRecord.toBytes, hpayload]
  dsimp only
  rw [hlengthWord]
  dsimp only
  rw [hbody, ← hcrc, Word.toLe_ofLe htrailer, slice_append_slice (Nat.zero_le _) (Nat.sub_le _ _), slice_all _ le_rfl]

theorem LogRecord.toBytes_header (h : record.toBytes crc = .ok raw) :
    logHeaderSize ≤ raw.length ∧ raw.length = 4 + recordLength raw ∧ minRecordLength ≤ recordLength raw ∧
      ValidRecordHeader crc (slice raw 0 logHeaderSize) := by
  obtain ⟨payload, length, -, hlength, rfl⟩ := LogRecord.toBytes_ok h
  have hsize : (logHeader crc length record.kind ++ payload ++
    (crc (logHeader crc length record.kind ++ payload)).toLe).length =
      logHeaderSize + payload.length + logTrailerSize := by
    simp [logTrailerSize, Nat.add_assoc]
  rw [hsize, List.append_assoc, recordLength_logHeader, slice_front _ _ (length_logHeader _ _), hlength]
  refine ⟨by omega, ?_, ?_, validRecordHeader_logHeader length record⟩
  · unfold logHeaderSize logTrailerSize
    omega
  · unfold minRecordLength
    omega

theorem framed_toBytes (h : record.toBytes crc = .ok raw) : Framed (nextRecord crc) record raw := by
  obtain ⟨hlong, hsize, hmin, hvalid⟩ := LogRecord.toBytes_header h
  refine ⟨⟨fun rest => ?_, ?_⟩, fun n hpos hlt => ?_⟩
  · have hlength : recordLength (raw ++ rest) = recordLength raw := by
      rw [recordLength, slice_append_of_le _ _ (by unfold logHeaderSize at hlong; omega)]
      rfl
    rw [nextRecord, if_neg (by rw [List.length_append]; omega), slice_append_of_le _ _ hlong,
      if_neg (not_not.mpr hvalid), hlength,
      if_neg (by omega), if_neg (by rw [List.length_append]; omega), ← hsize, slice_front _ _ rfl,
      decodeCompleteRecord_toBytes h]
  · rintro rfl
    unfold logHeaderSize at hlong
    simp at hlong
  · have htake : (raw.take n).length = n := List.length_take_of_le hlt.le
    rw [nextRecord]
    by_cases hshort : n < logHeaderSize
    · rw [if_pos (by omega)]
    have hlength : recordLength (raw.take n) = recordLength raw := by
      rw [recordLength, slice_take (by unfold logHeaderSize at hshort; omega)]
      rfl
    rw [if_neg (by omega), slice_take (by omega), if_neg (not_not.mpr hvalid), hlength, if_neg (by omega),
      if_pos (by omega)]

theorem nextRecord_ok {bytes : Bytes} {n : ℕ} (h : nextRecord crc bytes = .ok (some (record, n))) :
    record.toBytes crc = .ok (bytes.take n) ∧ n ≤ bytes.length := by
  rw [nextRecord] at h
  split at h
  · cases h
  split at h
  · cases h
  split at h
  · cases h
  split at h
  · cases h
  next hlong =>
  split at h
  · cases h
  next found hdecode =>
  cases h
  refine ⟨?_, not_lt.mp hlong⟩
  rw [← slice_zero]
  exact toBytes_of_decodeCompleteRecord hdecode

theorem nextRecord_local (crc : Bytes → Word 4) : Local (nextRecord crc) where
  pos h := by
    obtain ⟨hbytes, hle⟩ := nextRecord_ok h
    have hne := (framed_toBytes hbytes).nonempty
    apply Nat.pos_of_ne_zero
    rintro rfl
    exact hne rfl
  le h := (nextRecord_ok h).2
  front h rest := by
    obtain ⟨hbytes, hle⟩ := nextRecord_ok h
    have hnext := (framed_toBytes hbytes).next rest
    rwa [List.length_take_of_le hle] at hnext

end Frames

theorem le_endOffset {offset : ℕ} {parsed : ParsedLogRecord} (h : parsed ∈ endOffsets offset frames) :
    offset ≤ parsed.endOffset := by
  induction frames generalizing offset with
  | nil => simp [endOffsets] at h
  | cons frame frames ih =>
    rcases List.mem_cons.mp h with rfl | h
    · exact Nat.le_add_right _ _
    · exact (Nat.le_add_right _ _).trans (ih h)

theorem endOffsets_whole (offset : ℕ) (frames : List (LogRecord × Bytes)) (n : ℕ) :
    endOffsets offset (whole frames n) = (endOffsets offset frames).filter fun parsed =>
      decide (parsed.endOffset ≤ offset + n) := by
  induction frames generalizing offset n with
  | nil => rfl
  | cons frame frames ih =>
    rw [whole, endOffsets]
    split
    · next hle =>
      have hshift : offset + frame.2.length + (n - frame.2.length) = offset + n := by omega
      rw [List.filter_cons_of_pos (by simpa using hle), endOffsets, ih, hshift]
    · next hlt =>
      rw [List.filter_cons_of_neg (by simpa using hlt), List.filter_eq_nil_iff.mpr]
      · rfl
      · intro parsed hparsed
        have := le_endOffset hparsed
        simp only [decide_eq_true_eq]
        omega

theorem length_whole_iff (hne : ∀ frame ∈ frames, frame.2 ≠ []) (offset n : ℕ) :
    (raws (whole frames n)).length = n ↔ n = 0 ∨ ∃ parsed ∈ endOffsets offset frames, parsed.endOffset =
      offset + n := by
  induction frames generalizing offset n with
  | nil => simp [whole, endOffsets, eq_comm]
  | cons frame frames ih =>
    have hpos : 0 < frame.2.length := List.length_pos_iff.mpr (hne frame (by simp))
    rw [whole]
    split
    · next hle =>
      have hshift : offset + frame.2.length + (n - frame.2.length) = offset + n := by omega
      have hrest := ih (fun other hother => hne other (by simp [hother])) (offset + frame.2.length) (n - frame.2.length)
      rw [hshift] at hrest
      rw [raws_cons, List.length_append, endOffsets, List.exists_mem_cons_iff]
      constructor
      · intro hlength
        rcases hrest.mp (by omega) with hzero | hmem
        · exact .inr (.inl (show offset + frame.2.length = offset + n by omega))
        · exact .inr (.inr hmem)
      · rintro (hzero | hhead | hmem)
        · omega
        · have hhead : offset + frame.2.length = offset + n := hhead
          have := hrest.mpr (.inl (by omega))
          omega
        · have := hrest.mpr (.inr hmem)
          omega
    · next hlt =>
      rw [raws_nil, endOffsets, List.exists_mem_cons_iff]
      constructor
      · intro hzero
        exact .inl hzero.symm
      · rintro (hzero | hhead | ⟨parsed, hparsed, heq⟩)
        · exact hzero.symm
        · have hhead : offset + frame.2.length = offset + n := hhead
          omega
        · have := le_endOffset hparsed
          omega

def consumed (frames : List ParsedLogRecord) : ℕ := (frames.getLast?.map ParsedLogRecord.endOffset).getD 0

theorem getLast_endOffsets (offset : ℕ) (frames : List (LogRecord × Bytes)) :
    ((endOffsets offset frames).getLast?.map ParsedLogRecord.endOffset).getD offset =
      offset + (raws frames).length := by
  induction frames generalizing offset with
  | nil => rfl
  | cons frame frames ih =>
    have hrest := ih (offset + frame.2.length)
    rw [raws_cons, List.length_append, ← Nat.add_assoc, ← hrest, endOffsets, List.getLast?_cons]
    cases (endOffsets (offset + frame.2.length) frames).getLast? <;> rfl

theorem parseLogPrefixFrames_take
    (hframed : ∀ frame ∈ framed, frame.1.toBytes crc = .ok frame.2) {n : ℕ} (hn : n ≤ (raws framed).length) :
    parseLogPrefixFrames crc ((raws framed).take n) =
      (endOffsets 0 (whole framed n), if (raws (whole framed n)).length = n then .complete else .incomplete) := by
  have hall : ∀ frame ∈ framed, Framed (nextRecord crc) frame.1 frame.2 :=
    fun frame hmem => framed_toBytes (hframed frame hmem)
  have hlength : ((raws framed).take n).length = n := List.length_take_of_le hn
  rw [parseLogPrefixFrames, hlength, parse_take hall hn le_rfl]
  dsimp only
  by_cases hcut : (raws (whole framed n)).length = n
  · rw [if_pos hcut, if_pos hcut]
    rfl
  · rw [if_neg hcut, if_neg hcut]
    rfl

theorem parseLogPrefixFrames_raws (hframed : ∀ frame ∈ framed, frame.1.toBytes crc = .ok frame.2) :
    parseLogPrefixFrames crc (raws framed) = (endOffsets 0 framed, .complete) := by
  have hparse := parseLogPrefixFrames_take hframed le_rfl
  rwa [List.take_length, whole_of_le le_rfl, if_pos rfl] at hparse

theorem parseLogPrefixFrames_inv {bytes : Bytes} {frames : List ParsedLogRecord} {status : LogParseStatus}
    (h : parseLogPrefixFrames crc bytes = (frames, status)) :
    ∃ framed : List (LogRecord × Bytes), (∀ frame ∈ framed, frame.1.toBytes crc = .ok frame.2) ∧
      frames = endOffsets 0 framed ∧
      raws framed = bytes.take (consumed frames) ∧ (status = .complete → raws framed = bytes) := by
  rw [parseLogPrefixFrames] at h
  generalize hparse : parse (nextRecord crc) bytes.length bytes = parsed at h
  obtain ⟨framed, stop⟩ := parsed
  cases h
  obtain ⟨hreads, hpre, hall⟩ := (nextRecord_local crc).parse_reads hparse
  refine ⟨framed, fun frame hmem => ?_, rfl, ?_, fun hstatus => hall ?_⟩
  · have hok := (nextRecord_ok (hreads frame hmem).1).1
    rwa [List.take_length] at hok
  · have hend : consumed (endOffsets 0 framed) = (raws framed).length := by
      rw [consumed, getLast_endOffsets, Nat.zero_add]
    rw [hend]
    exact List.prefix_iff_eq_take.mp hpre
  · cases stop with
    | complete => rfl
    | incomplete => cases hstatus
    | refused => cases hstatus

/-- Encoded records are read back with the offsets where they end; of a log that is cut, those that end
at or before the cut; and what is accepted of any bytes is what its records encode to. -/
theorem log_frames_round_trip (crc : Bytes → Word 4) :
    (∀ framed : List (LogRecord × Bytes), (∀ frame ∈ framed, frame.1.toBytes crc = .ok frame.2) →
      parseLogPrefixFrames crc (raws framed) = (endOffsets 0 framed, .complete) ∧
        ∀ n < (raws framed).length, parseLogPrefixFrames crc ((raws framed).take n) =
          ((endOffsets 0 framed).filter fun parsed => decide (parsed.endOffset ≤ n),
            if n = 0 ∨ ∃ parsed ∈ endOffsets 0 framed, parsed.endOffset = n then .complete else .incomplete)) ∧
      ∀ (bytes : Bytes) (frames : List ParsedLogRecord) (status : LogParseStatus), parseLogPrefixFrames crc bytes =
        (frames, status) →
        ∃ framed : List (LogRecord × Bytes), (∀ frame ∈ framed, frame.1.toBytes crc = .ok frame.2) ∧
          frames = endOffsets 0 framed ∧
          raws framed = bytes.take (consumed frames) ∧ (status = .complete → raws framed = bytes) := by
  refine ⟨fun framed hframed => ⟨parseLogPrefixFrames_raws hframed, fun n hn => ?_⟩, fun bytes frames status h =>
    parseLogPrefixFrames_inv h⟩
  have hne : ∀ frame ∈ framed, frame.2 ≠ [] := fun frame hmem => (framed_toBytes (hframed frame hmem)).nonempty
  have hstatus := length_whole_iff hne 0 n
  simp only [Nat.zero_add] at hstatus
  rw [parseLogPrefixFrames_take hframed hn.le, endOffsets_whole, Nat.zero_add]
  congr 1
  by_cases hcut : (raws (whole framed n)).length = n
  · rw [if_pos hcut, if_pos (hstatus.mp hcut)]
  · rw [if_neg hcut, if_neg fun h => hcut (hstatus.mpr h)]

def loggedPut : LogRecord := .mutation ⟨1, 0, 1, .orderedPut, [107], [118]⟩

def loggedCommit : LogRecord := .commit ⟨1, 1, 1, 31⟩

/-- A log of a put and a commit, whole, cut between the two, and cut within the commit. -/
theorem log_frames_round_trip_put :
    ∃ put commit, loggedPut.toBytes (fun bytes => .ofNat bytes.length) = .ok put ∧
      loggedCommit.toBytes (fun bytes => .ofNat bytes.length) = .ok commit ∧
      parseLogPrefixFrames (fun bytes => .ofNat bytes.length) (put ++ commit) =
        ([⟨loggedPut, 47⟩, ⟨loggedCommit, 87⟩], .complete) ∧
      parseLogPrefixFrames (fun bytes => .ofNat bytes.length) ((put ++ commit).take 47) =
        ([⟨loggedPut, 47⟩], .complete) ∧
      parseLogPrefixFrames (fun bytes => .ofNat bytes.length) ((put ++ commit).take 60) =
        ([⟨loggedPut, 47⟩], .incomplete) := by
  obtain ⟨put, hput⟩ : ∃ put, loggedPut.toBytes (fun bytes => .ofNat bytes.length) = .ok put := ⟨_, rfl⟩
  obtain ⟨commit, hcommit⟩ : ∃ commit, loggedCommit.toBytes (fun bytes => .ofNat bytes.length) = .ok commit := ⟨_, rfl⟩
  have hputLength : put.length = 47 := by
    cases hput
    rfl
  have hcommitLength : commit.length = 40 := by
    cases hcommit
    rfl
  obtain ⟨hwhole, hcut⟩ :=
    (log_frames_round_trip fun bytes => .ofNat bytes.length).1 [(loggedPut, put), (loggedCommit, commit)]
    (by simpa using ⟨hput, hcommit⟩)
  simp only [raws_cons, raws_nil, List.append_nil, endOffsets, hputLength, hcommitLength, List.length_append]
    at hwhole hcut
  exact ⟨put, commit, hput, hcommit, hwhole, hcut 47 (by decide), hcut 60 (by decide)⟩

end OmenDb.Vnext
