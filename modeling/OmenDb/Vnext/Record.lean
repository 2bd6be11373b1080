import OmenDb.Vnext.Tree

/-! The record under a key of an ordered object, and who may see it. A record names the transaction
that owns it and the version it replaced; whether it is visible is asked of the table of transaction
statuses, never of the pages. -/
namespace OmenDb.Vnext

abbrev TxnId := Word 8
abbrev StorageObjectId := Word 8
abbrev VersionId := Word 8

inductive RecordOwner
  | transaction (txn : TxnId)
  | frozen (csn : Word 8)
  deriving DecidableEq

structure InstallIdentity where
  txn : TxnId
  ordinal : Word 4
  deriving DecidableEq

inductive MvccValue
  | inline (value : Bytes)
  | tombstone
  deriving DecidableEq

structure MvccRecord where
  owner : RecordOwner
  undoHead : Option VersionId
  identity : Option InstallIdentity
  value : MvccValue
  deriving DecidableEq

inductive MvccCodecError
  | malformed
  | unsupportedFormat
  | reservedOwner
  | reservedInstallTransaction
  | installOwnerMismatch (owner install : TxnId)
  | valueTooLarge
  deriving DecidableEq

/-- `RECORD_MAGIC`, the bytes `OMV1`. -/
def recordMagic : Bytes := [79, 77, 86, 49]

def recordVersion : Fin 256 := 2

def recordHeaderSize : ℕ := 40

def RecordOwner.kind : RecordOwner → Fin 256
  | .transaction _ => 1
  | .frozen _ => 2

def RecordOwner.raw : RecordOwner → Word 8
  | .transaction txn => txn
  | .frozen csn => csn

def MvccValue.kind : MvccValue → Fin 256
  | .inline _ => 1
  | .tombstone => 2

def MvccValue.bytes : MvccValue → Bytes
  | .inline value => value
  | .tombstone => []

/-- A transaction's record is installed by that transaction. -/
def checkInstallOwner : RecordOwner → Option InstallIdentity → Except MvccCodecError Unit
  | .transaction owner, some identity =>
    if owner = identity.txn then .ok () else .error (.installOwnerMismatch owner identity.txn)
  | _, _ => .ok ()

def installFields : Option InstallIdentity → Except MvccCodecError (Word 8 × Word 4)
  | none => .ok (0, 0)
  | some identity =>
    if identity.txn = 0 then .error .reservedInstallTransaction else .ok (identity.txn, identity.ordinal)

def MvccRecord.toBytes (record : MvccRecord) : Except MvccCodecError Bytes :=
  if record.owner.raw = 0 then .error .reservedOwner
  else match installFields record.identity with
  | .error error => .error error
  | .ok (txn, ordinal) =>
    match checkInstallOwner record.owner record.identity with
    | .error error => .error error
    | .ok () =>
      match (Word.ofLength? record.value.bytes.length : Option (Word 4)) with
      | none => .error .valueTooLarge
      | some length =>
        .ok (recordMagic ++ ([recordVersion, record.owner.kind, record.value.kind, 0] ++ (record.owner.raw.toLe ++
          ((record.undoHead.getD 0).toLe ++ (txn.toLe ++ (ordinal.toLe ++ (length.toLe ++ record.value.bytes)))))))

def decodeOwner (kind : Bytes) (raw : Word 8) : Except MvccCodecError RecordOwner :=
  if kind = [1] then .ok (.transaction raw)
  else if kind = [2] then .ok (.frozen raw)
  else .error .unsupportedFormat

def decodeIdentity (txn : Word 8) (ordinal : Word 4) : Except MvccCodecError (Option InstallIdentity) :=
  if txn = 0 then (if ordinal = 0 then .ok none else .error .malformed) else .ok (some ⟨txn, ordinal⟩)

def decodeValue (kind : Bytes) (value : Bytes) : Except MvccCodecError MvccValue :=
  if kind = [1] then .ok (.inline value)
  else if kind = [2] then (if value.length = 0 then .ok .tombstone else .error .malformed)
  else .error .unsupportedFormat

def MvccRecord.fromBytes (bytes : Bytes) : Except MvccCodecError MvccRecord :=
  if bytes.length < recordHeaderSize ∨ slice bytes 0 4 ≠ recordMagic then .error .malformed
  else if slice bytes 4 5 ≠ [recordVersion] ∨ slice bytes 7 8 ≠ [0] then .error .unsupportedFormat
  else if (Word.ofLe (slice bytes 8 16) : Word 8) = 0 then .error .reservedOwner
  else match decodeOwner (slice bytes 5 6) (.ofLe (slice bytes 8 16)) with
  | .error error => .error error
  | .ok owner =>
    match decodeIdentity (.ofLe (slice bytes 24 32)) (.ofLe (slice bytes 32 36)) with
    | .error error => .error error
    | .ok identity =>
      match checkInstallOwner owner identity with
      | .error error => .error error
      | .ok () =>
        if recordHeaderSize + (Word.ofLe (slice bytes 36 40) : Word 4).val ≠ bytes.length then .error .malformed
        else match decodeValue (slice bytes 6 7) (bytes.drop recordHeaderSize) with
        | .error error => .error error
        | .ok value =>
          let undo : Word 8 := .ofLe (slice bytes 16 24)
          .ok ⟨owner, if undo = 0 then none else some undo, identity, value⟩

theorem decodeOwner_kind (owner : RecordOwner) : decodeOwner [owner.kind] owner.raw = .ok owner := by
  cases owner <;> rfl

theorem decodeValue_kind (value : MvccValue) : decodeValue [value.kind] value.bytes = .ok value := by
  cases value <;> rfl

theorem decodeIdentity_fields {identity : Option InstallIdentity} {txn : Word 8} {ordinal : Word 4}
    (h : installFields identity = .ok (txn, ordinal)) : decodeIdentity txn ordinal = .ok identity := by
  cases identity with
  | none =>
    cases h
    rfl
  | some identity =>
    rw [installFields] at h
    split at h
    · cases h
    · next hne =>
      cases h
      rw [decodeIdentity, if_neg hne]

theorem undoHead_raw {head : Option VersionId} (h : head ≠ some 0) :
    (if head.getD 0 = 0 then none else some (head.getD 0)) = head := by
  cases head with
  | none => rfl
  | some version =>
    have hne : version ≠ 0 := by
      rintro rfl
      exact h rfl
    simp [hne]

theorem MvccRecord.toBytes_ok {record : MvccRecord} {bytes : Bytes} (h : record.toBytes = .ok bytes) :
    ∃ (txn : Word 8) (ordinal length : Word 4), record.owner.raw ≠ 0 ∧
      installFields record.identity = .ok (txn, ordinal) ∧
      checkInstallOwner record.owner record.identity = .ok () ∧ length.val = record.value.bytes.length ∧
      bytes = recordMagic ++ ([recordVersion, record.owner.kind, record.value.kind, 0] ++ (record.owner.raw.toLe ++
        ((record.undoHead.getD 0).toLe ++ (txn.toLe ++ (ordinal.toLe ++ (length.toLe ++ record.value.bytes)))))) := by
  rw [toBytes] at h
  split at h
  · cases h
  next howner =>
  split at h
  · cases h
  next txn ordinal hfields =>
  split at h
  · cases h
  next hcheck =>
  split at h
  · cases h
  next length hlength =>
  cases h
  exact ⟨txn, ordinal, length, howner, hfields, hcheck, Word.ofLength?_eq_some hlength, rfl⟩

theorem MvccRecord.fromBytes_toBytes {record : MvccRecord} {bytes : Bytes} (h : record.toBytes = .ok bytes)
    (hundo : record.undoHead ≠ some 0) : fromBytes bytes = .ok record := by
  obtain ⟨txn, ordinal, length, howner, hfields, hcheck, hlength, rfl⟩ := toBytes_ok h
  set rest := record.owner.raw.toLe ++
    ((record.undoHead.getD 0).toLe ++ (txn.toLe ++ (ordinal.toLe ++ (length.toLe ++ record.value.bytes)))) with hrest
  have hskip : ∀ a b, 8 ≤ a → slice (recordMagic ++ ([recordVersion, record.owner.kind, record.value.kind, 0] ++ rest))
    a b =
      slice rest (a - 8) (b - 8) := by
    intro a b ha
    rw [← List.append_assoc]
    exact slice_skip _ _ rfl ha
  have hraw : slice rest 0 8 = record.owner.raw.toLe := slice_front _ _ (Word.length_toLe _)
  have hundoField : slice rest 8 16 = (record.undoHead.getD 0).toLe := by
    rw [hrest, slice_skip _ _ (Word.length_toLe _) le_rfl]
    exact slice_front _ _ (Word.length_toLe _)
  have htxn : slice rest 16 24 = txn.toLe := by
    rw [hrest, slice_skip _ _ (Word.length_toLe _) (by decide), slice_skip _ _ (Word.length_toLe _) (by decide)]
    exact slice_front _ _ (Word.length_toLe _)
  have hordinal : slice rest 24 28 = ordinal.toLe := by
    rw [hrest, slice_skip _ _ (Word.length_toLe _) (by decide), slice_skip _ _ (Word.length_toLe _) (by decide),
      slice_skip _ _ (Word.length_toLe _) (by decide)]
    exact slice_front _ _ (Word.length_toLe _)
  have hlengthField : slice rest 28 32 = length.toLe := by
    rw [hrest, slice_skip _ _ (Word.length_toLe _) (by decide), slice_skip _ _ (Word.length_toLe _) (by decide),
      slice_skip _ _ (Word.length_toLe _) (by decide), slice_skip _ _ (Word.length_toLe _) (by decide)]
    exact slice_front _ _ (Word.length_toLe _)
  have hsize : (recordMagic ++ ([recordVersion, record.owner.kind, record.value.kind, 0] ++ rest)).length =
      recordHeaderSize + record.value.bytes.length := by
    simp [hrest, recordMagic, recordHeaderSize]
    omega
  have hdrop : (recordMagic ++ ([recordVersion, record.owner.kind, record.value.kind, 0] ++ rest)).drop
    recordHeaderSize =
      record.value.bytes := by
    have hparts : recordMagic ++ ([recordVersion, record.owner.kind, record.value.kind, 0] ++ rest) =
        (recordMagic ++ ([recordVersion, record.owner.kind, record.value.kind, 0] ++ (record.owner.raw.toLe ++
          ((record.undoHead.getD 0).toLe ++ (txn.toLe ++ (ordinal.toLe ++ length.toLe)))))) ++ record.value.bytes := by
      simp [hrest]
    rw [hparts]
    exact List.drop_left' (by simp [recordMagic, recordHeaderSize])
  rw [fromBytes, if_neg, if_neg, hskip 8 16 le_rfl, hraw, Word.ofLe_toLe, if_neg howner]
  · have hkind : slice (recordMagic ++ ([recordVersion, record.owner.kind, record.value.kind, 0] ++ rest)) 5 6 =
      [record.owner.kind] := rfl
    have hvalue : slice (recordMagic ++ ([recordVersion, record.owner.kind, record.value.kind, 0] ++ rest)) 6 7 =
      [record.value.kind] := rfl
    rw [hkind, hvalue, decodeOwner_kind, hskip 24 32 (by decide), htxn, hskip 32 36 (by decide), hordinal,
      Word.ofLe_toLe, Word.ofLe_toLe]
    dsimp only
    rw [decodeIdentity_fields hfields]
    dsimp only
    rw [hcheck]
    dsimp only
    rw [hskip 36 40 (by decide), hlengthField, Word.ofLe_toLe, if_neg (by rw [hsize, hlength]; simp), hdrop,
      decodeValue_kind, hskip 16 24 (by decide), hundoField, Word.ofLe_toLe]
    dsimp only
    rw [undoHead_raw hundo]
  · rintro (hne | hne)
    · exact hne rfl
    · exact hne rfl
  · rintro (hshort | hne)
    · rw [hsize] at hshort
      omega
    · exact hne rfl

end OmenDb.Vnext
