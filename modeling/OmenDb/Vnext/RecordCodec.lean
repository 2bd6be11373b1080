import OmenDb.Lib.Fields
import OmenDb.Vnext.Record

/-! The record envelope in both directions. Zero stands for "no undo head" in an envelope, and the
encoder, which refuses the zero owner and the zero installing transaction, writes it for an undo head of
zero as well. -/
namespace OmenDb.Vnext

variable {kind bytes : Bytes} {record : MvccRecord}

theorem decodeOwner_ok {raw : Word 8} {owner : RecordOwner} (h : decodeOwner kind raw = .ok owner) :
    kind = [owner.kind] ∧ owner.raw = raw := by
  unfold decodeOwner at h
  split at h
  · next hkind => cases h; exact ⟨hkind, rfl⟩
  split at h
  · next hkind => cases h; exact ⟨hkind, rfl⟩
  · cases h

theorem decodeIdentity_ok {txn : Word 8} {ordinal : Word 4} {identity : Option InstallIdentity}
    (h : decodeIdentity txn ordinal = .ok identity) : installFields identity = .ok (txn, ordinal) := by
  unfold decodeIdentity at h
  split at h
  · next htxn =>
    split at h
    · next hordinal => cases h; rw [htxn, hordinal]; rfl
    · cases h
  · next htxn => cases h; exact if_neg htxn

theorem decodeValue_ok {value : MvccValue} (h : decodeValue kind bytes = .ok value) :
    kind = [value.kind] ∧ value.bytes = bytes := by
  unfold decodeValue at h
  split at h
  · next hkind => cases h; exact ⟨hkind, rfl⟩
  split at h
  · next hkind =>
    split at h
    · next hempty => cases h; exact ⟨hkind, (List.length_eq_zero_iff.mp hempty).symm⟩
    · cases h
  · cases h

theorem MvccRecord.fromBytes_ok (h : fromBytes bytes = .ok record) :
    recordHeaderSize ≤ bytes.length ∧ slice bytes 0 4 = recordMagic ∧ slice bytes 4 5 = [recordVersion] ∧
      slice bytes 7 8 = [0] ∧
      slice bytes 5 6 = [record.owner.kind] ∧ record.owner.raw = .ofLe (slice bytes 8 16) ∧ record.owner.raw ≠ 0 ∧
      record.undoHead = (if (Word.ofLe (slice bytes 16 24) : Word 8) = 0 then none
        else some (.ofLe (slice bytes 16 24))) ∧
      installFields record.identity = .ok (.ofLe (slice bytes 24 32), .ofLe (slice bytes 32 36)) ∧
      checkInstallOwner record.owner record.identity = .ok () ∧
      recordHeaderSize + (Word.ofLe (slice bytes 36 40) : Word 4).val = bytes.length ∧
      slice bytes 6 7 = [record.value.kind] ∧ record.value.bytes = bytes.drop recordHeaderSize := by
  rw [fromBytes] at h
  split at h
  · cases h
  next hstart =>
  split at h
  · cases h
  next hformat =>
  split at h
  · cases h
  next hreserved =>
  split at h
  · cases h
  next owner howner =>
  split at h
  · cases h
  next identity hidentity =>
  split at h
  · cases h
  next hcheck =>
  split at h
  · cases h
  next hlength =>
  split at h
  · cases h
  next value hvalue =>
  cases h
  obtain ⟨hlong, hmagic⟩ := not_or.mp hstart
  obtain ⟨hversion, hflags⟩ := not_or.mp hformat
  obtain ⟨hkind, hraw⟩ := decodeOwner_ok howner
  obtain ⟨hvalueKind, hbytes⟩ := decodeValue_ok hvalue
  exact ⟨not_lt.mp hlong, not_not.mp hmagic, not_not.mp hversion, not_not.mp hflags, hkind, hraw, hraw ▸ hreserved, rfl,
    decodeIdentity_ok hidentity, hcheck, not_not.mp hlength, hvalueKind, hbytes⟩

theorem MvccRecord.undoHead_of_fromBytes (h : fromBytes bytes = .ok record) :
    record.undoHead ≠ some 0 ∧ (record.undoHead.getD 0 : Word 8) = .ofLe (slice bytes 16 24) := by
  obtain ⟨-, -, -, -, -, -, -, hundo, -⟩ := fromBytes_ok h
  rw [hundo]
  by_cases hzero : (Word.ofLe (slice bytes 16 24) : Word 8) = 0
  · rw [if_pos hzero, hzero]
    exact ⟨by simp, rfl⟩
  · rw [if_neg hzero]
    exact ⟨fun heq => hzero (Option.some.inj heq), rfl⟩

theorem MvccRecord.toBytes_fromBytes (h : fromBytes bytes = .ok record) : record.toBytes = .ok bytes := by
  obtain ⟨hlong, hmagic, hversion, hflags, hkind, hraw, hne, -, hfields, hcheck, hlength, hvalueKind, hvalue⟩ :=
    fromBytes_ok h
  have hword : ∀ a w, a + w ≤ recordHeaderSize → (slice bytes a (a + w)).length = w := by
    intro a w hend
    rw [length_slice_le _ (hend.trans hlong), Nat.add_sub_cancel_left]
  have hsize : bytes.length - recordHeaderSize = (Word.ofLe (slice bytes 36 40) : Word 4).val := by omega
  have hlen : (Word.ofLength? record.value.bytes.length : Option (Word 4)) = some (.ofLe (slice bytes 36 40)) := by
    rw [hvalue, List.length_drop, hsize]
    exact Word.ofLength?_of_lt (Word.ofLe (slice bytes 36 40) : Word 4).isLt
  have hheader : [recordVersion, record.owner.kind, record.value.kind, 0] = slice bytes 4 8 := by
    rw [← slice_append_slice (show 4 ≤ 5 by decide) (show 5 ≤ 8 by decide),
      ← slice_append_slice (show 5 ≤ 6 by decide) (show 6 ≤ 8 by decide),
      ← slice_append_slice (show 6 ≤ 7 by decide) (show 7 ≤ 8 by decide), hversion, hkind, hvalueKind, hflags]
    rfl
  have hrest : bytes.drop recordHeaderSize = slice bytes 40 bytes.length := by
    rw [slice, List.take_of_length_le (by rw [List.length_drop])]
    rfl
  have hlong : 40 ≤ bytes.length := hlong
  rw [toBytes, if_neg hne, hfields]
  dsimp only
  rw [hcheck]
  dsimp only
  rw [hlen]
  dsimp only
  rw [hheader, hraw, (undoHead_of_fromBytes h).2, ← hmagic, hvalue, Word.toLe_ofLe (hword 8 8 (by decide)),
    Word.toLe_ofLe (hword 16 8 (by decide)),
    Word.toLe_ofLe (hword 24 8 (by decide)), Word.toLe_ofLe (hword 32 4 (by decide)),
    Word.toLe_ofLe (hword 36 4 (by decide)),
    hrest, slice_append_slice (by decide) hlong, slice_append_slice (by decide) (by omega),
    slice_append_slice (by decide) (by omega),
    slice_append_slice (by decide) (by omega), slice_append_slice (by decide) (by omega),
    slice_append_slice (by decide) (by omega), slice_append_slice (by decide) (by omega), slice_all bytes le_rfl]

/-- A record is read back as it was written unless its undo head is zero, and an accepted envelope is
written back as it was read. -/
theorem record_codec_exact_iff (record : MvccRecord) (bytes : Bytes) :
    (record.toBytes = .ok bytes → (MvccRecord.fromBytes bytes = .ok record ↔ record.undoHead ≠ some 0)) ∧
      (MvccRecord.fromBytes bytes = .ok record → record.toBytes = .ok bytes) := by
  refine ⟨fun hwrite => ⟨fun hread => (MvccRecord.undoHead_of_fromBytes hread).1, MvccRecord.fromBytes_toBytes hwrite⟩,
    ?_⟩
  exact MvccRecord.toBytes_fromBytes

/-- A deleted key of commit one, over the version with the given number. -/
def deletedOver (version : VersionId) : MvccRecord := ⟨.frozen 1, some version, none, .tombstone⟩

theorem record_codec_exact_iff_deletedOver : ∃ bytes, (deletedOver 7).toBytes = .ok bytes ∧
    MvccRecord.fromBytes bytes = .ok (deletedOver 7) := by
  obtain ⟨bytes, hwrite⟩ : ∃ bytes, (deletedOver 7).toBytes = .ok bytes := ⟨_, rfl⟩
  exact ⟨bytes, hwrite, ((record_codec_exact_iff _ bytes).1 hwrite).mpr (by decide)⟩

/-- The version zero is written, and no version is read. -/
theorem zero_undo_head_lost : ∃ bytes, (deletedOver 0).toBytes = .ok bytes ∧
    MvccRecord.fromBytes bytes = .ok { deletedOver 0 with undoHead := none } ∧
      MvccRecord.fromBytes bytes ≠ .ok (deletedOver 0) :=
  ⟨_, rfl, by decide +kernel, by decide +kernel⟩

end OmenDb.Vnext
