import OmenDb.Lib.Codec
import OmenDb.Lib.Fallible
import OmenDb.Lib.OrdMap

/-! Errors and record types of the transactional key-value layer. Keys and values are byte
strings under the lexicographic order. Tree, transaction and version identities and commit
sequence numbers are naturals: the code refuses, rather than wraps, at the end of its 64 bits. -/
namespace OmenDb

abbrev Byte := Fin 256
abbrev Bytes := List Byte

instance Bytes.transCmp : Std.TransCmp (@LinearOrder.toOrd Bytes _).compare := inferInstance

/-- The failures the modelled paths report, with the payload the code gives them. -/
inductive Error
  | corruption (message : String)
  | invalidArgument (message : String)
  | needsRecovery (message : String)
  | wal (message : String)
  | io
  | diskFull
  | capacityPreflight
  | backpressure (required available : ℕ)
  | pageFull
  | writeConflict (tree : ℕ) (key : Bytes)
  | treeConflict (tree : ℕ)
  | serializationConflict (expected current : ℕ)
  | treeNotFound (tree : ℕ)
  | transactionInactive
  | changesPruned (requested oldest : ℕ)
  deriving DecidableEq, Repr

abbrev Result := Except Error

def Result.isCorruption {α : Type} : Result α → Bool
  | .error (.corruption _) => true
  | _ => false

/-- A key of one tree; trees sort before keys, as the physical encoding does. -/
structure Loc where
  tree : ℕ
  key : Bytes
  deriving DecidableEq, Repr

def Loc.pair (l : Loc) : ℕ ×ₗ Bytes := toLex (l.tree, l.key)

instance : LinearOrder Loc := LinearOrder.lift' Loc.pair (by
  rintro ⟨t, k⟩ ⟨t', k'⟩ h
  simpa [Loc.pair] using h)

instance Loc.transCmp : Std.TransCmp (@LinearOrder.toOrd Loc _).compare := inferInstance

theorem Loc.lt_iff (a b : Loc) : a < b ↔ a.tree < b.tree ∨ a.tree = b.tree ∧ a.key < b.key := by
  change a.pair < b.pair ↔ _
  simp [Loc.pair, Prod.Lex.toLex_lt_toLex]

/-- Lifecycle values of a tree record, spelled as the code spells them. -/
def treeLive : Bytes := [0x6c, 0x69, 0x76, 0x65]
def treeDropped : Bytes := [0x64, 0x72, 0x6f, 0x70, 0x70, 0x65, 0x64]
def treeReserved : Bytes := [0x72, 0x65, 0x73, 0x65, 0x72, 0x76, 0x65, 0x64]

/-- Newest value and the head of its logical before-image chain. -/
structure CurrentRecord where
  transaction : ℕ
  commit : ℕ
  undoHead : Option ℕ
  value : Option Bytes
  deriving DecidableEq, Repr

def CurrentRecord.absent : CurrentRecord := ⟨0, 0, none, none⟩

/-- One logical before-image; its identity is its key in the version store. -/
structure VersionRecord where
  previous : Option ℕ
  transaction : ℕ
  commit : ℕ
  value : Option Bytes
  deriving DecidableEq, Repr

/-- A value version resolved through the current record or the undo store. -/
structure VisibleVersion where
  transaction : ℕ
  commit : ℕ
  value : Option Bytes
  deriving DecidableEq, Repr

abbrev Statuses := OrdMap ℕ ℕ

def maxVersionBytes : ℕ := 16 * 1024 * 1024

/-- `encode_current` as an admission check: the record layout is a fixed 32-byte header followed
by the value, and only its length can make encoding fail. -/
def encodeCurrent (record : CurrentRecord) : Result CurrentRecord :=
  let length := (record.value.map List.length).getD 0
  if 2 ^ 32 ≤ length then .error (.invalidArgument "MVCC current value is too large")
  else if maxVersionBytes < 32 + length then
    .error (.invalidArgument "MVCC current record exceeds the retention limit")
  else .ok record

theorem encodeCurrent_eq {record r : CurrentRecord} (h : encodeCurrent record = .ok r) :
    r = record := by
  unfold encodeCurrent at h
  dsimp only at h
  split at h
  · cases h
  · split at h
    · cases h
    · exact (Except.ok.inj h).symm

/-- `decode_current` over an optional stored record. -/
def decodeCurrent : Option CurrentRecord → CurrentRecord
  | none => .absent
  | some record => record

/-- `resolve_commit`: a stamped record, or one of transaction zero, carries its own commit;
any other asks the status table. -/
def resolveCommit (statuses : Statuses) (transaction : ℕ) (commit : ℕ) : Result ℕ :=
  if commit ≠ 0 ∨ transaction = 0 then .ok commit
  else
    match statuses[transaction]? with
    | some c => .ok c
    | none => .error (.corruption s!"MVCC version references unknown transaction {transaction}")

end OmenDb
