import OmenDb.Lib.Fields
import OmenDb.Vnext.Page

/-! Nodes of the production tree: a page of fixed size with slots behind the header and entries that
grow down from the end. An entry says how much of its key it shares with the one before and goes on
with the rest. Most accesses are unchecked; a page that comes from outside is validated once. -/
namespace OmenDb.Btree

open Vnext (BlobPointer)
open Keyed (orderAt orderAt_of_less Place UpperBound)

def pageSize : ℕ := 4096
def headerSize : ℕ := 48
def slotSize : ℕ := 4
def blobPointerSize : ℕ := 16
def magic : ℕ := 0x53454552
def pageVersion : ℕ := 3

/-- `None` and `false`, and an index outside the page. -/
inductive Fault
  | refused
  | panic
  deriving DecidableEq

abbrev Access := Except Fault

def check (p : Prop) [Decidable p] : Access Unit := if p then .ok () else .error .refused

inductive PageType
  | internal
  | leaf
  deriving DecidableEq

structure NodeHeader where
  magic : ℕ
  version : ℕ
  pageType : PageType
  count : ℕ
  freeSpace : ℕ
  leftmostChild : ℕ
  deriving DecidableEq

/-- `from_le_bytes` of the bytes from an offset on. -/
def word (w : ℕ) (buf : Bytes) (start : ℕ) : ℕ := (Word.ofLe (slice buf start (start + w)) : Word w).val

namespace NodeHeader

def fromBytes (buf : Bytes) : NodeHeader :=
  ⟨word 4 buf 0, word 4 buf 4, if word 4 buf 8 = 1 then .internal else .leaf, word 4 buf 12, word 4 buf 16,
    word 8 buf 32⟩

def isValid (header : NodeHeader) : Bool := decide (header.magic = Btree.magic ∧ header.version = pageVersion)

def tryFromBytes (buf : Bytes) : Access NodeHeader := do
  check (word 4 buf 8 = 1 ∨ word 4 buf 8 = 2)
  check (fromBytes buf).isValid
  return fromBytes buf

end NodeHeader

structure Node where
  data : Bytes
  sized : data.length = pageSize

inductive ValueRef
  | inline (value : Bytes)
  | blob (pointer : BlobPointer)
  | tombstone
  deriving DecidableEq

namespace Node

variable (node : Node)

def header : NodeHeader := .fromBytes (slice node.data 0 headerSize)

def count : ℕ := node.header.count

/-- `&self.data[start..stop]`. -/
def range (start stop : ℕ) : Access Bytes :=
  if start ≤ stop ∧ stop ≤ pageSize then .ok (slice node.data start stop) else .error .panic

/-- `self.data[at]`. -/
def byte (place : ℕ) : Access Byte := node.data[place]?.elim (.error .panic) .ok

def u16 (start : ℕ) : Access ℕ := (node.range start (start + 2)).map fun bytes => word 2 bytes 0

def slotOffset (index : ℕ) : Access ℕ := node.u16 (headerSize + index * slotSize)

def slotKeyLen (index : ℕ) : Access ℕ := node.u16 (headerSize + index * slotSize + 2)

def entryPrefixLen (index : ℕ) : Access ℕ := do
  let offset ← node.slotOffset index
  node.u16 offset

def entrySuffixLen (index : ℕ) : Access ℕ := do
  let offset ← node.slotOffset index
  node.u16 (offset + 2)

def entryKey (index : ℕ) : Access (ℕ × Bytes) := do
  check (index < node.count)
  let prefixLen ← node.entryPrefixLen index
  let suffixLen ← node.entrySuffixLen index
  let offset ← node.slotOffset index
  let suffix ← node.range (offset + 4) (offset + 4 + suffixLen)
  return (prefixLen, suffix)

def key : ℕ → Access Bytes
  | 0 => (node.entryKey 0).map Prod.snd
  | index + 1 => do
    let entry ← node.entryKey (index + 1)
    if entry.1 = 0 then return entry.2
    else do
      let previous ← key index
      check (entry.1 ≤ previous.length)
      return previous.take entry.1 ++ entry.2

/-- Where an inline value ends: at the next entry in the page. -/
def valueEnd (index offset : ℕ) : Access ℕ := do
  let offsets ← collect node.slotOffset 0 node.count
  return ((offsets.eraseIdx index).filter (offset < ·)).min?.getD pageSize

def valueOf (index offset typeOffset : ℕ) (valueType : Byte) : Access ValueRef :=
  if valueType = 0 then do
    let stop ← node.valueEnd index offset
    let value ← node.range (typeOffset + 1) stop
    return .inline value
  else if valueType = 1 then do
    let pointer ← node.range (typeOffset + 1) (typeOffset + 1 + blobPointerSize)
    return .blob ⟨word 4 pointer 0, word 8 pointer 4, word 4 pointer 12⟩
  else if valueType = 2 then .ok .tombstone
  else .error .refused

def value (index : ℕ) : Access ValueRef := do
  check (index < node.count ∧ node.header.pageType = .leaf)
  let offset ← node.slotOffset index
  let suffixLen ← node.entrySuffixLen index
  let valueType ← node.byte (offset + 4 + suffixLen)
  node.valueOf index offset (offset + 4 + suffixLen) valueType

def childId (index : ℕ) : Access ℕ := do
  check (index < node.count ∧ node.header.pageType = .internal)
  let offset ← node.slotOffset index
  let suffixLen ← node.entrySuffixLen index
  check (offset + 4 + suffixLen + 8 ≤ pageSize)
  let bytes ← node.range (offset + 4 + suffixLen) (offset + 4 + suffixLen + 8)
  return word 8 bytes 0

def compareKey (index : ℕ) (key : Bytes) : Access Ordering := do
  check (index < node.count)
  let prefixLen ← node.entryPrefixLen index
  let suffixLen ← node.entrySuffixLen index
  if prefixLen = 0 then do
    let offset ← node.slotOffset index
    check (offset + 4 + suffixLen ≤ pageSize)
    return compareOfLessAndEq (slice node.data (offset + 4) (offset + 4 + suffixLen)) key
  else (node.key index).map (compareOfLessAndEq · key)

/-- The loop of `child_for_key`. -/
def upperLoop (key : Bytes) : ℕ → ℕ → ℕ → Access ℕ
  | 0, lo, _ => .ok lo
  | fuel + 1, lo, hi =>
    if lo < hi then do
      let mid := lo + (hi - lo) / 2
      match ← node.compareKey mid key with
      | .gt => upperLoop key fuel lo mid
      | _ => upperLoop key fuel (mid + 1) hi
    else .ok lo

def childForKey (key : Bytes) : Access ℕ := do
  check (node.header.pageType = .internal)
  let upper ← node.upperLoop key node.count 0 node.count
  if upper = 0 then return node.header.leftmostChild else node.childId (upper - 1)

/-- The loop of `search`. A key that cannot be read ends it. -/
def searchLoop (key : Bytes) : ℕ → ℕ → ℕ → Option ℕ → Access Keyed.Slot
  | 0, lo, _, found => .ok (found.elim (.missing lo) .found)
  | fuel + 1, lo, hi, found =>
    if lo < hi then
      let mid := lo + (hi - lo) / 2
      match node.compareKey mid key with
      | .ok .lt => searchLoop key fuel (mid + 1) hi found
      | .ok .eq => searchLoop key fuel lo mid (some mid)
      | .ok .gt => searchLoop key fuel lo mid found
      | .error .refused => .ok (.missing mid)
      | .error .panic => .error .panic
    else .ok (found.elim (.missing lo) .found)

def search (key : Bytes) : Access Keyed.Slot := node.searchLoop key node.count 0 node.count none

def slotEnd : ℕ := headerSize + node.count * slotSize

def checkedOffset (index : ℕ) : Access ℕ := do
  let offset ← node.slotOffset index
  check (node.slotEnd ≤ offset ∧ offset < pageSize)
  return offset

/-- What has to follow a key: a child, or a value with its type. -/
def checkPayload (suffixEnd stop : ℕ) : Access Unit :=
  if node.header.pageType = .internal then check (suffixEnd + 8 ≤ stop)
  else do
    check (suffixEnd < stop)
    let valueType ← node.byte suffixEnd
    check (valueType = 0 ∨ valueType = 2 ∨ valueType = 1 ∧ suffixEnd + 1 + blobPointerSize ≤ stop)

/-- One round of `validate_layout`, with the key it reads. An entry ends where the next offset is. -/
def checkEntry (sorted : List ℕ) (previous : Bytes) (index offset : ℕ) : Access Bytes := do
  check (offset ∈ sorted)
  let stop := sorted[sorted.idxOf offset + 1]?.getD pageSize
  check (offset < stop ∧ stop ≤ pageSize ∧ offset + 4 ≤ stop)
  let prefixLen ← node.entryPrefixLen index
  let suffixLen ← node.entrySuffixLen index
  let suffixEnd := offset + 4 + suffixLen
  check (suffixEnd ≤ stop)
  let keyLen ← node.slotKeyLen index
  check (keyLen = prefixLen + suffixLen)
  check (prefixLen ≤ previous.length)
  let suffix ← node.range (offset + 4) suffixEnd
  let key := previous.take prefixLen ++ suffix
  check (previous ≤ key)
  node.checkPayload suffixEnd stop
  return key

def checkEntries (sorted : List ℕ) : List ℕ → ℕ → Bytes → Access Unit
  | [], _, _ => .ok ()
  | offset :: offsets, index, previous => do
    let key ← node.checkEntry sorted previous index offset
    checkEntries sorted offsets (index + 1) key

def validateLayout : Access Unit := do
  check (node.count ≤ (pageSize - headerSize) / slotSize ∧ node.slotEnd ≤ pageSize)
  let offsets ← collect node.checkedOffset 0 node.count
  let sorted := offsets.mergeSort
  check (sorted.IsChain (· ≠ ·))
  check (node.header.freeSpace = offsets.min?.getD pageSize - node.slotEnd)
  node.checkEntries sorted offsets 0 []

def fromBytes (data : Bytes) (sized : data.length = pageSize) : Access Node := do
  let _ ← NodeHeader.tryFromBytes (slice data 0 headerSize)
  validateLayout ⟨data, sized⟩
  return ⟨data, sized⟩

end Node

theorem check_eq_ok {p : Prop} [Decidable p] {u : Unit} : check p = .ok u ↔ p := by
  rw [check]
  split <;> simp_all

theorem check_pos {p : Prop} [Decidable p] (h : p) : check p = .ok () := if_pos h

theorem check_neg_bind {α : Type} {p : Prop} [Decidable p] (h : ¬p) (f : Unit → Access α) :
    (check p >>= f) = .error .refused := by
  rw [check, if_neg h]
  rfl

namespace Node

variable {node : Node}

theorem range_of_le {start stop : ℕ} (h : start ≤ stop ∧ stop ≤ pageSize) :
    node.range start stop = .ok (slice node.data start stop) := if_pos h

/-- Where an entry is: its lengths, and where the next one starts. -/
structure Extent where
  offset : ℕ
  prefixLen : ℕ
  suffixLen : ℕ
  stop : ℕ

abbrev Extent.suffixEnd (extent : Extent) : ℕ := extent.offset + 4 + extent.suffixLen

/-- An entry that was validated, behind the key before it. -/
structure EntryAt (node : Node) (offsets : List ℕ) (previous key : Bytes) (index : ℕ) (extent : Extent) : Prop where
  slot : node.slotOffset index = .ok extent.offset
  prefixed : node.entryPrefixLen index = .ok extent.prefixLen
  suffixed : node.entrySuffixLen index = .ok extent.suffixLen
  shared : extent.prefixLen ≤ previous.length
  decodes : key = previous.take extent.prefixLen ++ slice node.data (extent.offset + 4) extent.suffixEnd
  sorted : previous ≤ key
  suffix_le : extent.suffixEnd ≤ extent.stop
  stop_le : extent.stop ≤ pageSize
  next : ∀ other ∈ offsets, extent.offset < other → extent.stop ≤ other
  payload : node.checkPayload extent.suffixEnd extent.stop = .ok ()

theorem next_le {sorted : List ℕ} (hsorted : sorted.Pairwise (· ≤ ·)) {offset other : ℕ} (hoffset : offset ∈ sorted)
    (hother : other ∈ sorted) (hlt : offset < other) : sorted[sorted.idxOf offset + 1]?.getD pageSize ≤ other := by
  obtain ⟨j, hj, rfl⟩ := List.mem_iff_getElem.mp hother
  have hi := List.idxOf_lt_length_iff.mpr hoffset
  have hij : sorted.idxOf offset < j := by
    by_contra hle
    have := hsorted.rel_get_of_le (a := ⟨j, hj⟩) (b := ⟨_, hi⟩) (not_lt.mp hle)
    simp only [List.get_eq_getElem, List.getElem_idxOf] at this
    omega
  rw [List.getElem?_eq_getElem (by omega), Option.getD_some]
  exact hsorted.rel_get_of_le (a := ⟨_, by omega⟩) (b := ⟨j, hj⟩) (show sorted.idxOf offset + 1 ≤ j by omega)

theorem checkEntry_spec {offsets : List ℕ} {previous key : Bytes} {index offset : ℕ}
    (hoffset : node.slotOffset index = .ok offset)
    (h : node.checkEntry offsets.mergeSort previous index offset = .ok key) :
    ∃ extent, node.EntryAt offsets previous key index extent := by
  obtain ⟨_, hmem, h⟩ := bind_eq_ok.mp h
  obtain ⟨_, hstop, h⟩ := bind_eq_ok.mp h
  obtain ⟨prefixLen, hshares, h⟩ := bind_eq_ok.mp h
  obtain ⟨suffixLen, hsuffixLen, h⟩ := bind_eq_ok.mp h
  obtain ⟨_, hsuffix, h⟩ := bind_eq_ok.mp h
  obtain ⟨_, -, h⟩ := bind_eq_ok.mp h
  obtain ⟨_, -, h⟩ := bind_eq_ok.mp h
  obtain ⟨_, hshared, h⟩ := bind_eq_ok.mp h
  rw [check_eq_ok] at hmem hstop hsuffix hshared
  rw [range_of_le ⟨by omega, by omega⟩, ok_bind] at h
  obtain ⟨_, hsorted, h⟩ := bind_eq_ok.mp h
  obtain ⟨_, hpayload, h⟩ := bind_eq_ok.mp h
  cases h
  have hpairwise : offsets.mergeSort.Pairwise (· ≤ ·) := by simpa using List.pairwise_mergeSort' (· ≤ ·) offsets
  exact ⟨⟨offset, prefixLen, suffixLen, _⟩, hoffset, hshares, hsuffixLen, hshared, rfl, check_eq_ok.mp hsorted,
    hsuffix, hstop.2.1,
    fun other hother => next_le hpairwise hmem (List.mem_mergeSort.mpr hother), hpayload⟩

theorem checkEntries_spec {all offsets : List ℕ} {previous : Bytes} {index : ℕ}
    (hoffsets : ∀ j offset, offsets[j]? = some offset → node.slotOffset (index + j) = .ok offset)
    (h : node.checkEntries all.mergeSort offsets index previous = .ok ()) :
    ∃ keys : List Bytes, keys.length = offsets.length ∧ (previous :: keys).IsChain (· ≤ ·) ∧
      ∀ j before key, (previous :: keys)[j]? = some before → keys[j]? = some key →
        ∃ extent, node.EntryAt all before key (index + j) extent := by
  induction offsets generalizing index previous with
  | nil => exact ⟨[], rfl, .singleton _, by simp⟩
  | cons offset offsets ih =>
    obtain ⟨first, hfirst, hrest⟩ := bind_eq_ok.mp h
    obtain ⟨extent, hentry⟩ := checkEntry_spec (hoffsets 0 offset rfl) hfirst
    obtain ⟨keys, hlength, hchain, hkeys⟩ := ih (fun j other hj => by
      rw [Nat.add_right_comm, Nat.add_assoc]
      exact hoffsets (j + 1) other hj) hrest
    refine ⟨first :: keys, by simp [hlength], .cons_cons hentry.sorted hchain, fun j before key hbefore hkey => ?_⟩
    cases j with
    | zero =>
      cases hbefore
      cases hkey
      exact ⟨extent, hentry⟩
    | succ j =>
      rw [← Nat.add_assoc, Nat.add_right_comm]
      exact hkeys j before key hbefore hkey

/-- What `from_bytes` has established. -/
structure Accepted (node : Node) (offsets : List ℕ) (keys : List Bytes) : Prop where
  slots : collect node.slotOffset 0 node.count = .ok offsets
  bounded : ∀ offset ∈ offsets, offset < pageSize
  length : keys.length = node.count
  sorted : keys.Pairwise (· ≤ ·)
  entry : ∀ index before key, ([] :: keys)[index]? = some before → keys[index]? = some key →
    ∃ extent, node.EntryAt offsets before key index extent

theorem fromBytes_accepted {data : Bytes} {sized : data.length = pageSize} (h : fromBytes data sized = .ok node) :
    ∃ offsets keys, node.Accepted offsets keys := by
  obtain ⟨_, -, h⟩ := bind_eq_ok.mp h
  obtain ⟨_, hlayout, h⟩ := bind_eq_ok.mp h
  cases h
  obtain ⟨_, -, hlayout⟩ := bind_eq_ok.mp hlayout
  obtain ⟨offsets, hoffsets, hlayout⟩ := bind_eq_ok.mp hlayout
  obtain ⟨_, -, hlayout⟩ := bind_eq_ok.mp hlayout
  obtain ⟨_, -, hlayout⟩ := bind_eq_ok.mp hlayout
  obtain ⟨hlength, hget⟩ := collect_eq_ok hoffsets
  have hslots : ∀ j offset, offsets[j]? = some offset → (⟨data, sized⟩ : Node).slotOffset (0 + j) = .ok offset ∧
      offset < pageSize := by
    intro j offset hj
    obtain ⟨_, hslot, hchecked⟩ := bind_eq_ok.mp (hget j offset hj)
    obtain ⟨_, hbound, hchecked⟩ := bind_eq_ok.mp hchecked
    cases hchecked
    exact ⟨hslot, (check_eq_ok.mp hbound).2⟩
  obtain ⟨keys, hkeys, hchain, hentry⟩ := checkEntries_spec (fun j offset hj => (hslots j offset hj).1) hlayout
  refine ⟨offsets, keys, ?_, ?_, hkeys.trans hlength, (List.isChain_iff_pairwise.mp hchain).tail,
    fun index before key => ?_⟩
  · rw [← hlength]
    exact collect_of_get fun j offset hj => (hslots j offset hj).1
  · intro offset hmem
    obtain ⟨j, hj⟩ := List.mem_iff_getElem?.mp hmem
    exact (hslots j offset hj).2
  · rw [← Nat.zero_add index]
    simpa using hentry index before key

section Access

variable {offsets : List ℕ} {keys : List Bytes} {key probe : Bytes} {index : ℕ}

theorem EntryAt.entryKey {previous : Bytes} {extent : Extent} (h : node.EntryAt offsets previous key index extent)
    (hindex : index < node.count) :
    node.entryKey index = .ok (extent.prefixLen, slice node.data (extent.offset + 4) extent.suffixEnd) := by
  have hsuffix : extent.offset + 4 ≤ extent.suffixEnd := Nat.le_add_right _ _
  rw [Node.entryKey, check_pos hindex, ok_bind, h.prefixed, ok_bind, h.suffixed, ok_bind, h.slot, ok_bind,
    range_of_le ⟨hsuffix, h.suffix_le.trans h.stop_le⟩]
  rfl

section

variable (h : node.Accepted offsets keys)
include h

theorem Accepted.extent (hget : keys[index]? = some key) :
    index < node.count ∧ ∃ before extent, ([] :: keys)[index]? = some before ∧
      node.EntryAt offsets before key index extent := by
  have hindex := (List.getElem?_eq_some_iff.mp hget).1
  have hbefore := List.getElem?_eq_getElem (show index < ([] :: keys).length by simp; omega)
  obtain ⟨extent, hentry⟩ := h.entry index _ key hbefore hget
  exact ⟨h.length ▸ hindex, _, extent, hbefore, hentry⟩

theorem Accepted.key_eq (hget : keys[index]? = some key) : node.key index = .ok key := by
  induction index generalizing key with
  | zero =>
    obtain ⟨hindex, before, extent, hbefore, hentry⟩ := h.extent hget
    cases hbefore
    rw [Node.key, hentry.entryKey hindex, hentry.decodes, List.take_nil, List.nil_append]
    rfl
  | succ index ih =>
    obtain ⟨hindex, before, extent, hbefore, hentry⟩ := h.extent hget
    rw [Node.key, hentry.entryKey hindex, ok_bind, hentry.decodes]
    by_cases hshared : extent.prefixLen = 0
    · rw [if_pos hshared, hshared, List.take_zero, List.nil_append]
      rfl
    · rw [if_neg hshared, ih hbefore, ok_bind, check_pos hentry.shared, ok_bind]
      rfl

theorem Accepted.compareKey_eq (hget : keys[index]? = some key) :
    node.compareKey index probe = .ok (orderAt keys probe index) := by
  obtain ⟨hindex, before, extent, -, hentry⟩ := h.extent hget
  rw [Node.compareKey, check_pos hindex, ok_bind, hentry.prefixed, ok_bind, hentry.suffixed, ok_bind]
  have horder : .ok (compareOfLessAndEq key probe) = (.ok (orderAt keys probe index) : Access Ordering) :=
    congrArg _ (orderAt_of_less hget).symm
  by_cases hshared : extent.prefixLen = 0
  · have hkey := hentry.decodes
    rw [hshared, List.take_zero, List.nil_append] at hkey
    rw [if_pos hshared, hentry.slot, ok_bind, check_pos (hentry.suffix_le.trans hentry.stop_le), ok_bind,
      ← horder, hkey]
    rfl
  · rw [if_neg hshared, h.key_eq hget, ← horder]
    rfl

theorem Accepted.compareKey_of_lt (hindex : index < keys.length) :
    node.compareKey index probe = .ok (orderAt keys probe index) := h.compareKey_eq (List.getElem?_eq_getElem hindex)

theorem Accepted.searchLoop_eq {fuel lo hi : ℕ} {found : Option ℕ} (hhi : hi ≤ keys.length) :
    node.searchLoop probe fuel lo hi found = .ok (Keyed.probe (orderAt keys probe) fuel lo hi found) := by
  induction fuel generalizing lo hi found with
  | zero => rfl
  | succ fuel ih =>
    rw [searchLoop, Keyed.probe]
    by_cases hlo : lo < hi
    swap
    · rw [if_neg hlo, if_neg hlo]
    rw [if_pos hlo, if_pos hlo]
    dsimp only
    rw [h.compareKey_of_lt (by omega)]
    cases orderAt keys probe (lo + (hi - lo) / 2)
    · exact ih hhi
    · exact ih (by omega)
    · exact ih (by omega)

theorem Accepted.upperLoop_eq {fuel lo hi n : ℕ} (hhi : hi ≤ keys.length)
    (hn : Keyed.probe (fun i => if orderAt keys probe i = .gt then .gt else .lt) fuel lo hi none = .missing n) :
    node.upperLoop probe fuel lo hi = .ok n := by
  induction fuel generalizing lo hi with
  | zero =>
    cases hn
    rfl
  | succ fuel ih =>
    rw [Keyed.probe] at hn
    rw [upperLoop]
    by_cases hlo : lo < hi
    swap
    · rw [if_neg hlo] at hn ⊢
      cases hn
      rfl
    rw [if_pos hlo] at hn ⊢
    dsimp only at hn ⊢
    rw [h.compareKey_of_lt (by omega), ok_bind]
    cases horder : orderAt keys probe (lo + (hi - lo) / 2)
    · rw [horder] at hn
      exact ih hhi hn
    · rw [horder] at hn
      exact ih hhi hn
    · rw [horder] at hn
      exact ih (by omega) hn

theorem Accepted.valueEnd_eq {previous : Bytes} {extent : Extent}
    (hentry : node.EntryAt offsets previous key index extent) :
    ∃ stop, node.valueEnd index extent.offset = .ok stop ∧ extent.stop ≤ stop ∧ stop ≤ pageSize := by
  rw [valueEnd, h.slots, ok_bind]
  refine ⟨_, rfl, ?_⟩
  cases hmin : ((offsets.eraseIdx index).filter (extent.offset < ·)).min? with
  | none => exact ⟨hentry.stop_le, le_rfl⟩
  | some stop =>
    obtain ⟨hmem, hlt⟩ := List.mem_filter.mp (List.min?_mem hmin)
    have hoffset := List.mem_of_mem_eraseIdx hmem
    exact ⟨hentry.next stop hoffset (by simpa using hlt), (h.bounded stop hoffset).le⟩

theorem Accepted.value_ok (hleaf : node.header.pageType = .leaf)
    (hget : keys[index]? = some key) : ∃ value, node.value index = .ok value := by
  obtain ⟨hindex, before, extent, -, hentry⟩ := h.extent hget
  have hpayload := hentry.payload
  rw [checkPayload, if_neg (by simp [hleaf])] at hpayload
  obtain ⟨_, hlt, hpayload⟩ := bind_eq_ok.mp hpayload
  obtain ⟨valueType, hbyte, htype⟩ := bind_eq_ok.mp hpayload
  rw [check_eq_ok] at hlt htype
  rw [Node.value, check_pos ⟨hindex, hleaf⟩, ok_bind, hentry.slot, ok_bind, hentry.suffixed, ok_bind]
  show ∃ value, (node.byte extent.suffixEnd >>= _) = _
  rw [hbyte, ok_bind, valueOf]
  obtain ⟨stop, hstop, hle, hpage⟩ := h.valueEnd_eq hentry
  have hend := hentry.stop_le
  rcases htype with rfl | rfl | ⟨rfl, hblob⟩
  · rw [if_pos rfl, hstop, ok_bind, range_of_le ⟨show extent.suffixEnd + 1 ≤ stop by omega, hpage⟩]
    exact ⟨_, rfl⟩
  · exact ⟨_, rfl⟩
  · rw [if_neg (by decide), if_pos rfl,
      range_of_le ⟨Nat.le_add_right _ _, show extent.suffixEnd + 1 + blobPointerSize ≤ pageSize by omega⟩]
    exact ⟨_, rfl⟩

theorem Accepted.childId_ok (hinternal : node.header.pageType = .internal)
    (hget : keys[index]? = some key) : ∃ child, node.childId index = .ok child := by
  obtain ⟨hindex, before, extent, -, hentry⟩ := h.extent hget
  have hpayload := hentry.payload
  rw [checkPayload, if_pos hinternal, check_eq_ok] at hpayload
  have hpage : extent.suffixEnd + 8 ≤ pageSize := hpayload.trans hentry.stop_le
  rw [childId, check_pos ⟨hindex, hinternal⟩, ok_bind, hentry.slot, ok_bind, hentry.suffixed, ok_bind,
    check_pos hpage, ok_bind, range_of_le ⟨Nat.le_add_right _ _, hpage⟩]
  exact ⟨_, rfl⟩

end

theorem key_of_ge (hindex : ¬index < node.count) : node.key index = .error .refused := by
  have hentry : node.entryKey index = .error .refused := check_neg_bind hindex _
  cases index with
  | zero | succ index =>
    rw [Node.key, hentry]
    rfl

theorem Accepted.value_ne_panic (h : node.Accepted offsets keys) (index : ℕ) : node.value index ≠ .error .panic := by
  by_cases hin : index < node.count ∧ node.header.pageType = .leaf
  · obtain ⟨value, hvalue⟩ := h.value_ok hin.2 (List.getElem?_eq_getElem (h.length.symm ▸ hin.1))
    simp [hvalue]
  · simp [Node.value, check_neg_bind hin]

theorem Accepted.childId_ne_panic (h : node.Accepted offsets keys) (index : ℕ) :
    node.childId index ≠ .error .panic := by
  by_cases hin : index < node.count ∧ node.header.pageType = .internal
  · obtain ⟨child, hchild⟩ := h.childId_ok hin.2 (List.getElem?_eq_getElem (h.length.symm ▸ hin.1))
    simp [hchild]
  · simp [childId, check_neg_bind hin]

theorem Accepted.childForKey_eq (h : node.Accepted offsets keys) (hinternal : node.header.pageType = .internal)
    (probe : Bytes) :
    ∃ n, UpperBound keys probe n ∧ node.childForKey probe = if n = 0 then .ok node.header.leftmostChild
      else node.childId (n - 1) := by
  obtain ⟨n, hn, hupper⟩ := Keyed.binarySearch_upper h.sorted probe
  refine ⟨n, hupper, ?_⟩
  rw [childForKey, check_pos hinternal, ok_bind, ← h.length, h.upperLoop_eq le_rfl hn]
  rfl

theorem Accepted.childForKey_ne_panic (h : node.Accepted offsets keys) (probe : Bytes) :
    node.childForKey probe ≠ .error .panic := by
  by_cases hinternal : node.header.pageType = .internal
  · obtain ⟨n, -, hchild⟩ := h.childForKey_eq hinternal probe
    rw [hchild]
    split
    · simp
    · exact h.childId_ne_panic _
  · simp [childForKey, check_neg_bind hinternal]

end Access

/-- No access to an accepted page leaves it. Its keys are sorted, though they may repeat: the search
ends at the first of the equal ones or where the key would go, and a child is that of the last key that
is not above. -/
theorem accepted_node_reads {data : Bytes} {sized : data.length = pageSize} (h : fromBytes data sized = .ok node)
    (probe : Bytes) :
    ∃ keys : List Bytes, (∀ index, node.key index = keys[index]?.elim (.error .refused) .ok) ∧ keys.Pairwise (· ≤ ·) ∧
      (∀ index, node.value index ≠ .error .panic ∧ node.childId index ≠ .error .panic) ∧
      (∀ index < keys.length, (node.header.pageType = .leaf → ∃ value, node.value index = .ok value) ∧
        (node.header.pageType = .internal → ∃ child, node.childId index = .ok child)) ∧
      (∃ slot, node.search probe = .ok slot ∧ Place keys probe slot) ∧ node.childForKey probe ≠ .error .panic ∧
      (node.header.pageType = .internal →
        ∃ n, UpperBound keys probe n ∧ node.childForKey probe = if n = 0 then .ok node.header.leftmostChild
          else node.childId (n - 1)) := by
  obtain ⟨offsets, keys, haccepted⟩ := fromBytes_accepted h
  refine ⟨keys, fun index => ?_, haccepted.sorted, fun index =>
    ⟨haccepted.value_ne_panic index, haccepted.childId_ne_panic index⟩,
    fun index hindex => ⟨fun hleaf => haccepted.value_ok hleaf (List.getElem?_eq_getElem hindex), fun hinternal =>
      haccepted.childId_ok hinternal (List.getElem?_eq_getElem hindex)⟩,
      ⟨_, ?_, Keyed.binarySearch_place haccepted.sorted probe⟩,
    haccepted.childForKey_ne_panic probe, fun hinternal => haccepted.childForKey_eq hinternal probe⟩
  · cases hget : keys[index]? with
    | some key => exact haccepted.key_eq hget
    | none => exact key_of_ge (haccepted.length ▸ not_lt.mpr (List.getElem?_eq_none_iff.mp hget))
  · rw [search, ← haccepted.length]
    exact haccepted.searchLoop_eq le_rfl

/-- A leaf with a tombstone in front of the value of the same key. -/
def repeatedPage : Bytes :=
  [0x52, 0x45, 0x45, 0x53, 3, 0, 0, 0, 2, 0, 0, 0, 2, 0, 0, 0, 0, 0, 0, 0] ++ (List.replicate 28 0 ++
    ([56, 0, 1, 0, 62, 0, 1, 0, 0, 0, 1, 0, 7, 2, 0, 0, 1, 0, 7, 0] ++ List.replicate 4028 0))

theorem length_repeatedPage : repeatedPage.length = pageSize := by
  rw [repeatedPage, List.length_append, List.length_append, List.length_append, List.length_replicate,
    List.length_replicate]
  rfl

def repeatedNode : Node := ⟨repeatedPage, length_repeatedPage⟩

theorem repeatedNode_accepted : fromBytes repeatedPage repeatedNode.sized = .ok repeatedNode := by
  have hheader : NodeHeader.tryFromBytes (slice repeatedPage 0 headerSize) = .ok repeatedNode.header := by
    decide +kernel
  have hcount : repeatedNode.count = 2 := by decide +kernel
  have hoffsets : collect repeatedNode.checkedOffset 0 2 = .ok [56, 62] := by decide +kernel
  have hlayout : repeatedNode.validateLayout = .ok () := by
    rw [validateLayout, hcount, hoffsets, check_pos (by decide +kernel), ok_bind, ok_bind,
      List.mergeSort_of_pairwise (by decide)]
    decide +kernel
  exact bind_eq_ok.mpr ⟨_, hheader, bind_eq_ok.mpr ⟨(), hlayout, rfl⟩⟩

theorem accepted_node_repeats_key : fromBytes repeatedPage repeatedNode.sized = .ok repeatedNode ∧
    repeatedNode.key 0 = .ok [7] ∧ repeatedNode.key 1 = .ok [7] :=
  ⟨repeatedNode_accepted, by decide +kernel, by decide +kernel⟩

theorem accepted_node_reads_repeated : fromBytes repeatedPage repeatedNode.sized = .ok repeatedNode ∧
    ∃ keys : List Bytes, (∀ index, repeatedNode.key index = keys[index]?.elim (.error .refused) .ok) ∧
      ∃ slot, repeatedNode.search [7] = .ok slot ∧ Place keys [7] slot := by
  obtain ⟨keys, hkeys, -, -, -, hsearch, -⟩ := accepted_node_reads repeatedNode_accepted [7]
  exact ⟨repeatedNode_accepted, keys, hkeys, hsearch⟩

end Node

end OmenDb.Btree
