import OmenDb.Lib.Buffer
import OmenDb.Lib.Machine
import OmenDb.Vnext.Page

/-! Pages of the ordered tree with their slots and the heap of entries, which grows down from the end of
the page. A slot says where its entry lies and caches the first four bytes of the key. Header and slots
are taken as decoded; the entries are bytes, and a write of one goes below all that are there. -/
namespace OmenDb.Vnext.Slotted

abbrev Result := Except String

def require (p : Prop) [Decidable p] (reason : String) : Result Unit := if p then .ok () else .error reason

/-- `ok_or`. -/
def orError {α : Type} (reason : String) : Option α → Result α
  | some a => .ok a
  | none => .error reason

inductive Kind
  | internal
  | leaf
  deriving DecidableEq

structure Slot where
  offset : ℕ
  keyLen : ℕ
  payloadLen : ℕ
  head : ℕ
  deriving DecidableEq

/-- A page. Its slots lie below the heap, and the heap in the page. -/
structure PageRef where
  kind : Kind
  keyPrefix : Bytes
  high : Option Fence
  leftmost : Option PageId
  slots : List Slot
  upper : ℕ
  data : Bytes
  bounds : headerSize + slots.length * slotSize ≤ upper ∧ upper ≤ data.length

def tagInline : Byte := 0
def tagBlob : Byte := 1
def tagTombstone : Byte := 2

/-- A key with its value tag, in a leaf, and the bytes of its value or child. -/
structure EncodedEntry where
  key : Bytes
  tag : Option Byte
  payload : Bytes

def EncodedEntry.bytes (entry : EncodedEntry) : Bytes := entry.key ++ (entry.tag.toList ++ entry.payload)

def EncodedEntry.slotAt (entry : EncodedEntry) (offset : ℕ) : Slot :=
  ⟨offset, entry.key.length, entry.payload.length, keyHead 4 entry.key⟩

namespace PageRef

variable (page : PageRef)

def slot (index : ℕ) : Result Slot := orError "slot index out of bounds" page.slots[index]?

def suffix (slot : Slot) : Result Bytes :=
  orError "key suffix exceeds page" (checkedSlice page.data slot.offset slot.keyLen)

/-- The comparison with a key: the heads first, if the key has the prefix of the page. -/
def compareSuffix (pre suffix : Bytes) (head : ℕ) (key : Bytes) : Ordering :=
  if pre.isPrefixOf key then
    if head ≠ keyHead 4 (key.drop pre.length) then compare head (keyHead 4 (key.drop pre.length))
    else compareOfLessAndEq (pre ++ suffix) key
  else compareOfLessAndEq (pre ++ suffix) key

def compareKey (index : ℕ) (key : Bytes) : Result Ordering := do
  let slot ← page.slot index
  let suffix ← page.suffix slot
  return compareSuffix page.keyPrefix suffix slot.head key

/-- The loop of `search`. -/
def searchLoop (key : Bytes) : ℕ → ℕ → ℕ → Option ℕ → Result Keyed.Slot
  | 0, lo, _, found => .ok (found.elim (.missing lo) .found)
  | fuel + 1, lo, hi, found =>
    if lo < hi then do
      let mid := lo + (hi - lo) / 2
      match ← page.compareKey mid key with
      | .lt => searchLoop key fuel (mid + 1) hi found
      | .eq => searchLoop key fuel lo mid (some mid)
      | .gt => searchLoop key fuel lo mid found
    else .ok (found.elim (.missing lo) .found)

def search (key : Bytes) : Result Keyed.Slot := page.searchLoop key page.slots.length 0 page.slots.length none

def child (slot : Slot) : Result PageId := do
  require (page.kind = .internal) "leaf page has no child pointer"
  require (slot.payloadLen = 8) "internal child payload length is invalid"
  let child ← orError "child pointer is missing" (readWord 8 page.data (slot.offset + slot.keyLen))
  require (child ≠ reservedPageId) "reserved page id used as child"
  return child

/-- The loop of `child_for_key` over equal keys. -/
def upperLoop (key : Bytes) : ℕ → ℕ → Result ℕ
  | 0, upper => .ok upper
  | fuel + 1, upper =>
    if upper < page.slots.length then do
      if (← page.compareKey upper key) = .eq then upperLoop key fuel (upper + 1) else return upper
    else .ok upper

def upperBound (key : Bytes) : Result ℕ := do
  match ← page.search key with
  | .found index => page.upperLoop key page.slots.length (index + 1)
  | .missing index => return index

def childForKey (key : Bytes) : Result PageId := do
  require (page.kind = .internal) "leaf page cannot route to a child"
  let insertion ← page.upperBound key
  if insertion = 0 then orError "internal page lacks leftmost child" page.leftmost
  else page.slot (insertion - 1) >>= page.child

/-- `value`, by its tag and bytes. -/
def value (slot : Slot) : Result (Byte × Bytes) := do
  require (page.kind = .leaf) "internal page has no leaf value"
  let tag ← orError "leaf value tag is missing" page.data[slot.offset + slot.keyLen]?
  let value ← orError "leaf value exceeds page"
    (checkedSlice page.data (slot.offset + slot.keyLen + 1) slot.payloadLen)
  require (tag = tagInline ∨ tag = tagBlob ∧ value.length = 16 ∨ tag = tagTombstone ∧ value = [])
    "invalid leaf value encoding"
  return (tag, value)

/-- An element of `leaf_entries_owned` or `internal_entries_owned`, encoded again. -/
def entry (slot : Slot) : Result EncodedEntry := do
  let suffix ← page.suffix slot
  match page.kind with
  | .leaf => do
    let (tag, payload) ← page.value slot
    return ⟨page.keyPrefix ++ suffix, some tag, payload⟩
  | .internal => do
    let child ← page.child slot
    return ⟨page.keyPrefix ++ suffix, none, (Word.ofNat child : Word 8).toLe⟩

def followRight (key : Bytes) : Option PageId :=
  match page.high with
  | none => none
  | some fence => if fence.key ≤ key then some fence.right else none

/-- The loop of `validate_full`, over the slots behind a key. -/
def validateSlots : Option Bytes → List Slot → Result Unit
  | _, [] => .ok ()
  | previous, slot :: slots => do
    let entryLen := if page.kind = .leaf then slot.keyLen + 1 + slot.payloadLen else slot.keyLen + 8
    require (page.upper ≤ slot.offset ∧ slot.offset + entryLen ≤ page.data.length) "entry lies outside heap"
    let suffix ← page.suffix slot
    require (∀ key ∈ previous, key ≤ page.keyPrefix ++ suffix) "page keys are not sorted"
    let _ ← page.entry slot
    validateSlots (some (page.keyPrefix ++ suffix)) slots

end PageRef

/-- What `build_page` has written so far. -/
structure Heap where
  slots : List Slot
  upper : ℕ
  data : Bytes

def writeEntry (lower : ℕ) (heap : Heap) (entry : EncodedEntry) : Result Heap := do
  require (entry.key.length ≤ u16Max) "entry count/key length exceeds page metadata"
  require (entry.tag = none → entry.payload ≠ List.replicate 8 255) "reserved page id used as child"
  require (entry.payload.length ≤ u16Max) "entry payload exceeds slot length"
  require (entry.bytes.length ≤ heap.upper) "entry heap does not fit page"
  let upper := heap.upper - entry.bytes.length
  require (lower ≤ upper) "page does not fit encoded entries"
  return ⟨heap.slots ++ [entry.slotAt upper], upper, overwrite heap.data upper entry.bytes⟩

/-- `build_page`. Its pages have no prefix, and the last step checks the page it has made. -/
def buildPage (pageSize : ℕ) (kind : Kind) (leftmost : Option PageId) (high : Option Fence)
    (entries : List EncodedEntry) : Result PageRef := do
  let fence := high.elim [] Fence.key
  require (headerSize + slotSize ≤ pageSize ∧ pageSize < 2 ^ 32) "page size is outside v4 bounds"
  require (fence.length ≤ pageSize) "high fence does not fit page"
  let upper := pageSize - fence.length
  let lower := headerSize + entries.length * slotSize
  require (lower ≤ upper) "slot array does not fit page"
  let heap ← entries.foldlM (writeEntry lower) ⟨[], upper, overwrite (List.replicate pageSize 0) upper fence⟩
  if h : headerSize + heap.slots.length * slotSize ≤ heap.upper ∧ heap.upper ≤ heap.data.length then do
    let page : PageRef := ⟨kind, [], high, leftmost, heap.slots, heap.upper, heap.data, h⟩
    page.validateSlots none page.slots
    return page
  else .error "invalid page free-space bounds"

def buildLeaf (pageSize : ℕ) (high : Option Fence) (entries : List EncodedEntry) : Result PageRef :=
  buildPage pageSize .leaf none high entries

def buildInternal (pageSize : ℕ) (high : Option Fence) (leftmost : PageId) (entries : List EncodedEntry) :
    Result PageRef := do
  require (leftmost ≠ reservedPageId) "reserved page id used as leftmost child"
  buildPage pageSize .internal (some leftmost) high entries

inductive InsertResult
  | inserted
  | duplicate
  | full
  | followRight (right : PageId)
  deriving DecidableEq

namespace PageRef

variable (page : PageRef)

def compact : Result PageRef :=
  match page.kind with
  | .leaf => do
    let entries ← page.slots.mapM page.entry
    buildLeaf page.data.length page.high entries
  | .internal => do
    let leftmost ← orError "internal page lacks leftmost child" page.leftmost
    let entries ← page.slots.mapM page.entry
    buildInternal page.data.length page.high leftmost entries

def HasContiguousSpace (len : ℕ) : Prop :=
  len ≤ page.upper ∧ headerSize + page.slots.length * slotSize + slotSize ≤ page.upper - len

instance (len : ℕ) : Decidable (page.HasContiguousSpace len) := inferInstanceAs (Decidable (_ ∧ _))

def makeRoom (len : ℕ) : Result PageRef := if page.HasContiguousSpace len then .ok page else page.compact

theorem insert_bounds (insertion : ℕ) (slot : Slot) {bytes : Bytes} (h : page.HasContiguousSpace bytes.length) :
    headerSize + (Keyed.insertAt page.slots insertion slot).length * slotSize ≤ page.upper - bytes.length ∧
      page.upper - bytes.length ≤ (overwrite page.data (page.upper - bytes.length) bytes).length := by
  obtain ⟨hlen, hspace⟩ := h
  have hupper := page.bounds.2
  rw [length_overwrite (by omega), Keyed.insertAt]
  simp only [List.length_append, List.length_cons, List.length_take, List.length_drop]
  have hcount : min insertion page.slots.length + (page.slots.length - insertion + 1) = page.slots.length + 1 := by
    omega
  rw [hcount, Nat.add_mul]
  omega

/-- `insert_slot_and_entry` and `insert_internal_slot`: the entry under the heap, and its slot in place. -/
def insertSlot (insertion : ℕ) (entry : EncodedEntry) (h : page.HasContiguousSpace entry.bytes.length) : PageRef :=
  { page with
    slots := Keyed.insertAt page.slots insertion (entry.slotAt (page.upper - entry.bytes.length))
    upper := page.upper - entry.bytes.length
    data := overwrite page.data (page.upper - entry.bytes.length) entry.bytes
    bounds := page.insert_bounds insertion _ h }

/-- The reasons that tell `try_insert_inline` and `try_insert_internal` apart. -/
structure InsertReasons where
  kind : String
  foreign : String
  payload : String
  suffix : String

def insertEntry (kind : Kind) (reasons : InsertReasons) (entry : EncodedEntry) : Result (InsertResult × PageRef) := do
  require (page.kind = kind) reasons.kind
  match page.followRight entry.key with
  | some right => return (.followRight right, page)
  | none =>
    match ← page.search entry.key with
    | .found _ => return (.duplicate, page)
    | .missing insertion => do
      require (page.keyPrefix.isPrefixOf entry.key = true) reasons.foreign
      require (entry.payload.length ≤ u16Max) reasons.payload
      let stored : EncodedEntry := { entry with key := entry.key.drop page.keyPrefix.length }
      require (stored.key.length ≤ u16Max) reasons.suffix
      let page ← page.makeRoom stored.bytes.length
      if h : page.HasContiguousSpace stored.bytes.length then
        return (.inserted, page.insertSlot insertion stored h)
      else return (.full, page)

def tryInsertInline (key value : Bytes) : Result (InsertResult × PageRef) :=
  page.insertEntry .leaf ⟨"inline insert targeted an internal page", "inserted key does not share page prefix",
    "inline value exceeds v4 slot length", "key suffix exceeds v4 slot length"⟩ ⟨key, some tagInline, value⟩

def tryInsertInternal (key : Bytes) (child : PageId) : Result (InsertResult × PageRef) := do
  require (child ≠ reservedPageId) "reserved page id used as child"
  page.insertEntry .internal ⟨"separator insert targeted a leaf", "separator does not share page prefix",
    "", "separator suffix exceeds v4 slot length"⟩ ⟨key, none, (Word.ofNat child : Word 8).toLe⟩

inductive RemoveResult
  | removed
  | missing
  | followRight (right : PageId)
  deriving DecidableEq

def removeSlot (index : ℕ) : PageRef :=
  { page with
    slots := page.slots.eraseIdx index
    bounds := by
      have hlength : (page.slots.eraseIdx index).length ≤ page.slots.length :=
        (List.eraseIdx_sublist _ _).length_le
      have hslots := Nat.mul_le_mul_right slotSize hlength
      have hbounds := page.bounds
      omega }

def removeLeaf (key : Bytes) : Result (RemoveResult × PageRef) := do
  require (page.kind = .leaf) "leaf removal targeted an internal page"
  match page.followRight key with
  | some right => return (.followRight right, page)
  | none =>
    match ← page.search key with
    | .missing _ => return (.missing, page)
    | .found index => return (.removed, page.removeSlot index)

end PageRef

inductive PageAct
  | insertInline (key value : Bytes)
  | insertInternal (key : Bytes) (child : PageId)
  | removeLeaf (key : Bytes)

/-- A page is built, then written in place. A call that fails leaves it as it was. -/
def pages : Machine PageRef PageAct where
  init page := (∃ pageSize high entries, buildLeaf pageSize high entries = .ok page) ∨
    ∃ pageSize high leftmost entries, buildInternal pageSize high leftmost entries = .ok page
  step page
    | .insertInline key value => some ((page.tryInsertInline key value).toOption.elim page Prod.snd)
    | .insertInternal key child => some ((page.tryInsertInternal key child).toOption.elim page Prod.snd)
    | .removeLeaf key => some ((page.removeLeaf key).toOption.elim page Prod.snd)

end OmenDb.Vnext.Slotted
