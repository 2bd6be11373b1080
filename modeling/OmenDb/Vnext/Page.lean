import OmenDb.Lib.Keyed
import OmenDb.Mvcc.Records

/-! Pages of the ordered tree, by what they hold: entries under increasing keys, and the high fence
that stands with a right sibling. A page is built only if its header, slots, fence and entries fit
the page size. Removed entries leave their bytes behind, but an insertion compacts the page before
it gives up, so only what is stored counts. -/
namespace OmenDb.Vnext

abbrev PageId := ℕ

/-- `NONE_PAGE` and `RESERVED_PAGE_ID`. -/
def reservedPageId : PageId := 2 ^ 64 - 1

def headerSize : ℕ := 64
def slotSize : ℕ := 12
def u16Max : ℕ := 2 ^ 16 - 1

structure BlobPointer where
  fileId : ℕ
  offset : ℕ
  length : ℕ
  deriving DecidableEq

inductive LeafValue
  | inline (value : Bytes)
  | blob (pointer : BlobPointer)
  | tombstone
  deriving DecidableEq

structure LeafEntry where
  key : Bytes
  value : LeafValue
  deriving DecidableEq

structure InternalEntry where
  key : Bytes
  child : PageId
  deriving DecidableEq

/-- A high fence with the right sibling that takes over there. -/
structure Fence where
  key : Bytes
  right : PageId
  deriving DecidableEq

inductive Page
  | leaf (high : Option Fence) (entries : List LeafEntry)
  | internal (high : Option Fence) (leftmost : PageId) (entries : List InternalEntry)
  deriving DecidableEq

/-- The reasons pages give. Those of the first block say "does not fit"; the next name a slot
length. -/
inductive PageError
  | highFenceFit | slotArrayFit | entryHeapFit | encodedEntriesFit
  | payloadSlotLength | valueSlotLength | suffixSlotLength | separatorSlotLength
  | pageSizeBounds | entryMetadata | unsortedKeys | reservedChild | reservedLeftmost
  | inlineIntoInternal | separatorIntoLeaf | removalFromInternal
  | leafRoutes | internalValue | internalEntries | leafEntries
  | fewEntries | duplicateSeparator | outsideFence | duplicateInternalSeparator
  | lostPromoted | rangeInternal
  deriving DecidableEq

namespace Page

def high : Page → Option Fence
  | .leaf high _ => high
  | .internal high _ _ => high

def isLeaf : Page → Bool
  | .leaf _ _ => true
  | .internal _ _ _ => false

def followRight (page : Page) (key : Bytes) : Option PageId :=
  match page.high with
  | none => none
  | some fence => if fence.key ≤ key then some fence.right else none

end Page

/-- The first `n` bytes as a number, with zeros behind a shorter key. -/
def keyHead : ℕ → Bytes → ℕ
  | 0, _ => 0
  | _ + 1, [] => 0
  | n + 1, b :: bs => b.val * 256 ^ n + keyHead n bs

/-- `compare_key`: the cached heads decide when they differ. -/
def compareKey (slot key : Bytes) : Ordering :=
  if keyHead 4 slot ≠ keyHead 4 key then compare (keyHead 4 slot) (keyHead 4 key) else compareOfLessAndEq slot key

/-- `PageRef::search`, over the entries of either kind. -/
def search {α : Type} (keyOf : α → Bytes) (entries : List α) (key : Bytes) : Keyed.Slot :=
  Keyed.binarySearch (fun i => (entries[i]?).elim .lt fun entry => compareKey (keyOf entry) key) entries.length

theorem keyHead_lt (n : ℕ) (bs : Bytes) : keyHead n bs < 256 ^ n := by
  induction n generalizing bs with
  | zero => simp [keyHead]
  | succ n ih =>
    cases bs with
    | nil => simp [keyHead]
    | cons b bs =>
      have hb : b.val * 256 ^ n ≤ 255 * 256 ^ n := Nat.mul_le_mul_right _ (by omega)
      have := ih bs
      rw [keyHead, Nat.pow_succ]
      omega

theorem lt_of_keyHead_lt {n : ℕ} {a b : Bytes} (h : keyHead n a < keyHead n b) : a < b := by
  induction n generalizing a b with
  | zero => simp [keyHead] at h
  | succ n ih =>
    cases b with
    | nil => simp [keyHead] at h
    | cons y ys =>
      cases a with
      | nil => exact List.nil_lt_cons y ys
      | cons x xs =>
        rw [List.cons_lt_cons_iff]
        have hxs := keyHead_lt n xs
        have hys := keyHead_lt n ys
        rw [keyHead, keyHead] at h
        rcases lt_trichotomy x y with hxy | rfl | hxy
        · exact .inl hxy
        · exact .inr ⟨rfl, ih (by omega)⟩
        · have : (y.val + 1) * 256 ^ n ≤ x.val * 256 ^ n := Nat.mul_le_mul_right _ hxy
          rw [Nat.add_mul] at this
          omega

theorem compareKey_eq (slot key : Bytes) : compareKey slot key = compareOfLessAndEq slot key := by
  unfold compareKey
  by_cases h : keyHead 4 slot = keyHead 4 key
  · rw [if_neg (by simp [h])]
  · rw [if_pos h]
    rcases Nat.lt_or_gt_of_ne h with hlt | hlt
    · have hkeys := lt_of_keyHead_lt hlt
      rw [compare_lt_iff_lt.mpr hlt, compareOfLessAndEq, if_pos hkeys]
    · have hkeys := lt_of_keyHead_lt hlt
      rw [compare_gt_iff_gt.mpr hlt, compareOfLessAndEq, if_neg hkeys.asymm, if_neg hkeys.ne']

variable {α : Type} {lower upper split : ℕ} {shapes : List EntryShape} {entries : List LeafEntry} {key value : Bytes}
  {high : Option Fence}

theorem search_fits {keyOf : α → Bytes} {entries : List α} (hs : Keyed.Sorted keyOf entries) (key : Bytes) :
    (search keyOf entries key).Fits keyOf entries key := by
  apply Keyed.binarySearch_fits hs
  intro i entry h
  rw [h, Option.elim_some, compareKey_eq, compareOfLessAndEq]
  rcases lt_trichotomy (keyOf entry) key with hlt | heq | hlt
  · rw [if_pos hlt, compare_lt_iff_lt.mpr hlt]
  · rw [if_neg heq.not_lt, if_pos heq, compare_eq_iff_eq.mpr heq]
  · rw [if_neg hlt.asymm, if_neg hlt.ne', compare_gt_iff_gt.mpr hlt]

def Page.childForKey (page : Page) (key : Bytes) : Except PageError PageId :=
  match page with
  | .leaf _ _ => .error .leafRoutes
  | .internal _ leftmost entries =>
    match search InternalEntry.key entries key with
    | .found i => .ok ((entries[i]?).elim leftmost InternalEntry.child)
    | .missing 0 => .ok leftmost
    | .missing (i + 1) => .ok ((entries[i]?).elim leftmost InternalEntry.child)

theorem Page.childForKey_internal {high : Option Fence} {leftmost : PageId} {entries : List InternalEntry}
    (hs : Keyed.Sorted InternalEntry.key entries) (key : Bytes) :
    ∃ child, (Page.internal high leftmost entries).childForKey key = .ok child ∧
      (child = leftmost ∨ ∃ entry ∈ entries, entry.key ≤ key ∧ entry.child = child) := by
  have hfits := search_fits hs key
  cases h : search InternalEntry.key entries key with
  | found i =>
    rw [h] at hfits
    obtain ⟨entry, hget, hkey⟩ := hfits
    refine ⟨entry.child, by simp [childForKey, h, hget], .inr ⟨entry, List.mem_of_getElem? hget, hkey.le, rfl⟩⟩
  | missing i =>
    rw [h] at hfits
    cases i with
    | zero => exact ⟨leftmost, by simp [childForKey, h], .inl rfl⟩
    | succ i =>
      cases hget : entries[i]? with
      | none => exact ⟨leftmost, by simp [childForKey, h, hget], .inl rfl⟩
      | some entry =>
        refine ⟨entry.child, by simp [childForKey, h, hget], .inr ⟨entry, List.mem_of_getElem? hget, ?_, rfl⟩⟩
        exact (hfits.1 entry (Keyed.mem_take_iff.mpr ⟨i, by omega, hget⟩)).le

structure EntryShape where
  keyLength : ℕ
  payloadLength : ℕ
  /-- A leaf entry has a tag byte before its payload. -/
  tagged : Bool
  reserved : Bool
  deriving DecidableEq

def EntryShape.length (shape : EntryShape) : ℕ :=
  shape.keyLength + shape.payloadLength + (if shape.tagged then 1 else 0)

def LeafValue.length : LeafValue → ℕ
  | .inline value => value.length
  | .blob _ => 16
  | .tombstone => 0

def LeafEntry.shape (entry : LeafEntry) : EntryShape := ⟨entry.key.length, entry.value.length, true, false⟩

def InternalEntry.shape (entry : InternalEntry) : EntryShape :=
  ⟨entry.key.length, 8, false, decide (entry.child = reservedPageId)⟩

/-- Lay out the entries downwards from `upper`. -/
def packEntries (lower : ℕ) : ℕ → List EntryShape → Except PageError Unit
  | _, [] => .ok ()
  | upper, shape :: shapes =>
    if u16Max < shape.keyLength then .error .entryMetadata
    else if shape.reserved then .error .reservedChild
    else if u16Max < shape.payloadLength then .error .payloadSlotLength
    else if upper < shape.length then .error .entryHeapFit
    else if upper - shape.length < lower then .error .encodedEntriesFit
    else packEntries lower (upper - shape.length) shapes

def fenceLength (high : Option Fence) : ℕ := high.elim 0 fun fence => fence.key.length

/-- The layout of `build_page`. -/
def layoutPage (pageSize : ℕ) (high : Option Fence) (shapes : List EntryShape) : Except PageError Unit :=
  if pageSize < headerSize + slotSize ∨ 2 ^ 32 - 1 < pageSize then .error .pageSizeBounds
  else if pageSize < fenceLength high then .error .highFenceFit
  else if pageSize - fenceLength high < headerSize + slotSize * shapes.length then .error .slotArrayFit
  else packEntries (headerSize + slotSize * shapes.length) (pageSize - fenceLength high) shapes

/-- The keys do not decrease: what `validate_full` asks of a page just built. -/
def inOrder {α : Type} (keyOf : α → Bytes) (entries : List α) : Bool :=
  decide ((entries.map keyOf).IsChain (· ≤ ·))

def buildLeaf (pageSize : ℕ) (high : Option Fence) (entries : List LeafEntry) : Except PageError Page := do
  layoutPage pageSize high (entries.map LeafEntry.shape)
  if inOrder LeafEntry.key entries then .ok (.leaf high entries) else .error .unsortedKeys

def buildInternal (pageSize : ℕ) (high : Option Fence) (leftmost : PageId) (entries : List InternalEntry) :
    Except PageError Page :=
  if leftmost = reservedPageId then .error .reservedLeftmost
  else do
    layoutPage pageSize high (entries.map InternalEntry.shape)
    if inOrder InternalEntry.key entries then .ok (.internal high leftmost entries) else .error .unsortedKeys

def pageBytes (high : Option Fence) (shapes : List EntryShape) : ℕ :=
  headerSize + fenceLength high + (shapes.map fun shape => slotSize + shape.length).sum

def EntryShape.Plain (shape : EntryShape) : Prop :=
  shape.keyLength ≤ u16Max ∧ shape.payloadLength ≤ u16Max ∧ shape.reserved = false

def PageError.TooSmall (error : PageError) : Prop :=
  error = .highFenceFit ∨ error = .slotArrayFit ∨ error = .entryHeapFit ∨ error = .encodedEntriesFit

theorem packEntries_of_le (hplain : ∀ shape ∈ shapes, shape.Plain)
    (h : lower + (shapes.map EntryShape.length).sum ≤ upper) : packEntries lower upper shapes = .ok () := by
  induction shapes generalizing upper with
  | nil => rfl
  | cons shape shapes ih =>
    obtain ⟨hkey, hpayload, hreserved⟩ := hplain shape (by simp)
    simp only [List.map_cons, List.sum_cons] at h
    rw [packEntries, if_neg (by omega), if_neg (by simp [hreserved]), if_neg (by omega), if_neg (by omega),
      if_neg (by omega)]
    exact ih (fun shape hmem => hplain shape (by simp [hmem])) (by omega)

theorem packEntries_of_lt (hplain : ∀ shape ∈ shapes, shape.Plain) (hle : lower ≤ upper)
    (h : upper < lower + (shapes.map EntryShape.length).sum) :
    packEntries lower upper shapes = .error .entryHeapFit ∨
      packEntries lower upper shapes = .error .encodedEntriesFit := by
  induction shapes generalizing upper with
  | nil => simp at h; omega
  | cons shape shapes ih =>
    obtain ⟨hkey, hpayload, hreserved⟩ := hplain shape (by simp)
    simp only [List.map_cons, List.sum_cons] at h
    rw [packEntries, if_neg (by omega), if_neg (by simp [hreserved]), if_neg (by omega)]
    by_cases hheap : upper < shape.length
    · rw [if_pos hheap]
      exact .inl rfl
    rw [if_neg hheap]
    by_cases hfit : upper - shape.length < lower
    · rw [if_pos hfit]
      exact .inr rfl
    rw [if_neg hfit]
    exact ih (fun shape hmem => hplain shape (by simp [hmem])) (by omega) (by omega)

theorem sum_slots (shapes : List EntryShape) :
    (shapes.map fun shape => slotSize + shape.length).sum = slotSize *
      shapes.length + (shapes.map EntryShape.length).sum := by
  induction shapes with
  | nil => rfl
  | cons shape shapes ih =>
    simp only [List.map_cons, List.sum_cons, ih, List.length_cons]
    ring

def PageSized (pageSize : ℕ) : Prop := headerSize + slotSize ≤ pageSize ∧ pageSize ≤ 2 ^ 32 - 1

section Layout

variable {pageSize : ℕ} {high : Option Fence} {shapes : List EntryShape}

theorem layoutPage_of_le (hsized : PageSized pageSize) (hplain : ∀ shape ∈ shapes, shape.Plain)
    (h : pageBytes high shapes ≤ pageSize) : layoutPage pageSize high shapes = .ok () := by
  have hsum := sum_slots shapes
  unfold PageSized at hsized
  unfold pageBytes at h
  rw [layoutPage, if_neg (by omega), if_neg (by omega), if_neg (by omega)]
  exact packEntries_of_le hplain (by omega)

theorem layoutPage_of_lt (hsized : PageSized pageSize) (hplain : ∀ shape ∈ shapes, shape.Plain)
    (h : pageSize < pageBytes high shapes) :
    ∃ error : PageError, layoutPage pageSize high shapes = .error error ∧ error.TooSmall ∧
      (fenceLength high ≤ pageSize → error ≠ .highFenceFit) := by
  have hsum := sum_slots shapes
  unfold PageSized at hsized
  unfold pageBytes at h
  rw [layoutPage, if_neg (by omega)]
  by_cases hfence : pageSize < fenceLength high
  · rw [if_pos hfence]
    exact ⟨_, rfl, .inl rfl, fun hle => absurd hle (by omega)⟩
  rw [if_neg hfence]
  by_cases hslots : pageSize - fenceLength high < headerSize + slotSize * shapes.length
  · rw [if_pos hslots]
    exact ⟨_, rfl, .inr (.inl rfl), fun _ => by simp⟩
  rw [if_neg hslots]
  rcases packEntries_of_lt hplain (Nat.le_of_not_lt hslots) (by omega) with herr | herr
  · exact ⟨_, herr, .inr (.inr (.inl rfl)), fun _ => by simp⟩
  · exact ⟨_, herr, .inr (.inr (.inr rfl)), fun _ => by simp⟩

end Layout

theorem inOrder_of_sorted {keyOf : α → Bytes} {entries : List α} (hs : Keyed.Sorted keyOf entries) :
    inOrder keyOf entries = true := by
  have hpair : (entries.map keyOf).Pairwise (· < ·) := List.pairwise_map.mpr hs
  exact decide_eq_true (hpair.imp fun h => h.le).isChain

/-- What a leaf may hold: increasing keys, and lengths that fit a slot. -/
structure LeafEntries (entries : List LeafEntry) : Prop where
  sorted : Keyed.Sorted LeafEntry.key entries
  plain : ∀ entry ∈ entries, entry.shape.Plain

structure InternalEntries (entries : List InternalEntry) : Prop where
  sorted : Keyed.Sorted InternalEntry.key entries
  plain : ∀ entry ∈ entries, entry.shape.Plain

section Build

variable {pageSize : ℕ} {high : Option Fence}

theorem buildLeaf_of_le {entries : List LeafEntry} (hsized : PageSized pageSize) (he : LeafEntries entries)
    (h : pageBytes high (entries.map LeafEntry.shape) ≤ pageSize) :
    buildLeaf pageSize high entries = .ok (.leaf high entries) := by
  have hplain : ∀ shape ∈ entries.map LeafEntry.shape, shape.Plain := by
    simpa using he.plain
  rw [buildLeaf, layoutPage_of_le hsized hplain h, inOrder_of_sorted he.sorted]
  rfl

theorem buildLeaf_of_lt {entries : List LeafEntry} (hsized : PageSized pageSize) (he : LeafEntries entries)
    (h : pageSize < pageBytes high (entries.map LeafEntry.shape)) :
    ∃ error : PageError, buildLeaf pageSize high entries = .error error ∧ error.TooSmall ∧
      (fenceLength high ≤ pageSize → error ≠ .highFenceFit) := by
  have hplain : ∀ shape ∈ entries.map LeafEntry.shape, shape.Plain := by
    simpa using he.plain
  obtain ⟨error, herr, hsmall⟩ := layoutPage_of_lt hsized hplain h
  exact ⟨error, by rw [buildLeaf, herr]; rfl, hsmall⟩

theorem buildInternal_of_le {leftmost : PageId} {entries : List InternalEntry} (hsized : PageSized pageSize)
    (hleft : leftmost ≠ reservedPageId) (he : InternalEntries entries)
    (h : pageBytes high (entries.map InternalEntry.shape) ≤ pageSize) :
    buildInternal pageSize high leftmost entries = .ok (.internal high leftmost entries) := by
  have hplain : ∀ shape ∈ entries.map InternalEntry.shape, shape.Plain := by
    simpa using he.plain
  rw [buildInternal, if_neg hleft, layoutPage_of_le hsized hplain h, inOrder_of_sorted he.sorted]
  rfl

theorem buildInternal_of_lt {leftmost : PageId} {entries : List InternalEntry} (hsized : PageSized pageSize)
    (hleft : leftmost ≠ reservedPageId) (he : InternalEntries entries)
    (h : pageSize < pageBytes high (entries.map InternalEntry.shape)) :
    ∃ error : PageError, buildInternal pageSize high leftmost entries = .error error ∧ error.TooSmall := by
  have hplain : ∀ shape ∈ entries.map InternalEntry.shape, shape.Plain := by
    simpa using he.plain
  obtain ⟨error, herr, hsmall, -⟩ := layoutPage_of_lt hsized hplain h
  exact ⟨error, by rw [buildInternal, if_neg hleft, herr]; rfl, hsmall⟩

end Build

inductive InsertResult
  | inserted (page : Page)
  | duplicate
  | full
  | followRight (right : PageId)
  deriving DecidableEq

inductive RemoveResult
  | removed (page : Page)
  | missing
  | followRight (right : PageId)
  deriving DecidableEq

def tryInsertInline (pageSize : ℕ) (page : Page) (key value : Bytes) : Except PageError InsertResult :=
  match page with
  | .internal _ _ _ => .error .inlineIntoInternal
  | .leaf high entries =>
    match page.followRight key with
    | some right => .ok (.followRight right)
    | none =>
      match search LeafEntry.key entries key with
      | .found _ => .ok .duplicate
      | .missing i =>
        let entry : LeafEntry := ⟨key, .inline value⟩
        if u16Max < value.length then .error .valueSlotLength
        else if u16Max < key.length then .error .suffixSlotLength
        else if pageBytes high (entries.map LeafEntry.shape) + (slotSize + entry.shape.length) ≤ pageSize then
          .ok (.inserted (.leaf high (Keyed.insertAt entries i entry)))
        else .ok .full

def tryInsertInternal (pageSize : ℕ) (page : Page) (key : Bytes) (child : PageId) : Except PageError InsertResult :=
  if child = reservedPageId then .error .reservedChild
  else match page with
  | .leaf _ _ => .error .separatorIntoLeaf
  | .internal high leftmost entries =>
    match page.followRight key with
    | some right => .ok (.followRight right)
    | none =>
      match search InternalEntry.key entries key with
      | .found _ => .ok .duplicate
      | .missing i =>
        let entry : InternalEntry := ⟨key, child⟩
        if u16Max < key.length then .error .separatorSlotLength
        else if pageBytes high (entries.map InternalEntry.shape) + (slotSize + entry.shape.length) ≤ pageSize then
          .ok (.inserted (.internal high leftmost (Keyed.insertAt entries i entry)))
        else .ok .full

def removeLeaf (page : Page) (key : Bytes) : Except PageError RemoveResult :=
  match page with
  | .internal _ _ _ => .error .removalFromInternal
  | .leaf high entries =>
    match page.followRight key with
    | some right => .ok (.followRight right)
    | none =>
      match search LeafEntry.key entries key with
      | .found i => .ok (.removed (.leaf high (entries.eraseIdx i)))
      | .missing _ => .ok .missing

def upsertLeafEntry (entries : List LeafEntry) (key value : Bytes) : List LeafEntry :=
  match search LeafEntry.key entries key with
  | .found i => entries.set i ⟨key, .inline value⟩
  | .missing i => Keyed.insertAt entries i ⟨key, .inline value⟩

section Change

variable {α : Type} {keyOf : α → Bytes} {entries : List α}

theorem pageBytes_insertAt (shape : α → EntryShape) (high : Option Fence) (entries : List α) (i : ℕ) (entry : α) :
    pageBytes high ((Keyed.insertAt entries i entry).map shape) =
      pageBytes high (entries.map shape) + (slotSize + (shape entry).length) := by
  have hsplit : entries.map shape = (entries.take i).map shape ++ (entries.drop i).map shape := by
    rw [← List.map_append, List.take_append_drop]
  rw [hsplit]
  simp only [pageBytes, Keyed.insertAt, List.map_append, List.map_cons, List.sum_append, List.sum_cons]
  omega

theorem pageBytes_sublist (shape : α → EntryShape) (high : Option Fence) {fewer : List α} (h : fewer.Sublist entries) :
    pageBytes high (fewer.map shape) ≤ pageBytes high (entries.map shape) := by
  have hsum := ((h.map shape).map fun shape => slotSize + shape.length).sum_le_sum (by simp)
  unfold pageBytes
  omega

theorem search_missing (hs : Keyed.Sorted keyOf entries) {key : Bytes} (hnew : ∀ entry ∈ entries, keyOf entry ≠ key) :
    ∃ i, search keyOf entries key = .missing i ∧ Keyed.Slot.Fits keyOf entries key (.missing i) := by
  have hfits := search_fits hs key
  cases h : search keyOf entries key with
  | found i =>
    rw [h] at hfits
    obtain ⟨entry, hget, hkey⟩ := hfits
    exact absurd hkey (hnew entry (List.mem_of_getElem? hget))
  | missing i => exact ⟨i, rfl, h ▸ hfits⟩

end Change

theorem InternalEntries.insertAt {entries : List InternalEntry} {entry : InternalEntry} {i : ℕ}
    (he : InternalEntries entries)
    (hfits : Keyed.Slot.Fits InternalEntry.key entries entry.key (.missing i)) (hplain : entry.shape.Plain) :
    InternalEntries (Keyed.insertAt entries i entry) := by
  refine ⟨Keyed.sorted_insertAt he.sorted hfits, ?_⟩
  intro other hmem
  rcases Keyed.mem_insertAt.mp hmem with rfl | hmem
  · exact hplain
  · exact he.plain other hmem

theorem InternalEntries.sublist {entries fewer : List InternalEntry} (he : InternalEntries entries)
    (h : fewer.Sublist entries) :
    InternalEntries fewer := ⟨he.sorted.sublist h, fun entry hmem => he.plain entry (h.subset hmem)⟩

theorem LeafEntries.sublist {fewer : List LeafEntry} (he : LeafEntries entries) (h : fewer.Sublist entries) :
    LeafEntries fewer := ⟨he.sorted.sublist h, fun entry hmem => he.plain entry (h.subset hmem)⟩

theorem tryInsertInternal_eq {pageSize : ℕ} {high : Option Fence} {leftmost child : PageId}
    {entries : List InternalEntry} {key : Bytes}
    (hs : Keyed.Sorted InternalEntry.key entries) (hchild : child ≠ reservedPageId)
    (hright : (Page.internal high leftmost entries).followRight key = none) (hnew : ∀ entry ∈ entries, entry.key ≠ key)
    (hshort : key.length ≤ u16Max) :
    ∃ i, search InternalEntry.key entries key = .missing i ∧
      Keyed.Slot.Fits InternalEntry.key entries key (.missing i) ∧
      tryInsertInternal pageSize (.internal high leftmost entries) key child =
        .ok (if pageBytes high ((Keyed.insertAt entries i ⟨key, child⟩).map InternalEntry.shape) ≤ pageSize then
          .inserted (.internal high leftmost (Keyed.insertAt entries i ⟨key, child⟩)) else .full) := by
  obtain ⟨i, hsearch, hfits⟩ := search_missing hs hnew
  refine ⟨i, hsearch, hfits, ?_⟩
  rw [pageBytes_insertAt]
  simp only [tryInsertInternal, if_neg hchild, hright, hsearch, if_neg (Nat.not_lt.mpr hshort)]
  split <;> rfl

theorem sorted_upsertLeafEntry (hs : Keyed.Sorted LeafEntry.key entries) (key value : Bytes) :
    Keyed.Sorted LeafEntry.key (upsertLeafEntry entries key value) ∧
      ∀ k, Keyed.get? LeafEntry.key (upsertLeafEntry entries key value) k =
        if key = k then some ⟨key, .inline value⟩ else Keyed.get? LeafEntry.key entries k := by
  have hfits := search_fits hs key
  unfold upsertLeafEntry
  cases h : search LeafEntry.key entries key with
  | found i =>
    rw [h] at hfits
    obtain ⟨old, hget, rfl⟩ := hfits
    have hkey : (⟨old.key, .inline value⟩ : LeafEntry).key = old.key := rfl
    refine ⟨Keyed.sorted_set hs hget hkey, fun k => ?_⟩
    convert Keyed.get?_set hs hget hkey k
  | missing i =>
    rw [h] at hfits
    have hfits : Keyed.Slot.Fits LeafEntry.key entries (⟨key, .inline value⟩ : LeafEntry).key (.missing i) := hfits
    refine ⟨Keyed.sorted_insertAt hs hfits, fun k => ?_⟩
    convert Keyed.get?_insertAt hs hfits k

theorem mem_upsertLeafEntry (hs : Keyed.Sorted LeafEntry.key entries) (key value : Bytes) (entry : LeafEntry) :
    entry ∈ upsertLeafEntry entries key value ↔ entry = ⟨key, .inline value⟩ ∨ entry ∈ entries ∧ entry.key ≠ key := by
  obtain ⟨hsorted, hget⟩ := sorted_upsertLeafEntry hs key value
  have hiff := hs.mem_iff hsorted (k := key) (x := some ⟨key, .inline value⟩) (fun k => by convert hget k) entry
  rw [hiff]
  refine or_congr_left ⟨fun h => (Option.some.inj h.2).symm, ?_⟩
  rintro rfl
  exact ⟨rfl, rfl⟩

theorem LeafEntries.upsert (he : LeafEntries entries) (hkey : key.length ≤ u16Max)
    (hvalue : value.length ≤ u16Max) : LeafEntries (upsertLeafEntry entries key value) := by
  refine ⟨(sorted_upsertLeafEntry he.sorted key value).1, ?_⟩
  intro entry hentry
  rcases (mem_upsertLeafEntry he.sorted key value entry).mp hentry with rfl | ⟨hentry, -⟩
  · exact ⟨hkey, hvalue, rfl⟩
  · exact he.plain entry hentry

theorem tryInsertInline_eq {pageSize : ℕ}
    (hs : Keyed.Sorted LeafEntry.key entries) (hright : (Page.leaf high entries).followRight key = none)
    (hkey : key.length ≤ u16Max) (hvalue : value.length ≤ u16Max) :
    tryInsertInline pageSize (.leaf high entries) key value =
      .ok (if ∃ entry ∈ entries, entry.key = key then .duplicate
        else if pageBytes high ((upsertLeafEntry entries key value).map LeafEntry.shape) ≤ pageSize then
          .inserted (.leaf high (upsertLeafEntry entries key value)) else .full) := by
  by_cases hmem : ∃ entry ∈ entries, entry.key = key
  · rw [if_pos hmem]
    have hfits := search_fits hs key
    cases h : search LeafEntry.key entries key with
    | found i => simp only [tryInsertInline, hright, h]
    | missing i =>
      rw [h] at hfits
      obtain ⟨entry, hentry, hk⟩ := hmem
      exact absurd hk (Keyed.get?_eq_none_iff.mp (Keyed.get?_of_missing hfits) entry hentry)
  · rw [if_neg hmem]
    obtain ⟨i, hsearch, -⟩ := search_missing hs fun entry hentry hk => hmem ⟨entry, hentry, hk⟩
    simp only [tryInsertInline, hright, hsearch, if_neg (Nat.not_lt.mpr hkey), if_neg (Nat.not_lt.mpr hvalue),
      upsertLeafEntry, pageBytes_insertAt]
    split <;> rfl

theorem removeLeaf_cases (hs : Keyed.Sorted LeafEntry.key entries)
    (hright : (Page.leaf high entries).followRight key = none) :
    ((∀ entry ∈ entries, entry.key ≠ key) ∧ removeLeaf (.leaf high entries) key = .ok .missing) ∨
      ∃ fewer, fewer.Sublist entries ∧ (∀ entry, entry ∈ fewer ↔ entry ∈ entries ∧ entry.key ≠ key) ∧
        (∃ entry ∈ entries, entry.key = key) ∧ removeLeaf (.leaf high entries) key =
          .ok (.removed (.leaf high fewer)) := by
  have hfits := search_fits hs key
  cases h : search LeafEntry.key entries key with
  | found i =>
    rw [h] at hfits
    obtain ⟨old, hget, rfl⟩ := hfits
    refine .inr ⟨entries.eraseIdx i, List.eraseIdx_sublist entries i, ?_, ⟨old, List.mem_of_getElem? hget, rfl⟩, ?_⟩
    · intro entry
      rw [hs.mem_iff (Keyed.sorted_eraseIdx hs i) (Keyed.get?_eraseIdx hs hget) entry]
      simp
    · simp only [removeLeaf, hright, h]
  | missing i =>
    rw [h] at hfits
    refine .inl ⟨Keyed.get?_eq_none_iff.mp (Keyed.get?_of_missing hfits), ?_⟩
    simp only [removeLeaf, hright, h]

/-- The loop of `choose_split` over the costs: the first place where the two sides differ least. -/
def splitLoop (total : ℕ) : List ℕ → ℕ → ℕ → ℕ → ℕ → ℕ
  | [], _, _, best, _ => best
  | cost :: costs, candidate, left, best, distance =>
    let left := left + cost
    let here := max left (total - left) - min left (total - left)
    if here < distance then splitLoop total costs (candidate + 1) left candidate here
    else splitLoop total costs (candidate + 1) left best distance

def chooseSplit (costs : List ℕ) : Except PageError ℕ :=
  if costs.length < 2 then .error .fewEntries
  else .ok (splitLoop costs.sum costs.dropLast 1 0 1 (2 ^ 64 - 1))

def chooseLeafSplit (entries : List LeafEntry) : Except PageError ℕ :=
  chooseSplit (entries.map fun entry => slotSize + entry.key.length + (1 + entry.value.length))

def chooseInternalSplit (entries : List InternalEntry) : Except PageError ℕ :=
  chooseSplit (entries.map fun entry => slotSize + entry.key.length + 8)

theorem splitLoop_lt (total : ℕ) (costs : List ℕ) (candidate left best distance : ℕ)
    (hbest : 1 ≤ best ∧ best < candidate + costs.length) (hcandidate : 1 ≤ candidate) :
    1 ≤ splitLoop total costs candidate left best distance ∧
      splitLoop total costs candidate left best distance < candidate + costs.length := by
  induction costs generalizing candidate left best distance with
  | nil => simpa [splitLoop] using hbest
  | cons cost costs ih =>
    simp only [List.length_cons] at hbest ⊢
    rw [splitLoop]
    have hnext : candidate + (costs.length + 1) = candidate + 1 + costs.length := by omega
    rw [hnext]
    split
    · exact ih _ _ _ _ (by omega) (by omega)
    · exact ih _ _ _ _ (by omega) (by omega)

theorem chooseSplit_cases (costs : List ℕ) :
    (costs.length < 2 ∧ chooseSplit costs = .error .fewEntries) ∨
      ∃ split, chooseSplit costs = .ok split ∧ 1 ≤ split ∧ split < costs.length := by
  by_cases h : costs.length < 2
  · exact .inl ⟨h, by rw [chooseSplit, if_pos h]⟩
  · refine .inr ⟨_, by rw [chooseSplit, if_neg h], ?_⟩
    have hlength : costs.dropLast.length = costs.length - 1 := List.length_dropLast
    have hrange := splitLoop_lt costs.sum costs.dropLast 1 0 1 (2 ^ 64 - 1) ⟨le_rfl, by omega⟩ le_rfl
    exact ⟨hrange.1, by omega⟩

theorem chooseLeafSplit_cases (entries : List LeafEntry) :
    (entries.length < 2 ∧ chooseLeafSplit entries = .error .fewEntries) ∨
      ∃ split, chooseLeafSplit entries = .ok split ∧ 1 ≤ split ∧ split < entries.length := by
  simpa [chooseLeafSplit] using chooseSplit_cases
    (entries.map fun entry => slotSize + entry.key.length + (1 + entry.value.length))

theorem chooseInternalSplit_cases (entries : List InternalEntry) :
    (entries.length < 2 ∧ chooseInternalSplit entries = .error .fewEntries) ∨
      ∃ split, chooseInternalSplit entries = .ok split ∧ 1 ≤ split ∧ split < entries.length := by
  simpa [chooseInternalSplit] using chooseSplit_cases (entries.map fun entry => slotSize + entry.key.length + 8)

theorem chooseLeafSplit_one (h : chooseLeafSplit entries = .ok split) :
    1 ≤ split ∧ split < entries.length := by
  rcases chooseLeafSplit_cases entries with ⟨-, hnone⟩ | ⟨split', hsplit, hbounds⟩
  · cases hnone.symm.trans h
  · cases hsplit.symm.trans h
    exact hbounds

theorem chooseInternalSplit_one {entries : List InternalEntry} (h : chooseInternalSplit entries = .ok split) :
    1 ≤ split ∧ split < entries.length := by
  rcases chooseInternalSplit_cases entries with ⟨-, hnone⟩ | ⟨split', hsplit, hbounds⟩
  · cases hnone.symm.trans h
  · cases hsplit.symm.trans h
    exact hbounds

end OmenDb.Vnext
