import OmenDb.Lib.Fallible
import OmenDb.Lib.Fields
import OmenDb.Lib.Keyed
import OmenDb.Lib.Search

/-! Packed ranges: a sorted list of entries in pages of fixed size. A page's header has the first and
the last key beside the entries themselves, and a lookup chooses its page by the headers. The pages
of a file are validated when it is read: the entries of a page against each other and against the
last key, and the headers of neighbours against each other. The checksum is an arbitrary function. -/
namespace OmenDb.Packed

open Keyed

abbrev Bytes := List (Fin 256)

def packedPageBytes : ℕ := 4096
def headerBytes : ℕ := 64
def payloadBytes : ℕ := packedPageBytes - headerBytes
def entryHeaderBytes : ℕ := 21
/-- The text `DBRP`. -/
def magic : Bytes := [0x44, 0x42, 0x52, 0x50]
def version : Word 2 := 1

inductive DbError
  | invalidState (reason : String)
  | valueTooLarge (length : ℕ)
  | corruption (artifact reason : String)
  deriving DecidableEq

def corruptionError (reason : String) : DbError := .corruption "packed range page" reason

abbrev Key := { bytes : Bytes // bytes.length = 16 }

abbrev Entry := Key × Bytes

def lookup (entries : List Entry) (key : Key) : Option Bytes := (get? Prod.fst entries key).map Prod.snd

/-- The key at an offset. No caller goes past the end of its page. -/
def keyAt (bytes : Bytes) (offset : ℕ) : Key :=
  ⟨(slice bytes offset (offset + 16)).takeD 16 0, List.takeD_length _ _ _⟩

def payloadLen (bytes : Bytes) : ℕ := (Word.ofLe (slice bytes 22 24) : Word 2).val

/-- A page. Its payload ends inside it, so that every read below does. -/
structure PackedPage where
  bytes : Bytes
  width : bytes.length = packedPageBytes
  fits : payloadLen bytes ≤ payloadBytes
  deriving DecidableEq

namespace PackedPage

def entryCount (page : PackedPage) : ℕ := (Word.ofLe (slice page.bytes 20 22) : Word 2).val

def firstKey (page : PackedPage) : Key := keyAt page.bytes 24

def lastKey (page : PackedPage) : Key := keyAt page.bytes 40

end PackedPage

def valueLen (bytes : Bytes) (cursor : ℕ) : ℕ := (Word.ofLe (slice bytes (cursor + 16) (cursor + 20)) : Word 4).val

/-- The loop of `validate_entries`, with the entries still to come. -/
def validateFrom (bytes : Bytes) (payloadEnd : ℕ) : ℕ → ℕ → Option Key → Except DbError (ℕ × Option Key)
  | 0, cursor, previous => .ok (cursor, previous)
  | count + 1, cursor, previous =>
    let headerEnd := cursor + entryHeaderBytes
    if payloadEnd < headerEnd then .error (corruptionError "packed entry header exceeds payload")
    else
      let key := keyAt bytes cursor
      if ∃ candidate ∈ previous, key ≤ candidate then .error (corruptionError "packed keys are not strictly ordered")
      else
        let endOffset := headerEnd + valueLen bytes cursor
        if slice bytes (cursor + 20) (cursor + 21) ≠ [1] ∨ payloadEnd < endOffset then
          .error (corruptionError "packed value exceeds payload")
        else validateFrom bytes payloadEnd count endOffset (some key)

/-- The loop of `entries`. -/
def readFrom (bytes : Bytes) : ℕ → ℕ → List Entry
  | 0, _ => []
  | count + 1, cursor =>
    let endOffset := cursor + entryHeaderBytes + valueLen bytes cursor
    (keyAt bytes cursor, slice bytes (cursor + entryHeaderBytes) endOffset) :: readFrom bytes count endOffset

namespace PackedPage

def validateEntries (page : PackedPage) (payloadLen : ℕ) : Except DbError Unit := do
  let payloadEnd := headerBytes + payloadLen
  let (cursor, previous) ← validateFrom page.bytes payloadEnd page.entryCount headerBytes none
  if cursor ≠ payloadEnd ∨ 0 < page.entryCount ∧ (page.lastKey < page.firstKey ∨ previous ≠ some page.lastKey) then
    .error (corruptionError "packed page range metadata mismatch")
  else .ok ()

def entries (page : PackedPage) : Except DbError (List Entry) := do
  page.validateEntries (payloadLen page.bytes)
  return readFrom page.bytes page.entryCount headerBytes

end PackedPage

abbrev Payload := { bytes : Bytes // bytes.length ≤ payloadBytes }

def encodeEntry (entry : Entry) : Bytes :=
  entry.1.1 ++ ((Word.ofNat entry.2.length : Word 4).toLe ++ ([1] ++ entry.2))

theorem length_encodeEntry (entry : Entry) : (encodeEntry entry).length = entryHeaderBytes + entry.2.length := by
  simp only [encodeEntry, List.length_append, entry.1.2, Word.length_toLe, List.length_singleton, entryHeaderBytes]
  omega

/-- One turn of the loop of `from_entries`. The length fits its field when the entry fits the page. -/
def appendEntry (payload : Payload) (entry : Entry) : Except DbError Payload :=
  if h : payload.1.length + (entryHeaderBytes + entry.2.length) ≤ payloadBytes then
    .ok ⟨payload.1 ++ encodeEntry entry, by rwa [List.length_append, length_encodeEntry]⟩
  else .error (.valueTooLarge entry.2.length)

def header (generation : Word 8) (ordinal : Word 4) (count length : Word 2) (first last : Key) : Bytes :=
  magic ++ (version.toLe ++ ([0, 0] ++ (generation.toLe ++ (ordinal.toLe ++ (count.toLe ++ (length.toLe ++
    (first.1 ++ last.1)))))))

/-- What follows the checksum: the end of the header, the payload, and zeros up to the page's end. -/
def body (payload : Payload) : Bytes :=
  [0, 0, 0, 0] ++ (payload.1 ++ List.replicate (payloadBytes - payload.1.length) 0)

section Checksum

variable (crc : Bytes → Word 4)

def pageChecksum (bytes : Bytes) : Word 4 := crc (bytes.take 56 ++ bytes.drop 60)

def storedChecksum (bytes : Bytes) : Word 4 := .ofLe (slice bytes 56 60)

def pageBytes (generation : Word 8) (ordinal : Word 4) (count : Word 2) (first last : Key)
    (payload : Payload) : Bytes :=
  let head := header generation ordinal count (.ofNat payload.1.length) first last
  head ++ ((crc (head ++ body payload)).toLe ++ body payload)

variable {crc} {generation : Word 8} {ordinal : Word 4} {count : Word 2} {first last : Key} {payload : Payload}

theorem length_header {length : Word 2} : (header generation ordinal count length first last).length = 56 := by
  simp [header, magic, first.2, last.2]

theorem length_body : (body payload).length = 4036 := by
  have h := payload.2
  simp only [payloadBytes, packedPageBytes, headerBytes] at h
  simp only [body, List.length_append, List.length_replicate, List.length_cons, List.length_nil, payloadBytes,
    packedPageBytes, headerBytes]
  omega

theorem length_pageBytes : (pageBytes crc generation ordinal count first last payload).length = packedPageBytes := by
  simp [pageBytes, length_header, length_body, packedPageBytes]

theorem slice_header {length : Word 2} :
    let bytes := header generation ordinal count length first last
    slice bytes 0 4 = magic ∧ slice bytes 4 6 = version.toLe ∧ slice bytes 8 16 = generation.toLe ∧
      slice bytes 16 20 = ordinal.toLe ∧ slice bytes 20 22 = count.toLe ∧ slice bytes 22 24 = length.toLe ∧
      slice bytes 24 40 = first.1 ∧ slice bytes 40 56 = last.1 := by
  have hmagic : magic.length = 4 := rfl
  have hpad : ([0, 0] : Bytes).length = 2 := rfl
  have hfirst := first.2
  have hlast := last.2
  simp only [header]
  refine ⟨slice_front _ _ hmagic, ?_, ?_, ?_, ?_, ?_, ?_, ?_⟩ <;>
    simp (disch := simp [hmagic, hfirst, hlast]) only [slice_append_of_ge, hmagic, hpad, hfirst, Word.length_toLe,
      Nat.reduceSub, slice_front, slice_all]

theorem slice_pageBytes {a b : ℕ} (hb : b ≤ 56) :
    slice (pageBytes crc generation ordinal count first last payload) a b =
      slice (header generation ordinal count (.ofNat payload.1.length) first last) a b :=
  slice_append_of_le _ _ (length_header.symm ▸ hb)

theorem payloadLen_pageBytes : payloadLen (pageBytes crc generation ordinal count first last payload) =
    payload.1.length := by
  have h : payload.1.length < 256 ^ 2 := lt_of_le_of_lt payload.2 (by decide)
  have hlength := (@slice_header generation ordinal count first last (.ofNat payload.1.length)).2.2.2.2.2.1
  rw [payloadLen, slice_pageBytes (by decide), hlength, Word.ofLe_toLe, Word.val_ofNat_of_lt h]

theorem drop_pageBytes :
    (pageBytes crc generation ordinal count first last payload).drop headerBytes =
      payload.1 ++ List.replicate (payloadBytes - payload.1.length) 0 := by
  have hsplit : headerBytes = 56 + (4 + 4) := rfl
  rw [hsplit, ← List.drop_drop, ← List.drop_drop, pageBytes, List.drop_left' length_header,
    List.drop_left' (Word.length_toLe _)]
  rfl

theorem pageChecksum_pageBytes :
    pageChecksum crc (pageBytes crc generation ordinal count first last payload) =
      storedChecksum (pageBytes crc generation ordinal count first last payload) := by
  have hsplit : (60 : ℕ) = 56 + 4 := rfl
  rw [pageChecksum, storedChecksum, pageBytes, List.take_left' length_header, hsplit, ← List.drop_drop,
    List.drop_left' length_header, List.drop_left' (Word.length_toLe _), slice_skip _ _ length_header le_rfl,
    slice_front _ _ (Word.length_toLe _), Word.ofLe_toLe]

variable (crc)

def PackedPage.build (generation : Word 8) (ordinal : Word 4) (count : Word 2) (first last : Key) (payload : Payload) :
    PackedPage :=
  ⟨pageBytes crc generation ordinal count first last payload, length_pageBytes, payloadLen_pageBytes.trans_le payload.2⟩

def PackedPage.fromEntries (generation : Word 8) (ordinal : Word 4) (entries : List Entry) :
    Except DbError PackedPage :=
  if h : entries = [] then .error (.invalidState "packed page cannot be empty")
  else if 2 ^ 16 - 1 < entries.length then .error (.invalidState "packed page has too many entries")
  else do
    let payload ← entries.foldlM appendEntry ⟨[], Nat.zero_le _⟩
    return .build crc generation ordinal (.ofNat entries.length) (entries.head h).1 (entries.getLast h).1 payload

def PackedPage.decode (bytes : Bytes) (expectedGeneration : Word 8) (expectedOrdinal : Word 4) :
    Except DbError PackedPage :=
  if hwidth : bytes.length = packedPageBytes then
    if slice bytes 0 4 ≠ magic ∨ .ofLe (slice bytes 4 6) ≠ version ∨ .ofLe (slice bytes 8 16) ≠ expectedGeneration ∨
        .ofLe (slice bytes 16 20) ≠ expectedOrdinal then
      .error (corruptionError "packed page identity mismatch")
    else if hfits : payloadLen bytes ≤ payloadBytes ∧ pageChecksum crc bytes = storedChecksum bytes then do
      let page : PackedPage := ⟨bytes, hwidth, hfits.1⟩
      page.validateEntries (payloadLen bytes)
      return page
    else .error (corruptionError "packed page checksum or payload mismatch")
  else .error (corruptionError "packed page has the wrong size")

structure PackReport where
  pages : ℕ
  entries : ℕ
  bytes : ℕ
  deriving DecidableEq

structure PackedRange where
  generation : Word 8
  pages : List PackedPage
  report : PackReport
  checksum : Word 4
  deriving DecidableEq

/-- What `write` leaves in the file when it succeeds. -/
def PackedRange.written (range : PackedRange) : Bytes := range.pages.flatMap PackedPage.bytes

/-- The loop of `read`, over the pages still to come. -/
def readPages (generation : Word 8) : ℕ → ℕ → Option Key → Bytes → Except DbError (List PackedPage)
  | 0, _, _, _ => .ok []
  | count + 1, ordinal, previousLast, bytes =>
    match (Word.ofLength? ordinal : Option (Word 4)) with
    | none => .error (.invalidState "too many packed pages")
    | some expected => do
      let page ← PackedPage.decode crc (bytes.take packedPageBytes) generation expected
      if ∃ last ∈ previousLast, page.firstKey ≤ last then .error (corruptionError "packed page ranges are not ordered")
      else
        let rest ← readPages generation count (ordinal + 1) (some page.lastKey) (bytes.drop packedPageBytes)
        return page :: rest

def PackedRange.read (bytes : Bytes) (generation : Word 8) : Except DbError PackedRange :=
  if bytes.length % packedPageBytes ≠ 0 then .error (corruptionError "packed range is not page aligned")
  else do
    let pages ← readPages crc generation (bytes.length / packedPageBytes) 0 none bytes
    return ⟨generation, pages, ⟨pages.length, (pages.map PackedPage.entryCount).sum, bytes.length⟩, crc bytes⟩

def PackedRange.entries (range : PackedRange) : Except DbError (List Entry) :=
  List.flatten <$> range.pages.mapM PackedPage.entries

def PackedPage.order (page : PackedPage) (key : Key) : Ordering :=
  if key < page.firstKey then .gt else if page.lastKey < key then .lt else .eq

def PackedRange.get (search : BinarySearch) (range : PackedRange) (key : Key) : Except DbError (Option Bytes) :=
  match (search.find (range.pages.map (·.order key))).bind (range.pages[·]?) with
  | none => .ok none
  | some page => do
    let entries ← page.entries
    return lookup entries key

structure PackBudget where
  maxPages : Word 8
  maxEntries : Word 8
  maxBytes : Word 8

/-- The variables of the loop of `pack_sorted`; `previous` is the key before. -/
structure Packing where
  pages : List PackedPage
  current : List Entry
  usedBytes : ℕ
  position : ℕ
  previous : Option Key

def entryBytes (entry : Entry) : ℕ := entryHeaderBytes + entry.2.length

def Packing.pushPage (generation : Word 8) (s : Packing) : Except DbError (List PackedPage) :=
  match (Word.ofLength? s.pages.length : Option (Word 4)) with
  | none => .error (.invalidState "too many packed pages")
  | some ordinal => do
    let page ← PackedPage.fromEntries crc generation ordinal s.current
    return s.pages ++ [page]

/-- One turn of the loop. A sum past the range of `usize` is past every bound it is compared with. -/
def Packing.add (generation : Word 8) (budget : PackBudget) (s : Packing) (entry : Entry) : Except DbError Packing :=
  if ∃ previous ∈ s.previous, entry.1 ≤ previous then .error (.invalidState "packed input is not strictly ordered")
  else if payloadBytes < entryBytes entry then .error (.valueTooLarge entry.2.length)
  else if budget.maxEntries.val ≤ s.position then .error (.invalidState "packed entry budget exceeded")
  else if budget.maxBytes.val < s.usedBytes + entryBytes entry then .error (.invalidState "packed byte budget exceeded")
  else
    let next (pages : List PackedPage) (current : List Entry) : Packing :=
      ⟨pages, current ++ [entry], s.usedBytes + entryBytes entry, s.position + 1, some entry.1⟩
    if s.current ≠ [] ∧ payloadBytes < (s.current.map entryBytes).sum + entryBytes entry then do
      let pages ← s.pushPage crc generation
      if budget.maxPages.val ≤ pages.length then .error (.invalidState "packed page budget exceeded")
      else return next pages []
    else .ok (next s.pages s.current)

def Packing.finish (generation : Word 8) (s : Packing) : Except DbError (List PackedPage) :=
  if s.current = [] then .ok s.pages else s.pushPage crc generation

def packSorted (generation : Word 8) (entries : List Entry) (budget : PackBudget) : Except DbError PackedRange :=
  if budget.maxPages = 0 ∨ budget.maxEntries = 0 ∨ budget.maxBytes.val < packedPageBytes then
    .error (.invalidState "invalid packed-range budget")
  else do
    let s ← entries.foldlM (Packing.add crc generation budget) ⟨[], [], 0, 0, none⟩
    let pages ← s.finish crc generation
    return ⟨generation, pages, ⟨pages.length, entries.length, pages.length * packedPageBytes⟩,
      crc (pages.flatMap PackedPage.bytes)⟩

end Checksum

section Entries

variable {bytes : Bytes} {payloadEnd : ℕ}

theorem validateFrom_ok {n cursor c : ℕ} {previous p : Option Key}
    (h : validateFrom bytes payloadEnd n cursor previous = .ok (c, p)) :
    (previous.toList ++ (readFrom bytes n cursor).map Prod.fst).Pairwise (· < ·) ∧
      (previous.toList ++ (readFrom bytes n cursor).map Prod.fst).getLast? = p := by
  induction n generalizing cursor previous with
  | zero =>
    obtain ⟨rfl, rfl⟩ : cursor = c ∧ previous = p := by simpa [validateFrom] using h
    cases previous <;> simp [readFrom]
  | succ n ih =>
    rw [validateFrom] at h
    split at h
    · cases h
    · simp only at h
      split at h
      · cases h
      · next hordered =>
        split at h
        · cases h
        · obtain ⟨hpairwise, hlast⟩ := ih h
          simp only [Option.toList_some, List.singleton_append] at hpairwise hlast
          simp only [readFrom, List.map_cons]
          cases previous with
          | none => exact ⟨hpairwise, hlast⟩
          | some key =>
            have hlt : key < keyAt bytes cursor := by simpa using hordered
            refine ⟨?_, by simpa using hlast⟩
            refine List.pairwise_cons.mpr ⟨?_, hpairwise⟩
            intro k hk
            rcases List.mem_cons.mp hk with rfl | hk
            · exact hlt
            · exact hlt.trans (List.rel_of_pairwise_cons hpairwise hk)

theorem keyAt_of_slice {offset : ℕ} {key : Key} (h : slice bytes offset (offset + 16) = key.1) :
    keyAt bytes offset = key := by
  apply Subtype.ext
  change (slice bytes offset (offset + 16)).takeD 16 0 = key.1
  rw [h, List.takeD_eq_take _ key.2.ge, List.take_of_length_le key.2.le]

theorem slice_drop {α : Type} (xs : List α) (c a b : ℕ) : slice xs (c + a) (c + b) = slice (xs.drop c) a b := by
  rw [slice, slice, List.drop_drop, Nat.add_sub_add_left]

theorem encoded_at {cursor : ℕ} {entry : Entry} {tail : Bytes} (hlength : entry.2.length < 256 ^ 4)
    (h : bytes.drop cursor = encodeEntry entry ++ tail) :
    keyAt bytes cursor = entry.1 ∧ valueLen bytes cursor = entry.2.length ∧
      slice bytes (cursor + 20) (cursor + 21) = [1] ∧
      slice bytes (cursor + entryHeaderBytes) (cursor + entryHeaderBytes + entry.2.length) = entry.2 ∧
      bytes.drop (cursor + entryHeaderBytes + entry.2.length) = tail := by
  have hkey := entry.1.2
  have hwhole : encodeEntry entry ++ tail =
      entry.1.1 ++ ((Word.ofNat entry.2.length : Word 4).toLe ++ ([1] ++ (entry.2 ++ tail))) := by
    simp [encodeEntry]
  refine ⟨keyAt_of_slice ?_, ?_, ?_, ?_, ?_⟩
  · rw [← Nat.add_zero cursor, Nat.add_assoc, slice_drop, h, hwhole, Nat.zero_add, slice_front _ _ hkey]
  · rw [valueLen, slice_drop, h, hwhole, slice_skip _ _ hkey le_rfl, slice_front _ _ (Word.length_toLe _),
      Word.ofLe_toLe, Word.val_ofNat_of_lt hlength]
  · rw [slice_drop, h, hwhole, slice_skip _ _ hkey (by decide), slice_skip _ _ (Word.length_toLe _) le_rfl]
    rfl
  · rw [Nat.add_assoc, slice_drop, h, hwhole, slice_skip _ _ hkey (by decide),
      slice_skip _ _ (Word.length_toLe _) (by decide), slice_skip _ _ (List.length_singleton) (by decide)]
    apply slice_front
    simp only [entryHeaderBytes]
    omega
  · rw [Nat.add_assoc, ← List.drop_drop, h, List.drop_left' (length_encodeEntry entry)]

theorem validateFrom_encoded {entries : List Entry} {cursor : ℕ} {previous : Option Key} {tail : Bytes}
    (hbytes : bytes.drop cursor = entries.flatMap encodeEntry ++ tail)
    (hend : cursor + (entries.map entryBytes).sum ≤ payloadEnd) (hsmall : payloadEnd ≤ packedPageBytes)
    (hkeys : (previous.toList ++ entries.map Prod.fst).Pairwise (· < ·)) :
    validateFrom bytes payloadEnd entries.length cursor previous =
        .ok (cursor + (entries.map entryBytes).sum, (previous.toList ++ entries.map Prod.fst).getLast?) ∧
      readFrom bytes entries.length cursor = entries := by
  induction entries generalizing cursor previous with
  | nil => cases previous <;> simp [validateFrom, readFrom]
  | cons entry entries ih =>
    simp only [List.map_cons, List.sum_cons, entryBytes] at hend
    have hsize : entry.2.length < 256 ^ 4 := by
      simp only [packedPageBytes] at hsmall
      omega
    rw [List.flatMap_cons, List.append_assoc] at hbytes
    obtain ⟨hkey, hlength, htag, hvalue, hrest⟩ := encoded_at hsize hbytes
    rw [List.map_cons, List.pairwise_append] at hkeys
    have hnext := @ih (cursor + entryHeaderBytes + entry.2.length) (some entry.1) hrest
      (by omega) (by simpa using hkeys.2.1)
    have hordered : ¬∃ candidate ∈ previous, entry.1 ≤ candidate := by
      rintro ⟨candidate, hmem, hle⟩
      exact absurd (hkeys.2.2 candidate (by simpa using hmem) entry.1 (by simp)) hle.not_gt
    constructor
    · rw [List.length_cons, validateFrom, if_neg (by simp only [entryHeaderBytes] at hend ⊢; omega)]
      simp only [hkey, hlength, htag]
      rw [if_neg hordered, if_neg (by simp; omega), hnext.1]
      simp only [List.map_cons, List.sum_cons, entryBytes, ← Nat.add_assoc]
      cases previous <;> simp
    · rw [List.length_cons, readFrom]
      simp only [hkey, hlength, hvalue, hnext.2]

end Entries

namespace PackedPage

def stored (page : PackedPage) : List Entry := readFrom page.bytes page.entryCount headerBytes

def Valid (page : PackedPage) : Prop := page.validateEntries (payloadLen page.bytes) = .ok ()

variable {page : PackedPage} {entries : List Entry}

theorem Valid.entries_eq (h : page.Valid) : page.entries = .ok page.stored := by
  rw [entries, h]
  rfl

theorem Valid.stored_spec (h : page.Valid) :
    Sorted Prod.fst page.stored ∧ ∀ entry ∈ page.stored, entry.1 ≤ page.lastKey := by
  obtain ⟨⟨c, p⟩, hfrom, hchecks⟩ := bind_eq_ok.mp h
  obtain ⟨hpairwise, hlast⟩ := validateFrom_ok hfrom
  simp only [Option.toList_none, List.nil_append] at hpairwise hlast
  refine ⟨List.pairwise_map.mp hpairwise, fun entry hentry => ?_⟩
  have hcount : 0 < page.entryCount := by
    by_contra hzero
    rw [stored, Nat.eq_zero_of_not_pos hzero] at hentry
    cases hentry
  dsimp only at hchecks
  split at hchecks
  · cases hchecks
  · next hmeta =>
    have hp : p = some page.lastKey := by
      by_contra hp
      exact hmeta (.inr ⟨hcount, .inr hp⟩)
    rw [hp] at hlast
    obtain ⟨hne, hlast⟩ := List.getLast?_eq_some_iff.mp hlast
    have hmem : entry.1 ∈ hne ++ [page.lastKey] := hlast ▸ List.mem_map_of_mem hentry
    rw [hlast] at hpairwise
    rcases List.mem_append.mp hmem with hfront | hend
    · exact ((List.pairwise_append.mp hpairwise).2.2 _ hfront _ (List.mem_singleton_self _)).le
    · exact (List.mem_singleton.mp hend).le

variable {crc : Bytes → Word 4} {generation : Word 8} {ordinal : Word 4} {count : Word 2} {first last : Key}
    {payload : Payload}

theorem decode_ok {bytes : Bytes} (h : decode crc bytes generation ordinal = .ok page) : page.Valid := by
  rw [decode] at h
  split at h
  · split at h
    · cases h
    · split at h
      · obtain ⟨_, hvalid, hpage⟩ := bind_eq_ok.mp h
        cases hpage
        exact hvalid
      · cases h
  · cases h

theorem build_fields :
    (build crc generation ordinal count first last payload).entryCount = count.val ∧
      (build crc generation ordinal count first last payload).firstKey = first ∧
      (build crc generation ordinal count first last payload).lastKey = last := by
  obtain ⟨-, -, -, -, hcount, -, hfirst, hlast⟩ :=
    @slice_header generation ordinal count first last (.ofNat payload.1.length)
  refine ⟨?_, keyAt_of_slice ?_, keyAt_of_slice ?_⟩
  · rw [entryCount, build, slice_pageBytes (by decide), hcount, Word.ofLe_toLe]
  · rw [build, slice_pageBytes (by decide), hfirst]
  · rw [build, slice_pageBytes le_rfl, hlast]

theorem decode_build (h : (build crc generation ordinal count first last payload).Valid) :
    decode crc (build crc generation ordinal count first last payload).bytes generation ordinal =
      .ok (build crc generation ordinal count first last payload) := by
  obtain ⟨hmagic, hversion, hgeneration, hordinal, -⟩ :=
    @slice_header generation ordinal count first last (.ofNat payload.1.length)
  have hidentity : ∀ {a b : ℕ}, b ≤ 56 → slice (build crc generation ordinal count first last payload).bytes a b =
      slice (header generation ordinal count (.ofNat payload.1.length) first last) a b := fun hb => slice_pageBytes hb
  rw [decode, dif_pos (build crc generation ordinal count first last payload).width, if_neg, dif_pos]
  · exact bind_eq_ok.mpr ⟨(), h, rfl⟩
  · exact ⟨(build crc generation ordinal count first last payload).fits, pageChecksum_pageBytes⟩
  · rw [hidentity (by decide), hidentity (by decide), hidentity (by decide), hidentity (by decide), hmagic, hversion,
      hgeneration, hordinal, Word.ofLe_toLe, Word.ofLe_toLe, Word.ofLe_toLe]
    simp

theorem foldlM_appendEntry {start payload : Payload} (h : entries.foldlM appendEntry start = .ok payload) :
    payload.1 = start.1 ++ entries.flatMap encodeEntry := by
  induction entries generalizing start with
  | nil =>
    cases h
    simp
  | cons entry entries ih =>
    obtain ⟨next, hnext, hrest⟩ := bind_eq_ok.mp h
    rw [appendEntry] at hnext
    split at hnext
    · cases hnext
      rw [ih hrest]
      simp
    · cases hnext

theorem length_flatMap_encodeEntry (entries : List Entry) :
    (entries.flatMap encodeEntry).length = (entries.map entryBytes).sum := by
  simp only [List.length_flatMap, length_encodeEntry]
  rfl

theorem build_valid (hpayload : payload.1 = entries.flatMap encodeEntry) (hsorted : Sorted Prod.fst entries)
    (hcount : count.val = entries.length)
    (hends : entries ≠ [] → first ≤ last ∧ entries.getLast?.map Prod.fst = some last) :
    (build crc generation ordinal count first last payload).Valid ∧
      (build crc generation ordinal count first last payload).stored = entries := by
  obtain ⟨hentries, hfirst, hlast⟩ := @build_fields crc generation ordinal count first last payload
  have hsum : payload.1.length = (entries.map entryBytes).sum := hpayload ▸ length_flatMap_encodeEntry entries
  have hkeys : ((none : Option Key).toList ++ entries.map Prod.fst).Pairwise (· < ·) := by
    simpa using List.pairwise_map.mpr hsorted
  have hfits := payload.2
  have hsize : headerBytes + payload.1.length ≤ packedPageBytes := by
    simp only [payloadBytes, headerBytes, packedPageBytes] at hfits ⊢
    omega
  have hbytes := @drop_pageBytes crc generation ordinal count first last payload
  rw [hpayload] at hbytes
  obtain ⟨hvalid, hread⟩ := validateFrom_encoded hbytes (hsum ▸ le_rfl) hsize hkeys
  refine ⟨?_, ?_⟩
  · rw [Valid, validateEntries, hentries, hfirst, hlast, hcount]
    simp only [build, payloadLen_pageBytes]
    rw [hvalid, ok_bind]
    refine if_neg ?_
    rintro (hne | ⟨hpos, hwrong⟩)
    · exact hne (hsum ▸ rfl)
    · obtain ⟨hle, hend⟩ := hends (List.length_pos_iff.mp hpos)
      rcases hwrong with hlt | hne
      · exact absurd hlt hle.not_gt
      · simp only [Option.toList_none, List.nil_append, List.getLast?_map] at hne
        exact hne hend
  · rw [stored, hentries, hcount]
    exact hread

theorem fromEntries_spec (h : fromEntries crc generation ordinal entries = .ok page)
    (hsorted : Sorted Prod.fst entries) :
    decode crc page.bytes generation ordinal = .ok page ∧ page.Valid ∧ page.stored = entries ∧
      page.entryCount = entries.length ∧ entries.head?.map Prod.fst = some page.firstKey ∧
      entries.getLast?.map Prod.fst = some page.lastKey := by
  rw [fromEntries] at h
  split at h
  · cases h
  · next hne =>
    split at h
    · cases h
    · next hshort =>
      obtain ⟨payload, hpayload, hpage⟩ := bind_eq_ok.mp h
      cases hpage
      have hcount : (Word.ofNat entries.length : Word 2).val = entries.length := Word.val_ofNat_of_lt (by omega)
      have hends : entries ≠ [] → (entries.head hne).1 ≤ (entries.getLast hne).1 ∧
          entries.getLast?.map Prod.fst = some (entries.getLast hne).1 := by
        intro _
        refine ⟨?_, by rw [List.getLast?_eq_some_getLast hne]; rfl⟩
        obtain ⟨entry, rest, rfl⟩ := List.exists_cons_of_ne_nil hne
        rcases List.mem_cons.mp (List.getLast_mem hne) with heq | hmem
        · rw [heq]
          rfl
        · exact (List.rel_of_pairwise_cons hsorted hmem).le
      obtain ⟨hvalid, hstored⟩ := build_valid (by simpa using foldlM_appendEntry hpayload) hsorted hcount hends
      obtain ⟨hentries, hfirst, hlast⟩ :=
        @build_fields crc generation ordinal (.ofNat entries.length) (entries.head hne).1
        (entries.getLast hne).1 payload
      refine ⟨decode_build hvalid, hvalid, hstored, hentries.trans hcount, ?_, ?_⟩
      · rw [hfirst, List.head?_eq_some_head hne]
        rfl
      · rw [hlast, List.getLast?_eq_some_getLast hne]
        rfl

end PackedPage

section Lookup

variable {entries : List Entry} {key : Key} {page : PackedPage}

theorem lookup_eq_none_iff : lookup entries key = none ↔ ∀ entry ∈ entries, entry.1 ≠ key := by
  rw [lookup, Option.map_eq_none_iff, get?_eq_none_iff]

theorem mem_of_lookup {value : Bytes} (h : lookup entries key = some value) :
    (key, value) ∈ entries := by
  obtain ⟨entry, hentry, rfl⟩ := Option.map_eq_some_iff.mp h
  have hkey : entry.1 = key := by simpa using List.find?_some hentry
  exact hkey ▸ List.mem_of_find?_eq_some hentry

theorem lookup_of_mem (hsorted : Sorted Prod.fst entries) {entry : Entry} (h : entry ∈ entries) :
    lookup entries entry.1 = some entry.2 := by
  rw [lookup, hsorted.get?_eq_some.mpr ⟨h, rfl⟩]
  rfl

theorem PackedPage.order_eq_lt : page.order key = .lt ↔ page.firstKey ≤ key ∧ page.lastKey < key := by
  unfold order
  split_ifs with hfirst hlast <;> simp_all

theorem PackedPage.order_eq_gt : page.order key = .gt ↔ key < page.firstKey := by
  unfold order
  split_ifs <;> simp_all

theorem PackedPage.order_eq_eq : page.order key = .eq ↔ page.firstKey ≤ key ∧ key ≤ page.lastKey := by
  unfold order
  split_ifs with hfirst hlast <;> simp_all

/-- Every stored key is in the range of its own page's header, above the ranges of the pages before and
below those of the pages after. -/
def Bracketed (pages : List PackedPage) : Prop :=
  ∀ (i j : ℕ) (other page : PackedPage), pages[i]? = some other → pages[j]? = some page → ∀ entry ∈ page.stored,
    (i < j → other.firstKey ≤ entry.1 ∧ other.lastKey < entry.1) ∧ (i = j → page.firstKey ≤ entry.1) ∧
      (j < i → entry.1 < other.firstKey)

namespace PackedRange

variable {range : PackedRange} {search : BinarySearch} {key : Key}

theorem entries_of_valid (h : ∀ page ∈ range.pages, page.Valid) :
    range.entries = .ok (range.pages.flatMap PackedPage.stored) := by
  refine map_eq_ok.mpr ⟨range.pages.map PackedPage.stored, mapM_eq_ok.mpr ?_, List.flatMap_def.symm⟩
  exact List.forall₂_map_right_iff.mpr (List.forall₂_same.mpr fun page hpage => (h page hpage).entries_eq)

theorem get_of_valid (h : ∀ page ∈ range.pages, page.Valid) :
    range.get search key = .ok (((search.find (range.pages.map (·.order key))).bind (range.pages[·]?)).bind
      fun page => lookup page.stored key) := by
  rw [get]
  cases hpage : (search.find (range.pages.map (·.order key))).bind (range.pages[·]?) with
  | none => rfl
  | some page =>
    obtain ⟨i, -, hi⟩ := Option.bind_eq_some_iff.mp hpage
    change (page.entries >>= fun entries => pure (lookup entries key)) = _
    rw [(h page (List.mem_of_getElem? hi)).entries_eq]
    rfl

theorem find_page_iff (h : ∀ page ∈ range.pages, page.Valid) {j : ℕ} {page : PackedPage}
    (hj : range.pages[j]? = some page) {entry : Entry} (hentry : entry ∈ page.stored) :
    (∀ search : BinarySearch, search.find (range.pages.map (·.order entry.1)) = some j) ↔
      ∀ i other, range.pages[i]? = some other → (i < j → other.firstKey ≤ entry.1 ∧ other.lastKey < entry.1) ∧
        (i = j → page.firstKey ≤ entry.1) ∧ (j < i → entry.1 < other.firstKey) := by
  have hlength : j < (range.pages.map (·.order entry.1)).length := by
    rw [List.length_map]
    exact (List.getElem?_eq_some_iff.mp hj).1
  have hlast := ((h page (List.mem_of_getElem? hj)).stored_spec).2 entry hentry
  simp only [BinarySearch.forall_find_iff, hlength, true_and, List.getElem?_map, Option.map_eq_some_iff,
    forall_exists_index, and_imp, forall_apply_eq_imp_iff₂]
  refine forall_congr' fun i => forall_congr' fun other => forall_congr' fun hi => ?_
  rcases Nat.lt_trichotomy i j with hlt | rfl | hlt
  · rw [compare_lt_iff_lt.mpr hlt, PackedPage.order_eq_lt]
    simp [hlt, hlt.ne, hlt.le]
  · obtain rfl : other = page := by simpa [hi] using hj
    rw [compare_eq_iff_eq.mpr rfl, PackedPage.order_eq_eq]
    simp [hlast]
  · rw [compare_gt_iff_gt.mpr hlt, PackedPage.order_eq_gt]
    simp [hlt, hlt.ne', hlt.le]

def Agrees (range : PackedRange) : Prop :=
  ∃ entries, range.entries = .ok entries ∧ Sorted Prod.fst entries ∧
    ∀ search key, range.get search key = .ok (lookup entries key)

theorem page_unique (hsorted : Sorted Prod.fst (range.pages.flatMap PackedPage.stored)) {i j : ℕ}
    {other page : PackedPage}
    (hi : range.pages[i]? = some other) (hj : range.pages[j]? = some page) {entry : Entry}
    (hother : entry ∈ other.stored) (hpage : entry ∈ page.stored) : i = j := by
  obtain ⟨hi', rfl⟩ := List.getElem?_eq_some_iff.mp hi
  obtain ⟨hj', rfl⟩ := List.getElem?_eq_some_iff.mp hj
  have hpairs := List.pairwise_iff_getElem.mp (List.pairwise_flatMap.mp hsorted).2
  rcases Nat.lt_trichotomy i j with hlt | heq | hlt
  · exact absurd (hpairs i j hi' hj' hlt entry hother entry hpage) (lt_irrefl _)
  · exact heq
  · exact absurd (hpairs j i hj' hi' hlt entry hpage entry hother) (lt_irrefl _)

theorem sorted_of_bracketed (hvalid : ∀ page ∈ range.pages, page.Valid) (h : Bracketed range.pages) :
    Sorted Prod.fst (range.pages.flatMap PackedPage.stored) := by
  refine List.pairwise_flatMap.mpr ⟨fun page hpage => (hvalid page hpage).stored_spec.1, ?_⟩
  refine List.pairwise_iff_getElem.mpr fun i j hi hj hlt first hfirst second hsecond => ?_
  have hlast := (hvalid _ (List.getElem_mem hi)).stored_spec.2 first hfirst
  have hbelow := (h i j _ _ (List.getElem?_eq_getElem hi) (List.getElem?_eq_getElem hj) second hsecond).1 hlt
  exact hlast.trans_lt hbelow.2

theorem agrees_iff (hvalid : ∀ page ∈ range.pages, page.Valid) : range.Agrees ↔ Bracketed range.pages := by
  constructor
  · rintro ⟨entries, hentries, hsorted, hget⟩ i j other page hi hj entry hentry
    obtain rfl : range.pages.flatMap PackedPage.stored = entries := by
      rw [entries_of_valid hvalid] at hentries
      exact Except.ok.inj hentries
    have hmem : entry ∈ range.pages.flatMap PackedPage.stored :=
      List.mem_flatMap.mpr ⟨page, List.mem_of_getElem? hj, hentry⟩
    refine (find_page_iff hvalid hj hentry).mp (fun search => ?_) i other hi
    -- the page chosen has the entry, so it is page `j`
    have hfound := hget search entry.1
    rw [get_of_valid hvalid, lookup_of_mem hsorted hmem, Except.ok.injEq] at hfound
    obtain ⟨chosen, hchosen, hvalue⟩ := Option.bind_eq_some_iff.mp hfound
    obtain ⟨place, hplace, hat⟩ := Option.bind_eq_some_iff.mp hchosen
    rw [hplace, page_unique hsorted hat hj (mem_of_lookup hvalue) hentry]
  · intro h
    have hsorted := sorted_of_bracketed hvalid h
    refine ⟨_, entries_of_valid hvalid, hsorted, fun search key => ?_⟩
    rw [get_of_valid hvalid, Except.ok.injEq]
    cases hlookup : lookup (range.pages.flatMap PackedPage.stored) key with
    | none =>
      refine Option.bind_eq_none_iff.mpr fun page hpage => ?_
      obtain ⟨i, -, hi⟩ := Option.bind_eq_some_iff.mp hpage
      refine lookup_eq_none_iff.mpr fun entry hentry => ?_
      exact lookup_eq_none_iff.mp hlookup entry (List.mem_flatMap.mpr ⟨page, List.mem_of_getElem? hi, hentry⟩)
    | some value =>
      obtain ⟨page, hpage, hentry⟩ := List.mem_flatMap.mp (mem_of_lookup hlookup)
      obtain ⟨j, hj⟩ := List.mem_iff_getElem?.mp hpage
      have hfind := (find_page_iff hvalid hj hentry).mpr (fun i other hi => h i j other page hi hj _ hentry) search
      rw [hfind]
      simp only [Option.bind_some, hj]
      exact lookup_of_mem (hvalid page hpage).stored_spec.1 hentry

end PackedRange

end Lookup

section Written

variable {crc : Bytes → Word 4} {generation : Word 8}

variable {bytes : Bytes} {pages : List PackedPage} {range : PackedRange} {s s' : Packing} {budget : PackBudget}
  {taken entries : List Entry}

theorem readPages_valid {n ordinal : ℕ} {previous : Option Key}
    (h : readPages crc generation n ordinal previous bytes = .ok pages) : ∀ page ∈ pages, page.Valid := by
  induction n generalizing ordinal previous bytes pages with
  | zero =>
    cases h
    simp
  | succ n ih =>
    rw [readPages] at h
    split at h
    · cases h
    · obtain ⟨page, hpage, hrest⟩ := bind_eq_ok.mp h
      split at hrest
      · cases hrest
      · obtain ⟨rest, hread, hall⟩ := bind_eq_ok.mp hrest
        cases hall
        exact List.forall_mem_cons.mpr ⟨PackedPage.decode_ok hpage, ih hread⟩

theorem read_valid (h : PackedRange.read crc bytes generation = .ok range) :
    ∀ page ∈ range.pages, page.Valid := by
  rw [PackedRange.read] at h
  split at h
  · cases h
  · obtain ⟨pages, hpages, hrange⟩ := bind_eq_ok.mp h
    cases hrange
    exact readPages_valid hpages

theorem readPages_cons {n : ℕ} {ordinal : Word 4} {previous : Option Key} {page : PackedPage} {bytes : Bytes}
    {pages : List PackedPage} (hdecode : PackedPage.decode crc page.bytes generation ordinal = .ok page)
    (hprevious : ∀ last ∈ previous, last < page.firstKey)
    (hrest : readPages crc generation n (ordinal.val + 1) (some page.lastKey) bytes = .ok pages) :
    readPages crc generation (n + 1) ordinal.val previous (page.bytes ++ bytes) = .ok (page :: pages) := by
  have hordered : ¬∃ last ∈ previous, page.firstKey ≤ last := by
    rintro ⟨last, hlast, hle⟩
    exact absurd (hprevious last hlast) hle.not_gt
  rw [readPages, Word.ofLength?_of_lt ordinal.isLt]
  simp only [List.take_left' page.width, List.drop_left' page.width]
  change (PackedPage.decode crc page.bytes generation ordinal >>= _) = _
  rw [hdecode, ok_bind, if_neg hordered, hrest]
  rfl

theorem length_written (pages : List PackedPage) :
    (pages.flatMap PackedPage.bytes).length = pages.length * packedPageBytes := by
  rw [List.length_flatMap, List.map_congr_left fun page _ => page.width, List.map_const', List.sum_replicate,
    smul_eq_mul]

theorem read_of_readPages
    (h : readPages crc generation pages.length 0 none (pages.flatMap PackedPage.bytes) = .ok pages) :
    PackedRange.read crc (pages.flatMap PackedPage.bytes) generation =
      .ok ⟨generation, pages, ⟨pages.length, (pages.map PackedPage.entryCount).sum, pages.length * packedPageBytes⟩,
        crc (pages.flatMap PackedPage.bytes)⟩ := by
  rw [PackedRange.read, length_written, if_neg (by simp), Nat.mul_div_cancel _ (by decide), h]
  rfl

/-- The pages made of successive parts of the entries, numbered from one ordinal on. -/
inductive Sealed (crc : Bytes → Word 4) (generation : Word 8) : ℕ → List (List Entry) → List PackedPage → Prop
  | nil {o : ℕ} : Sealed crc generation o [] []
  | cons {ordinal : Word 4} {part : List Entry} {parts : List (List Entry)} {page : PackedPage}
      {pages : List PackedPage} :
    PackedPage.fromEntries crc generation ordinal part = .ok page →
    Sealed crc generation (ordinal.val + 1) parts pages →
    Sealed crc generation ordinal.val (part :: parts) (page :: pages)

namespace Sealed

variable {o : ℕ} {parts : List (List Entry)} {pages : List PackedPage}

theorem snoc (h : Sealed crc generation o parts pages) {ordinal : Word 4} (hordinal : ordinal.val = o + pages.length)
    {part : List Entry} {page : PackedPage} (hpage : PackedPage.fromEntries crc generation ordinal part = .ok page) :
    Sealed crc generation o (parts ++ [part]) (pages ++ [page]) := by
  induction h with
  | nil =>
    obtain rfl : ordinal.val = _ := by simpa using hordinal
    exact .cons hpage .nil
  | cons hfirst _ ih => exact .cons hfirst (ih (by simp only [List.length_cons] at hordinal; omega))

theorem spec (h : Sealed crc generation o parts pages) (hsorted : Sorted Prod.fst parts.flatten) :
    pages.flatMap PackedPage.stored = parts.flatten ∧ (pages.map PackedPage.entryCount).sum = parts.flatten.length ∧
      ∀ page ∈ pages, page.Valid ∧ page.stored.head?.map Prod.fst = some page.firstKey ∧
        page.stored.getLast?.map Prod.fst = some page.lastKey := by
  induction h with
  | nil => simp
  | cons hpage _ ih =>
    obtain ⟨hpart, hparts, -⟩ := List.pairwise_append.mp (List.flatten_cons ▸ hsorted)
    obtain ⟨-, hvalid, hstored, hcount, hfirst, hlast⟩ := PackedPage.fromEntries_spec hpage hpart
    obtain ⟨hflat, hsum, hall⟩ := ih hparts
    refine ⟨by simp [hflat, hstored], by simp [hsum, hcount], ?_⟩
    exact List.forall_mem_cons.mpr ⟨⟨hvalid, hstored ▸ hfirst, hstored ▸ hlast⟩, hall⟩

theorem readPages_eq (h : Sealed crc generation o parts pages) (hsorted : Sorted Prod.fst parts.flatten)
    {previous : Option Key} (hprevious : ∀ last ∈ previous, ∀ entry ∈ parts.flatten, last < entry.1) :
    readPages crc generation pages.length o previous (pages.flatMap PackedPage.bytes) = .ok pages := by
  induction h generalizing previous with
  | nil => rfl
  | cons hpage _ ih =>
    obtain ⟨hpart, hparts, hcross⟩ := List.pairwise_append.mp (List.flatten_cons ▸ hsorted)
    obtain ⟨hdecode, -, -, -, hfirst, hlast⟩ := PackedPage.fromEntries_spec hpage hpart
    obtain ⟨first, hhead, hkey⟩ := Option.map_eq_some_iff.mp hfirst
    obtain ⟨final, hfinal, hkey'⟩ := Option.map_eq_some_iff.mp hlast
    rw [List.flatMap_cons, List.length_cons]
    refine readPages_cons hdecode ?_ (ih hparts ?_)
    · intro last hmem
      exact hkey ▸ hprevious last hmem first (by simp [List.mem_of_mem_head? hhead])
    · intro last hmem entry hentry
      obtain rfl : _ = last := by simpa using hmem
      exact hkey' ▸ hcross final (List.mem_of_getLast? hfinal) entry hentry

end Sealed

theorem bracketed_of_ends (hsorted : Sorted Prod.fst (pages.flatMap PackedPage.stored))
    (hends : ∀ page ∈ pages, page.stored.head?.map Prod.fst = some page.firstKey ∧
      page.stored.getLast?.map Prod.fst = some page.lastKey) : Bracketed pages := by
  intro i j other page hi hj entry hentry
  obtain ⟨hi', rfl⟩ := List.getElem?_eq_some_iff.mp hi
  obtain ⟨hj', rfl⟩ := List.getElem?_eq_some_iff.mp hj
  obtain ⟨heach, hpairwise⟩ := List.pairwise_flatMap.mp hsorted
  have hpairs := List.pairwise_iff_getElem.mp hpairwise
  obtain ⟨hfirst, hlast⟩ := hends _ (List.getElem_mem hi')
  obtain ⟨first, hhead, hkey⟩ := Option.map_eq_some_iff.mp hfirst
  obtain ⟨final, hfinal, hkey'⟩ := Option.map_eq_some_iff.mp hlast
  refine ⟨fun hlt => ?_, fun heq => ?_, fun hlt => ?_⟩
  · rw [← hkey, ← hkey']
    exact ⟨(hpairs i j hi' hj' hlt first (List.mem_of_mem_head? hhead) entry hentry).le,
      hpairs i j hi' hj' hlt final (List.mem_of_getLast? hfinal) entry hentry⟩
  · subst heq
    obtain ⟨rest, hrest⟩ := List.head?_eq_some_iff.mp hhead
    have hfront := heach _ (List.getElem_mem hj')
    rw [hrest] at hfront hentry
    rw [← hkey]
    rcases List.mem_cons.mp hentry with rfl | hmem
    · exact le_rfl
    · exact (List.rel_of_pairwise_cons hfront hmem).le
  · rw [← hkey]
    exact hpairs j i hj' hi' hlt entry hentry first (List.mem_of_mem_head? hhead)

/-- The entries taken so far are in the pages and the current part, in order. -/
def Packing.Holds (crc : Bytes → Word 4) (generation : Word 8) (s : Packing) (taken : List Entry) : Prop :=
  (∃ parts, Sealed crc generation 0 parts s.pages ∧ parts.flatten ++ s.current = taken) ∧ Sorted Prod.fst taken ∧
    ∀ entry ∈ taken, ∃ last ∈ s.previous, entry.1 ≤ last

theorem Packing.pushPage_sealed {parts : List (List Entry)}
    (hs : Sealed crc generation 0 parts s.pages) (h : s.pushPage crc generation = .ok pages) :
    Sealed crc generation 0 (parts ++ [s.current]) pages := by
  rw [pushPage] at h
  split at h
  · cases h
  · next ordinal hordinal =>
    obtain ⟨page, hpage, hpages⟩ := bind_eq_ok.mp h
    cases hpages
    exact hs.snoc (by rw [Word.ofLength?_eq_some hordinal, Nat.zero_add]) hpage

theorem Packing.add_holds {entry : Entry}
    (hs : s.Holds crc generation taken) (h : s.add crc generation budget entry = .ok s') :
    s'.Holds crc generation (taken ++ [entry]) := by
  obtain ⟨⟨parts, hsealed, hparts⟩, hsorted, hlast⟩ := hs
  rw [add] at h
  split at h
  · cases h
  · next hordered =>
    have hbelow : ∀ e ∈ taken, e.1 < entry.1 := by
      intro e he
      obtain ⟨last, hmem, hle⟩ := hlast e he
      exact hle.trans_lt (lt_of_not_ge fun hge => hordered ⟨last, hmem, hge⟩)
    have hnext : Sorted Prod.fst (taken ++ [entry]) :=
      hsorted.append (List.pairwise_singleton _ _) (by simpa using hbelow)
    have hends : ∀ e ∈ taken ++ [entry], ∃ last ∈ some entry.1, e.1 ≤ last := by
      intro e he
      refine ⟨entry.1, rfl, ?_⟩
      rcases List.mem_append.mp he with he | he
      · exact (hbelow e he).le
      · exact (List.mem_singleton.mp he) ▸ le_rfl
    split_ifs at h with _ _ _ hfull
    · obtain ⟨pages, hpages, hrest⟩ := bind_eq_ok.mp h
      split at hrest
      · cases hrest
      · cases hrest
        exact ⟨⟨_, pushPage_sealed hsealed hpages, by simp [← hparts]⟩, hnext, hends⟩
    · cases h
      exact ⟨⟨parts, hsealed, by simp [← hparts]⟩, hnext, hends⟩

theorem Packing.foldlM_holds
    (hs : s.Holds crc generation taken) (h : entries.foldlM (Packing.add crc generation budget) s = .ok s') :
    s'.Holds crc generation (taken ++ entries) := by
  induction entries generalizing s taken with
  | nil =>
    cases h
    simpa using hs
  | cons entry entries ih =>
    obtain ⟨next, hnext, hrest⟩ := bind_eq_ok.mp h
    simpa using ih (add_holds hs hnext) hrest

theorem packSorted_sealed (h : packSorted crc generation entries budget = .ok range) :
    ∃ parts, Sealed crc generation 0 parts range.pages ∧ parts.flatten = entries ∧ Sorted Prod.fst entries ∧
      range = ⟨generation, range.pages, ⟨range.pages.length, entries.length, range.pages.length * packedPageBytes⟩,
        crc range.written⟩ := by
  rw [packSorted] at h
  split at h
  · cases h
  · obtain ⟨s, hfold, hfinish⟩ := bind_eq_ok.mp h
    obtain ⟨pages, hpages, hrange⟩ := bind_eq_ok.mp hfinish
    cases hrange
    have hstart : Packing.Holds crc generation ⟨[], [], 0, 0, none⟩ [] := ⟨⟨[], .nil, rfl⟩, .nil, by simp⟩
    obtain ⟨⟨parts, hsealed, hparts⟩, hsorted, -⟩ := Packing.foldlM_holds hstart hfold
    rw [Packing.finish] at hpages
    split at hpages
    · next hempty =>
      cases hpages
      rw [hempty, List.append_nil] at hparts
      exact ⟨parts, hsealed, hparts, hsorted, rfl⟩
    · exact ⟨_, Packing.pushPage_sealed hsealed hpages, by simpa using hparts, hsorted, rfl⟩

/-- A packed range gives back its entries, by a scan and by lookups, and is read back from its file. For
any file that is accepted, lookups agree with the entries and these are sorted exactly when the headers
place every stored key. -/
theorem packed_range_exact (crc : Bytes → Word 4) :
    (∀ generation entries budget range, packSorted crc generation entries budget = .ok range →
      range.entries = .ok entries ∧ (∀ search key, range.get search key = .ok (lookup entries key)) ∧
        PackedRange.read crc range.written generation = .ok range) ∧
    ∀ generation bytes range, PackedRange.read crc bytes generation = .ok range →
      ((∃ entries, range.entries = .ok entries ∧ Sorted Prod.fst entries ∧
        ∀ search key, range.get search key = .ok (lookup entries key)) ↔ Bracketed range.pages) := by
  refine ⟨fun generation entries budget range h => ?_, fun generation bytes range h =>
    PackedRange.agrees_iff (read_valid h)⟩
  obtain ⟨parts, hsealed, rfl, hsorted, hrange⟩ := packSorted_sealed h
  obtain ⟨hstored, hcount, hpages⟩ := hsealed.spec hsorted
  have hvalid : ∀ page ∈ range.pages, page.Valid := fun page hpage => (hpages page hpage).1
  have hbracketed : Bracketed range.pages :=
    bracketed_of_ends (hstored ▸ hsorted) fun page hpage => (hpages page hpage).2
  have hentries := PackedRange.entries_of_valid hvalid
  obtain ⟨entries, hentries', -, hget⟩ := (PackedRange.agrees_iff hvalid).mpr hbracketed
  obtain rfl : range.pages.flatMap PackedPage.stored = entries := Except.ok.inj (hentries.symm.trans hentries')
  rw [hstored] at hentries hget
  refine ⟨hentries, hget, ?_⟩
  rw [PackedRange.written, read_of_readPages (hsealed.readPages_eq hsorted (by simp)), hcount, hrange]
  rfl

def keyOf (byte : Fin 256) : Key := ⟨List.replicate 15 0 ++ [byte], rfl⟩

/-- Entries for two pages: the second does not fit the page of the first. -/
def longEntries : List Entry := [(keyOf 1, List.replicate 2100 7), (keyOf 2, List.replicate 2100 8), (keyOf 3, [])]

def byteSum (bytes : Bytes) : Word 4 := Word.ofNat (bytes.map Fin.val).sum

theorem packed_range_exact_longEntries :
    ∃ range, packSorted byteSum 5 longEntries ⟨2, 3, 8192⟩ = .ok range ∧ range.pages.length = 2 ∧
      range.entries = .ok longEntries ∧ (∀ search, range.get search (keyOf 2) = .ok (some (List.replicate 2100 8))) ∧
      PackedRange.read byteSum range.written 5 = .ok range := by
  have hpages : (packSorted byteSum 5 longEntries ⟨2, 3, 8192⟩).toOption.map (fun range => range.pages.length) =
      some 2 := by
    decide +kernel
  cases h : packSorted byteSum 5 longEntries ⟨2, 3, 8192⟩ with
  | error error =>
    rw [h] at hpages
    cases hpages
  | ok range =>
    rw [h] at hpages
    obtain ⟨hentries, hget, hread⟩ := (packed_range_exact _).1 _ _ _ _ h
    refine ⟨range, rfl, Option.some.inj hpages, hentries, fun search => (hget search _).trans ?_, hread⟩
    exact congrArg Except.ok (by decide +kernel)

/-- A page of two entries whose header begins between them: only the last key is compared with the
entries, so the page is accepted, and its first entry is never found. -/
def forgedEntries : List Entry := [(keyOf 1, []), (keyOf 3, [])]

theorem first_key_unchecked :
    ¬∃ (crc : Bytes → Word 4) (search : BinarySearch), ∀ generation bytes range entries,
      PackedRange.read crc bytes generation = .ok range → range.entries = .ok entries →
        ∀ key, range.get search key = .ok (lookup entries key) := by
  rintro ⟨crc, search, h⟩
  let page := PackedPage.build crc 0 0 2 (keyOf 2) (keyOf 3) ⟨forgedEntries.flatMap encodeEntry, by decide⟩
  have hsorted : Sorted Prod.fst forgedEntries := by
    unfold Sorted
    decide +kernel
  obtain ⟨hvalid, hstored⟩ : page.Valid ∧ page.stored = forgedEntries :=
    PackedPage.build_valid rfl hsorted rfl fun _ => ⟨by decide +kernel, rfl⟩
  have hfirst : page.firstKey = keyOf 2 := PackedPage.build_fields.2.1
  have hpages : readPages crc 0 [page].length 0 none ([page].flatMap PackedPage.bytes) = .ok [page] := by
    simpa using @readPages_cons crc 0 0 0 none page [] [] (PackedPage.decode_build hvalid) (by simp) rfl
  have hread := read_of_readPages hpages
  have hall : ∀ p ∈ [page], p.Valid := by simpa using hvalid
  have hfound := h _ _ _ _ hread (PackedRange.entries_of_valid hall) (keyOf 1)
  have horder : page.order (keyOf 1) = .gt := PackedPage.order_eq_gt.mpr (by rw [hfirst]; decide +kernel)
  rw [PackedRange.get_of_valid hall] at hfound
  simp only [List.map_cons, List.map_nil, horder, List.flatMap_cons, List.flatMap_nil, List.append_nil, hstored,
    Except.ok.injEq, lookup_of_mem hsorted (List.mem_cons_self : (keyOf 1, []) ∈ forgedEntries)] at hfound
  -- the header of the only page puts the key before it
  cases hfind : search.find [.gt] with
  | none =>
    rw [hfind] at hfound
    cases hfound
  | some i =>
    have heq := search.found (List.pairwise_singleton _ _) hfind
    cases i <;> simp at heq

end Written

end OmenDb.Packed
