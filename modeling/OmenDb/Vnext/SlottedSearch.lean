import OmenDb.Vnext.Slotted

/-! The search in a page goes by the heads that the slots cache. Heads are padded with zeros, so equal
heads say nothing, and different heads order the keys as their bytes do. Every writer stores the head of
the key it writes and leaves the entries above it alone. -/
namespace OmenDb.Vnext.Slotted

open Keyed (orderAt orderAt_of_get orderAt_of_less Place UpperBound binarySearch_place)

theorem append_lt_append_iff (pre a b : Bytes) : pre ++ a < pre ++ b ↔ a < b := by
  induction pre with
  | nil => rfl
  | cons x pre ih => simp [ih]

theorem compareSuffix_eq (pre suffix key : Bytes) :
    PageRef.compareSuffix pre suffix (keyHead 4 suffix) key = compareOfLessAndEq (pre ++ suffix) key := by
  rw [PageRef.compareSuffix]
  by_cases hpre : pre.isPrefixOf key = true
  swap
  · rw [if_neg hpre]
  obtain ⟨rest, rfl⟩ := List.isPrefixOf_iff_prefix.mp hpre
  rw [if_pos hpre, List.drop_left]
  by_cases hhead : keyHead 4 suffix = keyHead 4 rest
  · rw [if_neg (by simp [hhead])]
  · have hcompare := compareKey_eq suffix rest
    rw [Vnext.compareKey, if_pos hhead] at hcompare
    rw [if_pos hhead, hcompare]
    simp only [compareOfLessAndEq, append_lt_append_iff, List.append_cancel_left_eq]

def suffixAt (data : Bytes) (slot : Slot) : Bytes := slice data slot.offset (slot.offset + slot.keyLen)

/-- The entry of the slot lies in the heap, and the slot has the head of its key. -/
structure Cached (data : Bytes) (upper : ℕ) (slot : Slot) : Prop where
  above : upper ≤ slot.offset
  within : slot.offset + slot.keyLen ≤ data.length
  head : slot.head = keyHead 4 (suffixAt data slot)

section Write

variable {data : Bytes} {upper : ℕ} {entry : EncodedEntry}

/-- An entry written under the heap is what its slot names. -/
theorem suffixAt_slotAt (hlen : entry.bytes.length ≤ upper) (hupper : upper ≤ data.length) :
    suffixAt (overwrite data (upper - entry.bytes.length) entry.bytes) (entry.slotAt (upper - entry.bytes.length)) =
      entry.key := by
  have hkey : entry.key.length ≤ entry.bytes.length := by simp [EncodedEntry.bytes]
  have hself := @slice_overwrite_self data entry.bytes (upper - entry.bytes.length) _ (by omega) hkey
  rw [suffixAt, EncodedEntry.slotAt]
  refine hself.trans ?_
  rw [EncodedEntry.bytes, List.take_left]

theorem cached_slotAt (hlen : entry.bytes.length ≤ upper) (hupper : upper ≤ data.length) :
    Cached (overwrite data (upper - entry.bytes.length) entry.bytes) (upper - entry.bytes.length)
      (entry.slotAt (upper - entry.bytes.length)) := by
  have hkey : entry.key.length ≤ entry.bytes.length := by simp [EncodedEntry.bytes]
  refine ⟨le_rfl, ?_, by rw [suffixAt_slotAt hlen hupper]; rfl⟩
  rw [length_overwrite (by omega)]
  show upper - entry.bytes.length + entry.key.length ≤ _
  omega

/-- The entries above are left alone. -/
theorem suffixAt_overwrite {slot : Slot} (hlen : entry.bytes.length ≤ upper) (hupper : upper ≤ data.length)
    (h : Cached data upper slot) :
    suffixAt (overwrite data (upper - entry.bytes.length) entry.bytes) slot = suffixAt data slot :=
  slice_overwrite_above (by omega) (by have := h.above; omega)

theorem Cached.overwrite {slot : Slot} (h : Cached data upper slot) (hlen : entry.bytes.length ≤ upper)
    (hupper : upper ≤ data.length) :
    Cached (overwrite data (upper - entry.bytes.length) entry.bytes) (upper - entry.bytes.length) slot := by
  refine ⟨(Nat.sub_le _ _).trans h.above, ?_, by rw [suffixAt_overwrite hlen hupper h]; exact h.head⟩
  rw [length_overwrite (by omega)]
  exact h.within

end Write

namespace PageRef

def keys (page : PageRef) : List Bytes := page.slots.map fun slot => page.keyPrefix ++ suffixAt page.data slot

/-- A page that the writers make. -/
structure Sound (page : PageRef) : Prop where
  plain : page.keyPrefix = []
  cached : ∀ slot ∈ page.slots, Cached page.data page.upper slot
  sorted : page.keys.Pairwise (· ≤ ·)

end PageRef

section Search

variable {page : PageRef} {key : Bytes}

theorem suffix_eq {slot : Slot} (h : Cached page.data page.upper slot) :
    page.suffix slot = .ok (suffixAt page.data slot) := by
  rw [PageRef.suffix, checkedSlice, if_pos h.within]
  rfl

theorem suffix_ok {slot : Slot} {suffix : Bytes} (h : page.suffix slot = .ok suffix) :
    suffixAt page.data slot = suffix := by
  rw [PageRef.suffix, checkedSlice] at h
  split at h <;> cases h
  rfl

theorem compareKey_orderAt (hcached : ∀ slot ∈ page.slots, Cached page.data page.upper slot) {index : ℕ}
    (h : index < page.slots.length) : page.compareKey index key = .ok (orderAt page.keys key index) := by
  have hslot : page.slots[index]? = some page.slots[index] := List.getElem?_eq_getElem h
  have hkey : page.keys[index]? = some (page.keyPrefix ++ suffixAt page.data page.slots[index]) := by
    rw [PageRef.keys, List.getElem?_map, hslot]
    rfl
  have hhere := hcached _ (List.getElem_mem h)
  rw [PageRef.compareKey, PageRef.slot, hslot]
  show (page.suffix page.slots[index] >>= _) = _
  rw [suffix_eq hhere, hhere.head, ok_bind, compareSuffix_eq, orderAt_of_less hkey]
  rfl

theorem searchLoop_eq (hcached : ∀ slot ∈ page.slots, Cached page.data page.upper slot) {fuel lo hi : ℕ}
    {found : Option ℕ} (hhi : hi ≤ page.slots.length) :
    page.searchLoop key fuel lo hi found = .ok (Keyed.probe (orderAt page.keys key) fuel lo hi found) := by
  induction fuel generalizing lo hi found with
  | zero => rfl
  | succ fuel ih =>
    rw [PageRef.searchLoop, Keyed.probe]
    by_cases hlo : lo < hi
    swap
    · rw [if_neg hlo, if_neg hlo]
    rw [if_pos hlo, if_pos hlo]
    dsimp only
    rw [compareKey_orderAt hcached (by omega)]
    generalize orderAt page.keys key (lo + (hi - lo) / 2) = order
    cases order
    · exact ih hhi
    · exact ih (by omega)
    · exact ih (by omega)

theorem length_keys (page : PageRef) : page.keys.length = page.slots.length := List.length_map ..

theorem search_place (hsound : page.Sound) (key : Bytes) : ∃ slot, page.search key = .ok slot ∧
    Place page.keys key slot := by
  refine ⟨_, searchLoop_eq hsound.cached le_rfl, ?_⟩
  rw [← length_keys]
  exact binarySearch_place hsound.sorted key

theorem probe_congr {cmp cmp' : ℕ → Ordering} {fuel lo hi : ℕ} {found : Option ℕ} (h : ∀ i < hi, cmp i = cmp' i) :
    Keyed.probe cmp fuel lo hi found = Keyed.probe cmp' fuel lo hi found := by
  induction fuel generalizing lo hi found with
  | zero => rfl
  | succ fuel ih =>
    rw [Keyed.probe, Keyed.probe]
    by_cases hlo : lo < hi
    swap
    · rw [if_neg hlo, if_neg hlo]
    rw [if_pos hlo, if_pos hlo]
    dsimp only
    rw [h (lo + (hi - lo) / 2) (by omega)]
    cases cmp' (lo + (hi - lo) / 2)
    · exact ih h
    · exact ih fun i hi => h i (by omega)
    · exact ih fun i hi => h i (by omega)

/-- The search among slots is the search among the decoded entries. -/
theorem search_decoded (hsound : page.Sound) {α : Type} {keyOf : α → Bytes} {entries : List α}
    (hkeys : entries.map keyOf = page.keys) (key : Bytes) : page.search key = .ok (Vnext.search keyOf entries key) := by
  have hlength : entries.length = page.slots.length := by rw [← length_keys, ← hkeys, List.length_map]
  rw [PageRef.search, searchLoop_eq hsound.cached le_rfl, Vnext.search, Keyed.binarySearch, hlength]
  refine congrArg _ (probe_congr fun i hi => ?_)
  have hget : entries[i]? = some entries[i] := List.getElem?_eq_getElem (hlength ▸ hi)
  have hstored : page.keys[i]? = some (keyOf entries[i]) := by rw [← hkeys, List.getElem?_map, hget]; rfl
  rw [orderAt_of_less hstored, hget, Option.elim_some, Vnext.compareKey_eq]

theorem upperLoop_bound (hsound : page.Sound) {fuel upper : ℕ} (hfuel : page.keys.length ≤ upper + fuel)
    (hupper : upper ≤ page.keys.length) (hbelow : ∀ stored ∈ page.keys.take upper, stored ≤ key)
    (hfrom : ∀ stored ∈ page.keys.drop upper, key ≤ stored) :
    ∃ n, page.upperLoop key fuel upper = .ok n ∧ UpperBound page.keys key n := by
  have hlength := length_keys page
  induction fuel generalizing upper with
  | zero =>
    obtain rfl : upper = page.keys.length := by omega
    exact ⟨_, rfl, le_rfl, hbelow, by simp⟩
  | succ fuel ih =>
    rw [PageRef.upperLoop, ← hlength]
    by_cases hlt : upper < page.keys.length
    swap
    · rw [if_neg hlt]
      exact ⟨upper, rfl, hupper, hbelow, by simp [List.drop_eq_nil_of_le (not_lt.mp hlt)]⟩
    rw [if_pos hlt, compareKey_orderAt hsound.cached (hlength ▸ hlt), ok_bind,
      orderAt_of_get (List.getElem?_eq_getElem hlt)]
    have hdrop := List.drop_eq_getElem_cons hlt
    by_cases heq : page.keys[upper] = key
    · rw [if_pos (compare_eq_iff_eq.mpr heq)]
      refine ih (by omega) hlt ?_ fun stored hmem => hfrom stored (hdrop ▸ List.mem_cons_of_mem _ hmem)
      intro stored hmem
      rw [List.take_add_one, List.getElem?_eq_getElem hlt] at hmem
      rcases List.mem_append.mp hmem with hmem | hmem
      · exact hbelow stored hmem
      · rw [Option.toList_some, List.mem_singleton] at hmem
        exact (hmem.trans heq).le
    · rw [if_neg (mt compare_eq_iff_eq.mp heq)]
      refine ⟨upper, rfl, hupper, hbelow, fun stored hmem => ?_⟩
      have hfirst : key < page.keys[upper] := lt_of_le_of_ne (hfrom _ (hdrop ▸ List.mem_cons_self)) (Ne.symm heq)
      rw [hdrop] at hmem
      rcases List.mem_cons.mp hmem with rfl | hmem
      · exact hfirst
      · have hrest := hsound.sorted.sublist (List.drop_sublist upper page.keys)
        rw [hdrop] at hrest
        exact hfirst.trans_le ((List.pairwise_cons.mp hrest).1 stored hmem)

theorem upperBound_exact (hsound : page.Sound) (key : Bytes) :
    ∃ n, page.upperBound key = .ok n ∧ UpperBound page.keys key n := by
  have hlength := length_keys page
  obtain ⟨slot, hsearch, hplace⟩ := search_place hsound key
  rw [PageRef.upperBound, hsearch]
  cases slot with
  | missing i => exact ⟨i, rfl, hplace.1, fun stored hmem => (hplace.2.1 stored hmem).le, hplace.2.2⟩
  | found i =>
    obtain ⟨hget, hbelow⟩ := hplace
    obtain ⟨hi, hkey⟩ := List.getElem?_eq_some_iff.mp hget
    show ∃ n, page.upperLoop key page.slots.length (i + 1) = .ok n ∧ _
    refine upperLoop_bound hsound (by omega) hi ?_ ?_
    · intro stored hmem
      rw [List.take_add_one, hget] at hmem
      rcases List.mem_append.mp hmem with hmem | hmem
      · exact (hbelow stored hmem).le
      · rw [Option.toList_some, List.mem_singleton] at hmem
        exact hmem.le
    · intro stored hmem
      have hrest := hsound.sorted.sublist (List.drop_sublist i page.keys)
      rw [List.drop_eq_getElem_cons hi, hkey] at hrest
      exact (List.pairwise_cons.mp hrest).1 stored hmem

end Search

theorem require_ok {p : Prop} [Decidable p] {reason : String} {u : Unit} (h : require p reason = .ok u) : p := by
  rw [require] at h
  split at h
  · assumption
  · cases h

section Build

variable {pageSize lower : ℕ} {kind : Kind} {leftmost : Option PageId} {high : Option Fence}
    {entries : List EncodedEntry}
  {page page' : PageRef}

/-- What is written so far: the slots of these keys, over a heap in the page. -/
structure Heap.Holds (heap : Heap) (keys : List Bytes) : Prop where
  cached : ∀ slot ∈ heap.slots, Cached heap.data heap.upper slot
  upper : heap.upper ≤ heap.data.length
  keys : heap.slots.map (suffixAt heap.data) = keys

theorem Heap.Holds.writeEntry {heap heap' : Heap} {keys : List Bytes} {entry : EncodedEntry} (h : heap.Holds keys)
    (hwrite : writeEntry lower heap entry = .ok heap') : heap'.Holds (keys ++ [entry.key]) := by
  obtain ⟨_, -, hwrite⟩ := bind_eq_ok.mp hwrite
  obtain ⟨_, -, hwrite⟩ := bind_eq_ok.mp hwrite
  obtain ⟨_, -, hwrite⟩ := bind_eq_ok.mp hwrite
  obtain ⟨_, hlen, hwrite⟩ := bind_eq_ok.mp hwrite
  have hlen := require_ok hlen
  obtain ⟨_, -, hwrite⟩ := bind_eq_ok.mp hwrite
  cases hwrite
  refine ⟨?_, ?_, ?_⟩
  · intro slot hmem
    rcases List.mem_append.mp hmem with hmem | hmem
    · exact (h.cached slot hmem).overwrite hlen h.upper
    · rw [List.mem_singleton] at hmem
      exact hmem ▸ cached_slotAt hlen h.upper
  · have hupper := h.upper
    rw [length_overwrite (by omega)]
    exact (Nat.sub_le _ _).trans hupper
  · rw [List.map_append, List.map_singleton, suffixAt_slotAt hlen h.upper, ← h.keys]
    exact congrArg (· ++ _) (List.map_congr_left fun slot hmem => suffixAt_overwrite hlen h.upper (h.cached slot hmem))

theorem Heap.Holds.foldlM {heap heap' : Heap} {keys : List Bytes} (h : heap.Holds keys)
    (hfold : entries.foldlM (Slotted.writeEntry lower) heap = .ok heap') :
    heap'.Holds (keys ++ entries.map (·.key)) := by
  induction entries generalizing heap keys with
  | nil =>
    cases hfold
    simpa using h
  | cons entry entries ih =>
    rw [List.foldlM_cons] at hfold
    obtain ⟨next, hwrite, hfold⟩ := bind_eq_ok.mp hfold
    simpa using ih (h.writeEntry hwrite) hfold

theorem validateSlots_sorted {previous : Option Bytes} {slots : List Slot}
    (h : page.validateSlots previous slots = .ok ()) :
    (slots.map fun slot => page.keyPrefix ++ suffixAt page.data slot).Pairwise (· ≤ ·) ∧
      ∀ key ∈ previous, ∀ slot ∈ slots, key ≤ page.keyPrefix ++ suffixAt page.data slot := by
  induction slots generalizing previous with
  | nil => exact ⟨.nil, by simp⟩
  | cons slot slots ih =>
    rw [PageRef.validateSlots] at h
    obtain ⟨_, -, h⟩ := bind_eq_ok.mp h
    obtain ⟨suffix, hsuffix, h⟩ := bind_eq_ok.mp h
    obtain ⟨_, hprevious, h⟩ := bind_eq_ok.mp h
    obtain ⟨_, -, h⟩ := bind_eq_ok.mp h
    have hprevious := require_ok hprevious
    obtain rfl := suffix_ok hsuffix
    obtain ⟨hsorted, hbehind⟩ := ih h
    refine ⟨List.pairwise_cons.mpr ⟨?_, hsorted⟩, fun key hkey => ?_⟩
    · intro key hmem
      obtain ⟨slot', hslot', rfl⟩ := List.mem_map.mp hmem
      exact hbehind _ rfl slot' hslot'
    · rintro slot' hmem
      rcases List.mem_cons.mp hmem with rfl | hmem
      · exact hprevious key hkey
      · exact (hprevious key hkey).trans (hbehind _ rfl slot' hmem)

/-- A page that is built holds its entries in order. -/
theorem buildPage_sound (h : buildPage pageSize kind leftmost high entries = .ok page) :
    page.Sound ∧ page.keys = entries.map (·.key) := by
  obtain ⟨_, -, h⟩ := bind_eq_ok.mp h
  obtain ⟨_, hfence, h⟩ := bind_eq_ok.mp h
  have hfence := require_ok hfence
  obtain ⟨_, -, h⟩ := bind_eq_ok.mp h
  obtain ⟨heap, hfold, h⟩ := bind_eq_ok.mp h
  have hempty : Heap.Holds ⟨[], pageSize - (high.elim [] Fence.key).length,
      overwrite (List.replicate pageSize 0) (pageSize - (high.elim [] Fence.key).length) (high.elim [] Fence.key)⟩
        [] := by
    refine ⟨by simp, ?_, rfl⟩
    rw [length_overwrite (by simp; omega), List.length_replicate]
    exact Nat.sub_le _ _
  obtain ⟨hcached, -, hkeys⟩ := hempty.foldlM hfold
  split at h
  · obtain ⟨_, hvalid, h⟩ := bind_eq_ok.mp h
    cases h
    exact ⟨⟨rfl, hcached, (validateSlots_sorted hvalid).1⟩, hkeys⟩
  · cases h

theorem sound_of_init (h : pages.init page) : page.Sound := by
  rcases h with ⟨pageSize, high, entries, h⟩ | ⟨pageSize, high, leftmost, entries, h⟩
  · exact (buildPage_sound h).1
  · obtain ⟨_, -, h⟩ := bind_eq_ok.mp h
    exact (buildPage_sound h).1

theorem entry_key {slot : Slot} {entry : EncodedEntry} (h : page.entry slot = .ok entry) :
    entry.key = page.keyPrefix ++ suffixAt page.data slot := by
  obtain ⟨suffix, hsuffix, h⟩ := bind_eq_ok.mp h
  obtain rfl := suffix_ok hsuffix
  cases hkind : page.kind <;> rw [hkind] at h
  · obtain ⟨child, -, h⟩ := bind_eq_ok.mp h
    cases h
    rfl
  · obtain ⟨value, -, h⟩ := bind_eq_ok.mp h
    cases h
    rfl

theorem entries_keys {slots : List Slot} (h : slots.mapM page.entry = .ok entries) :
    entries.map (·.key) = slots.map fun slot => page.keyPrefix ++ suffixAt page.data slot := by
  have hforall := mapM_eq_ok.mp h
  clear h
  induction hforall with
  | nil => rfl
  | cons hentry _ ih => rw [List.map_cons, List.map_cons, entry_key hentry, ih]

/-- Compaction moves the entries and keeps the keys. -/
theorem compact_sound (h : page.compact = .ok page') : page'.Sound ∧ page'.keys = page.keys := by
  rw [PageRef.compact] at h
  split at h
  · obtain ⟨entries, hentries, h⟩ := bind_eq_ok.mp h
    obtain ⟨hsound, hkeys⟩ := buildPage_sound h
    exact ⟨hsound, hkeys.trans (entries_keys hentries)⟩
  · obtain ⟨leftmost, -, h⟩ := bind_eq_ok.mp h
    obtain ⟨entries, hentries, h⟩ := bind_eq_ok.mp h
    obtain ⟨_, -, h⟩ := bind_eq_ok.mp h
    obtain ⟨hsound, hkeys⟩ := buildPage_sound h
    exact ⟨hsound, hkeys.trans (entries_keys hentries)⟩

end Build

section Insert

variable {page page' : PageRef} {entry : EncodedEntry} {insertion : ℕ}

/-- An insertion puts the key at its place and moves no other. -/
theorem insertSlot_keys (hsound : page.Sound) (h : page.HasContiguousSpace entry.bytes.length) :
    (page.insertSlot insertion entry h).keys = Keyed.insertAt page.keys insertion entry.key := by
  have hkept : ∀ slot ∈ page.slots,
      suffixAt (overwrite page.data (page.upper - entry.bytes.length) entry.bytes) slot = suffixAt page.data slot :=
    fun slot hmem => suffixAt_overwrite h.1 page.bounds.2 (hsound.cached slot hmem)
  simp only [PageRef.keys, PageRef.insertSlot, hsound.plain, List.nil_append, Keyed.insertAt, List.map_append,
    List.map_cons, suffixAt_slotAt h.1 page.bounds.2, ← List.map_take, ← List.map_drop]
  rw [List.map_congr_left fun slot hmem => hkept slot (List.mem_of_mem_take hmem),
    List.map_congr_left fun slot hmem => hkept slot (List.mem_of_mem_drop hmem)]

theorem pairwise_insertAt {keys : List Bytes} {key : Bytes} (hsorted : keys.Pairwise (· ≤ ·))
    (hplace : Place keys key (.missing insertion)) : (Keyed.insertAt keys insertion key).Pairwise (· ≤ ·) := by
  obtain ⟨-, hbelow, habove⟩ := hplace
  have hsplit := hsorted
  rw [← List.take_append_drop insertion keys, List.pairwise_append] at hsplit
  obtain ⟨htake, hdrop, hacross⟩ := hsplit
  rw [Keyed.insertAt, List.pairwise_append, List.pairwise_cons]
  refine ⟨htake, ⟨fun stored hmem => (habove stored hmem).le, hdrop⟩, fun a ha b hb => ?_⟩
  rcases List.mem_cons.mp hb with rfl | hb
  · exact (hbelow a ha).le
  · exact hacross a ha b hb

theorem insertSlot_sound (hsound : page.Sound) (h : page.HasContiguousSpace entry.bytes.length)
    (hplace : Place page.keys entry.key (.missing insertion)) : (page.insertSlot insertion entry h).Sound := by
  refine ⟨hsound.plain, fun slot hmem => ?_, ?_⟩
  · rcases Keyed.mem_insertAt.mp hmem with rfl | hmem
    · exact cached_slotAt h.1 page.bounds.2
    · exact (hsound.cached slot hmem).overwrite h.1 page.bounds.2
  · rw [insertSlot_keys hsound h]
    exact pairwise_insertAt hsound.sorted hplace

theorem insertEntry_sound {kind : Kind} {reasons : PageRef.InsertReasons} {result : InsertResult} (hsound : page.Sound)
    (h : page.insertEntry kind reasons entry = .ok (result, page')) : page'.Sound := by
  obtain ⟨_, -, h⟩ := bind_eq_ok.mp h
  split at h
  · cases h
    exact hsound
  obtain ⟨slot, hsearch, hplace⟩ := search_place hsound entry.key
  rw [hsearch, ok_bind] at h
  cases slot with
  | found index =>
    cases h
    exact hsound
  | missing insertion =>
    obtain ⟨_, -, h⟩ := bind_eq_ok.mp h
    obtain ⟨_, -, h⟩ := bind_eq_ok.mp h
    obtain ⟨_, -, h⟩ := bind_eq_ok.mp h
    obtain ⟨room, hroom, h⟩ := bind_eq_ok.mp h
    -- the page itself, or the page compacted: the same keys either way
    have hroom : room.Sound ∧ room.keys = page.keys := by
      rw [PageRef.makeRoom] at hroom
      split at hroom
      · cases hroom
        exact ⟨hsound, rfl⟩
      · exact compact_sound hroom
    split at h
    · cases h
      refine insertSlot_sound hroom.1 _ ?_
      rw [hroom.2, hsound.plain]
      exact hplace
    · cases h
      exact hroom.1

end Insert

theorem removeSlot_sound {page : PageRef} (hsound : page.Sound) (index : ℕ) : (page.removeSlot index).Sound :=
  ⟨hsound.plain, fun slot hmem => hsound.cached slot (List.mem_of_mem_eraseIdx hmem),
    hsound.sorted.sublist ((List.eraseIdx_sublist _ _).map _)⟩

theorem removeLeaf_sound {page page' : PageRef} {key : Bytes} {result : PageRef.RemoveResult} (hsound : page.Sound)
    (h : page.removeLeaf key = .ok (result, page')) : page'.Sound := by
  obtain ⟨_, -, h⟩ := bind_eq_ok.mp h
  split at h
  · cases h
    exact hsound
  obtain ⟨slot, -, h⟩ := bind_eq_ok.mp h
  cases slot <;> cases h
  · exact removeSlot_sound hsound _
  · exact hsound

theorem sound_elim {α : Type} {page : PageRef} {outcome : Result (α × PageRef)} (hsound : page.Sound)
    (h : ∀ result page', outcome = .ok (result, page') → page'.Sound) :
    (outcome.toOption.elim page Prod.snd).Sound := by
  rcases outcome with error | ⟨result, page'⟩
  · exact hsound
  · exact h result page' rfl

theorem sound_of_reachable {page : PageRef} (h : pages.Reachable page) : page.Sound := by
  refine h.invariant (fun page => sound_of_init) fun page act page' hsound _ hstep => ?_
  cases act with
  | insertInline key value =>
    cases hstep
    exact sound_elim hsound fun _ _ => insertEntry_sound hsound
  | insertInternal key child =>
    cases hstep
    refine sound_elim hsound fun result page' h => ?_
    obtain ⟨_, -, h⟩ := bind_eq_ok.mp h
    exact insertEntry_sound hsound h
  | removeLeaf key =>
    cases hstep
    exact sound_elim hsound fun _ _ => removeLeaf_sound hsound

/-- A leaf of 200 bytes after the insertion of `[7, 0]` and `[7]`, whose heads are equal, and of `[5]`, and the
removal of `[5]`. -/
def equalHeadActs : List PageAct :=
  [.insertInline [7, 0] [1], .insertInline [5] [2], .insertInline [7] [3], .removeLeaf [5]]

end OmenDb.Vnext.Slotted
