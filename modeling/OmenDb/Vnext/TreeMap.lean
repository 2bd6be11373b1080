import OmenDb.Vnext.LeafWrites

/-! The tree as a finite map. Every operation answers as the map does, and a write leaves the map
before or after it, wherever it is cut. -/
namespace OmenDb.Vnext

open Linked (Each Covers)

section Contents

variable {tree : Tree} {contents : OrdMap Bytes LeafValue}

def Same (contents : OrdMap Bytes LeafValue) (entries : List LeafEntry) : Prop :=
  ∀ (key : Bytes) value, contents[key]? = some value ↔ ⟨key, value⟩ ∈ entries

theorem holds_iff : Holds tree contents ↔ ∃ entries, HoldsEntries tree entries ∧ Same contents entries := by
  constructor
  · rintro ⟨leaves, uppers, hshape, hsame⟩
    exact ⟨_, ⟨leaves, uppers, hshape, rfl⟩, hsame⟩
  · rintro ⟨_, ⟨leaves, uppers, hshape, rfl⟩, hsame⟩
    exact ⟨leaves, uppers, hshape, hsame⟩

theorem create_holds {pageSize : ℕ} (h : Tree.create pageSize = .ok tree) : Holds tree ∅ := by
  have hsized : PageSized pageSize := by
    by_contra hnot
    have hbounds : pageSize < headerSize + slotSize ∨ 2 ^ 32 - 1 < pageSize := by
      unfold PageSized at hnot
      omega
    have hbuild : buildLeaf pageSize none [] = .error .pageSizeBounds := by
      rw [buildLeaf, layoutPage, if_pos hbounds]
      rfl
    rw [Tree.create, hbuild] at h
    cases h
  have hfit : pageBytes none (([] : List LeafEntry).map LeafEntry.shape) ≤ pageSize := by
    have := hsized.1
    simp only [pageBytes, fenceLength, List.map_nil, List.sum_nil, Option.elim_none]
    omega
  rw [Tree.create, buildLeaf_of_le hsized ⟨.nil, by simp⟩ hfit] at h
  cases h
  have hget : ((∅ : OrdMap PageId Page).insert 0 (.leaf none []))[0]? = some (Page.leaf none []) :=
    OrdMap.get_insert_self _ _ _
  refine ⟨.single 0, [], ⟨hsized, by simp [reservedPageId], ?_,
    ⟨⟨[], hget, ⟨.nil, by simp⟩, hfit, by simp⟩, trivial⟩, ?_⟩, ?_⟩
  · intro node hnode
    rw [List.mem_singleton.mp hnode]
    exact ⟨Nat.zero_lt_one, by simp [levelIds]⟩
  · simp [Stack, Level.single]
  · intro key value
    have hempty : leafEntries ⟨pageSize, (∅ : OrdMap PageId Page).insert 0 (.leaf none []), 0, 1⟩ ⟨[], 0⟩ = [] :=
      leafEntries_of_get hget
    simp [Level.single, entriesOf, hempty]

end Contents

section Read

variable {tree : Tree} {contents : OrdMap Bytes LeafValue} {key : Bytes}

def lookupIn (contents : OrdMap Bytes LeafValue) (key : Bytes) : BTreeLookup :=
  (contents[key]?).elim .notFound LeafValue.lookup

theorem lookupIn_eq {entries : List LeafEntry} (hs : Keyed.Sorted LeafEntry.key entries)
    (hsame : ∀ value, contents[key]? = some value ↔ ⟨key, value⟩ ∈ entries) :
    (match search LeafEntry.key entries key with
      | .found i => (entries[i]?).elim .notFound fun entry => entry.value.lookup
      | .missing _ => .notFound) = lookupIn contents key := by
  have hfits := search_fits hs key
  cases h : search LeafEntry.key entries key with
  | found i =>
    rw [h] at hfits
    obtain ⟨entry, hget, rfl⟩ := hfits
    have hvalue : contents[entry.key]? = some entry.value := (hsame entry.value).mpr (List.mem_of_getElem? hget)
    simp [lookupIn, hget, hvalue]
  | missing i =>
    rw [h] at hfits
    have hnone : contents[key]? = none := by
      cases hc : contents[key]? with
      | none => rfl
      | some value => exact absurd rfl (Keyed.get?_eq_none_iff.mp (Keyed.get?_of_missing hfits) _ ((hsame value).mp hc))
    simp [lookupIn, hnone]

theorem Holds.leafFor (h : Holds tree contents) (key : Bytes) :
    ∃ leaves uppers n node pre post entries path, Shaped tree leaves uppers ∧
      Same contents (entriesOf tree leaves.nodes) ∧
      LeafFor tree leaves uppers key node pre post entries path ∧ Reaches tree key n node.id path ∧
      tree.findLeafPath key = if n < maxRoutingDepth then .ok (node.id, .leaf (post.head?.map Node.fence) entries, path)
        else .error .routingDepthExceeded := by
  obtain ⟨leaves, uppers, hshape, hsame⟩ := h
  obtain ⟨n, node, pre, post, entries, path, hleaf, hreach, hfind⟩ := hshape.findLeafPath key
  exact ⟨leaves, uppers, n, node, pre, post, entries, path, hshape, hsame, hleaf, hreach, hfind⟩

theorem Holds.lookup (h : Holds tree contents) (key : Bytes) :
    ∃ n, Distance tree key n ∧
      tree.lookup key = if n < maxRoutingDepth then .ok (lookupIn contents key) else .error .routingDepthExceeded := by
  obtain ⟨leaves, uppers, n, node, pre, post, entries, path, hshape, hsame, hleaf, hreach, hfind⟩ := h.leafFor key
  refine ⟨n, ⟨node.id, path, _, hreach, hleaf.page, rfl, hleaf.here⟩, ?_⟩
  have hin := lookupIn_eq hleaf.valid.sorted fun value => (hsame key value).trans (hleaf.mem_iff hshape value)
  rw [Tree.lookup, hfind]
  by_cases hn : n < maxRoutingDepth
  · rw [if_pos hn, if_pos hn, ← hin]
    dsimp only
    cases search LeafEntry.key entries key <;> rfl
  · rw [if_neg hn, if_neg hn]

theorem Distance.findLeafPath {n : ℕ} (h : Distance tree key n) :
    (∃ found, tree.findLeafPath key = .ok found) ↔ n < maxRoutingDepth := by
  obtain ⟨id, path, page, hreach, hpage, hleaf, hright⟩ := h
  rw [hreach.findLeafPath_leaf hpage hleaf hright]
  by_cases hn : n < maxRoutingDepth
  · simp [hn]
  · simp [hn]

theorem Holds.lookup_ok (h : Holds tree contents) {key : Bytes} {answer : BTreeLookup}
    (hok : tree.lookup key = .ok answer) : answer = lookupIn contents key := by
  obtain ⟨n, -, hlookup⟩ := h.lookup key
  rw [hlookup] at hok
  split at hok
  · exact (Except.ok.inj hok).symm
  · cases hok

theorem Holds.lookup_iff (h : Holds tree contents) (key : Bytes) :
    tree.lookup key = .ok (lookupIn contents key) ↔ ∃ n < maxRoutingDepth, Distance tree key n := by
  obtain ⟨n, hdist, hlookup⟩ := h.lookup key
  constructor
  · intro hok
    refine ⟨n, ?_, hdist⟩
    by_contra hn
    rw [hlookup, if_neg hn] at hok
    cases hok
  · rintro ⟨m, hm, hdist'⟩
    have hn := hdist.findLeafPath.mp (hdist'.findLeafPath.mpr hm)
    rw [hlookup, if_pos hn]

end Read

section Range

variable {tree : Tree} {contents : OrdMap Bytes LeafValue} {start stop : Bytes} {limit : ℕ}

def LeafEntry.answer (entry : LeafEntry) : Bytes × BTreeLookup := (entry.key, entry.value.lookup)

def within (start stop : Bytes) (entries : List LeafEntry) : List (Bytes × BTreeLookup) :=
  (entries.filter fun entry => decide (start ≤ entry.key ∧ entry.key < stop)).map LeafEntry.answer

theorem within_append (entries later : List LeafEntry) :
    within start stop (entries ++ later) = within start stop entries ++ within start stop later := by
  simp [within]

theorem within_eq_nil {entries : List LeafEntry} (h : ∀ entry ∈ entries, ¬(start ≤ entry.key ∧ entry.key < stop)) :
    within start stop entries = [] := by
  rw [within, List.filter_eq_nil_iff.mpr (by simpa using h), List.map_nil]

theorem scanEntries_eq {entries later : List LeafEntry} (hs : Keyed.Sorted LeafEntry.key (entries ++ later))
    (output : List (Bytes × BTreeLookup)) (hroom : output.length < limit) :
    Tree.scanEntries start stop limit entries output =
      ((output ++ within start stop (entries ++ later)).take limit, true) ∨
      (Tree.scanEntries start stop limit entries output = (output ++ within start stop entries, false) ∧
        (output ++ within start stop entries).length < limit) := by
  induction entries generalizing output with
  | nil => exact .inr ⟨by simp [Tree.scanEntries, within], by simpa [within] using hroom⟩
  | cons entry entries ih =>
    obtain ⟨hlater, hs⟩ := List.pairwise_cons.mp hs
    rw [Tree.scanEntries]
    by_cases hstart : entry.key < start
    · have hskip : ∀ rest, within start stop (entry :: rest) = within start stop rest := by
        intro rest
        simp [within, not_le.mpr hstart]
      rw [if_pos hstart, List.cons_append, hskip, hskip]
      exact ih hs output hroom
    rw [if_neg hstart]
    by_cases hstop : stop ≤ entry.key
    · rw [if_pos hstop, within_eq_nil, List.append_nil, List.take_of_length_le hroom.le]
      · exact .inl rfl
      · intro other hother hin
        rcases List.mem_cons.mp hother with rfl | hother
        · exact absurd hin.2 (not_lt.mpr hstop)
        · exact absurd hin.2 (not_lt.mpr (hstop.trans (hlater other hother).le))
    rw [if_neg hstop]
    have hkeep : ∀ rest, output ++ within start stop (entry :: rest) = output ++ [entry.answer] ++
        within start stop rest := by
      intro rest
      simp [within, not_lt.mp hstart, not_le.mp hstop]
    rw [List.cons_append, hkeep, hkeep]
    by_cases hlimit : (output ++ [entry.answer]).length = limit
    · refine .inl ((if_pos hlimit).trans ?_)
      rw [← hlimit, List.take_left]
      rfl
    · have hroom' : (output ++ [entry.answer]).length < limit := by
        simp only [List.length_append, List.length_singleton] at hlimit ⊢
        omega
      rw [if_neg (show ¬(output ++ [(entry.key, entry.value.lookup)]).length = limit from hlimit)]
      exact ih hs (output ++ [entry.answer]) hroom'

/-- The leaves from a page to the end of a range, over the right links. -/
inductive Stretch (tree : Tree) (stop : Bytes) : PageId → ℕ → Prop
  | last {id : PageId} {page : Page} (hpage : tree.pages[id]? = some page)
      (hend : ∀ fence ∈ page.high, stop ≤ fence.key) :
    Stretch tree stop id 1
  | more {id : PageId} {page : Page} {fence : Fence} {n : ℕ} (hpage : tree.pages[id]? = some page)
      (hfence : page.high = some fence)
      (hmore : fence.key < stop) (hrest : Stretch tree stop fence.right n) : Stretch tree stop id (n + 1)

theorem rangeLoop_eq {post : List Node} {node : Node} (hlinked : Each (LeafAt tree) (node :: post))
    (hs : Keyed.Sorted Node.low (node :: post)) {n rounds : ℕ} (hstretch : Stretch tree stop node.id n)
    (hrounds : n ≤ rounds)
    (hstart : ∀ after ∈ post.head?, start < after.low) (output : List (Bytes × BTreeLookup))
    (hroom : output.length < limit) :
    tree.rangeLoop start stop limit rounds node.id output =
      .ok ((output ++ within start stop (entriesOf tree (node :: post))).take limit) := by
  obtain ⟨⟨entries, hget, -⟩, -⟩ := id hlinked
  have hsorted := sorted_entriesOf hlinked hs
  rw [entriesOf_cons, leafEntries_of_get hget] at hsorted ⊢
  obtain ⟨rounds, rfl⟩ : ∃ r, rounds = r + 1 := by
    refine ⟨rounds - 1, ?_⟩
    cases hstretch <;> omega
  induction post generalizing node n rounds output entries with
  | nil =>
    have hhere : (Page.leaf none entries).followRight start = none := followRight_none rfl start
    rw [Tree.rangeLoop, hget]
    dsimp only [List.head?_nil, Option.map_none]
    rw [hhere]
    rcases @scanEntries_eq start stop limit _ _ hsorted output hroom with hscan | ⟨hscan, hlength⟩
    · rw [hscan]
    · rw [hscan, List.take_of_length_le]
      · simp [entriesOf]
      · simpa [entriesOf] using hlength.le
  | cons next post ih =>
    have hhere : (Page.leaf (some next.fence) entries).followRight start = none := by
      rw [followRight_fence (show (Page.leaf (some next.fence) entries).high = some next.fence from rfl) start, if_neg]
      exact not_le.mpr (hstart next (by simp))
    rw [Tree.rangeLoop, hget]
    dsimp only [List.head?_cons, Option.map_some]
    rw [hhere]
    rcases @scanEntries_eq start stop limit _ _ hsorted output hroom with hscan | ⟨hscan, hlength⟩
    · rw [hscan]
    rw [hscan]
    dsimp only
    rw [within_append, ← List.append_assoc]
    obtain ⟨-, hs⟩ := List.pairwise_cons.mp hs
    by_cases hstop : stop ≤ next.fence.key
    · have hlater : within start stop (entriesOf tree (next :: post)) = [] := by
        apply within_eq_nil
        intro entry hentry hin
        exact absurd hin.2 (not_lt.mpr (hstop.trans (le_of_mem_from hlinked.2 hs hentry)))
      rw [if_pos hstop, hlater, List.append_nil, List.take_of_length_le hlength.le]
    rw [if_neg hstop]
    cases hstretch with
    | last hpage hend =>
      cases hget.symm.trans hpage
      exact absurd (hend next.fence rfl) hstop
    | more hpage hfence _ hrest =>
      cases hget.symm.trans hpage
      cases hfence
      obtain ⟨rounds, rfl⟩ : ∃ r, rounds = r + 1 := by
        refine ⟨rounds - 1, ?_⟩
        cases hrest <;> omega
      obtain ⟨⟨entries', hget', -⟩, -⟩ := id hlinked.2
      have hsorted' := sorted_entriesOf hlinked.2 hs
      rw [entriesOf_cons, leafEntries_of_get hget'] at hsorted' ⊢
      refine ih hlinked.2 hs hrest ?_ _ hlength entries' hget' hsorted' rounds (by omega)
      intro after hafter
      exact (hstart next (by simp)).trans ((List.pairwise_cons.mp hs).1 after (List.mem_of_mem_head? hafter))

theorem toList_eq {entries : List LeafEntry} (hs : Keyed.Sorted LeafEntry.key entries) (hsame : Same contents entries) :
    contents.toList = entries.map fun entry => (entry.key, entry.value) := by
  apply OrdMap.eq_of_sorted contents.sorted_toList
  · exact List.pairwise_map.mpr hs
  · rintro ⟨key, value⟩
    rw [OrdMap.mem_toList, hsame, List.mem_map]
    constructor
    · exact fun h => ⟨_, h, rfl⟩
    · rintro ⟨entry, hentry, heq⟩
      cases heq
      exact hentry

theorem Holds.range (h : Holds tree contents) (hlt : start < stop) (hlimit : limit ≠ 0) {n m : ℕ} {id : PageId}
    {path : List PageId}
    {page : Page} (hreach : Reaches tree start n id path) (hpage : tree.pages[id]? = some page)
    (hleaf : page.isLeaf = true)
    (hhere : page.followRight start = none) (hn : n < maxRoutingDepth) (hstretch : Stretch tree stop id m)
    (hm : m ≤ maxRoutingDepth * 1024) :
    tree.range start stop limit = .ok
      (((contents.toList.filter fun binding => decide (start ≤ binding.1 ∧ binding.1 < stop)).map
      fun binding => (binding.1, binding.2.lookup)).take limit) := by
  obtain ⟨leaves, uppers, n', node, pre, post, entries, path', hshape, hsame, hfor, hreach', hfind⟩ := h.leafFor start
  have hlinked := hshape.linked
  have hs := leaves.sorted
  rw [hfor.nodes] at hlinked hs
  -- the search is a function, so the leaf that is near enough is the one in charge
  have hfound := hreach.findLeafPath_leaf hpage hleaf hhere
  rw [if_pos hn, hfind] at hfound
  split at hfound
  · cases hfound
    have hloop := rangeLoop_eq hlinked.tail (List.pairwise_append.mp hs).2.1 hstretch hm
      (range_of_covers hfor.nodes hfor.covers) [] (Nat.pos_of_ne_zero hlimit)
    have hbefore : within start stop (entriesOf tree pre) = [] := by
      apply within_eq_nil
      intro entry hentry hin
      exact absurd hin.1 (not_le.mpr ((lt_of_mem_before hlinked hs hentry).trans_le hfor.covers.2.1))
    rw [Tree.range, if_neg (by simp [hlt, hlimit]), hfind, if_pos (by assumption)]
    dsimp only
    rw [hloop, toList_eq (sorted_entriesOf hshape.linked leaves.sorted) hsame, hfor.nodes, entriesOf_append,
      List.filter_map, List.map_map, List.nil_append]
    show _ = Except.ok ((within start stop (entriesOf tree pre ++ entriesOf tree (node :: post))).take limit)
    rw [within_append, hbefore, List.nil_append]
  · cases hfound

end Range

/-- The writes go from one map to another, and to the second if the operation succeeds. -/
structure Carries {α : Type} (tree : Tree) (plan : Plan α) (before after : OrdMap Bytes LeafValue) : Prop where
  cut : Always (fun tree' => Holds tree' before ∨ Holds tree' after) tree plan.writes
  done : ∀ answer, plan.result = .ok answer → Holds (tree.applyWrites plan.writes) after

section Write

variable {tree : Tree} {contents : OrdMap Bytes LeafValue} {key value : Bytes}

variable {α : Type} {after : OrdMap Bytes LeafValue} {error : BTreeError}

theorem Carries.refused (h : Holds tree contents) :
    Carries tree (⟨[], .error error⟩ : Plan α) contents after := ⟨always_nil.mpr (.inl h), by simp⟩

theorem Carries.stored {write : PageWrite} {answer : α} (h : Holds tree contents)
    (hafter : Holds (tree.applyWrite write) after) : Carries tree ⟨[write], .ok answer⟩ contents after :=
  ⟨always_cons.mpr ⟨.inl h, always_nil.mpr (.inr hafter)⟩, fun _ _ => hafter⟩

/-- The errors of an operation: those of a split, or a leaf too far away. -/
def BTreeError.Known (error : BTreeError) : Prop := error.Refusal ∨ error = .routingDepthExceeded

variable {leaves : Level} {uppers : List Level} {node : Node} {pre post : List Node} {entries : List LeafEntry}
    {path : List PageId}

theorem LeafFor.same_upsert (hshape : Shaped tree leaves uppers)
    (h : LeafFor tree leaves uppers key node pre post entries path)
    (hsame : Same contents (entriesOf tree leaves.nodes)) (value : Bytes) :
    Same (contents.insert key (.inline value))
      (entriesOf tree pre ++ (upsertLeafEntry entries key value ++ entriesOf tree post)) := by
  intro k v
  rw [OrdMap.get_insert, List.mem_append, List.mem_append, mem_upsertLeafEntry h.valid.sorted]
  have hold : contents[k]? = some v ↔ ⟨k, v⟩ ∈ entriesOf tree pre ∨ ⟨k, v⟩ ∈ entries ∨
      ⟨k, v⟩ ∈ entriesOf tree post := by
    rw [hsame k v, h.entriesOf_eq, List.mem_append, List.mem_append]
  by_cases hk : key = k
  · subst hk
    rw [if_pos rfl]
    constructor
    · rintro ⟨rfl⟩
      exact .inr (.inl (.inl rfl))
    · rintro (hmem | (heq | ⟨-, hne⟩) | hmem)
      · exact absurd rfl (h.key_ne hshape (.inl hmem))
      · cases heq
        rfl
      · exact absurd rfl hne
      · exact absurd rfl (h.key_ne hshape (.inr hmem))
  · rw [if_neg hk, hold]
    constructor
    · rintro (hmem | hmem | hmem)
      · exact .inl hmem
      · exact .inr (.inl (.inr ⟨hmem, fun heq => hk heq.symm⟩))
      · exact .inr (.inr hmem)
    · rintro (hmem | (heq | ⟨hmem, -⟩) | hmem)
      · exact .inl hmem
      · cases heq
        exact absurd rfl hk
      · exact .inr (.inl hmem)
      · exact .inr (.inr hmem)

theorem LeafFor.change_upsert (h : LeafFor tree leaves uppers key node pre post entries path)
    (hkey : key.length ≤ u16Max)
    (hvalue : value.length ≤ u16Max) : LeafChange node post (upsertLeafEntry entries key value) where
  valid := h.valid.upsert hkey hvalue
  range := by
    intro entry hentry
    rcases (mem_upsertLeafEntry h.valid.sorted key value entry).mp hentry with rfl | ⟨hentry, -⟩
    · exact ⟨h.covers.2.1, range_of_covers h.nodes h.covers⟩
    · exact h.range entry hentry

theorem LeafFor.holds_store (hshape : Shaped tree leaves uppers)
    (h : LeafFor tree leaves uppers key node pre post entries path)
    (hsame : Same contents (entriesOf tree leaves.nodes)) (hkey : key.length ≤ u16Max) (hvalue : value.length ≤ u16Max)
    (hfit : pageBytes (post.head?.map Node.fence) ((upsertLeafEntry entries key value).map LeafEntry.shape) ≤
      tree.pageSize) :
    Holds (tree.applyWrite (.store node.id (.leaf (post.head?.map Node.fence) (upsertLeafEntry entries key value))))
      (contents.insert key (.inline value)) :=
  holds_iff.mpr ⟨_, hshape.store_leaf h (h.change_upsert hkey hvalue) hfit, h.same_upsert hshape hsame value⟩

theorem LeafFor.carries_split (hshape : Shaped tree leaves uppers)
    (h : LeafFor tree leaves uppers key node pre post entries path)
    (hsame : Same contents (entriesOf tree leaves.nodes)) (hkey : key.length ≤ u16Max)
    (hvalue : value.length ≤ u16Max) :
    Carries tree (tree.splitLeaf node.id (post.head?.map Node.fence) (upsertLeafEntry entries key value) path) contents
        (contents.insert key (.inline value)) ∧
      ∀ error, (tree.splitLeaf node.id (post.head?.map Node.fence) (upsertLeafEntry entries key value) path).result =
        .error error → error.Refusal := by
  obtain ⟨hcut, hdone, herror⟩ := splitLeaf_always hshape h (h.change_upsert hkey hvalue)
  have hafter := h.same_upsert hshape hsame value
  refine ⟨⟨hcut.imp ?_, fun _ hok => holds_iff.mpr ⟨_, hdone hok, hafter⟩⟩, herror⟩
  rintro tree' (hbefore | hentries)
  · exact .inl (holds_iff.mpr ⟨_, hbefore, hsame⟩)
  · exact .inr (holds_iff.mpr ⟨_, hentries, hafter⟩)

theorem validateInlineEntry_eq (key value : Bytes) :
    (validateInlineEntry key value = .ok () ∧ key.length ≤ u16Max ∧ value.length ≤ u16Max) ∨
      validateInlineEntry key value = .error .entryTooLarge := by
  unfold validateInlineEntry
  split
  · exact .inr rfl
  · exact .inl ⟨rfl, by omega, by omega⟩

theorem BTreeError.Refusal.ne_duplicateKey (h : error.Refusal) : error ≠ .duplicateKey := by
  rcases h with rfl | rfl | ⟨_, rfl⟩ <;> simp

theorem LeafFor.exists_iff (hshape : Shaped tree leaves uppers)
    (h : LeafFor tree leaves uppers key node pre post entries path)
    (hsame : Same contents (entriesOf tree leaves.nodes)) :
    (∃ entry ∈ entries, entry.key = key) ↔ ∃ old, contents[key]? = some old := by
  constructor
  · rintro ⟨entry, hentry, rfl⟩
    exact ⟨entry.value, (hsame entry.key entry.value).mpr ((h.mem_iff hshape entry.value).mpr hentry)⟩
  · rintro ⟨old, hold⟩
    exact ⟨⟨key, old⟩, (h.mem_iff hshape old).mp ((hsame key old).mp hold), rfl⟩

theorem Holds.insert (h : Holds tree contents) (key value : Bytes) :
    (∀ error, (tree.insert key value).result = .error error → error.Known ∨ error = .duplicateKey) ∧
      ((∃ old, contents[key]? = some old) → (tree.insert key value).writes = [] ∧
        (tree.insert key value).result ≠ .ok ()) ∧
      (contents[key]? = none → (tree.insert key value).result ≠ .error .duplicateKey ∧
        Carries tree (tree.insert key value) contents (contents.insert key (.inline value))) := by
  obtain ⟨leaves, uppers, n, node, pre, post, entries, path, hshape, hsame, hleaf, hreach, hfind⟩ := h.leafFor key
  rw [Tree.insert]
  rcases validateInlineEntry_eq key value with ⟨hvalid, hkey, hvalue⟩ | hvalid
  swap
  · rw [hvalid]
    exact ⟨fun error herr => .inl (.inl (.inl (Except.error.inj herr).symm)), fun _ => ⟨rfl, by simp⟩, fun _ =>
      ⟨by simp, .refused h⟩⟩
  rw [hvalid, hfind]
  by_cases hn : n < maxRoutingDepth
  swap
  · rw [if_neg hn]
    exact ⟨fun error herr => .inl (.inr (Except.error.inj herr).symm), fun _ => ⟨rfl, by simp⟩, fun _ =>
      ⟨by simp, .refused h⟩⟩
  rw [if_pos hn]
  dsimp only
  rw [tryInsertInline_eq hleaf.valid.sorted hleaf.here hkey hvalue]
  by_cases hthere : ∃ entry ∈ entries, entry.key = key
  · rw [if_pos hthere]
    obtain ⟨old, hold⟩ := (hleaf.exists_iff hshape hsame).mp hthere
    exact ⟨fun error herr => .inr (Except.error.inj herr).symm, fun _ =>
      ⟨rfl, by simp⟩, fun hnone => by simp [hold] at hnone⟩
  rw [if_neg hthere]
  have habsent : ¬∃ old, contents[key]? = some old := fun hsome => hthere ((hleaf.exists_iff hshape hsame).mpr hsome)
  by_cases hfit : pageBytes (post.head?.map Node.fence) ((upsertLeafEntry entries key value).map LeafEntry.shape) ≤
    tree.pageSize
  · rw [if_pos hfit]
    exact ⟨by simp, fun hsome => absurd hsome habsent,
      fun _ => ⟨by simp, .stored h (hleaf.holds_store hshape hsame hkey hvalue hfit)⟩⟩
  · obtain ⟨i, hsearch, -⟩ := search_missing hleaf.valid.sorted fun entry hentry hk => hthere ⟨entry, hentry, hk⟩
    have hins : upsertLeafEntry entries key value = Keyed.insertAt entries i ⟨key, .inline value⟩ := by
      rw [upsertLeafEntry, hsearch]
    obtain ⟨hcarries, hrefusal⟩ := hleaf.carries_split hshape hsame hkey hvalue
    rw [if_neg hfit]
    dsimp only
    rw [hsearch]
    dsimp only
    rw [← hins]
    exact ⟨fun error herr => .inl (.inl (hrefusal error herr)), fun hsome => absurd hsome habsent,
      fun _ => ⟨fun hdup => (hrefusal _ hdup).ne_duplicateKey rfl, hcarries⟩⟩

theorem Holds.upsert (h : Holds tree contents) (key value : Bytes) :
    (∀ error, (tree.upsert key value).result = .error error → error.Known) ∧
      Carries tree (tree.upsert key value) contents (contents.insert key (.inline value)) := by
  obtain ⟨leaves, uppers, n, node, pre, post, entries, path, hshape, hsame, hleaf, hreach, hfind⟩ := h.leafFor key
  rw [Tree.upsert]
  rcases validateInlineEntry_eq key value with ⟨hvalid, hkey, hvalue⟩ | hvalid
  swap
  · rw [hvalid]
    exact ⟨fun error herr => .inl (.inl (Except.error.inj herr).symm), .refused h⟩
  rw [hvalid, hfind]
  by_cases hn : n < maxRoutingDepth
  swap
  · rw [if_neg hn]
    exact ⟨fun error herr => .inr (Except.error.inj herr).symm, .refused h⟩
  rw [if_pos hn]
  dsimp only
  by_cases hfit : pageBytes (post.head?.map Node.fence) ((upsertLeafEntry entries key value).map LeafEntry.shape) ≤
    tree.pageSize
  · rw [buildLeaf_of_le hshape.sized (hleaf.valid.upsert hkey hvalue) hfit]
    exact ⟨by simp, .stored h (hleaf.holds_store hshape hsame hkey hvalue hfit)⟩
  · obtain ⟨error, herr, hsmall, hfence⟩ :=
      buildLeaf_of_lt hshape.sized (hleaf.valid.upsert hkey hvalue) (Nat.lt_of_not_le hfit)
    rw [herr]
    dsimp only
    split
    · split
      · exact ⟨fun error herr => .inl (.inl (Except.error.inj herr).symm), .refused h⟩
      · obtain ⟨hcarries, hrefusal⟩ := hleaf.carries_split hshape hsame hkey hvalue
        exact ⟨fun error herr => .inl (hrefusal error herr), hcarries⟩
    · rw [mapBuildError_of_tooSmall hsmall]
      exact ⟨fun error herr => .inl (.inl (Except.error.inj herr).symm), .refused h⟩

theorem LeafFor.same_erase (hshape : Shaped tree leaves uppers)
    (h : LeafFor tree leaves uppers key node pre post entries path)
    (hsame : Same contents (entriesOf tree leaves.nodes)) {fewer : List LeafEntry}
    (hmem : ∀ entry, entry ∈ fewer ↔ entry ∈ entries ∧ entry.key ≠ key) :
    Same (contents.erase key) (entriesOf tree pre ++ (fewer ++ entriesOf tree post)) := by
  intro k v
  rw [OrdMap.get_erase, List.mem_append, List.mem_append, hmem]
  by_cases hk : key = k
  · subst hk
    rw [if_pos rfl]
    constructor
    · simp
    · rintro (hin | ⟨-, hne⟩ | hin)
      · exact absurd rfl (h.key_ne hshape (.inl hin))
      · exact absurd rfl hne
      · exact absurd rfl (h.key_ne hshape (.inr hin))
  · have hne : (⟨k, v⟩ : LeafEntry).key ≠ key := fun heq => hk heq.symm
    rw [if_neg hk, hsame k v, h.entriesOf_eq, List.mem_append, List.mem_append]
    simp only [hne, ne_eq, not_false_eq_true, and_true]

theorem Holds.delete (h : Holds tree contents) (key : Bytes) :
    (∀ error, (tree.delete key).result = .error error → error = .routingDepthExceeded) ∧
      (∀ removed, (tree.delete key).result = .ok removed → removed = (contents[key]?).isSome) ∧
      Carries tree (tree.delete key) contents (contents.erase key) := by
  obtain ⟨leaves, uppers, n, node, pre, post, entries, path, hshape, hsame, hleaf, hreach, hfind⟩ := h.leafFor key
  rw [Tree.delete, hfind]
  by_cases hn : n < maxRoutingDepth
  swap
  · rw [if_neg hn]
    exact ⟨fun error herr => (Except.error.inj herr).symm, by simp, .refused h⟩
  rw [if_pos hn]
  dsimp only
  rcases removeLeaf_cases hleaf.valid.sorted hleaf.here with ⟨hnone, hremove⟩ | ⟨fewer, hsub, hmem, hthere, hremove⟩
  · have habsent : contents[key]? = none := by
      rw [Option.eq_none_iff_forall_ne_some]
      intro old hold
      obtain ⟨entry, hentry, hk⟩ := (hleaf.exists_iff hshape hsame).mpr ⟨old, hold⟩
      exact hnone entry hentry hk
    have herase : contents.erase key = contents := by
      apply OrdMap.ext_get
      intro k
      rw [OrdMap.get_erase]
      by_cases hk : key = k
      · rw [if_pos hk, ← hk, habsent]
      · rw [if_neg hk]
    rw [hremove, herase]
    refine ⟨by simp, ?_, always_nil.mpr (.inl h), fun _ _ => h⟩
    rintro removed ⟨rfl⟩
    simp [habsent]
  · obtain ⟨old, hold⟩ := (hleaf.exists_iff hshape hsame).mp hthere
    rw [hremove]
    refine ⟨by simp, ?_, .stored h (holds_iff.mpr ⟨_, hshape.store_leaf hleaf ⟨hleaf.valid.sublist hsub, ?_⟩ ?_, ?_⟩)⟩
    · rintro removed ⟨rfl⟩
      simp [hold]
    · exact fun entry hentry => hleaf.range entry ((hmem entry).mp hentry).1
    · exact (pageBytes_sublist LeafEntry.shape _ hsub).trans hleaf.fits
    · exact hleaf.same_erase hshape hsame hmem

end Write

end OmenDb.Vnext
