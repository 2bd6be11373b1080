import OmenDb.Vnext.Preflight
import OmenDb.Vnext.TreeRuns

/-! Calls that a tree refuses. A split is stored page by page on the way up, and a page further up may
still have no room; what the call then leaves is told by the leaf alone. A page that would be split for
its only entry is reported as corrupt. -/
namespace OmenDb.Vnext

open Linked (Each)

section Unique

variable {tree : Tree} {key : Bytes} {n m : ℕ} {id id' : PageId} {path path' : List PageId} {page : Page}

theorem Reaches.id_unique (h : Reaches tree key n id path) (h' : Reaches tree key n id' path') : id = id' := by
  induction h generalizing id' path' with
  | root =>
    cases h'
    rfl
  | right _ hpage hright ih =>
    cases h' with
    | right h' hpage' hright' =>
      obtain rfl := ih h'
      cases hpage.symm.trans hpage'
      exact Option.some.inj (hright.symm.trans hright')
    | down h' hpage' hnone =>
      obtain rfl := ih h'
      cases hpage.symm.trans hpage'
      cases hright.symm.trans hnone
  | down _ hpage hnone _ hchild ih =>
    cases h' with
    | right h' hpage' hright' =>
      obtain rfl := ih h'
      cases hpage.symm.trans hpage'
      cases hright'.symm.trans hnone
    | down h' hpage' _ _ hchild' =>
      obtain rfl := ih h'
      cases hpage.symm.trans hpage'
      exact Except.ok.inj (hchild.symm.trans hchild')

theorem Reaches.le_of_leaf (h : Reaches tree key n id path) (hpage : tree.pages[id]? = some page)
    (hleaf : page.isLeaf = true) (hhere : page.followRight key = none) (h' : Reaches tree key m id' path') : m ≤ n := by
  induction h' with
  | root => exact Nat.zero_le n
  | right hbefore hpage' hright ih =>
    refine Nat.lt_of_le_of_ne ih ?_
    rintro rfl
    obtain rfl := h.id_unique hbefore
    cases hpage.symm.trans hpage'
    cases hhere.symm.trans hright
  | down hbefore hpage' _ hinternal _ ih =>
    refine Nat.lt_of_le_of_ne ih ?_
    rintro rfl
    obtain rfl := h.id_unique hbefore
    cases hpage.symm.trans hpage'
    cases hleaf.symm.trans hinternal

theorem Holds.unique {contents contents' : OrdMap Bytes LeafValue} (h : Holds tree contents)
    (h' : Holds tree contents') : contents = contents' := by
  refine OrdMap.ext_get fun key => Option.ext fun value => ?_
  obtain ⟨leaves, uppers, n, node, pre, post, entries, path, hshape, hsame, hleaf, hreach, -⟩ := h.leafFor key
  obtain ⟨leaves', uppers', m, node', pre', post', entries', path', hshape', hsame', hleaf', hreach', -⟩ :=
    h'.leafFor key
  obtain rfl : n = m :=
    Nat.le_antisymm (hreach'.le_of_leaf hleaf'.page rfl hleaf'.here hreach)
    (hreach.le_of_leaf hleaf.page rfl hleaf.here hreach')
  have hpage := hleaf.page
  rw [hreach.id_unique hreach', hleaf'.page, Option.some.injEq, Page.leaf.injEq] at hpage
  rw [hsame key value, hsame' key value, hleaf.mem_iff hshape, hleaf'.mem_iff hshape', hpage.2]

end Unique

namespace Tree

variable (tree : Tree)

def Absent (key : Bytes) : Prop :=
  ∀ leaf high entries path, tree.findLeafPath key = .ok (leaf, .leaf high entries, path) → ∀ entry ∈ entries,
    entry.key ≠ key

def Full (key value : Bytes) : Prop :=
  validateInlineEntry key value = .ok () ∧ ∃ leaf high entries path, tree.findLeafPath key =
  .ok (leaf, .leaf high entries, path) ∧
    tree.pageSize < pageBytes high ((upsertLeafEntry entries key value).map LeafEntry.shape)

/-- The leaf of a pair is split into halves that fit, and a separator goes up. -/
def SplitsInto (key value : Bytes) (path : List PageId) (separator : Bytes) : Prop :=
  validateInlineEntry key value = .ok () ∧ tree.nextPage ≠ reservedPageId ∧
    ∃ leaf high entries split first, tree.findLeafPath key = .ok (leaf, .leaf high entries, path) ∧
      tree.pageSize < pageBytes high ((upsertLeafEntry entries key value).map LeafEntry.shape) ∧
      chooseLeafSplit (upsertLeafEntry entries key value) = .ok split ∧ (upsertLeafEntry entries key value)[split]? =
      some first ∧
      HalvesFit tree.pageSize high first.key tree.nextPage
      (((upsertLeafEntry entries key value).take split).map LeafEntry.shape)
        (((upsertLeafEntry entries key value).drop split).map LeafEntry.shape) ∧
      first.key = separator

def SplitsLeaf (key value : Bytes) : Prop := ∃ path separator, tree.SplitsInto key value path separator

end Tree

def IsCorruption {α : Type} (result : Except BTreeError α) : Prop :=
  ∃ page reason, result = .error (.corruption page reason)

section Refused

variable {tree : Tree} {contents : OrdMap Bytes LeafValue} {leaves : Level} {uppers : List Level} {key value : Bytes}
    {node : Node}
  {pre post : List Node} {entries : List LeafEntry} {path : List PageId}

theorem Tree.SplitsInto.full {separator : Bytes} (h : tree.SplitsInto key value path separator) :
    tree.Full key value := by
  obtain ⟨hvalid, -, leaf, high, entries, split, first, hfind, hfull, -⟩ := h
  exact ⟨hvalid, leaf, high, entries, path, hfind, hfull⟩

structure FullLeaf (tree : Tree) (leaves : Level) (uppers : List Level) (key value : Bytes) (node : Node)
    (pre post : List Node) (entries : List LeafEntry) (path : List PageId) : Prop where
  shaped : Shaped tree leaves uppers
  leafFor : LeafFor tree leaves uppers key node pre post entries path
  valid : validateInlineEntry key value = .ok ()
  change : LeafChange node post (upsertLeafEntry entries key value)
  found : tree.findLeafPath key = .ok (node.id, .leaf (post.head?.map Node.fence) entries, path)
  full : tree.pageSize < pageBytes (post.head?.map Node.fence) ((upsertLeafEntry entries key value).map LeafEntry.shape)

theorem FullLeaf.splitsInto_iff (h : FullLeaf tree leaves uppers key value node pre post entries path)
    {path' : List PageId} {separator : Bytes} :
    tree.SplitsInto key value path' separator ↔ path = path' ∧ tree.nextPage ≠ reservedPageId ∧
      ∃ split first, chooseLeafSplit (upsertLeafEntry entries key value) = .ok split ∧
        (upsertLeafEntry entries key value)[split]? = some first ∧
        HalvesFit tree.pageSize (post.head?.map Node.fence) first.key tree.nextPage
          (((upsertLeafEntry entries key value).take split).map LeafEntry.shape)
          (((upsertLeafEntry entries key value).drop split).map LeafEntry.shape) ∧
        first.key = separator := by
  constructor
  · rintro ⟨-, hnext, leaf, high, entries', split, first, hfind, -, hrest⟩
    cases h.found.symm.trans hfind
    exact ⟨rfl, hnext, split, first, hrest⟩
  · rintro ⟨rfl, hnext, split, first, hrest⟩
    exact ⟨h.valid, hnext, _, _, _, split, first, h.found, h.full, hrest⟩

theorem Holds.insert_cases (h : Holds tree contents) (key value : Bytes) :
    (∃ leaves uppers node pre post entries path, Same contents (entriesOf tree leaves.nodes) ∧
        FullLeaf tree leaves uppers key value node pre post entries path ∧ (∀ entry ∈ entries, entry.key ≠ key) ∧
        tree.insert key value = tree.splitLeaf node.id (post.head?.map Node.fence)
          (upsertLeafEntry entries key value) path) ∨
      ((tree.Full key value → ¬tree.Absent key ∧ (tree.insert key value).result ≠ .error .entryTooLarge) ∧
        ¬IsCorruption (tree.insert key value).result ∧
        ((tree.insert key value).result = .error .entryTooLarge → (tree.insert key value).writes = [])) := by
  obtain ⟨leaves, uppers, n, node, pre, post, entries, path, hshape, hsame, hleaf, hreach, hfind⟩ := h.leafFor key
  rw [Tree.insert]
  rcases validateInlineEntry_eq key value with ⟨hvalid, hkey, hvalue⟩ | hvalid
  swap
  · rw [hvalid]
    refine .inr ⟨fun hfull => ?_, by simp [IsCorruption], fun _ => rfl⟩
    cases hvalid.symm.trans hfull.1
  rw [hvalid]
  by_cases hn : n < maxRoutingDepth
  swap
  · rw [if_neg hn] at hfind
    rw [hfind]
    refine .inr ⟨?_, by simp [IsCorruption], fun _ => rfl⟩
    rintro ⟨-, leaf, high, entries', path', hfind', -⟩
    cases hfind.symm.trans hfind'
  rw [if_pos hn] at hfind
  rw [hfind]
  dsimp only
  rw [tryInsertInline_eq hleaf.valid.sorted hleaf.here hkey hvalue]
  by_cases hthere : ∃ entry ∈ entries, entry.key = key
  · rw [if_pos hthere]
    obtain ⟨entry, hentry, hk⟩ := hthere
    exact .inr ⟨fun _ => ⟨fun habsent => habsent _ _ _ _ hfind entry hentry hk, by simp⟩, by
      simp [IsCorruption], by simp⟩
  rw [if_neg hthere]
  by_cases hfit : pageBytes (post.head?.map Node.fence) ((upsertLeafEntry entries key value).map LeafEntry.shape) ≤
    tree.pageSize
  · rw [if_pos hfit]
    refine .inr ⟨?_, by simp [IsCorruption], by simp⟩
    rintro ⟨-, leaf, high, entries', path', hfind', hfull⟩
    cases hfind.symm.trans hfind'
    omega
  have hne : ∀ entry ∈ entries, entry.key ≠ key := fun entry hentry hk => hthere ⟨entry, hentry, hk⟩
  obtain ⟨i, hsearch, -⟩ := search_missing hleaf.valid.sorted hne
  rw [if_neg hfit]
  dsimp only
  rw [hsearch]
  refine .inl ⟨leaves, uppers, node, pre, post, entries, path, hsame,
    ⟨hshape, hleaf, hvalid, hleaf.change_upsert hkey hvalue, hfind, Nat.lt_of_not_le hfit⟩, hne, ?_⟩
  rw [upsertLeafEntry, hsearch]

theorem Holds.upsert_cases (h : Holds tree contents) (key value : Bytes) :
    (∃ leaves uppers node pre post entries path, Same contents (entriesOf tree leaves.nodes) ∧
        FullLeaf tree leaves uppers key value node pre post entries path ∧
          2 ≤ (upsertLeafEntry entries key value).length ∧
        tree.upsert key value = tree.splitLeaf node.id (post.head?.map Node.fence)
          (upsertLeafEntry entries key value) path) ∨
      (¬tree.SplitsLeaf key value ∧ ¬IsCorruption (tree.upsert key value).result ∧
        ((tree.upsert key value).result = .error .entryTooLarge → (tree.upsert key value).writes = [])) := by
  obtain ⟨leaves, uppers, n, node, pre, post, entries, path, hshape, hsame, hleaf, hreach, hfind⟩ := h.leafFor key
  rw [Tree.upsert]
  rcases validateInlineEntry_eq key value with ⟨hvalid, hkey, hvalue⟩ | hvalid
  swap
  · rw [hvalid]
    refine .inr ⟨?_, by simp [IsCorruption], fun _ => rfl⟩
    rintro ⟨_, _, hsplits⟩
    cases hvalid.symm.trans hsplits.1
  rw [hvalid]
  by_cases hn : n < maxRoutingDepth
  swap
  · rw [if_neg hn] at hfind
    rw [hfind]
    refine .inr ⟨?_, by simp [IsCorruption], fun _ => rfl⟩
    rintro ⟨path', separator, hsplits⟩
    obtain ⟨-, leaf, high, entries', path', hfind', -⟩ := hsplits.full
    cases hfind.symm.trans hfind'
  rw [if_pos hn] at hfind
  rw [hfind]
  dsimp only
  have hchange := hleaf.change_upsert hkey hvalue
  by_cases hfit : pageBytes (post.head?.map Node.fence) ((upsertLeafEntry entries key value).map LeafEntry.shape) ≤
    tree.pageSize
  · rw [buildLeaf_of_le hshape.sized hchange.valid hfit]
    refine .inr ⟨?_, by simp [IsCorruption], by simp⟩
    rintro ⟨path', separator, hsplits⟩
    obtain ⟨-, leaf, high, entries', path', hfind', hfull⟩ := hsplits.full
    cases hfind.symm.trans hfind'
    omega
  have hfull : FullLeaf tree leaves uppers key value node pre post entries path :=
    ⟨hshape, hleaf, hvalid, hchange, hfind, Nat.lt_of_not_le hfit⟩
  obtain ⟨error, herr, hsmall, hfence⟩ := buildLeaf_of_lt hshape.sized hchange.valid hfull.full
  rw [herr]
  dsimp only
  rw [if_pos (hsmall.leafCapacityError (hfence ((fenceLength_le_pageBytes _ _).trans hleaf.fits)))]
  by_cases hfew : (upsertLeafEntry entries key value).length < 2
  · rw [if_pos hfew]
    refine .inr ⟨?_, by simp [IsCorruption], fun _ => rfl⟩
    rintro ⟨path', separator, hsplits⟩
    obtain ⟨-, -, split, first, hsplit, -⟩ := hfull.splitsInto_iff.mp hsplits
    obtain ⟨hone, hlt⟩ := chooseLeafSplit_one hsplit
    omega
  · rw [if_neg hfew]
    exact .inl ⟨leaves, uppers, node, pre, post, entries, path, hsame, hfull, Nat.le_of_not_lt hfew, rfl⟩

theorem FullLeaf.splitLeaf_tooLarge (h : FullLeaf tree leaves uppers key value node pre post entries path)
    (hsame : Same contents (entriesOf tree leaves.nodes)) {plan : Plan Unit}
    (hplan : plan = tree.splitLeaf node.id (post.head?.map Node.fence) (upsertLeafEntry entries key value) path)
    (hresult : plan.result = .error .entryTooLarge) :
    (tree.SplitsLeaf key value ∧ Holds (tree.applyWrites plan.writes) (contents.insert key (.inline value))) ∨
      (¬tree.SplitsLeaf key value ∧ Holds (tree.applyWrites plan.writes) contents) := by
  have hstep := @splitLeaf_step tree node.id path (post.head?.map Node.fence) _ h.shaped.sized h.change.valid
  rw [← hplan] at hstep
  cases hstep with
  | few | exhausted => cases hresult
  | @tooLarge hnext split first hsplit hget hlarge =>
    refine .inr ⟨?_, holds_iff.mpr ⟨_, h.shaped.holds_frame (fun _ _ => rfl) rfl rfl (Nat.le_succ _)
      (Nat.lt_of_le_of_ne h.shaped.allocatable hnext), hsame⟩⟩
    rintro ⟨path', separator, hsplits⟩
    obtain ⟨-, -, split', first', hsplit', hget', hfits, -⟩ := h.splitsInto_iff.mp hsplits
    cases hsplit.symm.trans hsplit'
    cases hget.symm.trans hget'
    exact hlarge hfits
  | @split hnext split first hsplit hone hget hleft hright writes hwrites rest hrest =>
    subst hrest hwrites
    obtain ⟨hafter, -, -⟩ := h.leafFor.split_always h.shaped h.change hnext hone hget hleft hright rfl
    refine .inl ⟨⟨path, first.key, h.splitsInto_iff.mpr ⟨rfl, hnext, split, first, hsplit, hget, ⟨hleft, hright⟩, rfl⟩⟩,
      ?_⟩
    rw [Tree.applyWrites_append]
    exact holds_iff.mpr ⟨_, hafter.last, h.leafFor.same_upsert h.shaped hsame value⟩

theorem Holds.insert_tooLarge (h : Holds tree contents)
    (hresult : (tree.insert key value).result = .error .entryTooLarge) :
    (tree.SplitsLeaf key value ∧ Holds (tree.applyWrites (tree.insert key value).writes)
      (contents.insert key (.inline value))) ∨
      (¬tree.SplitsLeaf key value ∧ Holds (tree.applyWrites (tree.insert key value).writes) contents) := by
  rcases h.insert_cases key value
    with ⟨leaves, uppers, node, pre, post, entries, path, hsame, hfull, -, hplan⟩ | ⟨hroom, -, hwrites⟩
  · exact hfull.splitLeaf_tooLarge hsame hplan hresult
  · rw [hwrites hresult]
    exact .inr ⟨fun ⟨_, _, hsplits⟩ => (hroom hsplits.full).2 hresult, h⟩

theorem Holds.upsert_tooLarge (h : Holds tree contents)
    (hresult : (tree.upsert key value).result = .error .entryTooLarge) :
    (tree.SplitsLeaf key value ∧ Holds (tree.applyWrites (tree.upsert key value).writes)
      (contents.insert key (.inline value))) ∨
      (¬tree.SplitsLeaf key value ∧ Holds (tree.applyWrites (tree.upsert key value).writes) contents) := by
  rcases h.upsert_cases key value
    with ⟨leaves, uppers, node, pre, post, entries, path, hsame, hfull, -, hplan⟩ | ⟨hnot, -, hwrites⟩
  · exact hfull.splitLeaf_tooLarge hsame hplan hresult
  · rw [hwrites hresult]
    exact .inr ⟨hnot, h⟩

def Call.Writes (key value : Bytes) (call : Call) : Prop := call = .insert key value ∨ call = .upsert key value

/-- A write that is refused as too large leaves the map as it was exactly when it has not come so far as
to split the leaf, or writes what the key is bound to. -/
theorem refused_write_keeps_map_iff (h : Holds tree contents) {call : Call} (hcall : call.Writes key value)
    (hresult : (tree.plan call).result = .error .entryTooLarge) :
    Holds (tree.applyWrites (tree.plan call).writes) contents ↔ ¬tree.SplitsLeaf key value ∨
      contents[key]? = some (.inline value) := by
  have hcases : (tree.SplitsLeaf key value ∧
    Holds (tree.applyWrites (tree.plan call).writes) (contents.insert key (.inline value))) ∨
      (¬tree.SplitsLeaf key value ∧ Holds (tree.applyWrites (tree.plan call).writes) contents) := by
    rcases hcall with rfl | rfl
    · exact h.insert_tooLarge (insertAnswer_error hresult).1
    · refine h.upsert_tooLarge ?_
      cases hupsert : (tree.upsert key value).result with
      | ok => simp [Tree.plan, hupsert, Except.map] at hresult
      | error error => simpa [Tree.plan, hupsert, Except.map] using hresult
  rcases hcases with ⟨hsplits, hafter⟩ | ⟨hsplits, hafter⟩
  · constructor
    · intro hbefore
      refine .inr ?_
      rw [hbefore.unique hafter, OrdMap.get_insert_self]
    · rintro (hnot | hold)
      · exact absurd hsplits hnot
      · have hinsert : contents.insert key (.inline value) = contents := by
          refine OrdMap.ext_get fun k => ?_
          rw [OrdMap.get_insert]
          by_cases hk : key = k
          · rw [if_pos hk, ← hk, hold]
          · rw [if_neg hk]
        rwa [hinsert] at hafter
  · exact iff_of_true hafter (.inl hsplits)

end Refused

def freshSmall : Tree := ⟨100, (∅ : OrdMap PageId Page).insert 0 (.leaf none []), 0, 1⟩

theorem create_small : Tree.create 100 = .ok freshSmall := rfl

/-- A pair too large for any leaf is refused, and the entry beside it stays. -/
theorem refused_write_keeps_map_iff_second :
    ∃ tree contents, freshSmall.runCalls [.insert [1] [9]] = some ([.done], tree) ∧
    tree.lookup [1] = .ok (.found [9]) ∧ (tree.plan (.upsert [2] (List.replicate 40 0))).result =
      .error .entryTooLarge ∧
    (Holds (tree.applyWrites (tree.plan (.upsert [2] (List.replicate 40 0))).writes) contents ↔
      ¬tree.SplitsLeaf [2] (List.replicate 40 0) ∨
        contents[([2] : Bytes)]? = some (.inline (List.replicate 40 0))) := by
  have hrun : freshSmall.runCalls [.insert [1] [9]] =
    some ([.done], freshSmall.applyWrites (freshSmall.plan (.insert [1] [9])).writes) := rfl
  have hholds := ((create_holds create_small).runCalls hrun).2
  exact ⟨_, _, hrun, by decide +kernel, by decide +kernel,
    refused_write_keeps_map_iff hholds (.inr rfl) (by decide +kernel)⟩

/-- A second key, of 20 bytes: the two entries fit the halves of the leaf, and the separator does not fit a root. -/
theorem refused_upsert_is_read : ∃ tree contents, freshSmall.runCalls [.insert [1] []] = some ([.done], tree) ∧
    Holds tree contents ∧
    (tree.plan (.upsert (List.replicate 20 2) [])).result = .error .entryTooLarge ∧ tree.lookup (List.replicate 20 2) =
      .ok .notFound ∧
    (tree.applyWrites (tree.plan (.upsert (List.replicate 20 2) [])).writes).lookup (List.replicate 20 2) =
      .ok (.found []) ∧
    ¬Holds (tree.applyWrites (tree.plan (.upsert (List.replicate 20 2) [])).writes) contents := by
  have hrun : freshSmall.runCalls [.insert [1] []] =
    some ([.done], freshSmall.applyWrites (freshSmall.plan (.insert [1] [])).writes) := rfl
  have hholds := ((create_holds create_small).runCalls hrun).2
  refine ⟨_, _, hrun, hholds, by decide +kernel, by decide +kernel, by decide +kernel, fun hafter => ?_⟩
  have hread := @Holds.lookup_ok _ _ hafter (List.replicate 20 2) (.found []) (by decide +kernel)
  exact absurd hread (by decide +kernel)

namespace Tree

variable (tree : Tree)

/-- A page on the way up is full with the separator alone. -/
def AncestorCramped : List PageId → Bytes → PageId → Prop
  | [], _, _ => False
  | parent :: path, separator, right =>
    match tree.pages[parent]? with
    | some (.internal high _ entries) =>
      match search InternalEntry.key entries separator with
      | .missing i =>
        let entries := Keyed.insertAt entries i ⟨separator, right⟩
        tree.pageSize < pageBytes high (entries.map InternalEntry.shape) ∧
          (entries.length < 2 ∨ right + 1 ≠ reservedPageId ∧
            ∃ split promoted, chooseInternalSplit entries = .ok split ∧ entries[split]? = some promoted ∧
              HalvesFit tree.pageSize high promoted.key (right + 1) ((entries.take split).map InternalEntry.shape)
                ((entries.drop (split + 1)).map InternalEntry.shape) ∧
              AncestorCramped path promoted.key (right + 1))
      | .found _ => False
    | _ => False

/-- The leaf of a pair is split, and a page above it is full with the separator alone. -/
def SplitsCramped (key value : Bytes) : Prop :=
  ∃ path separator, tree.SplitsInto key value path separator ∧ tree.AncestorCramped path separator tree.nextPage

/-- The leaf of a pair is empty, and the pair does not fit it. -/
def LeafCramped (key value : Bytes) : Prop :=
  validateInlineEntry key value = .ok () ∧ ∃ leaf high path, tree.findLeafPath key = .ok (leaf, .leaf high [], path) ∧
    tree.pageSize < pageBytes high [(⟨key, .inline value⟩ : LeafEntry).shape]

end Tree

inductive Operation
  | call (action : Call)
  | lookup (key : Bytes)
  | range (start stop : Bytes) (limit : ℕ)

def Operation.Corrupt (tree : Tree) : Operation → Prop
  | call action => IsCorruption (tree.plan action).result
  | lookup key => IsCorruption (tree.lookup key)
  | range start stop limit => IsCorruption (tree.range start stop limit)

def Operation.Cramped (tree : Tree) : Operation → Prop
  | call (.insert key value) => tree.Absent key ∧ (tree.LeafCramped key value ∨ tree.SplitsCramped key value)
  | call (.upsert key value) => tree.SplitsCramped key value
  | call (.delete _) | lookup _ | range _ _ _ => False

section Corrupt

variable {tree : Tree} {contents : OrdMap Bytes LeafValue} {leaves : Level} {uppers : List Level} {key value : Bytes}
    {node : Node}
  {pre post : List Node} {entries : List LeafEntry} {path : List PageId}

theorem Tree.ancestorCramped_congr {tree' : Tree} (hsize : tree'.pageSize = tree.pageSize) {path : List PageId}
    (hpages : ∀ id ∈ path, tree'.pages[id]? = tree.pages[id]?) (separator : Bytes) (right : PageId) :
    tree'.AncestorCramped path separator right ↔ tree.AncestorCramped path separator right := by
  induction path generalizing separator right with
  | nil => rfl
  | cons parent path ih =>
    have hrest := ih fun id hid => hpages id (List.mem_cons_of_mem _ hid)
    rw [AncestorCramped, AncestorCramped, hpages parent (by simp), hsize]
    simp only [hrest]

theorem Ascent.propagateSplit_cramped {below below' : Level} {separator : Bytes} {right : PageId}
    (h : Ascent tree below below' uppers path separator right) (hlast : tree.nextPage = right + 1) :
    IsCorruption (tree.propagateSplit path separator right).result ↔ tree.AncestorCramped path separator right := by
  induction uppers generalizing tree below below' path separator right with
  | nil =>
    cases h.covered
    rw [Tree.AncestorCramped]
    rcases propagateSplit_root h.sized (h.id_ne (h.sub h.stack)) (h.id_ne h.node) (below'.short _ h.node) with
      ⟨-, hplan⟩ | ⟨-, -, hplan⟩ | ⟨-, -, hplan⟩
    all_goals simp [hplan, IsCorruption]
  | cons above rest ih =>
    obtain ⟨node, pre, post, leftmost, entries, path, i, rfl, hparent⟩ := h.parent
    rw [Tree.AncestorCramped, hparent.page]
    dsimp only
    rw [hparent.slot]
    dsimp only
    rw [← hlast]
    have hstep := hparent.step
    generalize tree.propagateSplit (node.id :: path) separator right = plan at hstep ⊢
    cases hstep with
    | inserted hfit => exact iff_of_false (by simp [IsCorruption]) fun hcramped => absurd hfit (not_le.mpr hcramped.1)
    | few hfull hlength => exact iff_of_true ⟨_, _, rfl⟩ ⟨hfull, .inl hlength⟩
    | exhausted hfull hlength hnext =>
      refine iff_of_false (by simp [IsCorruption]) ?_
      rintro ⟨-, hfew | ⟨hleft, -⟩⟩
      · omega
      · exact hleft hnext
    | @tooLarge hfull hnext split promoted hsplit hpromoted hlarge =>
      refine iff_of_false (by simp [IsCorruption]) ?_
      rintro ⟨-, hfew | ⟨-, split', promoted', hsplit', hpromoted', hfits, -⟩⟩
      · obtain ⟨hone, hlt⟩ := chooseInternalSplit_one hsplit; omega
      · cases hsplit.symm.trans hsplit'
        cases hpromoted.symm.trans hpromoted'
        exact hlarge hfits
    | @split hfull hnext split promoted hsplit hpromoted hfitLeft hfitRight writes hwrites plan hplan =>
      obtain ⟨above', -, hnew⟩ :=
        hparent.ascent h hnext (List.mem_of_getElem? hpromoted) (congrArg tree.applyWrites hwrites)
      subst hplan hwrites
      refine (ih hnew rfl).trans ((Tree.ancestorCramped_congr (pageSize_splitWrites ..)
        (fun _ hid => h.stack.2.2.get_split h.stack.1 hparent.covers.1 hparent.covered _ _ hid) _ _).trans
        ⟨fun hcramped => ?_, ?_⟩)
      · exact ⟨hfull, .inr ⟨hnext, split, promoted, hsplit, hpromoted, ⟨hfitLeft, hfitRight⟩, hcramped⟩⟩
      · rintro ⟨-, hfew | ⟨-, split', promoted', hsplit', hpromoted', -, hcramped⟩⟩
        · obtain ⟨hone, hlt⟩ := chooseInternalSplit_one hsplit; omega
        · cases hsplit.symm.trans hsplit'
          cases hpromoted.symm.trans hpromoted'
          exact hcramped

/-- A leaf split reports corruption exactly when it has one entry, or a page above is full with the separator alone. -/
theorem FullLeaf.splitLeaf_cramped (h : FullLeaf tree leaves uppers key value node pre post entries path) :
    IsCorruption (tree.splitLeaf node.id (post.head?.map Node.fence) (upsertLeafEntry entries key value) path).result ↔
      (upsertLeafEntry entries key value).length < 2 ∨ tree.SplitsCramped key value := by
  have hstep := @splitLeaf_step tree node.id path (post.head?.map Node.fence) _ h.shaped.sized h.change.valid
  generalize tree.splitLeaf node.id (post.head?.map Node.fence) (upsertLeafEntry entries key value) path =
    plan at hstep ⊢
  cases hstep with
  | few hfew => exact iff_of_true ⟨_, _, rfl⟩ (.inl hfew)
  | exhausted hlength hnext =>
    refine iff_of_false (by simp [IsCorruption]) ?_
    rintro (hfew | ⟨path', separator, hsplits, -⟩)
    · omega
    · exact (h.splitsInto_iff.mp hsplits).2.1 hnext
  | @tooLarge hnext split first hsplit hget hlarge =>
    refine iff_of_false (by simp [IsCorruption]) ?_
    rintro (hfew | ⟨path', separator, hsplits, -⟩)
    · obtain ⟨hone, hlt⟩ := chooseLeafSplit_one hsplit; omega
    · obtain ⟨-, -, split', first', hsplit', hget', hfits, -⟩ := h.splitsInto_iff.mp hsplits
      cases hsplit.symm.trans hsplit'
      cases hget.symm.trans hget'
      exact hlarge hfits
  | @split hnext split first hsplit hone hget hfitLeft hfitRight writes hwrites plan hplan =>
    obtain ⟨leaves', -, hnew⟩ := h.leafFor.ascent h.shaped h.change hnext hone hget (congrArg tree.applyWrites hwrites)
    subst hplan hwrites
    refine (hnew.propagateSplit_cramped rfl).trans ((Tree.ancestorCramped_congr (pageSize_splitWrites ..)
      (fun _ hid => h.shaped.stack.get_split h.shaped.known h.leafFor.covers.1 h.leafFor.covered _ _ hid) _ _).trans
      ⟨fun hcramped => .inr ?_, ?_⟩)
    · exact ⟨path, first.key, h.splitsInto_iff.mpr ⟨rfl, hnext, split, first, hsplit, hget, ⟨hfitLeft, hfitRight⟩, rfl⟩,
        hcramped⟩
    · rintro (hfew | ⟨path', separator, hsplits, hcramped⟩)
      · obtain ⟨-, hlt⟩ := chooseLeafSplit_one hsplit; omega
      · obtain ⟨rfl, -, split', first', hsplit', hget', -, rfl⟩ := h.splitsInto_iff.mp hsplits
        cases hsplit.symm.trans hsplit'
        cases hget.symm.trans hget'
        exact hcramped

theorem FullLeaf.leafCramped_iff (h : FullLeaf tree leaves uppers key value node pre post entries path)
    (hne : ∀ entry ∈ entries, entry.key ≠ key) : (upsertLeafEntry entries key value).length < 2 ↔
      tree.LeafCramped key value := by
  obtain ⟨i, hsearch, -⟩ := search_missing h.leafFor.valid.sorted hne
  have hins : upsertLeafEntry entries key value = Keyed.insertAt entries i ⟨key, .inline value⟩ := by
    rw [upsertLeafEntry, hsearch]
  have hlength : (upsertLeafEntry entries key value).length = entries.length + 1 := by
    simp [hins, Keyed.insertAt]
    omega
  rw [hlength]
  constructor
  · intro hfew
    obtain rfl : entries = [] := List.length_eq_zero_iff.mp (by omega)
    have hfull := h.full
    rw [hins, Keyed.insertAt, List.take_nil, List.drop_nil] at hfull
    exact ⟨h.valid, _, _, _, h.found, hfull⟩
  · rintro ⟨-, leaf, high, path', hfind, -⟩
    cases h.found.symm.trans hfind
    simp

theorem Holds.insert_cramped (h : Holds tree contents) (key value : Bytes) :
    IsCorruption (tree.insert key value).result ↔ tree.Absent key ∧
      (tree.LeafCramped key value ∨ tree.SplitsCramped key value) := by
  rcases h.insert_cases key value
    with ⟨leaves, uppers, node, pre, post, entries, path, -, hfull, hne, hplan⟩ | ⟨hroom, hquiet, -⟩
  · have habsent : tree.Absent key := by
      intro leaf high entries' path' hfind
      cases hfull.found.symm.trans hfind
      exact hne
    rw [hplan, hfull.splitLeaf_cramped, hfull.leafCramped_iff hne, and_iff_right habsent]
  · refine iff_of_false hquiet ?_
    rintro ⟨habsent, hleaf | ⟨path', separator, hsplits, -⟩⟩
    · obtain ⟨hvalid, leaf, high, path, hfind, hlt⟩ := hleaf
      exact (hroom ⟨hvalid, leaf, high, [], path, hfind, hlt⟩).1 habsent
    · exact (hroom hsplits.full).1 habsent

theorem Holds.upsert_cramped (h : Holds tree contents) (key value : Bytes) :
    IsCorruption (tree.upsert key value).result ↔ tree.SplitsCramped key value := by
  rcases h.upsert_cases key value
    with ⟨leaves, uppers, node, pre, post, entries, path, -, hfull, hlength, hplan⟩ | ⟨hnot, hquiet, -⟩
  · rw [hplan, hfull.splitLeaf_cramped, or_iff_right (Nat.not_lt.mpr hlength)]
  · refine iff_of_false hquiet ?_
    rintro ⟨path', separator, hsplits, -⟩
    exact hnot ⟨path', separator, hsplits⟩

theorem not_isCorruption_rangeLoop {start stop : Bytes} {limit : ℕ} (hlinked : Each (LeafAt tree) (node :: post))
    (rounds : ℕ)
    (output : List (Bytes × BTreeLookup)) : ¬IsCorruption (tree.rangeLoop start stop limit rounds node.id output) := by
  induction rounds generalizing node post output with
  | zero => simp [Tree.rangeLoop, IsCorruption]
  | succ rounds ih =>
    obtain ⟨⟨entries, hpage, -⟩, hrest⟩ := id hlinked
    rw [Tree.rangeLoop, hpage]
    dsimp only
    cases post with
    | nil =>
      rw [followRight_none rfl]
      rcases hscan : Tree.scanEntries start stop limit entries output with ⟨output', done⟩
      cases done <;> simp [IsCorruption]
    | cons next post =>
      rw [followRight_fence (show (Page.leaf ((next :: post).head?.map Node.fence) entries).high =
        some next.fence from rfl)]
      by_cases hright : next.low ≤ start
      · rw [if_pos hright]
        exact ih hrest output
      rw [if_neg hright]
      rcases hscan : Tree.scanEntries start stop limit entries output with ⟨output', done⟩
      cases done with
      | true => simp [IsCorruption]
      | false =>
        dsimp only [List.head?_cons, Option.map_some]
        by_cases hstop : stop ≤ next.fence.key
        · simp [hstop, IsCorruption]
        · rw [if_neg hstop]
          exact ih hrest output'

theorem Holds.not_isCorruption_range (h : Holds tree contents) (start stop : Bytes) (limit : ℕ) :
    ¬IsCorruption (tree.range start stop limit) := by
  obtain ⟨leaves, uppers, n, node, pre, post, entries, path, hshape, -, hleaf, -, hfind⟩ := h.leafFor start
  have hlinked := hshape.linked
  rw [hleaf.nodes] at hlinked
  rw [Tree.range]
  split
  · simp [IsCorruption]
  · rw [hfind]
    by_cases hn : n < maxRoutingDepth
    · rw [if_pos hn]
      exact not_isCorruption_rangeLoop hlinked.tail _ _
    · simp [hn, IsCorruption]

theorem Holds.corrupt_iff (h : Holds tree contents) (operation : Operation) :
    operation.Corrupt tree ↔ operation.Cramped tree := by
  cases operation with
  | call action =>
    cases action with
    | insert key value =>
      refine Iff.trans ?_ (h.insert_cramped key value)
      constructor
      · rintro ⟨page, reason, hanswer⟩
        exact ⟨page, reason, (insertAnswer_error hanswer).1⟩
      · rintro ⟨page, reason, hresult⟩
        exact ⟨page, reason, by rw [Tree.plan, hresult]; rfl⟩
    | upsert key value =>
      refine Iff.trans ?_ (h.upsert_cramped key value)
      cases hresult : (tree.upsert key value).result
        <;> simp [Operation.Corrupt, IsCorruption, Tree.plan, hresult, Except.map]
    | delete key =>
      refine iff_of_false ?_ id
      cases hresult : (tree.delete key).result with
      | ok was => simp [Operation.Corrupt, IsCorruption, Tree.plan, hresult, Except.map]
      | error error =>
        obtain rfl := (h.delete key).1 error hresult
        simp [Operation.Corrupt, IsCorruption, Tree.plan, hresult, Except.map]
  | lookup key =>
    refine iff_of_false ?_ id
    obtain ⟨n, -, hlookup⟩ := h.lookup key
    by_cases hn : n < maxRoutingDepth <;> simp [Operation.Corrupt, IsCorruption, hlookup, hn]
  | range start stop limit => exact iff_of_false (h.not_isCorruption_range start stop limit) id

def Tree.runAll (tree : Tree) (calls : List Call) : Tree := calls.foldl (fun tree call => tree.after (.whole call)) tree

theorem Holds.runAll (h : Holds tree contents) (calls : List Call) :
    ∃ contents', Holds (tree.runAll calls) contents' := by
  induction calls generalizing tree contents with
  | nil => exact ⟨contents, h⟩
  | cons call calls ih =>
    obtain ⟨contents', -, hholds⟩ := h.event (.whole call)
    exact ih hholds

/-- A tree that calls made reports corruption exactly when a page is full with one entry. -/
theorem corruption_iff_cramped {pageSize : ℕ} {fresh : Tree} (hcreate : Tree.create pageSize = .ok fresh)
    (calls : List Call)
    (operation : Operation) : operation.Corrupt (fresh.runAll calls) ↔ operation.Cramped (fresh.runAll calls) := by
  obtain ⟨contents, hholds⟩ := (create_holds hcreate).runAll calls
  exact hholds.corrupt_iff operation

end Corrupt

theorem corruption_iff_cramped_insert :
    Operation.Cramped (freshSmall.runAll []) (.call (.insert [1] (List.replicate 40 0))) ∧
      ¬Operation.Cramped (freshSmall.runAll [.insert [1] []]) (.call (.insert [2] [])) := by
  have hdone : ((freshSmall.runAll [.insert [1] []]).plan (.insert [2] [])).result = .ok .done := by decide +kernel
  refine ⟨(corruption_iff_cramped create_small [] _).mp ⟨0, .fewEntries, by decide +kernel⟩, fun hcramped => ?_⟩
  obtain ⟨page, reason, hcorrupt⟩ := (corruption_iff_cramped create_small _ _).mpr hcramped
  cases hdone.symm.trans hcorrupt

/-- The pair does not fit a leaf of its own; an upsert of it is refused as too large. -/
theorem insert_reports_corruption :
    Operation.Corrupt (freshSmall.runAll []) (.call (.insert [1] (List.replicate 40 0))) ∧
    ((freshSmall.runAll []).plan (.upsert [1] (List.replicate 40 0))).result = .error .entryTooLarge :=
  ⟨⟨0, .fewEntries, by decide +kernel⟩, by decide +kernel⟩

end OmenDb.Vnext
