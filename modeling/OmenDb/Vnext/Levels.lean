import OmenDb.Lib.Linked
import OmenDb.Vnext.Tree

/-! The shape of a tree: levels of pages from the leaves up, each a chain over the whole key space
whose fences are where the next page starts. A page's separators name pages of the level below, but
a page need not be named: a reader gets to it over the right links. So a split whose separator never
arrived leaves a tree of the same shape. -/
namespace OmenDb.Vnext

open Linked (Each Covers)

structure Node where
  low : Bytes
  id : PageId
  deriving DecidableEq

def Node.fence (node : Node) : Fence := ⟨node.low, node.id⟩

def InternalEntry.node (entry : InternalEntry) : Node := ⟨entry.key, entry.child⟩

/-- A level starts at the least key, and its pages follow each other in key order. -/
structure Level where
  nodes : List Node
  sorted : Keyed.Sorted Node.low nodes
  first : ∃ id, ⟨[], id⟩ ∈ nodes
  distinct : (nodes.map Node.id).Nodup
  short : ∀ node ∈ nodes, node.low.length ≤ u16Max

def levelIds (levels : List Level) : List PageId := levels.flatMap fun level => level.nodes.map Node.id

/-- The leaf of a node that is followed by `next`. -/
def LeafAt (tree : Tree) (node : Node) (next : Option Node) : Prop :=
  ∃ entries, tree.pages[node.id]? = some (.leaf (next.map Node.fence) entries) ∧ LeafEntries entries ∧
    pageBytes (next.map Node.fence) (entries.map LeafEntry.shape) ≤ tree.pageSize ∧
    ∀ entry ∈ entries, node.low ≤ entry.key ∧ ∀ after ∈ next, entry.key < after.low

/-- The internal page of a node, over the level of its children. -/
def InternalAt (tree : Tree) (below : Level) (node : Node) (next : Option Node) : Prop :=
  ∃ leftmost entries, tree.pages[node.id]? = some (.internal (next.map Node.fence) leftmost entries) ∧
    InternalEntries entries ∧
    pageBytes (next.map Node.fence) (entries.map InternalEntry.shape) ≤ tree.pageSize ∧
    ⟨node.low, leftmost⟩ ∈ below.nodes ∧
    ∀ entry ∈ entries, node.low < entry.key ∧ (∀ after ∈ next, entry.key < after.low) ∧ entry.node ∈ below.nodes

/-- The pages of a level are allocated, and none of them is in a level above. -/
def Known (tree : Tree) (level : Level) (above : List Level) : Prop :=
  ∀ node ∈ level.nodes, node.id < tree.nextPage ∧ node.id ∉ levelIds above

/-- The levels over a level, up to the one that starts at the root. -/
def Stack (tree : Tree) (below : Level) : List Level → Prop
  | [] => ⟨[], tree.root⟩ ∈ below.nodes
  | above :: rest => Known tree above rest ∧ Each (InternalAt tree below) above.nodes ∧ Stack tree above rest

structure Shaped (tree : Tree) (leaves : Level) (uppers : List Level) : Prop where
  sized : PageSized tree.pageSize
  allocatable : tree.nextPage ≤ reservedPageId
  known : Known tree leaves uppers
  linked : Each (LeafAt tree) leaves.nodes
  stack : Stack tree leaves uppers

def leafEntries (tree : Tree) (node : Node) : List LeafEntry :=
  match tree.pages[node.id]? with
  | some (.leaf _ entries) => entries
  | _ => []

def entriesOf (tree : Tree) (nodes : List Node) : List LeafEntry := nodes.flatMap (leafEntries tree)

def Holds (tree : Tree) (contents : OrdMap Bytes LeafValue) : Prop :=
  ∃ leaves uppers, Shaped tree leaves uppers ∧
    ∀ (key : Bytes) value, contents[key]? = some value ↔ ⟨key, value⟩ ∈ entriesOf tree leaves.nodes

section Frame

variable {tree tree' : Tree}

variable {node : Node} {next : Option Node} {below below' : Level} {uppers : List Level}

theorem LeafAt.frame (h : LeafAt tree node next) (hsize : tree'.pageSize = tree.pageSize)
    (hpage : tree'.pages[node.id]? = tree.pages[node.id]?) : LeafAt tree' node next := by
  obtain ⟨entries, hget, he, hfit, hrange⟩ := h
  exact ⟨entries, hpage.trans hget, he, hsize ▸ hfit, hrange⟩

theorem InternalAt.frame (h : InternalAt tree below node next)
    (hsize : tree'.pageSize = tree.pageSize) (hpage : tree'.pages[node.id]? = tree.pages[node.id]?) :
    InternalAt tree' below node next := by
  obtain ⟨leftmost, entries, hget, he, hfit, hrest⟩ := h
  exact ⟨leftmost, entries, hpage.trans hget, he, hsize ▸ hfit, hrest⟩

theorem InternalAt.mono (h : InternalAt tree below node next)
    (hsub : below.nodes ⊆ below'.nodes) : InternalAt tree below' node next := by
  obtain ⟨leftmost, entries, hget, he, hfit, hleft, hrange⟩ := h
  refine ⟨leftmost, entries, hget, he, hfit, hsub hleft, ?_⟩
  intro entry hentry
  obtain ⟨hlow, hhigh, hnode⟩ := hrange entry hentry
  exact ⟨hlow, hhigh, hsub hnode⟩

theorem Known.frame {level : Level} {above : List Level} (h : Known tree level above)
    (hnext : tree.nextPage ≤ tree'.nextPage) :
    Known tree' level above := fun node hnode => ⟨(h node hnode).1.trans_le hnext, (h node hnode).2⟩

theorem mem_levelIds_cons {id : PageId} {above : Level} {rest : List Level} :
    id ∈ levelIds (above :: rest) ↔ id ∈ above.nodes.map Node.id ∨ id ∈ levelIds rest := by
  simp [levelIds]

theorem Stack.frame (h : Stack tree below uppers) (hsize : tree'.pageSize = tree.pageSize)
    (hroot : tree'.root = tree.root) (hnext : tree.nextPage ≤ tree'.nextPage)
    (hpages : ∀ id ∈ levelIds uppers, tree'.pages[id]? = tree.pages[id]?) : Stack tree' below uppers := by
  induction uppers generalizing below with
  | nil =>
    rw [Stack, hroot]
    exact h
  | cons above rest ih =>
    obtain ⟨hknown, hlinked, hstack⟩ := h
    refine ⟨hknown.frame hnext, ?_, ih hstack fun id hid => hpages id (mem_levelIds_cons.mpr (.inr hid))⟩
    apply hlinked.imp
    intro node hnode next hat
    exact hat.frame hsize (hpages node.id (mem_levelIds_cons.mpr (.inl (List.mem_map_of_mem hnode))))

theorem Stack.mono (h : Stack tree below uppers)
    (hsub : below.nodes ⊆ below'.nodes) : Stack tree below' uppers := by
  cases uppers with
  | nil => exact hsub h
  | cons above rest => exact ⟨h.1, h.2.1.imp fun _ _ _ hat => hat.mono hsub, h.2.2⟩

end Frame

theorem Level.exists_insert {level : Level} {pre post : List Node} {node new : Node}
    (hnodes : level.nodes = pre ++ node :: post)
    (hlow : node.low < new.low) (hpost : ∀ after ∈ post, new.low < after.low)
    (hid : ∀ old ∈ level.nodes, old.id ≠ new.id)
    (hshort : new.low.length ≤ u16Max) : ∃ level' : Level, level'.nodes = pre ++ node :: new :: post := by
  have hs := level.sorted
  have hd := level.distinct
  have hperm : (pre ++ node :: new :: post).Perm (new :: level.nodes) := by
    rw [hnodes]
    simpa using @List.perm_middle _ new (pre ++ [node]) post
  have hmem : ∀ old ∈ pre ++ node :: new :: post, old = new ∨ old ∈ level.nodes := by
    intro old hold
    simpa using hperm.mem_iff.mp hold
  refine ⟨⟨pre ++ node :: new :: post, ?_, ?_, ?_, ?_⟩, rfl⟩
  · rw [hnodes] at hs
    obtain ⟨hpre, hrest, hacross⟩ := List.pairwise_append.mp hs
    obtain ⟨hnode, htail⟩ := List.pairwise_cons.mp hrest
    refine List.pairwise_append.mpr ⟨hpre, ?_, ?_⟩
    · refine List.pairwise_cons.mpr ⟨?_, List.pairwise_cons.mpr ⟨hpost, htail⟩⟩
      intro after hafter
      rcases List.mem_cons.mp hafter with rfl | hafter
      · exact hlow
      · exact hnode after hafter
    · intro before hbefore after hafter
      have hlt := hacross before hbefore node (by simp)
      rcases List.mem_cons.mp hafter with rfl | hafter
      · exact hlt
      rcases List.mem_cons.mp hafter with rfl | hafter
      · exact hlt.trans hlow
      · exact hacross before hbefore after (by simp [hafter])
  · obtain ⟨id, hfirst⟩ := level.first
    exact ⟨id, hperm.mem_iff.mpr (by simp [hfirst])⟩
  · have hnodup : ((new :: level.nodes).map Node.id).Nodup := by
      rw [List.map_cons, List.nodup_cons]
      refine ⟨?_, hd⟩
      intro hnew
      obtain ⟨old, hold, heq⟩ := List.mem_map.mp hnew
      exact hid old hold heq
    exact (hperm.map Node.id).nodup_iff.mpr hnodup
  · intro old hold
    rcases hmem old hold with rfl | hold
    · exact hshort
    · exact level.short old hold

/-- After passing `n` pages the search for the key is at page `id`, with the pages it went down from
in `path`, lowest first. -/
inductive Reaches (tree : Tree) (key : Bytes) : ℕ → PageId → List PageId → Prop
  | root : Reaches tree key 0 tree.root []
  | right {n : ℕ} {id right : PageId} {path : List PageId} {page : Page} (h : Reaches tree key n id path)
      (hpage : tree.pages[id]? = some page) (hright : page.followRight key = some right) :
      Reaches tree key (n + 1) right path
  | down {n : ℕ} {id child : PageId} {path : List PageId} {page : Page} (h : Reaches tree key n id path)
      (hpage : tree.pages[id]? = some page) (hright : page.followRight key = none) (hleaf : page.isLeaf = false)
      (hchild : page.childForKey key = .ok child) : Reaches tree key (n + 1) child (id :: path)

/-- The leaf in charge of the key is `n` pages behind the root. -/
def Distance (tree : Tree) (key : Bytes) (n : ℕ) : Prop :=
  ∃ id path page, Reaches tree key n id path ∧ tree.pages[id]? = some page ∧ page.isLeaf = true ∧
    page.followRight key = none

variable {tree : Tree} {key : Bytes} {n : ℕ} {id : PageId} {path : List PageId} {page : Page} {node : Node}
  {level below leaves : Level} {pre post nodes : List Node} {next : Option Node} {uppers : List Level}
  {entries : List LeafEntry} {entry : LeafEntry}

theorem Reaches.findLeafPath (h : Reaches tree key n id path) :
    tree.findLeafPath key =
      if n ≤ maxRoutingDepth then tree.findLeafLoop key (maxRoutingDepth - n) id path
        else .error .routingDepthExceeded := by
  induction h with
  | root => rfl
  | @right n id right path page _ hpage hright ih =>
    rw [ih]
    by_cases hn : n + 1 ≤ maxRoutingDepth
    · rw [if_pos (by omega), if_pos hn, show maxRoutingDepth - n = maxRoutingDepth - (n + 1) + 1 by omega,
        Tree.findLeafLoop, hpage]
      simp only [hright]
    · rw [if_neg hn]
      by_cases hle : n ≤ maxRoutingDepth
      · rw [if_pos hle, show maxRoutingDepth - n = 0 by omega, Tree.findLeafLoop]
      · rw [if_neg hle]
  | @down n id child path page _ hpage hright hleaf hchild ih =>
    rw [ih]
    by_cases hn : n + 1 ≤ maxRoutingDepth
    · rw [if_pos (by omega), if_pos hn, show maxRoutingDepth - n = maxRoutingDepth - (n + 1) + 1 by omega,
        Tree.findLeafLoop, hpage]
      simp [hright, hleaf, hchild]
    · rw [if_neg hn]
      by_cases hle : n ≤ maxRoutingDepth
      · rw [if_pos hle, show maxRoutingDepth - n = 0 by omega, Tree.findLeafLoop]
      · rw [if_neg hle]

theorem Reaches.findLeafPath_leaf
    (h : Reaches tree key n id path) (hpage : tree.pages[id]? = some page) (hleaf : page.isLeaf = true)
    (hright : page.followRight key = none) :
    tree.findLeafPath key = if n < maxRoutingDepth then .ok (id, page, path) else .error .routingDepthExceeded := by
  rw [h.findLeafPath]
  by_cases hn : n < maxRoutingDepth
  · rw [if_pos hn.le, if_pos hn, show maxRoutingDepth - n = maxRoutingDepth - (n + 1) + 1 by omega,
      Tree.findLeafLoop, hpage]
    simp [hright, hleaf]
  · rw [if_neg hn]
    by_cases hle : n ≤ maxRoutingDepth
    · rw [if_pos hle, show maxRoutingDepth - n = 0 by omega, Tree.findLeafLoop]
    · rw [if_neg hle]

def Covered (key : Bytes) (levels : List Level) (path : List PageId) : Prop :=
  List.Forall₂ (fun level id => ∃ node, Covers Node.low level.nodes key node ∧ node.id = id) levels path

theorem followRight_fence (hhigh : page.high = some node.fence) (key : Bytes) :
    page.followRight key = if node.low ≤ key then some node.id else none := by
  rw [Page.followRight, hhigh]
  rfl

theorem followRight_none (hhigh : page.high = none) (key : Bytes) : page.followRight key = none := by
  rw [Page.followRight, hhigh]

theorem followRight_of_covers
    (hnodes : level.nodes = pre ++ node :: post) (hcov : Covers Node.low level.nodes key node)
    (hhigh : page.high = post.head?.map Node.fence) : page.followRight key = none := by
  have hs := level.sorted
  rw [hnodes] at hcov hs
  cases post with
  | nil => exact followRight_none hhigh key
  | cons after post =>
    rw [followRight_fence hhigh key, if_neg]
    exact not_le.mpr (hcov.lt_of_mem hs (by simp))

/-- A page of a level, with the fence its successor gives it. -/
def PageAt (tree : Tree) (node : Node) (next : Option Node) : Prop :=
  ∃ page, tree.pages[node.id]? = some page ∧ page.high = next.map Node.fence

theorem Reaches.walk (hlinked : Each (PageAt tree) level.nodes) (hnodes : level.nodes = pre ++ node :: post)
    (hlow : node.low ≤ key) (h : Reaches tree key n node.id path) :
    ∃ n' node', Covers Node.low level.nodes key node' ∧ Reaches tree key n' node'.id path := by
  induction post generalizing n pre node with
  | nil =>
    refine ⟨n, node, ?_, h⟩
    have hs := level.sorted
    rw [hnodes] at hs ⊢
    exact Linked.covers_of_split hs hlow (by simp)
  | cons after post ih =>
    have hhere := hlinked
    rw [hnodes] at hhere
    obtain ⟨page, hpage, hhigh⟩ := hhere.here
    have hright := followRight_fence (show page.high = some after.fence from hhigh) key
    by_cases hle : after.low ≤ key
    · rw [if_pos hle] at hright
      exact @ih (n + 1) after (pre ++ [node]) (by simpa using hnodes) hle (h.right hpage hright)
    · refine ⟨n, node, ?_, h⟩
      have hs := level.sorted
      rw [hnodes] at hs ⊢
      refine Linked.covers_of_split hs hlow ?_
      intro later hlater
      rcases List.mem_cons.mp hlater with rfl | hlater
      · exact not_le.mp hle
      · have htail := (List.pairwise_cons.mp (List.pairwise_append.mp hs).2.1).2
        exact (not_le.mp hle).trans ((List.pairwise_cons.mp htail).1 later hlater)

theorem LeafAt.pageAt (h : LeafAt tree node next) : PageAt tree node next := by
  obtain ⟨entries, hget, -⟩ := h
  exact ⟨_, hget, rfl⟩

theorem InternalAt.pageAt (h : InternalAt tree below node next) : PageAt tree node next := by
  obtain ⟨leftmost, entries, hget, -⟩ := h
  exact ⟨_, hget, rfl⟩

theorem nil_le_key (key : Bytes) : [] ≤ key := not_lt.mp (List.not_lt_nil key)

theorem Stack.reaches (h : Stack tree below uppers) (key : Bytes) :
    ∃ n node path, node ∈ below.nodes ∧ node.low ≤ key ∧ Covered key uppers path ∧ Reaches tree key n node.id path := by
  induction uppers generalizing below with
  | nil => exact ⟨0, ⟨[], tree.root⟩, [], h, nil_le_key key, .nil, .root⟩
  | cons above rest ih =>
    obtain ⟨-, hlinked, hstack⟩ := h
    obtain ⟨n, start, path, hmem, hlow, hpath, hreach⟩ := ih hstack
    obtain ⟨pre, post, hnodes⟩ := List.append_of_mem hmem
    obtain ⟨n, node, hcov, hreach⟩ := hreach.walk (hlinked.imp fun _ _ _ hat => hat.pageAt) hnodes hlow
    obtain ⟨pre, post, hnodes⟩ := List.append_of_mem hcov.1
    rw [hnodes] at hlinked
    obtain ⟨leftmost, entries, hget, he, -, hleft, hentries⟩ := hlinked.here
    have hright : (Page.internal (post.head?.map Node.fence) leftmost entries).followRight key = none :=
      followRight_of_covers hnodes hcov rfl
    obtain ⟨child, hchild, hcase⟩ := Page.childForKey_internal he.sorted key
    have hdown := hreach.down hget hright rfl hchild
    rcases hcase with rfl | ⟨entry, hentry, hle, rfl⟩
    · exact ⟨n + 1, ⟨node.low, child⟩, node.id :: path, hleft, hcov.2.1, .cons ⟨node, hcov, rfl⟩ hpath, hdown⟩
    · exact ⟨n + 1, entry.node, node.id :: path, (hentries entry hentry).2.2, hle, .cons ⟨node, hcov, rfl⟩ hpath, hdown⟩

theorem Shaped.reaches (h : Shaped tree leaves uppers) (key : Bytes) :
    ∃ n node path, Covers Node.low leaves.nodes key node ∧ Covered key uppers path ∧
      Reaches tree key n node.id path := by
  obtain ⟨n, start, path, hmem, hlow, hpath, hreach⟩ := h.stack.reaches key
  obtain ⟨pre, post, hnodes⟩ := List.append_of_mem hmem
  obtain ⟨n, node, hcov, hreach⟩ := hreach.walk (h.linked.imp fun _ _ _ hat => hat.pageAt) hnodes hlow
  exact ⟨n, node, path, hcov, hpath, hreach⟩

/-- The leaf in charge of a key: its place in the level, its entries, and the way there. -/
structure LeafFor (tree : Tree) (leaves : Level) (uppers : List Level) (key : Bytes) (node : Node)
    (pre post : List Node) (entries : List LeafEntry) (path : List PageId) : Prop where
  nodes : leaves.nodes = pre ++ node :: post
  covers : Covers Node.low leaves.nodes key node
  covered : Covered key uppers path
  page : tree.pages[node.id]? = some (.leaf (post.head?.map Node.fence) entries)
  valid : LeafEntries entries
  fits : pageBytes (post.head?.map Node.fence) (entries.map LeafEntry.shape) ≤ tree.pageSize
  range : ∀ entry ∈ entries, node.low ≤ entry.key ∧ ∀ after ∈ post.head?, entry.key < after.low
  here : (Page.leaf (post.head?.map Node.fence) entries).followRight key = none

theorem Shaped.findLeafPath (h : Shaped tree leaves uppers) (key : Bytes) :
    ∃ n node pre post entries path, LeafFor tree leaves uppers key node pre post entries path ∧
      Reaches tree key n node.id path ∧ tree.findLeafPath key =
        if n < maxRoutingDepth then .ok (node.id, .leaf (post.head?.map Node.fence) entries, path)
        else .error .routingDepthExceeded := by
  obtain ⟨n, node, path, hcov, hpath, hreach⟩ := h.reaches key
  obtain ⟨pre, post, hnodes⟩ := List.append_of_mem hcov.1
  have hlinked := h.linked
  rw [hnodes] at hlinked
  obtain ⟨entries, hget, he, hfit, hrange⟩ := hlinked.here
  have hright : (Page.leaf (post.head?.map Node.fence) entries).followRight key = none :=
    followRight_of_covers hnodes hcov rfl
  exact ⟨n, node, pre, post, entries, path, ⟨hnodes, hcov, hpath, hget, he, hfit, hrange, hright⟩, hreach,
    hreach.findLeafPath_leaf hget rfl hright⟩

theorem leafEntries_of_get {high : Option Fence}
    (h : tree.pages[node.id]? = some (.leaf high entries)) : leafEntries tree node = entries := by
  rw [leafEntries, h]

theorem entriesOf_append (tree : Tree) (pre post : List Node) :
    entriesOf tree (pre ++ post) = entriesOf tree pre ++ entriesOf tree post :=
  List.flatMap_append

theorem entriesOf_cons (tree : Tree) (node : Node) (post : List Node) :
    entriesOf tree (node :: post) = leafEntries tree node ++ entriesOf tree post := List.flatMap_cons

theorem entriesOf_congr {tree' : Tree} (h : ∀ node ∈ nodes, tree'.pages[node.id]? = tree.pages[node.id]?) :
    entriesOf tree' nodes = entriesOf tree nodes := by
  apply List.flatMap_congr
  intro node hnode
  rw [leafEntries, leafEntries, h node hnode]

theorem lt_of_mem_before (hlinked : Each (LeafAt tree) (pre ++ node :: post))
    (hs : Keyed.Sorted Node.low (pre ++ node :: post)) (h : entry ∈ entriesOf tree pre) : entry.key < node.low := by
  induction pre with
  | nil => simp [entriesOf] at h
  | cons first pre ih =>
    obtain ⟨⟨entries, hget, -, -, hrange⟩, hlinked⟩ := hlinked
    obtain ⟨-, hs⟩ := List.pairwise_cons.mp hs
    rw [entriesOf_cons, leafEntries_of_get hget, List.mem_append] at h
    rcases h with h | h
    · cases pre with
      | nil => exact (hrange entry h).2 node (by simp)
      | cons next pre =>
        have hlt : next.low < node.low := (List.pairwise_cons.mp hs).1 node (by simp)
        exact ((hrange entry h).2 next (by simp)).trans hlt
    · exact ih hlinked hs h

theorem le_of_mem_from (hlinked : Each (LeafAt tree) (node :: post))
    (hs : Keyed.Sorted Node.low (node :: post)) (h : entry ∈ entriesOf tree (node :: post)) : node.low ≤ entry.key := by
  obtain ⟨next, hnext, hmem⟩ := List.mem_flatMap.mp h
  obtain ⟨_, entries, hget, -, -, hrange⟩ := hlinked.of_mem hnext
  rw [leafEntries_of_get hget] at hmem
  have hle : node.low ≤ next.low := by
    rcases List.mem_cons.mp hnext with rfl | hnext
    · exact le_rfl
    · exact ((List.pairwise_cons.mp hs).1 next hnext).le
  exact hle.trans (hrange entry hmem).1

theorem sorted_entriesOf (hlinked : Each (LeafAt tree) nodes) (hs : Keyed.Sorted Node.low nodes) :
    Keyed.Sorted LeafEntry.key (entriesOf tree nodes) := by
  induction nodes with
  | nil => exact .nil
  | cons node post ih =>
    obtain ⟨⟨entries, hget, he, -, hrange⟩, htail⟩ := hlinked
    rw [entriesOf_cons, leafEntries_of_get hget]
    refine he.sorted.append (ih htail (List.pairwise_cons.mp hs).2) ?_
    intro entry hentry later hlater
    cases post with
    | nil => simp [entriesOf] at hlater
    | cons next post =>
      exact ((hrange entry hentry).2 next (by simp)).trans_le (le_of_mem_from htail (List.pairwise_cons.mp hs).2 hlater)

theorem LeafFor.key_ne (hshape : Shaped tree leaves uppers)
    (h : LeafFor tree leaves uppers key node pre post entries path)
    (hentry : entry ∈ entriesOf tree pre ∨ entry ∈ entriesOf tree post) : entry.key ≠ key := by
  have hlinked := hshape.linked
  have hs := leaves.sorted
  have hcov := h.covers
  rw [h.nodes] at hlinked hs hcov
  rcases hentry with hentry | hentry
  · exact ((lt_of_mem_before hlinked hs hentry).trans_le hcov.2.1).ne
  · cases post with
    | nil => simp [entriesOf] at hentry
    | cons next post =>
      have hlt := hcov.lt_of_mem hs (List.mem_cons_self)
      have htail := (List.pairwise_cons.mp (List.pairwise_append.mp hs).2.1).2
      exact (hlt.trans_le (le_of_mem_from hlinked.tail.2 htail hentry)).ne'

theorem LeafFor.entriesOf_eq (h : LeafFor tree leaves uppers key node pre post entries path) :
    entriesOf tree leaves.nodes = entriesOf tree pre ++ (entries ++ entriesOf tree post) := by
  rw [h.nodes, entriesOf_append, entriesOf_cons, leafEntries_of_get h.page]

theorem LeafFor.mem_iff (hshape : Shaped tree leaves uppers)
    (h : LeafFor tree leaves uppers key node pre post entries path) (value : LeafValue) :
    ⟨key, value⟩ ∈ entriesOf tree leaves.nodes ↔ ⟨key, value⟩ ∈ entries := by
  rw [h.entriesOf_eq, List.mem_append, List.mem_append]
  constructor
  · rintro (hmem | hmem | hmem)
    · exact absurd rfl (h.key_ne hshape (.inl hmem))
    · exact hmem
    · exact absurd rfl (h.key_ne hshape (.inr hmem))
  · exact fun hmem => .inr (.inl hmem)

end OmenDb.Vnext
