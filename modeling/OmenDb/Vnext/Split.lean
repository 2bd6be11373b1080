import OmenDb.Vnext.Levels

/-! Splits, write by write. Each step up the path is brought to one of five outcomes, and the shape
of the tree is followed through every prefix of the writes: the new right page is not in the tree
until the left page is stored, and from then on it is reached over the right link. -/
namespace OmenDb.Vnext

open Linked (Each Covers)

namespace Tree

variable (tree : Tree)

@[simp] theorem applyWrites_nil : tree.applyWrites [] = tree := rfl

@[simp] theorem applyWrites_cons (write : PageWrite) (writes : List PageWrite) :
    tree.applyWrites (write :: writes) = (tree.applyWrite write).applyWrites writes := rfl

theorem applyWrites_append (first second : List PageWrite) :
    tree.applyWrites (first ++ second) = (tree.applyWrites first).applyWrites second := List.foldl_append

theorem get_store (id : PageId) (page : Page) (other : PageId) :
    (tree.applyWrite (.store id page)).pages[other]? = if id = other then some page else tree.pages[other]? :=
  OrdMap.get_insert tree.pages id other page

end Tree

/-- A property that holds however many of the writes are made. -/
def Always (good : Tree → Prop) (tree : Tree) (writes : List PageWrite) : Prop :=
  ∀ n, good (tree.applyWrites (writes.take n))

variable {good : Tree → Prop} {tree tree' : Tree} {writes : List PageWrite} {error : PageError}
    {entry promoted : InternalEntry}
  {below level above below' above' : Level} {uppers rest : List Level} {pre post : List Node} {node : Node}
  {key other separator : Bytes} {path path' : List PageId} {leftmost right : PageId}
  {entries : List InternalEntry} {i : ℕ}

theorem always_nil : Always good tree [] ↔ good tree := by
  simp [Always]

theorem always_cons {write : PageWrite} :
    Always good tree (write :: writes) ↔ good tree ∧ Always good (tree.applyWrite write) writes := by
  constructor
  · intro h
    exact ⟨h 0, fun n => h (n + 1)⟩
  · rintro ⟨hhere, hrest⟩ n
    cases n with
    | zero => exact hhere
    | succ n => exact hrest n

theorem Always.last (h : Always good tree writes) : good (tree.applyWrites writes) := by
  have hall := h writes.length
  rwa [List.take_length] at hall

theorem Always.imp {fine : Tree → Prop} (h : Always good tree writes)
    (himp : ∀ tree', good tree' → fine tree') : Always fine tree writes := fun n => himp _ (h n)

theorem PageError.TooSmall.leafCapacityError (h : error.TooSmall) (hne : error ≠ .highFenceFit) :
    leafCapacityError error = true := by
  rcases h with rfl | rfl | rfl | rfl
  · exact absurd rfl hne
  all_goals rfl

theorem mapBuildError_of_tooSmall {page : PageId} (h : error.TooSmall) : mapBuildError page error = .entryTooLarge := by
  rcases h with rfl | rfl | rfl | rfl <;> rfl

/-- The writes of a split: the new page behind the old one. -/
def splitWrites (tree : Tree) (page : PageId) (left right : Page) : List PageWrite :=
  [.allocate, .store tree.nextPage right, .store page left]

/-- What happens to the page above a split, whose entries are given with the separator put in. -/
inductive ParentStep (tree : Tree) (parent : PageId) (path : List PageId) (high : Option Fence) (leftmost : PageId)
    (entries : List InternalEntry) : Plan Unit → Prop
  | inserted (hfit : pageBytes high (entries.map InternalEntry.shape) ≤ tree.pageSize) :
    ParentStep tree parent path high leftmost entries ⟨[.store parent (.internal high leftmost entries)], .ok ()⟩
  | few (hfull : tree.pageSize < pageBytes high (entries.map InternalEntry.shape)) (hlength : entries.length < 2) :
    ParentStep tree parent path high leftmost entries ⟨[], .error (.corruption parent .fewEntries)⟩
  | exhausted (hfull : tree.pageSize < pageBytes high (entries.map InternalEntry.shape)) (hlength : 2 ≤ entries.length)
      (hnext : tree.nextPage = reservedPageId) :
    ParentStep tree parent path high leftmost entries ⟨[], .error .pageIdExhausted⟩
  | tooLarge (hfull : tree.pageSize < pageBytes high (entries.map InternalEntry.shape))
      (hnext : tree.nextPage ≠ reservedPageId)
      {split : ℕ} {promoted : InternalEntry} (hsplit : chooseInternalSplit entries = .ok split)
      (hget : entries[split]? = some promoted)
      (hlarge : ¬(pageBytes (some ⟨promoted.key, tree.nextPage⟩) ((entries.take split).map InternalEntry.shape) ≤
        tree.pageSize ∧ pageBytes high ((entries.drop (split + 1)).map InternalEntry.shape) ≤ tree.pageSize)) :
    ParentStep tree parent path high leftmost entries ⟨[.allocate], .error .entryTooLarge⟩
  | split (hfull : tree.pageSize < pageBytes high (entries.map InternalEntry.shape))
      (hnext : tree.nextPage ≠ reservedPageId)
      {split : ℕ} {promoted : InternalEntry} (hsplit : chooseInternalSplit entries = .ok split)
      (hget : entries[split]? = some promoted)
      (hleft : pageBytes (some ⟨promoted.key, tree.nextPage⟩) ((entries.take split).map InternalEntry.shape) ≤
        tree.pageSize)
      (hright : pageBytes high ((entries.drop (split + 1)).map InternalEntry.shape) ≤ tree.pageSize)
      {writes : List PageWrite}
      (hwrites : writes = splitWrites tree parent
        (.internal (some ⟨promoted.key, tree.nextPage⟩) leftmost (entries.take split))
        (.internal high promoted.child (entries.drop (split + 1))))
      {rest : Plan Unit} (hrest : rest = (tree.applyWrites writes).propagateSplit path promoted.key tree.nextPage) :
    ParentStep tree parent path high leftmost entries ⟨writes ++ rest.writes, rest.result⟩

structure Parent (tree : Tree) (parent : PageId) (high : Option Fence) (leftmost : PageId)
    (entries : List InternalEntry) (separator : Bytes) : Prop where
  page : tree.pages[parent]? = some (.internal high leftmost entries)
  valid : InternalEntries entries
  first : leftmost ≠ reservedPageId
  here : (Page.internal high leftmost entries).followRight separator = none
  fresh : ∀ entry ∈ entries, entry.key ≠ separator
  short : separator.length ≤ u16Max

theorem InternalEntry.plain (hkey : entry.key.length ≤ u16Max) (hchild : entry.child ≠ reservedPageId) :
    entry.shape.Plain := ⟨hkey, by simp [shape, u16Max], by simpa [shape] using hchild⟩

theorem InternalEntry.child_ne (h : entry.shape.Plain) : entry.child ≠ reservedPageId := by
  simpa [shape] using h.2.2

theorem propagateSplit_parent {tree : Tree} {parent right : PageId} {path : List PageId} {high : Option Fence}
    {leftmost : PageId}
    {entries : List InternalEntry} {separator : Bytes} (hsized : PageSized tree.pageSize)
    (hright : right ≠ reservedPageId) (h : Parent tree parent high leftmost entries separator) :
    ∃ i, search InternalEntry.key entries separator = .missing i ∧
      Keyed.Slot.Fits InternalEntry.key entries separator (.missing i) ∧
      InternalEntries (Keyed.insertAt entries i ⟨separator, right⟩) ∧
      ParentStep tree parent path high leftmost (Keyed.insertAt entries i ⟨separator, right⟩)
        (tree.propagateSplit (parent :: path) separator right) := by
  obtain ⟨i, hsearch, hfits, hinsert⟩ :=
    @tryInsertInternal_eq tree.pageSize _ _ _ _ _ h.valid.sorted hright h.here h.fresh h.short
  have he : InternalEntries (Keyed.insertAt entries i ⟨separator, right⟩) :=
    h.valid.insertAt hfits (InternalEntry.plain h.short hright)
  refine ⟨i, hsearch, hfits, he, ?_⟩
  rw [Tree.propagateSplit, h.page]
  dsimp only
  rw [hinsert]
  by_cases hfit : pageBytes high ((Keyed.insertAt entries i ⟨separator, right⟩).map InternalEntry.shape) ≤ tree.pageSize
  · rw [if_pos hfit]
    exact .inserted hfit
  rw [if_neg hfit]
  dsimp only
  rw [hsearch]
  dsimp only
  have hfull := Nat.lt_of_not_le hfit
  rcases chooseInternalSplit_cases (Keyed.insertAt entries i ⟨separator, right⟩)
    with ⟨hlength, hsplit⟩ | ⟨split, hsplit, hone, hlt⟩
  · rw [hsplit]
    exact .few hfull hlength
  rw [hsplit]
  dsimp only
  have hget := List.getElem?_eq_getElem hlt
  rw [hget]
  dsimp only
  by_cases hnext : tree.nextPage = reservedPageId
  · rw [if_pos hnext]
    exact .exhausted hfull (by omega) hnext
  rw [if_neg hnext]
  set promoted := (Keyed.insertAt entries i ⟨separator, right⟩)[split]
  have htake := he.sublist (List.take_sublist split _)
  have hdrop := he.sublist (List.drop_sublist (split + 1) _)
  have hchild : promoted.child ≠ reservedPageId :=
    InternalEntry.child_ne (he.plain promoted (List.mem_of_getElem? hget))
  by_cases hleft : pageBytes (some ⟨promoted.key, tree.nextPage⟩)
      (((Keyed.insertAt entries i ⟨separator, right⟩).take split).map InternalEntry.shape) ≤ tree.pageSize
  · rw [buildInternal_of_le hsized h.first htake hleft]
    dsimp only
    by_cases hdropped : pageBytes high
      (((Keyed.insertAt entries i ⟨separator, right⟩).drop (split + 1)).map InternalEntry.shape) ≤
        tree.pageSize
    · rw [buildInternal_of_le hsized hchild hdrop hdropped]
      exact .split hfull hnext hsplit hget hleft hdropped rfl rfl
    · obtain ⟨error, herr, hsmall⟩ := buildInternal_of_lt hsized hchild hdrop (Nat.lt_of_not_le hdropped)
      rw [herr]
      dsimp only
      rw [mapBuildError_of_tooSmall hsmall]
      exact .tooLarge hfull hnext hsplit hget fun hboth => hdropped hboth.2
  · obtain ⟨error, herr, hsmall⟩ := buildInternal_of_lt hsized h.first htake (Nat.lt_of_not_le hleft)
    rw [herr]
    dsimp only
    rw [mapBuildError_of_tooSmall hsmall]
    exact .tooLarge hfull hnext hsplit hget fun hboth => hleft hboth.1

theorem propagateSplit_root {tree : Tree} {separator : Bytes} {right : PageId} (hsized : PageSized tree.pageSize)
    (hroot : tree.root ≠ reservedPageId) (hright : right ≠ reservedPageId) (hshort : separator.length ≤ u16Max) :
    (tree.nextPage = reservedPageId ∧ tree.propagateSplit [] separator right = ⟨[], .error .pageIdExhausted⟩) ∨
      (tree.nextPage ≠ reservedPageId ∧ tree.pageSize < pageBytes none [(⟨separator, right⟩ : InternalEntry).shape] ∧
        tree.propagateSplit [] separator right = ⟨[.allocate], .error .entryTooLarge⟩) ∨
      (tree.nextPage ≠ reservedPageId ∧ pageBytes none [(⟨separator, right⟩ : InternalEntry).shape] ≤ tree.pageSize ∧
        tree.propagateSplit [] separator right =
          ⟨[.allocate, .store tree.nextPage (.internal none tree.root [⟨separator, right⟩]), .promote tree.nextPage],
            .ok ()⟩) := by
  have he : InternalEntries [⟨separator, right⟩] := by
    refine ⟨List.pairwise_singleton _ _, ?_⟩
    intro entry hentry
    rw [List.mem_singleton.mp hentry]
    exact InternalEntry.plain hshort hright
  rw [Tree.propagateSplit]
  by_cases hnext : tree.nextPage = reservedPageId
  · exact .inl ⟨hnext, by rw [if_pos hnext]⟩
  rw [if_neg hnext]
  refine .inr ?_
  by_cases hfit : pageBytes none [(⟨separator, right⟩ : InternalEntry).shape] ≤ tree.pageSize
  · exact .inr ⟨hnext, hfit, by rw [buildInternal_of_le hsized hroot he hfit]⟩
  · obtain ⟨error, herr, hsmall⟩ := buildInternal_of_lt hsized hroot he (Nat.lt_of_not_le hfit)
    exact .inl ⟨hnext, Nat.lt_of_not_le hfit, by rw [herr]; dsimp only; rw [mapBuildError_of_tooSmall hsmall]⟩

@[simp] theorem get_splitWrites (tree : Tree) (page : PageId) (left right : Page) (id : PageId) :
    (tree.applyWrites (splitWrites tree page left right)).pages[id]? =
      if page = id then some left else if tree.nextPage = id then some right else tree.pages[id]? := by
  rw [splitWrites, Tree.applyWrites_cons, Tree.applyWrites_cons, Tree.applyWrites_cons, Tree.applyWrites_nil,
    Tree.get_store, Tree.get_store]
  rfl

@[simp] theorem pageSize_splitWrites (tree : Tree) (page : PageId) (left right : Page) :
    (tree.applyWrites (splitWrites tree page left right)).pageSize = tree.pageSize := rfl

/-- What is written over a level: only pages of the levels above it, and new ones. -/
structure Grown (tree tree' : Tree) (below : Level) (uppers uppers' : List Level) : Prop where
  stack : Stack tree' below uppers'
  ids : ∀ id ∈ levelIds uppers', id ∈ levelIds uppers ∨ tree.nextPage ≤ id
  kept : ∀ id < tree.nextPage, id ∉ levelIds uppers → tree'.pages[id]? = tree.pages[id]?
  size : tree'.pageSize = tree.pageSize
  next : tree.nextPage ≤ tree'.nextPage
  allocatable : tree'.nextPage ≤ reservedPageId

theorem Stack.id_lt (h : Stack tree below uppers) {id : PageId}
    (hid : id ∈ levelIds uppers) : id < tree.nextPage := by
  induction uppers generalizing below with
  | nil => simp [levelIds] at hid
  | cons above rest ih =>
    rcases mem_levelIds_cons.mp hid with hid | hid
    · obtain ⟨node, hnode, rfl⟩ := List.mem_map.mp hid
      exact (h.1 node hnode).1
    · exact ih h.2.2 hid

theorem Grown.of_frame (h : Stack tree below uppers)
    (hpages : ∀ id < tree.nextPage, tree'.pages[id]? = tree.pages[id]?) (hsize : tree'.pageSize = tree.pageSize)
    (hroot : tree'.root = tree.root) (hnext : tree.nextPage ≤ tree'.nextPage)
    (halloc : tree'.nextPage ≤ reservedPageId) : Grown tree tree' below uppers uppers where
  stack := h.frame hsize hroot hnext fun id hid => hpages id (h.id_lt hid)
  ids := fun _ hid => .inl hid
  kept := fun id hid _ => hpages id hid
  size := hsize
  next := hnext
  allocatable := halloc

def Level.single (id : PageId) : Level where
  nodes := [⟨[], id⟩]
  sorted := List.pairwise_singleton _ _
  first := ⟨id, by simp⟩
  distinct := by simp
  short := by simp

theorem lt_of_head (hnodes : level.nodes = pre ++ node :: post)
    (h : ∀ after ∈ post.head?, key < after.low) : ∀ after ∈ post, key < after.low := by
  cases post with
  | nil => simp
  | cons next post =>
    have hs := level.sorted
    rw [hnodes] at hs
    have htail := (List.pairwise_cons.mp (List.pairwise_append.mp hs).2.1).2
    have hlt := h next (by simp)
    intro after hafter
    rcases List.mem_cons.mp hafter with rfl | hafter
    · exact hlt
    · exact hlt.trans ((List.pairwise_cons.mp htail).1 after hafter)

theorem covers_of_range (hnodes : level.nodes = pre ++ node :: post)
    (hlow : node.low ≤ key) (h : ∀ after ∈ post.head?, key < after.low) : Covers Node.low level.nodes key node := by
  have hs := level.sorted
  have hpost := lt_of_head hnodes h
  rw [hnodes] at hs ⊢
  exact Linked.covers_of_split hs hlow hpost

theorem range_of_covers (hnodes : level.nodes = pre ++ node :: post)
    (h : Covers Node.low level.nodes key node) : ∀ after ∈ post.head?, key < after.low := by
  have hs := level.sorted
  rw [hnodes] at hs h
  intro after hafter
  exact h.lt_of_mem hs (List.mem_of_mem_head? hafter)

theorem Covered.transfer (h : Stack tree below uppers) (hkey : Covers Node.low below.nodes key node)
    (hother : Covers Node.low below.nodes other node) (hcov : Covered key uppers path) : Covered other uppers path := by
  induction hcov generalizing below node with
  | nil => exact .nil
  | @cons above id rest path hhere _ ih =>
    obtain ⟨parent, hparent, rfl⟩ := hhere
    have hsub : ∀ upper ∈ above.nodes, ∃ lower ∈ below.nodes, lower.low = upper.low := by
      intro upper hupper
      obtain ⟨next, leftmost, entries, -, -, -, hleft, -⟩ := h.2.1.of_mem hupper
      exact ⟨_, hleft, rfl⟩
    have htransfer := hkey.transfer hother hsub hparent
    exact .cons ⟨parent, htransfer, rfl⟩ (ih h.2.2 hparent htransfer)

theorem Parent.of_stack (hnodes : above.nodes = pre ++ node :: post)
    (hget : tree.pages[node.id]? = some (.internal (post.head?.map Node.fence) leftmost entries))
    (he : InternalEntries entries)
    (hleft : leftmost ≠ reservedPageId) (hentries : ∀ entry ∈ entries, entry.node ∈ below.nodes)
    (hcov : Covers Node.low above.nodes separator node) (hfresh : ∀ lower ∈ below.nodes, lower.low ≠ separator)
    (hshort : separator.length ≤ u16Max) :
    Parent tree node.id (post.head?.map Node.fence) leftmost entries separator where
  page := hget
  valid := he
  first := hleft
  here := followRight_of_covers hnodes hcov rfl
  fresh := fun entry hentry => hfresh entry.node (hentries entry hentry)
  short := hshort

theorem Level.id_ne {other : Node} (hnodes : level.nodes = pre ++ node :: post)
    (hother : other ∈ pre ∨ other ∈ post) : node.id ≠ other.id := by
  have hd := level.distinct
  rw [hnodes, List.map_append, List.map_cons, List.nodup_middle, List.nodup_cons] at hd
  intro heq
  apply hd.1
  rw [heq, ← List.map_append]
  exact List.mem_map_of_mem (List.mem_append.mpr hother)

section

variable (hnodes : above.nodes = pre ++ node :: post)
include hnodes

theorem Each.store_parent (hsub : below.nodes ⊆ below'.nodes)
    (hlinked : Each (InternalAt tree below) above.nodes) (he : InternalEntries entries)
    (hfit : pageBytes (post.head?.map Node.fence) (entries.map InternalEntry.shape) ≤ tree.pageSize)
    (hleft : ⟨node.low, leftmost⟩ ∈ below'.nodes)
    (hrange : ∀ entry ∈ entries, node.low < entry.key ∧ (∀ after ∈ post.head?, entry.key < after.low) ∧
      entry.node ∈ below'.nodes) :
    Each (InternalAt (tree.applyWrite (.store node.id (.internal (post.head?.map Node.fence) leftmost entries))) below')
      above.nodes := by
  have hother : ∀ other, other ∈ pre ∨ other ∈ post → ∀ next, InternalAt tree below other next →
      InternalAt (tree.applyWrite (.store node.id (.internal (post.head?.map Node.fence) leftmost entries))) below'
        other next := by
    intro other hmem next hat
    refine InternalAt.frame (hat.mono hsub) rfl ?_
    rw [Tree.get_store, if_neg (Level.id_ne hnodes hmem)]
  rw [hnodes] at hlinked ⊢
  apply hlinked.replace (fun other hmem => hother other (.inl hmem)) (fun other hmem => hother other (.inr hmem))
  exact ⟨leftmost, entries, by rw [Tree.get_store, if_pos rfl], he, hfit, hleft, hrange⟩

theorem Each.split_parent {split : ℕ}
    (hsub : below.nodes ⊆ below'.nodes) (hlinked : Each (InternalAt tree below) above.nodes)
    (hids : ∀ other ∈ above.nodes, other.id < tree.nextPage) (he : InternalEntries entries)
    (hget : entries[split]? = some promoted)
    (hfitLeft : pageBytes (some ⟨promoted.key, tree.nextPage⟩) ((entries.take split).map InternalEntry.shape) ≤
      tree.pageSize)
    (hfitRight : pageBytes (post.head?.map Node.fence) ((entries.drop (split + 1)).map InternalEntry.shape) ≤
      tree.pageSize) (hleft : ⟨node.low, leftmost⟩ ∈ below'.nodes)
    (hrange : ∀ entry ∈ entries, node.low < entry.key ∧ (∀ after ∈ post.head?, entry.key < after.low) ∧
      entry.node ∈ below'.nodes) :
    Each (InternalAt (tree.applyWrites (splitWrites tree node.id
        (.internal (some ⟨promoted.key, tree.nextPage⟩) leftmost (entries.take split))
        (.internal (post.head?.map Node.fence) promoted.child (entries.drop (split + 1))))) below')
      (pre ++ node :: ⟨promoted.key, tree.nextPage⟩ :: post) := by
  have hnext : node.id ≠ tree.nextPage := (hids node (by simp [hnodes])).ne
  have hother : ∀ other, other ∈ pre ∨ other ∈ post → ∀ next, InternalAt tree below other next →
      InternalAt (tree.applyWrites (splitWrites tree node.id
        (.internal (some ⟨promoted.key, tree.nextPage⟩) leftmost (entries.take split))
        (.internal (post.head?.map Node.fence) promoted.child (entries.drop (split + 1))))) below' other next := by
    intro other hmem next hat
    have hlt := hids other (by rw [hnodes]; simp; tauto)
    refine InternalAt.frame (hat.mono hsub) rfl ?_
    rw [get_splitWrites, if_neg (Level.id_ne hnodes hmem), if_neg hlt.ne']
  rw [hnodes] at hlinked
  apply hlinked.insert (fun other hmem => hother other (.inl hmem)) (fun other hmem => hother other (.inr hmem))
  · refine ⟨leftmost, entries.take split, by rw [get_splitWrites, if_pos rfl]; rfl, he.sublist (List.take_sublist _ _),
      hfitLeft, hleft, ?_⟩
    intro entry hentry
    obtain ⟨hlow, -, hmem⟩ := hrange entry (List.mem_of_mem_take hentry)
    obtain ⟨j, hj, hjget⟩ := Keyed.mem_take_iff.mp hentry
    refine ⟨hlow, ?_, hmem⟩
    rintro after ⟨rfl⟩
    exact he.sorted.lt_of_getElem? hjget hget hj
  · obtain ⟨hlow, -, hmem⟩ := hrange promoted (List.mem_of_getElem? hget)
    refine ⟨promoted.child, entries.drop (split + 1), by rw [get_splitWrites, if_neg hnext, if_pos rfl],
      he.sublist (List.drop_sublist _ _), hfitRight, hmem, ?_⟩
    intro entry hentry
    obtain ⟨-, hhigh, hmem⟩ := hrange entry (List.mem_of_mem_drop hentry)
    obtain ⟨j, hj, hjget⟩ := Keyed.mem_drop_iff.mp hentry
    exact ⟨he.sorted.lt_of_getElem? hget hjget hj, hhigh, hmem⟩

theorem mem_split_nodes {new : Node}
    (hnodes' : above'.nodes = pre ++ node :: new :: post) (other : Node) : other ∈ above'.nodes ↔ other = new ∨
      other ∈ above.nodes := by
  rw [hnodes, hnodes']
  simp only [List.mem_append, List.mem_cons]
  tauto

theorem Grown.over_split {rest' : List Level} {left right : Page}
    (hnodes' : above'.nodes = pre ++ node :: ⟨key, tree.nextPage⟩ :: post)
    (habove' : Known (tree.applyWrites (splitWrites tree node.id left right)) above' rest)
    (hlinked : Each (InternalAt (tree.applyWrites (splitWrites tree node.id left right)) below) above'.nodes)
    (h : Grown (tree.applyWrites (splitWrites tree node.id left right)) tree' above' rest rest') :
    Grown tree tree' below (above :: rest) (above' :: rest') where
  stack := by
    refine ⟨?_, ?_, h.stack⟩
    · intro other hother
      obtain ⟨hlt, hapart⟩ := habove' other hother
      refine ⟨hlt.trans_le h.next, fun hmem => ?_⟩
      rcases h.ids other.id hmem with hold | hnew
      · exact hapart hold
      · exact absurd hlt (not_lt.mpr hnew)
    · apply hlinked.imp
      intro other hother next hat
      obtain ⟨hlt, hapart⟩ := habove' other hother
      exact hat.frame h.size (h.kept other.id hlt hapart)
  ids := by
    intro id hid
    rcases mem_levelIds_cons.mp hid with hid | hid
    · obtain ⟨other, hother, rfl⟩ := List.mem_map.mp hid
      rcases (mem_split_nodes hnodes hnodes' other).mp hother with rfl | hother
      · exact .inr le_rfl
      · exact .inl (mem_levelIds_cons.mpr (.inl (List.mem_map_of_mem hother)))
    · rcases h.ids id hid with hold | hnew
      · exact .inl (mem_levelIds_cons.mpr (.inr hold))
      · exact .inr (Nat.le_of_succ_le hnew)
  kept := by
    intro id hlt hid
    rw [h.kept id (Nat.lt_succ_of_lt hlt) fun hmem => hid (mem_levelIds_cons.mpr (.inr hmem)), get_splitWrites, if_neg,
      if_neg hlt.ne']
    rintro rfl
    exact hid (mem_levelIds_cons.mpr (.inl (List.mem_map_of_mem (by simp [hnodes]))))
  size := h.size
  next := Nat.le_of_succ_le h.next
  allocatable := h.allocatable

end

theorem Known.split {tree : Tree} {above above' : Level} {rest : List Level} {pre post : List Node} {node : Node}
    {key : Bytes} {left right : Page} (hnodes : above.nodes = pre ++ node :: post)
    (hnodes' : above'.nodes = pre ++ node :: ⟨key, tree.nextPage⟩ :: post) (habove : Known tree above rest)
    (hrest : ∀ id ∈ levelIds rest, id < tree.nextPage) :
    Known (tree.applyWrites (splitWrites tree node.id left right)) above' rest := by
  intro other hother
  rcases (mem_split_nodes hnodes hnodes' other).mp hother with rfl | hother
  · exact ⟨Nat.lt_succ_self _, fun hmem => absurd (hrest _ hmem) (lt_irrefl _)⟩
  · exact ⟨Nat.lt_succ_of_lt (habove other hother).1, (habove other hother).2⟩

/-- The errors of a split: no room, no page id left, or a page with a single entry too large for it. -/
def BTreeError.Refusal (error : BTreeError) : Prop :=
  error = .entryTooLarge ∨ error = .pageIdExhausted ∨ ∃ page, error = .corruption page .fewEntries

/-- A separator on its way up: the page it names is on the level below already, but not among the
nodes that the levels above know. -/
structure Ascent (tree : Tree) (below below' : Level) (uppers : List Level) (path : List PageId) (separator : Bytes)
    (right : PageId) : Prop where
  sized : PageSized tree.pageSize
  allocatable : tree.nextPage ≤ reservedPageId
  known : Known tree below' uppers
  stack : Stack tree below uppers
  sub : below.nodes ⊆ below'.nodes
  node : ⟨separator, right⟩ ∈ below'.nodes
  fresh : ∀ lower ∈ below.nodes, lower.low ≠ separator
  covered : Covered separator uppers path

theorem Ascent.id_ne
    (h : Ascent tree below below' uppers path separator right) {lower : Node} (hlower : lower ∈ below'.nodes) :
    lower.id ≠ reservedPageId :=
  ((h.known lower hlower).1.trans_le h.allocatable).ne

theorem Ascent.grown_here (h : Ascent tree below below' uppers path separator right) :
    Grown tree tree below' uppers uppers :=
  .of_frame (h.stack.mono h.sub) (fun _ _ => rfl) rfl rfl le_rfl h.allocatable

theorem Ascent.grown_allocate (h : Ascent tree below below' uppers path separator right)
    (hnext : tree.nextPage ≠ reservedPageId) : Grown tree (tree.applyWrite .allocate) below' uppers uppers :=
  .of_frame (h.stack.mono h.sub) (fun _ _ => rfl) rfl rfl (Nat.le_succ _) (Nat.lt_of_le_of_ne h.allocatable hnext)

/-- The page in charge of the separator one level up, with its entries once the separator is in. -/
structure ParentFor (tree : Tree) (below' above : Level) (rest : List Level) (path : List PageId) (separator : Bytes)
    (right : PageId)
    (node : Node) (pre post : List Node) (leftmost : PageId) (entries : List InternalEntry) (i : ℕ) : Prop where
  nodes : above.nodes = pre ++ node :: post
  covers : Covers Node.low above.nodes separator node
  covered : Covered separator rest path
  page : tree.pages[node.id]? = some (.internal (post.head?.map Node.fence) leftmost entries)
  slot : search InternalEntry.key entries separator = .missing i
  valid : InternalEntries (Keyed.insertAt entries i ⟨separator, right⟩)
  first : ⟨node.low, leftmost⟩ ∈ below'.nodes
  range : ∀ entry ∈ Keyed.insertAt entries i ⟨separator, right⟩,
    node.low < entry.key ∧ (∀ after ∈ post.head?, entry.key < after.low) ∧ entry.node ∈ below'.nodes
  step : ParentStep tree node.id path (post.head?.map Node.fence) leftmost (Keyed.insertAt entries i ⟨separator, right⟩)
    (tree.propagateSplit (node.id :: path) separator right)

theorem Ascent.parent (h : Ascent tree below below' (above :: rest) path separator right) :
    ∃ node pre post leftmost entries path' i, path = node.id :: path' ∧
      ParentFor tree below' above rest path' separator right node pre post leftmost entries i := by
  have hid : ∀ {lower : Node}, lower ∈ below'.nodes → lower.id ≠ reservedPageId := h.id_ne
  obtain ⟨hsized, -, -, ⟨habove, hlinked, hrest⟩, hsub, hnode, hfresh, hcov⟩ := h
  cases hcov with
  | @cons _ _ _ path hhere hcov =>
  obtain ⟨node, hcov', rfl⟩ := hhere
  obtain ⟨pre, post, hnodes⟩ := List.append_of_mem hcov'.1
  rw [hnodes] at hlinked
  obtain ⟨leftmost, entries, hget, he, -, hleft, hentries⟩ := hlinked.here
  have hparent : Parent tree node.id (post.head?.map Node.fence) leftmost entries separator :=
    .of_stack hnodes hget he (hid (hsub hleft)) (fun entry hentry => (hentries entry hentry).2.2) hcov' hfresh
    (below'.short _ hnode)
  obtain ⟨i, hslot, -, hins, hstep⟩ := @propagateSplit_parent tree node.id right path _ _ _ _ hsized (hid hnode) hparent
  refine ⟨node, pre, post, leftmost, entries, path, i, rfl, hnodes, hcov', hcov, hget, hslot, hins,
    hsub hleft, ?_, hstep⟩
  intro entry hentry
  rcases Keyed.mem_insertAt.mp hentry with rfl | hentry
  · exact ⟨lt_of_le_of_ne hcov'.2.1 (hfresh ⟨node.low, leftmost⟩ hleft), range_of_covers hnodes hcov', hnode⟩
  · obtain ⟨hlow, hhigh, hmem⟩ := hentries entry hentry
    exact ⟨hlow, hhigh, hsub hmem⟩

theorem Ascent.of_split (hsized : PageSized tree.pageSize) (halloc : tree.nextPage ≤ reservedPageId)
    (hnext : tree.nextPage ≠ reservedPageId)
    (hnodes : level.nodes = pre ++ node :: post) (hknown : Known tree level rest) (hstack : Stack tree level rest)
    (hlow : node.low < key)
    (hhigh : ∀ after ∈ post.head?, key < after.low) (hshort : key.length ≤ u16Max)
    (hcov : Covers Node.low level.nodes other node) (hcovered : Covered other rest path) (left right : Page) :
    ∃ level' : Level, level'.nodes = pre ++ node :: ⟨key, tree.nextPage⟩ :: post ∧
      Ascent (tree.applyWrites (splitWrites tree node.id left right)) level level' rest path key tree.nextPage := by
  obtain ⟨level', hnodes'⟩ :=
    @Level.exists_insert level pre post node ⟨key, tree.nextPage⟩ hnodes hlow (lt_of_head hnodes hhigh)
    (fun other hother => (hknown other hother).1.ne) hshort
  have hcovers := covers_of_range hnodes hlow.le hhigh
  refine ⟨level', hnodes', hsized, Nat.lt_of_le_of_ne halloc hnext, hknown.split hnodes hnodes' fun id hid =>
    hstack.id_lt hid, ?_,
    fun upper hupper => (mem_split_nodes hnodes hnodes' upper).mpr (.inr hupper),
      (mem_split_nodes hnodes hnodes' _).mpr (.inl rfl), ?_,
    Covered.transfer hstack hcov hcovers hcovered⟩
  · refine Stack.frame hstack rfl rfl (Nat.le_succ _) ?_
    intro id hid
    rw [get_splitWrites, if_neg, if_neg (hstack.id_lt hid).ne']
    rintro rfl
    exact (hknown node hcov.1).2 hid
  · rintro upper hupper heq
    exact absurd (hcovers.2.2 upper hupper heq.le) (not_le.mpr (heq ▸ hlow))

theorem ParentFor.ascent (h : Ascent tree below below' (above :: rest) path separator right)
    (hparent : ParentFor tree below' above rest path' separator right node pre post leftmost entries i)
    (hnext : tree.nextPage ≠ reservedPageId)
    (hpromoted : promoted ∈ Keyed.insertAt entries i ⟨separator, right⟩) {leftPage rightPage : Page}
    (htree' : tree' = tree.applyWrites (splitWrites tree node.id leftPage rightPage)) :
    ∃ above' : Level, above'.nodes = pre ++ node :: ⟨promoted.key, tree.nextPage⟩ :: post ∧
      Ascent tree' above above' rest path' promoted.key tree.nextPage := by
  subst htree'
  obtain ⟨hlow, hhigh, -⟩ := hparent.range promoted hpromoted
  exact Ascent.of_split h.sized h.allocatable hnext hparent.nodes h.stack.1 h.stack.2.2 hlow hhigh
    (hparent.valid.plain promoted hpromoted).1
    hparent.covers hparent.covered leftPage rightPage

theorem Ascent.grown_root
    (h : Ascent tree below below' [] [] separator right) (hnext : tree.nextPage ≠ reservedPageId)
    (hfit : pageBytes none [(⟨separator, right⟩ : InternalEntry).shape] ≤ tree.pageSize) :
    Always (fun tree' => ∃ uppers', Grown tree tree' below' [] uppers') tree
      [.allocate, .store tree.nextPage (.internal none tree.root [⟨separator, right⟩]), .promote tree.nextPage] := by
  have hstack : Stack tree below' [] := h.stack.mono h.sub
  have hmore : tree.nextPage + 1 ≤ reservedPageId := Nat.lt_of_le_of_ne h.allocatable hnext
  have hstored : ∀ id < tree.nextPage, ((tree.applyWrite .allocate).applyWrite (.store tree.nextPage
      (.internal none tree.root [⟨separator, right⟩]))).pages[id]? = tree.pages[id]? := by
    intro id hid
    rw [Tree.get_store, if_neg hid.ne']
    rfl
  refine always_cons.mpr ⟨⟨[], ?_⟩,
    always_cons.mpr ⟨⟨[], ?_⟩, always_cons.mpr ⟨⟨[], ?_⟩, always_nil.mpr ⟨[.single tree.nextPage], ?_⟩⟩⟩⟩
  · exact h.grown_here
  · exact h.grown_allocate hnext
  · exact .of_frame hstack hstored rfl rfl (Nat.le_succ _) hmore
  · -- the new root is a level of its own, over the first page and the one the separator names
    refine ⟨⟨?_, ⟨⟨tree.root, [⟨separator, right⟩], ?_, ?_, hfit, hstack, ?_⟩, trivial⟩, by
      simp [Stack, Level.single]; rfl⟩, ?_,
      fun id hid _ => hstored id hid, rfl, Nat.le_succ _, hmore⟩
    · intro node hmem
      rw [List.mem_singleton.mp hmem]
      exact ⟨Nat.lt_succ_self _, by simp [levelIds]⟩
    · exact (Tree.get_store _ _ _ _).trans (if_pos rfl)
    · refine ⟨List.pairwise_singleton _ _, fun entry hentry => ?_⟩
      rw [List.mem_singleton.mp hentry]
      exact InternalEntry.plain (below'.short _ h.node) (h.id_ne h.node)
    · intro entry hentry
      rw [List.mem_singleton.mp hentry]
      have hne : ([] : Bytes) ≠ separator := h.fresh ⟨[], tree.root⟩ h.stack
      exact ⟨lt_of_le_of_ne (nil_le_key separator) hne, by simp, h.node⟩
    · intro id hid
      simp [levelIds, Level.single] at hid
      exact .inr hid.ge

theorem ParentFor.grown (h : Ascent tree below below' (above :: rest) path separator right)
    (hparent : ParentFor tree below' above rest path' separator right node pre post leftmost entries i)
    (hfit : pageBytes (post.head?.map Node.fence)
      ((Keyed.insertAt entries i ⟨separator, right⟩).map InternalEntry.shape) ≤ tree.pageSize) :
    Grown tree (tree.applyWrite (.store node.id (.internal (post.head?.map Node.fence) leftmost
      (Keyed.insertAt entries i ⟨separator, right⟩)))) below' (above :: rest) (above :: rest) := by
  obtain ⟨habove, hlinked, hrest⟩ := h.stack
  refine ⟨⟨habove, Each.store_parent hparent.nodes h.sub hlinked hparent.valid hfit hparent.first hparent.range, ?_⟩,
    fun id hid => .inl hid, ?_, rfl, le_rfl, h.allocatable⟩
  · refine Stack.frame hrest rfl rfl le_rfl ?_
    intro id hid
    rw [Tree.get_store, if_neg]
    rintro rfl
    exact (habove node hparent.covers.1).2 hid
  · intro id _ hid
    rw [Tree.get_store, if_neg]
    rintro rfl
    exact hid (mem_levelIds_cons.mpr (.inl (List.mem_map_of_mem hparent.covers.1)))

theorem propagateSplit_grows (h : Ascent tree below below' uppers path separator right) :
    Always (fun tree' => ∃ uppers', Grown tree tree' below' uppers uppers') tree
      (tree.propagateSplit path separator right).writes ∧
      ∀ error, (tree.propagateSplit path separator right).result = .error error → error.Refusal := by
  induction uppers generalizing tree below below' path separator right with
  | nil =>
    cases h.covered
    rcases propagateSplit_root h.sized (h.id_ne (h.sub h.stack)) (h.id_ne h.node) (below'.short _ h.node) with
      ⟨-, hplan⟩ | ⟨hnext, -, hplan⟩ | ⟨hnext, hfit, hplan⟩
    · rw [hplan]
      exact ⟨always_nil.mpr ⟨[], h.grown_here⟩, fun error herr => .inr (.inl (Except.error.inj herr).symm)⟩
    · rw [hplan]
      exact ⟨always_cons.mpr ⟨⟨[], h.grown_here⟩, always_nil.mpr ⟨[], h.grown_allocate hnext⟩⟩, fun error herr =>
        .inl (Except.error.inj herr).symm⟩
    · rw [hplan]
      exact ⟨h.grown_root hnext hfit, by simp⟩
  | cons above rest ih =>
    obtain ⟨node, pre, post, leftmost, entries, path, i, rfl, hparent⟩ := h.parent
    have hstep := hparent.step
    generalize tree.propagateSplit (node.id :: path) separator right = plan at hstep ⊢
    cases hstep with
    | inserted hfit =>
      exact ⟨always_cons.mpr ⟨⟨_, h.grown_here⟩, always_nil.mpr ⟨above :: rest, hparent.grown h hfit⟩⟩, by simp⟩
    | few => exact ⟨always_nil.mpr ⟨_, h.grown_here⟩, fun error herr => .inr (.inr ⟨_, (Except.error.inj herr).symm⟩)⟩
    | exhausted => exact ⟨always_nil.mpr ⟨_, h.grown_here⟩, fun error herr => .inr (.inl (Except.error.inj herr).symm)⟩
    | tooLarge hfull hnext =>
      exact ⟨always_cons.mpr ⟨⟨_, h.grown_here⟩, always_nil.mpr ⟨_, h.grown_allocate hnext⟩⟩, fun error herr =>
        .inl (Except.error.inj herr).symm⟩
    | @split hfull hnext split promoted hsplit hpromoted hfitLeft hfitRight writes hwrites plan hplan =>
      obtain ⟨above', hnodes', hnew⟩ :=
        hparent.ascent h hnext (List.mem_of_getElem? hpromoted) (congrArg tree.applyWrites hwrites)
      subst hplan hwrites
      have hlinked' := Each.split_parent hparent.nodes h.sub h.stack.2.1
        (fun other hother => (h.stack.1 other hother).1) hparent.valid
        hpromoted hfitLeft hfitRight hparent.first hparent.range
      rw [← hnodes'] at hlinked'
      obtain ⟨hup, herror⟩ := ih hnew
      refine ⟨always_cons.mpr ⟨⟨_, h.grown_here⟩,
        always_cons.mpr ⟨⟨_, h.grown_allocate hnext⟩, always_cons.mpr ⟨⟨above :: rest, ?_⟩, hup.imp ?_⟩⟩⟩, herror⟩
      · refine .of_frame (h.stack.mono h.sub) ?_ rfl rfl (Nat.le_succ _) hnew.allocatable
        intro id hlt
        rw [Tree.get_store, if_neg hlt.ne']
        rfl
      · rintro tree' ⟨rest', hgrow⟩
        exact ⟨above' :: rest', hgrow.over_split hparent.nodes hnodes' hnew.known hlinked'⟩

end OmenDb.Vnext
