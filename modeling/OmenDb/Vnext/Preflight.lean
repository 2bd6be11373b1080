import OmenDb.Vnext.TreeMap

/-! The check made before a commit is logged: the pair fits an empty leaf. What an upsert then needs
is more: where a page is split, the left half takes the separator as its high fence, and each page
above takes a separator or is split in turn. -/
namespace OmenDb.Vnext

def preflightInlineUpsert (pageSize : ℕ) (key value : Bytes) : Except BTreeError Unit :=
  if u16Max < key.length ∨ u16Max < value.length then .error .entryTooLarge
  else match buildLeaf pageSize none [⟨key, .inline value⟩] with
  | .ok _ => .ok ()
  | .error _ => .error .entryTooLarge

/-- The two halves of a page fit, with the separator as the fence of the left one. -/
def HalvesFit (pageSize : ℕ) (high : Option Fence) (separator : Bytes) (right : PageId)
    (left rest : List EntryShape) : Prop :=
  pageBytes (some ⟨separator, right⟩) left ≤ pageSize ∧ pageBytes high rest ≤ pageSize

namespace Tree

variable (tree : Tree)

/-- Room for a separator in the pages above, given with the page it names: the last one allocated. A
parent takes it, or has no id left for a right half, or is split into halves that fit. -/
def AncestorRoom : List PageId → Bytes → PageId → Prop
  | [], separator, right =>
    right + 1 = reservedPageId ∨ pageBytes none [(⟨separator, right⟩ : InternalEntry).shape] ≤ tree.pageSize
  | parent :: path, separator, right =>
    match tree.pages[parent]? with
    | some (.internal high _ entries) =>
      match search InternalEntry.key entries separator with
      | .missing i =>
        let entries := Keyed.insertAt entries i ⟨separator, right⟩
        pageBytes high (entries.map InternalEntry.shape) ≤ tree.pageSize ∨ right + 1 = reservedPageId ∨
          ∀ split promoted, chooseInternalSplit entries = .ok split → entries[split]? = some promoted →
            HalvesFit tree.pageSize high promoted.key (right + 1) ((entries.take split).map InternalEntry.shape)
                ((entries.drop (split + 1)).map InternalEntry.shape) ∧
              AncestorRoom path promoted.key (right + 1)
      | .found _ => True
    | _ => True

/-- Room for a pair: in the leaf in charge of its key, or in the two halves of it and above. -/
def Room (key value : Bytes) : Prop :=
  ∀ leaf high entries path, tree.findLeafPath key = .ok (leaf, .leaf high entries, path) →
    pageBytes high ((upsertLeafEntry entries key value).map LeafEntry.shape) ≤ tree.pageSize ∨
      2 ≤ (upsertLeafEntry entries key value).length ∧
        (tree.nextPage = reservedPageId ∨
          ∀ split first, chooseLeafSplit (upsertLeafEntry entries key value) = .ok split →
            (upsertLeafEntry entries key value)[split]? = some first →
            HalvesFit tree.pageSize high first.key tree.nextPage
            (((upsertLeafEntry entries key value).take split).map LeafEntry.shape)
                (((upsertLeafEntry entries key value).drop split).map LeafEntry.shape) ∧
              tree.AncestorRoom path first.key tree.nextPage)

end Tree

variable {key : Bytes} {uppers rest : List Level} {path : List PageId} {id : PageId} {tree : Tree} {level : Level}
    {node : Node}

theorem preflightInlineUpsert_ok {pageSize : ℕ} {value : Bytes}
    (h : preflightInlineUpsert pageSize key value = .ok ()) :
    validateInlineEntry key value = .ok () ∧ key.length ≤ u16Max ∧ value.length ≤ u16Max := by
  rw [preflightInlineUpsert] at h
  by_cases hlong : u16Max < key.length ∨ u16Max < value.length
  · rw [if_pos hlong] at h
    cases h
  · rw [validateInlineEntry, if_neg hlong]
    push Not at hlong
    exact ⟨rfl, hlong⟩

theorem Covered.mem_levelIds (h : Covered key uppers path)
    (hid : id ∈ path) : id ∈ levelIds uppers := by
  induction h with
  | nil => cases hid
  | cons hhere _ ih =>
    obtain ⟨node, hcov, rfl⟩ := hhere
    rcases List.mem_cons.mp hid with rfl | hid
    · exact mem_levelIds_cons.mpr (.inl (List.mem_map_of_mem hcov.1))
    · exact mem_levelIds_cons.mpr (.inr (ih hid))

theorem Tree.ancestorRoom_congr {tree' : Tree} (hsize : tree'.pageSize = tree.pageSize)
    (hpages : ∀ id ∈ path, tree'.pages[id]? = tree.pages[id]?) (separator : Bytes) (right : PageId) :
    tree'.AncestorRoom path separator right ↔ tree.AncestorRoom path separator right := by
  induction path generalizing separator right with
  | nil => rw [AncestorRoom, AncestorRoom, hsize]
  | cons parent path ih =>
    have hrest := ih fun id hid => hpages id (List.mem_cons_of_mem _ hid)
    rw [AncestorRoom, AncestorRoom, hpages parent (by simp), hsize]
    simp only [hrest]

theorem Stack.get_split (h : Stack tree level rest) (hknown : Known tree level rest) (hnode : node ∈ level.nodes)
    (hcov : Covered key rest path) (left right : Page) (hid : id ∈ path) :
    (tree.applyWrites (splitWrites tree node.id left right)).pages[id]? = tree.pages[id]? := by
  have hmem := hcov.mem_levelIds hid
  rw [get_splitWrites, if_neg, if_neg (h.id_lt hmem).ne']
  rintro rfl
  exact (hknown node hnode).2 hmem

theorem Stack.ancestorRoom_split
    (h : Stack tree level rest) (hknown : Known tree level rest) (hnode : node ∈ level.nodes)
    (hcov : Covered key rest path) (left right : Page) (separator : Bytes) (last : PageId) :
    (tree.applyWrites (splitWrites tree node.id left right)).AncestorRoom path separator last ↔
      tree.AncestorRoom path separator last :=
  Tree.ancestorRoom_congr (pageSize_splitWrites tree node.id left right)
  (fun _ hid => h.get_split hknown hnode hcov left right hid) _ _

theorem Ascent.propagateSplit_room {below below' : Level} {separator : Bytes}
    {right : PageId} (h : Ascent tree below below' uppers path separator right) (hlast : tree.nextPage = right + 1) :
    (tree.propagateSplit path separator right).result ≠ .error .entryTooLarge ↔
      tree.AncestorRoom path separator right := by
  induction uppers generalizing tree below below' path separator right with
  | nil =>
    cases h.covered
    rw [Tree.AncestorRoom, ← hlast]
    rcases propagateSplit_root h.sized (h.id_ne (h.sub h.stack)) (h.id_ne h.node) (below'.short _ h.node) with
      ⟨hnext, hplan⟩ | ⟨hnext, hlarge, hplan⟩ | ⟨-, hfit, hplan⟩
    · simp [hplan, hnext]
    · simp [hplan, hnext, hlarge]
    · simp [hplan, hfit]
  | cons above rest ih =>
    obtain ⟨node, pre, post, leftmost, entries, path, i, rfl, hparent⟩ := h.parent
    rw [Tree.AncestorRoom, hparent.page]
    dsimp only
    rw [hparent.slot]
    dsimp only
    rw [← hlast]
    have hstep := hparent.step
    generalize tree.propagateSplit (node.id :: path) separator right = plan at hstep ⊢
    cases hstep with
    | inserted hfit => simp [hfit]
    | few hfull hlength =>
      have hsplit : ∀ split, chooseInternalSplit (Keyed.insertAt entries i ⟨separator, right⟩) ≠ .ok split := by
        intro split hsplit
        obtain ⟨hone, hlt⟩ := chooseInternalSplit_one hsplit
        omega
      simp [hsplit]
    | exhausted hfull hlength hnext => simp [hnext]
    | @tooLarge hfull hnext split promoted hsplit hpromoted hlarge =>
      refine iff_of_false (by simp) ?_
      rintro (hfit | hend | hroom)
      · exact absurd hfit (not_le.mpr hfull)
      · exact hnext hend
      · exact hlarge (hroom split promoted hsplit hpromoted).1
    | @split hfull hnext split promoted hsplit hpromoted hfitLeft hfitRight writes hwrites plan hplan =>
      obtain ⟨above', -, hnew⟩ :=
        hparent.ascent h hnext (List.mem_of_getElem? hpromoted) (congrArg tree.applyWrites hwrites)
      subst hplan hwrites
      refine ((ih hnew rfl).trans (h.stack.2.2.ancestorRoom_split h.stack.1 hparent.covers.1 hparent.covered _ _ _
        _)).trans ⟨fun hroom => .inr (.inr ?_), ?_⟩
      · intro split' promoted' hsplit' hpromoted'
        cases hsplit.symm.trans hsplit'
        cases hpromoted.symm.trans hpromoted'
        exact ⟨⟨hfitLeft, hfitRight⟩, hroom⟩
      · rintro (hfit | hend | hroom)
        · exact absurd hfit (not_le.mpr hfull)
        · exact absurd hend hnext
        · exact (hroom split promoted hsplit hpromoted).2

section Leaf

variable {tree : Tree} {leaves : Level} {uppers : List Level} {key : Bytes} {node : Node} {pre post : List Node}
  {entries entries' : List LeafEntry} {path : List PageId}

theorem LeafFor.splitLeaf_room (hshape : Shaped tree leaves uppers)
    (h : LeafFor tree leaves uppers key node pre post entries path)
    (hchange : LeafChange node post entries') (hlength : 2 ≤ entries'.length) :
    (tree.splitLeaf node.id (post.head?.map Node.fence) entries' path).result ≠ .error .entryTooLarge ↔
      (tree.nextPage = reservedPageId ∨ ∀ split first, chooseLeafSplit entries' = .ok split →
        entries'[split]? = some first →
        HalvesFit tree.pageSize (post.head?.map Node.fence) first.key tree.nextPage
          ((entries'.take split).map LeafEntry.shape)
            ((entries'.drop split).map LeafEntry.shape) ∧
          tree.AncestorRoom path first.key tree.nextPage) := by
  have hstep := @splitLeaf_step tree node.id path (post.head?.map Node.fence) entries' hshape.sized hchange.valid
  generalize tree.splitLeaf node.id (post.head?.map Node.fence) entries' path = plan at hstep ⊢
  cases hstep with
  | few hfew => omega
  | exhausted _ hnext => simp [hnext]
  | @tooLarge hnext split first hsplit hget hlarge =>
    refine iff_of_false (by simp) ?_
    rintro (hend | hroom)
    · exact hnext hend
    · exact hlarge (hroom split first hsplit hget).1
  | @split hnext split first hsplit hone hget hfitLeft hfitRight writes hwrites plan hplan =>
    obtain ⟨leaves', -, hnew⟩ := h.ascent hshape hchange hnext hone hget (congrArg tree.applyWrites hwrites)
    subst hplan hwrites
    refine ((hnew.propagateSplit_room rfl).trans
      (hshape.stack.ancestorRoom_split hshape.known h.covers.1 h.covered _ _ _ _)).trans ⟨fun hroom => .inr ?_, ?_⟩
    · intro split' first' hsplit' hget'
      cases hsplit.symm.trans hsplit'
      cases hget.symm.trans hget'
      exact ⟨⟨hfitLeft, hfitRight⟩, hroom⟩
    · rintro (hend | hroom)
      · exact absurd hend hnext
      · exact (hroom split first hsplit hget).2

end Leaf

theorem fenceLength_le_pageBytes (high : Option Fence) (shapes : List EntryShape) :
    fenceLength high ≤ pageBytes high shapes := by
  rw [pageBytes]
  omega

/-- A pair that the check accepts is refused as too large exactly when there is no room for it: an
upsert of it needs more than an empty leaf. -/
theorem preflight_upsert_iff_room {tree : Tree} {leaves : Level} {uppers : List Level} {key value : Bytes}
    (hshape : Shaped tree leaves uppers) (hpreflight : preflightInlineUpsert tree.pageSize key value = .ok ()) :
    (tree.upsert key value).result ≠ .error .entryTooLarge ↔ tree.Room key value := by
  obtain ⟨hvalid, hkey, hvalue⟩ := preflightInlineUpsert_ok hpreflight
  obtain ⟨n, node, pre, post, entries, path, hleaf, -, hfind⟩ := hshape.findLeafPath key
  have hchange := hleaf.change_upsert hkey hvalue
  by_cases hn : n < maxRoutingDepth
  swap
  · rw [if_neg hn] at hfind
    simp [Tree.upsert, Tree.Room, hvalid, hfind]
  rw [if_pos hn] at hfind
  have hroom : tree.Room key value ↔
      pageBytes (post.head?.map Node.fence) ((upsertLeafEntry entries key value).map LeafEntry.shape) ≤ tree.pageSize ∨
        2 ≤ (upsertLeafEntry entries key value).length ∧
        (tree.splitLeaf node.id (post.head?.map Node.fence) (upsertLeafEntry entries key value) path).result ≠
          .error .entryTooLarge := by
    constructor
    · intro hroom
      refine (hroom _ _ _ _ hfind).imp_right ?_
      rintro ⟨hlength, hsplit⟩
      exact ⟨hlength, (hleaf.splitLeaf_room hshape hchange hlength).mpr hsplit⟩
    · intro hroom leaf high entries' path' hfind'
      cases hfind.symm.trans hfind'
      refine hroom.imp_right ?_
      rintro ⟨hlength, hsplit⟩
      exact ⟨hlength, (hleaf.splitLeaf_room hshape hchange hlength).mp hsplit⟩
  rw [hroom, Tree.upsert, hvalid, hfind]
  dsimp only
  by_cases hfit : pageBytes (post.head?.map Node.fence) ((upsertLeafEntry entries key value).map LeafEntry.shape) ≤
    tree.pageSize
  · simp [buildLeaf_of_le hshape.sized hchange.valid hfit, hfit]
  · obtain ⟨error, herr, hsmall, hfence⟩ := buildLeaf_of_lt hshape.sized hchange.valid (Nat.lt_of_not_le hfit)
    -- the fence of the leaf did fit, so the entries are what does not
    have hcapacity := hsmall.leafCapacityError (hfence ((fenceLength_le_pageBytes _ _).trans hleaf.fits))
    rw [herr]
    dsimp only
    rw [if_pos hcapacity]
    by_cases hlength : (upsertLeafEntry entries key value).length < 2
    · simp [hlength, hfit]
    · simp [hlength, hfit, not_lt.mp hlength]

/-- A root leaf with one entry. -/
def oneEntry (pageSize : ℕ) : Tree :=
  ⟨pageSize, (∅ : OrdMap PageId Page).insert 0 (.leaf none [⟨[1], .inline []⟩]), 0, 1⟩

theorem oneEntry_shaped {pageSize : ℕ} (hsized : PageSized pageSize) (hfits : 79 ≤ pageSize) :
    Shaped (oneEntry pageSize) (.single 0) [] where
  sized := hsized
  allocatable := show 1 ≤ reservedPageId by decide
  known := by simp [Known, Level.single, levelIds, oneEntry]
  linked := by
    refine ⟨⟨[⟨[1], .inline []⟩], rfl, ⟨List.pairwise_singleton _ _, ?_⟩, hfits.trans' (by decide), ?_⟩, trivial⟩
    · simp [EntryShape.Plain, LeafEntry.shape, LeafValue.length, u16Max]
    · simp [nil_le_key]
  stack := by simp [Stack, Level.single]; rfl

/-- The leaf of 91 bytes is one too small for a second entry, and is split under a new root. -/
theorem preflight_upsert_iff_room_split :
    preflightInlineUpsert 91 [2] [] = .ok () ∧ ((oneEntry 91).upsert [2] []).writes.length = 6 ∧
      (oneEntry 91).Room [2] [] := by
  refine ⟨rfl, by decide +kernel, ?_⟩
  exact (preflight_upsert_iff_room (oneEntry_shaped ⟨by decide, by decide⟩ (by decide)) rfl).mp (by decide +kernel)

def tightTree : Tree := oneEntry 79

/-- The pair fits an empty leaf, and the entry beside it does not fit with the pair's key as its
fence. -/
theorem preflight_accepts_upsert_refuses :
    (∃ leaves uppers, Shaped tightTree leaves uppers) ∧ preflightInlineUpsert tightTree.pageSize [2, 2] [] = .ok () ∧
      (tightTree.upsert [2, 2] []).result = .error .entryTooLarge :=
  ⟨⟨_, _, oneEntry_shaped ⟨by decide, by decide⟩ le_rfl⟩, rfl, by decide⟩

end OmenDb.Vnext
