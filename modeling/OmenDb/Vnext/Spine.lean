import OmenDb.Vnext.TreeMap

/-! How deep a tree gets. With keys of 14 bytes and values of 40 on pages of 145, a leaf or an internal
page with a fence has room for one entry, and the root for two. Keys that arrive in falling order then
split every page on the left edge, and every second one makes the tree a level deeper. -/
namespace OmenDb.Vnext

/-- The left edge above a page: internal pages whose first child is the one below, with the first
separator of each. The top page has a second entry if `twice`. -/
inductive Spine (tree : Tree) : Bool → PageId → List PageId → List Bytes → Prop
  | narrow {child page : PageId} {first : InternalEntry}
      (hpage : tree.pages[page]? = some (.internal none child [first]))
      (hroot : tree.root = page) (hallocated : page < tree.nextPage) (hlength : first.key.length = 14)
      (hchild : first.child ≠ reservedPageId) : Spine tree false child [page] [first.key]
  | wide {child page : PageId} {first second : InternalEntry}
      (hpage : tree.pages[page]? = some (.internal none child [first, second])) (hroot : tree.root = page)
      (hallocated : page < tree.nextPage) (hlength : first.key.length = 14 ∧ second.key.length = 14)
      (hchild : first.child ≠ reservedPageId ∧ second.child ≠ reservedPageId) (hlt : first.key < second.key) :
      Spine tree true child [page] [first.key]
  | link {twice : Bool} {child page : PageId} {path : List PageId} {first : InternalEntry} {fence : Fence}
      {above : Bytes}
      {keys : List Bytes} (hpage : tree.pages[page]? = some (.internal (some fence) child [first]))
      (hallocated : page < tree.nextPage)
      (hlength : first.key.length = 14 ∧ fence.key.length = 14) (hchild : first.child ≠ reservedPageId)
      (hfence : first.key < fence.key)
      (hlt : first.key < above) (hapart : page ∉ path) (hrest : Spine tree twice page path (above :: keys)) :
      Spine tree twice child (page :: path) (first.key :: above :: keys)

variable {tree : Tree} {twice : Bool} {child page : PageId} {path : List PageId} {keys : List Bytes}
    {high : Option Fence}
  {key first : Bytes} {α : Type}

theorem Spine.frame {tree' : Tree}
    (h : Spine tree twice child path keys) (hpages : ∀ id ∈ path, tree'.pages[id]? = tree.pages[id]?)
    (hroot : tree'.root = tree.root) (hnext : tree.nextPage ≤ tree'.nextPage) : Spine tree' twice child path keys := by
  induction h with
  | narrow hpage hroot' hallocated hlength hchild =>
    exact .narrow ((hpages _ (by simp)).trans hpage) (hroot.trans hroot') (hallocated.trans_le hnext) hlength hchild
  | wide hpage hroot' hallocated hlength hchild hlt =>
    exact .wide ((hpages _ (by simp)).trans hpage) (hroot.trans hroot') (hallocated.trans_le hnext) hlength hchild hlt
  | link hpage hallocated hlength hchild hfence hlt hapart _ ih =>
    exact .link ((hpages _ (by simp)).trans hpage) (hallocated.trans_le hnext) hlength hchild hfence hlt hapart
      (ih fun id hid => hpages id (by simp [hid]))

theorem Spine.id_lt {id : PageId}
    (h : Spine tree twice child path keys) (hid : id ∈ path) : id < tree.nextPage := by
  induction h with
  | narrow _ _ hallocated | wide _ _ hallocated => simpa [List.mem_singleton.mp hid] using hallocated
  | link _ hallocated _ _ _ _ _ _ ih =>
    rcases List.mem_cons.mp hid with rfl | hid
    · exact hallocated
    · exact ih hid

theorem childForKey_of_lt {leftmost : PageId} {entries : List InternalEntry}
    (hs : Keyed.Sorted InternalEntry.key entries) (hlt : ∀ entry ∈ entries, key < entry.key) :
    (Page.internal high leftmost entries).childForKey key = .ok leftmost := by
  obtain ⟨child, hchild, rfl | ⟨entry, hentry, hle, -⟩⟩ := @Page.childForKey_internal high leftmost _ hs key
  · exact hchild
  · exact absurd hle (not_le.mpr (hlt entry hentry))

theorem Spine.reaches (h : Spine tree twice child path (first :: keys)) (hlt : key < first) :
    Reaches tree key path.length child path := by
  induction path generalizing child first keys with
  | nil => cases h
  | cons page path ih =>
    cases h with
    | narrow hpage hroot _ _ _ =>
      subst hroot
      refine .down .root hpage (followRight_none rfl key) rfl (childForKey_of_lt (List.pairwise_singleton _ _) ?_)
      simpa using hlt
    | @wide _ _ entry second hpage hroot _ _ _ hlt' =>
      subst hroot
      refine .down .root hpage (followRight_none rfl key) rfl
        (childForKey_of_lt (by simpa [Keyed.Sorted] using hlt') ?_)
      simpa using ⟨hlt, hlt.trans hlt'⟩
    | @link _ _ _ _ entry fence above keys hpage _ _ _ hfence habove _ hrest =>
      refine .down (ih hrest (hlt.trans habove)) hpage ?_ rfl (childForKey_of_lt (List.pairwise_singleton _ _) ?_)
      · rw [Page.followRight]
        exact if_neg (not_le.mpr (hlt.trans hfence))
      · simpa using hlt

theorem insertAt_of_lt {keyOf : α → Bytes} {entries : List α} {entry : α} {i : ℕ}
    (hlt : ∀ other ∈ entries, keyOf entry < keyOf other)
    (hfits : Keyed.Slot.Fits keyOf entries (keyOf entry) (.missing i)) :
    Keyed.insertAt entries i entry = entry :: entries := by
  cases entries with
  | nil => simp [Keyed.insertAt]
  | cons other entries =>
    cases i with
    | zero => rfl
    | succ i => exact absurd (hfits.1 other (by simp)) (lt_asymm (hlt other (by simp)))

/-- What else the way up does: it writes the pages of the edge and new ones. -/
structure Raised (tree tree' : Tree) (path path' : List PageId) : Prop where
  ids : ∀ id ∈ path', id ∈ path ∨ tree.nextPage ≤ id
  kept : ∀ id < tree.nextPage, id ∉ path → tree'.pages[id]? = tree.pages[id]?
  next : tree.nextPage ≤ tree'.nextPage
  few : tree'.nextPage ≤ tree.nextPage + path.length + 1
  size : tree'.pageSize = tree.pageSize

theorem pageBytes_alike {shape : α → EntryShape} {entries : List α} {n : ℕ}
    (h : ∀ entry ∈ entries, (shape entry).length = n) :
    pageBytes high (entries.map shape) = 64 + fenceLength high + (12 + n) * entries.length := by
  have hsum : (entries.map fun entry => slotSize + (shape entry).length) = List.replicate entries.length (12 + n) := by
    rw [List.eq_replicate_iff]
    simpa [slotSize] using h
  rw [pageBytes, List.map_map, Function.comp_def, hsum, List.sum_replicate, smul_eq_mul, Nat.mul_comm]
  rfl

theorem pageBytes_short {high : Option Fence} {entries : List InternalEntry}
    (hkeys : ∀ entry ∈ entries, entry.key.length = 14) :
    pageBytes high (entries.map InternalEntry.shape) = 64 + fenceLength high + 34 * entries.length :=
  pageBytes_alike (n := 22) fun entry hentry => by simp [InternalEntry.shape, EntryShape.length, hkeys entry hentry]

theorem chooseInternalSplit_pair {first second : InternalEntry} {split : ℕ}
    (h : chooseInternalSplit [first, second] = .ok split) : split = 1 := by
  obtain ⟨hone, hlt⟩ := chooseInternalSplit_one h
  simp only [List.length_cons, List.length_nil] at hlt
  omega

theorem chooseInternalSplit_triple {first second third : InternalEntry} (hfirst : first.key.length = 14)
    (hsecond : second.key.length = 14)
    (hthird : third.key.length = 14) : chooseInternalSplit [first, second, third] = .ok 1 := by
  simp [chooseInternalSplit, hfirst, hsecond, hthird, slotSize]
  rfl

theorem splitWrites_frame {left right : Page} {writes : List PageWrite}
    (h : writes = splitWrites tree page left right) : (tree.applyWrites writes).nextPage = tree.nextPage + 1 ∧
      (tree.applyWrites writes).pageSize = tree.pageSize ∧ (tree.applyWrites writes).root = tree.root := by
  subst h
  exact ⟨rfl, rfl, rfl⟩

theorem Spine.after_split (h : Spine tree twice page path keys) (hapart : page ∉ path) (left right : Page) :
    Spine (tree.applyWrites (splitWrites tree page left right)) twice page path keys := by
  refine h.frame (fun id hid => ?_) rfl (Nat.le_succ _)
  rw [get_splitWrites, if_neg, if_neg (h.id_lt hid).ne']
  rintro rfl
  exact hapart hid

/-- The way up ends well: the separators of the edge move up by one page. -/
def Lifts (tree : Tree) (plan : Plan Unit) (twice : Bool) (child : PageId) (path : List PageId)
    (separator : Bytes) : Prop :=
  plan.result = .ok () ∧ ∃ path' keys', Spine (tree.applyWrites plan.writes) (!twice) child path' (separator :: keys') ∧
    path'.length = path.length + (if twice then 1 else 0) ∧ Raised tree (tree.applyWrites plan.writes) path path'

section Lifts

variable {tree : Tree} {child page right : PageId} {path : List PageId} {separator : Bytes} {plan : Plan Unit}
  {entry second : InternalEntry} {fence : Fence}

theorem parentStep_least {high : Option Fence} {entries : List InternalEntry} (hsized : PageSized tree.pageSize)
    (hright : right ≠ reservedPageId) (hchild : child ≠ reservedPageId) (hshort : separator.length ≤ u16Max)
    (hpage : tree.pages[page]? = some (.internal high child entries)) (hvalid : InternalEntries entries)
    (hhere : (Page.internal high child entries).followRight separator = none)
    (hlt : ∀ other ∈ entries, separator < other.key) :
    ParentStep tree page path high child (⟨separator, right⟩ :: entries)
      (tree.propagateSplit (page :: path) separator right) := by
  obtain ⟨i, -, hslot, -, hstep⟩ :=
    @propagateSplit_parent tree page right path high child entries separator hsized hright
    ⟨hpage, hvalid, hchild, hhere, fun other hother => (hlt other hother).ne', hshort⟩
  rwa [insertAt_of_lt hlt hslot] at hstep

theorem Lifts.narrow (hstep : ParentStep tree page [] none child [⟨separator, right⟩, entry] plan)
    (hsize : tree.pageSize = 145) (hroot : tree.root = page) (hallocated : page < tree.nextPage)
    (hlength : separator.length = 14 ∧ entry.key.length = 14)
    (hchild : right ≠ reservedPageId ∧ entry.child ≠ reservedPageId) (hlt : separator < entry.key) :
    Lifts tree plan false child [page] separator := by
  have hbytes := @pageBytes_short none [⟨separator, right⟩, entry] (by simp [hlength])
  simp only [fenceLength, Option.elim_none, List.length_cons, List.length_nil] at hbytes
  cases hstep with
  | inserted =>
    refine ⟨rfl, [page], [], ?_, rfl, ?_⟩
    · exact .wide ((Tree.get_store _ _ _ _).trans (if_pos rfl)) hroot hallocated hlength hchild hlt
    · refine ⟨fun id hid => .inl hid, ?_, le_rfl, (Nat.le_add_right _ _).trans (Nat.le_add_right _ _), rfl⟩
      intro id _ hid
      exact (Tree.get_store _ _ _ _).trans (if_neg fun heq => hid (by simp [heq]))
  | few hfull => omega
  | exhausted hfull => omega
  | tooLarge hfull => omega
  | split hfull => omega

theorem Lifts.wide (hstep : ParentStep tree page [] none child [⟨separator, right⟩, entry, second] plan)
    (hsize : tree.pageSize = 145)
    (hroom : tree.nextPage + 2 < reservedPageId) (hroot : tree.root = page) (hallocated : page < tree.nextPage)
    (hlength : separator.length = 14) (hentry : entry.key.length = 14 ∧ second.key.length = 14)
    (hright : right ≠ reservedPageId) (hlt : separator < entry.key) : Lifts tree plan true child [page] separator := by
  have hsized : PageSized tree.pageSize := by
    rw [hsize]
    exact ⟨by decide, by decide⟩
  have hnextLt : tree.nextPage < reservedPageId := (Nat.le_add_right _ _).trans_lt hroom
  have hbytes := @pageBytes_short none [⟨separator, right⟩, entry, second] (by simp [hlength, hentry])
  have hleft := @pageBytes_short (some ⟨entry.key, tree.nextPage⟩) [⟨separator, right⟩] (by simp [hlength])
  have hsecond := @pageBytes_short none [second] (by simp [hentry])
  simp only [fenceLength, Option.elim_none, Option.elim_some, List.length_cons, List.length_nil, hentry.1]
    at hbytes hleft hsecond
  cases hstep with
  | inserted hfit => omega
  | few _ hfew => simp at hfew
  | exhausted _ _ hnext => exact absurd hnext hnextLt.ne
  | tooLarge _ _ hsplit hget hlarge =>
    cases (chooseInternalSplit_triple hlength hentry.1 hentry.2).symm.trans hsplit
    cases hget
    refine absurd ⟨?_, ?_⟩ hlarge
    · exact hleft.trans_le (by omega)
    · exact hsecond.trans_le (by omega)
  | @split _ hnext split promoted hsplit hget _ _ writes hwrites rest hrest =>
    cases (chooseInternalSplit_triple hlength hentry.1 hentry.2).symm.trans hsplit
    cases hget
    have hnew := @pageBytes_short none [⟨entry.key, tree.nextPage⟩] (by simp [hentry])
    simp only [fenceLength, Option.elim_none, List.length_cons, List.length_nil] at hnew
    obtain ⟨hnext', hsize', hroot'⟩ := splitWrites_frame hwrites
    rw [hroot] at hroot'
    rcases @propagateSplit_root (tree.applyWrites writes) entry.key tree.nextPage (hsize' ▸ hsized)
        (hroot' ▸ (hallocated.trans hnextLt).ne) hnext (by simp [hentry.1, u16Max])
        with ⟨heq, -⟩ | ⟨-, hbig, -⟩ | ⟨-, -, hplan⟩
    · exact absurd (hnext'.symm.trans heq) ((Nat.lt_succ_self _).trans hroom).ne
    · rw [hsize', hsize] at hbig
      exact absurd (hbig.trans_eq hnew) (by decide)
    rw [← hrest, hroot', hnext'] at hplan
    rw [hplan, Lifts]
    dsimp only
    rw [Tree.applyWrites_append]
    have hget : ∀ id, ((tree.applyWrites writes).applyWrites [.allocate,
        .store (tree.nextPage + 1) (.internal none page [⟨entry.key, tree.nextPage⟩]),
        .promote (tree.nextPage + 1)]).pages[id]? =
        if tree.nextPage + 1 = id then some (.internal none page [⟨entry.key, tree.nextPage⟩])
        else if page = id then some (.internal (some ⟨entry.key, tree.nextPage⟩) child [⟨separator, right⟩])
        else if tree.nextPage = id then some (.internal none entry.child [second]) else tree.pages[id]? := by
      intro id
      refine (Tree.get_store (((tree.applyWrites writes).applyWrite .allocate)) _ _ _).trans ?_
      rw [hwrites]
      exact if_congr Iff.rfl rfl (get_splitWrites _ _ _ _ _)
    have hpageNe : tree.nextPage + 1 ≠ page := (hallocated.trans (Nat.lt_succ_self _)).ne'
    refine ⟨rfl, [page, tree.nextPage + 1], [entry.key], ?_, rfl, ?_, ?_, ?_, ?_, hsize'⟩
    · have htop := @Spine.narrow _ page _ _ ((hget _).trans (if_pos rfl)) rfl
        (lt_of_lt_of_eq (Nat.lt_succ_self _) (congrArg (· + 1) hnext').symm) hentry.1 hnext
      refine @Spine.link _ _ child page _ ⟨separator, right⟩ ⟨entry.key, tree.nextPage⟩ _ _ ((hget page).trans ?_) ?_
        ⟨hlength, hentry.1⟩
        hright hlt hlt ?_ htop
      · rw [if_neg hpageNe, if_pos rfl]
      · exact hallocated.trans (lt_of_lt_of_eq (by simp) (congrArg (· + 1) hnext').symm)
      · simpa using hpageNe.symm
    · intro id hid
      simp only [List.mem_cons, List.not_mem_nil, or_false] at hid ⊢
      rcases hid with rfl | rfl
      · exact .inl rfl
      · exact .inr (Nat.le_succ _)
    · intro id hlt hid
      rw [hget, if_neg (hlt.trans (Nat.lt_succ_self _)).ne', if_neg fun heq => hid (by simp [heq]), if_neg hlt.ne']
    · exact (Nat.le_add_right tree.nextPage 2).trans (congrArg (· + 1) hnext').ge
    · exact (congrArg (· + 1) hnext').le

theorem Lifts.link {twice : Bool}
    (hstep : ParentStep tree page path (some fence) child [⟨separator, right⟩, entry] plan)
    (hsize : tree.pageSize = 145) (hnextLt : tree.nextPage < reservedPageId) (hallocated : page < tree.nextPage)
    (hapart : page ∉ path)
    (hlength : separator.length = 14) (hentry : entry.key.length = 14 ∧ fence.key.length = 14)
    (hright : right ≠ reservedPageId) (hlt : separator < entry.key)
    (hrest : ∀ left right, Lifts (tree.applyWrites (splitWrites tree page left right))
      ((tree.applyWrites (splitWrites tree page left right)).propagateSplit path entry.key tree.nextPage) twice page
        path entry.key) : Lifts tree plan twice child (page :: path) separator := by
  have hbytes := @pageBytes_short (some fence) [⟨separator, right⟩, entry] (by simp [hlength, hentry])
  have hleft := @pageBytes_short (some ⟨entry.key, tree.nextPage⟩) [⟨separator, right⟩] (by simp [hlength])
  have hempty := @pageBytes_short (some fence) [] (by simp)
  simp only [fenceLength, Option.elim_some, List.length_cons, List.length_nil, hentry.1, hentry.2]
    at hbytes hleft hempty
  cases hstep with
  | inserted hfit => omega
  | few _ hfew => simp at hfew
  | exhausted _ _ hnext => exact absurd hnext hnextLt.ne
  | tooLarge _ _ hsplit hget hlarge =>
    cases chooseInternalSplit_pair hsplit
    cases hget
    refine absurd ⟨?_, ?_⟩ hlarge
    · exact hleft.trans_le (by omega)
    · exact hempty.trans_le (by omega)
  | @split _ hnext split promoted hsplit hget _ _ writes hwrites plan hplan =>
    cases chooseInternalSplit_pair hsplit
    cases hget
    have hup : Lifts (tree.applyWrites writes) plan twice page path entry.key := by
      rw [hplan, hwrites]
      exact hrest _ _
    obtain ⟨hok, path', keys', hspine, hpath', hraised⟩ := hup
    have hget : ∀ id, (tree.applyWrites writes).pages[id]? =
        if page = id then some (.internal (some ⟨entry.key, tree.nextPage⟩) child [⟨separator, right⟩])
        else if tree.nextPage = id then some (.internal (some fence) entry.child []) else tree.pages[id]? := by
      rw [hwrites]
      exact get_splitWrites _ _ _ _
    obtain ⟨hnext', hsize', -⟩ := splitWrites_frame hwrites
    have hle : tree.nextPage ≤ (tree.applyWrites writes).nextPage := hnext'.symm ▸ Nat.le_succ _
    refine ⟨hok, page :: path', entry.key :: keys', ?_, ?_, ?_⟩
    · refine @Spine.link _ _ child page path' ⟨separator, right⟩ ⟨entry.key, tree.nextPage⟩ entry.key keys' ?_ ?_
        ⟨hlength, hentry.1⟩
        hright hlt hlt ?_ ?_
      · rw [Tree.applyWrites_append, hraised.kept page (hallocated.trans_le hle) hapart, hget, if_pos rfl]
      · rw [Tree.applyWrites_append]
        exact (hallocated.trans_le hle).trans_le hraised.next
      · intro hmem
        rcases hraised.ids page hmem with hold | hnew
        · exact hapart hold
        · exact absurd hallocated (not_lt.mpr (hle.trans hnew))
      · rw [Tree.applyWrites_append]
        exact hspine
    · rw [List.length_cons, List.length_cons, hpath', Nat.add_right_comm]
    · rw [Tree.applyWrites_append]
      refine ⟨?_, ?_, ?_, ?_, hraised.size.trans hsize'⟩
      · intro id hid
        rcases List.mem_cons.mp hid with rfl | hid
        · exact .inl (by simp)
        · rcases hraised.ids id hid with hold | hnew
          · exact .inl (by simp [hold])
          · exact .inr (hle.trans hnew)
      · intro id hid hpath
        rw [hraised.kept id (hid.trans_le hle) fun hmem => hpath (by simp [hmem]), hget,
          if_neg fun heq => hpath (by simp [heq]), if_neg hid.ne']
      · exact hle.trans hraised.next
      · refine hraised.few.trans (le_of_eq ?_)
        rw [hnext', List.length_cons]
        ring

end Lifts

theorem Spine.propagate {right : PageId} {separator : Bytes} (h : Spine tree twice child path (first :: keys))
    (hsize : tree.pageSize = 145)
    (hroom : tree.nextPage + path.length + 1 < reservedPageId) (hlength : separator.length = 14)
    (hlt : separator < first) (hright : right ≠ reservedPageId) (hchild : child ≠ reservedPageId) :
    Lifts tree (tree.propagateSplit path separator right) twice child path separator := by
  have hsized : PageSized tree.pageSize := by
    rw [hsize]
    exact ⟨by decide, by decide⟩
  have hshort : separator.length ≤ u16Max := by simp [hlength, u16Max]
  induction path generalizing tree child right first separator keys with
  | nil => cases h
  | cons page path ih =>
    have hnextLt : tree.nextPage < reservedPageId :=
      lt_of_le_of_lt ((Nat.le_add_right _ _).trans (Nat.le_add_right _ _)) hroom
    cases h with
    | @narrow _ _ entry hpage hroot hallocated hentry hentryChild =>
      have hvalid : InternalEntries [entry] :=
        ⟨List.pairwise_singleton _ _, by simpa using InternalEntry.plain (by simp [hentry, u16Max]) hentryChild⟩
      exact .narrow (parentStep_least hsized hright hchild hshort hpage hvalid (followRight_none rfl _)
        (by simpa using hlt)) hsize hroot hallocated ⟨hlength, hentry⟩ ⟨hright, hentryChild⟩ hlt
    | @wide _ _ entry second hpage hroot hallocated hentry hentryChild hlt' =>
      have hvalid : InternalEntries [entry, second] := by
        refine ⟨by simpa [Keyed.Sorted] using hlt', ?_⟩
        simpa using ⟨InternalEntry.plain (by simp [hentry.1, u16Max]) hentryChild.1,
          InternalEntry.plain (by simp [hentry.2, u16Max]) hentryChild.2⟩
      exact .wide (parentStep_least hsized hright hchild hshort hpage hvalid (followRight_none rfl _)
        (by simpa using ⟨hlt, hlt.trans hlt'⟩)) hsize hroom hroot hallocated hlength hentry hright hlt
    | @link _ _ _ _ entry fence above keys hpage hallocated hentry hentryChild hfence habove hapart hrest =>
      have hvalid : InternalEntries [entry] :=
        ⟨List.pairwise_singleton _ _, by simpa using InternalEntry.plain (by simp [hentry.1, u16Max]) hentryChild⟩
      refine .link (parentStep_least hsized hright hchild hshort hpage hvalid (if_neg (not_le.mpr (hlt.trans hfence)))
        (by simpa using hlt)) hsize hnextLt hallocated hapart hlength hentry hright hlt fun left right => ?_
      refine ih (hrest.after_split hapart left right) hsize ?_ hentry.1 habove hnextLt.ne
        (hallocated.trans hnextLt).ne hsized
        (by simp [hentry.1, u16Max])
      exact lt_of_eq_of_lt (Nat.add_right_comm tree.nextPage 1 (path.length + 1) |>.trans rfl) hroom

/-- A tree with a left edge of this many internal pages, one entry in its first leaf and the first
separator over it. -/
def Deep (tree : Tree) (twice : Bool) (height : ℕ) (least first : Bytes) : Prop :=
  ∃ leaf path keys fence value, Spine tree twice leaf path (first :: keys) ∧ path.length = height ∧
    tree.pages[leaf]? = some (.leaf (some fence) [⟨least, .inline value⟩]) ∧ least.length = 14 ∧ fence.key.length = 14 ∧
    value.length = 40 ∧ least < fence.key ∧ least < first ∧ leaf < tree.nextPage ∧ leaf ∉ path ∧ tree.pageSize = 145

theorem LeafEntry.plain {entry : LeafEntry} (hkey : entry.key.length = 14) (hvalue : entry.value.length = 40) :
    entry.shape.Plain := by
  refine ⟨?_, ?_, rfl⟩
  · simp [shape, hkey, u16Max]
  · simp [shape, hvalue, u16Max]

theorem pageBytes_leaf {high : Option Fence} {entries : List LeafEntry}
    (hentries : ∀ entry ∈ entries, entry.key.length = 14 ∧ entry.value.length = 40) :
    pageBytes high (entries.map LeafEntry.shape) = 64 + fenceLength high + 67 * entries.length :=
  pageBytes_alike (n := 55) fun entry hentry => by simp [LeafEntry.shape, EntryShape.length, hentries entry hentry]

theorem chooseLeafSplit_pair {first second : LeafEntry} {split : ℕ} (h : chooseLeafSplit [first, second] = .ok split) :
    split = 1 := by
  obtain ⟨hone, hlt⟩ := chooseLeafSplit_one h
  simp only [List.length_cons, List.length_nil] at hlt
  omega

section Deep

variable {tree : Tree} {twice : Bool} {height : ℕ} {least first key value : Bytes}

theorem Deep.split {leaf : PageId} {path : List PageId} {keys : List Bytes} {fence : Fence} {old : Bytes}
    (hspine : Spine tree twice leaf path (first :: keys)) (hleast : least.length = 14) (hfence : fence.key.length = 14)
    (hold : old.length = 40) (hfirst : least < first) (hleaf : leaf < tree.nextPage) (hapart : leaf ∉ path)
    (hsize : tree.pageSize = 145) (hroom : tree.nextPage + path.length + 2 < reservedPageId) (hkey : key.length = 14)
    (hvalue : value.length = 40) (hlt : key < least) :
    (tree.splitLeaf leaf (some fence) [⟨key, .inline value⟩, ⟨least, .inline old⟩] path).result = .ok () ∧
      Deep (tree.applyWrites (tree.splitLeaf leaf (some fence) [⟨key, .inline value⟩, ⟨least, .inline old⟩]
        path).writes) (!twice) (path.length + (if twice then 1 else 0)) key least ∧
      (tree.applyWrites (tree.splitLeaf leaf (some fence) [⟨key, .inline value⟩, ⟨least, .inline old⟩]
        path).writes).nextPage ≤
        tree.nextPage + path.length + 2 := by
  have hsized : PageSized tree.pageSize := by
    rw [hsize]
    exact ⟨by decide, by decide⟩
  have hnextLt : tree.nextPage < reservedPageId :=
    lt_of_le_of_lt ((Nat.le_add_right _ _).trans (Nat.le_add_right _ _)) hroom
  have he : LeafEntries [⟨key, .inline value⟩, ⟨least, .inline old⟩] := by
    refine ⟨by simpa [Keyed.Sorted] using hlt, ?_⟩
    simpa using ⟨LeafEntry.plain hkey hvalue, LeafEntry.plain hleast hold⟩
  have hstep := @splitLeaf_step tree leaf path (some fence) _ hsized he
  have hleft := @pageBytes_leaf (some ⟨least, tree.nextPage⟩) [⟨key, .inline value⟩] (by simpa using ⟨hkey, hvalue⟩)
  have hright := @pageBytes_leaf (some fence) [⟨least, .inline old⟩] (by simpa using ⟨hleast, hold⟩)
  simp only [fenceLength, Option.elim_some, List.length_cons, List.length_nil, hleast, hfence] at hleft hright
  generalize tree.splitLeaf leaf (some fence) [⟨key, .inline value⟩, ⟨least, .inline old⟩] path = plan at hstep ⊢
  cases hstep with
  | few hfew => simp at hfew
  | exhausted _ hnext => exact absurd hnext hnextLt.ne
  | tooLarge _ hsplit hget hlarge =>
    cases chooseLeafSplit_pair hsplit
    cases hget
    refine absurd ⟨?_, ?_⟩ hlarge
    · exact hleft.trans_le (by omega)
    · exact hright.trans_le (by omega)
  | @split hnext split _ hsplit _ hget _ _ writes hwrites plan hplan =>
    cases chooseLeafSplit_pair hsplit
    cases hget
    have hget : ∀ id, (tree.applyWrites writes).pages[id]? =
        if leaf = id then some (.leaf (some ⟨least, tree.nextPage⟩) [⟨key, .inline value⟩])
        else if tree.nextPage = id then some (.leaf (some fence) [⟨least, .inline old⟩]) else tree.pages[id]? := by
      rw [hwrites]
      exact get_splitWrites _ _ _ _
    obtain ⟨hnext', hsize', -⟩ := splitWrites_frame hwrites
    rw [hsize] at hsize'
    have hle : tree.nextPage ≤ (tree.applyWrites writes).nextPage := hnext'.symm ▸ Nat.le_succ _
    have hspine' : Spine (tree.applyWrites writes) twice leaf path (first :: keys) := by
      rw [hwrites]
      exact hspine.after_split hapart _ _
    have hroom' : (tree.applyWrites writes).nextPage + path.length + 1 < reservedPageId := by
      rw [hnext', Nat.add_right_comm tree.nextPage]
      exact hroom
    obtain ⟨hok, path', keys', hspine', hpath', hraised⟩ :=
      hspine'.propagate hsize' hroom' hleast hfirst hnext (hleaf.trans hnextLt).ne
    subst hplan
    dsimp only
    rw [Tree.applyWrites_append]
    refine ⟨hok, ⟨leaf, path', keys', ⟨least, tree.nextPage⟩, value, hspine', hpath', ?_, hkey, hleast,
      hvalue, hlt, hlt, ?_, ?_, hraised.size.trans hsize'⟩, ?_⟩
    · rw [hraised.kept leaf (hleaf.trans_le hle) hapart, hget, if_pos rfl]
    · exact (hleaf.trans_le hle).trans_le hraised.next
    · intro hmem
      rcases hraised.ids leaf hmem with hin | hnew
      · exact hapart hin
      · exact absurd hleaf (not_lt.mpr (hle.trans hnew))
    · refine hraised.few.trans (le_of_eq ?_)
      rw [hnext']
      ring

theorem Deep.near (h : Deep tree twice height least first) (hheight : height < maxRoutingDepth) :
    ∃ value, tree.lookup least = .ok (.found value) := by
  obtain ⟨leaf, path, keys, fence, old, hspine, rfl, hpage, -, -, -, hbefore, hfirst, -⟩ := h
  have hfind := (hspine.reaches hfirst).findLeafPath_leaf hpage rfl (if_neg (not_le.mpr hbefore))
  have hfits := search_fits (List.pairwise_singleton (fun a b : LeafEntry => a.key < b.key) ⟨least, .inline old⟩) least
  refine ⟨old, ?_⟩
  rw [Tree.lookup, hfind, if_pos hheight]
  dsimp only
  cases hsearch : search LeafEntry.key [⟨least, .inline old⟩] least with
  | found i =>
    rw [hsearch] at hfits
    obtain ⟨entry, hget, -⟩ := hfits
    dsimp only
    rw [hget, List.mem_singleton.mp (List.mem_of_getElem? hget)]
    rfl
  | missing i =>
    rw [hsearch] at hfits
    exact absurd rfl (Keyed.get?_eq_none_iff.mp (Keyed.get?_of_missing hfits) _ (List.mem_singleton_self _))

theorem Deep.far (h : Deep tree twice height least first) (hheight : maxRoutingDepth ≤ height) (hle : key ≤ first) :
    tree.findLeafPath key = .error .routingDepthExceeded := by
  obtain ⟨leaf, path, keys, fence, old, hspine, rfl, -⟩ := h
  have hreach : ∃ child, Reaches tree key path.length child path := by
    cases hspine with
    | narrow | wide => simp [maxRoutingDepth] at hheight
    | @link _ _ _ _ entry fence above keys hpage _ _ _ hfence habove _ hrest =>
      obtain ⟨child, hchild, -⟩ :=
        @Page.childForKey_internal (some fence) leaf [entry] (List.pairwise_singleton _ _) key
      exact ⟨child, .down (hrest.reaches (hle.trans_lt habove)) hpage
        (if_neg (not_le.mpr (hle.trans_lt hfence))) rfl hchild⟩
  obtain ⟨child, hreach⟩ := hreach
  rw [hreach.findLeafPath]
  by_cases hlast : path.length ≤ maxRoutingDepth
  · rw [if_pos hlast, Nat.sub_eq_zero_of_le hheight, Tree.findLeafLoop]
  · rw [if_neg hlast]

theorem upsertLeafEntry_of_lt {old : Bytes} (hlt : key < least) :
    search LeafEntry.key [⟨least, .inline old⟩] key = .missing 0 ∧
      upsertLeafEntry [⟨least, .inline old⟩] key value = [⟨key, .inline value⟩, ⟨least, .inline old⟩] := by
  obtain ⟨i, hsearch, hfits⟩ :=
    @search_missing _ LeafEntry.key [⟨least, .inline old⟩] (List.pairwise_singleton _ _) key (by simpa using hlt.ne')
  have hzero : i = 0 := by
    by_contra hne
    have hmem : (⟨least, .inline old⟩ : LeafEntry) ∈ [(⟨least, .inline old⟩ : LeafEntry)].take i := by
      obtain ⟨j, rfl⟩ := Nat.exists_eq_succ_of_ne_zero hne
      simp
    exact absurd (hfits.1 _ hmem) (lt_asymm hlt)
  subst hzero
  refine ⟨hsearch, ?_⟩
  rw [upsertLeafEntry, hsearch]
  rfl

theorem Deep.leaf (h : Deep tree twice height least first) (hheight : height < maxRoutingDepth) (hlt : key < least) :
    ∃ leaf path keys fence old, Spine tree twice leaf path (first :: keys) ∧ path.length = height ∧
      tree.findLeafPath key = .ok (leaf, .leaf (some fence) [⟨least, .inline old⟩], path) ∧
      (Page.leaf (some fence) [⟨least, .inline old⟩]).followRight key = none ∧ least.length = 14 ∧
        fence.key.length = 14 ∧ old.length = 40 ∧
      least < first ∧ leaf < tree.nextPage ∧ leaf ∉ path ∧ tree.pageSize = 145 := by
  obtain ⟨leaf, path, keys, fence, old, hspine, rfl, hpage, hleast, hfence, hold, hbefore, hfirst, hleaf,
    hapart, hsize⟩ := h
  have hhere : (Page.leaf (some fence) [⟨least, .inline old⟩]).followRight key = none :=
    if_neg (not_le.mpr (hlt.trans hbefore))
  have hfind := (hspine.reaches (hlt.trans hfirst)).findLeafPath_leaf hpage rfl hhere
  rw [if_pos hheight] at hfind
  exact ⟨leaf, path, keys, fence, old, hspine, rfl, hfind, hhere, hleast, hfence, hold, hfirst, hleaf, hapart, hsize⟩

theorem pageBytes_two {fence : Fence} {old : Bytes} (hfence : fence.key.length = 14) (hleast : least.length = 14)
    (hold : old.length = 40) (hkey : key.length = 14) (hvalue : value.length = 40) :
    145 < pageBytes (some fence) ([⟨key, .inline value⟩, ⟨least, .inline old⟩].map LeafEntry.shape) := by
  have hbytes := @pageBytes_leaf (some fence) [⟨key, .inline value⟩, ⟨least, .inline old⟩]
    (by simpa using ⟨⟨hkey, hvalue⟩, hleast, hold⟩)
  simp only [fenceLength, Option.elim_some, List.length_cons, List.length_nil, hfence] at hbytes
  omega

theorem Deep.insert (h : Deep tree twice height least first) (hheight : height < maxRoutingDepth)
    (hroom : tree.nextPage + height + 2 < reservedPageId) (hkey : key.length = 14) (hvalue : value.length = 40)
    (hlt : key < least) : (tree.insert key value).result = .ok () ∧
      Deep (tree.applyWrites (tree.insert key value).writes) (!twice) (height + (if twice then 1 else 0)) key least ∧
      (tree.applyWrites (tree.insert key value).writes).nextPage ≤ tree.nextPage + height + 2 := by
  obtain ⟨leaf, path, keys, fence, old, hspine, rfl, hfind, hhere, hleast, hfence, hold, hfirst, hleaf, hapart,
    hsize⟩ := h.leaf hheight hlt
  obtain ⟨hsearch, hentries⟩ := @upsertLeafEntry_of_lt least key value old hlt
  have hbytes := pageBytes_two hfence hleast hold hkey hvalue
  have hplan : tree.insert key value =
      tree.splitLeaf leaf (some fence) [⟨key, .inline value⟩, ⟨least, .inline old⟩] path := by
    have hvalid : validateInlineEntry key value = .ok () := by
      rw [validateInlineEntry, hkey, hvalue]
      rfl
    rw [Tree.insert, hvalid]
    dsimp only
    rw [hfind]
    dsimp only
    rw [tryInsertInline_eq (List.pairwise_singleton _ _) hhere (by simp [hkey, u16Max]) (by simp [hvalue, u16Max]),
      hentries, if_neg (by simpa using hlt.ne'), if_neg (by omega)]
    dsimp only
    rw [hsearch]
    rfl
  rw [hplan]
  exact Deep.split hspine hleast hfence hold hfirst hleaf hapart hsize hroom hkey hvalue hlt

end Deep

end OmenDb.Vnext
