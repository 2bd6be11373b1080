import OmenDb.Vnext.Split

/-! Changes to a leaf: stored in place, or split with the separator passed up. At every write the
tree holds either the entries from before or those after. -/
namespace OmenDb.Vnext

open Linked (Each Covers)

/-- The tree is well formed and holds these entries, in this order. -/
def HoldsEntries (tree : Tree) (entries : List LeafEntry) : Prop :=
  ∃ leaves uppers, Shaped tree leaves uppers ∧ entriesOf tree leaves.nodes = entries

/-- What happens when a leaf is split, whose entries are given with the change made. -/
inductive LeafStep (tree : Tree) (leaf : PageId) (path : List PageId) (high : Option Fence) (entries : List LeafEntry) :
    Plan Unit → Prop
  | few (hlength : entries.length < 2) :
      LeafStep tree leaf path high entries ⟨[], .error (.corruption leaf .fewEntries)⟩
  | exhausted (hlength : 2 ≤ entries.length) (hnext : tree.nextPage = reservedPageId) :
    LeafStep tree leaf path high entries ⟨[], .error .pageIdExhausted⟩
  | tooLarge (hnext : tree.nextPage ≠ reservedPageId) {split : ℕ} {first : LeafEntry}
      (hsplit : chooseLeafSplit entries = .ok split) (hget : entries[split]? = some first)
      (hlarge : ¬(pageBytes (some ⟨first.key, tree.nextPage⟩) ((entries.take split).map LeafEntry.shape) ≤
        tree.pageSize ∧ pageBytes high ((entries.drop split).map LeafEntry.shape) ≤ tree.pageSize)) :
    LeafStep tree leaf path high entries ⟨[.allocate], .error .entryTooLarge⟩
  | split (hnext : tree.nextPage ≠ reservedPageId) {split : ℕ} {first : LeafEntry}
      (hsplit : chooseLeafSplit entries = .ok split) (hone : 1 ≤ split) (hget : entries[split]? = some first)
      (hleft : pageBytes (some ⟨first.key, tree.nextPage⟩) ((entries.take split).map LeafEntry.shape) ≤ tree.pageSize)
      (hright : pageBytes high ((entries.drop split).map LeafEntry.shape) ≤ tree.pageSize) {writes : List PageWrite}
      (hwrites : writes = splitWrites tree leaf (.leaf (some ⟨first.key, tree.nextPage⟩) (entries.take split))
        (.leaf high (entries.drop split)))
      {rest : Plan Unit} (hrest : rest = (tree.applyWrites writes).propagateSplit path first.key tree.nextPage) :
    LeafStep tree leaf path high entries ⟨writes ++ rest.writes, rest.result⟩

theorem splitLeaf_step {tree : Tree} {leaf : PageId} {path : List PageId} {high : Option Fence}
    {entries : List LeafEntry} (hsized : PageSized tree.pageSize) (he : LeafEntries entries) :
    LeafStep tree leaf path high entries (tree.splitLeaf leaf high entries path) := by
  rw [Tree.splitLeaf]
  rcases chooseLeafSplit_cases entries with ⟨hlength, hsplit⟩ | ⟨split, hsplit, hone, hlt⟩
  · rw [hsplit]
    exact .few hlength
  rw [hsplit]
  dsimp only
  have hget := List.getElem?_eq_getElem hlt
  rw [hget]
  dsimp only
  by_cases hnext : tree.nextPage = reservedPageId
  · rw [if_pos hnext]
    exact .exhausted (by omega) hnext
  rw [if_neg hnext]
  have htake := he.sublist (List.take_sublist split _)
  have hdrop := he.sublist (List.drop_sublist split _)
  by_cases hleft : pageBytes (some ⟨entries[split].key, tree.nextPage⟩) ((entries.take split).map LeafEntry.shape) ≤
    tree.pageSize
  · rw [buildLeaf_of_le hsized htake hleft]
    dsimp only
    by_cases hright : pageBytes high ((entries.drop split).map LeafEntry.shape) ≤ tree.pageSize
    · rw [buildLeaf_of_le hsized hdrop hright]
      exact .split hnext hsplit hone hget hleft hright rfl rfl
    · obtain ⟨error, herr, hsmall, -⟩ := buildLeaf_of_lt hsized hdrop (Nat.lt_of_not_le hright)
      rw [herr]
      dsimp only
      rw [mapBuildError_of_tooSmall hsmall]
      exact .tooLarge hnext hsplit hget fun hboth => hright hboth.2
  · obtain ⟨error, herr, hsmall, -⟩ := buildLeaf_of_lt hsized htake (Nat.lt_of_not_le hleft)
    rw [herr]
    dsimp only
    rw [mapBuildError_of_tooSmall hsmall]
    exact .tooLarge hnext hsplit hget fun hboth => hleft hboth.1

section Leaf

variable {tree : Tree} {leaves : Level} {uppers : List Level} {key : Bytes} {node : Node} {pre post : List Node}
  {entries entries' : List LeafEntry} {path : List PageId}

/-- New entries for the leaf in charge of a key, within its bounds. -/
structure LeafChange (node : Node) (post : List Node) (entries : List LeafEntry) : Prop where
  valid : LeafEntries entries
  range : ∀ entry ∈ entries, node.low ≤ entry.key ∧ ∀ after ∈ post.head?, entry.key < after.low

theorem Shaped.store_leaf (hshape : Shaped tree leaves uppers)
    (h : LeafFor tree leaves uppers key node pre post entries path) (hchange : LeafChange node post entries')
    (hfit : pageBytes (post.head?.map Node.fence) (entries'.map LeafEntry.shape) ≤ tree.pageSize) :
    HoldsEntries (tree.applyWrite (.store node.id (.leaf (post.head?.map Node.fence) entries')))
      (entriesOf tree pre ++ (entries' ++ entriesOf tree post)) := by
  have hget : (tree.applyWrite (.store node.id (.leaf (post.head?.map Node.fence) entries'))).pages[node.id]? =
      some (.leaf (post.head?.map Node.fence) entries') := by
    rw [Tree.get_store, if_pos rfl]
  have hother : ∀ other, other ∈ pre ∨ other ∈ post →
      (tree.applyWrite (.store node.id (.leaf (post.head?.map Node.fence) entries'))).pages[other.id]? =
        tree.pages[other.id]? := by
    intro other hmem
    rw [Tree.get_store, if_neg (Level.id_ne h.nodes hmem)]
  refine ⟨leaves, uppers, ⟨hshape.sized, hshape.allocatable, hshape.known, ?_, ?_⟩, ?_⟩
  · have hlinked := hshape.linked
    rw [h.nodes] at hlinked ⊢
    apply hlinked.replace
    · exact fun other hmem _ hat => LeafAt.frame hat rfl (hother other (.inl hmem))
    · exact fun other hmem _ hat => LeafAt.frame hat rfl (hother other (.inr hmem))
    · exact ⟨entries', hget, hchange.valid, hfit, hchange.range⟩
  · refine Stack.frame hshape.stack rfl rfl le_rfl ?_
    intro id hid
    rw [Tree.get_store, if_neg]
    rintro rfl
    exact (hshape.known node h.covers.1).2 hid
  · rw [h.nodes, entriesOf_append, entriesOf_cons, leafEntries_of_get hget, entriesOf_congr fun other hmem =>
      hother other (.inl hmem), entriesOf_congr fun other hmem => hother other (.inr hmem)]

variable {tree' : Tree} {split : ℕ} {first : LeafEntry}

theorem Shaped.of_grown {uppers' : List Level} (hsized : PageSized tree.pageSize) (hknown : Known tree leaves uppers)
    (hlinked : Each (LeafAt tree) leaves.nodes) (h : Grown tree tree' leaves uppers uppers') :
    HoldsEntries tree' (entriesOf tree leaves.nodes) := by
  refine ⟨leaves, uppers', ⟨h.size ▸ hsized, h.allocatable, ?_, ?_, h.stack⟩, ?_⟩
  · intro other hother
    obtain ⟨hlt, hapart⟩ := hknown other hother
    refine ⟨hlt.trans_le h.next, fun hmem => ?_⟩
    rcases h.ids other.id hmem with hold | hnew
    · exact hapart hold
    · exact absurd hlt (not_lt.mpr hnew)
  · apply hlinked.imp
    intro other hother next hat
    obtain ⟨hlt, hapart⟩ := hknown other hother
    exact hat.frame h.size (h.kept other.id hlt hapart)
  · apply entriesOf_congr
    intro other hother
    obtain ⟨hlt, hapart⟩ := hknown other hother
    exact h.kept other.id hlt hapart

section

variable (hshape : Shaped tree leaves uppers)
include hshape

theorem Each.split_leaf (h : LeafFor tree leaves uppers key node pre post entries path)
    (hchange : LeafChange node post entries') (hget : entries'[split]? = some first)
    (hfitLeft : pageBytes (some ⟨first.key, tree.nextPage⟩) ((entries'.take split).map LeafEntry.shape) ≤ tree.pageSize)
    (hfitRight : pageBytes (post.head?.map Node.fence) ((entries'.drop split).map LeafEntry.shape) ≤ tree.pageSize)
    (htree : tree' = tree.applyWrites
      (splitWrites tree node.id (.leaf (some ⟨first.key, tree.nextPage⟩) (entries'.take split))
      (.leaf (post.head?.map Node.fence) (entries'.drop split)))) :
    Each (LeafAt tree') (pre ++ node :: ⟨first.key, tree.nextPage⟩ :: post) ∧
      entriesOf tree' (pre ++ node :: ⟨first.key, tree.nextPage⟩ :: post) = entriesOf tree pre ++
        (entries' ++ entriesOf tree post) := by
  have hids : ∀ other ∈ leaves.nodes, other.id < tree.nextPage := fun other hother => (hshape.known other hother).1
  have hnext : node.id ≠ tree.nextPage := (hids node h.covers.1).ne
  have hleft : tree'.pages[node.id]? = some (.leaf (some ⟨first.key, tree.nextPage⟩) (entries'.take split)) := by
    rw [htree, get_splitWrites, if_pos rfl]
  have hright : tree'.pages[tree.nextPage]? = some (.leaf (post.head?.map Node.fence) (entries'.drop split)) := by
    rw [htree, get_splitWrites, if_neg hnext, if_pos rfl]
  have hother : ∀ other, other ∈ pre ∨ other ∈ post → tree'.pages[other.id]? = tree.pages[other.id]? := by
    intro other hmem
    have hlt := hids other (by rw [h.nodes]; simp; tauto)
    rw [htree, get_splitWrites, if_neg (Level.id_ne h.nodes hmem), if_neg hlt.ne']
  have hsize : tree'.pageSize = tree.pageSize := by
    rw [htree]
    rfl
  constructor
  · have hlinked := hshape.linked
    rw [h.nodes] at hlinked
    apply hlinked.insert
    · exact fun other hmem _ hat => hat.frame hsize (hother other (.inl hmem))
    · exact fun other hmem _ hat => hat.frame hsize (hother other (.inr hmem))
    · refine ⟨entries'.take split, hleft, hchange.valid.sublist (List.take_sublist _ _), hsize ▸ hfitLeft, ?_⟩
      intro entry hentry
      refine ⟨(hchange.range entry (List.mem_of_mem_take hentry)).1, ?_⟩
      rintro after ⟨rfl⟩
      obtain ⟨j, hj, hjget⟩ := Keyed.mem_take_iff.mp hentry
      exact hchange.valid.sorted.lt_of_getElem? hjget hget hj
    · refine ⟨entries'.drop split, hright, hchange.valid.sublist (List.drop_sublist _ _), hsize ▸ hfitRight, ?_⟩
      intro entry hentry
      refine ⟨?_, (hchange.range entry (List.mem_of_mem_drop hentry)).2⟩
      obtain ⟨j, hj, hjget⟩ := Keyed.mem_drop_iff.mp hentry
      rcases Nat.eq_or_lt_of_le hj with rfl | hlt
      · cases hget.symm.trans hjget
        exact le_rfl
      · exact (hchange.valid.sorted.lt_of_getElem? hget hjget hlt).le
  · have hnew : leafEntries tree' ⟨first.key, tree.nextPage⟩ = entries'.drop split := leafEntries_of_get hright
    rw [entriesOf_append, entriesOf_cons, entriesOf_cons, leafEntries_of_get hleft, hnew,
      entriesOf_congr fun other hmem => hother other (.inl hmem), entriesOf_congr fun other hmem =>
      hother other (.inr hmem), ← List.append_assoc (entries'.take split), List.take_append_drop]

/-- The separator of a leaf is not its first entry, so the right half starts after the leaf does. -/
theorem LeafFor.ascent (h : LeafFor tree leaves uppers key node pre post entries path)
    (hchange : LeafChange node post entries') (hnext : tree.nextPage ≠ reservedPageId) (hone : 1 ≤ split)
    (hget : entries'[split]? = some first) {left right : Page}
    (htree' : tree' = tree.applyWrites (splitWrites tree node.id left right)) :
    ∃ leaves' : Level, leaves'.nodes = pre ++ node :: ⟨first.key, tree.nextPage⟩ :: post ∧
      Ascent tree' leaves leaves' uppers path first.key tree.nextPage := by
  subst htree'
  have hmem := List.mem_of_getElem? hget
  have hpos : 0 < entries'.length := List.length_pos_of_mem hmem
  have hhead := List.getElem?_eq_getElem hpos
  have hlow := (hchange.range _ (List.mem_of_getElem? hhead)).1
  have hlt : node.low < first.key := hlow.trans_lt (hchange.valid.sorted.lt_of_getElem? hhead hget hone)
  exact Ascent.of_split hshape.sized hshape.allocatable hnext h.nodes hshape.known hshape.stack hlt
    (hchange.range first hmem).2
    (hchange.valid.plain first hmem).1 h.covers h.covered left right

theorem LeafFor.split_always (h : LeafFor tree leaves uppers key node pre post entries path)
    (hchange : LeafChange node post entries') (hnext : tree.nextPage ≠ reservedPageId) (hone : 1 ≤ split)
    (hget : entries'[split]? = some first)
    (hleft : pageBytes (some ⟨first.key, tree.nextPage⟩) ((entries'.take split).map LeafEntry.shape) ≤ tree.pageSize)
    (hright : pageBytes (post.head?.map Node.fence) ((entries'.drop split).map LeafEntry.shape) ≤ tree.pageSize)
    (htree' : tree' = tree.applyWrites
      (splitWrites tree node.id (.leaf (some ⟨first.key, tree.nextPage⟩) (entries'.take split))
      (.leaf (post.head?.map Node.fence) (entries'.drop split)))) :
    Always (fun tree'' => HoldsEntries tree'' (entriesOf tree pre ++ (entries' ++ entriesOf tree post))) tree'
        (tree'.propagateSplit path first.key tree.nextPage).writes ∧
      (∀ error, (tree'.propagateSplit path first.key tree.nextPage).result = .error error → error.Refusal) ∧
      tree'.nextPage ≤ reservedPageId := by
  obtain ⟨leaves', hnodes', hnew⟩ := h.ascent hshape hchange hnext hone hget htree'
  subst htree'
  obtain ⟨hlinked, hentries⟩ := Each.split_leaf hshape h hchange hget hleft hright rfl
  rw [← hnodes'] at hlinked hentries
  obtain ⟨hup, herror⟩ := propagateSplit_grows hnew
  refine ⟨?_, herror, hnew.allocatable⟩
  rw [← hentries]
  refine hup.imp ?_
  rintro tree'' ⟨uppers', hgrow⟩
  exact Shaped.of_grown hnew.sized hnew.known hlinked hgrow

theorem Shaped.holds_frame (hpages : ∀ id < tree.nextPage, tree'.pages[id]? = tree.pages[id]?)
    (hsize : tree'.pageSize = tree.pageSize) (hroot : tree'.root = tree.root) (hnext : tree.nextPage ≤ tree'.nextPage)
    (halloc : tree'.nextPage ≤ reservedPageId) : HoldsEntries tree' (entriesOf tree leaves.nodes) :=
  Shaped.of_grown hshape.sized hshape.known hshape.linked (.of_frame hshape.stack hpages hsize hroot hnext halloc)

/-- Splitting a leaf keeps the shape at every write; the new entries are there from the third. -/
theorem splitLeaf_always
    (h : LeafFor tree leaves uppers key node pre post entries path) (hchange : LeafChange node post entries') :
    Always (fun tree' => HoldsEntries tree' (entriesOf tree leaves.nodes) ∨
        HoldsEntries tree' (entriesOf tree pre ++ (entries' ++ entriesOf tree post))) tree
      (tree.splitLeaf node.id (post.head?.map Node.fence) entries' path).writes ∧
    ((tree.splitLeaf node.id (post.head?.map Node.fence) entries' path).result = .ok () →
      HoldsEntries (tree.applyWrites (tree.splitLeaf node.id (post.head?.map Node.fence) entries' path).writes)
        (entriesOf tree pre ++ (entries' ++ entriesOf tree post))) ∧
    ∀ error, (tree.splitLeaf node.id (post.head?.map Node.fence) entries' path).result = .error error →
      error.Refusal := by
  have hbefore : HoldsEntries tree (entriesOf tree leaves.nodes) := ⟨leaves, uppers, hshape, rfl⟩
  have hstep := @splitLeaf_step tree node.id path (post.head?.map Node.fence) entries' hshape.sized hchange.valid
  generalize tree.splitLeaf node.id (post.head?.map Node.fence) entries' path = plan at hstep ⊢
  cases hstep with
  | few =>
    exact ⟨always_nil.mpr (.inl hbefore), by simp, fun error herr => .inr (.inr ⟨_, (Except.error.inj herr).symm⟩)⟩
  | exhausted =>
    exact ⟨always_nil.mpr (.inl hbefore), by simp, fun error herr => .inr (.inl (Except.error.inj herr).symm)⟩
  | tooLarge hnext =>
    refine ⟨always_cons.mpr ⟨.inl hbefore, always_nil.mpr (.inl ?_)⟩, by simp, fun error herr =>
      .inl (Except.error.inj herr).symm⟩
    exact hshape.holds_frame (fun _ _ => rfl) rfl rfl (Nat.le_succ _) (Nat.lt_of_le_of_ne hshape.allocatable hnext)
  | @split hnext split first hsplit hone hget hfitLeft hfitRight writes hwrites plan hplan =>
    subst hwrites hplan
    obtain ⟨hafter, herror, halloc⟩ := h.split_always hshape hchange hnext hone hget hfitLeft hfitRight rfl
    refine ⟨always_cons.mpr ⟨.inl hbefore,
      always_cons.mpr ⟨.inl ?_, always_cons.mpr ⟨.inl ?_, hafter.imp fun _ => .inr⟩⟩⟩, ?_, herror⟩
    · exact hshape.holds_frame (fun _ _ => rfl) rfl rfl (Nat.le_succ _) halloc
    · refine hshape.holds_frame ?_ rfl rfl (Nat.le_succ _) halloc
      intro id hid
      rw [Tree.get_store, if_neg hid.ne']
      rfl
    · intro _
      rw [Tree.applyWrites_append]
      exact hafter.last

end

end Leaf

end OmenDb.Vnext
