import OmenDb.Vnext.Page

/-! The ordered tree over its pages. A reader moves right past a high fence and down through
children, at most `maxRoutingDepth` pages in all. A writer that splits a page stores the right half,
then the left half, then passes the separator up the path it came down. An operation is given as the
page writes it makes, in order, with its answer, so that it can be cut short after any of them. -/
namespace OmenDb.Vnext

def maxRoutingDepth : ℕ := 128

inductive BTreeError
  | buffer
  | corruption (page : PageId) (reason : PageError)
  | routingDepthExceeded
  | duplicateKey
  | pageIdExhausted
  | entryTooLarge
  deriving DecidableEq

inductive BTreeLookup
  | found (value : Bytes)
  | blob (pointer : BlobPointer)
  | deleted
  | notFound
  deriving DecidableEq

structure Tree where
  pageSize : ℕ
  pages : OrdMap PageId Page
  root : PageId
  nextPage : PageId

/-- What an operation does to the tree, one step at a time. -/
inductive PageWrite
  | allocate
  | store (id : PageId) (page : Page)
  | promote (root : PageId)

/-- The writes of an operation, and its answer once they are made. -/
structure Plan (α : Type) where
  writes : List PageWrite
  result : Except BTreeError α

def mapBuildError (page : PageId) : PageError → BTreeError
  | .highFenceFit | .slotArrayFit | .entryHeapFit | .encodedEntriesFit
  | .payloadSlotLength | .valueSlotLength | .suffixSlotLength | .separatorSlotLength => .entryTooLarge
  | error => .corruption page error

def leafCapacityError : PageError → Bool
  | .slotArrayFit | .entryHeapFit | .encodedEntriesFit => true
  | _ => false

def validateInlineEntry (key value : Bytes) : Except BTreeError Unit :=
  if u16Max < key.length ∨ u16Max < value.length then .error .entryTooLarge else .ok ()

def LeafValue.lookup : LeafValue → BTreeLookup
  | .inline value => .found value
  | .blob pointer => .blob pointer
  | .tombstone => .deleted

namespace Tree

def create (pageSize : ℕ) : Except BTreeError Tree :=
  match buildLeaf pageSize none [] with
  | .error error => .error (.corruption 0 error)
  | .ok page => .ok { pageSize, pages := (∅ : OrdMap PageId Page).insert 0 page, root := 0, nextPage := 1 }

def applyWrite (tree : Tree) : PageWrite → Tree
  | .allocate => { tree with nextPage := tree.nextPage + 1 }
  | .store id page => { tree with pages := tree.pages.insert id page }
  | .promote root => { tree with root }

def applyWrites (tree : Tree) (writes : List PageWrite) : Tree := writes.foldl applyWrite tree

/-- `find_leaf_path`: the leaf of a key and the internal pages passed on the way down, lowest
first. -/
def findLeafLoop (tree : Tree) (key : Bytes) :
    ℕ → PageId → List PageId → Except BTreeError (PageId × Page × List PageId)
  | 0, _, _ => .error .routingDepthExceeded
  | rounds + 1, current, path =>
    match tree.pages[current]? with
    | none => .error .buffer
    | some page =>
      match page.followRight key with
      | some right => findLeafLoop tree key rounds right path
      | none =>
        if page.isLeaf then .ok (current, page, path)
        else match page.childForKey key with
        | .error error => .error (.corruption current error)
        | .ok child => findLeafLoop tree key rounds child (current :: path)

def findLeafPath (tree : Tree) (key : Bytes) : Except BTreeError (PageId × Page × List PageId) :=
  tree.findLeafLoop key maxRoutingDepth tree.root []

def lookup (tree : Tree) (key : Bytes) : Except BTreeError BTreeLookup :=
  match tree.findLeafPath key with
  | .error error => .error error
  | .ok (current, .internal _ _ _, _) => .error (.corruption current .internalValue)
  | .ok (_, .leaf _ entries, _) =>
    match search LeafEntry.key entries key with
    | .found i => .ok ((entries[i]?).elim .notFound fun entry => entry.value.lookup)
    | .missing _ => .ok .notFound

/-- `propagate_split`: `path` are the pages above the one whose split gave the separator, lowest
first. -/
def propagateSplit (tree : Tree) : List PageId → Bytes → PageId → Plan Unit
  | [], separator, right =>
    let newRoot := tree.nextPage
    if newRoot = reservedPageId then ⟨[], .error .pageIdExhausted⟩
    else match buildInternal tree.pageSize none tree.root [⟨separator, right⟩] with
    | .error error => ⟨[.allocate], .error (mapBuildError newRoot error)⟩
    | .ok page => ⟨[.allocate, .store newRoot page, .promote newRoot], .ok ()⟩
  | parent :: path, separator, right =>
    match tree.pages[parent]? with
    | none => ⟨[], .error .buffer⟩
    | some page =>
      match tryInsertInternal tree.pageSize page separator right with
      | .error error => ⟨[], .error (.corruption parent error)⟩
      | .ok (.inserted page) => ⟨[.store parent page], .ok ()⟩
      | .ok .duplicate => ⟨[], .error (.corruption parent .duplicateSeparator)⟩
      | .ok (.followRight _) => ⟨[], .error (.corruption parent .outsideFence)⟩
      | .ok .full =>
        match page with
        | .leaf _ _ => ⟨[], .error (.corruption parent .leafEntries)⟩
        | .internal high leftmost entries =>
          match search InternalEntry.key entries separator with
          | .found _ => ⟨[], .error (.corruption parent .duplicateInternalSeparator)⟩
          | .missing insertion =>
            let entries := Keyed.insertAt entries insertion ⟨separator, right⟩
            match chooseInternalSplit entries with
            | .error error => ⟨[], .error (.corruption parent error)⟩
            | .ok split =>
              match entries[split]? with
              | none => ⟨[], .error (.corruption parent .lostPromoted)⟩
              | some promoted =>
                let newRight := tree.nextPage
                if newRight = reservedPageId then ⟨[], .error .pageIdExhausted⟩
                else match buildInternal tree.pageSize (some ⟨promoted.key, newRight⟩) leftmost (entries.take split)
                    with
                | .error error => ⟨[.allocate], .error (mapBuildError parent error)⟩
                | .ok leftPage =>
                  match buildInternal tree.pageSize high promoted.child (entries.drop (split + 1)) with
                  | .error error => ⟨[.allocate], .error (mapBuildError newRight error)⟩
                  | .ok rightPage =>
                    let writes := [.allocate, .store newRight rightPage, .store parent leftPage]
                    let rest := propagateSplit (tree.applyWrites writes) path promoted.key newRight
                    ⟨writes ++ rest.writes, rest.result⟩

variable (tree : Tree)

/-- The split of a leaf with its new entries, and the way up: the end of `insert_with_split` and of
`upsert_with_split`. -/
def splitLeaf (leaf : PageId) (high : Option Fence) (entries : List LeafEntry) (path : List PageId) : Plan Unit :=
  match chooseLeafSplit entries with
  | .error error => ⟨[], .error (.corruption leaf error)⟩
  | .ok split =>
    match entries[split]? with
    | none => ⟨[], .error (.corruption leaf .fewEntries)⟩
    | some first =>
      let right := tree.nextPage
      if right = reservedPageId then ⟨[], .error .pageIdExhausted⟩
      else match buildLeaf tree.pageSize (some ⟨first.key, right⟩) (entries.take split) with
      | .error error => ⟨[.allocate], .error (mapBuildError leaf error)⟩
      | .ok leftPage =>
        match buildLeaf tree.pageSize high (entries.drop split) with
        | .error error => ⟨[.allocate], .error (mapBuildError right error)⟩
        | .ok rightPage =>
          let writes := [.allocate, .store right rightPage, .store leaf leftPage]
          let rest := (tree.applyWrites writes).propagateSplit path first.key right
          ⟨writes ++ rest.writes, rest.result⟩

/-- `BTreeObject::insert`. The leaf is found for the key, so it is not past its fence; in the code
the loop starts over when another thread has split the leaf in between. -/
def insert (key value : Bytes) : Plan Unit :=
  match validateInlineEntry key value with
  | .error error => ⟨[], .error error⟩
  | .ok () =>
    match tree.findLeafPath key with
    | .error error => ⟨[], .error error⟩
    | .ok (leaf, page, path) =>
      match tryInsertInline tree.pageSize page key value with
      | .error error => ⟨[], .error (.corruption leaf error)⟩
      | .ok (.inserted page) => ⟨[.store leaf page], .ok ()⟩
      | .ok .duplicate => ⟨[], .error .duplicateKey⟩
      | .ok (.followRight _) => ⟨[], .error .buffer⟩
      | .ok .full =>
        match page with
        | .internal _ _ _ => ⟨[], .error (.corruption leaf .internalEntries)⟩
        | .leaf high entries =>
          match search LeafEntry.key entries key with
          | .found _ => ⟨[], .error .duplicateKey⟩
          | .missing insertion =>
            tree.splitLeaf leaf high (Keyed.insertAt entries insertion ⟨key, .inline value⟩) path

def upsert (key value : Bytes) : Plan Unit :=
  match validateInlineEntry key value with
  | .error error => ⟨[], .error error⟩
  | .ok () =>
    match tree.findLeafPath key with
    | .error error => ⟨[], .error error⟩
    | .ok (leaf, .internal _ _ _, _) => ⟨[], .error (.corruption leaf .internalEntries)⟩
    | .ok (leaf, .leaf high entries, path) =>
      let entries := upsertLeafEntry entries key value
      match buildLeaf tree.pageSize high entries with
      | .ok page => ⟨[.store leaf page], .ok ()⟩
      | .error error =>
        if leafCapacityError error then
          if entries.length < 2 then ⟨[], .error .entryTooLarge⟩ else tree.splitLeaf leaf high entries path
        else ⟨[], .error (mapBuildError leaf error)⟩

def delete (key : Bytes) : Plan Bool :=
  match tree.findLeafPath key with
  | .error error => ⟨[], .error error⟩
  | .ok (leaf, page, _) =>
    match removeLeaf page key with
    | .error error => ⟨[], .error (.corruption leaf error)⟩
    | .ok (.removed page) => ⟨[.store leaf page], .ok true⟩
    | .ok .missing => ⟨[], .ok false⟩
    | .ok (.followRight _) => ⟨[], .error .buffer⟩

/-- The entries of one leaf in `range`: what is found so far, and whether the range is done. -/
def scanEntries (start stop : Bytes) (limit : ℕ) : List LeafEntry → List (Bytes × BTreeLookup) →
    List (Bytes × BTreeLookup) × Bool
  | [], output => (output, false)
  | entry :: entries, output =>
    if entry.key < start then scanEntries start stop limit entries output
    else if stop ≤ entry.key then (output, true)
    else
      let output := output ++ [(entry.key, entry.value.lookup)]
      if output.length = limit then (output, true) else scanEntries start stop limit entries output

/-- The loop of `range` over the leaves from `current` on. -/
def rangeLoop (start stop : Bytes) (limit : ℕ) : ℕ → PageId → List (Bytes × BTreeLookup) →
    Except BTreeError (List (Bytes × BTreeLookup))
  | 0, _, _ => .error .routingDepthExceeded
  | rounds + 1, current, output =>
    match tree.pages[current]? with
    | none => .error .buffer
    | some (.internal _ _ _) => .error (.corruption current .rangeInternal)
    | some (.leaf high entries) =>
      match (Page.leaf high entries).followRight start with
      | some right => rangeLoop start stop limit rounds right output
      | none =>
        match scanEntries start stop limit entries output, high with
        | (output, true), _ => .ok output
        | (output, false), none => .ok output
        | (output, false), some fence =>
          if stop ≤ fence.key then .ok output else rangeLoop start stop limit rounds fence.right output

def range (start stop : Bytes) (limit : ℕ) : Except BTreeError (List (Bytes × BTreeLookup)) :=
  if stop ≤ start ∨ limit = 0 then .ok []
  else match tree.findLeafPath start with
  | .error error => .error error
  | .ok (leaf, _, _) => tree.rangeLoop start stop limit (maxRoutingDepth * 1024) leaf []

end Tree

end OmenDb.Vnext
