import OmenDb.Txn.State

/-! The read paths of a transaction: point reads, bounded scans and cursor steps, each resolving
the current database at the transaction's fixed snapshot and merging its own staged writes. -/
namespace OmenDb.Txn

def visibleValue (σ : State) (current : CurrentRecord) (snapshot : ℕ) : Result (Option Bytes) := do
  let version ← σ.versions.visibleCurrent σ.statuses current snapshot
  return version.bind (·.value)

/-- `tree_visible`: lifecycle of a tree at a snapshot, from its database record. -/
def treeVisible (σ : State) (tree snapshot : ℕ) : Result Bool := do
  let value ← visibleValue σ (decodeCurrent σ.db.trees[tree]?) snapshot
  match value with
  | none => return false
  | some value =>
    if value = treeLive then return true
    else if value = treeDropped ∨ value = treeReserved then return false
    else throw (.corruption s!"tree TreeId({tree}) has an invalid lifecycle record")

def checkTreeVisibleForRead (σ : State) (t : Transaction) (tree : ℕ) : Result Unit :=
  if tree ∈ t.dropped then .error (.treeNotFound tree)
  else if tree ∈ t.created then .ok ()
  else do
    if ← treeVisible σ tree t.snapshot then return ()
    throw (.treeNotFound tree)

/-- The snapshot-sourced part of `get`. -/
def readKey (σ : State) (t : Transaction) (l : Loc) : Result (Option Bytes) :=
  visibleValue σ (decodeCurrent σ.db.data[l]?) t.snapshot

/-- `get`: only a read that no staged write serves is registered. -/
def get (σ : State) (t : Transaction) (tree : ℕ) (key : Bytes) : Transaction × Result (Option Bytes) :=
  match checkTreeVisibleForRead σ t tree with
  | .error e => (t, .error e)
  | .ok () =>
    match t.writes[(⟨tree, key⟩ : Loc)]? with
    | some value => (t, .ok value)
    | none => ({ t with pointReads := insert ⟨tree, key⟩ t.pointReads }, readKey σ t ⟨tree, key⟩)

/-- `db.range` over the keys `[start, stop)` of one tree, with the tree prefix stripped. -/
def rangeEntries (db : Db) (tree : ℕ) (start : Bytes) (stop : Option Bytes) :
    List (Bytes × CurrentRecord) :=
  (db.data.toList.filter fun p => decide (p.1.tree = tree) && inRange start stop p.1.key).map
    fun p => (p.1.key, p.2)

/-- The storage loop of `scan`. -/
def collectVisible (σ : State) (snapshot : ℕ) :
    List (Bytes × CurrentRecord) → OrdMap Bytes Bytes → Result (OrdMap Bytes Bytes)
  | [], values => .ok values
  | (key, current) :: rest, values => do
    match ← visibleValue σ current snapshot with
    | some value => collectVisible σ snapshot rest (values.insert key value)
    | none => collectVisible σ snapshot rest values

def mergeWrite (tree : ℕ) (start : Bytes) (stop : Option Bytes) (values : OrdMap Bytes Bytes)
    (p : Loc × Option Bytes) : OrdMap Bytes Bytes :=
  if p.1.tree = tree ∧ inRange start stop p.1.key = true then
    match p.2 with
    | some value => values.insert p.1.key value
    | none => values.erase p.1.key
  else values

/-- What `scan` takes from storage: nothing for a tree of its own or an empty range. -/
def scanValues (σ : State) (t : Transaction) (tree : ℕ) (start : Bytes) (stop : Option Bytes) :
    Result (OrdMap Bytes Bytes) :=
  if tree ∈ t.created ∨ stop = some start then .ok ∅
  else collectVisible σ t.snapshot (rangeEntries σ.db tree start stop) ∅

/-- `scan`: the range is registered before its bounds are checked. -/
def scan (σ : State) (t : Transaction) (tree : ℕ) (start : Bytes) (stop : Option Bytes)
    (limit : ℕ) : Transaction × Result (List (Bytes × Bytes)) :=
  match checkTreeVisibleForRead σ t tree with
  | .error e => (t, .error e)
  | .ok () =>
    if limit = 0 then (t, .ok [])
    else
      ({ t with readRanges := insert (tree, start, stop) t.readRanges },
        if stop.any fun e => decide (e < start) then
          .error (.invalidArgument "scan end must not precede scan start")
        else do
          let values ← scanValues σ t tree start stop
          return (t.writes.toList.foldl (mergeWrite tree start stop) values).toList.take limit)

/-- `cursor`: the range is registered only once its bounds are checked. -/
def openCursor (σ : State) (t : Transaction) (tree : ℕ) (start : Bytes) (stop : Option Bytes) :
    Result Transaction := do
  checkTreeVisibleForRead σ t tree
  if stop.any fun e => decide (e < start) then
    throw (.invalidArgument "cursor end must not precede cursor start")
  return { t with
    readRanges := insert (tree, start, stop) t.readRanges
    cursor := some ⟨tree, stop, some start⟩ }

/-- `successor`: the smallest key above `key`. -/
def successor (key : Bytes) : Bytes := key ++ [0]

def firstVisible (σ : State) (snapshot : ℕ) :
    List (Bytes × CurrentRecord) → Result (Option (Bytes × Bytes))
  | [] => .ok none
  | (key, current) :: rest => do
    match ← visibleValue σ current snapshot with
    | some value => return some (key, value)
    | none => firstVisible σ snapshot rest

def storageEntry (σ : State) (t : Transaction) (tree : ℕ) (stop : Option Bytes)
    (position : Bytes) : Result (Option (Bytes × Bytes)) :=
  if tree ∈ t.created then .ok none
  else firstVisible σ t.snapshot (rangeEntries σ.db tree position stop)

/-- `staged_entry`: the first staged write at or after `position`, if it is still in range. -/
def stagedEntry (t : Transaction) (tree : ℕ) (stop : Option Bytes) (position : Bytes) :
    Option (Bytes × Option Bytes) :=
  ((t.writes.toList.find? fun p => decide (⟨tree, position⟩ ≤ p.1)).filter fun p =>
    decide (p.1.tree = tree) && stop.all fun e => decide (p.1.key < e)).map
      fun p => (p.1.key, p.2)

/-- The loop of `Cursor::advance`. Each further turn passes a staged delete, so the number of
staged writes bounds the turns. -/
def advanceFrom (σ : State) (t : Transaction) (tree : ℕ) (stop : Option Bytes) :
    ℕ → Bytes → Result (Option (Bytes × Bytes) × Option Bytes)
  | 0, position => .ok (none, some position)
  | n + 1, position =>
    if stop.any fun e => decide (e ≤ position) then .ok (none, none)
    else do
      let storage ← storageEntry σ t tree stop position
      match storage, stagedEntry t tree stop position with
      | none, none => return (none, none)
      | some (key, value), none => return (some (key, value), some (successor key))
      | storage, some (stagedKey, staged) =>
        match storage.filter fun p => decide (p.1 < stagedKey) with
        | some (key, value) => return (some (key, value), some (successor key))
        | none =>
          match staged with
          | some value => return (some (stagedKey, value), some (successor stagedKey))
          | none => advanceFrom σ t tree stop n (successor stagedKey)

def advance (σ : State) (t : Transaction) (c : Cursor) :
    Result (Option (Bytes × Bytes) × Option Bytes) :=
  match c.position with
  | none => .ok (none, none)
  | some position => advanceFrom σ t c.tree c.stop (t.writes.size + 1) position

end OmenDb.Txn
