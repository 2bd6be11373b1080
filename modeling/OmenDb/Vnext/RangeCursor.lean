import OmenDb.Lib.Sweep
import OmenDb.Vnext.TreeRuns

/-! The range cursor of a tree: it keeps no page between two batches and goes down again by the last
key that it has given. Calls may change the tree in between. -/
namespace OmenDb.Vnext

open Sweep (Piece Scan)

def usizeMax : ℕ := 2 ^ 64 - 1

structure RangeCursor where
  start : Bytes
  stop : Bytes
  lastEmitted : Option Bytes
  done : Bool
  deriving DecidableEq

namespace RangeCursor

def new (start stop : Bytes) : RangeCursor := ⟨start, stop, none, decide (stop ≤ start)⟩

/-- Where the next batch goes down: at the last key given, which is then left out. -/
def seek (cursor : RangeCursor) : Bytes := cursor.lastEmitted.getD cursor.start

def fetchLimit (cursor : RangeCursor) (limit : ℕ) : ℕ :=
  if cursor.lastEmitted.isSome then min (limit + 1) usizeMax else limit

def nextBatch (cursor : RangeCursor) (tree : Tree) (limit : ℕ) :
    Except BTreeError (List (Bytes × BTreeLookup)) × RangeCursor :=
  if cursor.done ∨ limit = 0 then (.ok [], cursor)
  else match tree.range cursor.seek cursor.stop (cursor.fetchLimit limit) with
  | .error error => (.error error, cursor)
  | .ok raw =>
    let rows := (raw.filter fun row => cursor.lastEmitted.all fun last => decide (last < row.1)).take limit
    (.ok rows,
      { cursor with
        lastEmitted := (rows.getLast?.map Prod.fst).or cursor.lastEmitted
        done := decide (rows = [] ∨ raw.length < cursor.fetchLimit limit) })

end RangeCursor

inductive ScanStep
  | batch (limit : ℕ)
  | change (event : Event)

structure RangeScan where
  tree : Tree
  cursor : RangeCursor
  emitted : List (Bytes × BTreeLookup)

namespace RangeScan

def new (tree : Tree) (start stop : Bytes) : RangeScan := ⟨tree, .new start stop, []⟩

/-- A batch gives more rows; a batch that fails ends the scan. -/
def step (scan : RangeScan) : ScanStep → Except BTreeError RangeScan
  | .batch limit =>
    match scan.cursor.nextBatch scan.tree limit with
    | (.error error, _) => .error error
    | (.ok rows, cursor) => .ok { scan with cursor := cursor, emitted := scan.emitted ++ rows }
  | .change event => .ok { scan with tree := scan.tree.after event }

def run (scan : RangeScan) : List ScanStep → Except BTreeError RangeScan
  | [] => .ok scan
  | next :: steps => (scan.step next).bind fun scan' => scan'.run steps

end RangeScan

/-- The leaf of a key is fewer than 128 pages behind the root, and there are at most 131072 leaves from
it to the end of the range. -/
def Tree.Scannable (tree : Tree) (seek stop : Bytes) : Prop :=
  ∃ n m id path page, Reaches tree seek n id path ∧ tree.pages[id]? = some page ∧ page.isLeaf = true ∧
    page.followRight seek = none ∧ n < maxRoutingDepth ∧ Stretch tree stop id m ∧ m ≤ maxRoutingDepth * 1024

def RangeScan.Near (scan : RangeScan) : ScanStep → Prop
  | .batch limit => scan.cursor.done = false → limit ≠ 0 → scan.tree.Scannable scan.cursor.seek scan.cursor.stop
  | .change _ => True

def RangeScan.AllNear (scan : RangeScan) : List ScanStep → Prop
  | [] => True
  | next :: steps => scan.Near next ∧ ∀ scan', scan.step next = .ok scan' → scan'.AllNear steps

/-- The row of a key in a map, if the key is within the bounds. -/
def RowIn (contents : OrdMap Bytes LeafValue) (start stop : Bytes) (key : Bytes) (answer : BTreeLookup) : Prop :=
  (start ≤ key ∧ key < stop) ∧ ∃ value, contents[key]? = some value ∧ value.lookup = answer

def rowsIn (contents : OrdMap Bytes LeafValue) (start stop : Bytes) : List (Bytes × BTreeLookup) :=
  (contents.toList.filter fun binding => decide (start ≤ binding.1 ∧ binding.1 < stop)).map fun binding =>
  (binding.1, binding.2.lookup)

section Batch

variable {tree : Tree} {contents : OrdMap Bytes LeafValue} {start stop seek key : Bytes} {limit : ℕ}

theorem sorted_rowsIn (contents : OrdMap Bytes LeafValue) (start stop : Bytes) :
    (rowsIn contents start stop).Pairwise fun a b => a.1 < b.1 :=
  List.pairwise_map.mpr (contents.sorted_toList.sublist List.filter_sublist)

theorem mem_rowsIn {answer : BTreeLookup} : (key, answer) ∈ rowsIn contents start stop ↔
    RowIn contents start stop key answer := by
  simp only [rowsIn, RowIn, List.mem_map, List.mem_filter, Prod.exists, OrdMap.mem_toList, decide_eq_true_eq,
    Prod.mk.injEq]
  constructor
  · rintro ⟨key, value, ⟨hget, hin⟩, rfl, rfl⟩
    exact ⟨hin, value, hget, rfl⟩
  · rintro ⟨hin, value, hget, rfl⟩
    exact ⟨key, value, ⟨hget, hin⟩, rfl, rfl⟩

theorem Holds.range_scannable (h : Holds tree contents) (hlt : seek < stop) (hlimit : limit ≠ 0)
    (hscan : tree.Scannable seek stop) : tree.range seek stop limit = .ok ((rowsIn contents seek stop).take limit) := by
  obtain ⟨n, m, id, path, page, hreach, hpage, hleaf, hhere, hn, hstretch, hm⟩ := hscan
  exact h.range hlt hlimit hreach hpage hleaf hhere hn hstretch hm

namespace RangeCursor

variable {cursor : RangeCursor}

def covered (cursor : RangeCursor) : LowerSet Bytes := if cursor.done then ⊤ else cursor.lastEmitted.elim ⊥ LowerSet.Iic

structure Sound (cursor : RangeCursor) : Prop where
  live : cursor.done = false → cursor.start < cursor.stop
  inside : ∀ last ∈ cursor.lastEmitted, cursor.start ≤ last ∧ last < cursor.stop

theorem sound_new (start stop : Bytes) : (new start stop).Sound where
  live := by simp [new]
  inside := by simp [new]

theorem covered_done (hdone : cursor.done = true) : cursor.covered = ⊤ := if_pos hdone

theorem covered_last (hlive : cursor.done = false) (hlast : cursor.lastEmitted = some key) :
    cursor.covered = LowerSet.Iic key := by
  rw [covered, hlive, hlast]
  rfl

theorem piece_new {V : Type} {row : Bytes → V → Prop} (hrow : ∀ key value, row key value → start ≤ key ∧ key < stop) :
    Piece row ⊥ (new start stop).covered [] := by
  by_cases hlt : start < stop
  · have hcovered : (new start stop).covered = ⊥ := by simp [covered, new, hlt]
    rw [hcovered]
    exact .nil row ⊥
  · rw [covered_done (by simpa [new] using hlt)]
    refine .of_rest .nil ?_
    intro key value
    simp only [List.not_mem_nil, false_iff, not_and, not_not]
    intro hin
    obtain ⟨hstart, hstop⟩ := hrow key value hin
    exact absurd (hstart.trans_lt hstop) hlt

theorem covered_live (hlive : cursor.done = false) :
    key ∉ cursor.covered ↔ cursor.lastEmitted.all (fun last => decide (last < key)) = true := by
  rw [covered, hlive]
  cases cursor.lastEmitted <;> simp

def left (cursor : RangeCursor) (contents : OrdMap Bytes LeafValue) : List (Bytes × BTreeLookup) :=
  (rowsIn contents cursor.seek cursor.stop).filter fun row => cursor.lastEmitted.all fun last => decide (last < row.1)

theorem Sound.seek_lt (h : cursor.Sound) (hlive : cursor.done = false) : cursor.seek < cursor.stop := by
  rw [seek]
  cases hlast : cursor.lastEmitted with
  | none => exact h.live hlive
  | some last => exact (h.inside last hlast).2

theorem sorted_left (contents : OrdMap Bytes LeafValue) : (cursor.left contents).Pairwise fun a b => a.1 < b.1 :=
  (sorted_rowsIn _ _ _).sublist List.filter_sublist

theorem Sound.mem_left (h : cursor.Sound) (hlive : cursor.done = false) {answer : BTreeLookup} :
    (key, answer) ∈ cursor.left contents ↔ RowIn contents cursor.start cursor.stop key answer ∧
      key ∉ cursor.covered := by
  rw [left, List.mem_filter, mem_rowsIn, covered_live hlive]
  simp only [RowIn, seek]
  cases hlast : cursor.lastEmitted with
  | none => rfl
  | some last =>
    have hstart := (h.inside last hlast).1
    simp only [Option.getD_some, Option.all_some, decide_eq_true_eq]
    constructor
    · rintro ⟨⟨⟨-, hstop⟩, hrow⟩, hlt⟩
      exact ⟨⟨⟨hstart.trans hlt.le, hstop⟩, hrow⟩, hlt⟩
    · rintro ⟨⟨⟨-, hstop⟩, hrow⟩, hlt⟩
      exact ⟨⟨⟨hlt.le, hstop⟩, hrow⟩, hlt⟩

theorem fetchLimit_le (cursor : RangeCursor) (limit : ℕ) : cursor.fetchLimit limit ≤ limit + 1 := by
  rw [fetchLimit]
  split
  · exact min_le_left _ _
  · omega

theorem fetchLimit_pos (cursor : RangeCursor) (hlimit : limit ≠ 0) : cursor.fetchLimit limit ≠ 0 := by
  rw [fetchLimit]
  split
  · have hmax : usizeMax ≠ 0 := by decide
    omega
  · exact hlimit

theorem exists_row (hlimit : limit ≠ 0)
    (hfull : cursor.fetchLimit limit ≤ (rowsIn contents cursor.seek cursor.stop).length) :
    ((rowsIn contents cursor.seek cursor.stop).take (cursor.fetchLimit limit)).filter
      (fun row => cursor.lastEmitted.all fun last => decide (last < row.1)) ≠ [] := by
  have hsorted := sorted_rowsIn contents cursor.seek cursor.stop
  have hmem : ∀ row ∈ rowsIn contents cursor.seek cursor.stop, cursor.seek ≤ row.1 :=
    fun row hrow => (mem_rowsIn.mp hrow).1.1
  rw [fetchLimit, seek] at *
  intro hnil
  rw [List.filter_eq_nil_iff] at hnil
  cases hlast : cursor.lastEmitted with
  | none =>
    rw [hlast] at hfull hnil
    match hrows : rowsIn contents cursor.start cursor.stop, limit, hlimit with
    | [], limit, _ => simp_all
    | row :: rows, limit + 1, _ => exact hnil row (by simp [hrows]) rfl
  | some last =>
    rw [hlast] at hfull hnil hsorted hmem
    have htwo : 2 ≤ min (limit + 1) usizeMax := le_min (by omega) (by decide)
    simp only [Option.isSome_some, if_true, Option.getD_some] at hfull hnil hsorted hmem
    match hrows : rowsIn contents last cursor.stop with
    | [] => simp [hrows] at hfull; omega
    | [row] => simp [hrows] at hfull; omega
    | first :: second :: rows =>
      rw [hrows] at hsorted hmem hnil
      have hlt : first.1 < second.1 := (List.pairwise_cons.mp hsorted).1 second (by simp)
      obtain ⟨n, hn⟩ : ∃ n, min (limit + 1) usizeMax = n + 2 := ⟨_, (Nat.sub_add_cancel htwo).symm⟩
      rw [hn] at hnil
      exact hnil second (by simp) (by simpa using (hmem first (by simp)).trans_lt hlt)

structure Batch (contents : OrdMap Bytes LeafValue) (cursor cursor' : RangeCursor) (limit : ℕ)
    (rows : List (Bytes × BTreeLookup)) : Prop where
  sound : cursor'.Sound
  bounds : cursor'.start = cursor.start ∧ cursor'.stop = cursor.stop
  piece : Piece (RowIn contents cursor.start cursor.stop) cursor.covered cursor'.covered rows
  short : rows.length ≤ limit
  progress : cursor.done = false → limit ≠ 0 → cursor'.done = true ∨ rows ≠ []

theorem Sound.nextBatch (hsound : cursor.Sound) (h : Holds tree contents) (limit : ℕ)
    (hscan : cursor.done = false → limit ≠ 0 → tree.Scannable cursor.seek cursor.stop) :
    ∃ rows cursor', cursor.nextBatch tree limit = (.ok rows, cursor') ∧ Batch contents cursor cursor' limit rows := by
  by_cases hidle : cursor.done = true ∨ limit = 0
  · refine ⟨[], cursor, if_pos hidle, hsound, ⟨rfl, rfl⟩, .nil _ _, by simp, ?_⟩
    intro hlive hlimit
    simp [hlive, hlimit] at hidle
  obtain ⟨hlive, hlimit⟩ := not_or.mp hidle
  rw [Bool.not_eq_true] at hlive
  have hrange := h.range_scannable (hsound.seek_lt hlive) (cursor.fetchLimit_pos hlimit) (hscan hlive hlimit)
  have hsorted := cursor.sorted_left contents
  have hmem : ∀ key answer, (key, answer) ∈ cursor.left contents ↔ RowIn contents cursor.start cursor.stop key answer ∧
      key ∉ cursor.covered :=
    fun key answer => hsound.mem_left hlive
  rw [RangeCursor.nextBatch, if_neg hidle, hrange]
  refine ⟨_, _, rfl, ?_⟩
  generalize hrows : (((rowsIn contents cursor.seek cursor.stop).take (cursor.fetchLimit limit)).filter
    fun row => cursor.lastEmitted.all fun last => decide (last < row.1)).take limit = rows
  have hfront : rows <+: cursor.left contents := by
    rw [← hrows, left]
    exact (List.take_prefix _ _).trans ((List.take_prefix _ _).filter _)
  have hinside : ∀ row ∈ rows, cursor.start ≤ row.1 ∧ row.1 < cursor.stop :=
    fun row hrow => ((hmem row.1 row.2).mp (hfront.subset hrow)).1.1
  have hshort : rows.length ≤ limit := hrows ▸ List.length_take_le _ _
  -- a fetch that is not full has read the range to its end
  have hend : ((rowsIn contents cursor.seek cursor.stop).take (cursor.fetchLimit limit)).length <
    cursor.fetchLimit limit →
      rows = cursor.left contents := by
    intro hfew
    have hlength : (rowsIn contents cursor.seek cursor.stop).length < cursor.fetchLimit limit := by
      rw [List.length_take] at hfew
      omega
    have hle := cursor.fetchLimit_le limit
    rw [← hrows, List.take_of_length_le hlength.le, left, List.take_of_length_le]
    exact (List.length_filter_le _ _).trans (by omega)
  have hnil : rows = [] → rows = cursor.left contents := by
    intro hempty
    apply hend
    rw [List.length_take]
    by_contra hfull
    apply @exists_row contents limit cursor hlimit (by omega)
    rw [hempty, List.take_eq_nil_iff] at hrows
    exact hrows.resolve_left hlimit
  have hlast : ∀ row, rows.getLast? = some row → row ∈ rows := fun row hrow => List.mem_of_getLast? hrow
  refine ⟨⟨fun _ => hsound.live hlive, ?_⟩, ⟨rfl, rfl⟩, ?_, hshort, ?_⟩
  · intro last hlast'
    cases hget : rows.getLast? with
    | none =>
      rw [hget] at hlast'
      exact hsound.inside last hlast'
    | some row =>
      rw [hget] at hlast'
      cases hlast'
      exact hinside row (hlast row hget)
  · by_cases hdone : rows = [] ∨ ((rowsIn contents cursor.seek cursor.stop).take (cursor.fetchLimit limit)).length <
      cursor.fetchLimit limit
    · have hall : rows = cursor.left contents := hdone.elim hnil hend
      rw [@covered_done (RangeCursor.mk _ _ _ (decide _)) (decide_eq_true hdone), hall]
      exact .of_rest hsorted hmem
    · obtain ⟨hne, -⟩ := not_or.mp hdone
      obtain ⟨row, hrow⟩ : ∃ row, rows.getLast? = some row := ⟨_, List.getLast?_eq_some_getLast hne⟩
      rw [@covered_last row.1 (RangeCursor.mk _ _ _ (decide _)) (decide_eq_false hdone) (by rw [hrow]; rfl)]
      exact .of_front hsorted hmem hfront hrow
  · intro _ _
    by_cases hempty : rows = []
    · exact .inl (by simp [hempty])
    · exact .inr hempty

end RangeCursor

end Batch

/-- The maps that the tree goes through, one for each change. -/
inductive Maps : Tree → OrdMap Bytes LeafValue → List ScanStep → List (OrdMap Bytes LeafValue) → Prop
  | nil {tree : Tree} {contents : OrdMap Bytes LeafValue} : Maps tree contents [] []
  | batch {tree : Tree} {contents : OrdMap Bytes LeafValue} {limit : ℕ} {steps : List ScanStep}
      {later : List (OrdMap Bytes LeafValue)}
      (hrest : Maps tree contents steps later) : Maps tree contents (.batch limit :: steps) later
  | change {tree : Tree} {contents contents' : OrdMap Bytes LeafValue} {event : Event} {steps : List ScanStep}
      {later : List (OrdMap Bytes LeafValue)} (hstep : MapStep tree contents contents' event)
      (hrest : Maps (tree.after event) contents' steps later) :
      Maps tree contents (.change event :: steps) (contents' :: later)

def ScanStep.asks : ScanStep → Bool
  | .batch limit => decide (limit ≠ 0)
  | .change _ => false

/-- What a scan has given of the maps that the tree was: keys in order and within the bounds, each with a
value that it had, and at the end every key that was there all the time. -/
structure Faithful (start stop : Bytes) (maps : List (OrdMap Bytes LeafValue)) (scan : RangeScan) : Prop where
  increasing : scan.emitted.Pairwise fun a b => a.1 < b.1
  inside : ∀ row ∈ scan.emitted, start ≤ row.1 ∧ row.1 < stop
  had : ∀ row ∈ scan.emitted, ∃ contents ∈ maps, ∃ value, contents[row.1]? = some value ∧ value.lookup = row.2
  kept : scan.cursor.done = true → ∀ key, start ≤ key → key < stop → (∀ contents ∈ maps, contents[key]? ≠ none) →
    key ∈ scan.emitted.map Prod.fst

structure ScanInv (start stop : Bytes) (maps : List (OrdMap Bytes LeafValue)) (now : OrdMap Bytes LeafValue) (asked : ℕ)
    (scan : RangeScan) : Prop where
  holds : Holds scan.tree now
  now_mem : now ∈ maps
  sound : scan.cursor.Sound
  bounds : scan.cursor.start = start ∧ scan.cursor.stop = stop
  pieces : ∃ moments, Scan moments scan.cursor.covered scan.emitted ∧ ∀ row ∈ moments, ∃ contents ∈ maps,
  row = RowIn contents start stop
  progress : scan.cursor.done = true ∨ asked ≤ scan.emitted.length

section Runs

variable {tree : Tree} {contents now : OrdMap Bytes LeafValue} {start stop : Bytes}
    {maps : List (OrdMap Bytes LeafValue)} {asked : ℕ}
  {scan : RangeScan} {steps : List ScanStep}

theorem ScanInv.new (h : Holds tree contents) (start stop : Bytes) :
    ScanInv start stop [contents] contents 0 (.new tree start stop) where
  holds := h
  now_mem := by simp
  sound := RangeCursor.sound_new start stop
  bounds := ⟨rfl, rfl⟩
  pieces := ⟨[RowIn contents start stop], .piece .start (RangeCursor.piece_new fun _ _ hrow => hrow.1), by simp⟩
  progress := .inr (Nat.zero_le _)

section

variable (h : ScanInv start stop maps now asked scan)
include h

theorem ScanInv.batch (limit : ℕ) (hnear : scan.Near (.batch limit)) :
    ∃ scan', scan.step (.batch limit) = .ok scan' ∧ scan'.tree = scan.tree ∧
      ScanInv start stop maps now (asked + if limit ≠ 0 then 1 else 0) scan' := by
  obtain ⟨rows, cursor', hnext, hbatch⟩ := h.sound.nextBatch h.holds limit hnear
  obtain ⟨hstart, hstop⟩ := h.bounds
  have hpiece := hbatch.piece
  rw [hstart, hstop] at hpiece
  refine ⟨⟨scan.tree, cursor', scan.emitted ++ rows⟩, by rw [RangeScan.step, hnext], rfl, h.holds, h.now_mem,
    hbatch.sound, ?_, ?_, ?_⟩
  · exact ⟨hbatch.bounds.1.trans hstart, hbatch.bounds.2.trans hstop⟩
  · obtain ⟨moments, hscan, hmoments⟩ := h.pieces
    refine ⟨_, hscan.piece hpiece, List.forall_mem_cons.mpr ⟨⟨now, h.now_mem, rfl⟩, hmoments⟩⟩
  · cases hlive : scan.cursor.done with
    | true =>
      have hsame : cursor' = scan.cursor := by
        rw [RangeCursor.nextBatch, if_pos (.inl hlive)] at hnext
        exact (congrArg Prod.snd hnext).symm
      exact .inl (hsame ▸ hlive)
    | false =>
      have hasked := h.progress.resolve_left (by simp [hlive])
      by_cases hlimit : limit ≠ 0
      · rcases hbatch.progress hlive hlimit with hdone | hne
        · exact .inl hdone
        · have hpos := List.length_pos_of_ne_nil hne
          refine .inr ?_
          rw [if_pos hlimit, List.length_append]
          omega
      · rw [if_neg hlimit]
        exact .inr (hasked.trans (by simp))

theorem ScanInv.change (event : Event) :
    ∃ now', MapStep scan.tree now now' event ∧
      ScanInv start stop (maps ++ [now']) now' asked { scan with tree := scan.tree.after event } := by
  obtain ⟨now', hstep, hholds⟩ := h.holds.event event
  refine ⟨now', hstep, hholds, by simp, h.sound, h.bounds, ?_, h.progress⟩
  obtain ⟨moments, hscan, hmoments⟩ := h.pieces
  refine ⟨moments, hscan, fun row hrow => ?_⟩
  obtain ⟨contents, hmem, heq⟩ := hmoments row hrow
  exact ⟨contents, List.mem_append_left _ hmem, heq⟩

theorem ScanInv.run (hnear : scan.AllNear steps) :
    ∃ scan' later now', scan.run steps = .ok scan' ∧ Maps scan.tree now steps later ∧
      ScanInv start stop (maps ++ later) now' (asked + steps.countP ScanStep.asks) scan' := by
  induction steps generalizing scan maps now asked with
  | nil => exact ⟨scan, [], now, rfl, .nil, by simpa using h⟩
  | cons next steps ih =>
    obtain ⟨hnext, hrest⟩ := hnear
    cases next with
    | batch limit =>
      obtain ⟨scan₁, hstep, htree, hinv⟩ := h.batch limit hnext
      obtain ⟨scan', later, now', hrun, hmaps, hinv'⟩ := ih hinv (hrest scan₁ hstep)
      refine ⟨scan', later, now', by rw [RangeScan.run, hstep]; exact hrun, .batch (htree ▸ hmaps), ?_⟩
      have hcount : (ScanStep.batch limit :: steps).countP ScanStep.asks =
          (if limit ≠ 0 then 1 else 0) + steps.countP ScanStep.asks := by
        rw [List.countP_cons, Nat.add_comm]
        simp [ScanStep.asks]
      rw [hcount, ← Nat.add_assoc]
      exact hinv'
    | change event =>
      obtain ⟨now₁, hmap, hinv⟩ := h.change event
      obtain ⟨scan', later, now', hrun, hmaps, hinv'⟩ := ih hinv (hrest _ rfl)
      refine ⟨scan', now₁ :: later, now', by rw [RangeScan.run]; exact hrun, .change hmap hmaps, ?_⟩
      rw [List.append_assoc] at hinv'
      exact hinv'

theorem ScanInv.faithful : Faithful start stop maps scan := by
  obtain ⟨moments, hscan, hmoments⟩ := h.pieces
  have hrow : ∀ row ∈ scan.emitted, ∃ contents ∈ maps, RowIn contents start stop row.1 row.2 := by
    intro row hmem
    obtain ⟨moment, hmoment, hrow⟩ := hscan.sound hmem
    obtain ⟨contents, hcontents, rfl⟩ := hmoments moment hmoment
    exact ⟨contents, hcontents, hrow⟩
  refine ⟨hscan.sorted, ?_, ?_, ?_⟩
  · intro row hmem
    obtain ⟨contents, -, hin, -⟩ := hrow row hmem
    exact hin
  · intro row hmem
    obtain ⟨contents, hcontents, -, hvalue⟩ := hrow row hmem
    exact ⟨contents, hcontents, hvalue⟩
  · intro hdone key hstart hstop hall
    refine hscan.complete (by simp [RangeCursor.covered_done hdone]) ?_
    intro moment hmoment
    obtain ⟨contents, hcontents, rfl⟩ := hmoments moment hmoment
    obtain ⟨value, hvalue⟩ := Option.ne_none_iff_exists'.mp (hall contents hcontents)
    exact ⟨value.lookup, ⟨hstart, hstop⟩, value, hvalue, rfl⟩

end

theorem ScanInv.emitted_eq (h : ScanInv start stop [contents] now asked scan) (hdone : scan.cursor.done = true) :
    scan.emitted = rowsIn contents start stop := by
  obtain ⟨moments, hscan, hmoments⟩ := h.pieces
  have hpiece := @Scan.constant _ _ _ _ _ _ (RowIn contents start stop) hscan (by simpa using hmoments)
  apply OrdMap.eq_of_sorted hpiece.sorted (sorted_rowsIn contents start stop)
  rintro ⟨key, answer⟩
  rw [hpiece.mem, mem_rowsIn, RangeCursor.covered_done hdone]
  simp

theorem Maps.nil_of_batches {later : List (OrdMap Bytes LeafValue)} (h : Maps tree contents steps later)
    (hbatches : ∀ event, .change event ∉ steps) : later = [] := by
  induction h with
  | nil => rfl
  | batch _ ih => exact ih fun event hmem => hbatches event (List.mem_cons_of_mem _ hmem)
  | change => exact absurd (List.mem_cons_self) (hbatches _)

end Runs

/-- A scan whose batches find their leaves near enough never fails, whatever calls change the tree
between the batches, and is faithful to the maps that the tree goes through; with no such call it gives
the rows of the map. A batch that asks for rows gives one, or the scan is done. -/
theorem range_cursor_scans {tree : Tree} {contents : OrdMap Bytes LeafValue} (h : Holds tree contents)
    (start stop : Bytes) (steps : List ScanStep) (hnear : (RangeScan.new tree start stop).AllNear steps) :
    ∃ scan later, (RangeScan.new tree start stop).run steps = .ok scan ∧ Maps tree contents steps later ∧
      Faithful start stop (contents :: later) scan ∧
      (scan.cursor.done = true ∨ steps.countP ScanStep.asks ≤ scan.emitted.length) ∧
      ((∀ event, .change event ∉ steps) → scan.cursor.done = true → scan.emitted = rowsIn contents start stop) := by
  obtain ⟨scan, later, now, hrun, hmaps, hinv⟩ := (ScanInv.new h start stop).run hnear
  rw [Nat.zero_add] at hinv
  refine ⟨scan, later, hrun, hmaps, hinv.faithful, hinv.progress, ?_⟩
  intro hbatches hdone
  obtain rfl := hmaps.nil_of_batches hbatches
  exact hinv.emitted_eq hdone

theorem Tree.scannable_leaf {tree : Tree} {page : Page} (hroot : tree.pages[tree.root]? = some page)
    (hleaf : page.isLeaf = true) (hhigh : page.high = none) (seek stop : Bytes) : tree.Scannable seek stop :=
  ⟨0, 1, tree.root, [], page, .root, hroot, hleaf, followRight_none hhigh seek, by decide,
    .last hroot (by simp [hhigh]), by decide⟩

/-- Two keys, the first of which is gone once it has been given. -/
def deletedWhileScanned : List ScanStep :=
  [.change (.whole (.insert [1] [7])), .change (.whole (.insert [2] [8])), .batch 1,
    .change (.whole (.delete [1])), .batch 5]

theorem range_cursor_scans_deleted :
    ∃ scan later, (RangeScan.new freshDeep [0] [9]).run deletedWhileScanned = .ok scan ∧
      Maps freshDeep ∅ deletedWhileScanned later ∧
      Faithful [0] [9] (∅ :: later) scan ∧ scan.emitted = [([1], .found [7]), ([2], .found [8])] := by
  have hnear : (RangeScan.new freshDeep [0] [9]).AllNear deletedWhileScanned := by
    refine ⟨trivial, ?_⟩
    rintro _ ⟨rfl⟩
    refine ⟨trivial, ?_⟩
    rintro _ ⟨rfl⟩
    refine ⟨fun _ _ => Tree.scannable_leaf rfl rfl rfl _ _, ?_⟩
    rintro _ ⟨rfl⟩
    refine ⟨trivial, ?_⟩
    rintro _ ⟨rfl⟩
    exact ⟨fun _ _ => Tree.scannable_leaf rfl rfl rfl _ _, fun _ _ => trivial⟩
  obtain ⟨scan, later, hrun, hmaps, hfaithful, -⟩ :=
    range_cursor_scans (create_holds create_deep) [0] [9] deletedWhileScanned hnear
  refine ⟨scan, later, hrun, hmaps, hfaithful, ?_⟩
  have hout : ((RangeScan.new freshDeep [0] [9]).run deletedWhileScanned).map RangeScan.emitted =
      .ok [([1], .found [7]), ([2], .found [8])] := by decide +kernel
  rw [hrun] at hout
  exact Except.ok.inj hout

theorem RangeCursor.nextBatch_new_error {tree : Tree} {start stop : Bytes} {limit : ℕ} {error : BTreeError}
    (hlt : start < stop) (hlimit : limit ≠ 0) (hfar : tree.findLeafPath start = .error error) :
    (RangeCursor.new start stop).nextBatch tree limit = (.error error, .new start stop) := by
  have hrange : tree.range start stop limit = .error error := by
    rw [Tree.range, if_neg (not_or.mpr ⟨not_le.mpr hlt, hlimit⟩), hfar]
  rw [RangeCursor.nextBatch, if_neg (by simp [RangeCursor.new, hlt, hlimit])]
  show (match tree.range start stop limit with | .error _ => _ | .ok _ => _) = _
  rw [hrange]

/-- 256 inserts that all succeed, after which a scan for the last key fails. -/
theorem falling_unscannable :
    ∃ tree, freshDeep.runCalls (fallingCalls 256) = some (List.replicate 256 .done, tree) ∧
      (mapCalls ∅ (fallingCalls 256)).2[deepKey 0]? = some (.inline deepValue) ∧
      (RangeScan.new tree (deepKey 0) (deepKey 1)).run [.batch 1] = .error .routingDepthExceeded := by
  obtain ⟨tree, hrun, hdeep, -⟩ := falling_deep 254 le_rfl
  have hlt : deepKey 0 < deepKey 1 := deepKey_lt (by decide) (by decide)
  have hfar : tree.findLeafPath (deepKey 0) = .error .routingDepthExceeded := hdeep.far (by decide) hlt.le
  refine ⟨tree, hrun, by decide +kernel, ?_⟩
  rw [RangeScan.run, RangeScan.step, RangeScan.new, RangeCursor.nextBatch_new_error hlt (by decide) hfar]
  rfl

end OmenDb.Vnext
