import OmenDb.Txn.State

/-! The abstract store. A history of commits, newest first, determines the value of every key and
the lifecycle of every tree at each commit sequence number; a read is a function of that store
and of the reader's own staged writes. -/
namespace OmenDb.Txn

abbrev Store := OrdMap Loc Bytes

def putWrite (m : Store) (p : Loc × Option Bytes) : Store :=
  match p.2 with
  | some v => m.insert p.1 v
  | none => m.erase p.1

/-- A store overlaid with staged writes; a staged delete hides the key. -/
def overlay (store : Store) (own : Writes) : Store := own.toList.foldl putWrite store

/-- The store after the commits with sequence number at most `s`. -/
def storeAt (s : ℕ) : List Commit → Store
  | [] => ∅
  | c :: cs => if c.csn ≤ s then overlay (storeAt s cs) c.writes else storeAt s cs

/-- The last lifecycle a tree was given by the commits with sequence number at most `s`. -/
def lifecycleAt (s : ℕ) (tree : ℕ) : List Commit → Option Bytes
  | [] => none
  | c :: cs =>
    if c.csn ≤ s then
      match c.treeLifecycles[tree]? with
      | some l => some l
      | none => lifecycleAt s tree cs
    else lifecycleAt s tree cs

/-- Whether a tree is live as of the commits with sequence number at most `s`. -/
def liveAt (s : ℕ) (tree : ℕ) (history : List Commit) : Bool :=
  decide (lifecycleAt s tree history = some treeLive)

/-- The entries of `[start, stop)` of one tree, in key order, cut at `limit`. -/
def entriesIn (store : Store) (tree : ℕ) (start : Bytes) (stop : Option Bytes) (limit : ℕ) :
    List (Bytes × Bytes) :=
  (((store.filter fun l _ => decide (l.tree = tree) && inRange start stop l.key).toList).map
    fun p => (p.1.key, p.2)).take limit

/-- What a read returns on a store overlaid with the reader's own writes. -/
def Read.eval (store : Store) (own : Writes) : Read → Answer
  | .get tree key => .value (overlay store own)[(⟨tree, key⟩ : Loc)]?
  | .scan tree start stop limit => .entries (entriesIn (overlay store own) tree start stop limit)
  | .next tree position stop => .entries (entriesIn (overlay store own) tree position stop 1)

def Read.touches : Read → Loc → Prop
  | .get tree key, l => l = ⟨tree, key⟩
  | .scan tree start stop limit, l =>
    0 < limit ∧ l.tree = tree ∧ inRange start stop l.key = true
  | .next tree position stop, l => l.tree = tree ∧ inRange position stop l.key = true

theorem putWrite_get (m : Store) (p : Loc × Option Bytes) (l : Loc) :
    (putWrite m p)[l]? = if p.1 = l then p.2 else m[l]? := by
  obtain ⟨k, v⟩ := p
  cases v with
  | some v => simp [putWrite, OrdMap.get_insert]
  | none => simp [putWrite, OrdMap.get_erase]

theorem foldl_putWrite_of_notMem (ws : List (Loc × Option Bytes)) (m : Store) (l : Loc)
    (h : ∀ p ∈ ws, p.1 ≠ l) : (ws.foldl putWrite m)[l]? = m[l]? := by
  induction ws generalizing m with
  | nil => rfl
  | cons p ps ih =>
    rw [List.foldl_cons, ih _ fun q hq => h q (by simp [hq]), putWrite_get, if_neg (h p (by simp))]

theorem foldl_putWrite_of_mem (ws : List (Loc × Option Bytes)) (m : Store)
    (hs : ws.Pairwise fun a b => a.1 < b.1) {p : Loc × Option Bytes} (hp : p ∈ ws) :
    (ws.foldl putWrite m)[p.1]? = p.2 := by
  induction ws generalizing m with
  | nil => simp at hp
  | cons q qs ih =>
    obtain ⟨hq, hqs⟩ := List.pairwise_cons.mp hs
    rw [List.foldl_cons]
    rcases List.mem_cons.mp hp with rfl | hp
    · rw [foldl_putWrite_of_notMem _ _ _ fun r hr => (hq r hr).ne', putWrite_get, if_pos rfl]
    · exact ih _ hqs hp

/-- A staged write decides the key it names; every other key keeps its stored value. -/
theorem overlay_get (store : Store) (own : Writes) (l : Loc) :
    (overlay store own)[l]? = (own[l]?).getD store[l]? := by
  cases h : own[l]? with
  | some v => exact foldl_putWrite_of_mem _ _ own.sorted_toList ((OrdMap.mem_toList _ _ _).mpr h)
  | none =>
    refine foldl_putWrite_of_notMem _ _ _ fun p hp hl => ?_
    have := (OrdMap.mem_toList own p.1 p.2).mp hp
    simp [hl, h] at this

variable {store store' : Store} {own : Writes} {V : Type} {tree : ℕ} {start : Bytes} {stop : Option Bytes}

theorem overlay_congr {l : Loc} (h : own[l]? = none → store[l]? = store'[l]?) :
    (overlay store own)[l]? = (overlay store' own)[l]? := by
  rw [overlay_get, overlay_get]
  cases hl : own[l]? with
  | some v => rfl
  | none => exact h hl

/-! ### Last writers

A field is what each commit writes to one key or one tree. -/

/-- The last value a field was given by the commits with sequence number at most `s`. -/
def lastAt {β : Type} (f : Commit → Option β) (s : ℕ) : List Commit → Option β
  | [] => none
  | c :: cs => if c.csn ≤ s then (f c).or (lastAt f s cs) else lastAt f s cs

def lastCommit {β : Type} (f : Commit → Option β) (history : List Commit) : Option Commit :=
  history.find? fun c => (f c).isSome

def valueAt (f : Commit → Option (Option Bytes)) (s : ℕ) (history : List Commit) : Option Bytes :=
  (lastAt f s history).join

theorem storeAt_get (s : ℕ) (history : List Commit) (l : Loc) :
    (storeAt s history)[l]? = valueAt (fun c => c.writes[l]?) s history := by
  induction history with
  | nil => simp [storeAt, valueAt, lastAt]
  | cons c cs ih =>
    simp only [storeAt, valueAt, lastAt] at ih ⊢
    split
    · rw [overlay_get, ih]
      cases c.writes[l]? <;> simp
    · exact ih

theorem lifecycleAt_eq (s tree : ℕ) (history : List Commit) :
    lifecycleAt s tree history = valueAt (fun c => (c.treeLifecycles[tree]?).map some) s history := by
  induction history with
  | nil => rfl
  | cons c cs ih =>
    simp only [lifecycleAt, valueAt, lastAt] at ih ⊢
    split
    · cases c.treeLifecycles[tree]? <;> simp [ih]
    · exact ih

theorem storeAt_append {s : ℕ} {new history : List Commit} (h : ∀ c ∈ new, s < c.csn) :
    storeAt s (new ++ history) = storeAt s history := by
  induction new with
  | nil => rfl
  | cons c cs ih =>
    have hc := h c (by simp)
    simp only [List.cons_append, storeAt, Nat.not_le.mpr hc, if_false]
    exact ih fun x hx => h x (by simp [hx])

section LastAt
variable {β : Type} {f : Commit → Option β} {s s' : ℕ} {history new : List Commit} {c : Commit}

theorem lastAt_append : lastAt f s (new ++ history) = (lastAt f s new).or (lastAt f s history) := by
  induction new with
  | nil => simp [lastAt]
  | cons c cs ih =>
    simp only [List.cons_append, lastAt, ih]
    split
    · rw [Option.or_assoc]
    · rfl

theorem lastAt_eq_none (h : ∀ c ∈ history, c.csn ≤ s → f c = none) : lastAt f s history = none := by
  induction history with
  | nil => rfl
  | cons c cs ih =>
    have ht := ih fun x hx => h x (by simp [hx])
    simp only [lastAt, ht]
    split
    · rw [h c (by simp) ‹_›]; rfl
    · rfl

theorem lastAt_source {v : β} (h : lastAt f s history = some v) : ∃ c ∈ history, f c = some v := by
  by_contra hno
  push Not at hno
  induction history with
  | nil => cases h
  | cons c cs ih =>
    have hrest : lastAt f s cs ≠ some v := fun hv => ih hv fun x hx => hno x (by simp [hx])
    rw [lastAt] at h
    split at h
    · cases hc : f c with
      | none => rw [hc, Option.none_or] at h; exact hrest h
      | some w => rw [hc] at h; exact hno c (by simp) (hc.trans h)
    · exact hrest h

theorem lastAt_single {v : β} (hc : c ∈ new) (hv : f c = some v)
    (hu : ∀ x ∈ new, (f x).isSome → x = c) : lastAt f s new = if c.csn ≤ s then some v else none := by
  induction new with
  | nil => simp at hc
  | cons x xs ih =>
    by_cases hx : x = c
    · subst hx
      by_cases hs : x.csn ≤ s
      · simp [lastAt, hs, hv]
      · rw [if_neg hs]
        refine lastAt_eq_none fun y hy hle => ?_
        by_contra hne
        have := hu y hy (Option.ne_none_iff_isSome.mp hne)
        subst this
        exact hs hle
    · have hfx : f x = none := by
        by_contra hne
        exact hx (hu x (by simp) (Option.ne_none_iff_isSome.mp hne))
      have hc' : c ∈ xs := by
        rcases List.mem_cons.mp hc with h | h
        · exact absurd h.symm hx
        · exact h
      have ht := ih hc' fun y hy => hu y (by simp [hy])
      simp [lastAt, hfx, ht]

theorem lastAt_between (hle : s ≤ s') (h : ∀ c ∈ history, s < c.csn → c.csn ≤ s' → f c = none) :
    lastAt f s history = lastAt f s' history := by
  induction history with
  | nil => rfl
  | cons c cs ih =>
    have ht := ih fun x hx => h x (by simp [hx])
    simp only [lastAt, ht]
    by_cases h1 : c.csn ≤ s
    · simp [h1, h1.trans hle]
    · by_cases h2 : c.csn ≤ s'
      · simp [h1, h2, h c (by simp) (by omega) h2]
      · simp [h1, h2]

theorem lastCommit_append :
    lastCommit f (new ++ history) = (lastCommit f new).or (lastCommit f history) := by
  simp [lastCommit, List.find?_append]

theorem lastCommit_eq_none : lastCommit f history = none ↔ ∀ c ∈ history, f c = none := by
  simp [lastCommit, List.find?_eq_none]

theorem lastCommit_mem (h : lastCommit f history = some c) : c ∈ history := List.mem_of_find?_eq_some h

theorem lastCommit_writes (h : lastCommit f history = some c) : (f c).isSome :=
  List.find?_some (p := fun c => (f c).isSome) h

theorem lastAt_of_lastCommit (h : lastCommit f history = some c) (hs : c.csn ≤ s) :
    lastAt f s history = f c := by
  induction history with
  | nil => simp [lastCommit] at h
  | cons x xs ih =>
    unfold lastCommit at h
    rw [List.find?_cons] at h
    cases hx : f x with
    | some v =>
      simp only [hx, Option.isSome_some, Option.some.injEq] at h
      subst h
      simp [lastAt, hs, hx]
    | none =>
      simp only [hx, Option.isSome_none] at h
      have ht := ih h
      simp [lastAt, hx, ht]

theorem le_lastCommit (hsort : history.Pairwise fun a b => b.csn < a.csn)
    (h : lastCommit f history = some c) {x : Commit} (hx : x ∈ history) (hw : (f x).isSome) :
    x.csn ≤ c.csn := by
  induction history with
  | nil => simp at hx
  | cons y ys ih =>
    obtain ⟨hy, hys⟩ := List.pairwise_cons.mp hsort
    unfold lastCommit at h
    rw [List.find?_cons] at h
    cases hfy : f y with
    | some v =>
      simp only [hfy, Option.isSome_some, Option.some.injEq] at h
      subst h
      rcases List.mem_cons.mp hx with rfl | hx
      · exact le_rfl
      · exact (hy x hx).le
    | none =>
      simp only [hfy, Option.isSome_none] at h
      rcases List.mem_cons.mp hx with rfl | hx
      · simp [hfy] at hw
      · exact ih hys h hx

end LastAt

theorem mem_entries {store : OrdMap Loc V} {key : Bytes} {value : V} :
    (key, value) ∈ ((store.filter fun l _ => decide (l.tree = tree) &&
        inRange start stop l.key).toList).map (fun p => (p.1.key, p.2)) ↔
      inRange start stop key = true ∧ store[(⟨tree, key⟩ : Loc)]? = some value := by
  simp only [List.mem_map, Prod.exists, OrdMap.mem_toList, OrdMap.get_filter,
    Option.filter_eq_some_iff, Prod.mk.injEq, Bool.and_eq_true, decide_eq_true_eq]
  constructor
  · rintro ⟨⟨tr, k⟩, v, ⟨hv, htree, hr⟩, rfl, rfl⟩
    subst htree
    exact ⟨hr, hv⟩
  · rintro ⟨hr, hv⟩
    exact ⟨⟨tree, key⟩, value, ⟨hv, rfl, hr⟩, rfl, rfl⟩

theorem sorted_entries (store : OrdMap Loc V) (tree : ℕ) (start : Bytes) (stop : Option Bytes) :
    (((store.filter fun l _ => decide (l.tree = tree) &&
        inRange start stop l.key).toList).map fun p => (p.1.key, p.2)).Pairwise
      fun a b => a.1 < b.1 := by
  rw [List.pairwise_map, Std.ExtTreeMap.toList_filter]
  have hs := store.sorted_toList
  refine List.Pairwise.imp_of_mem ?_ (hs.filter _)
  rintro ⟨a, v⟩ ⟨b, w⟩ ha hb hlt
  have hat : a.tree = tree := by simpa using (Bool.and_eq_true_iff.mp (List.mem_filter.mp ha).2).1
  have hbt : b.tree = tree := by simpa using (Bool.and_eq_true_iff.mp (List.mem_filter.mp hb).2).1
  rcases (Loc.lt_iff a b).mp hlt with h | ⟨_, h⟩
  · omega
  · exact h

theorem entriesIn_congr (h : ∀ key, inRange start stop key = true →
      store[(⟨tree, key⟩ : Loc)]? = store'[(⟨tree, key⟩ : Loc)]?) (limit : ℕ) :
    entriesIn store tree start stop limit = entriesIn store' tree start stop limit := by
  unfold entriesIn
  refine congrArg _ (OrdMap.eq_of_sorted (sorted_entries _ _ _ _) (sorted_entries _ _ _ _) ?_)
  rintro ⟨key, value⟩
  rw [mem_entries, mem_entries]
  refine and_congr_right fun hr => ?_
  rw [h key hr]

theorem Read.eval_congr (read : Read)
    (h : ∀ l, read.touches l → own[l]? = none → store[l]? = store'[l]?) :
    read.eval store own = read.eval store' own := by
  cases read with
  | get tree key =>
    simp only [Read.eval, Answer.value.injEq]
    exact overlay_congr (h _ rfl)
  | scan tree start stop limit =>
    simp only [Read.eval, Answer.entries.injEq]
    rcases Nat.eq_zero_or_pos limit with rfl | hl
    · simp [entriesIn]
    · exact entriesIn_congr (fun key hr => overlay_congr (h ⟨tree, key⟩ ⟨hl, rfl, hr⟩)) _
  | next tree position stop =>
    simp only [Read.eval, Answer.entries.injEq]
    exact entriesIn_congr (fun key hr => overlay_congr (h ⟨tree, key⟩ ⟨rfl, hr⟩)) _

end OmenDb.Txn
