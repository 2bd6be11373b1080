import OmenDb.Vnext.Spine

/-! Runs of the tree against a finite map: whole calls, and calls cut after some of their page
writes. What stays in the way is the routing bound: the tree grows past the depth that a search is
allowed. -/
namespace OmenDb.Vnext

inductive Call
  | insert (key value : Bytes)
  | upsert (key value : Bytes)
  | delete (key : Bytes)
  deriving DecidableEq

inductive Answer
  | done
  | duplicateKey
  | removed (was : Bool)
  deriving DecidableEq

/-- `DuplicateKey` is an answer of the map, not a failure. -/
def insertAnswer : Except BTreeError Unit → Except BTreeError Answer
  | .ok () => .ok .done
  | .error .duplicateKey => .ok .duplicateKey
  | .error error => .error error

def Tree.plan (tree : Tree) : Call → Plan Answer
  | .insert key value => ⟨(tree.insert key value).writes, insertAnswer (tree.insert key value).result⟩
  | .upsert key value => ⟨(tree.upsert key value).writes, (tree.upsert key value).result.map fun _ => .done⟩
  | .delete key => ⟨(tree.delete key).writes, (tree.delete key).result.map .removed⟩

def mapCall (contents : OrdMap Bytes LeafValue) : Call → Answer × OrdMap Bytes LeafValue
  | .insert key value =>
    if (contents[key]?).isSome then (.duplicateKey, contents) else (.done, contents.insert key (.inline value))
  | .upsert key value => (.done, contents.insert key (.inline value))
  | .delete key => (.removed (contents[key]?).isSome, contents.erase key)

def Tree.runCalls (tree : Tree) : List Call → Option (List Answer × Tree)
  | [] => some ([], tree)
  | call :: calls =>
    match (tree.plan call).result with
    | .error _ => none
    | .ok answer =>
      ((tree.applyWrites (tree.plan call).writes).runCalls calls).map fun rest => (answer :: rest.1, rest.2)

def mapCalls (contents : OrdMap Bytes LeafValue) : List Call → List Answer × OrdMap Bytes LeafValue
  | [] => ([], contents)
  | call :: calls =>
    let rest := mapCalls (mapCall contents call).2 calls
    ((mapCall contents call).1 :: rest.1, rest.2)

section Step

variable {tree : Tree} {contents : OrdMap Bytes LeafValue}

theorem insertAnswer_ok {result : Except BTreeError Unit} {answer : Answer} (h : insertAnswer result = .ok answer) :
    (result = .ok () ∧ answer = .done) ∨ (result = .error .duplicateKey ∧ answer = .duplicateKey) := by
  cases result with
  | ok => exact .inl ⟨rfl, (Except.ok.inj h).symm⟩
  | error error =>
    cases error <;> first
      | exact .inr ⟨rfl, (Except.ok.inj h).symm⟩
      | exact absurd h (by simp [insertAnswer])

theorem insertAnswer_error {result : Except BTreeError Unit} {error : BTreeError}
    (h : insertAnswer result = .error error) : result = .error error ∧ error ≠ .duplicateKey := by
  cases result with
  | ok => cases h
  | error other =>
    cases other <;> cases h <;> exact ⟨rfl, by simp⟩

theorem Holds.call (h : Holds tree contents) (call : Call) :
    (∀ answer, (tree.plan call).result = .ok answer →
        answer = (mapCall contents call).1 ∧
          Holds (tree.applyWrites (tree.plan call).writes) (mapCall contents call).2) ∧
      (∀ error, (tree.plan call).result = .error error → error.Known) ∧
      Always (fun tree' => Holds tree' contents ∨ Holds tree' (mapCall contents call).2) tree
        (tree.plan call).writes := by
  cases call with
  | insert key value =>
    obtain ⟨herror, hthere, habsent⟩ := h.insert key value
    cases hold : contents[key]? with
    | some old =>
      obtain ⟨hwrites, hnot⟩ := hthere ⟨old, hold⟩
      simp only [Tree.plan, mapCall, hold, Option.isSome_some, if_true, hwrites]
      refine ⟨?_, ?_, always_nil.mpr (.inl h)⟩
      · intro answer hanswer
        rcases insertAnswer_ok hanswer with ⟨hok, -⟩ | ⟨-, rfl⟩
        · exact absurd hok hnot
        · exact ⟨rfl, h⟩
      · intro error hanswer
        obtain ⟨hresult, hne⟩ := insertAnswer_error hanswer
        exact (herror error hresult).resolve_right hne
    | none =>
      obtain ⟨hnot, hcarries⟩ := habsent hold
      simp only [Tree.plan, mapCall, hold, Option.isSome_none]
      refine ⟨?_, ?_, hcarries.cut⟩
      · intro answer hanswer
        rcases insertAnswer_ok hanswer with ⟨hok, rfl⟩ | ⟨hdup, -⟩
        · exact ⟨rfl, hcarries.done () hok⟩
        · exact absurd hdup hnot
      · intro error hanswer
        obtain ⟨hresult, hne⟩ := insertAnswer_error hanswer
        exact (herror error hresult).resolve_right hne
  | upsert key value =>
    obtain ⟨herror, hcarries⟩ := h.upsert key value
    cases hresult : (tree.upsert key value).result with
    | ok =>
      refine ⟨?_, ?_, hcarries.cut⟩
      · intro answer hanswer
        simp only [Tree.plan, hresult, Except.map, Except.ok.injEq] at hanswer
        exact ⟨hanswer.symm, hcarries.done () hresult⟩
      · simp [Tree.plan, hresult, Except.map]
    | error error =>
      refine ⟨by simp [Tree.plan, hresult, Except.map], ?_, hcarries.cut⟩
      intro other hother
      simp only [Tree.plan, hresult, Except.map, Except.error.injEq] at hother
      exact hother ▸ herror error hresult
  | delete key =>
    obtain ⟨herror, hremoved, hcarries⟩ := h.delete key
    cases hresult : (tree.delete key).result with
    | ok was =>
      refine ⟨?_, ?_, hcarries.cut⟩
      · intro answer hanswer
        simp only [Tree.plan, hresult, Except.map, Except.ok.injEq] at hanswer
        exact ⟨hanswer ▸ congrArg Answer.removed (hremoved was hresult), hcarries.done was hresult⟩
      · simp [Tree.plan, hresult, Except.map]
    | error error =>
      refine ⟨by simp [Tree.plan, hresult, Except.map], ?_, hcarries.cut⟩
      intro other hother
      simp only [Tree.plan, hresult, Except.map, Except.error.injEq] at hother
      exact .inr (hother ▸ herror error hresult)

theorem Holds.runCalls {calls : List Call} {answers : List Answer} {tree' : Tree} (h : Holds tree contents)
    (hrun : tree.runCalls calls = some (answers, tree')) :
    answers = (mapCalls contents calls).1 ∧ Holds tree' (mapCalls contents calls).2 := by
  induction calls generalizing tree contents answers with
  | nil =>
    cases hrun
    exact ⟨rfl, h⟩
  | cons call calls ih =>
    rw [Tree.runCalls] at hrun
    cases hresult : (tree.plan call).result with
    | error => simp [hresult] at hrun
    | ok answer =>
      rw [hresult] at hrun
      obtain ⟨hanswer, hnext⟩ := (h.call call).1 answer hresult
      obtain ⟨⟨rest, last⟩, hrest, heq⟩ := Option.map_eq_some_iff.mp hrun
      cases heq
      obtain ⟨hanswers, hlast⟩ := ih hnext hrest
      exact ⟨by rw [mapCalls, hanswer, hanswers], hlast⟩

end Step

/-- Calls on a fresh tree answer as a finite map does, and a key reads as the map has it exactly when
its leaf is less than 128 pages behind the root. -/
theorem runCalls_refines_map {pageSize : ℕ} {fresh tree : Tree} {calls : List Call} {answers : List Answer}
    (hcreate : Tree.create pageSize = .ok fresh) (hrun : fresh.runCalls calls = some (answers, tree)) :
    answers = (mapCalls ∅ calls).1 ∧
      ∀ key, tree.lookup key = .ok (lookupIn (mapCalls ∅ calls).2 key) ↔ ∃ n < maxRoutingDepth,
        Distance tree key n := by
  obtain ⟨hanswers, hholds⟩ := (create_holds hcreate).runCalls hrun
  exact ⟨hanswers, hholds.lookup_iff⟩

def deepKey (i : ℕ) : Bytes := Fin.ofNat 256 i :: List.replicate 13 0

def deepValue : Bytes := List.replicate 40 0

def fallingCalls (n : ℕ) : List Call := (List.range n).map fun i => .insert (deepKey (255 - i)) deepValue

theorem fallingCalls_succ (n : ℕ) :
    fallingCalls (n + 1) = fallingCalls n ++ [.insert (deepKey (255 - n)) deepValue] := by
  simp [fallingCalls, List.range_succ]

theorem deepKey_lt {i j : ℕ} (hij : i < j) (hj : j ≤ 255) : deepKey i < deepKey j := by
  refine List.cons_lt_cons_iff.mpr (.inl ?_)
  rw [Fin.lt_def]
  simp only [Fin.val_ofNat]
  omega

theorem runCalls_append {tree tree' : Tree} {first second : List Call} {answers : List Answer}
    (h : tree.runCalls first = some (answers, tree')) :
    tree.runCalls (first ++ second) = (tree'.runCalls second).map fun rest => (answers ++ rest.1, rest.2) := by
  induction first generalizing tree answers with
  | nil =>
    cases h
    simp
  | cons call first ih =>
    rw [Tree.runCalls] at h
    rw [List.cons_append, Tree.runCalls]
    cases hresult : (tree.plan call).result with
    | error => simp [hresult] at h
    | ok answer =>
      rw [hresult] at h
      obtain ⟨⟨rest, last⟩, hrest, heq⟩ := Option.map_eq_some_iff.mp h
      cases heq
      dsimp only
      rw [ih hrest, Option.map_map]
      rfl

def freshDeep : Tree := ⟨145, (∅ : OrdMap PageId Page).insert 0 (.leaf none []), 0, 1⟩

theorem create_deep : Tree.create 145 = .ok freshDeep := rfl

/-- The tree after this many keys beyond two: every second key has made it a level deeper. -/
def Falling (tree : Tree) (n : ℕ) : Prop :=
  Deep tree (decide (n % 2 = 1)) (1 + n / 2) (deepKey (254 - n)) (deepKey (255 - n)) ∧ tree.nextPage ≤ 3 + 131 * n

section Falling

variable {tree tree' : Tree} {n : ℕ}

theorem Falling.room (h : Falling tree n) (hn : n ≤ 254) : tree.nextPage + (1 + n / 2) + 2 < reservedPageId := by
  refine lt_of_le_of_lt (Nat.add_le_add_right (Nat.add_le_add_right h.2 _) _)
    (@lt_of_le_of_lt ℕ _ _ 40000 _ ?_ (by decide))
  show 3 + 131 * n + (1 + n / 2) + 2 ≤ 40000
  omega

theorem Falling.succ (h : Falling tree n) (hn : n < 254)
    (hdeep : Deep tree' (!decide (n % 2 = 1)) (1 + n / 2 + (if decide (n % 2 = 1) then 1 else 0))
      (deepKey (254 - (n + 1))) (deepKey (254 - n)))
    (hnext : tree'.nextPage ≤ tree.nextPage + (1 + n / 2) + 2) : Falling tree' (n + 1) := by
  have hparity : (!decide (n % 2 = 1)) = decide ((n + 1) % 2 = 1) := by
    rw [← decide_not, decide_eq_decide]
    omega
  have hheight : 1 + n / 2 + (if decide (n % 2 = 1) = true then 1 else 0) = 1 + (n + 1) / 2 := by
    by_cases hodd : n % 2 = 1
    · simp only [hodd, decide_true, if_true]
      omega
    · simp only [hodd, decide_false, Bool.false_eq_true, if_false]
      omega
  have hkey : 255 - (n + 1) = 254 - n := by omega
  rw [hparity, hheight] at hdeep
  refine ⟨hkey ▸ hdeep, hnext.trans ((Nat.add_le_add_right (Nat.add_le_add_right h.2 _) _).trans ?_)⟩
  omega

end Falling

theorem falling_two : ∃ tree, freshDeep.runCalls (fallingCalls 2) = some ([.done, .done], tree) ∧ Falling tree 0 := by
  refine ⟨_, rfl, ⟨0, [2], [], ⟨deepKey 255, 1⟩, deepValue, ?_, rfl, rfl, rfl, rfl, rfl, ?_, ?_, ?_, ?_, rfl⟩, ?_⟩
  · exact @Spine.narrow _ 0 2 ⟨deepKey 255, 1⟩ rfl rfl (by decide) rfl (by decide)
  all_goals decide

theorem falling_deep (n : ℕ) (hn : n ≤ 254) :
    ∃ tree, freshDeep.runCalls (fallingCalls (2 + n)) = some (List.replicate (2 + n) .done, tree) ∧ Falling tree n := by
  induction n with
  | zero => exact falling_two
  | succ n ih =>
    obtain ⟨tree, hrun, hfalling⟩ := ih (by omega)
    have hlt : deepKey (254 - (n + 1)) < deepKey (254 - n) := deepKey_lt (by omega) (by omega)
    obtain ⟨hok, hdeep, hnext⟩ := hfalling.1.insert (by show 1 + n / 2 < 128; omega) (hfalling.room (by omega)) rfl
      (show deepValue.length = 40 from rfl) hlt
    refine ⟨tree.applyWrites (tree.insert (deepKey (254 - (n + 1))) deepValue).writes, ?_,
      hfalling.succ (by omega) hdeep hnext⟩
    have hkey : 255 - (2 + n) = 254 - (n + 1) := by omega
    rw [← Nat.add_assoc, fallingCalls_succ, runCalls_append hrun, hkey, Tree.runCalls]
    simp only [Tree.plan, hok, insertAnswer, Tree.runCalls, Option.map_some, List.replicate_succ']

/-- 256 inserts that all succeed, after which the last key cannot be read. -/
theorem falling_unreadable :
    ∃ tree, Tree.create 145 = .ok freshDeep ∧ freshDeep.runCalls (fallingCalls 256) =
      some (List.replicate 256 .done, tree) ∧ tree.lookup (deepKey 0) = .error .routingDepthExceeded := by
  obtain ⟨tree, hrun, hdeep, -⟩ := falling_deep 254 le_rfl
  refine ⟨tree, create_deep, hrun, ?_⟩
  rw [Tree.lookup, hdeep.far (by decide) (deepKey_lt (by decide) (by decide)).le]

/-- Three calls and what they read. -/
theorem runCalls_refines_map_three :
    ∃ tree, freshDeep.runCalls [.insert [1] [7], .insert [1] [8], .delete [2]] =
      some ([.done, .duplicateKey, .removed false], tree) ∧
      ∀ key, tree.lookup key = .ok (lookupIn (mapCalls ∅ [.insert [1] [7], .insert [1] [8], .delete [2]]).2 key) ↔
        ∃ n < maxRoutingDepth, Distance tree key n :=
  ⟨_, rfl, (runCalls_refines_map create_deep rfl).2⟩

/-- A call that is carried out, whatever it answers, or one that ends after some of its writes. -/
inductive Event
  | whole (call : Call)
  | cut (call : Call) (writes : ℕ)

def Tree.after (tree : Tree) : Event → Tree
  | .whole call => tree.applyWrites (tree.plan call).writes
  | .cut call n => tree.applyWrites ((tree.plan call).writes.take n)

/-- What a map may do at an event of the tree: a call that is answered is the map's; one that fails or
is cut has happened or has not. -/
def MapStep (tree : Tree) (contents : OrdMap Bytes LeafValue) (contents' : OrdMap Bytes LeafValue) : Event → Prop
  | .whole call =>
    match (tree.plan call).result with
    | .ok answer => (answer, contents') = mapCall contents call
    | .error error => error.Known ∧ (contents' = contents ∨ contents' = (mapCall contents call).2)
  | .cut call _ => contents' = contents ∨ contents' = (mapCall contents call).2

/-- Every key and every range is read as the map has it, when its leaves are near enough. -/
structure ReadsAs (tree : Tree) (contents : OrdMap Bytes LeafValue) : Prop where
  lookup : ∀ key, tree.lookup key = .ok (lookupIn contents key) ↔ ∃ n < maxRoutingDepth, Distance tree key n
  range : ∀ start stop limit n m id path page, start < stop → limit ≠ 0 → Reaches tree start n id path →
  tree.pages[id]? = some page →
    page.isLeaf = true → page.followRight start = none → n < maxRoutingDepth → Stretch tree stop id m →
    m ≤ maxRoutingDepth * 1024 →
    tree.range start stop limit = .ok
    (((contents.toList.filter fun binding => decide (start ≤ binding.1 ∧ binding.1 < stop)).map
      fun binding => (binding.1, binding.2.lookup)).take limit)

/-- The tree reads as a map now and after each of the events. -/
inductive Behaves : Tree → OrdMap Bytes LeafValue → List Event → Prop
  | last {tree : Tree} {contents : OrdMap Bytes LeafValue} (hreads : ReadsAs tree contents) : Behaves tree contents []
  | next {tree : Tree} {contents contents' : OrdMap Bytes LeafValue} {event : Event} {events : List Event}
      (hreads : ReadsAs tree contents) (hstep : MapStep tree contents contents' event)
      (hrest : Behaves (tree.after event) contents' events) : Behaves tree contents (event :: events)

section Events

variable {tree : Tree} {contents : OrdMap Bytes LeafValue}

theorem Holds.readsAs (h : Holds tree contents) : ReadsAs tree contents where
  lookup := h.lookup_iff
  range := fun _ _ _ _ _ _ _ _ hlt hlimit hreach hpage hleaf hhere hn hstretch hm =>
    h.range hlt hlimit hreach hpage hleaf hhere hn hstretch hm

theorem Holds.event (h : Holds tree contents) (event : Event) :
    ∃ contents', MapStep tree contents contents' event ∧ Holds (tree.after event) contents' := by
  cases event with
  | whole call =>
    obtain ⟨hanswer, herror, hcut⟩ := h.call call
    cases hresult : (tree.plan call).result with
    | ok answer =>
      obtain ⟨rfl, hholds⟩ := hanswer answer hresult
      exact ⟨_, by simp only [MapStep, hresult], hholds⟩
    | error error =>
      have hknown := herror error hresult
      rcases hcut.last with hholds | hholds
      · exact ⟨contents, by rw [MapStep, hresult]; exact ⟨hknown, .inl rfl⟩, hholds⟩
      · exact ⟨_, by rw [MapStep, hresult]; exact ⟨hknown, .inr rfl⟩, hholds⟩
  | cut call n =>
    rcases (h.call call).2.2 n with hholds | hholds
    · exact ⟨_, .inl rfl, hholds⟩
    · exact ⟨_, .inr rfl, hholds⟩

theorem Holds.behaves (h : Holds tree contents) (events : List Event) : Behaves tree contents events := by
  induction events generalizing tree contents with
  | nil => exact .last h.readsAs
  | cons event events ih =>
    obtain ⟨contents', hstep, hholds⟩ := h.event event
    exact .next h.readsAs hstep (ih hholds)

end Events

/-- However calls are cut, the tree goes on as a map, as far as its leaves are near enough. -/
theorem cut_calls_behave {pageSize : ℕ} {fresh : Tree} (hcreate : Tree.create pageSize = .ok fresh)
    (events : List Event) : Behaves fresh ∅ events := (create_holds hcreate).behaves events

/-- A split without its root, and an insert after it. -/
theorem cut_calls_behave_split :
    Behaves freshDeep ∅ [.whole (.insert (deepKey 1) deepValue), .cut (.insert (deepKey 2) deepValue) 3,
      .whole (.insert [3] [])] :=
  cut_calls_behave create_deep _

/-- A tree in which a key is read, and an insert whose writes put it out of reach. -/
theorem cut_insert_hides_key :
    ∃ tree : Tree, freshDeep.runCalls (fallingCalls 255) = some (List.replicate 255 .done, tree) ∧
      (∃ value, tree.lookup (deepKey 1) = .ok (.found value)) ∧
      ((tree.after (.cut (.insert (deepKey 0) deepValue)
        (tree.plan (.insert (deepKey 0) deepValue)).writes.length)).lookup (deepKey 1) =
        .error .routingDepthExceeded) := by
  obtain ⟨tree, hrun, hfalling⟩ := falling_deep 253 (by decide)
  obtain ⟨-, hdeep', -⟩ :=
    @Deep.insert _ _ _ _ _ (deepKey 0) deepValue hfalling.1 (by decide) (hfalling.room (by decide)) rfl rfl
    (deepKey_lt (by decide) (by decide))
  refine ⟨tree, hrun, hfalling.1.near (by decide), ?_⟩
  rw [Tree.after, List.take_length, Tree.lookup]
  have hfar := @Deep.far _ _ _ _ _ (deepKey 1) hdeep' (by decide) le_rfl
  rw [Tree.plan, hfar]

end OmenDb.Vnext
