import OmenDb.Lib.Machine

/-! The resource governor and the reactor that drives it. Work waits in one queue per class, runs on a
worker, and leaves by completion, cancellation, expiry or termination; its cost is accounted for as
long as it is held. Maps are given by their contents, and the counters of events are unbounded. -/
namespace OmenDb.Runtime

def usizeMax : ℕ := 2 ^ 64 - 1
def u64Max : ℕ := 2 ^ 64 - 1

def deadlinePriorityWindow : ℕ := 4

inductive WorkClass
  | olTp | wal | reclaim | schema | scan
  deriving DecidableEq

namespace WorkClass

def queueIndex : WorkClass → ℕ
  | olTp => 0
  | wal => 1
  | reclaim => 2
  | schema => 3
  | scan => 4

def isTerminable : WorkClass → Bool
  | olTp | wal => false
  | _ => true

def isDemotable : WorkClass → Bool
  | olTp | wal => false
  | _ => true

def canConsumeReserve : WorkClass → Bool
  | olTp | wal | reclaim => true
  | _ => false

def priorityOrder : List WorkClass := [olTp, wal, reclaim, schema, scan]

end WorkClass

inductive OverloadPolicy
  | reject | terminateLargest
  deriving DecidableEq

structure GovernorConfig where
  capacity : ℕ
  protectedReserve : ℕ
  maxQueuePerClass : ℕ
  maxInFlight : ℕ
  overloadPolicy : OverloadPolicy
  fits : capacity ≤ usizeMax

structure WorkItem where
  id : ℕ
  workClass : WorkClass
  cost : ℕ
  deadline : Option ℕ
  deriving DecidableEq

inductive GovernorError
  | invalidCapacity
  | invalidReserve (reserve capacity : ℕ)
  | invalidBounds
  | invalidCost
  | queueFull (workClass : WorkClass)
  | protectedReserve (workClass : WorkClass)
  | capacityExhausted
  | unknownWork (id : ℕ)
  deriving DecidableEq

structure ResourceGovernor where
  config : GovernorConfig
  queues : WorkClass → List WorkItem
  inFlight : List WorkItem
  accountedCost : ℕ
  nextId : ℕ
  expired : ℕ
  rejected : ℕ
  terminated : ℕ
  terminatedItems : List WorkItem

namespace ResourceGovernor

open WorkClass (priorityOrder)

def new (config : GovernorConfig) : Except GovernorError ResourceGovernor :=
  if config.capacity = 0 then .error .invalidCapacity
  else if config.capacity ≤ config.protectedReserve then
    .error (.invalidReserve config.protectedReserve config.capacity)
  else if config.maxQueuePerClass = 0 ∨ config.maxInFlight = 0 then .error .invalidBounds
  else .ok ⟨config, fun _ => [], [], 0, 0, 0, 0, 0, []⟩

def setQueue (g : ResourceGovernor) (c : WorkClass) (queue : List WorkItem) : ResourceGovernor :=
  { g with queues := Function.update g.queues c queue }

def reject (g : ResourceGovernor) : ResourceGovernor := { g with rejected := g.rejected + 1 }

def release (g : ResourceGovernor) (item : WorkItem) : ResourceGovernor :=
  { g with accountedCost := g.accountedCost - item.cost }

def terminate (g : ResourceGovernor) (item : WorkItem) : ResourceGovernor :=
  { g.release item with
    terminated := g.terminated + 1
    terminatedItems := g.terminatedItems ++ [item] }

/-- Remove an item by its id from the first of the queues that holds it. -/
def takeQueued (g : ResourceGovernor) (id : ℕ) : List WorkClass → Option (WorkItem × ResourceGovernor)
  | [] => none
  | c :: cs =>
    match (g.queues c).find? (·.id = id) with
    | some item => some (item, g.setQueue c ((g.queues c).eraseP (·.id = id)))
    | none => takeQueued g id cs

/-- `BTreeMap::remove` on the items in flight. -/
def takeInFlight (g : ResourceGovernor) (id : ℕ) : Option (WorkItem × ResourceGovernor) :=
  match g.inFlight.find? (·.id = id) with
  | some item => some (item, { g with inFlight := g.inFlight.eraseP (·.id = id) })
  | none => none

def consider (best : Option (ℕ × ℕ)) (item : WorkItem) : Option (ℕ × ℕ) :=
  if !item.workClass.isTerminable then best
  else
    match best with
    | none => some (item.cost, item.id)
    | some (cost, id) =>
      if cost < item.cost ∨ (item.cost = cost ∧ item.id < id) then some (item.cost, item.id) else best

def largestTerminable (g : ResourceGovernor) : Option ℕ :=
  ((g.inFlight ++ priorityOrder.flatMap g.queues).foldl consider none).map Prod.snd

/-- The loop of `terminate_largest_for`, with what it has freed. Every round takes one item, so as many
rounds as there are items are enough. -/
def terminateLoop (needed : ℕ) : ℕ → ResourceGovernor → ℕ → ResourceGovernor × ℕ
  | 0, g, freed => (g, freed)
  | rounds + 1, g, freed =>
    if needed ≤ freed then (g, freed)
    else
      match g.largestTerminable with
      | none => (g, freed)
      | some victim =>
        match (g.takeInFlight victim).or (g.takeQueued victim priorityOrder) with
        | none => (g, freed)
        | some (item, g) => terminateLoop needed rounds (g.terminate item) (freed + item.cost)

def terminateLargestFor (g : ResourceGovernor) (needed : ℕ) : ResourceGovernor × Bool :=
  let ended := terminateLoop needed (g.inFlight ++ priorityOrder.flatMap g.queues).length g 0
  (ended.1, needed ≤ ended.2)

/-- The end of `submit`: the reserve, the id and the queue. -/
def enqueue (g : ResourceGovernor) (c : WorkClass) (cost : ℕ) (deadline : Option ℕ) :
    ResourceGovernor × Except GovernorError ℕ :=
  if !c.canConsumeReserve ∧ g.config.capacity - g.config.protectedReserve < g.accountedCost + cost then
    (g.reject, .error (.protectedReserve c))
  else if g.nextId = u64Max then (g.reject, .error .capacityExhausted)
  else
    ({ g.setQueue c (g.queues c ++ [⟨g.nextId, c, cost, deadline⟩]) with
      nextId := g.nextId + 1
      accountedCost := g.accountedCost + cost }, .ok g.nextId)

def submit (g : ResourceGovernor) (c : WorkClass) (cost : ℕ) (deadline : Option ℕ) :
    ResourceGovernor × Except GovernorError ℕ :=
  if cost = 0 ∨ g.config.capacity < cost then (g.reject, .error .invalidCost)
  else if g.config.maxQueuePerClass ≤ (g.queues c).length then (g.reject, .error (.queueFull c))
  else if usizeMax < g.accountedCost + cost then (g, .error .capacityExhausted)
  else if g.config.capacity < g.accountedCost + cost then
    if g.config.overloadPolicy = .terminateLargest then
      let ended := g.terminateLargestFor (g.accountedCost + cost - g.config.capacity)
      if ended.2 then
        if usizeMax < ended.1.accountedCost + cost then (ended.1, .error .capacityExhausted)
        else ended.1.enqueue c cost deadline
      else (ended.1.reject, .error .capacityExhausted)
    else (g.reject, .error .capacityExhausted)
  else g.enqueue c cost deadline

def due (now : ℕ) (item : WorkItem) : Bool := item.deadline.any (· ≤ now)

def expire (g : ResourceGovernor) (now : ℕ) : ResourceGovernor :=
  let gone := priorityOrder.flatMap fun c => (g.queues c).filter (due now)
  { g with
    queues := fun c => (g.queues c).filter (!due now ·)
    accountedCost := g.accountedCost - (gone.map (·.cost)).sum
    expired := g.expired + gone.length }

/-- The order of the tuples of deadline, queue and place. -/
def earlier (a b : ℕ × WorkClass × ℕ) : Bool :=
  a.1 < b.1 || (a.1 == b.1 && (a.2.1.queueIndex < b.2.1.queueIndex ||
    (a.2.1.queueIndex == b.2.1.queueIndex && a.2.2 < b.2.2)))

def urgentItem (g : ResourceGovernor) (now : ℕ) : Option (WorkClass × ℕ) :=
  let candidates := priorityOrder.flatMap fun c => (g.queues c).zipIdx.filterMap fun entry =>
    entry.1.deadline.bind fun deadline =>
      if deadline - now ≤ deadlinePriorityWindow then some (deadline, c, entry.2) else none
  let best := candidates.foldl (fun best candidate =>
    match best with
    | none => some candidate
    | some current => if earlier candidate current then some candidate else best) none
  best.map Prod.snd

def popFirst (g : ResourceGovernor) : List WorkClass → Option (WorkItem × ResourceGovernor)
  | [] => none
  | c :: cs =>
    match g.queues c with
    | item :: rest => some (item, g.setQueue c rest)
    | [] => popFirst g cs

/-- `BTreeMap::insert` on the items in flight. -/
def start (g : ResourceGovernor) (item : WorkItem) : ResourceGovernor :=
  { g with inFlight := item :: g.inFlight.eraseP (·.id = item.id) }

def poll (g : ResourceGovernor) (now : ℕ) : ResourceGovernor × Option WorkItem :=
  let g := g.expire now
  if g.config.maxInFlight ≤ g.inFlight.length then (g, none)
  else
    match g.urgentItem now with
    | some (c, i) =>
      match (g.queues c)[i]? with
      | some item => ((g.setQueue c ((g.queues c).eraseIdx i)).start item, some item)
      | none => (g, none) -- the source panics; `urgentItem` gives places that exist
    | none =>
      match g.popFirst priorityOrder with
      | some (item, g) => (g.start item, some item)
      | none => (g, none)

def requeueDemoted (g : ResourceGovernor) (item : WorkItem) : ResourceGovernor :=
  match g.takeInFlight item.id with
  | some (queued, g) => g.setQueue queued.workClass (g.queues queued.workClass ++ [queued])
  | none => g

def complete (g : ResourceGovernor) (id : ℕ) : ResourceGovernor × Except GovernorError WorkItem :=
  match g.takeInFlight id with
  | some (item, g) => (g.release item, .ok item)
  | none => (g, .error (.unknownWork id))

def cancelQueued (g : ResourceGovernor) (id : ℕ) : ResourceGovernor × Except GovernorError WorkItem :=
  match g.takeQueued id priorityOrder with
  | some (item, g) => (g.release item, .ok item)
  | none => (g, .error (.unknownWork id))

def takeTerminated (g : ResourceGovernor) : ResourceGovernor × List WorkItem :=
  ({ g with terminatedItems := [] }, g.terminatedItems)

end ResourceGovernor

structure ReactorConfig where
  workers : ℕ
  governor : GovernorConfig
  demotionAfter : Option ℕ

inductive ReactorError
  | invalidWorkerCount
  | workerIdle (worker : ℕ)
  | workerIdOverflow
  | governor (error : GovernorError)

abbrev WorkerSlot := Option (WorkItem × ℕ)

structure Reactor where
  governor : ResourceGovernor
  workers : List WorkerSlot
  demotionAfter : Option ℕ

namespace Reactor

def new (config : ReactorConfig) : Except ReactorError Reactor :=
  if config.workers = 0 then .error .invalidWorkerCount
  else if 65535 < config.workers then .error .workerIdOverflow
  else
    match ResourceGovernor.new config.governor with
    | .error error => .error (.governor error)
    | .ok governor => .ok ⟨governor, List.replicate config.workers none, config.demotionAfter⟩

def dispatch (r : Reactor) (now : ℕ) : Reactor × Option (ℕ × WorkItem) :=
  match r.workers.findIdx? Option.isNone with
  | none => (r, none)
  | some worker =>
    match r.governor.poll now with
    | (governor, none) => ({ r with governor }, none)
    | (governor, some work) =>
      ({ r with governor, workers := r.workers.set worker (some (work, now)) }, some (worker, work))

def complete (r : Reactor) (worker : ℕ) : Reactor × Except ReactorError WorkItem :=
  match r.workers[worker]? with
  | some (some (work, _)) =>
    match r.governor.complete work.id with
    | (governor, .ok item) => ({ r with governor, workers := r.workers.set worker none }, .ok item)
    | (governor, .error error) =>
      ({ r with governor, workers := r.workers.set worker none }, .error (.governor error))
  | _ => (r, .error (.workerIdle worker))

/-- The loop of `preempt_long_running` from the worker `index` on. -/
def preemptSlots (threshold now : ℕ) :
    ℕ → List WorkerSlot → ResourceGovernor → List WorkerSlot × ResourceGovernor × List (ℕ × WorkItem)
  | _, [], g => ([], g, [])
  | index, none :: slots, g =>
    let ended := preemptSlots threshold now (index + 1) slots g
    (none :: ended.1, ended.2)
  | index, some (work, dispatchedAt) :: slots, g =>
    if work.workClass.isDemotable ∧ threshold < now - dispatchedAt then
      let ended := preemptSlots threshold now (index + 1) slots (g.requeueDemoted work)
      (none :: ended.1, ended.2.1, (index, work) :: ended.2.2)
    else
      let ended := preemptSlots threshold now (index + 1) slots g
      (some (work, dispatchedAt) :: ended.1, ended.2)

def preemptLongRunning (r : Reactor) (now : ℕ) : Reactor × List (ℕ × WorkItem) :=
  match r.demotionAfter with
  | none => (r, [])
  | some threshold =>
    let ended := preemptSlots threshold now 0 r.workers r.governor
    ({ r with workers := ended.1, governor := ended.2.1 }, ended.2.2)

inductive Action
  | submit (workClass : WorkClass) (cost : ℕ) (deadline : Option ℕ)
  | dispatch (now : Fin (2 ^ 64))
  | complete (worker : ℕ)
  | preempt (now : Fin (2 ^ 64))
  | cancel (id : ℕ)
  | takeTerminated

def step (r : Reactor) : Action → Reactor
  | .submit workClass cost deadline => { r with governor := (r.governor.submit workClass cost deadline).1 }
  | .dispatch now => (r.dispatch now).1
  | .complete worker => (r.complete worker).1
  | .preempt now => (r.preemptLongRunning now).1
  | .cancel id => { r with governor := (r.governor.cancelQueued id).1 }
  | .takeTerminated => { r with governor := r.governor.takeTerminated.1 }

end Reactor

def reactors (config : ReactorConfig) : Machine Reactor Reactor.Action where
  init r := Reactor.new config = .ok r
  step r action := some (r.step action)

namespace ResourceGovernor

open WorkClass (priorityOrder)

def held (g : ResourceGovernor) : Multiset WorkItem :=
  ↑g.inFlight + (priorityOrder.map fun c => (↑(g.queues c) : Multiset WorkItem)).sum

theorem coe_find?_eraseP {p : WorkItem → Bool} {xs : List WorkItem} {x : WorkItem} (h : xs.find? p = some x) :
    (↑xs : Multiset WorkItem) = x ::ₘ ↑(xs.eraseP p) := by
  induction xs with
  | nil => cases h
  | cons y ys ih =>
    by_cases hy : p y
    · rw [List.find?_cons_of_pos hy] at h
      cases h
      rw [List.eraseP_cons_of_pos hy, Multiset.cons_coe]
    · rw [List.find?_cons_of_neg hy] at h
      rw [List.eraseP_cons_of_neg hy, ← Multiset.cons_coe, ih h, ← Multiset.cons_coe, Multiset.cons_swap]

theorem setQueue_held (g : ResourceGovernor) (c : WorkClass) (queue : List WorkItem) :
    (g.setQueue c queue).held + ↑(g.queues c) = g.held + ↑queue := by
  cases c <;> simp only [held, setQueue, priorityOrder, List.map_cons, List.map_nil, List.sum_cons, List.sum_nil,
    Function.update_self, ne_eq, reduceCtorEq, not_false_eq_true, Function.update_of_ne] <;> abel

variable {g g' : ResourceGovernor} {item : WorkItem} {gone : Multiset WorkItem} {c : WorkClass} {id cost : ℕ}
  {cs : List WorkClass}

@[simp] theorem mem_held : item ∈ g.held ↔ item ∈ g.inFlight ∨ ∃ c, item ∈ g.queues c := by
  simp only [held, priorityOrder, List.map_cons, List.map_nil, List.sum_cons, List.sum_nil, add_zero, Multiset.mem_add,
    Multiset.mem_coe]
  constructor
  · rintro (h | h | h | h | h | h)
    · exact .inl h
    all_goals exact .inr ⟨_, h⟩
  · rintro (h | ⟨c, h⟩)
    · exact .inl h
    · cases c <;> simp [h]

theorem queue_le_held (g : ResourceGovernor) (c : WorkClass) : (↑(g.queues c) : Multiset WorkItem) ≤ g.held := by
  have hempty := g.setQueue_held c []
  rw [Multiset.coe_nil, add_zero] at hempty
  rw [← hempty]
  exact Multiset.le_add_left _ _

/-- The items and queues of `g'` are those of `g` without some, whose cost is no longer accounted for. -/
structure Sheds (g g' : ResourceGovernor) (gone : Multiset WorkItem) : Prop where
  held : g.held = gone + g'.held
  accounted : g'.accountedCost = g.accountedCost - (gone.map WorkItem.cost).sum
  queues : ∀ c, (g'.queues c).Sublist (g.queues c)
  inFlight : g'.inFlight.length ≤ g.inFlight.length
  config : g'.config = g.config
  nextId : g'.nextId = g.nextId

theorem Sheds.refl (g : ResourceGovernor) : Sheds g g 0 := ⟨by simp, by simp, fun _ => .refl _, le_rfl, rfl, rfl⟩

theorem Sheds.trans {g'' : ResourceGovernor} {gone' : Multiset WorkItem} (h : Sheds g g' gone)
    (h' : Sheds g' g'' gone') : Sheds g g'' (gone + gone') where
  held := by rw [h.held, h'.held, add_assoc]
  accounted := by rw [h'.accounted, h.accounted, Multiset.map_add, Multiset.sum_add, Nat.sub_sub]
  queues c := (h'.queues c).trans (h.queues c)
  inFlight := h'.inFlight.trans h.inFlight
  config := h'.config.trans h.config
  nextId := h'.nextId.trans h.nextId

theorem append_held (g : ResourceGovernor) (c : WorkClass) (item : WorkItem) :
    (g.setQueue c (g.queues c ++ [item])).held = item ::ₘ g.held := by
  have h := g.setQueue_held c (g.queues c ++ [item])
  rw [← Multiset.coe_add, Multiset.coe_singleton, add_comm (↑(g.queues c) : Multiset WorkItem) {item}, ← add_assoc] at h
  rw [add_right_cancel h, ← Multiset.singleton_add, add_comm]

structure Takes (g g' : ResourceGovernor) (item : WorkItem) : Prop where
  held : g.held = item ::ₘ g'.held
  accounted : g'.accountedCost = g.accountedCost
  queues : ∀ c, (g'.queues c).Sublist (g.queues c)
  inFlight : g'.inFlight.Sublist g.inFlight
  config : g'.config = g.config
  nextId : g'.nextId = g.nextId
  terminatedItems : g'.terminatedItems = g.terminatedItems

theorem Takes.sheds (h : Takes g g' item) :
    Sheds g (g'.release item) {item} where
  held := by rw [Multiset.singleton_add]; exact h.held
  accounted := by simp [release, h.accounted]
  queues := h.queues
  inFlight := h.inFlight.length_le
  config := h.config
  nextId := h.nextId

theorem Takes.terminates (h : Takes g g' item) : Sheds g (g'.terminate item) {item} :=
  ⟨h.sheds.held, h.sheds.accounted, h.sheds.queues, h.sheds.inFlight, h.sheds.config, h.sheds.nextId⟩

theorem takes_setQueue {queue : List WorkItem}
    (hitem : (↑(g.queues c) : Multiset WorkItem) = item ::ₘ ↑queue) (hsub : queue.Sublist (g.queues c)) :
    Takes g (g.setQueue c queue) item where
  held := by
    have h := g.setQueue_held c queue
    rw [hitem, ← Multiset.singleton_add, ← add_assoc] at h
    rw [← Multiset.singleton_add, add_comm]
    exact (add_right_cancel h).symm
  accounted := rfl
  queues c' := by
    by_cases hc : c' = c
    · subst hc
      simpa [setQueue] using hsub
    · simp [setQueue, hc]
  inFlight := .refl _
  config := rfl
  nextId := rfl
  terminatedItems := rfl

theorem takeQueued_spec (h : g.takeQueued id cs = some (item, g')) : Takes g g' item ∧ item.id = id := by
  induction cs with
  | nil => cases h
  | cons c cs ih =>
    unfold takeQueued at h
    split at h
    · rename_i found hfound
      cases h
      exact ⟨takes_setQueue (coe_find?_eraseP hfound) List.eraseP_sublist, by simpa using List.find?_some hfound⟩
    · exact ih h

theorem takeInFlight_spec (h : g.takeInFlight id = some (item, g')) : Takes g g' item ∧ item.id = id := by
  unfold takeInFlight at h
  split at h
  · rename_i found hfound
    cases h
    refine ⟨⟨?_, rfl, fun _ => .refl _, List.eraseP_sublist, rfl, rfl, rfl⟩, by simpa using List.find?_some hfound⟩
    rw [held, coe_find?_eraseP hfound, Multiset.cons_add]
    rfl
  · cases h

theorem cancelQueued_sheds (g : ResourceGovernor) (id : ℕ) : ∃ gone, Sheds g (g.cancelQueued id).1 gone := by
  unfold cancelQueued
  split
  · rename_i item g' htake
    exact ⟨{item}, (takeQueued_spec htake).1.sheds⟩
  · exact ⟨0, .refl g⟩

theorem complete_sheds (g : ResourceGovernor) (id : ℕ) : ∃ gone, Sheds g (g.complete id).1 gone := by
  unfold complete
  split
  · rename_i item g' htake
    exact ⟨{item}, (takeInFlight_spec htake).1.sheds⟩
  · exact ⟨0, .refl g⟩

theorem terminateLoop_sheds (needed rounds : ℕ) (g : ResourceGovernor) (freed : ℕ) :
    ∃ gone, Sheds g (terminateLoop needed rounds g freed).1 gone ∧
      (terminateLoop needed rounds g freed).2 = freed + (gone.map WorkItem.cost).sum := by
  induction rounds generalizing g freed with
  | zero => exact ⟨0, .refl g, rfl⟩
  | succ rounds ih =>
    unfold terminateLoop
    split
    · exact ⟨0, .refl g, rfl⟩
    · split
      · exact ⟨0, .refl g, rfl⟩
      · split
        · exact ⟨0, .refl g, rfl⟩
        · rename_i victim _ _ item g' htake
          have htakes : Takes g g' item := by
            rcases Option.or_eq_some_iff.mp htake with hin | ⟨-, hqueued⟩
            · exact (takeInFlight_spec hin).1
            · exact (takeQueued_spec hqueued).1
          obtain ⟨gone, hgone, hfreed⟩ := ih (g'.terminate item) (freed + item.cost)
          refine ⟨_, htakes.terminates.trans hgone, hfreed.trans ?_⟩
          rw [Multiset.map_add, Multiset.sum_add, Multiset.map_singleton, Multiset.sum_singleton, add_assoc]

theorem terminateLargestFor_sheds (g : ResourceGovernor) (needed : ℕ) :
    ∃ gone, Sheds g (g.terminateLargestFor needed).1 gone ∧
      ((g.terminateLargestFor needed).2 = true ↔ needed ≤ (gone.map WorkItem.cost).sum) := by
  obtain ⟨gone, hsheds, hfreed⟩ :=
    terminateLoop_sheds needed (g.inFlight ++ priorityOrder.flatMap g.queues).length g 0
  refine ⟨gone, hsheds, ?_⟩
  rw [terminateLargestFor, decide_eq_true_iff, hfreed, zero_add]

theorem expire_sheds (g : ResourceGovernor) (now : ℕ) : ∃ gone, Sheds g (g.expire now) gone := by
  refine ⟨↑(priorityOrder.flatMap fun c => (g.queues c).filter (due now)), ?_, rfl, fun c =>
    List.filter_sublist, le_rfl, rfl, rfl⟩
  have hsplit : ∀ c, (↑(g.queues c) : Multiset WorkItem) =
      ↑((g.queues c).filter (due now)) + ↑((g.queues c).filter (!due now ·)) := fun c => by
    rw [Multiset.coe_add, Multiset.coe_eq_coe]
    exact (List.filter_append_perm (due now) (g.queues c)).symm
  simp only [held, expire, priorityOrder, List.map_cons, List.map_nil, List.sum_cons, List.sum_nil, List.flatMap_cons,
    List.flatMap_nil, List.append_nil, ← Multiset.coe_add]
  rw [hsplit .olTp, hsplit .wal, hsplit .reclaim, hsplit .schema, hsplit .scan]
  abel

/-- What holds whatever the order of the calls: the accounted cost is that of the items held, within the
capacity, no more than the bound are in flight, and all have ids of their own, already given out. -/
structure Sound (g : ResourceGovernor) : Prop where
  accounted : g.accountedCost = (g.held.map WorkItem.cost).sum
  within : g.accountedCost ≤ g.config.capacity
  running : g.inFlight.length ≤ g.config.maxInFlight
  distinct : (g.held.map WorkItem.id).Nodup
  fresh : ∀ item ∈ g.held, item.id < g.nextId
  positive : ∀ item ∈ g.held, 0 < item.cost

def QueuesBounded (g : ResourceGovernor) : Prop := ∀ c, (g.queues c).length ≤ g.config.maxQueuePerClass

theorem Sound.sheds (h : Sound g) (hs : Sheds g g' gone) : Sound g' := by
  have hcost := h.accounted
  rw [hs.held, Multiset.map_add, Multiset.sum_add] at hcost
  have hdistinct := h.distinct
  rw [hs.held, Multiset.map_add] at hdistinct
  have hmem : ∀ item ∈ g'.held, item ∈ g.held := fun item hitem => by
    rw [hs.held]
    exact Multiset.mem_add.mpr (.inr hitem)
  refine ⟨?_, ?_, ?_, (Multiset.nodup_add.mp hdistinct).2.1, fun item hitem => ?_, fun item hitem => ?_⟩
  · rw [hs.accounted, hcost, Nat.add_sub_cancel_left]
  · rw [hs.accounted, hs.config]
    exact (Nat.sub_le _ _).trans h.within
  · rw [hs.config]
    exact hs.inFlight.trans h.running
  · rw [hs.nextId]
    exact h.fresh item (hmem item hitem)
  · exact h.positive item (hmem item hitem)

theorem QueuesBounded.sheds (h : QueuesBounded g)
    (hs : Sheds g g' gone) : QueuesBounded g' := fun c => by
  rw [hs.config]
  exact (hs.queues c).length_le.trans (h c)

theorem Sound.of_held_eq (h : Sound g) (hheld : g'.held = g.held)
    (hcost : g'.accountedCost = g.accountedCost) (hrunning : g'.inFlight.length ≤ g'.config.maxInFlight)
    (hconfig : g'.config = g.config) (hnext : g'.nextId = g.nextId) : Sound g' :=
  ⟨by rw [hcost, hheld, h.accounted], by rw [hcost, hconfig]; exact h.within, hrunning, by rw [hheld]; exact h.distinct,
    by rw [hheld, hnext]; exact h.fresh, by rw [hheld]; exact h.positive⟩

theorem Takes.start (h : Sound g) (ht : Takes g g' item) :
    (g'.start item).held = g.held ∧ (g'.start item).inFlight.length = g'.inFlight.length + 1 := by
  -- no other item in flight has its id, so nothing is replaced
  have hnone : g'.inFlight.eraseP (·.id = item.id) = g'.inFlight := by
    refine List.eraseP_of_forall_not fun other hother hid => ?_
    have hdistinct := h.distinct
    rw [ht.held, Multiset.map_cons, Multiset.nodup_cons] at hdistinct
    exact hdistinct.1 (Multiset.mem_map.mpr ⟨other, mem_held.mpr (.inl hother), by simpa using hid⟩)
  unfold ResourceGovernor.start
  rw [hnone]
  refine ⟨?_, rfl⟩
  rw [ht.held]
  exact congrArg (· + _) (Multiset.cons_coe item g'.inFlight).symm |>.trans (Multiset.cons_add _ _ _)

theorem Sound.start (h : Sound g) (ht : Takes g g' item)
    (hroom : g.inFlight.length < g.config.maxInFlight) : Sound (g'.start item) := by
  obtain ⟨hheld, hlength⟩ := ht.start h
  refine h.of_held_eq hheld ht.accounted ?_ ht.config ht.nextId
  have hle := ht.inFlight.length_le
  rw [hlength]
  exact (show g'.inFlight.length + 1 ≤ g.config.maxInFlight by omega).trans_eq (congrArg _ ht.config.symm)

theorem popFirst_spec (h : g.popFirst cs = some (item, g')) : Takes g g' item := by
  induction cs with
  | nil => cases h
  | cons c cs ih =>
    unfold popFirst at h
    split at h
    · rename_i first rest hqueue
      cases h
      refine takes_setQueue ?_ ?_
      · rw [hqueue, Multiset.cons_coe]
      · rw [hqueue]
        exact List.sublist_cons_self _ _
    · exact ih h

theorem poll_spec (g : ResourceGovernor) (now : ℕ) (h : Sound g) :
    Sound (g.poll now).1 ∧ (g.poll now).1.config = g.config ∧ (QueuesBounded g → QueuesBounded (g.poll now).1) := by
  obtain ⟨gone, hsheds⟩ := g.expire_sheds now
  have hsound := h.sheds hsheds
  have hbounded : QueuesBounded g → QueuesBounded (g.expire now) := fun hb => hb.sheds hsheds
  unfold poll
  dsimp only
  split
  · exact ⟨hsound, hsheds.config, hbounded⟩
  · rename_i hroom
    -- whichever queue the item comes from
    have hstart : ∀ {g' : ResourceGovernor} {item : WorkItem}, Takes (g.expire now) g' item →
        Sound (g'.start item) ∧ (g'.start item).config = g.config ∧
          (QueuesBounded g → QueuesBounded (g'.start item)) := fun {g' item} ht => by
      refine ⟨hsound.start ht (not_le.mp hroom), ht.config.trans hsheds.config, fun hb c => ?_⟩
      have hqueue : ((g'.start item).queues c).length ≤ _ := (ht.queues c).length_le.trans (hbounded hb c)
      rwa [← ht.config] at hqueue
    split
    · split
      · rename_i c i hurgent item hitem
        refine hstart (takes_setQueue ?_ (List.eraseIdx_sublist _ _))
        obtain ⟨hlt, rfl⟩ := List.getElem?_eq_some_iff.mp hitem
        rw [Multiset.cons_coe, Multiset.coe_eq_coe]
        exact (List.getElem_cons_eraseIdx_perm hlt).symm
      · exact ⟨hsound, hsheds.config, hbounded⟩
    · split
      · rename_i item g' hpop
        exact hstart (popFirst_spec hpop)
      · exact ⟨hsound, hsheds.config, hbounded⟩

/-- Demotion keeps the items; the item's queue grows past any bound. -/
theorem requeueDemoted_spec (g : ResourceGovernor) (item : WorkItem) (h : Sound g) :
    Sound (g.requeueDemoted item) ∧ (g.requeueDemoted item).config = g.config := by
  unfold requeueDemoted
  split
  · rename_i queued g' htake
    obtain ⟨ht, -⟩ := takeInFlight_spec htake
    have hheld : (g'.setQueue queued.workClass (g'.queues queued.workClass ++ [queued])).held = g.held :=
      (g'.append_held queued.workClass queued).trans ht.held.symm
    refine ⟨h.of_held_eq hheld ht.accounted ?_ ht.config ht.nextId, ht.config⟩
    exact (ht.inFlight.length_le.trans h.running).trans_eq (congrArg _ ht.config.symm)
  · exact ⟨h, rfl⟩

theorem Sound.reject (h : Sound g) : Sound g.reject :=
  ⟨h.accounted, h.within, h.running, h.distinct, h.fresh, h.positive⟩

theorem enqueue_spec (deadline : Option ℕ) (h : Sound g)
    (hpositive : 0 < cost) (hcapacity : g.accountedCost + cost ≤ g.config.capacity)
    (hroom : (g.queues c).length < g.config.maxQueuePerClass) :
    Sound (g.enqueue c cost deadline).1 ∧ (g.enqueue c cost deadline).1.config = g.config ∧
      (QueuesBounded g → QueuesBounded (g.enqueue c cost deadline).1) := by
  unfold enqueue
  split
  · exact ⟨h.reject, rfl, id⟩
  · split
    · exact ⟨h.reject, rfl, id⟩
    · have hheld := g.append_held c ⟨g.nextId, c, cost, deadline⟩
      refine ⟨⟨?_, hcapacity, h.running, ?_, ?_, ?_⟩, rfl, fun hb c' => ?_⟩
      · change g.accountedCost + cost = ((g.setQueue c _).held.map _).sum
        rw [hheld, Multiset.map_cons, Multiset.sum_cons, h.accounted, add_comm]
      · change ((g.setQueue c _).held.map _).Nodup
        rw [hheld, Multiset.map_cons, Multiset.nodup_cons]
        refine ⟨fun hmem => ?_, h.distinct⟩
        obtain ⟨item, hitem, hid⟩ := Multiset.mem_map.mp hmem
        exact absurd (h.fresh item hitem) (by rw [hid]; exact lt_irrefl _)
      · intro item hitem
        change item ∈ (g.setQueue c _).held at hitem
        change item.id < g.nextId + 1
        rw [hheld, Multiset.mem_cons] at hitem
        rcases hitem with rfl | hitem
        · exact Nat.lt_succ_self _
        · exact (h.fresh item hitem).trans (Nat.lt_succ_self _)
      · intro item hitem
        change item ∈ (g.setQueue c _).held at hitem
        rw [hheld, Multiset.mem_cons] at hitem
        rcases hitem with rfl | hitem
        · exact hpositive
        · exact h.positive item hitem
      · by_cases hc : c' = c
        · subst hc
          simpa [setQueue] using hroom
        · simpa [setQueue, hc] using hb c'

theorem submit_of_fits (deadline : Option ℕ) (hpositive : 0 < cost)
    (hroom : (g.queues c).length < g.config.maxQueuePerClass) (hcapacity : g.accountedCost + cost ≤ g.config.capacity) :
    g.submit c cost deadline = g.enqueue c cost deadline := by
  have hfits := g.config.fits
  rw [submit, if_neg (by omega), if_neg (by omega), if_neg (by omega), if_neg (by omega)]

theorem submit_spec (g : ResourceGovernor) (c : WorkClass) (cost : ℕ) (deadline : Option ℕ) (h : Sound g) :
    Sound (g.submit c cost deadline).1 ∧ (g.submit c cost deadline).1.config = g.config ∧
      (QueuesBounded g → QueuesBounded (g.submit c cost deadline).1) := by
  unfold submit
  split
  · exact ⟨h.reject, rfl, id⟩
  · rename_i hcost
    split
    · exact ⟨h.reject, rfl, id⟩
    · rename_i hfull
      split
      · exact ⟨h, rfl, id⟩
      · split
        · split
          · obtain ⟨gone, hsheds, hmet⟩ := g.terminateLargestFor_sheds (g.accountedCost + cost - g.config.capacity)
            generalize g.terminateLargestFor (g.accountedCost + cost - g.config.capacity) = ended at hsheds hmet ⊢
            have hsound := h.sheds hsheds
            have hbounded : QueuesBounded g → QueuesBounded ended.1 := fun hb => hb.sheds hsheds
            dsimp only
            split
            · rename_i hended
              have hfreed := hmet.mp hended
              have hcapacity : ended.1.accountedCost + cost ≤ ended.1.config.capacity := by
                rw [hsheds.accounted, hsheds.config]
                omega
              have hroom : (ended.1.queues c).length < ended.1.config.maxQueuePerClass := by
                have := (hsheds.queues c).length_le
                rw [hsheds.config]
                omega
              split
              · exact ⟨hsound, hsheds.config, hbounded⟩
              · obtain ⟨hs, hconfig, hb⟩ := enqueue_spec deadline hsound (by omega) hcapacity hroom
                exact ⟨hs, hconfig.trans hsheds.config, fun h0 => hb (hbounded h0)⟩
            · exact ⟨hsound.reject, hsheds.config, hbounded⟩
          · exact ⟨h.reject, rfl, id⟩
        · exact enqueue_spec deadline h (by omega) (by omega) (by omega)

/-- Every item costs something, so a queue is no longer than the capacity. -/
theorem Sound.queue_length_le (h : Sound g) (c : WorkClass) :
    (g.queues c).length ≤ g.config.capacity := by
  have hcard : (g.queues c).length ≤ g.held.card := Multiset.card_le_card (g.queue_le_held c)
  have hcost : g.held.card ≤ (g.held.map WorkItem.cost).sum := by
    have := Multiset.card_nsmul_le_sum (s := g.held.map WorkItem.cost) (a := 1) (by
      intro cost hcost
      obtain ⟨item, hitem, rfl⟩ := Multiset.mem_map.mp hcost
      exact h.positive item hitem)
    simpa using this
  rw [← h.accounted] at hcost
  exact hcard.trans (hcost.trans h.within)

end ResourceGovernor

namespace Reactor

theorem preemptSlots_spec (threshold now index : ℕ) (slots : List WorkerSlot) (g : ResourceGovernor) (h : g.Sound) :
    (preemptSlots threshold now index slots g).2.1.Sound ∧
      (preemptSlots threshold now index slots g).2.1.config = g.config := by
  induction slots generalizing index g with
  | nil => exact ⟨h, rfl⟩
  | cons slot slots ih =>
    cases slot with
    | none => exact ih (index + 1) g h
    | some entry =>
      obtain ⟨work, dispatchedAt⟩ := entry
      unfold preemptSlots
      split
      · obtain ⟨hsound, hconfig⟩ := g.requeueDemoted_spec work h
        obtain ⟨hs, hc⟩ := ih (index + 1) _ hsound
        exact ⟨hs, hc.trans hconfig⟩
      · exact ih (index + 1) g h

theorem preemptSlots_idle {threshold now : ℕ} (hidle : now ≤ threshold) (index : ℕ) (slots : List WorkerSlot)
    (g : ResourceGovernor) : (preemptSlots threshold now index slots g).2.1 = g := by
  induction slots generalizing index with
  | nil => rfl
  | cons slot slots ih =>
    cases slot with
    | none => exact ih (index + 1)
    | some entry =>
      obtain ⟨work, dispatchedAt⟩ := entry
      unfold preemptSlots
      rw [if_neg (by omega)]
      exact ih (index + 1)

/-- In-flight demotion is off, or its threshold cannot be passed. -/
def NeverDemotes (r : Reactor) : Prop := ∀ threshold, r.demotionAfter = some threshold → u64Max ≤ threshold

theorem step_spec (r : Reactor) (action : Action) (h : r.governor.Sound) :
    (r.step action).governor.Sound ∧ (r.step action).governor.config = r.governor.config ∧
      (r.step action).demotionAfter = r.demotionAfter ∧
      (r.NeverDemotes → r.governor.QueuesBounded → (r.step action).governor.QueuesBounded) := by
  cases action with
  | submit c cost deadline =>
    obtain ⟨hs, hc, hb⟩ := r.governor.submit_spec c cost deadline h
    exact ⟨hs, hc, rfl, fun _ => hb⟩
  | dispatch now =>
    obtain ⟨hs, hc, hb⟩ := r.governor.poll_spec now h
    unfold step dispatch
    dsimp only
    split
    · exact ⟨h, rfl, rfl, fun _ => id⟩
    · split <;> rename_i heq <;> rw [heq] at hs hc hb <;> exact ⟨hs, hc, rfl, fun _ => hb⟩
  | complete worker =>
    unfold step complete
    dsimp only
    split
    · rename_i work _ _
      obtain ⟨gone, hsheds⟩ := r.governor.complete_sheds work.id
      split <;> rename_i heq <;> rw [heq] at hsheds <;>
        exact ⟨h.sheds hsheds, hsheds.config, rfl, fun _ hb => hb.sheds hsheds⟩
    · exact ⟨h, rfl, rfl, fun _ => id⟩
  | preempt now =>
    unfold step preemptLongRunning
    dsimp only
    split
    · exact ⟨h, rfl, rfl, fun _ => id⟩
    · rename_i threshold hthreshold
      obtain ⟨hs, hc⟩ := preemptSlots_spec threshold now 0 r.workers r.governor h
      refine ⟨hs, hc, rfl, fun hnever hb => ?_⟩
      have hlarge := hnever threshold hthreshold
      have hnow := now.isLt
      rw [preemptSlots_idle (by unfold u64Max at hlarge; omega)]
      exact hb
  | cancel id =>
    obtain ⟨gone, hsheds⟩ := r.governor.cancelQueued_sheds id
    exact ⟨h.sheds hsheds, hsheds.config, rfl, fun _ hb => hb.sheds hsheds⟩
  | takeTerminated =>
    exact ⟨⟨h.accounted, h.within, h.running, h.distinct, h.fresh, h.positive⟩, rfl, rfl, fun _ => id⟩

theorem new_spec {config : ReactorConfig} {r : Reactor} (h : Reactor.new config = .ok r) :
    r.governor = ⟨config.governor, fun _ => [], [], 0, 0, 0, 0, 0, []⟩ ∧
      r.workers = List.replicate config.workers none ∧ r.demotionAfter = config.demotionAfter ∧
      0 < config.workers ∧ 0 < config.governor.maxQueuePerClass ∧ 0 < config.governor.maxInFlight := by
  unfold Reactor.new at h
  split at h
  · cases h
  · split at h
    · cases h
    · split at h
      · cases h
      · rename_i hworkers _ governor hgovernor
        cases h
        unfold ResourceGovernor.new at hgovernor
        split at hgovernor
        · cases hgovernor
        · split at hgovernor
          · cases hgovernor
          · split at hgovernor
            · cases hgovernor
            · rename_i hbounds
              cases hgovernor
              exact ⟨rfl, rfl, rfl, by omega, by omega, by omega⟩

theorem reachable_spec {config : ReactorConfig} {r : Reactor} (h : (reactors config).Reachable r) :
    r.governor.Sound ∧ r.governor.config = config.governor ∧ r.demotionAfter = config.demotionAfter ∧
      (r.NeverDemotes → r.governor.QueuesBounded) := by
  refine h.invariant (P := fun r => r.governor.Sound ∧ r.governor.config = config.governor ∧
    r.demotionAfter = config.demotionAfter ∧ (r.NeverDemotes → r.governor.QueuesBounded))
    (fun start hstart => ?_) fun before action after hbefore _ hstep => ?_
  · obtain ⟨hgovernor, -, hdemotion, -⟩ := new_spec hstart
    rw [hgovernor]
    refine ⟨⟨by simp [ResourceGovernor.held, WorkClass.priorityOrder], Nat.zero_le _, Nat.zero_le _,
      by simp [ResourceGovernor.held, WorkClass.priorityOrder], by simp, by simp⟩, rfl, hdemotion,
      fun _ c => Nat.zero_le _⟩
  · obtain ⟨hsound, hconfig, hdemotion, hbounded⟩ := hbefore
    cases hstep
    obtain ⟨hs, hc, hd, hb⟩ := before.step_spec action hsound
    refine ⟨hs, hc.trans hconfig, hd.trans hdemotion, fun hnever => ?_⟩
    have hbefore : before.NeverDemotes := fun threshold ht => hnever threshold (hd.trans ht)
    exact hb hbefore (hbounded hbefore)

end Reactor

namespace Crowd

/-- Work of the one demotable class that may use the reserve. -/
def unitItem (id : ℕ) : WorkItem := ⟨id, .reclaim, 1, none⟩

/-- Queues with `n` such items, from id `first` on. -/
def crowd (first n : ℕ) (c : WorkClass) : List WorkItem :=
  if c = .reclaim then (List.range' first n).map unitItem else []

theorem crowd_append (first n : ℕ) :
    Function.update (crowd first n) .reclaim (crowd first n .reclaim ++ [unitItem (first + n)]) =
      crowd first (n + 1) := by
  funext c
  cases c <;> simp [crowd, List.range'_concat]

theorem crowd_pop (n : ℕ) : Function.update (crowd 0 (n + 1)) .reclaim ((List.range' 1 n).map unitItem) =
    crowd 1 n := by
  funext c
  cases c <;> simp [crowd]

theorem deadline_of_mem_crowd {first n : ℕ} {c : WorkClass} {item : WorkItem} (h : item ∈ crowd first n c) :
    item.deadline = none := by
  unfold crowd at h
  split at h
  · obtain ⟨id, -, rfl⟩ := List.mem_map.mp h
    rfl
  · cases h

/-- Such queues, some items in flight, and nothing else ever counted. -/
def stage (config : ReactorConfig) (first n : ℕ) (inFlight : List WorkItem) (workers : List WorkerSlot) : Reactor :=
  ⟨⟨config.governor, crowd first n, inFlight, n + inFlight.length, first + n, 0, 0, 0, []⟩, workers,
    config.demotionAfter⟩

variable {config : ReactorConfig} {first n : ℕ} {inFlight : List WorkItem} {workers : List WorkerSlot}

theorem length_crowd : (crowd first n .reclaim).length = n := by
  simp [crowd]

theorem submit_stage (hqueue : n < config.governor.maxQueuePerClass)
    (hcapacity : n + inFlight.length + 1 ≤ config.governor.capacity) (hid : first + n < u64Max) :
    (stage config first n inFlight workers).step (.submit .reclaim 1 none) =
      stage config first (n + 1) inFlight workers := by
  have hsubmit : (stage config first n inFlight workers).governor.submit .reclaim 1 none =
      (stage config first n inFlight workers).governor.enqueue .reclaim 1 none :=
    ResourceGovernor.submit_of_fits none one_pos (by simpa [stage, length_crowd] using hqueue)
      (by simpa [stage] using hcapacity)
  simp only [Reactor.step, hsubmit]
  rw [ResourceGovernor.enqueue, if_neg (by simp [WorkClass.canConsumeReserve]), if_neg (by simpa [stage] using hid.ne)]
  simp only [stage, ResourceGovernor.setQueue, ← crowd_append first n, unitItem]
  congr 2
  omega

theorem expire_stage (now : ℕ) :
    (stage config first n inFlight workers).governor.expire now = (stage config first n inFlight workers).governor := by
  have hdue : ∀ {c : WorkClass} {item : WorkItem}, item ∈ crowd first n c → ResourceGovernor.due now item = false := by
    intro c item hitem
    rw [ResourceGovernor.due, deadline_of_mem_crowd hitem]
    rfl
  have hgone : ∀ c, (crowd first n c).filter (ResourceGovernor.due now) = [] := fun c => by
    rw [List.filter_eq_nil_iff]
    intro item hitem
    simp [hdue hitem]
  have hkept : (fun c => (crowd first n c).filter (!ResourceGovernor.due now ·)) = crowd first n := by
    funext c
    rw [List.filter_eq_self]
    intro item hitem
    simp [hdue hitem]
  simp [stage, ResourceGovernor.expire, hgone, hkept, WorkClass.priorityOrder]

theorem urgentItem_stage (now : ℕ) : (stage config first n inFlight workers).governor.urgentItem now = none := by
  have hnone : ∀ c, ((crowd first n c).zipIdx.filterMap fun entry => entry.1.deadline.bind fun deadline =>
      if deadline - now ≤ deadlinePriorityWindow then some (deadline, c, entry.2) else none) = [] := fun c => by
    rw [List.filterMap_eq_nil_iff]
    intro entry hentry
    rw [deadline_of_mem_crowd (List.fst_mem_of_mem_zipIdx hentry)]
    rfl
  simp only [stage, ResourceGovernor.urgentItem, hnone, WorkClass.priorityOrder, List.flatMap_cons, List.flatMap_nil,
    List.append_nil, List.foldl_nil, Option.map_none]

theorem dispatch_stage (hinFlight : 0 < config.governor.maxInFlight) :
    (stage config 0 (n + 1) [] (none :: workers)).step (.dispatch 0) =
      stage config 1 n [unitItem 0] (some (unitItem 0, 0) :: workers) := by
  have hpop : (stage config 0 (n + 1) [] (none :: workers)).governor.popFirst WorkClass.priorityOrder =
      some (unitItem 0, (stage config 0 (n + 1) [] (none :: workers)).governor.setQueue .reclaim
        ((List.range' 1 n).map unitItem)) := by
    simp [ResourceGovernor.popFirst, WorkClass.priorityOrder, stage, crowd, List.range'_succ]
  have hpoll : (stage config 0 (n + 1) [] (none :: workers)).governor.poll 0 =
      ((stage config 1 n [unitItem 0] (none :: workers)).governor, some (unitItem 0)) := by
    unfold ResourceGovernor.poll
    rw [expire_stage]
    dsimp only
    rw [urgentItem_stage, hpop, if_neg (by simpa [stage] using hinFlight.ne')]
    simp only [stage, ResourceGovernor.setQueue, ResourceGovernor.start, crowd_pop]
    simp [add_comm]
  have hworker : (stage config 0 (n + 1) [] (none :: workers)).workers.findIdx? Option.isNone = some 0 := rfl
  have hnow : ((0 : Fin (2 ^ 64)) : ℕ) = 0 := rfl
  simp only [Reactor.step, Reactor.dispatch, hworker, hnow, hpoll]
  rfl

theorem preempt_stage {threshold : ℕ} {now : Fin (2 ^ 64)} (hdemotion : config.demotionAfter = some threshold)
    (hnow : threshold < now.val) (k : ℕ) :
    (((stage config 1 n [unitItem 0] (some (unitItem 0, 0) :: List.replicate k none)).step
      (.preempt now)).governor.queues .reclaim).length = n + 1 := by
  have hidle : ∀ (index : ℕ) (g : ResourceGovernor),
      (Reactor.preemptSlots threshold now index (List.replicate k none) g).2.1 = g := by
    induction k with
    | zero => exact fun _ _ => rfl
    | succ k ih => exact fun index g => ih (index + 1) g
  simp only [Reactor.step, Reactor.preemptLongRunning, stage, hdemotion, Reactor.preemptSlots]
  rw [if_pos ⟨rfl, by omega⟩]
  simp [hidle, ResourceGovernor.requeueDemoted, ResourceGovernor.takeInFlight, ResourceGovernor.setQueue, unitItem,
    length_crowd]

end Crowd

/-- The bounds that every state of the governor should keep. -/
structure Governed (g : ResourceGovernor) : Prop where
  accounted : g.accountedCost = (g.held.map WorkItem.cost).sum
  within : g.accountedCost ≤ g.config.capacity
  running : g.inFlight.length ≤ g.config.maxInFlight
  queues : ∀ c, (g.queues c).length ≤ g.config.maxQueuePerClass
  distinct : (g.held.map WorkItem.id).Nodup

/-- The bounds hold in every state of every run exactly when the reactor never demotes, or no queue can
hold more than its bound for want of capacity. -/
theorem governed_iff {config : ReactorConfig} {start : Reactor} (hnew : Reactor.new config = .ok start) :
    (∀ r, (reactors config).Reachable r → Governed r.governor) ↔
      (∀ threshold, config.demotionAfter = some threshold → u64Max ≤ threshold) ∨
        config.governor.capacity ≤ config.governor.maxQueuePerClass := by
  constructor
  · intro hall
    by_contra hnot
    push Not at hnot
    obtain ⟨⟨threshold, hdemotion, hthreshold⟩, hcapacity⟩ := hnot
    obtain ⟨hgovernor, hworkers, hdemote, hworker, hqueue, hinFlight⟩ := Reactor.new_spec hnew
    have hfits := config.governor.fits
    obtain ⟨k, hk⟩ := Nat.exists_eq_succ_of_ne_zero hworker.ne'
    obtain ⟨q, hq⟩ := Nat.exists_eq_succ_of_ne_zero hqueue.ne'
    -- fill the queue, start one item, fill the queue again, and demote the item
    have hfill : ∀ n ≤ q + 1, (reactors config).Reachable
        (Crowd.stage config 0 n [] (List.replicate config.workers none)) := by
      intro n
      induction n with
      | zero =>
        intro _
        have hempty : (fun _ => []) = Crowd.crowd 0 0 := by
          funext c
          simp [Crowd.crowd]
        have hstart : start = Crowd.stage config 0 0 [] (List.replicate config.workers none) := by
          cases start
          cases hgovernor
          cases hworkers
          cases hdemote
          rw [Crowd.stage, ← hempty]
          rfl
        exact hstart ▸ .init hnew
      | succ n ih =>
        intro hn
        refine .step (.submit .reclaim 1 none) (ih (by omega)) trivial (congrArg some ?_)
        exact Crowd.submit_stage (by omega) (by simp; omega) (by unfold u64Max; unfold usizeMax at hfits; omega)
    have hstarted : (reactors config).Reachable (Crowd.stage config 1 q [Crowd.unitItem 0]
        (some (Crowd.unitItem 0, 0) :: List.replicate k none)) := by
      refine .step (.dispatch 0) (hfill (q + 1) le_rfl) trivial (congrArg some ?_)
      rw [hk, List.replicate_succ]
      exact Crowd.dispatch_stage hinFlight
    have hrefilled : (reactors config).Reachable (Crowd.stage config 1 (q + 1) [Crowd.unitItem 0]
        (some (Crowd.unitItem 0, 0) :: List.replicate k none)) := by
      refine .step (.submit .reclaim 1 none) hstarted trivial (congrArg some ?_)
      exact Crowd.submit_stage (by omega) (by simp; omega) (by unfold u64Max; unfold usizeMax at hfits; omega)
    have hnow : threshold + 1 < 2 ^ 64 := by
      unfold u64Max at hthreshold
      omega
    have hlength := @Crowd.preempt_stage config (q + 1) threshold ⟨threshold + 1, hnow⟩ hdemotion (Nat.lt_succ_self _) k
    have hreached := hall _ (.step (.preempt ⟨threshold + 1, hnow⟩) hrefilled trivial rfl)
    have hbound := hreached.queues .reclaim
    have hsame := (Reactor.reachable_spec (.step (.preempt ⟨threshold + 1, hnow⟩) hrefilled trivial rfl)).2.1
    rw [hlength, hsame] at hbound
    omega
  · intro h r hr
    obtain ⟨hsound, hconfig, hdemotion, hbounded⟩ := Reactor.reachable_spec hr
    refine ⟨hsound.accounted, hsound.within, hsound.running, ?_, hsound.distinct⟩
    rcases h with hnever | hcapacity
    · exact hbounded fun threshold ht => hnever threshold (hdemotion.symm.trans ht)
    · intro c
      have hqueue := hsound.queue_length_le c
      rw [hconfig] at hqueue ⊢
      exact hqueue.trans hcapacity

theorem four_le_usizeMax : 4 ≤ usizeMax := by decide

/-- One place in a queue, one worker, and demotion after one tick. -/
def narrowConfig : ReactorConfig := ⟨1, ⟨4, 1, 1, 1, .reject, four_le_usizeMax⟩, some 1⟩

/-- A scan runs, a second one takes its place in the queue, and the first is demoted. -/
theorem queue_overflows_on_demotion :
    ∃ start r, Reactor.new narrowConfig = .ok start ∧
      (reactors narrowConfig).run start
        [.submit .scan 1 none, .dispatch 0, .submit .scan 1 none, .preempt 2] = some r ∧
      (r.governor.queues .scan).length = 2 ∧ r.governor.config.maxQueuePerClass = 1 := by
  exact ⟨_, _, rfl, rfl, by decide +kernel, rfl⟩

def steadyConfig : ReactorConfig := ⟨1, ⟨4, 1, 1, 1, .reject, by decide⟩, none⟩

theorem governed_iff_steady :
    ∃ start, Reactor.new steadyConfig = .ok start ∧
      ∀ r, (reactors steadyConfig).Reachable r → Governed r.governor :=
  ⟨_, rfl, (governed_iff rfl).mpr (.inl fun _ h => by cases h)⟩

end OmenDb.Runtime
