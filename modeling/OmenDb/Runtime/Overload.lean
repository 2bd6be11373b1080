import OmenDb.Runtime.Governor

/-! Submissions to a full governor. Under the policy that terminates the largest consumers, items leave
before it is known whether the arriving work can be admitted. What the evictions free is the total of
the largest costs, taken until they reach what is needed. -/
namespace OmenDb.Runtime

namespace ResourceGovernor

open WorkClass (priorityOrder)

def evictable (g : ResourceGovernor) : Multiset WorkItem := g.held.filter fun item => item.workClass.isTerminable = true

def evictableCosts (g : ResourceGovernor) : List ℕ := (g.evictable.map WorkItem.cost).sort (· ≥ ·)

/-- The total of the first costs of a list that reach what is needed, or of all of them. -/
def cover : ℕ → List ℕ → ℕ
  | _, [] => 0
  | need, cost :: costs => if need = 0 then 0 else cost + cover (need - cost) costs

theorem le_cover_iff (need : ℕ) (costs : List ℕ) : need ≤ cover need costs ↔ need ≤ costs.sum := by
  induction costs generalizing need with
  | nil => simp [cover]
  | cons cost costs ih =>
    have hrest := ih (need - cost)
    rw [cover, List.sum_cons]
    split <;> omega

theorem foldl_consider (items : List WorkItem) (best : Option (ℕ × ℕ)) :
    (∀ item ∈ items, item.workClass.isTerminable = true → ∃ cost id, items.foldl consider best = some (cost, id) ∧
        item.cost ≤ cost) ∧
      (∀ cost id, best = some (cost, id) → ∃ cost' id', items.foldl consider best = some (cost', id') ∧ cost ≤ cost') ∧
      (items.foldl consider best = best ∨ ∃ item ∈ items, item.workClass.isTerminable = true ∧
        items.foldl consider best = some (item.cost, item.id)) := by
  induction items generalizing best with
  | nil => exact ⟨fun _ h => absurd h (by simp), fun cost id h => ⟨cost, id, h, le_rfl⟩, .inl rfl⟩
  | cons first items ih =>
    obtain ⟨hitems, hbest, hfrom⟩ := ih (consider best first)
    rw [List.foldl_cons]
    -- one round: the best so far never gets worse, and is at least a terminable item
    have hround : (∀ cost id, best = some (cost, id) → ∃ cost' id', consider best first = some (cost', id') ∧
      cost ≤ cost') ∧
        (first.workClass.isTerminable = true → ∃ cost id, consider best first = some (cost, id) ∧ first.cost ≤ cost) ∧
        (consider best first = best ∨ first.workClass.isTerminable = true ∧
          consider best first = some (first.cost, first.id)) := by
      unfold consider
      cases hterminable : first.workClass.isTerminable with
      | false => exact ⟨fun cost id h => ⟨cost, id, h, le_rfl⟩, fun h => (by cases h), .inl rfl⟩
      | true =>
        cases best with
        | none => exact ⟨fun _ _ h => (by cases h), fun _ => ⟨_, _, rfl, le_rfl⟩, .inr ⟨rfl, rfl⟩⟩
        | some current =>
          obtain ⟨cost, id⟩ := current
          simp only [Bool.not_true, Bool.false_eq_true, if_false]
          split
          · rename_i hbetter
            refine ⟨fun cost' id' h => ⟨_, _, rfl, ?_⟩, fun _ => ⟨_, _, rfl, le_rfl⟩, .inr ⟨trivial, rfl⟩⟩
            cases h
            omega
          · rename_i hworse
            exact ⟨fun cost' id' h => ⟨_, _, h, le_rfl⟩, fun _ => ⟨_, _, rfl, by omega⟩, .inl rfl⟩
    obtain ⟨hkept, hfirst, hsource⟩ := hround
    refine ⟨fun item hitem hterminable => ?_, fun cost id h => ?_, ?_⟩
    · rcases List.mem_cons.mp hitem with rfl | hitem
      · obtain ⟨cost, id, hc, hle⟩ := hfirst hterminable
        obtain ⟨cost', id', hc', hle'⟩ := hbest cost id hc
        exact ⟨cost', id', hc', hle.trans hle'⟩
      · exact hitems item hitem hterminable
    · obtain ⟨cost', id', hc, hle⟩ := hkept cost id h
      obtain ⟨cost'', id'', hc', hle'⟩ := hbest cost' id' hc
      exact ⟨cost'', id'', hc', hle.trans hle'⟩
    · rcases hfrom with hsame | ⟨item, hitem, hterminable, heq⟩
      · rcases hsource with hb | ⟨hterminable, hb⟩
        · exact .inl (hsame.trans hb)
        · exact .inr ⟨first, List.mem_cons_self, hterminable, hsame.trans hb⟩
      · exact .inr ⟨item, List.mem_cons_of_mem _ hitem, hterminable, heq⟩

theorem coe_everything (g : ResourceGovernor) :
    (↑(g.inFlight ++ priorityOrder.flatMap g.queues) : Multiset WorkItem) = g.held := by
  simp [held, priorityOrder, List.flatMap_cons, ← Multiset.coe_add]

variable {g : ResourceGovernor} {item : WorkItem} {c : WorkClass}

theorem mem_everything : item ∈ g.inFlight ++ priorityOrder.flatMap g.queues ↔ item ∈ g.held := by
  rw [← coe_everything, Multiset.mem_coe]

theorem mem_evictable :
    item ∈ g.evictable ↔ item ∈ g.held ∧ item.workClass.isTerminable = true := Multiset.mem_filter

theorem largestTerminable_eq_none (h : g.evictable = 0) : g.largestTerminable = none := by
  obtain ⟨-, -, hfrom⟩ := foldl_consider (g.inFlight ++ priorityOrder.flatMap g.queues) none
  rcases hfrom with hnone | ⟨item, hitem, hterminable, -⟩
  · rw [largestTerminable, hnone]
    rfl
  · have hmem : item ∈ g.evictable := mem_evictable.mpr ⟨mem_everything.mp hitem, hterminable⟩
    rw [h] at hmem
    cases hmem

theorem largestTerminable_eq_some (h : g.evictable ≠ 0) :
    ∃ item ∈ g.evictable, g.largestTerminable = some item.id ∧ ∀ other ∈ g.evictable, other.cost ≤ item.cost := by
  obtain ⟨hitems, -, hfrom⟩ := foldl_consider (g.inFlight ++ priorityOrder.flatMap g.queues) none
  obtain ⟨any, hany⟩ := Multiset.exists_mem_of_ne_zero h
  obtain ⟨hheld, hterminable⟩ := mem_evictable.mp hany
  obtain ⟨cost, id, hbest, -⟩ := hitems any (mem_everything.mpr hheld) hterminable
  rcases hfrom with hnone | ⟨item, hitem, hitemTerminable, heq⟩
  · rw [hbest] at hnone
    cases hnone
  · refine ⟨item, mem_evictable.mpr ⟨mem_everything.mp hitem, hitemTerminable⟩, by rw [largestTerminable, heq]; rfl,
      fun other hother => ?_⟩
    obtain ⟨hheld', hterminable'⟩ := mem_evictable.mp hother
    obtain ⟨cost', id', hbest', hle⟩ := hitems other (mem_everything.mpr hheld') hterminable'
    rw [heq] at hbest'
    cases hbest'
    exact hle

theorem takeQueued_isSome (hitem : item ∈ g.queues c)
    {cs : List WorkClass} (hc : c ∈ cs) : (g.takeQueued item.id cs).isSome := by
  induction cs with
  | nil => cases hc
  | cons first cs ih =>
    unfold takeQueued
    split
    · rfl
    · rename_i hnone
      rcases List.mem_cons.mp hc with rfl | hc
      · exact absurd (List.find?_eq_none.mp hnone item hitem) (by simp)
      · exact ih hc

theorem take_of_mem (h : Sound g) (hitem : item ∈ g.held) :
    ∃ g', (g.takeInFlight item.id).or (g.takeQueued item.id priorityOrder) = some (item, g') ∧ Takes g g' item := by
  have hsome : ((g.takeInFlight item.id).or (g.takeQueued item.id priorityOrder)).isSome := by
    rw [Option.isSome_or, Bool.or_eq_true]
    rcases mem_held.mp hitem with hin | ⟨c, hqueued⟩
    · refine .inl ?_
      unfold takeInFlight
      split
      · rfl
      · rename_i hnone
        exact absurd (List.find?_eq_none.mp hnone item hin) (by simp)
    · exact .inr (takeQueued_isSome hqueued (by cases c <;> simp [priorityOrder]))
  obtain ⟨⟨taken, g'⟩, htake⟩ := Option.isSome_iff_exists.mp hsome
  obtain ⟨htakes, hid⟩ : Takes g g' taken ∧ taken.id = item.id := by
    rcases Option.or_eq_some_iff.mp htake with hin | ⟨-, hqueued⟩
    · exact takeInFlight_spec hin
    · exact takeQueued_spec hqueued
  -- ids are distinct, so it is the item itself
  have htaken : taken ∈ g.held := by
    rw [htakes.held]
    exact Multiset.mem_cons_self _ _
  obtain rfl := Multiset.inj_on_of_nodup_map h.distinct taken htaken item hitem hid
  exact ⟨g', htake, htakes⟩

theorem evictableCosts_take {g' : ResourceGovernor} (ht : Takes g g' item)
    (hitem : item ∈ g.evictable) (hlargest : ∀ other ∈ g.evictable, other.cost ≤ item.cost) :
    g.evictable = item ::ₘ g'.evictable ∧ g.evictableCosts = item.cost :: g'.evictableCosts := by
  have hcons : g.evictable = item ::ₘ g'.evictable := by
    simp [evictable, ht.held, (mem_evictable.mp hitem).2]
  refine ⟨hcons, ?_⟩
  rw [evictableCosts, hcons, Multiset.map_cons]
  refine Multiset.sort_cons _ _ _ fun cost hcost => ?_
  obtain ⟨other, hother, rfl⟩ := Multiset.mem_map.mp hcost
  exact hlargest other (by rw [hcons]; exact Multiset.mem_cons_of_mem hother)

theorem evictableCosts_eq_nil : g.evictableCosts = [] ↔ g.evictable = 0 := by
  rw [evictableCosts, ← List.length_eq_zero_iff, Multiset.length_sort, Multiset.card_map, Multiset.card_eq_zero]

theorem terminatedItems_le (needed rounds : ℕ) (g : ResourceGovernor) (freed : ℕ) :
    g.terminatedItems.length ≤ (terminateLoop needed rounds g freed).1.terminatedItems.length := by
  induction rounds generalizing g freed with
  | zero => exact le_rfl
  | succ rounds ih =>
    unfold terminateLoop
    split
    · exact le_rfl
    · split
      · exact le_rfl
      · split
        · exact le_rfl
        · rename_i item g' htake
          have hsame : g'.terminatedItems = g.terminatedItems := by
            rcases Option.or_eq_some_iff.mp htake with hin | ⟨-, hqueued⟩
            · exact (takeInFlight_spec hin).1.terminatedItems
            · exact (takeQueued_spec hqueued).1.terminatedItems
          refine le_trans ?_ (ih (g'.terminate item) (freed + item.cost))
          simp [terminate, hsame]

/-- Enough rounds free the cover of what is still needed, and touch nothing only where nothing is
needed or nothing can go. -/
theorem terminateLoop_frees {needed rounds : ℕ} {g : ResourceGovernor} {freed : ℕ} (h : Sound g)
    (hrounds : g.evictable.card ≤ rounds) :
    (terminateLoop needed rounds g freed).2 = freed + cover (needed - freed) g.evictableCosts ∧
      (g.evictable = 0 → (terminateLoop needed rounds g freed).1 = g) ∧
      (g.evictable ≠ 0 → freed < needed →
        g.terminatedItems.length < (terminateLoop needed rounds g freed).1.terminatedItems.length) := by
  induction rounds generalizing g freed with
  | zero =>
    have hnone : g.evictable = 0 := Multiset.card_eq_zero.mp (by omega)
    refine ⟨?_, fun _ => rfl, fun hne => absurd hnone hne⟩
    rw [evictableCosts_eq_nil.mpr hnone]
    rfl
  | succ rounds ih =>
    unfold terminateLoop
    by_cases hdone : needed ≤ freed
    · rw [if_pos hdone]
      refine ⟨?_, fun _ => rfl, fun _ hlt => absurd hlt (by omega)⟩
      rw [Nat.sub_eq_zero_of_le hdone]
      cases g.evictableCosts <;> simp [cover]
    · rw [if_neg hdone]
      by_cases hnone : g.evictable = 0
      · rw [largestTerminable_eq_none hnone, evictableCosts_eq_nil.mpr hnone]
        exact ⟨rfl, fun _ => rfl, fun hne => absurd hnone hne⟩
      · obtain ⟨item, hitem, hlargest, hmax⟩ := largestTerminable_eq_some hnone
        obtain ⟨g', htake, htakes⟩ := take_of_mem h (mem_evictable.mp hitem).1
        obtain ⟨hevictable, hcosts⟩ := evictableCosts_take htakes hitem hmax
        have hcard : (g'.terminate item).evictable.card ≤ rounds := by
          rw [hevictable, Multiset.card_cons] at hrounds
          exact Nat.le_of_succ_le_succ hrounds
        obtain ⟨hfreed, -, -⟩ := @ih (g'.terminate item) (freed + item.cost) (h.sheds htakes.terminates) hcard
        simp only [hlargest, htake]
        refine ⟨?_, fun hempty => absurd hempty hnone, fun _ _ => ?_⟩
        · rw [hfreed, hcosts, cover, if_neg (by omega), Nat.sub_sub]
          exact add_assoc _ _ _
        · have hle := terminatedItems_le needed rounds (g'.terminate item) (freed + item.cost)
          have hgrown : (g'.terminate item).terminatedItems.length = g.terminatedItems.length + 1 := by
            simp [terminate, htakes.terminatedItems]
          omega

theorem terminateLargestFor_spec (h : Sound g) (needed : ℕ) :
    ∃ gone, Sheds g (g.terminateLargestFor needed).1 gone ∧
      (gone.map WorkItem.cost).sum = cover needed g.evictableCosts ∧
      ((g.terminateLargestFor needed).2 = true ↔ needed ≤ (g.evictable.map WorkItem.cost).sum) ∧
      (g.evictable = 0 → (g.terminateLargestFor needed).1 = g) ∧
      (g.evictable ≠ 0 → 0 < needed →
        g.terminatedItems.length < (g.terminateLargestFor needed).1.terminatedItems.length) := by
  have hrounds : g.evictable.card ≤ (g.inFlight ++ priorityOrder.flatMap g.queues).length := by
    rw [← Multiset.coe_card, coe_everything]
    exact Multiset.card_le_card (Multiset.filter_le _ _)
  have htotal : g.evictableCosts.sum = (g.evictable.map WorkItem.cost).sum := by
    rw [← Multiset.sum_coe, evictableCosts, Multiset.sort_eq]
  obtain ⟨gone, hsheds, hfreed⟩ :=
    terminateLoop_sheds needed (g.inFlight ++ priorityOrder.flatMap g.queues).length g 0
  obtain ⟨hcover, hempty, hgrown⟩ := @terminateLoop_frees needed _ g 0 h hrounds
  rw [Nat.sub_zero] at hcover
  have hgone : (gone.map WorkItem.cost).sum = cover needed g.evictableCosts := by omega
  refine ⟨gone, hsheds, hgone, ?_, hempty, hgrown⟩
  rw [terminateLargestFor, decide_eq_true_iff, hfreed, hgone, zero_add, le_cover_iff, htotal]

/-- What a submission still needs when the capacity is exceeded. -/
def shortfall (g : ResourceGovernor) (cost : ℕ) : ℕ := g.accountedCost + cost - g.config.capacity

/-- Work is terminated for a submission that is then refused: the policy is to make room, the
submission is in order but does not fit, something can be terminated, and yet all of it is not enough,
or the largest costs that are leave no more than the reserve, or the ids have run out. -/
structure Wastes (g : ResourceGovernor) (c : WorkClass) (cost : ℕ) : Prop where
  policy : g.config.overloadPolicy = .terminateLargest
  ordered : 0 < cost ∧ cost ≤ g.config.capacity
  queue : (g.queues c).length < g.config.maxQueuePerClass
  exceeds : g.config.capacity < g.accountedCost + cost ∧ g.accountedCost + cost ≤ usizeMax
  evicts : g.evictable ≠ 0
  refused : (g.evictable.map WorkItem.cost).sum < g.shortfall cost ∨
    (c.canConsumeReserve = false ∧ g.config.capacity - g.config.protectedReserve <
      g.accountedCost - cover (g.shortfall cost) g.evictableCosts + cost) ∨
    g.nextId = u64Max

def SameWork (g g' : ResourceGovernor) : Prop := { g' with rejected := g.rejected } = g

theorem enqueue_error {g : ResourceGovernor} {c : WorkClass} {cost : ℕ} {deadline : Option ℕ} :
    (∃ error, (g.enqueue c cost deadline).2 = .error error) ↔
      (c.canConsumeReserve = false ∧
        g.config.capacity - g.config.protectedReserve < g.accountedCost + cost) ∨ g.nextId = u64Max := by
  unfold enqueue
  split
  · rename_i hreserve
    exact iff_of_true ⟨_, rfl⟩ (.inl (by simpa using hreserve))
  · rename_i hreserve
    split
    · exact iff_of_true ⟨_, rfl⟩ (.inr ‹_›)
    · refine iff_of_false (fun ⟨error, h⟩ => by cases h) ?_
      rintro (h | h)
      · exact hreserve (by simpa using h)
      · exact ‹¬ _› h

theorem enqueue_sameWork {cost : ℕ} {deadline : Option ℕ}
    (h : ∃ error, (g.enqueue c cost deadline).2 = .error error) : SameWork g (g.enqueue c cost deadline).1 := by
  unfold enqueue at h ⊢
  split
  · rfl
  · split
    · rfl
    · rename_i hreserve hid
      rw [if_neg hreserve, if_neg hid] at h
      obtain ⟨error, h⟩ := h
      cases h

/-- A refused submission leaves all work as it was exactly when none is wasted on it. -/
theorem refused_sameWork_iff {g : ResourceGovernor} (h : Sound g) (c : WorkClass) (cost : ℕ) (deadline : Option ℕ) :
    ((∃ error, (g.submit c cost deadline).2 = .error error) → SameWork g (g.submit c cost deadline).1) ↔
      ¬ Wastes g c cost := by
  unfold submit
  split
  · exact iff_of_true (fun _ => rfl) fun hw => by have := hw.ordered; omega
  · rename_i hcost
    split
    · exact iff_of_true (fun _ => rfl) fun hw => by have := hw.queue; omega
    · rename_i hqueue
      split
      · exact iff_of_true (fun _ => rfl) fun hw => by have := hw.exceeds; omega
      · rename_i husize
        split
        · rename_i hexceeds
          split
          · rename_i hpolicy
            obtain ⟨gone, hsheds, hgone, hmet, hempty, hgrown⟩ := terminateLargestFor_spec h (g.shortfall cost)
            rw [show g.accountedCost + cost - g.config.capacity = g.shortfall cost from rfl]
            dsimp only
            generalize g.terminateLargestFor (g.shortfall cost) = ended at hsheds hmet hempty hgrown ⊢
            have hneed : 0 < g.shortfall cost := by
              unfold shortfall
              omega
            by_cases hnone : g.evictable = 0
            · -- nothing can go, and nothing does
              have hfailed : ¬ ended.2 = true := by
                rw [hmet, hnone]
                simpa using hneed.ne'
              rw [if_neg hfailed, hempty hnone]
              exact iff_of_true (fun _ => rfl) fun hw => hw.evicts hnone
            · have hchanged : ∀ g', g'.terminatedItems = ended.1.terminatedItems → ¬ SameWork g g' := by
                intro g' hitems hsame
                have hlist : g'.terminatedItems = g.terminatedItems := congrArg (·.terminatedItems) hsame
                have hlonger := hgrown hnone hneed
                rw [← hitems, hlist] at hlonger
                exact lt_irrefl _ hlonger
              have hwastes : (g.evictable.map WorkItem.cost).sum < g.shortfall cost ∨
                  (c.canConsumeReserve = false ∧ g.config.capacity - g.config.protectedReserve <
                    g.accountedCost - cover (g.shortfall cost) g.evictableCosts + cost) ∨ g.nextId = u64Max ↔
                  Wastes g c cost :=
                ⟨fun hr => ⟨hpolicy, by omega, by omega, by omega, hnone, hr⟩, Wastes.refused⟩
              by_cases hended : ended.2 = true
              · have hfreed := hmet.mp hended
                have hfits := g.config.fits
                have haccounted : ended.1.accountedCost =
                    g.accountedCost - cover (g.shortfall cost) g.evictableCosts := by
                  rw [hsheds.accounted, hgone]
                have hcovered := (le_cover_iff (g.shortfall cost) g.evictableCosts).mpr (by
                  rwa [← Multiset.sum_coe, evictableCosts, Multiset.sort_eq])
                have hsmall : ¬ usizeMax < ended.1.accountedCost + cost := by
                  rw [haccounted]
                  unfold shortfall at hcovered
                  have := h.within
                  omega
                rw [if_pos hended, if_neg hsmall, ← hwastes]
                have herror := @enqueue_error ended.1 c cost deadline
                rw [hsheds.config, hsheds.nextId, haccounted] at herror
                by_cases hrefused : ∃ error, (ended.1.enqueue c cost deadline).2 = .error error
                · have hsame := enqueue_sameWork hrefused
                  refine iff_of_false (fun himp => ?_) (not_not.mpr (.inr (herror.mp hrefused)))
                  exact hchanged _ (congrArg (·.terminatedItems) hsame) (himp hrefused)
                · refine iff_of_true (fun hr => absurd hr hrefused) fun hr => ?_
                  rcases hr with hr | hr
                  · omega
                  · exact hrefused (herror.mpr hr)
              · rw [if_neg hended, ← hwastes]
                refine iff_of_false (fun himp => hchanged _ rfl (himp ⟨_, rfl⟩)) (not_not.mpr (.inl ?_))
                rw [hmet] at hended
                omega
          · exact iff_of_true (fun _ => rfl) fun hw => absurd hw.policy ‹_›
        · exact iff_of_true enqueue_sameWork fun hw => by have := hw.exceeds; omega

end ResourceGovernor

/-- The largest consumers make room, and one unit is reserved. -/
def evictingConfig : ReactorConfig := ⟨1, ⟨4, 1, 4, 4, .terminateLargest, four_le_usizeMax⟩, none⟩

/-- A scan is terminated for schema work that then runs into the reserve. -/
theorem terminated_for_refused_work :
    ∃ start r, Reactor.new evictingConfig = .ok start ∧
      (reactors evictingConfig).run start [.submit .scan 3 none] = some r ∧
      r.governor.terminatedItems = [] ∧ (r.governor.submit .schema 4 none).2 = .error (.protectedReserve .schema) ∧
      (r.governor.submit .schema 4 none).1.terminatedItems = [⟨0, .scan, 3, none⟩] :=
  ⟨_, _, rfl, rfl, rfl, by decide +kernel, by decide +kernel⟩

/-- Work larger than the capacity is refused before anything is terminated. -/
theorem refused_sameWork_iff_oversized :
    ∃ start r, Reactor.new evictingConfig = .ok start ∧
      (reactors evictingConfig).run start [.submit .scan 3 none] = some r ∧ r.governor.Sound ∧
      ((∃ error, (r.governor.submit .olTp 5 none).2 = .error error) →
        ResourceGovernor.SameWork r.governor (r.governor.submit .olTp 5 none).1) := by
  obtain ⟨start, hstart⟩ : ∃ start, Reactor.new evictingConfig = .ok start := ⟨_, rfl⟩
  obtain ⟨r, hr⟩ : ∃ r, (reactors evictingConfig).run start [.submit .scan 3 none] = some r := ⟨_, rfl⟩
  obtain ⟨hsound, hconfig, -⟩ := Reactor.reachable_spec (Machine.reachable_run (.init hstart) hr)
  refine ⟨start, r, hstart, hr, hsound, (ResourceGovernor.refused_sameWork_iff hsound .olTp 5 none).mpr fun hw => ?_⟩
  have hcapacity := hw.ordered.2
  rw [hconfig] at hcapacity
  exact absurd hcapacity (by decide)

end OmenDb.Runtime
