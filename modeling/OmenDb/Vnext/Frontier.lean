import OmenDb.Lib.Machine
import OmenDb.Vnext.FinalEffects

/-! The visibility frontier on its own. A call to `mark_ready` compares its number with the frontier,
then takes the lock, parks the number and drains what has become contiguous; calls overlap between the
two steps, and recovery may be required at any time. -/
namespace OmenDb.Vnext

inductive VisibilityError
  | poisoned
  | commitSeqExhausted
  | alreadyVisible (visible requested : ℕ)
  | recoveryRequired (visible csn : ℕ)
  deriving DecidableEq

/-- `advance_locked`: the numbers left ready and the new frontier, if it has a successor. -/
def Runtime.advanceFrontier : ℕ → ℕ → Finset ℕ → Finset ℕ × Option ℕ
  | 0, frontier, ready => (ready, some frontier)
  | rounds + 1, frontier, ready =>
    if 256 ^ 8 ≤ frontier + 1 then (ready, none)
    else if frontier + 1 ∈ ready then advanceFrontier rounds (frontier + 1) (ready.erase (frontier + 1))
    else (ready, some frontier)

def maxCsn : ℕ := 256 ^ 8 - 1

/-- The frontier, the calls between their two steps and the numbers that were parked so far; no step
reads these last. -/
structure VisibilityFrontier where
  visible : ℕ
  ready : Finset ℕ
  recoveryRequired : Bool
  entering : List ℕ
  marked : Finset ℕ
  deriving DecidableEq

inductive FrontierAct
  | check (csn : ℕ)
  | markReady (csn : ℕ)
  | requireRecovery
  deriving DecidableEq

namespace VisibilityFrontier

def new (initial : ℕ) : VisibilityFrontier := ⟨initial, ∅, false, [], ∅⟩

/-- `mark_ready` up to the lock. -/
def check (s : VisibilityFrontier) (csn : ℕ) : Except VisibilityError Unit × VisibilityFrontier :=
  if csn ≤ s.visible then (.error (.alreadyVisible s.visible csn), s)
    else (.ok (), { s with entering := csn :: s.entering })

/-- `mark_ready` under the lock. When the numbers run out, what was drained is gone and the frontier
stays. -/
def markReady (s : VisibilityFrontier) (csn : ℕ) : Except VisibilityError ℕ × VisibilityFrontier :=
  let s := { s with entering := s.entering.erase csn }
  if s.recoveryRequired then (.error (.recoveryRequired s.visible csn), s)
  else
    let s := { s with ready := insert csn s.ready, marked := insert csn s.marked }
    match Runtime.advanceFrontier (s.ready.card + 1) s.visible s.ready with
    | (ready, none) => (.error .commitSeqExhausted, { s with ready })
    | (ready, some visible) => (.ok visible, { s with ready, visible })

/-- `wait_visible` at the time it looks: it blocks below the number. -/
def waitVisible (s : VisibilityFrontier) (csn : ℕ) : Option (Except VisibilityError ℕ) :=
  if s.recoveryRequired then some (.error (.recoveryRequired s.visible csn))
  else if csn ≤ s.visible then some (.ok s.visible)
  else none

def step (s : VisibilityFrontier) : FrontierAct → Option VisibilityFrontier
  | .check csn => if csn ≤ maxCsn then some (s.check csn).2 else none
  | .markReady csn => if csn ∈ s.entering then some (s.markReady csn).2 else none
  | .requireRecovery => some { s with recoveryRequired := true }

def machine (initial : ℕ) : Machine VisibilityFrontier FrontierAct where
  init s := s = new initial
  step := step

def Below (_ : VisibilityFrontier) : FrontierAct → Prop
  | .check csn | .markReady csn => csn ≠ maxCsn
  | .requireRecovery => True

instance (s : VisibilityFrontier) (act : FrontierAct) : Decidable (Below s act) := by
  cases act <;> unfold Below <;> infer_instance

end VisibilityFrontier

theorem exists_gap (marked : Finset ℕ) (initial : ℕ) : ∃ n, initial + n + 1 ∉ marked := by
  refine ⟨marked.sup id, fun hmem => ?_⟩
  have hle : initial + marked.sup id + 1 ≤ marked.sup id := Finset.le_sup (f := id) hmem
  omega

/-- How many of the numbers after the initial one are there without a gap. -/
def contiguousRun (marked : Finset ℕ) (initial : ℕ) : ℕ := Nat.find (exists_gap marked initial)

theorem contiguousRun_eq {marked : Finset ℕ} {initial visible : ℕ} (hle : initial ≤ visible)
    (hall : ∀ c, initial < c → c ≤ visible → c ∈ marked) (hgap : visible + 1 ∉ marked) :
    visible = initial + contiguousRun marked initial := by
  have hfind : contiguousRun marked initial = visible - initial := by
    rw [contiguousRun, Nat.find_eq_iff]
    refine ⟨?_, fun n hn hmem => hmem (hall _ (by omega) (by omega))⟩
    rwa [show initial + (visible - initial) + 1 = visible + 1 by omega]
  omega

theorem advanceFrontier_spec {rounds frontier : ℕ} {ready ready' : Finset ℕ} {visible : Option ℕ}
    (hrounds : ready.card < rounds) (h : Runtime.advanceFrontier rounds frontier ready = (ready', visible)) :
    match visible with
    | none => maxCsn ∈ ready ∨ maxCsn ≤ frontier
    | some v =>
      frontier ≤ v ∧ (∀ c, frontier < c → c ≤ v → c ∈ ready) ∧ v + 1 ∉ ready ∧ ∀ c, c ∈ ready' ↔ c ∈ ready ∧
        ¬(frontier < c ∧ c ≤ v) := by
  induction rounds generalizing frontier ready with
  | zero => omega
  | succ rounds ih =>
    rw [Runtime.advanceFrontier] at h
    split at h
    · next hend =>
      cases h
      exact .inr (by rw [maxCsn]; omega)
    split at h
    · next hmem =>
      have hcard : (ready.erase (frontier + 1)).card < rounds := by
        rw [Finset.card_erase_of_mem hmem]
        have := Finset.card_pos.mpr ⟨_, hmem⟩
        omega
      have hrest := ih hcard h
      cases visible with
      | none =>
        rcases hrest with hmax | hmax
        · exact .inl (Finset.mem_of_mem_erase hmax)
        · rcases Nat.lt_or_ge frontier maxCsn with hlt | hge
          · exact .inl (by rwa [show maxCsn = frontier + 1 by omega])
          · exact .inr hge
      | some v =>
        obtain ⟨hle, hall, hgap, hready⟩ := hrest
        refine ⟨by omega, fun c hlow hhigh => ?_, fun hgapmem => hgap (Finset.mem_erase.mpr ⟨by omega, hgapmem⟩),
          fun c => ?_⟩
        · by_cases heq : c = frontier + 1
          · rwa [heq]
          · exact Finset.mem_of_mem_erase (hall c (by omega) hhigh)
        · rw [hready, Finset.mem_erase]
          constructor
          · rintro ⟨⟨hne, hc⟩, hout⟩
            exact ⟨hc, fun hin => hout ⟨by omega, hin.2⟩⟩
          · rintro ⟨hc, hout⟩
            exact ⟨⟨by omega, hc⟩, fun hin => hout ⟨by omega, hin.2⟩⟩
    · next hgap =>
      cases h
      exact ⟨le_rfl, fun c hlow hhigh => by omega, hgap, fun c => ⟨fun hc => ⟨hc, by omega⟩, fun hc => hc.1⟩⟩

namespace VisibilityFrontier

variable {initial : ℕ} {s s' : VisibilityFrontier}

/-- All numbers up to the frontier were marked, the next one was not, and what was marked and is not
covered is parked. -/
structure Inv (initial : ℕ) (s : VisibilityFrontier) : Prop where
  le : initial ≤ s.visible
  covered : ∀ c, initial < c → c ≤ s.visible → c ∈ s.marked
  gap : s.visible + 1 ∉ s.marked
  parked : ∀ c ∈ s.marked, c ∈ s.ready ∨ c ≤ s.visible
  ready : s.ready ⊆ s.marked
  below : ∀ c ∈ s.marked, c < maxCsn
  entering : ∀ c ∈ s.entering, initial < c ∧ c < maxCsn

theorem inv_new (initial : ℕ) : Inv initial (new initial) where
  le := le_rfl
  covered := fun c hlow hhigh => absurd hlow (not_lt.mpr hhigh)
  gap := by simp [new]
  parked := by simp [new]
  ready := by simp [new]
  below := by simp [new]
  entering := by simp [new]

theorem Inv.markReady (h : Inv initial s) {csn : ℕ} (hlow : initial < csn) (hhigh : csn < maxCsn) :
    Inv initial (s.markReady csn).2 := by
  have hentering : ∀ c ∈ s.entering.erase csn, initial < c ∧ c < maxCsn :=
    fun c hc => h.entering c (List.mem_of_mem_erase hc)
  have hvisible : s.visible < maxCsn := by
    rcases Nat.lt_or_eq_of_le h.le with hlt | heq
    · exact h.below _ (h.covered _ hlt le_rfl)
    · omega
  have hbelow : ∀ c ∈ insert csn s.marked, c < maxCsn := by
    intro c hc
    rcases Finset.mem_insert.mp hc with rfl | hc
    · exact hhigh
    · exact h.below c hc
  rw [VisibilityFrontier.markReady]
  dsimp only
  split
  · exact ⟨h.le, h.covered, h.gap, h.parked, h.ready, h.below, hentering⟩
  split
  · next ready hadvance =>
    -- the numbers do not run out below the largest one
    rcases advanceFrontier_spec (Nat.lt_succ_self _) hadvance with hmax | hmax
    · rcases Finset.mem_insert.mp hmax with heq | hmem
      · exact absurd heq (by omega)
      · exact absurd (h.below _ (h.ready hmem)) (lt_irrefl _)
    · exact absurd hmax (not_le.mpr hvisible)
  · next ready visible hadvance =>
    obtain ⟨hle, hall, hgap, hready⟩ := advanceFrontier_spec (Nat.lt_succ_self _) hadvance
    have hsub : insert csn s.ready ⊆ insert csn s.marked := Finset.insert_subset_insert _ h.ready
    refine ⟨h.le.trans hle, ?_, ?_, ?_, ?_, hbelow, hentering⟩
    · intro c hc hcv
      rcases Nat.lt_or_ge s.visible c with hlt | hge
      · exact hsub (hall c hlt hcv)
      · exact Finset.mem_insert_of_mem (h.covered c hc hge)
    · intro hnext
      have hnext : visible + 1 ∈ insert csn s.marked := hnext
      rcases Finset.mem_insert.mp hnext with heq | hmem
      · exact hgap (Finset.mem_insert.mpr (.inl heq))
      · rcases h.parked _ hmem with hparked | hcovered
        · exact hgap (Finset.mem_insert_of_mem hparked)
        · omega
    · intro c hc
      by_cases hcovered : c ≤ visible
      · exact .inr hcovered
      · refine .inl ((hready c).mpr ⟨?_, fun hin => hcovered hin.2⟩)
        rcases Finset.mem_insert.mp hc with rfl | hc
        · exact Finset.mem_insert_self _ _
        · rcases h.parked c hc with hparked | hbefore
          · exact Finset.mem_insert_of_mem hparked
          · omega
    · exact fun c hc => hsub ((hready c).mp hc).1

theorem Inv.step (h : Inv initial s) {act : FrontierAct} (hact : Below s act) (hstep : s.step act = some s') :
    Inv initial s' := by
  cases act with
  | check csn =>
    rw [VisibilityFrontier.step] at hstep
    split at hstep
    swap
    · cases hstep
    next hmax =>
    cases hstep
    rw [VisibilityFrontier.check]
    split
    · exact h
    · next hnew =>
      refine ⟨h.le, h.covered, h.gap, h.parked, h.ready, h.below, ?_⟩
      intro c hc
      rcases List.mem_cons.mp hc with rfl | hc
      · have := h.le
        exact ⟨by omega, Nat.lt_of_le_of_ne hmax hact⟩
      · exact h.entering c hc
  | markReady csn =>
    rw [VisibilityFrontier.step] at hstep
    split at hstep
    · next hmem =>
      cases hstep
      obtain ⟨hlow, hhigh⟩ := h.entering csn hmem
      exact h.markReady hlow hhigh
    · cases hstep
  | requireRecovery =>
    cases hstep
    exact ⟨h.le, h.covered, h.gap, h.parked, h.ready, h.below, h.entering⟩

theorem inv_of_reach (h : (machine initial).Reach Below s) : Inv initial s := by
  apply Machine.Reach.invariant _ _ h
  · intro s hinit
    rw [show s = new initial from hinit]
    exact inv_new initial
  · exact fun s act s' hinv hact hstep => hinv.step hact hstep

theorem visible_le_markReady (s : VisibilityFrontier) (csn : ℕ) : s.visible ≤ (s.markReady csn).2.visible := by
  rw [markReady]
  dsimp only
  split
  · exact le_rfl
  split
  · exact le_rfl
  · next hadvance => exact (advanceFrontier_spec (Nat.lt_succ_self _) hadvance).1

theorem visible_le_step {act : FrontierAct} (hstep : s.step act = some s') : s.visible ≤ s'.visible := by
  cases act with
  | check csn =>
    obtain ⟨-, hs'⟩ := Option.ite_none_right_eq_some.mp hstep
    cases hs'
    rw [check]
    split <;> exact le_rfl
  | markReady csn =>
    obtain ⟨-, hs'⟩ := Option.ite_none_right_eq_some.mp hstep
    cases hs'
    exact visible_le_markReady s csn
  | requireRecovery =>
    cases hstep
    exact le_rfl

theorem waitVisible_ok {csn v : ℕ} (h : s.waitVisible csn = some (.ok v)) :
    csn ≤ s.visible ∧ v = s.visible ∧ s.recoveryRequired = false := by
  rw [waitVisible] at h
  split at h
  · cases h
  next hrecovery =>
  split at h
  · next hle =>
    cases h
    exact ⟨hle, rfl, by simpa using hrecovery⟩
  · cases h

/-- In every run the frontier never falls, and a wait ends well only at a frontier that covers its
number and without recovery. Where no step marks the largest number, the frontier is the initial number
plus the run of marked numbers after it, so it does not depend on their order. -/
theorem frontier_is_contiguous_run (initial : ℕ) :
    (∀ s, (machine initial).Reachable s → (∀ act s', s.step act = some s' → s.visible ≤ s'.visible) ∧
      ∀ csn v, s.waitVisible csn = some (.ok v) → csn ≤ s.visible ∧ v = s.visible ∧ s.recoveryRequired = false) ∧
    ∀ s, (machine initial).Reach Below s → s.visible = initial + contiguousRun s.marked initial ∧
      ∀ t, (machine initial).Reach Below t → t.marked = s.marked → t.visible = s.visible := by
  have hrun : ∀ t, (machine initial).Reach Below t → t.visible = initial + contiguousRun t.marked initial := by
    intro t ht
    have hinv := inv_of_reach ht
    exact contiguousRun_eq hinv.le hinv.covered hinv.gap
  refine ⟨fun s _ => ⟨fun act s' => visible_le_step, fun csn v => waitVisible_ok⟩, fun s hs =>
    ⟨hrun s hs, fun t ht hmarked => ?_⟩⟩
  rw [hrun t ht, hrun s hs, hmarked]

/-- Two numbers out of order. -/
theorem frontier_is_contiguous_run_two :
    ∃ s, (machine 0).run (new 0) [.check 2, .check 1, .markReady 2, .markReady 1] = some s ∧ s.visible = 2 ∧
      s.visible = 0 + contiguousRun s.marked 0 := by
  have hrun : (machine 0).runWhere (fun s act => decide (Below s act)) (new 0)
    [.check 2, .check 1, .markReady 2, .markReady 1] =
      some ⟨2, ∅, false, [], {1, 2}⟩ := by decide +kernel
  have hreach := Machine.reach_runWhere (fun s act => of_decide_eq_true) (.init rfl) hrun
  exact ⟨_, by decide +kernel, rfl, ((frontier_is_contiguous_run 0).2 _ hreach).1⟩

/-- The largest number is marked when the one before it is visible: it is drained, and the frontier
stays where it was. -/
theorem largest_csn_lost :
    ∃ s, (machine (maxCsn - 1)).Reachable s ∧ s.marked = {maxCsn} ∧ s.ready = ∅ ∧ s.visible = maxCsn - 1 ∧
      s.visible ≠ maxCsn - 1 + contiguousRun s.marked (maxCsn - 1) := by
  have hrun : (machine (maxCsn - 1)).run (new (maxCsn - 1)) [.check maxCsn, .markReady maxCsn] =
      some ⟨maxCsn - 1, ∅, false, [], {maxCsn}⟩ := by decide +kernel
  refine ⟨_, Machine.reachable_run (.init rfl) hrun, rfl, rfl, rfl, ?_⟩
  have hone : maxCsn = maxCsn - 1 + contiguousRun {maxCsn} (maxCsn - 1) := by
    refine contiguousRun_eq (Nat.sub_le _ _) (fun c hlow hhigh => ?_) (by simp)
    rw [Finset.mem_singleton]
    omega
  have hpos : maxCsn - 1 < maxCsn := by decide
  exact fun heq => absurd (heq.trans hone.symm) hpos.ne

end VisibilityFrontier
end OmenDb.Vnext
