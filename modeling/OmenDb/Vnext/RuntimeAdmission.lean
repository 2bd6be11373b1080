import OmenDb.Lib.Threads

/-! Runtime admission: who may commit, when a checkpoint has the store to itself, and the fence after a
failure. Each step is one section under the state lock. A thread stands for the life of one guard; a
visibility admission keeps the lock as long as it lives, and a panic under it poisons the lock. -/
namespace OmenDb.Vnext.Admission

inductive RuntimeAdmissionState
  | open
  | checkpointing
  | recoveryRequired
  deriving DecidableEq

inductive RuntimeAdmissionError
  | checkpointInProgress
  | recoveryRequired
  | commitCountExhausted
  | poisoned
  deriving DecidableEq

/-- The state under the lock, the fence, whether a visibility admission has the lock, and whether the
lock is poisoned. -/
structure RuntimeAdmission where
  checkpointing : Bool
  activeCommits : ℕ
  recoveryRequired : Bool
  locked : Bool
  poisoned : Bool
  deriving DecidableEq

inductive Pc
  | idle
  | commit
  | draining
  | checkpoint
  | visibility
  deriving DecidableEq

inductive Choice
  | admitCommit
  | beginCheckpoint
  | admitVisibility
  | requireRecovery
  | wake
  | drop
  | panic
  deriving DecidableEq

namespace RuntimeAdmission

def new : RuntimeAdmission := ⟨false, 0, false, false, false⟩

def mode (s : RuntimeAdmission) : RuntimeAdmissionState :=
  if s.recoveryRequired then .recoveryRequired else if s.checkpointing then .checkpointing else .open

def admitCommit (s : RuntimeAdmission) : Except RuntimeAdmissionError RuntimeAdmission :=
  if s.poisoned then .error .poisoned
  else match s.mode with
  | .open =>
    if s.activeCommits + 1 < 256 ^ 8 then .ok { s with activeCommits := s.activeCommits + 1 }
      else .error .commitCountExhausted
  | .checkpointing => .error .checkpointInProgress
  | .recoveryRequired => .error .recoveryRequired

def ensureReadAdmission (s : RuntimeAdmission) : Except RuntimeAdmissionError Unit :=
  if s.recoveryRequired then .error .recoveryRequired else if s.poisoned then .error .poisoned else .ok ()

/-- The first part of `begin_checkpoint`: from here on no commit is admitted. -/
def beginCheckpoint (s : RuntimeAdmission) : Except RuntimeAdmissionError RuntimeAdmission :=
  if s.poisoned then .error .poisoned
  else match s.mode with
  | .open => .ok { s with checkpointing := true }
  | .checkpointing => .error .checkpointInProgress
  | .recoveryRequired => .error .recoveryRequired

/-- The loop test of `begin_checkpoint`. -/
def drain (s : RuntimeAdmission) : Pc := if s.activeCommits ≠ 0 then .draining else .checkpoint

/-- A wake-up in the loop. The call that finds the poison or the fence returns and leaves the checkpoint
flag set. -/
def wake (s : RuntimeAdmission) : Pc := if s.poisoned ∨ s.recoveryRequired then .idle else s.drain

def admitVisibility (s : RuntimeAdmission) : Except RuntimeAdmissionError RuntimeAdmission :=
  if s.poisoned then .error .poisoned
  else if s.recoveryRequired then .error .recoveryRequired
  else .ok { s with locked := true }

/-- The fence goes up also under a poisoned lock. -/
def requireRecovery (s : RuntimeAdmission) : RuntimeAdmission := { s with recoveryRequired := true }

/-- The end of a commit guard. Under a poisoned lock the commit stays counted. -/
def releaseCommit (s : RuntimeAdmission) : RuntimeAdmission :=
  if s.poisoned then s else { s with activeCommits := if s.activeCommits ≠ 0 then s.activeCommits - 1
    else s.activeCommits }

def finishCheckpoint (s : RuntimeAdmission) : RuntimeAdmission :=
  if s.poisoned then s else { s with checkpointing := false }

/-- A call that succeeds moves to its guard; one that fails changes nothing. -/
def admitted (s : RuntimeAdmission) (result : Except RuntimeAdmissionError RuntimeAdmission)
    (guard : RuntimeAdmission → Pc) : RuntimeAdmission × Pc :=
  match result with
  | .ok s' => (s', guard s')
  | .error _ => (s, .idle)

def next (s : RuntimeAdmission) (p : Pc) (choice : Choice) : Option (RuntimeAdmission × Pc) :=
  match p, choice with
  | .visibility, .drop => some ({ s with locked := false }, .idle)
  | .visibility, .panic => some ({ s with locked := false, poisoned := true }, .idle)
  | _, _ =>
    if s.locked then none
    else match p, choice with
    | .idle, .admitCommit => some (s.admitted s.admitCommit fun _ => .commit)
    | .idle, .beginCheckpoint => some (s.admitted s.beginCheckpoint drain)
    | .idle, .admitVisibility => some (s.admitted s.admitVisibility fun _ => .visibility)
    | .idle, .requireRecovery => some (s.requireRecovery, .idle)
    | .draining, .wake => some (s, s.wake)
    | .commit, .drop => some (s.releaseCommit, .idle)
    | .checkpoint, .drop => some (s.finishCheckpoint, .idle)
    | _, _ => none

def system (m : ℕ) : Machine (Threads m RuntimeAdmission Pc) (Fin m × Choice) where
  init t := t.shared = new ∧ ∀ i, t.control i = .idle
  step := Threads.step next

end RuntimeAdmission

open RuntimeAdmission

variable {m : ℕ} {s s' : RuntimeAdmission} {p p' : Pc} {choice : Choice}

inductive NextCases (s : RuntimeAdmission) : Pc → RuntimeAdmission → Pc → Prop
  | refused : NextCases s .idle s .idle
  | commit : s.checkpointing = false → s.recoveryRequired = false →
      NextCases s .idle { s with activeCommits := s.activeCommits + 1 } .commit
  | capture : s.checkpointing = false → s.recoveryRequired = false → s.activeCommits = 0 →
      NextCases s .idle { s with checkpointing := true } .checkpoint
  | drain : s.checkpointing = false → s.recoveryRequired = false →
      NextCases s .idle { s with checkpointing := true } .draining
  | visibility : s.recoveryRequired = false → NextCases s .idle { s with locked := true } .visibility
  | fence : NextCases s .idle { s with recoveryRequired := true } .idle
  | abandon : NextCases s .draining s .idle
  | wait : NextCases s .draining s .draining
  | drained : s.recoveryRequired = false → s.activeCommits = 0 → NextCases s .draining s .checkpoint
  | releaseCommit : NextCases s .commit s.releaseCommit .idle
  | finishCheckpoint : NextCases s .checkpoint s.finishCheckpoint .idle
  | unlock : NextCases s .visibility { s with locked := false } .idle
  | panic : NextCases s .visibility { s with locked := false, poisoned := true } .idle

theorem mode_open (h : s.mode = .open) : s.checkpointing = false ∧ s.recoveryRequired = false := by
  unfold mode at h
  cases hrecovery : s.recoveryRequired <;> cases hcheckpoint : s.checkpointing <;> simp_all

theorem nextCases_idle {result : RuntimeAdmission × Pc} (h : NextCases s .idle result.1 result.2)
    (heq : some result = some (s', p')) : NextCases s .idle s' p' := by
  cases heq
  exact h

theorem admitCommit_cases : NextCases s .idle (s.admitted s.admitCommit fun _ => .commit).1
    (s.admitted s.admitCommit fun _ => .commit).2 := by
  unfold admitCommit
  split
  · exact .refused
  cases hmode : s.mode with
  | «open» =>
    obtain ⟨hcheckpoint, hrecovery⟩ := mode_open hmode
    by_cases hroom : s.activeCommits + 1 < 256 ^ 8
    · simp only [hroom, if_true]
      exact .commit hcheckpoint hrecovery
    · simp only [hroom, if_false]
      exact .refused
  | checkpointing => exact .refused
  | recoveryRequired => exact .refused

theorem beginCheckpoint_cases :
    NextCases s .idle (s.admitted s.beginCheckpoint drain).1 (s.admitted s.beginCheckpoint drain).2 := by
  unfold beginCheckpoint
  split
  · exact .refused
  cases hmode : s.mode with
  | «open» =>
    obtain ⟨hcheckpoint, hrecovery⟩ := mode_open hmode
    by_cases hactive : s.activeCommits = 0
    · simpa [admitted, RuntimeAdmission.drain, hactive] using NextCases.capture hcheckpoint hrecovery hactive
    · simpa [admitted, RuntimeAdmission.drain, hactive] using NextCases.drain hcheckpoint hrecovery
  | checkpointing => exact .refused
  | recoveryRequired => exact .refused

theorem admitVisibility_cases :
    NextCases s .idle (s.admitted s.admitVisibility fun _ => .visibility).1
      (s.admitted s.admitVisibility fun _ => .visibility).2 := by
  unfold admitVisibility
  split
  · exact .refused
  split
  · exact .refused
  · next hrecovery => exact .visibility (by simpa using hrecovery)

theorem wake_cases : NextCases s .draining s s.wake := by
  unfold RuntimeAdmission.wake RuntimeAdmission.drain
  split
  · exact .abandon
  next hopen =>
  by_cases hactive : s.activeCommits = 0
  · simpa [hactive] using NextCases.drained (by simpa using (not_or.mp hopen).2) hactive
  · simpa [hactive] using NextCases.wait

theorem next_cases (h : s.next p choice = some (s', p')) : NextCases s p s' p' := by
  unfold next at h
  split at h
  · cases h; exact .unlock
  · cases h; exact .panic
  · split at h
    · cases h
    · split at h
      · exact nextCases_idle admitCommit_cases h
      · exact nextCases_idle beginCheckpoint_cases h
      · exact nextCases_idle admitVisibility_cases h
      · cases h; exact .fence
      · cases h; exact wake_cases
      · cases h; exact .releaseCommit
      · cases h; exact .finishCheckpoint
      · cases h

def number (control : Fin m → Pc) (p : Pc) : ℕ := Threads.count control (· = p)

variable {control : Fin m → Pc} {i : Fin m}

theorem number_update (control : Fin m → Pc) (i : Fin m) (p q : Pc) :
    number (Function.update control i p) q + (if control i = q then 1 else 0) = number control q + if p = q
      then 1 else 0 :=
  @Threads.count_update _ _ (· = q) _ control i p

structure Inv (s : RuntimeAdmission) (control : Fin m → Pc) : Prop where
  counted : number control .commit ≤ s.activeCommits
  active : s.poisoned = false → s.activeCommits = number control .commit
  single : number control .draining + number control .checkpoint ≤ 1
  flag : s.checkpointing = false → number control .draining + number control .checkpoint = 0
  exclusive : 0 < number control .checkpoint → s.activeCommits = 0

theorem Inv.next (h : Inv s control) (hstep : NextCases s (control i) s' p') :
    Inv s' (Function.update control i p') := by
  have hcommit := number_update control i p' .commit
  have hdraining := number_update control i p' .draining
  have hcheckpoint := number_update control i p' .checkpoint
  obtain ⟨hcounted, hactive, hsingle, hflag, hexclusive⟩ := h
  generalize control i = p at hstep hcommit hdraining hcheckpoint
  cases hstep with
  | refused | fence | visibility | wait | abandon | unlock =>
    simp only [reduceCtorEq, if_true, if_false] at hcommit hdraining hcheckpoint
    exact ⟨hcounted.trans' (by omega), fun hclean => (hactive hclean).trans (by omega), by omega,
      fun hopen => by have := hflag hopen; omega, fun hheld => hexclusive (by omega)⟩
  | panic =>
    simp only [reduceCtorEq, if_false] at hcommit hdraining hcheckpoint
    exact ⟨hcounted.trans' (by omega), fun hclean => (by cases hclean), by omega,
      fun hopen => by have := hflag hopen; omega, fun hheld => hexclusive (by omega)⟩
  | commit hopen hrecovery =>
    simp only [reduceCtorEq, if_true, if_false] at hcommit hdraining hcheckpoint
    have hnone := hflag hopen
    exact ⟨by simp only; omega, fun hclean => by have := hactive hclean; simp only; omega, by omega, fun _ => by omega,
      fun hheld => by omega⟩
  | capture hopen hrecovery hzero =>
    simp only [reduceCtorEq, if_true, if_false] at hcommit hdraining hcheckpoint
    have hnone := hflag hopen
    exact ⟨by simp only; omega, fun hclean => by have := hactive hclean; simp only; omega, by omega,
      fun hclosed => (by cases hclosed), fun _ => hzero⟩
  | drain hopen hrecovery =>
    simp only [reduceCtorEq, if_true, if_false] at hcommit hdraining hcheckpoint
    have hnone := hflag hopen
    exact ⟨by simp only; omega, fun hclean => by have := hactive hclean; simp only; omega, by omega,
      fun hclosed => (by cases hclosed), fun hheld => by omega⟩
  | drained hrecovery hzero =>
    simp only [reduceCtorEq, if_true, if_false] at hcommit hdraining hcheckpoint
    exact ⟨by omega, fun hclean => by have := hactive hclean; omega, by omega,
      fun hopen => by have := hflag hopen; omega,
      fun _ => hzero⟩
  | releaseCommit =>
    simp only [reduceCtorEq, if_true, if_false] at hcommit hdraining hcheckpoint
    unfold RuntimeAdmission.releaseCommit
    cases hclean : s.poisoned with
    | true =>
      exact ⟨by simp only [if_true]; omega, fun h => by simp [hclean] at h, by omega,
        fun hopen => by have := hflag hopen; omega,
        fun hheld => hexclusive (by omega)⟩
    | false =>
      have hsame := hactive hclean
      have hpos : s.activeCommits ≠ 0 := by omega
      simp only [Bool.false_eq_true, if_false, if_pos hpos]
      exact ⟨by simp only; omega, fun _ => by simp only; omega, by omega, fun hopen => by have := hflag hopen; omega,
        fun hheld => by have := hexclusive (by omega); simp only; omega⟩
  | finishCheckpoint =>
    simp only [reduceCtorEq, if_true, if_false] at hcommit hdraining hcheckpoint
    unfold RuntimeAdmission.finishCheckpoint
    cases hclean : s.poisoned with
    | true =>
      exact ⟨by simp only [if_true]; omega, fun h => by simp [hclean] at h, by omega,
        fun hopen => by have := hflag hopen; omega,
        fun hheld => by omega⟩
    | false =>
      have hsame := hactive hclean
      exact ⟨hcounted.trans' (by omega), fun _ => hsame.trans (by omega), by omega, fun _ => by omega,
        fun hheld => by omega⟩

theorem inv_of_reachable {t : Threads m RuntimeAdmission Pc} (h : (system m).Reachable t) : Inv t.shared t.control := by
  refine h.invariant (P := fun t => Inv t.shared t.control) ?_ ?_
  · rintro t ⟨hshared, hidle⟩
    have hzero : ∀ p, p ≠ .idle → number t.control p = 0 := fun p hp =>
      Threads.count_eq_zero fun i hi => hp (hi.symm.trans (hidle i))
    rw [hshared]
    refine ⟨(hzero .commit (by decide)).le, fun _ => (hzero .commit (by decide)).symm, ?_, fun _ => ?_, fun _ => rfl⟩
    all_goals simp [hzero]
  · intro t a t' hinv _ hstep
    obtain ⟨s, p, hnext, rfl⟩ := Threads.step_eq_some.mp hstep
    exact hinv.next (next_cases hnext)

def Pc.Admitted : Pc → Prop
  | .commit | .checkpoint | .visibility => True
  | .idle | .draining => False

/-- What a fenced runtime answers to a new admission: the lock is taken before the fence is read. -/
def RuntimeAdmission.refusal (s : RuntimeAdmission) : RuntimeAdmissionError :=
  if s.poisoned then .poisoned else .recoveryRequired

theorem fenced_step (hfence : s.recoveryRequired = true) (hstep : NextCases s p s' p') :
    s'.recoveryRequired = true ∧ (p'.Admitted → p' = p) := by
  cases hstep with
  | refused | fence | wait | abandon | unlock | panic => exact ⟨by simp_all, False.elim⟩
  | releaseCommit => exact ⟨by unfold releaseCommit; split <;> exact hfence, False.elim⟩
  | finishCheckpoint => exact ⟨by unfold finishCheckpoint; split <;> exact hfence, False.elim⟩
  | commit _ hopen | capture _ hopen | drain _ hopen | visibility hopen | drained hopen => simp [hopen] at hfence

theorem fenced_run {t t' : Threads m RuntimeAdmission Pc} (hfence : t.shared.recoveryRequired = true)
    {acts : List (Fin m × Choice)} (hrun : (system m).run t acts = some t') :
    t'.shared.recoveryRequired = true ∧ ∀ i, (t'.control i).Admitted → t'.control i = t.control i := by
  induction acts generalizing t with
  | nil => cases hrun; exact ⟨hfence, fun _ _ => rfl⟩
  | cons a acts ih =>
    obtain ⟨u, hu, hrest⟩ := Option.bind_eq_some_iff.mp hrun
    obtain ⟨s, p, hnext, rfl⟩ := Threads.step_eq_some.mp hu
    obtain ⟨hkept, hnew⟩ := fenced_step hfence (next_cases hnext)
    obtain ⟨hend, hguards⟩ := ih hkept hrest
    refine ⟨hend, fun i hi => ?_⟩
    have hsame := hguards i hi
    by_cases hia : i = a.1
    · subst hia
      rw [hsame] at hi ⊢
      simp only [Threads.move, Function.update_self] at hi ⊢
      exact hnew hi
    · rw [hsame]
      exact Function.update_of_ne hia p t.control

/-- While a checkpoint admission is held no commit is active and none is admitted; the count of active
commits is the number of live commit guards, unless a panic has poisoned the lock; and once recovery is
required it stays required, every new admission is refused, and no thread has a guard it did not have
before. -/
theorem admission_exclusive {t : Threads m RuntimeAdmission Pc} (h : (system m).Reachable t) :
    (∀ i, t.control i = .checkpoint → t.shared.activeCommits = 0 ∧ (∀ j, t.control j ≠ .commit) ∧
      ∃ error, t.shared.admitCommit = .error error) ∧
    (t.shared.poisoned = false → t.shared.activeCommits = number t.control .commit) ∧
    (t.shared.recoveryRequired = true → ∀ (acts : List (Fin m × Choice)) (t' : Threads m RuntimeAdmission Pc),
      (system m).run t acts = some t' → t'.shared.recoveryRequired = true ∧
      (∀ i, (t'.control i).Admitted → t'.control i = t.control i) ∧
      t'.shared.admitCommit = .error t'.shared.refusal ∧ t'.shared.beginCheckpoint = .error t'.shared.refusal ∧
      t'.shared.admitVisibility = .error t'.shared.refusal ∧
        t'.shared.ensureReadAdmission = .error .recoveryRequired) := by
  have hinv := inv_of_reachable h
  refine ⟨fun i hi => ?_, hinv.active, fun hfence acts t' hrun => ?_⟩
  · have hheld : 0 < number t.control .checkpoint := Threads.count_pos hi
    have hzero := hinv.exclusive hheld
    refine ⟨hzero, fun j hj => ?_, ?_⟩
    · have hpos : 0 < number t.control .commit := Threads.count_pos hj
      have := hinv.counted
      omega
    · have hflag : t.shared.checkpointing = true := by
        by_contra hopen
        have := hinv.flag (by simpa using hopen)
        omega
      cases hpoisoned : t.shared.poisoned with
      | true => exact ⟨.poisoned, by simp [admitCommit, hpoisoned]⟩
      | false =>
        cases hrecovery : t.shared.recoveryRequired with
        | true => exact ⟨.recoveryRequired, by simp [admitCommit, mode, hpoisoned, hrecovery]⟩
        | false => exact ⟨.checkpointInProgress, by simp [admitCommit, mode, hpoisoned, hrecovery, hflag]⟩
  · obtain ⟨hkept, hguards⟩ := fenced_run hfence hrun
    refine ⟨hkept, hguards, ?_, ?_, ?_, by simp [ensureReadAdmission, hkept]⟩
    all_goals
      cases hpoisoned : t'.shared.poisoned <;>
        simp [admitCommit, beginCheckpoint, admitVisibility, refusal, mode, hkept, hpoisoned]

/-- A commit is admitted, a checkpoint waits for it and gets its guard, and the runtime is fenced under it. -/
def drainActs : List (Fin 3 × Choice) :=
  [(0, .admitCommit), (1, .beginCheckpoint), (1, .wake), (0, .drop), (1, .wake), (2, .requireRecovery)]

theorem admission_exclusive_drained : ∃ t : Threads 3 RuntimeAdmission Pc, (system 3).Reachable t ∧
    t.control 1 = .checkpoint ∧
    t.shared.recoveryRequired = true ∧ t.shared.activeCommits = 0 ∧ ∀ acts t', (system 3).run t acts = some t' →
    t'.shared.recoveryRequired = true := by
  let start : Threads 3 RuntimeAdmission Pc := ⟨.new, fun _ => .idle⟩
  have hrun : ((system 3).run start drainActs).map (fun t => (t.shared, t.control)) =
      some (⟨true, 0, true, false, false⟩, ![.idle, .checkpoint, .idle]) := by decide +kernel
  obtain ⟨t, ht, hend⟩ := Option.map_eq_some_iff.mp hrun
  have hreach : (system 3).Reachable t := Machine.reachable_run (.init ⟨rfl, fun _ => rfl⟩) ht
  have hcontrol : t.control 1 = .checkpoint := congrArg (fun r : RuntimeAdmission × (Fin 3 → Pc) => r.2 1) hend
  have hfence : t.shared.recoveryRequired = true :=
    congrArg (fun r : RuntimeAdmission × (Fin 3 → Pc) => r.1.recoveryRequired) hend
  obtain ⟨hexclusive, -, hfenced⟩ := admission_exclusive hreach
  exact ⟨t, hreach, hcontrol, hfence, (hexclusive 1 hcontrol).1, fun acts t' hrun => (hfenced hfence acts t' hrun).1⟩

end OmenDb.Vnext.Admission
