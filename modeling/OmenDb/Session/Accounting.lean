import OmenDb.Session.Admission

/-! The counters of a session against the history of its calls. Every action is weighed by how the call
it belongs to ends, and the weights are added up along a run. A refusal by a busy or closing session is
counted twice, so the counter of refusals is exact only until the first of these. -/
namespace OmenDb.Session

/-- `OperationControl::check` objects to nothing but a cancellation or a passed deadline. -/
def Observation.Controlled (seen : Observation) : Prop :=
  ∀ error, seen.check = some error ∨ seen.recheck = some error → error = .cancelled ∨ error = .deadlineExceeded

def Action.Controlled : Action → Prop
  | .call _ seen => seen.Controlled
  | .wake _ seen => seen.Controlled
  | _ => True

def Outcome.admits : Outcome → ℕ
  | .admitted => 1
  | _ => 0

def Outcome.refuses : Outcome → ℕ
  | .rejected .cancelled | .rejected .deadlineExceeded | .rejected .sessionBusy | .rejected .sessionClosing => 1
  | _ => 0

/-- How a turn of `acquire` ends, where the action is one. -/
def outcome (config : SessionConfig) (session : OperationAdmission) (action : Action) : Outcome :=
  let turn : Option (AdmissionState × Outcome) :=
    match action with
    | .call kind seen => acquireTurn config session.admission kind false seen
    | .wake i seen => (session.waiters[i]?).bind fun kind => acquireTurn config session.admission kind true seen
    | _ => none
  match session.poisoned, turn with
  | false, some (_, outcome) => outcome
  | _, _ => .parked

/-- A `begin_close` refused because operations are active. -/
def closeRefuses (session : OperationAdmission) : Action → ℕ
  | .beginClose => if session.poisoned = false ∧ (beginClose session.admission).2 = .error .sessionBusy then 1 else 0
  | _ => 0

def releases : Action → ℕ
  | .release .. => 1
  | _ => 0

/-- The control has no objection, and the session is closing, or blocks the operation to the end of
its waiting time. -/
def TurnedAway (config : SessionConfig) (state : AdmissionState) (kind : OperationKind) (seen : Observation) : Prop :=
  seen.check = none ∧ (state.closing = true ∨
    (blocked config state kind = true ∧ remaining config seen = 0 ∧ seen.recheck = none))

instance (config : SessionConfig) (state : AdmissionState) (kind : OperationKind) (seen : Observation) :
    Decidable (TurnedAway config state kind seen) :=
  inferInstanceAs (Decidable (_ ∧ _))

def turnedAway (config : SessionConfig) (session : OperationAdmission) : Action → Bool
  | .call kind seen => decide (TurnedAway config session.admission kind seen)
  | .wake i seen => (session.waiters[i]?).any fun kind => decide (TurnedAway config session.admission kind seen)
  | _ => false

variable {config : SessionConfig} {state state' : AdmissionState} {kind : OperationKind} {waiting : Bool}
  {seen : Observation}

structure SameCounts (state state' : AdmissionState) : Prop where
  rejected : state'.rejectedOperations = state.rejectedOperations
  completed : state'.completedOperations = state.completedOperations
  active : state'.activeOperations = state.activeOperations

theorem SameCounts.trans {s₁ s₂ s₃ : AdmissionState} (h : SameCounts s₁ s₂) (h' : SameCounts s₂ s₃) :
    SameCounts s₁ s₃ :=
  ⟨h'.rejected.trans h.rejected, h'.completed.trans h.completed, h'.active.trans h.active⟩

theorem removeWaiter_counts (h : removeWaiter state kind waiting = some state') : SameCounts state state' := by
  unfold removeWaiter at h
  split at h
  · cases h
    exact ⟨rfl, rfl, rfl⟩
  · split at h
    · cases h
    · split at h
      · split at h
        · cases h
        · cases h
          exact ⟨rfl, rfl, rfl⟩
      · cases h
        exact ⟨rfl, rfl, rfl⟩

/-- What a turn adds to the three counters; `away` tells that the session turned the operation away. -/
structure TurnCounts (state state' : AdmissionState) (outcome : Outcome) (away : Bool) : Prop where
  rejected : state'.rejectedOperations = min (state.rejectedOperations + (outcome.refuses + away.toNat)) u64Max
  completed : state'.completedOperations = state.completedOperations
  active : state'.activeOperations = state.activeOperations + outcome.admits

theorem turnCounts_control {left : AdmissionState} {error : SessionError} (h : SameCounts state left)
    (herror : error = .cancelled ∨ error = .deadlineExceeded) :
    TurnCounts state (recordControlRejection left error) (.rejected error) false := by
  rcases herror with rfl | rfl <;> exact ⟨h.rejected ▸ rfl, h.completed, h.active⟩

theorem turnCounts_away {left : AdmissionState} {error : SessionError} (h : SameCounts state left)
    (hone : (Outcome.rejected error).refuses = 1) :
    TurnCounts state (recordAdmissionRejection (recordAdmissionRejection left)) (.rejected error) true := by
  refine ⟨?_, h.completed, h.active⟩
  simp only [recordAdmissionRejection, saturatingAdd, h.rejected, hone, Bool.toNat_true]
  omega

theorem acquireTurn_counts {outcome : Outcome} (hcontrol : seen.Controlled)
    (hbound : state.rejectedOperations ≤ u64Max)
    (h : acquireTurn config state kind waiting seen = some (state', outcome)) :
    TurnCounts state state' outcome (decide (TurnedAway config state kind seen)) := by
  unfold acquireTurn at h
  cases hcheck : seen.check with
  | some error =>
    simp only [hcheck] at h
    obtain ⟨left, hleft, h⟩ := Option.bind_eq_some_iff.mp h
    cases h
    simpa [TurnedAway, hcheck] using turnCounts_control (removeWaiter_counts hleft) (hcontrol error (.inl hcheck))
  | none =>
    simp only [hcheck] at h
    cases hclosing : state.closing with
    | true =>
      simp only [hclosing, if_true] at h
      obtain ⟨left, hleft, h⟩ := Option.bind_eq_some_iff.mp h
      cases h
      simpa [TurnedAway, hcheck, hclosing] using turnCounts_away (removeWaiter_counts hleft) rfl
    | false =>
      simp only [hclosing, Bool.false_eq_true, if_false] at h
      cases hblocked : blocked config state kind with
      | false =>
        simp only [hblocked, Bool.not_false, if_true] at h
        obtain ⟨left, hleft, h⟩ := Option.bind_eq_some_iff.mp h
        cases h
        have hsame := removeWaiter_counts hleft
        exact ⟨by simp [hsame.rejected, TurnedAway, hclosing, hblocked, Outcome.refuses, hbound], hsame.completed,
          congrArg (· + 1) hsame.active⟩
      | true =>
        simp only [hblocked, Bool.not_true, Bool.false_eq_true, if_false] at h
        have hparked : SameCounts state (if waiting = true then state else addWaiter state kind) := by
          split <;> exact ⟨rfl, rfl, rfl⟩
        generalize (if waiting = true then state else addWaiter state kind) = parked at h hparked
        by_cases htime : remaining config seen = 0
        · simp only [htime, if_true] at h
          cases hrecheck : seen.recheck with
          | some error =>
            simp only [hrecheck] at h
            obtain ⟨left, hleft, h⟩ := Option.bind_eq_some_iff.mp h
            cases h
            simpa [TurnedAway, hclosing, hrecheck] using
              turnCounts_control (hparked.trans (removeWaiter_counts hleft)) (hcontrol error (.inr hrecheck))
          | none =>
            simp only [hrecheck] at h
            obtain ⟨left, hleft, h⟩ := Option.bind_eq_some_iff.mp h
            cases h
            simpa [TurnedAway, hcheck, hblocked, htime, hrecheck] using
              turnCounts_away (hparked.trans (removeWaiter_counts hleft)) rfl
        · simp only [htime, if_false] at h
          cases h
          exact ⟨by simp [hparked.rejected, TurnedAway, hclosing, htime, Outcome.refuses, hbound], hparked.completed,
            hparked.active⟩

def recorded (config : SessionConfig) (session : OperationAdmission) (action : Action) : ℕ :=
  (outcome config session action).refuses + closeRefuses session action + (turnedAway config session action).toNat

theorem step_counts {session session' : OperationAdmission} {action : Action} (hsound : Sound config session)
    (hcontrol : action.Controlled) (hrejected : session.admission.rejectedOperations ≤ u64Max)
    (hcompleted : session.admission.completedOperations ≤ u64Max)
    (hstep : session.step config action = some session') :
    session'.admission.rejectedOperations =
        min (session.admission.rejectedOperations + recorded config session action) u64Max ∧
      session'.admission.completedOperations =
        min (session.admission.completedOperations + releases action) u64Max ∧
      session'.admission.activeOperations + releases action =
        session.admission.activeOperations + (outcome config session action).admits := by
  have hintact := hsound.intact
  have hroom := hsound.room
  cases action with
  | call kind seen =>
    simp only [OperationAdmission.step, hintact, Bool.false_eq_true, if_false] at hstep
    split at hstep
    · obtain ⟨state', ending, hturn, -⟩ := @acquireTurn_spec config session.admission kind session.permits
        session.waiters false seen (by omega) hsound.tally
      have hcounts := acquireTurn_counts hcontrol hrejected hturn
      have hsettled : session'.admission = state' := by
        rw [hturn] at hstep
        cases hstep
        cases ending <;> rfl
      have hending : outcome config session (.call kind seen) = ending := by simp [outcome, hintact, hturn]
      simp [hsettled, hcounts.rejected, hcounts.completed, hcounts.active, recorded, hending, closeRefuses, turnedAway,
        releases, hcompleted]
    · cases hstep
  | wake i seen =>
    simp only [OperationAdmission.step, hintact, Bool.false_eq_true, if_false] at hstep
    split at hstep
    · cases hstep
    · rename_i kind hkind
      have hperm := getElem?_cons_eraseIdx_perm hkind
      have hlength := hperm.length_eq
      rw [List.length_cons] at hlength
      obtain ⟨state', ending, hturn, -⟩ := @acquireTurn_spec config session.admission kind session.permits
        (session.waiters.eraseIdx i) true seen (by omega) (hsound.tally.perm hperm)
      have hcounts := acquireTurn_counts hcontrol hrejected hturn
      have hsettled : session'.admission = state' := by
        rw [hturn] at hstep
        cases hstep
        cases ending <;> rfl
      have hending : outcome config session (.wake i seen) = ending := by simp [outcome, hintact, hkind, hturn]
      simp [hsettled, hcounts.rejected, hcounts.completed, hcounts.active, recorded, hending, closeRefuses, turnedAway,
        hkind, releases, hcompleted]
  | release i admissionWait operationTime =>
    simp only [OperationAdmission.step, hintact, Bool.false_eq_true, if_false] at hstep
    split at hstep
    · cases hstep
    · rename_i kind hkind
      have hperm := getElem?_cons_eraseIdx_perm hkind
      have hheld : Tally session.admission (kind :: session.permits.eraseIdx i) session.waiters :=
        ⟨hsound.tally.active.trans hperm.length_eq, hsound.tally.writers.trans (hperm.count_eq _),
          hsound.tally.waiting, hsound.tally.waitingWriters⟩
      have hactive := hheld.active
      obtain ⟨state', hrelease, -⟩ := @release_spec session.admission kind _ _ admissionWait operationTime hheld
      simp only [hrelease] at hstep
      cases hstep
      unfold release at hrelease
      split at hrelease
      · cases hrelease
      · split at hrelease
        · cases hrelease
        · cases hrelease
          rw [List.length_cons] at hactive
          simp [recorded, outcome, hintact, closeRefuses, turnedAway, releases, saturatingAdd, Outcome.refuses,
            Outcome.admits, hrejected]
          omega
  | beginClose =>
    simp only [OperationAdmission.step, hintact, Bool.false_eq_true, if_false] at hstep
    cases hstep
    unfold beginClose
    simp only [recorded, outcome, hintact, closeRefuses, turnedAway, releases, beginClose]
    split
    · simp [recordAdmissionRejection, saturatingAdd, Outcome.refuses, Outcome.admits, hcompleted]
    · split <;> simp [Outcome.refuses, Outcome.admits, hcompleted, hrejected]

theorem run_counts {start session : OperationAdmission} {actions : List Action}
    (hnew : OperationAdmission.new config = .ok start) (hcontrol : ∀ action ∈ actions, action.Controlled)
    (hrun : (sessions config).run start actions = some session) :
    session.admission.rejectedOperations = min ((sessions config).total (recorded config) start actions) u64Max ∧
      session.admission.completedOperations =
        min ((sessions config).total (fun _ => releases) start actions) u64Max ∧
      session.admission.activeOperations + (sessions config).total (fun _ => releases) start actions =
        (sessions config).total (fun before action => (outcome config before action).admits) start actions := by
  -- soundness carries the step's counters, and the counters stay within their type
  have hkept : ∀ before action after, (Sound config before ∧ before.admission.rejectedOperations ≤ u64Max ∧
      before.admission.completedOperations ≤ u64Max) → action.Controlled →
      (sessions config).step before action = some after →
      Sound config after ∧ after.admission.rejectedOperations ≤ u64Max ∧
        after.admission.completedOperations ≤ u64Max := by
    rintro before action after ⟨hsound, hr, hc⟩ hcontrolled hstep
    obtain ⟨h1, h2, -⟩ := step_counts hsound hcontrolled hr hc hstep
    exact ⟨hsound.step hstep, h1 ▸ min_le_right _ _, h2 ▸ min_le_right _ _⟩
  obtain ⟨hr0, hc0, ha0⟩ : start.admission.rejectedOperations = 0 ∧ start.admission.completedOperations = 0 ∧
      start.admission.activeOperations = 0 := by
    unfold OperationAdmission.new at hnew
    split at hnew
    · cases hnew
    · split at hnew
      · cases hnew
      · cases hnew
        exact ⟨rfl, rfl, rfl⟩
  have hstart : Sound config start ∧ start.admission.rejectedOperations ≤ u64Max ∧
      start.admission.completedOperations ≤ u64Max := ⟨Sound.new hnew, by omega, by omega⟩
  refine ⟨?_, ?_, ?_⟩
  · have h := Machine.run_total (fun before action after hb ha hstep =>
      ⟨hkept before action after hb ha hstep, (step_counts hb.1 ha hb.2.1 hb.2.2 hstep).1⟩) hstart hstart.2.1
      hcontrol hrun
    rw [h.2, hr0, zero_add]
  · have h := Machine.run_total (fun before action after hb ha hstep =>
      ⟨hkept before action after hb ha hstep, (step_counts hb.1 ha hb.2.1 hb.2.2 hstep).2.1⟩) hstart hstart.2.2
      hcontrol hrun
    rw [h.2, hc0, zero_add]
  · have h := Machine.run_balance (fun before action after hb ha hstep =>
      ⟨hkept before action after hb ha hstep, (step_counts hb.1 ha hb.2.1 hb.2.2 hstep).2.2⟩) hstart hcontrol hrun
    rw [h, ha0, zero_add]

/-- Below saturation, the refusals are the refused calls plus the refused attempts to close, and every
admitted operation is active or completed, exactly as long as no call was turned away by the session. -/
theorem session_accounting {start session : OperationAdmission} {actions : List Action}
    (hnew : OperationAdmission.new config = .ok start) (hcontrol : ∀ action ∈ actions, action.Controlled)
    (hrun : (sessions config).run start actions = some session)
    (hrejected : session.admission.rejectedOperations < u64Max)
    (hcompleted : session.admission.completedOperations < u64Max) :
    (session.admission.rejectedOperations =
        (sessions config).total (fun before action => (outcome config before action).refuses) start actions +
          (sessions config).total closeRefuses start actions ∧
      session.admission.completedOperations + session.admission.activeOperations =
        (sessions config).total (fun before action => (outcome config before action).admits) start actions) ↔
    ∀ earlier action later before, actions = earlier ++ action :: later →
      (sessions config).run start earlier = some before → turnedAway config before action = false := by
  obtain ⟨hr, hc, ha⟩ := run_counts hnew hcontrol hrun
  have hsplit : (sessions config).total (recorded config) start actions =
      (sessions config).total (fun before action => (outcome config before action).refuses) start actions +
        (sessions config).total closeRefuses start actions +
        (sessions config).total (fun before action => (turnedAway config before action).toNat) start actions := by
    rw [← Machine.total_add, ← Machine.total_add]
    rfl
  have hnone := @Machine.total_eq_zero_iff _ _ (sessions config)
    (fun before action => (turnedAway config before action).toNat) _ _ _ hrun
  simp only [Bool.toNat_eq_zero] at hnone
  rw [← hnone]
  omega

/-- A writer holds the only permit; a reader that has waited its whole time is refused. -/
theorem refusal_counted_twice :
    let actions : List Action := [.call .write calm, .call .read ⟨none, 10, none, none⟩]
    ∃ start session, OperationAdmission.new soloConfig = .ok start ∧
      (sessions soloConfig).run start actions = some session ∧ (∀ action ∈ actions, action.Controlled) ∧
      session.admission.rejectedOperations = 2 ∧
      (sessions soloConfig).total (fun before action => (outcome soloConfig before action).refuses) start actions = 1 ∧
      (sessions soloConfig).total closeRefuses start actions = 0 := by
  refine ⟨_, ⟨⟨1, 1, 0, 0, false, 0, 0, 0, 0, 0, 2, 0, 0⟩, false, [], [.write]⟩, rfl, by decide +kernel, ?_, rfl,
    by decide +kernel, by decide +kernel⟩
  simp [Action.Controlled, Observation.Controlled, calm]

/-- A deadline met before the first turn is counted once. -/
theorem session_accounting_deadline :
    let actions : List Action := [.call .write calm, .call .read ⟨some .deadlineExceeded, 0, none, none⟩]
    ∃ start session, OperationAdmission.new soloConfig = .ok start ∧
      (sessions soloConfig).run start actions = some session ∧
      (session.admission.rejectedOperations =
          (sessions soloConfig).total (fun before action => (outcome soloConfig before action).refuses) start actions +
            (sessions soloConfig).total closeRefuses start actions ∧
        session.admission.completedOperations + session.admission.activeOperations =
          (sessions soloConfig).total (fun before action => (outcome soloConfig before action).admits) start
            actions) := by
  refine ⟨_, ⟨⟨1, 1, 0, 0, false, 0, 0, 0, 0, 0, 1, 0, 1⟩, false, [], [.write]⟩, rfl, by decide +kernel, ?_⟩
  refine (session_accounting rfl ?_ (by decide +kernel) (by decide) (by decide)).mpr ?_
  · simp [Action.Controlled, Observation.Controlled, calm]
  · intro earlier action later before hactions hearlier
    rw [← Bool.toNat_eq_zero]
    exact (@Machine.total_eq_zero_iff _ _ (sessions soloConfig)
      (fun before action => (turnedAway soloConfig before action).toNat) _
      ⟨⟨1, 1, 0, 0, false, 0, 0, 0, 0, 0, 1, 0, 1⟩, false, [], [.write]⟩ _ (by decide +kernel)).mp (by decide +kernel)
      earlier action later before hactions hearlier

end OmenDb.Session
