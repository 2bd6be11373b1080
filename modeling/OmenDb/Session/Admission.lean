import OmenDb.Lib.Machine

/-! Admission of operations to a session. One lock guards the counters; an operation holds it for
one turn of the loop in `acquire`, from the call or a wake-up until it is admitted, rejected or
parked on the condition variable. Parked operations and held permits are listed beside the
counters, so that what the counters stand for can be stated. -/
namespace OmenDb.Session

def usizeMax : ℕ := 2 ^ 64 - 1
def u64Max : ℕ := 2 ^ 64 - 1

/-- `Duration::MAX`, in nanoseconds. -/
def durationMax : ℕ := u64Max * 10 ^ 9 + 999999999

def saturatingAdd (bound a b : ℕ) : ℕ := min (a + b) bound

inductive SessionError
  | cancelled | deadlineExceeded | sessionClosing | sessionBusy
  | invalidState (message : String)
  deriving DecidableEq

/-- `RelationalSessionConfig`; durations are nanoseconds. -/
structure SessionConfig where
  maxInFlight : ℕ
  admissionTimeout : ℕ
  fits : maxInFlight ≤ usizeMax

inductive OperationKind
  | read | write
  deriving DecidableEq

structure AdmissionState where
  activeOperations : ℕ
  activeWriters : ℕ
  waitingOperations : ℕ
  waitingWriters : ℕ
  closing : Bool
  completedOperations : ℕ
  totalAdmissionWait : ℕ
  maxAdmissionWait : ℕ
  totalOperationTime : ℕ
  maxOperationTime : ℕ
  rejectedOperations : ℕ
  cancelledOperations : ℕ
  deadlineExpiredOperations : ℕ
  deriving DecidableEq

/-- What an operation sees in a turn: the answers of its control and the clock. -/
structure Observation where
  check : Option SessionError
  elapsed : ℕ
  untilDeadline : Option ℕ
  recheck : Option SessionError

/-- `remove_waiter`; an underflow panics. -/
def removeWaiter (state : AdmissionState) (kind : OperationKind) (waiting : Bool) : Option AdmissionState :=
  if !waiting then some state
  else if state.waitingOperations = 0 then none
  else if kind = .write then
    if state.waitingWriters = 0 then none
    else some { state with
      waitingOperations := state.waitingOperations - 1, waitingWriters := state.waitingWriters - 1 }
  else some { state with waitingOperations := state.waitingOperations - 1 }

def recordAdmissionRejection (state : AdmissionState) : AdmissionState :=
  { state with rejectedOperations := saturatingAdd u64Max state.rejectedOperations 1 }

def recordControlRejection (state : AdmissionState) : SessionError → AdmissionState
  | .cancelled => { recordAdmissionRejection state with
      cancelledOperations := saturatingAdd u64Max state.cancelledOperations 1 }
  | .deadlineExceeded => { recordAdmissionRejection state with
      deadlineExpiredOperations := saturatingAdd u64Max state.deadlineExpiredOperations 1 }
  | _ => state

def blocked (config : SessionConfig) (state : AdmissionState) (kind : OperationKind) : Bool :=
  config.maxInFlight ≤ state.activeOperations ||
    (kind == .write && state.activeOperations != 0) ||
    (kind == .read && (state.activeWriters != 0 || state.waitingWriters != 0))

def addWaiter (state : AdmissionState) (kind : OperationKind) : AdmissionState :=
  { state with
    waitingOperations := saturatingAdd usizeMax state.waitingOperations 1
    waitingWriters :=
      if kind = .write then saturatingAdd usizeMax state.waitingWriters 1 else state.waitingWriters }

inductive Outcome
  | admitted
  | rejected (error : SessionError)
  | parked

def remaining (config : SessionConfig) (seen : Observation) : ℕ :=
  min (config.admissionTimeout - seen.elapsed) (seen.untilDeadline.getD config.admissionTimeout)

/-- One turn of the loop in `acquire`; `none` is a panic. A rejection by a closing session is
recorded twice, as in the source. -/
def acquireTurn (config : SessionConfig) (state : AdmissionState) (kind : OperationKind) (waiting : Bool)
    (seen : Observation) : Option (AdmissionState × Outcome) :=
  match seen.check with
  | some error => do
    let state ← removeWaiter state kind waiting
    return (recordControlRejection state error, .rejected error)
  | none =>
    if state.closing then do
      let state ← removeWaiter state kind waiting
      return (recordAdmissionRejection (recordAdmissionRejection state), .rejected .sessionClosing)
    else if !blocked config state kind then do
      let state ← removeWaiter state kind waiting
      return ({ state with
        activeOperations := state.activeOperations + 1
        activeWriters := if kind = .write then state.activeWriters + 1 else state.activeWriters }, .admitted)
    else
      let state := if waiting then state else addWaiter state kind
      if remaining config seen = 0 then
        match seen.recheck with
        | some error => do
          let state ← removeWaiter state kind true
          return (recordControlRejection state error, .rejected error)
        | none => do
          let state ← removeWaiter state kind true
          return (recordAdmissionRejection (recordAdmissionRejection state), .rejected .sessionBusy)
      else some (state, .parked)

/-- `release`; an underflow panics. -/
def release (state : AdmissionState) (kind : OperationKind) (admissionWait operationTime : ℕ) :
    Option AdmissionState :=
  if state.activeOperations = 0 then none
  else if kind = .write ∧ state.activeWriters = 0 then none
  else some { state with
    activeOperations := state.activeOperations - 1
    activeWriters := if kind = .write then state.activeWriters - 1 else state.activeWriters
    completedOperations := saturatingAdd u64Max state.completedOperations 1
    totalAdmissionWait := saturatingAdd durationMax state.totalAdmissionWait admissionWait
    maxAdmissionWait := max state.maxAdmissionWait admissionWait
    totalOperationTime := saturatingAdd durationMax state.totalOperationTime operationTime
    maxOperationTime := max state.maxOperationTime operationTime }

def beginClose (state : AdmissionState) : AdmissionState × Except SessionError Unit :=
  if state.activeOperations ≠ 0 then (recordAdmissionRejection state, .error .sessionBusy)
  else if state.closing then (state, .error .sessionClosing)
  else ({ state with closing := true }, .ok ())

/-- The lock's contents, whether a panic has poisoned it, the kinds of the parked operations and of
the held permits. -/
structure OperationAdmission where
  admission : AdmissionState
  poisoned : Bool
  waiters : List OperationKind
  permits : List OperationKind
  deriving DecidableEq

def OperationAdmission.new (config : SessionConfig) : Except SessionError OperationAdmission :=
  if config.maxInFlight = 0 then .error (.invalidState "session max_in_flight must be positive")
  else if config.admissionTimeout = 0 then .error (.invalidState "session admission_timeout must be positive")
  else .ok ⟨⟨0, 0, 0, 0, false, 0, 0, 0, 0, 0, 0, 0, 0⟩, false, [], []⟩

inductive Action
  | call (kind : OperationKind) (seen : Observation)
  | wake (i : ℕ) (seen : Observation)
  | release (i : ℕ) (admissionWait operationTime : ℕ)
  | beginClose

def OperationAdmission.settle (session : OperationAdmission) (kind : OperationKind) :
    Option (AdmissionState × Outcome) → OperationAdmission
  | none => { session with poisoned := true }
  | some (state, .admitted) => { session with admission := state, permits := kind :: session.permits }
  | some (state, .rejected _) => { session with admission := state }
  | some (state, .parked) => { session with admission := state, waiters := kind :: session.waiters }

/-- A call needs a thread of its own, and there are fewer of those than addresses. A wake-up is
spurious, a notification or the end of the wait. On a poisoned lock operations fail where they
stand, and a dropped permit changes nothing. -/
def OperationAdmission.step (config : SessionConfig) (session : OperationAdmission) :
    Action → Option OperationAdmission
  | .call kind seen =>
    if session.waiters.length + session.permits.length < usizeMax then
      some (if session.poisoned then session
        else session.settle kind (acquireTurn config session.admission kind false seen))
    else none
  | .wake i seen =>
    match session.waiters[i]? with
    | none => none
    | some kind =>
      let rest := { session with waiters := session.waiters.eraseIdx i }
      some (if session.poisoned then rest
        else rest.settle kind (acquireTurn config session.admission kind true seen))
  | .release i admissionWait operationTime =>
    match session.permits[i]? with
    | none => none
    | some kind =>
      let rest := { session with permits := session.permits.eraseIdx i }
      if session.poisoned then some rest
      else
        match Session.release session.admission kind admissionWait operationTime with
        | none => some { rest with poisoned := true }
        | some state => some { rest with admission := state }
  | .beginClose =>
    some (if session.poisoned then session
      else { session with admission := (Session.beginClose session.admission).1 })

def sessions (config : SessionConfig) : Machine OperationAdmission Action where
  init session := OperationAdmission.new config = .ok session
  step := OperationAdmission.step config

/-- The counters count the permits and the parked operations. -/
structure Tally (state : AdmissionState) (permits waiters : List OperationKind) : Prop where
  active : state.activeOperations = permits.length
  writers : state.activeWriters = permits.count .write
  waiting : state.waitingOperations = waiters.length
  waitingWriters : state.waitingWriters = waiters.count .write

variable {config : SessionConfig} {state state' : AdmissionState} {kind : OperationKind}
  {permits waiters : List OperationKind}

theorem Tally.perm {waiters' : List OperationKind} (h : Tally state permits waiters) (hp : waiters.Perm waiters') :
    Tally state permits waiters' :=
  ⟨h.active, h.writers, h.waiting.trans hp.length_eq, h.waitingWriters.trans (hp.count_eq _)⟩

theorem removeWaiter_parked (h : Tally state permits (kind :: waiters)) :
    ∃ state', removeWaiter state kind true = some state' ∧ Tally state' permits waiters ∧
      state'.closing = state.closing := by
  have hwaiting := h.waiting
  have hwriters := h.waitingWriters
  rw [List.length_cons] at hwaiting
  cases kind with
  | read =>
    rw [List.count_cons_of_ne (by decide)] at hwriters
    refine ⟨{ state with waitingOperations := state.waitingOperations - 1 }, ?_,
      ⟨h.active, h.writers, ?_, hwriters⟩, rfl⟩
    · simp [removeWaiter, hwaiting]
    · simp [hwaiting]
  | write =>
    rw [List.count_cons_self] at hwriters
    refine ⟨{ state with
      waitingOperations := state.waitingOperations - 1, waitingWriters := state.waitingWriters - 1 }, ?_,
      ⟨h.active, h.writers, ?_, ?_⟩, rfl⟩
    · simp [removeWaiter, hwaiting, hwriters]
    · simp [hwaiting]
    · simp [hwriters]

theorem removeWaiter_tally (waiting : Bool) (h : Tally state permits (if waiting then kind :: waiters else waiters)) :
    ∃ state', removeWaiter state kind waiting = some state' ∧ Tally state' permits waiters ∧
      state'.closing = state.closing := by
  cases waiting with
  | false => exact ⟨state, rfl, h, rfl⟩
  | true => exact removeWaiter_parked h

theorem addWaiter_tally (h : Tally state permits waiters) (hroom : waiters.length < usizeMax) :
    Tally (addWaiter state kind) permits (kind :: waiters) := by
  have hcount : waiters.count .write ≤ waiters.length := List.count_le_length
  refine ⟨h.active, h.writers, ?_, ?_⟩
  · simp only [addWaiter, saturatingAdd, h.waiting, List.length_cons]
    omega
  · cases kind with
    | read => simp [addWaiter, h.waitingWriters]
    | write =>
      simp only [addWaiter, saturatingAdd, h.waitingWriters, if_true, List.count_cons_self]
      omega

theorem Tally.rejected (h : Tally state permits waiters) : Tally (recordAdmissionRejection state) permits waiters :=
  ⟨h.active, h.writers, h.waiting, h.waitingWriters⟩

theorem Tally.controlRejected (h : Tally state permits waiters) (error : SessionError) :
    Tally (recordControlRejection state error) permits waiters ∧
      (recordControlRejection state error).closing = state.closing := by
  cases error <;> exact ⟨⟨h.active, h.writers, h.waiting, h.waitingWriters⟩, rfl⟩

def TurnEnds (config : SessionConfig) (state state' : AdmissionState) (kind : OperationKind)
    (permits waiters : List OperationKind) : Outcome → Prop
  | .admitted => state.closing = false ∧ blocked config state kind = false ∧ Tally state' (kind :: permits) waiters
  | .rejected _ => Tally state' permits waiters
  | .parked => Tally state' permits (kind :: waiters)

theorem acquireTurn_spec (waiting : Bool) (seen : Observation) (hroom : waiters.length < usizeMax)
    (h : Tally state permits (if waiting then kind :: waiters else waiters)) :
    ∃ state' outcome, acquireTurn config state kind waiting seen = some (state', outcome) ∧
      state'.closing = state.closing ∧ TurnEnds config state state' kind permits waiters outcome := by
  obtain ⟨left, hleft, htally, hclosing⟩ := removeWaiter_tally waiting h
  unfold acquireTurn
  cases hcheck : seen.check with
  | some error =>
    obtain ⟨htally', hclosing'⟩ := htally.controlRejected error
    exact ⟨recordControlRejection left error, .rejected error, by simp [hleft], hclosing'.trans hclosing, htally'⟩
  | none =>
    cases hclose : state.closing with
    | true =>
      exact ⟨recordAdmissionRejection (recordAdmissionRejection left), .rejected .sessionClosing, by simp [hleft],
        hclosing.trans hclose, htally.rejected.rejected⟩
    | false =>
      cases hblocked : blocked config state kind with
      | false =>
        refine ⟨{ left with
          activeOperations := left.activeOperations + 1
          activeWriters := if kind = .write then left.activeWriters + 1 else left.activeWriters }, .admitted,
          by simp [hleft], hclosing.trans hclose, hclose, hblocked, ?_⟩
        refine ⟨by simp [htally.active], ?_, htally.waiting, htally.waitingWriters⟩
        cases kind <;> simp [htally.writers]
      | true =>
        -- blocked: the operation is counted as parked before its time is checked
        have hparked : Tally (if waiting then state else addWaiter state kind) permits (kind :: waiters) := by
          cases waiting with
          | true => exact h
          | false => exact addWaiter_tally h hroom
        have hsame : (if waiting then state else addWaiter state kind).closing = state.closing := by
          cases waiting <;> rfl
        obtain ⟨gone, hgone, hgoneTally, hgoneClosing⟩ := removeWaiter_parked hparked
        by_cases htime : remaining config seen = 0
        · cases hrecheck : seen.recheck with
          | some error =>
            obtain ⟨htally', hclosing'⟩ := hgoneTally.controlRejected error
            exact ⟨recordControlRejection gone error, .rejected error, by simp [htime, hgone],
              (hclosing'.trans hgoneClosing).trans (hsame.trans hclose), htally'⟩
          | none =>
            exact ⟨recordAdmissionRejection (recordAdmissionRejection gone), .rejected .sessionBusy,
              by simp [htime, hgone], hgoneClosing.trans (hsame.trans hclose), hgoneTally.rejected.rejected⟩
        · exact ⟨_, .parked, by simp [htime], hsame.trans hclose, hparked⟩

theorem release_spec {admissionWait operationTime : ℕ} (h : Tally state (kind :: permits) waiters) :
    ∃ state', release state kind admissionWait operationTime = some state' ∧ Tally state' permits waiters ∧
      state'.closing = state.closing := by
  have hactive := h.active
  have hwriters := h.writers
  rw [List.length_cons] at hactive
  unfold release
  rw [if_neg (by omega)]
  cases kind with
  | read =>
    rw [List.count_cons_of_ne (by decide)] at hwriters
    rw [if_neg (by simp)]
    exact ⟨_, rfl, ⟨by simp [hactive], by simpa using hwriters, h.waiting, h.waitingWriters⟩, rfl⟩
  | write =>
    rw [List.count_cons_self] at hwriters
    rw [if_neg (by omega)]
    exact ⟨_, rfl, ⟨by simp [hactive], by simp [hwriters], h.waiting, h.waitingWriters⟩, rfl⟩

/-- The lock is never poisoned, the counters are exact, the permits are within bounds, a writer's
permit is the only one, and a closing session has none. -/
structure Sound (config : SessionConfig) (session : OperationAdmission) : Prop where
  intact : session.poisoned = false
  tally : Tally session.admission session.permits session.waiters
  room : session.waiters.length + session.permits.length ≤ usizeMax
  bounded : session.permits.length ≤ config.maxInFlight
  exclusive : .write ∈ session.permits → session.permits.length = 1
  closed : session.admission.closing = true → session.permits = []

theorem blocked_eq_false (h : blocked config state kind = false) :
    state.activeOperations < config.maxInFlight ∧ (kind = .write → state.activeOperations = 0) ∧
      (kind = .read → state.activeWriters = 0 ∧ state.waitingWriters = 0) := by
  unfold blocked at h
  cases kind <;> simp at h <;> simp <;> omega

/-- A turn keeps the invariant; the operation is not among the other waiters. -/
theorem Sound.settle {session : OperationAdmission} (waiting : Bool) (seen : Observation)
    (hintact : session.poisoned = false)
    (htally : Tally session.admission session.permits (if waiting then kind :: session.waiters else session.waiters))
    (hroom : session.waiters.length + session.permits.length < usizeMax)
    (hbounded : session.permits.length ≤ config.maxInFlight)
    (hexclusive : .write ∈ session.permits → session.permits.length = 1)
    (hclosed : session.admission.closing = true → session.permits = []) :
    Sound config (session.settle kind (acquireTurn config session.admission kind waiting seen)) := by
  obtain ⟨state', outcome, hturn, hclosing, hends⟩ :=
    @acquireTurn_spec config session.admission kind session.permits session.waiters waiting seen (by omega) htally
  rw [hturn]
  cases outcome with
  | admitted =>
    obtain ⟨hopen, hfree, htally'⟩ := hends
    obtain ⟨hlt, hwrite, hread⟩ := blocked_eq_false hfree
    rw [htally.active] at hlt hwrite
    refine ⟨hintact, htally', ?_, ?_, ?_, ?_⟩
    · simp only [OperationAdmission.settle, List.length_cons]
      omega
    · simpa [OperationAdmission.settle] using hlt
    · intro hmem
      simp only [OperationAdmission.settle, List.length_cons, Nat.add_eq_right, List.length_eq_zero_iff]
      cases kind with
      | write => exact List.length_eq_zero_iff.mp (hwrite rfl)
      | read =>
        -- a writer among the permits would be active
        have hnone := (hread rfl).1
        rw [htally.writers, List.count_eq_zero] at hnone
        rcases List.mem_cons.mp hmem with h | h
        · cases h
        · exact absurd h hnone
    · intro hclose
      rw [OperationAdmission.settle] at hclose
      rw [hclosing.symm.trans hclose] at hopen
      cases hopen
  | rejected error =>
    exact ⟨hintact, hends, by simpa [OperationAdmission.settle] using hroom.le, hbounded, hexclusive,
      fun hclose => hclosed (hclosing.symm.trans hclose)⟩
  | parked =>
    refine ⟨hintact, hends, ?_, hbounded, hexclusive, fun hclose => hclosed (hclosing.symm.trans hclose)⟩
    simp only [OperationAdmission.settle, List.length_cons]
    omega

theorem getElem?_cons_eraseIdx_perm {α : Type} {xs : List α} {i : ℕ} {x : α} (h : xs[i]? = some x) :
    xs.Perm (x :: xs.eraseIdx i) := by
  obtain ⟨hi, rfl⟩ := List.getElem?_eq_some_iff.mp h
  exact (List.getElem_cons_eraseIdx_perm hi).symm

variable {session session' : OperationAdmission} {action : Action}

theorem Sound.step (h : Sound config session)
    (hstep : session.step config action = some session') : Sound config session' := by
  obtain ⟨state, poisoned, waiters, permits⟩ := session
  obtain rfl : poisoned = false := h.intact
  have hroom : waiters.length + permits.length ≤ usizeMax := h.room
  cases action with
  | call kind seen =>
    simp only [OperationAdmission.step] at hstep
    split at hstep
    · cases hstep
      exact @Sound.settle config kind ⟨state, false, waiters, permits⟩ false seen rfl h.tally ‹_› h.bounded
        h.exclusive h.closed
    · cases hstep
  | wake i seen =>
    simp only [OperationAdmission.step] at hstep
    split at hstep
    · cases hstep
    · rename_i kind hkind
      cases hstep
      have hperm := getElem?_cons_eraseIdx_perm hkind
      have hlength := hperm.length_eq
      rw [List.length_cons] at hlength
      exact @Sound.settle config kind ⟨state, false, waiters.eraseIdx i, permits⟩ true seen rfl
        (h.tally.perm hperm) (by dsimp only; omega) h.bounded h.exclusive h.closed
  | release i admissionWait operationTime =>
    simp only [OperationAdmission.step] at hstep
    split at hstep
    · cases hstep
    · rename_i kind hkind
      have hperm := getElem?_cons_eraseIdx_perm hkind
      have hlength := hperm.length_eq
      rw [List.length_cons] at hlength
      have hheld : Tally state (kind :: permits.eraseIdx i) waiters :=
        ⟨h.tally.active.trans hperm.length_eq, h.tally.writers.trans (hperm.count_eq _), h.tally.waiting,
          h.tally.waitingWriters⟩
      obtain ⟨state', hrelease, htally, hclosing⟩ := @release_spec state kind _ _ admissionWait operationTime hheld
      simp only [hrelease, Bool.false_eq_true, if_false] at hstep
      cases hstep
      have hbounded : permits.length ≤ config.maxInFlight := h.bounded
      refine ⟨rfl, htally, by dsimp only; omega, by dsimp only; omega, fun hmem => ?_, fun hclose => ?_⟩
      · -- the only permit is the one released
        have hone : permits.length = 1 := h.exclusive (List.mem_of_mem_eraseIdx hmem)
        have hpos := List.length_pos_of_mem hmem
        dsimp only at hpos ⊢
        omega
      · have hnone : permits = [] := h.closed (hclosing.symm.trans hclose)
        rw [hnone] at hkind
        cases hkind
  | beginClose =>
    simp only [OperationAdmission.step, Bool.false_eq_true, if_false, Session.beginClose] at hstep
    cases hstep
    have htally := h.tally
    split
    · exact ⟨rfl, htally.rejected, h.room, h.bounded, h.exclusive, h.closed⟩
    · rename_i hidle
      split
      · exact ⟨rfl, htally, h.room, h.bounded, h.exclusive, h.closed⟩
      · refine ⟨rfl, ⟨htally.active, htally.writers, htally.waiting, htally.waitingWriters⟩, h.room, h.bounded,
          h.exclusive, fun _ => ?_⟩
        have hactive : state.activeOperations = permits.length := htally.active
        have hempty : permits = [] := List.length_eq_zero_iff.mp (by omega)
        exact hempty

theorem Sound.new (h : OperationAdmission.new config = .ok session) : Sound config session := by
  unfold OperationAdmission.new at h
  split at h
  · cases h
  · split at h
    · cases h
    · cases h
      exact ⟨rfl, ⟨rfl, rfl, rfl, rfl⟩, by simp, by simp, by simp, fun h => by cases h⟩

theorem sound_of_reachable (h : (sessions config).Reachable session) : Sound config session :=
  h.invariant (fun _ => Sound.new) fun _ _ _ hs _ hstep => hs.step hstep

def Admits (session session' : OperationAdmission) (kind : OperationKind) : Prop :=
  session'.permits = kind :: session.permits

theorem settle_admits {session base : OperationAdmission} {kind' : OperationKind} {waiting : Bool} {seen : Observation}
    (hbase : base.permits = session.permits) (hroom : base.waiters.length < usizeMax)
    (htally : Tally session.admission session.permits (if waiting then kind' :: base.waiters else base.waiters))
    (h : Admits session (base.settle kind' (acquireTurn config session.admission kind' waiting seen)) kind) :
    session.admission.closing = false ∧ blocked config session.admission kind = false := by
  obtain ⟨state', outcome, hturn, -, hends⟩ :=
    @acquireTurn_spec config session.admission kind' session.permits base.waiters waiting seen hroom htally
  rw [hturn] at h
  have hne : session.permits ≠ kind :: session.permits := fun h => by
    have := congrArg List.length h
    simp at this
  cases outcome with
  | admitted =>
    simp only [Admits, OperationAdmission.settle, hbase, List.cons.injEq] at h
    exact ⟨hends.1, h.1 ▸ hends.2.1⟩
  | rejected error | parked => exact absurd (hbase.symm.trans h) hne

theorem Sound.admits (h : Sound config session)
    (hstep : session.step config action = some session') (hadmits : Admits session session' kind) :
    session.admission.closing = false ∧ blocked config session.admission kind = false := by
  have hroom := h.room
  have hlonger : session'.permits.length = session.permits.length + 1 := by
    rw [hadmits, List.length_cons]
  cases action with
  | call kind' seen =>
    simp only [OperationAdmission.step, h.intact, Bool.false_eq_true, if_false] at hstep
    split at hstep
    · cases hstep
      exact @settle_admits config kind session session kind' false seen rfl (by omega) h.tally hadmits
    · cases hstep
  | wake i seen =>
    simp only [OperationAdmission.step, h.intact, Bool.false_eq_true, if_false] at hstep
    split at hstep
    · cases hstep
    · rename_i kind' hkind
      cases hstep
      have hperm := getElem?_cons_eraseIdx_perm hkind
      have hlength := hperm.length_eq
      rw [List.length_cons] at hlength
      exact @settle_admits config kind session
        ⟨session.admission, false, session.waiters.eraseIdx i, session.permits⟩ kind' true seen rfl
        (by dsimp only; omega) (h.tally.perm hperm) hadmits
  | release i admissionWait operationTime =>
    simp only [OperationAdmission.step, h.intact, Bool.false_eq_true, if_false] at hstep
    have hle := List.length_eraseIdx_le session.permits i
    split at hstep
    · cases hstep
    · split at hstep <;> cases hstep <;> dsimp only at hlonger <;> omega
  | beginClose =>
    simp only [OperationAdmission.step, h.intact, Bool.false_eq_true, if_false] at hstep
    cases hstep
    dsimp only at hlonger
    omega

theorem Sound.closing_step (h : Sound config session)
    (hclosing : session.admission.closing = true) (hstep : session.step config action = some session') :
    session'.admission.closing = true := by
  have hroom := h.room
  cases action with
  | call kind seen =>
    simp only [OperationAdmission.step, h.intact, Bool.false_eq_true, if_false] at hstep
    split at hstep
    · obtain ⟨state', outcome, hturn, hsame, -⟩ :=
        @acquireTurn_spec config session.admission kind session.permits session.waiters false seen (by omega) h.tally
      rw [hturn] at hstep
      cases hstep
      cases outcome <;> exact hsame.trans hclosing
    · cases hstep
  | wake i seen =>
    simp only [OperationAdmission.step, h.intact, Bool.false_eq_true, if_false] at hstep
    split at hstep
    · cases hstep
    · rename_i kind hkind
      have hperm := getElem?_cons_eraseIdx_perm hkind
      have hlength := hperm.length_eq
      rw [List.length_cons] at hlength
      obtain ⟨state', outcome, hturn, hsame, -⟩ := @acquireTurn_spec config session.admission kind session.permits
        (session.waiters.eraseIdx i) true seen (by omega) (h.tally.perm hperm)
      rw [hturn] at hstep
      cases hstep
      cases outcome <;> exact hsame.trans hclosing
  | release i admissionWait operationTime =>
    simp only [OperationAdmission.step, h.closed hclosing] at hstep
    cases hstep
  | beginClose =>
    simp only [OperationAdmission.step, h.intact, Bool.false_eq_true, if_false, Session.beginClose] at hstep
    cases hstep
    split <;> exact hclosing

theorem closing_run {later : OperationAdmission} {actions : List Action} (h : Sound config session)
    (hclosing : session.admission.closing = true) (hrun : (sessions config).run session actions = some later) :
    Sound config later ∧ later.admission.closing = true := by
  induction actions generalizing session with
  | nil =>
    cases hrun
    exact ⟨h, hclosing⟩
  | cons action actions ih =>
    obtain ⟨next, hnext, hrest⟩ := Option.bind_eq_some_iff.mp hrun
    exact ih (h.step hnext) (h.closing_step hclosing hnext) hrest

theorem beginClose_ok {state : AdmissionState} (h : (beginClose state).2 = .ok ()) :
    (beginClose state).1.closing = true := by
  unfold beginClose at h ⊢
  split at h
  · cases h
  · split at h
    · cases h
    · rename_i hidle hopen
      rw [if_neg hidle, if_neg hopen]

/-- In every state of every interleaving the permits are bounded, a writer's permit is the only one,
the counters are the numbers they stand for, no reader is admitted while a writer is parked, and
nothing is admitted after a successful close. -/
theorem admission_safe {session : OperationAdmission} (h : (sessions config).Reachable session) :
    session.admission.activeOperations = session.permits.length ∧
    session.admission.activeOperations ≤ config.maxInFlight ∧
    (.write ∈ session.permits → session.permits = [.write]) ∧
    session.admission.waitingOperations = session.waiters.length ∧
    session.admission.waitingWriters = session.waiters.count .write ∧
    (∀ action session', session.step config action = some session' → Admits session session' .read →
      .write ∉ session.waiters) ∧
    (∀ closed, session.step config .beginClose = some closed → (beginClose session.admission).2 = .ok () →
      ∀ actions later, (sessions config).run closed actions = some later →
        ∀ action next kind, later.step config action = some next → ¬ Admits later next kind) := by
  have hs := sound_of_reachable h
  refine ⟨hs.tally.active, hs.tally.active ▸ hs.bounded, fun hmem => ?_, hs.tally.waiting, hs.tally.waitingWriters,
    fun action session' hstep hadmits hmem => ?_, fun closed hclose hok actions later hrun action next kind hstep
      hadmits => ?_⟩
  · obtain ⟨kind, hkind⟩ := List.length_eq_one_iff.mp (hs.exclusive hmem)
    rw [hkind] at hmem ⊢
    rw [List.mem_singleton.mp hmem]
  · have hnone := ((blocked_eq_false (hs.admits hstep hadmits).2).2.2 rfl).2
    rw [hs.tally.waitingWriters, List.count_eq_zero] at hnone
    exact hnone hmem
  · have hclosing : closed.admission.closing = true := by
      simp only [OperationAdmission.step, hs.intact, Bool.false_eq_true, if_false] at hclose
      cases hclose
      exact beginClose_ok hok
    obtain ⟨hlater, hstill⟩ := closing_run (hs.step hclose) hclosing hrun
    have hopen := (hlater.admits hstep hadmits).1
    rw [hstill] at hopen
    cases hopen

/-- One permit at a time: a writer is admitted, a reader parks behind it. -/
def soloConfig : SessionConfig := ⟨1, 10, by decide⟩

def calm : Observation := ⟨none, 0, none, none⟩

theorem admission_safe_parked :
    ∃ session, (sessions soloConfig).Reachable session ∧ session.permits = [.write] ∧ session.waiters = [.read] ∧
      session.admission.activeOperations ≤ soloConfig.maxInFlight := by
  obtain ⟨start, hstart⟩ : ∃ start, OperationAdmission.new soloConfig = .ok start := ⟨_, rfl⟩
  have hrun : (sessions soloConfig).run start [.call .write calm, .call .read calm] =
      some ⟨⟨1, 1, 1, 0, false, 0, 0, 0, 0, 0, 0, 0, 0⟩, false, [.read], [.write]⟩ := by
    cases hstart
    decide +kernel
  have hreach := Machine.reachable_run (.init hstart) hrun
  exact ⟨_, hreach, rfl, rfl, (admission_safe hreach).2.1⟩

end OmenDb.Session
