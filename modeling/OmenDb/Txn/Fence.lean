import Mathlib
import OmenDb.Lib.Machine
import OmenDb.Mvcc.Records

/-! The write fence and its mirror. An engine call that fails after it may have reached the media
fences the database handle; `begin` does not take the handle's lock and asks a mirror of the fence
instead. Each public call is one transition, driven by what the environment does to it: which
conflicts and refusals it meets, and how each engine call in it is answered. -/
namespace OmenDb.Fence

open Std.Do

set_option mvcgen.warning false

/-- `DB.write_fenced`, `Runtime.write_fenced`, `Runtime.closed` and the snapshot registry. -/
structure Handle where
  fenced : Bool
  mirror : Bool
  closed : Bool
  active : Finset ℕ
  nextTransaction : ℕ
  deriving DecidableEq

/-- `from_db`: the mirror of a new handle is the fence it opens with. -/
def Handle.fromDb (fenced : Bool) (nextTransaction : ℕ) : Handle :=
  ⟨fenced, fenced, false, ∅, nextTransaction⟩

abbrev Op := ExceptT Error (StateM Handle)

inductive Reply
  | committed
  /-- Published, but at another sequence number than the caller computed. -/
  | misplaced
  /-- Nothing has reached the media. -/
  | refused (e : Error)
  /-- Something may have reached the media: the handle fences itself. -/
  | failed (e : Error)
  deriving DecidableEq

inductive Wave
  | nothing
  /-- Every member was rejected, the caller's own with this error. -/
  | rejected (e : Error)
  | unsynced (e : Error)
  | group (reply : Reply)
  deriving DecidableEq

def checkReadable : Op Unit := do
  if (← get).fenced then
    throw (.needsRecovery "reads fenced after a failed durable publication; reopen required")

def checkWritable : Op Unit := do
  if (← get).fenced then
    throw (.needsRecovery "writer fenced after a failed durable publication; reopen required")

def fenceWrites : Op Unit := modify fun h => { h with fenced := true }

/-- `commit_batch_at`, `commit_group_at` and `commit_maintenance_batch`: whether the commit landed
where the caller expects it. -/
def engineCall (reply : Reply) : Op Bool := do
  checkWritable
  match reply with
  | .committed => return true
  | .misplaced => return false
  | .refused e => throw e
  | .failed e =>
    fenceWrites
    throw e

def setMirror : Op Unit := modify fun h => { h with mirror := true }

def mirrorFence : Op Unit := do
  if (← get).fenced then setMirror

def checkOpen : Op Unit := do
  if (← get).closed then throw (.invalidArgument "database is closed")

def releaseSnapshot (id : ℕ) : Op Unit := modify fun h => { h with active := h.active.erase id }

def checkActive (id : ℕ) : Op Unit := do
  if id ∉ (← get).active then throw .transactionInactive

def isNeedsRecovery : Error → Bool
  | .needsRecovery _ => true
  | _ => false

/-- The error of a call whose outcome only reopening can tell. -/
def uncertain : Error := .needsRecovery "the publication may be durable"

/-- `publish_drained`: the error that the members of the wave are settled with, if any. -/
def publishDrained (wave : Wave) : Op (Option Error) :=
  match wave with
  | .nothing => return none
  | .rejected e | .unsynced e => return some e
  | .group reply =>
    try
      let placed ← engineCall reply
      if placed then pure none
      else
        fenceWrites
        setMirror
        pure (some (.corruption "group publication landed at an unexpected position"))
    catch e =>
      mirrorFence
      pure (some (if isNeedsRecovery e || (← get).fenced then uncertain else e))

def commitMaintenance (reply : Reply) : Op Unit :=
  try
    let _ ← engineCall reply
  catch e =>
    mirrorFence
    throw e

def begin : Op ℕ := do
  let id := (← get).nextTransaction
  modify fun h => { h with nextTransaction := id + 1 }
  checkOpen
  if (← get).mirror then
    throw (.needsRecovery "transaction database is fenced; reopen required")
  modify fun h => { h with active := insert id h.active }
  return id

/-- A failed call of a transaction ends it when its outcome is uncertain. -/
def settleFailure (id : ℕ) (e : Error) : Op Unit := do
  if isNeedsRecovery e || (← get).fenced then
    releaseSnapshot id
    throw uncertain
  else throw e

def commit (id : ℕ) (readOnly : Bool) (conflict : Option Error) (wave : Wave) : Op Unit := do
  checkActive id
  if readOnly then releaseSnapshot id
  else
    match conflict with
    | some e => settleFailure id e
    | none =>
      match ← publishDrained wave with
      | some e => settleFailure id e
      | none => releaseSnapshot id

def abort (id : ℕ) : Op Unit := do
  checkActive id
  releaseSnapshot id

/-- `reserve_tree`: between the wave and its own commit it reads the tree record and appends and
syncs a before-image, any of which may fail. -/
def reserveTree (wave : Wave) (prepare : Option Error) (reply : Reply) : Op Unit := do
  checkOpen
  let _ ← publishDrained wave
  checkReadable
  match prepare with
  | some e => throw e
  | none =>
    let placed ← engineCall reply
    if placed then return ()
    else throw (.needsRecovery "tree reservation landed at an unexpected position")

def createTree (id : ℕ) (wave : Wave) (prepare : Option Error) (reply : Reply) : Op Unit := do
  checkActive id
  try reserveTree wave prepare reply
  catch e => settleFailure id e

/-- `gc_versions`: the walk over the chains, the maintenance batch if there is anything to write,
and the compaction of the version store. -/
def gcVersions (wave : Wave) (walk : Option Error) (batch : Option Reply) (compact : Option Error) :
    Op Unit := do
  checkOpen
  let _ ← publishDrained wave
  checkReadable
  match walk with
  | some e => throw e
  | none =>
    match batch with
    | some reply => commitMaintenance reply
    | none => return ()
    match compact with
    | some e =>
      fenceWrites
      setMirror
      throw e
    | none => return ()

/-- `gc_changes` and the lease calls: a wave, then a maintenance batch if there is anything to
write. -/
def maintain (wave : Wave) (batch : Option Reply) : Op Unit := do
  checkOpen
  let _ ← publishDrained wave
  match batch with
  | some reply => commitMaintenance reply
  | none => return ()

def close (sync : Option Error) (reply : Reply) : Op Unit := do
  if (← get).active ≠ ∅ then
    throw (.invalidArgument "cannot close database while transactions are active")
  if (← get).closed then return ()
  else
    match sync with
    | some e => throw e
    | none =>
      let _ ← engineCall reply
      modify fun h => { h with closed := true }

/-- A public call with what the environment does to it, or a restart. -/
inductive Call
  | begin
  | commit (id : ℕ) (readOnly : Bool) (conflict : Option Error) (wave : Wave)
  | abort (id : ℕ)
  | createTree (id : ℕ) (wave : Wave) (prepare : Option Error) (reply : Reply)
  | gcVersions (wave : Wave) (walk : Option Error) (batch : Option Reply) (compact : Option Error)
  | maintain (wave : Wave) (batch : Option Reply)
  | close (sync : Option Error) (reply : Reply)
  | reopen (nextTransaction : ℕ)
  deriving DecidableEq

/-- The state that a call leaves, whether it succeeds or not. -/
def after {α : Type} (op : Op α) (h : Handle) : Handle := (op.run.run h).2

def Call.run (h : Handle) : Call → Handle
  | .begin => after Fence.begin h
  | .commit id readOnly conflict wave => after (Fence.commit id readOnly conflict wave) h
  | .abort id => after (Fence.abort id) h
  | .createTree id wave prepare reply => after (Fence.createTree id wave prepare reply) h
  | .gcVersions wave walk batch compact => after (Fence.gcVersions wave walk batch compact) h
  | .maintain wave batch => after (Fence.maintain wave batch) h
  | .close sync reply => after (Fence.close sync reply) h
  | .reopen nextTransaction => .fromDb false nextTransaction

/-- The handle between calls. A lane lock and the database lock make each call one step. -/
def handles : Machine Handle Call where
  init h := h = .fromDb false 1
  step h call := some (call.run h)

def Agrees (h : Handle) : Prop := h.mirror = h.fenced

theorem after_of_triple {α : Type} {op : Op α} {P Q : Handle → Prop}
    (h : ⦃fun s => ⌜P s⌝⦄ op ⦃post⟨fun _ s => ⌜Q s⌝, fun _ s => ⌜Q s⌝⟩⦄) {s : Handle} (hs : P s) :
    Q (after op s) := by
  have hw := h s hs
  simp only [WP.wp, PredTrans.apply_pushExcept, PredTrans.apply_pushArg] at hw
  unfold after
  revert hw
  generalize hx : StateT.run (ExceptT.run op) s = x
  rcases x with ⟨_ | _, s'⟩ <;> exact fun hw => hw

theorem engineCall_spec (reply : Reply) :
    ⦃fun h => ⌜Agrees h⌝⦄ engineCall reply
    ⦃post⟨fun _ h => ⌜Agrees h⌝, fun _ h => ⌜h.mirror = true → h.fenced = true⌝⟩⦄ := by
  mvcgen [engineCall, checkWritable, fenceWrites] <;> simp_all +zetaDelta [Agrees]

theorem mirrorFence_spec :
    ⦃fun h => ⌜h.mirror = true → h.fenced = true⌝⦄ mirrorFence
    ⦃post⟨fun _ h => ⌜Agrees h⌝, fun _ h => ⌜Agrees h⌝⟩⦄ := by
  mvcgen [mirrorFence, setMirror] <;> simp_all +zetaDelta [Agrees]

theorem commitMaintenance_spec (reply : Reply) :
    ⦃fun h => ⌜Agrees h⌝⦄ commitMaintenance reply
    ⦃post⟨fun _ h => ⌜Agrees h⌝, fun _ h => ⌜Agrees h⌝⟩⦄ := by
  mvcgen [commitMaintenance, engineCall_spec, mirrorFence_spec]

theorem publishDrained_spec (wave : Wave) :
    ⦃fun h => ⌜Agrees h⌝⦄ publishDrained wave ⦃post⟨fun _ h => ⌜Agrees h⌝, fun _ h => ⌜Agrees h⌝⟩⦄ := by
  mvcgen [publishDrained, engineCall_spec, mirrorFence_spec, fenceWrites, setMirror]

theorem settleFailure_spec (id : ℕ) (e : Error) :
    ⦃fun h => ⌜Agrees h⌝⦄ settleFailure id e ⦃post⟨fun _ h => ⌜Agrees h⌝, fun _ h => ⌜Agrees h⌝⟩⦄ := by
  mvcgen [settleFailure, releaseSnapshot]

theorem begin_spec :
    ⦃fun h => ⌜Agrees h⌝⦄ begin ⦃post⟨fun _ h => ⌜Agrees h⌝, fun _ h => ⌜Agrees h⌝⟩⦄ := by
  mvcgen [begin, checkOpen]

theorem commit_spec (id : ℕ) (readOnly : Bool) (conflict : Option Error) (wave : Wave) :
    ⦃fun h => ⌜Agrees h⌝⦄ commit id readOnly conflict wave
    ⦃post⟨fun _ h => ⌜Agrees h⌝, fun _ h => ⌜Agrees h⌝⟩⦄ := by
  mvcgen [commit, checkActive, releaseSnapshot, publishDrained_spec, settleFailure_spec]

theorem abort_spec (id : ℕ) :
    ⦃fun h => ⌜Agrees h⌝⦄ abort id ⦃post⟨fun _ h => ⌜Agrees h⌝, fun _ h => ⌜Agrees h⌝⟩⦄ := by
  mvcgen [abort, checkActive, releaseSnapshot]

theorem gcVersions_spec (wave : Wave) (walk : Option Error) (batch : Option Reply)
    (compact : Option Error) :
    ⦃fun h => ⌜Agrees h⌝⦄ gcVersions wave walk batch compact
    ⦃post⟨fun _ h => ⌜Agrees h⌝, fun _ h => ⌜Agrees h⌝⟩⦄ := by
  mvcgen [gcVersions, checkOpen, checkReadable, publishDrained_spec, commitMaintenance_spec,
    fenceWrites, setMirror]

theorem maintain_spec (wave : Wave) (batch : Option Reply) :
    ⦃fun h => ⌜Agrees h⌝⦄ maintain wave batch ⦃post⟨fun _ h => ⌜Agrees h⌝, fun _ h => ⌜Agrees h⌝⟩⦄ := by
  mvcgen [maintain, checkOpen, publishDrained_spec, commitMaintenance_spec]

def Wave.fences : Wave → Bool
  | .group (.failed _) | .group .misplaced => true
  | _ => false

def Reply.fences : Reply → Bool
  | .failed _ => true
  | _ => false

/-- A tree reservation reaches its own commit, and that fails past the point of no return; or the
flush of a close does. -/
def Unmirrored (h : Handle) : Call → Prop
  | .createTree id wave prepare reply => id ∈ h.active ∧ h.closed = false ∧ h.fenced = false ∧
      wave.fences = false ∧ prepare = none ∧ reply.fences = true
  | .close sync reply => h.active = ∅ ∧ h.closed = false ∧ h.fenced = false ∧ sync = none ∧
      reply.fences = true
  | _ => False

/-- Fenced, with `begin` none the wiser. -/
def Exposed (h : Handle) : Prop := h.fenced = true ∧ h.mirror = false ∧ h.closed = false

theorem close_spec {sync : Option Error} {reply : Reply} :
    ⦃fun h => ⌜Agrees h ∧ ¬ Unmirrored h (.close sync reply)⌝⦄ close sync reply
    ⦃post⟨fun _ h => ⌜Agrees h⌝, fun _ h => ⌜Agrees h⌝⟩⦄ := by
  mvcgen [close, engineCall, checkWritable, fenceWrites]
    <;> simp_all +zetaDelta [Agrees, Unmirrored, Reply.fences]

theorem close_unmirrored {sync : Option Error} {reply : Reply} :
    ⦃fun h => ⌜Agrees h ∧ Unmirrored h (.close sync reply)⌝⦄ close sync reply
    ⦃post⟨fun _ h => ⌜Exposed h⌝, fun _ h => ⌜Exposed h⌝⟩⦄ := by
  mvcgen [close, engineCall, checkWritable, fenceWrites]
    <;> simp_all +zetaDelta [Agrees, Exposed, Unmirrored, Reply.fences]

theorem publishDrained_fences (fenced : Bool) (wave : Wave) :
    ⦃fun h => ⌜Agrees h ∧ h.fenced = fenced ∧ h.closed = false⌝⦄ publishDrained wave
    ⦃post⟨fun _ h => ⌜Agrees h ∧ h.fenced = (fenced || wave.fences) ∧ h.closed = false⌝,
      fun _ _ => ⌜False⌝⟩⦄ := by
  mvcgen [publishDrained, engineCall, checkWritable, fenceWrites, mirrorFence, setMirror]
    <;> simp_all +zetaDelta [Agrees, Wave.fences]

theorem createTree_spec {id : ℕ} {wave : Wave} {prepare : Option Error} {reply : Reply}
    (fenced : Bool) :
    ⦃fun h => ⌜(Agrees h ∧ ¬ Unmirrored h (.createTree id wave prepare reply)) ∧ h.fenced = fenced⌝⦄
    createTree id wave prepare reply ⦃post⟨fun _ h => ⌜Agrees h⌝, fun _ h => ⌜Agrees h⌝⟩⦄ := by
  have hwave := publishDrained_fences fenced wave
  mvcgen [createTree, reserveTree, checkActive, checkOpen, checkReadable, hwave, settleFailure_spec,
    engineCall, checkWritable, fenceWrites]
    <;> simp_all +zetaDelta [Agrees, Unmirrored, Reply.fences]

theorem createTree_unmirrored {id : ℕ} {wave : Wave} {prepare : Option Error} {reply : Reply} :
    ⦃fun h => ⌜Agrees h ∧ Unmirrored h (.createTree id wave prepare reply)⌝⦄
    createTree id wave prepare reply ⦃post⟨fun _ h => ⌜Exposed h⌝, fun _ h => ⌜Exposed h⌝⟩⦄ := by
  have hwave := publishDrained_fences false wave
  mvcgen [createTree, reserveTree, checkActive, checkOpen, checkReadable, hwave, settleFailure,
    releaseSnapshot, engineCall, checkWritable, fenceWrites]
    <;> simp_all +zetaDelta [Agrees, Exposed, Unmirrored, Reply.fences]

theorem agrees_run {h : Handle} (ha : Agrees h) {call : Call} (hu : ¬ Unmirrored h call) :
    Agrees (call.run h) := by
  cases call with
  | begin => exact after_of_triple begin_spec ha
  | commit id readOnly conflict wave =>
    exact after_of_triple (commit_spec id readOnly conflict wave) ha
  | abort id => exact after_of_triple (abort_spec id) ha
  | gcVersions wave walk batch compact =>
    exact after_of_triple (gcVersions_spec wave walk batch compact) ha
  | maintain wave batch => exact after_of_triple (maintain_spec wave batch) ha
  | reopen next => rfl
  | createTree id wave prepare reply => exact after_of_triple (createTree_spec h.fenced) ⟨⟨ha, hu⟩, rfl⟩
  | close sync reply => exact after_of_triple close_spec ⟨ha, hu⟩

theorem exposed_run {h : Handle} (ha : Agrees h) {call : Call} (hu : Unmirrored h call) :
    Exposed (call.run h) := by
  cases call with
  | createTree id wave prepare reply => exact after_of_triple createTree_unmirrored ⟨ha, hu⟩
  | close sync reply => exact after_of_triple close_unmirrored ⟨ha, hu⟩
  | _ => exact hu.elim

def result {α : Type} (op : Op α) (h : Handle) : Result α := (op.run.run h).1

theorem begin_fenced {h : Handle} (hm : h.mirror = true) (hc : h.closed = false) :
    result begin h = .error (.needsRecovery "transaction database is fenced; reopen required") := by
  obtain ⟨fenced, mirror, closed, active, next⟩ := h
  cases hm
  cases hc
  rfl

theorem begin_admitted {h : Handle} (hm : h.mirror = false) (hc : h.closed = false) :
    result begin h = .ok h.nextTransaction := by
  obtain ⟨fenced, mirror, closed, active, next⟩ := h
  cases hm
  cases hc
  rfl

/-- In every run without an unmirrored failure a fenced database refuses to begin transactions
between any two calls; an unmirrored failure leaves it fenced and open to them. -/
theorem fence_mirrored (h : Handle) :
    (handles.Reach (fun h call => ¬ Unmirrored h call) h → h.fenced = true →
      h.mirror = true ∧ (h.closed = false → result begin h =
        .error (.needsRecovery "transaction database is fenced; reopen required"))) ∧
    ∀ call, handles.Reach (fun h call => ¬ Unmirrored h call) h → Unmirrored h call →
      (call.run h).fenced = true ∧ (call.run h).mirror = false ∧
        result begin (call.run h) = .ok (call.run h).nextTransaction := by
  have agrees : handles.Reach (fun h call => ¬ Unmirrored h call) h → Agrees h := fun hr =>
    hr.invariant (fun _ hi => hi ▸ rfl) fun _ _ _ ha hg hst =>
      Option.some.inj hst ▸ agrees_run ha hg
  refine ⟨fun hr hf => ?_, fun call hr hu => ?_⟩
  · have hm : h.mirror = true := (agrees hr).trans hf
    exact ⟨hm, begin_fenced hm⟩
  · obtain ⟨hf, hm, hc⟩ := exposed_run (agrees hr) hu
    exact ⟨hf, hm, begin_admitted hm hc⟩

instance (h : Handle) (call : Call) : Decidable (Unmirrored h call) :=
  match call with
  | .createTree _ _ _ _ => inferInstanceAs (Decidable (_ ∧ _))
  | .close _ _ => inferInstanceAs (Decidable (_ ∧ _))
  | .begin | .commit _ _ _ _ | .abort _ | .gcVersions _ _ _ _ | .maintain _ _ | .reopen _ =>
    .isFalse id

def waveFails : List Call := [.begin, .commit 1 false none (.group (.failed .io))]

def reservationFails : List Call := [.begin, .createTree 1 .nothing none (.failed .io)]

theorem fence_mirrored_waveFails :
    (∃ h, handles.runWhere (fun h call => decide (¬ Unmirrored h call)) (.fromDb false 1) waveFails =
        some h ∧ h.fenced = true ∧ result begin h =
          .error (.needsRecovery "transaction database is fenced; reopen required")) ∧
    ∃ h, handles.runWhere (fun h call => decide (¬ Unmirrored h call)) (.fromDb false 1) [.begin] =
        some h ∧ (Call.run h (.createTree 1 .nothing none (.failed .io))).mirror = false := by
  have guarded : ∀ h call, decide (¬ Unmirrored h call) = true → ¬ Unmirrored h call :=
    fun _ _ h => of_decide_eq_true h
  constructor
  · have hview : (handles.runWhere (fun h call => decide (¬ Unmirrored h call)) (.fromDb false 1)
        waveFails).map (fun h => decide (h.fenced = true ∧ h.closed = false)) = some true := by
      decide
    obtain ⟨h, hrun, hh⟩ := Option.map_eq_some_iff.mp hview
    obtain ⟨hf, hc⟩ := of_decide_eq_true hh
    exact ⟨h, hrun, hf,
      ((fence_mirrored h).1 (Machine.reach_runWhere guarded (.init rfl) hrun) hf).2 hc⟩
  · have hview : (handles.runWhere (fun h call => decide (¬ Unmirrored h call)) (.fromDb false 1)
        [.begin]).map (fun h => decide (Unmirrored h (.createTree 1 .nothing none (.failed .io)))) =
        some true := by
      decide
    obtain ⟨h, hrun, hh⟩ := Option.map_eq_some_iff.mp hview
    exact ⟨h, hrun, ((fence_mirrored h).2 _ (Machine.reach_runWhere guarded (.init rfl) hrun)
      (of_decide_eq_true hh)).2.1⟩

/-- The reservation leaves the database fenced, and the next transaction begins. -/
theorem fence_unmirrored_reservationFails :
    ∃ h, handles.run (.fromDb false 1) reservationFails = some h ∧ handles.Reachable h ∧
      h.fenced = true ∧ h.mirror = false ∧ result begin h = .ok 2 := by
  have hview : (handles.run (.fromDb false 1) reservationFails).map (fun h =>
      decide (h.fenced = true ∧ h.mirror = false ∧ h.closed = false ∧ h.nextTransaction = 2)) =
      some true := by
    decide
  obtain ⟨h, hrun, hh⟩ := Option.map_eq_some_iff.mp hview
  obtain ⟨hf, hm, hc, hn⟩ := of_decide_eq_true hh
  exact ⟨h, hrun, Machine.reachable_run (.init rfl) hrun, hf, hm, hn ▸ begin_admitted hm hc⟩

end OmenDb.Fence
