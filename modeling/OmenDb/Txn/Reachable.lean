import OmenDb.Txn.Restart

/-! Every reachable state of the runtime satisfies the invariant. -/
namespace OmenDb.Txn

variable {σ σ' : State}

theorem Family.tracks_empty {K : Type} [LinearOrder K] (F : Family K) (statuses : Statuses)
    (versions : VersionStore) (guarded : ℕ → Prop) :
    F.Tracks ∅ statuses versions guarded [] 0 where
  cell k := by
    simp only [OrdMap.get_empty]
    refine ⟨VersionStore.known_none, fun s _ => ?_, fun e he _ ht => ?_, ?_⟩
    · rw [decodeCurrent, Family.Tracks.chain_absent]
      exact ⟨_, VersionChain.visible_cons_of_le _ (stamp_of_system rfl) (Nat.zero_le s), .inl rfl⟩
    · rw [decodeCurrent, Family.Tracks.chain_absent, List.mem_singleton] at he
      subst he
      exact absurd rfl ht
    · rw [decodeCurrent, Family.Tracks.chain_absent]
      simp
  absent k _ := OrdMap.get_empty k
  head k c hl := by simp [lastCommit] at hl

theorem Inv.create : Inv State.create := by
  constructor
  case sequence => exact ⟨by simp [State.create], by simp [State.create], .nil, le_rfl, fun _ => rfl⟩
  case statuses => exact (OrdMap.eraseAll_empty _).symm
  case tables => exact ⟨Family.tracks_empty _ _ _ _, Family.tracks_empty _ _ _ _⟩
  case pending =>
    intro p hp
    cases hp
  case durable => exact ⟨by simp [State.create], by simp [State.create]⟩
  case identities =>
    exact ⟨Nat.one_pos, by simp [State.create], by simp [State.create], by simp [State.create]⟩
  case implied =>
    intro c hc
    cases hc
  case ownership =>
    constructor <;> simp [State.create, ReservedBy, Lane.reserving]
  case lifecycles =>
    constructor <;> simp [State.create, Lane.treePuts]
  case queues =>
    constructor <;>
      simp [State.create, Lane.serves, Lane.taken, Lane.waveIds, Lane.wave, Lane.reserving]
  case registered =>
    constructor <;> simp [State.create]
  case recorded =>
    intro c hc
    cases hc
  case serial =>
    intro c hc
    cases hc

theorem Inv.step {a : Action} (h : Inv σ) (hd : Sampled σ) (hs : step σ a = some σ') : Inv σ' := by
  cases step_moves hs with
  | begin => exact h.begin
  | cloneLifecycle hr _ => exact h.cloneLifecycle (ready_eq hr).1 (ready_eq hr).2.2 _
  | resolveLifecycle ht hl _ => exact h.resolveLifecycle ht hl
  | put hr hw | delete hr hw => exact h.write (ready_eq hr).1 (ready_eq hr).2.2 hw
  | dropTree hr hd => exact h.dropTree (ready_eq hr).1 (ready_eq hr).2.2 hd
  | createTree hr hl => exact h.createTree hl hr _
  | reserveMirror hl => exact h.reserveMirror hl
  | reservePublish hl => exact h.reservePublish hl
  | get hr hd => exact h.getStep (ready_eq hr).1 (ready_eq hr).2.2 hd _ _
  | scan hr hd => exact h.scanStep (ready_eq hr).1 (ready_eq hr).2.2 hd _ _ _ _
  | openCursor hr _ => exact h.cursorStep (ready_eq hr).1 (ready_eq hr).2.2 _ _ _
  | advance hr hc hd => exact h.advanceStep (ready_eq hr).1 (ready_eq hr).2.2 hd hc
  | stage hr _ => exact h.stageCommit hr
  | finish ht hf => exact h.finish ht hf
  | drain hl => exact h.takeStaged hl
  | publish hl => exact h.publishDrained hl _
  | publishPosition hl => exact h.publishPosition hl
  | publishMirror hl => exact h.publishMirror hl
  | publishStatuses hl => exact h.publishStatuses hl
  | release hl => exact h.releaseLane hl
  | gcCollect hl => exact h.gcCollect hl _
  | gcMirror hl => exact h.gcMirror hl
  | gcCompact hl hs => exact h.gcCompact hl hs
  | gcSample hl => exact h.gcSample hl
  | gcChanges hl => exact h.gcChanges hd hl
  | gcRefused hl => exact h.gcRefused hl
  | acquireLease _ hs => exact h.acquireChangeLease hs
  | advanceLease _ hs => exact h.advanceLease hs
  | releaseLease _ hs => exact h.releaseLease hs
  | crash hd hs => exact h.reopen hd hs

theorem inv_of_reachable (h : runtime.Reachable σ) : Inv σ :=
  h.invariant_of (fun _ => sampled_of_reachable) (fun _ hi => hi ▸ Inv.create)
    fun _ _ _ hd hi _ hs => hi.step hd hs

end OmenDb.Txn
