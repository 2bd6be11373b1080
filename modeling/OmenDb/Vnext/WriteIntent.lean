import OmenDb.Lib.Threads
import OmenDb.Vnext.FinalEffects
import OmenDb.Vnext.Preflight

/-! The table of write intents. A call of `try_acquire` takes the shard lock of one key at a time, so
calls and drops of several threads interleave between any two keys. A thread stands for the life of one
guard: the call that makes it, the guard, and its drop. Nested guards are several threads.

Every claim a thread has on a key is one holder of the entry of that key, at every point of every
interleaving; the table is a function of the claims. -/
namespace OmenDb.Vnext

structure IntentEntry where
  owner : TxnId
  holders : ℕ

namespace Intent

inductive WriteIntentError
  | wrongTransaction (expected actual : TxnId) (ordinal : Word 4)
  | nonCanonicalOrder (object : StorageObjectId) (key : Bytes)
  | conflict (object : StorageObjectId) (key : Bytes) (owner : TxnId)
  | holderCountExhausted
  | poisoned (shard : Fin 64)
  deriving DecidableEq

/-- The entries of all shards, and which shard locks are poisoned. -/
structure WriteIntentTable where
  entries : OrdMap LogicalKey IntentEntry
  poisoned : Fin 64 → Bool

def WriteIntentTable.new : WriteIntentTable := ⟨∅, fun _ => false⟩

/-- Where a thread stands. `held` are the keys a call has claimed so far; `releasing` is a rollback when
it has an error to return, and the drop of a guard when it has none. -/
inductive Pc
  | idle (last : Option WriteIntentError)
  | acquiring (txn : TxnId) (held todo : List LogicalKey)
  | guard (txn : TxnId) (keys : List LogicalKey)
  | releasing (txn : TxnId) (keys : List LogicalKey) (error : Option WriteIntentError)
  deriving DecidableEq

inductive Choice
  | tryAcquire (txn : TxnId) (effects : List LoggedMutation)
  | drop
  | poison (shard : Fin 64)
  | go
  deriving DecidableEq

/-- The first loop of `try_acquire`: the keys of a write set of one transaction in strict order. -/
def canonicalKeys (txn : TxnId) : List LoggedMutation → List LogicalKey → Except WriteIntentError (List LogicalKey)
  | [], keys => .ok keys
  | effect :: effects, keys =>
    if effect.txn ≠ txn then .error (.wrongTransaction txn effect.txn effect.ordinal)
    else if keys.getLast?.any (fun previous => decide (effect.logicalKey ≤ previous)) then
      .error (.nonCanonicalOrder effect.object effect.key)
    else canonicalKeys txn effects (keys ++ [effect.logicalKey])

def beginAcquire (txn : TxnId) (effects : List LoggedMutation) : Pc :=
  match canonicalKeys txn effects [] with
  | .error error => .idle (some error)
  | .ok keys => .acquiring txn [] keys

def releaseKey (entries : OrdMap LogicalKey IntentEntry) (txn : TxnId) (key : LogicalKey) :
    OrdMap LogicalKey IntentEntry :=
  match entries[key]? with
  | none => entries
  | some entry =>
    if entry.owner = txn then
      if 1 < entry.holders then entries.insert key ⟨entry.owner, entry.holders - 1⟩ else entries.erase key
    else entries

namespace WriteIntentTable

variable (shard : LogicalKey → Fin 64)

/-- One key of the second loop of `try_acquire`. A failure rolls the claimed keys back, the last first. -/
def acquireKey (s : WriteIntentTable) (txn : TxnId) (held : List LogicalKey) (key : LogicalKey)
    (todo : List LogicalKey) : WriteIntentTable × Pc :=
  let claimed (n : ℕ) : WriteIntentTable × Pc :=
    ({ s with entries := s.entries.insert key ⟨txn, n⟩ }, .acquiring txn (held ++ [key]) todo)
  let failed (error : WriteIntentError) : WriteIntentTable × Pc := (s, .releasing txn held.reverse (some error))
  if s.poisoned (shard key) then failed (.poisoned (shard key))
  else match s.entries[key]? with
  | none => claimed 1
  | some entry =>
    if entry.owner = txn then
      if entry.holders + 1 < 256 ^ 8 then claimed (entry.holders + 1) else failed .holderCountExhausted
    else failed (.conflict (ofLex key).1 (ofLex key).2 entry.owner)

def next (s : WriteIntentTable) : Pc → Choice → Option (WriteIntentTable × Pc)
  | .idle _, .tryAcquire txn effects => some (s, beginAcquire txn effects)
  | .idle last, .poison i => some ({ s with poisoned := Function.update s.poisoned i true }, .idle last)
  | .acquiring txn held (key :: todo), .go => some (s.acquireKey shard txn held key todo)
  | .acquiring txn held [], .go => some (s, .guard txn held)
  | .guard txn keys, .drop => some (s, .releasing txn keys.reverse none)
  | .releasing txn (key :: keys) error, .go =>
    some ({ s with entries := releaseKey s.entries txn key }, .releasing txn keys error)
  | .releasing _ [] error, .go => some (s, .idle error)
  | _, _ => none

/-- The table under the calls and drops of any number of threads. -/
def system (m : ℕ) : Machine (Threads m WriteIntentTable Pc) (Fin m × Choice) where
  init t := t.shared = new ∧ ∀ i, t.control i = .idle none
  step := Threads.step (next shard)

end WriteIntentTable

theorem canonicalKeys_sorted {txn : TxnId} {effects : List LoggedMutation} {keys all : List LogicalKey}
    (hkeys : keys.Pairwise (· < ·)) (h : canonicalKeys txn effects keys = .ok all) : all.Pairwise (· < ·) := by
  induction effects generalizing keys with
  | nil => cases h; exact hkeys
  | cons effect effects ih =>
    rw [canonicalKeys] at h
    split at h
    · cases h
    · split at h
      · cases h
      · next hlast =>
        refine ih (List.pairwise_append.mpr ⟨hkeys, List.pairwise_singleton _ _, ?_⟩) h
        intro a ha b hb
        obtain rfl := List.mem_singleton.mp hb
        obtain ⟨front, previous, rfl⟩ := List.eq_nil_or_concat keys |>.resolve_left (List.ne_nil_of_mem ha)
        have hprevious : previous < effect.logicalKey := by simpa using hlast
        rw [List.concat_eq_append] at ha hkeys
        rcases List.mem_append.mp ha with hfront | hlast
        · exact ((List.pairwise_append.mp hkeys).2.2 a hfront previous (by simp)).trans hprevious
        · rw [List.mem_singleton.mp hlast]
          exact hprevious

namespace Pc

def keys : Pc → List LogicalKey
  | .idle _ => []
  | .acquiring _ held _ => held
  | .guard _ keys => keys
  | .releasing _ keys _ => keys

def batch : Pc → List LogicalKey
  | .acquiring _ held todo => held ++ todo
  | p => p.keys

def txn : Pc → Option TxnId
  | .idle _ => none
  | .acquiring txn _ _ | .guard txn _ | .releasing txn _ _ => some txn

def Guards (key : LogicalKey) : Pc → Prop
  | .guard _ keys => key ∈ keys
  | _ => False

instance (key : LogicalKey) : DecidablePred (Guards key)
  | .guard _ keys => inferInstanceAs (Decidable (key ∈ keys))
  | .idle _ | .acquiring .. | .releasing .. => isFalse id

def Pending (key : LogicalKey) (p : Pc) : Prop := key ∈ p.keys ∧ ¬ p.Guards key

instance (key : LogicalKey) : DecidablePred (Pending key) := fun _ => inferInstanceAs (Decidable (_ ∧ _))

end Pc

def claims {m : ℕ} (control : Fin m → Pc) (key : LogicalKey) : ℕ := Threads.count control fun p => key ∈ p.keys

variable {m : ℕ} {entries : OrdMap LogicalKey IntentEntry} {control : Fin m → Pc} {i : Fin m} {p : Pc}
    {key : LogicalKey} {txn : TxnId}

structure Inv (entries : OrdMap LogicalKey IntentEntry) (control : Fin m → Pc) : Prop where
  nodup : ∀ i, (control i).batch.Nodup
  absent : ∀ key, entries[key]? = none → claims control key = 0
  present : ∀ (key : LogicalKey) (entry : IntentEntry), entries[key]? = some entry →
    entry.holders = claims control key ∧ 0 < entry.holders ∧ ∀ i, key ∈ (control i).keys →
    (control i).txn = some entry.owner

theorem Inv.entry_of_mem (h : Inv entries control) (hmem : key ∈ (control i).keys) :
    ∃ entry : IntentEntry, entries[key]? = some entry ∧ (control i).txn = some entry.owner := by
  cases hentry : entries[key]? with
  | none =>
    have hpos : 0 < claims control key := Threads.count_pos hmem
    have hzero := h.absent key hentry
    omega
  | some entry => exact ⟨entry, rfl, (h.present key entry hentry).2.2 i hmem⟩

theorem Inv.nodup_update (h : Inv entries control) (hp : p.batch.Nodup) (j : Fin m) :
    (Function.update control i p j).batch.Nodup :=
  (Function.forall_update_iff control fun _ q => q.batch.Nodup).mpr ⟨hp, fun k _ => h.nodup k⟩ j

theorem owners_update (hp : key ∈ p.keys → p.txn = some txn)
    (h : ∀ j, key ∈ (control j).keys → (control j).txn = some txn) (j : Fin m) :
    key ∈ (Function.update control i p j).keys → (Function.update control i p j).txn = some txn :=
  (Function.forall_update_iff control fun _ q => key ∈ q.keys → q.txn = some txn).mpr ⟨hp, fun k _ => h k⟩ j

theorem Inv.quiet (h : Inv entries control) (hkeys : ∀ key, key ∈ p.keys ↔ key ∈ (control i).keys)
    (htxn : p.keys ≠ [] → p.txn = (control i).txn) (hnodup : p.batch.Nodup) :
    Inv entries (Function.update control i p) := by
  have hclaims : ∀ key, claims (Function.update control i p) key = claims control key := fun key =>
    Threads.count_update_of_iff control i (hkeys key)
  refine ⟨h.nodup_update hnodup, fun key hnone => (hclaims key).trans (h.absent key hnone), fun key entry hentry => ?_⟩
  obtain ⟨hholders, hpos, howner⟩ := h.present key entry hentry
  refine ⟨hholders.trans (hclaims key).symm, hpos, owners_update (fun hmem => ?_) howner⟩
  rw [htxn (List.ne_nil_of_mem hmem)]
  exact howner i ((hkeys key).mp hmem)

theorem claims_update_of_ne {other : LogicalKey} (hkeys : other ∈ p.keys ↔ other ∈ (control i).keys) :
    claims (Function.update control i p) other = claims control other :=
  Threads.count_update_of_iff control i hkeys

theorem claims_gain (hold : key ∉ (control i).keys) (hnew : key ∈ p.keys) :
    claims (Function.update control i p) key = claims control key + 1 := by
  have hcount := @Threads.count_update _ _ (fun p : Pc => key ∈ p.keys) _ control i p
  simpa [claims, hold, hnew] using hcount

theorem claims_lose (hold : key ∈ (control i).keys) (hnew : key ∉ p.keys) :
    claims (Function.update control i p) key + 1 = claims control key := by
  have hcount := @Threads.count_update _ _ (fun p : Pc => key ∈ p.keys) _ control i p
  simpa [claims, hold, hnew] using hcount

theorem Inv.claim (h : Inv entries control) {n : ℕ} (hn : n = claims control key)
    (howner : ∀ j, key ∈ (control j).keys → (control j).txn = some txn) (hold : key ∉ (control i).keys)
    (hkeys : ∀ other, other ∈ p.keys ↔ other = key ∨ other ∈ (control i).keys)
    (hp : p.txn = some txn) (hself : (control i).txn = some txn) (hnodup : p.batch.Nodup) :
    Inv (entries.insert key ⟨txn, n + 1⟩) (Function.update control i p) := by
  have hmem : key ∈ p.keys := (hkeys key).mpr (.inl rfl)
  have hother : ∀ other, key ≠ other → claims (Function.update control i p) other = claims control other :=
    fun other hne =>
    claims_update_of_ne ((hkeys other).trans (or_iff_right (Ne.symm hne)))
  refine ⟨h.nodup_update hnodup, fun other hnone => ?_, fun other entry hentry => ?_⟩
  · by_cases hne : key = other
    · simp [hne] at hnone
    · rw [OrdMap.get_insert_of_ne _ _ hne] at hnone
      exact (hother other hne).trans (h.absent other hnone)
  · by_cases hne : key = other
    · subst hne
      rw [OrdMap.get_insert_self] at hentry
      cases hentry
      exact ⟨by rw [claims_gain hold hmem, hn], Nat.succ_pos n, owners_update (fun _ => hp) howner⟩
    · rw [OrdMap.get_insert_of_ne _ _ hne] at hentry
      obtain ⟨hholders, hpos, howns⟩ := h.present other entry hentry
      refine ⟨hholders.trans (hother other hne).symm, hpos, owners_update (fun hmem => ?_) howns⟩
      rw [hp, ← hself]
      exact howns i (((hkeys other).mp hmem).resolve_left (Ne.symm hne))

theorem Inv.release (h : Inv entries control) (hold : key ∈ (control i).keys) (hself : (control i).txn = some txn)
    (hkeys : ∀ other, other ∈ p.keys ↔ other ≠ key ∧ other ∈ (control i).keys) (hp : p.txn = some txn)
    (hnodup : p.batch.Nodup) : Inv (releaseKey entries txn key) (Function.update control i p) := by
  obtain ⟨entry, hentry, howner⟩ := h.entry_of_mem hold
  obtain rfl : entry.owner = txn := Option.some.inj (howner.symm.trans hself)
  obtain ⟨hholders, hpos, howns⟩ := h.present key entry hentry
  have hgone : key ∉ p.keys := fun hmem => ((hkeys key).mp hmem).1 rfl
  have hlose := claims_lose hold hgone
  have hother : ∀ other, key ≠ other → claims (Function.update control i p) other = claims control other :=
    fun other hne =>
    claims_update_of_ne ((hkeys other).trans (and_iff_right (Ne.symm hne)))
  have hget : ∀ other, key ≠ other → (releaseKey entries entry.owner key)[other]? = entries[other]? := by
    intro other hne
    unfold releaseKey
    by_cases hmany : 1 < entry.holders <;> simp [hentry, hmany, hne]
  have hat : (releaseKey entries entry.owner key)[key]? =
      if 1 < entry.holders then some ⟨entry.owner, entry.holders - 1⟩ else none := by
    unfold releaseKey
    by_cases hmany : 1 < entry.holders <;> simp [hentry, hmany]
  refine ⟨h.nodup_update hnodup, fun other hnone => ?_, fun other e he => ?_⟩
  · by_cases hne : key = other
    · subst hne
      rw [hat] at hnone
      split at hnone
      · cases hnone
      · omega
    · rw [hget other hne] at hnone
      exact (hother other hne).trans (h.absent other hnone)
  · by_cases hne : key = other
    · subst hne
      rw [hat] at he
      split at he
      · cases he
        exact ⟨by simp only; omega, by simp only; omega, owners_update (fun _ => hp) howns⟩
      · cases he
    · rw [hget other hne] at he
      obtain ⟨hholders, hpos, howns⟩ := h.present other e he
      refine ⟨hholders.trans (hother other hne).symm, hpos, owners_update (fun hmem => ?_) howns⟩
      rw [hp, ← hself]
      exact howns i ((hkeys other).mp hmem).2

variable {shard : LogicalKey → Fin 64} {s s' : WriteIntentTable}

theorem Inv.begin (h : Inv entries control) {last : Option WriteIntentError} (hpc : control i = .idle last)
    (effects : List LoggedMutation) : Inv entries (Function.update control i (beginAcquire txn effects)) := by
  unfold beginAcquire
  cases hkeys : canonicalKeys txn effects [] with
  | error error => exact h.quiet (by simp [hpc, Pc.keys]) (by simp [Pc.keys]) (by simp [Pc.batch, Pc.keys])
  | ok keys =>
    refine h.quiet (by simp [hpc, Pc.keys]) (by simp [Pc.keys]) ?_
    exact (canonicalKeys_sorted List.Pairwise.nil hkeys).imp fun hlt => ne_of_lt hlt

theorem Inv.acquireKey (h : Inv s.entries control) {held todo : List LogicalKey}
    (hpc : control i = .acquiring txn held (key :: todo)) :
    Inv (s.acquireKey shard txn held key todo).1.entries
      (Function.update control i (s.acquireKey shard txn held key todo).2) := by
  have hbatch := h.nodup i
  rw [hpc] at hbatch
  have hfree : key ∉ held := fun hmem => (List.nodup_append.mp hbatch).2.2 key hmem key (by simp) rfl
  have hclaimed : (held ++ [key] ++ todo).Nodup := by simpa [Pc.batch] using hbatch
  have hrollback : ∀ error, Inv s.entries (Function.update control i (.releasing txn held.reverse (some error))) := by
    intro error
    refine h.quiet (by simp [hpc, Pc.keys]) (by simp [hpc, Pc.txn]) ?_
    exact List.nodup_reverse.mpr (List.nodup_append.mp hbatch).1
  have hmembers : ∀ other, other ∈ (Pc.acquiring txn (held ++ [key]) todo).keys ↔ other = key ∨
      other ∈ (control i).keys := by
    intro other
    simp [hpc, Pc.keys, or_comm]
  unfold WriteIntentTable.acquireKey
  split
  · exact hrollback _
  · cases hentry : s.entries[key]? with
    | none =>
      have hnone := h.absent key hentry
      refine h.claim (n := 0) hnone.symm (fun j hj => ?_) (by simpa [hpc, Pc.keys]) hmembers rfl
        (by rw [hpc]; rfl) hclaimed
      obtain ⟨entry, hsome, -⟩ := h.entry_of_mem hj
      cases hentry.symm.trans hsome
    | some entry =>
      obtain ⟨hholders, -, howns⟩ := h.present key entry hentry
      by_cases howner : entry.owner = txn
      · subst howner
        by_cases hroom : entry.holders + 1 < 256 ^ 8
        · simp only [hroom, if_true]
          exact h.claim hholders howns (by simpa [hpc, Pc.keys]) hmembers rfl (by rw [hpc]; rfl) hclaimed
        · simp only [hroom, if_true, if_false]
          exact hrollback _
      · simp only [howner, if_false]
        exact hrollback _

theorem Inv.next (h : Inv s.entries control) {choice : Choice}
    (hnext : s.next shard (control i) choice = some (s', p)) : Inv s'.entries (Function.update control i p) := by
  cases hpc : control i with
  | idle last =>
    rw [hpc] at hnext
    cases choice with
    | tryAcquire txn effects => cases hnext; exact h.begin hpc effects
    | poison shard => cases hnext; exact h.quiet (by simp [hpc]) (by simp [Pc.keys]) (by simp [Pc.batch, Pc.keys])
    | drop | go => cases hnext
  | acquiring txn held todo =>
    rw [hpc] at hnext
    have hbatch := h.nodup i
    rw [hpc] at hbatch
    cases choice with
    | go =>
      cases todo with
      | nil =>
        cases hnext
        exact h.quiet (by simp [hpc, Pc.keys]) (by simp [hpc, Pc.txn]) (by simpa [Pc.batch, Pc.keys] using hbatch)
      | cons key todo =>
        obtain ⟨rfl, rfl⟩ := Prod.mk.inj (Option.some.inj hnext)
        exact h.acquireKey hpc
    | tryAcquire | poison | drop => cases todo <;> cases hnext
  | guard txn keys =>
    rw [hpc] at hnext
    have hbatch := h.nodup i
    rw [hpc] at hbatch
    cases choice with
    | drop =>
      cases hnext
      exact h.quiet (by simp [hpc, Pc.keys]) (by simp [hpc, Pc.txn]) (List.nodup_reverse.mpr hbatch)
    | tryAcquire | poison | go => cases hnext
  | releasing txn keys error =>
    rw [hpc] at hnext
    have hbatch := h.nodup i
    rw [hpc] at hbatch
    cases choice with
    | go =>
      cases keys with
      | nil =>
        cases hnext
        exact h.quiet (by simp [hpc, Pc.keys]) (by simp [Pc.keys]) (by simp [Pc.batch, Pc.keys])
      | cons key keys =>
        cases hnext
        obtain ⟨hhead, htail⟩ := List.nodup_cons.mp hbatch
        refine h.release (by simp [hpc, Pc.keys]) (by rw [hpc]; rfl) (fun other => ?_) rfl htail
        rw [hpc]
        show other ∈ keys ↔ other ≠ key ∧ other ∈ key :: keys
        rw [List.mem_cons]
        exact ⟨fun hmem => ⟨fun heq => hhead (heq ▸ hmem), .inr hmem⟩, fun hmem => hmem.2.resolve_left hmem.1⟩
    | tryAcquire | poison | drop => cases keys <;> cases hnext

theorem inv_of_reach {guard : Threads m WriteIntentTable Pc → Fin m × Choice → Prop} {t : Threads m WriteIntentTable Pc}
    (h : (WriteIntentTable.system shard m).Reach guard t) : Inv t.shared.entries t.control := by
  refine h.invariant (P := fun t => Inv t.shared.entries t.control) ?_ ?_
  · rintro t ⟨hshared, hidle⟩
    rw [hshared]
    refine ⟨fun i => ?_, fun key _ => Threads.count_eq_zero fun i => ?_, fun key entry hentry => ?_⟩
    · simp [hidle, Pc.batch, Pc.keys]
    · simp [hidle, Pc.keys]
    · simp [WriteIntentTable.new] at hentry
  · intro t a t' hinv _ hstep
    obtain ⟨s, p, hnext, rfl⟩ := Threads.step_eq_some.mp hstep
    exact hinv.next hnext

theorem Inv.entries_eq {entries' : OrdMap LogicalKey IntentEntry} {control' : Fin m → Pc} (h : Inv entries control)
    (h' : Inv entries' control') (hkeys : ∀ i, (control i).keys = (control' i).keys)
    (htxn : ∀ i, (control i).keys ≠ [] → (control i).txn = (control' i).txn) : entries = entries' := by
  have hclaims : ∀ key, claims control key = claims control' key := fun key => by simp [claims, Threads.count, hkeys]
  refine OrdMap.ext_get fun key => ?_
  cases hentry : entries[key]? with
  | none =>
    cases hentry' : entries'[key]? with
    | none => rfl
    | some entry' =>
      have hzero := h.absent key hentry
      obtain ⟨hholders, hpos, -⟩ := h'.present key entry' hentry'
      rw [hclaims] at hzero
      omega
  | some entry =>
    obtain ⟨hholders, hpos, howns⟩ := h.present key entry hentry
    have hex : ∃ i, key ∈ (control i).keys := by
      by_contra hnone
      have hzero : claims control key = 0 := Threads.count_eq_zero fun i hi => hnone ⟨i, hi⟩
      omega
    obtain ⟨i, hi⟩ := hex
    obtain ⟨entry', hentry', howner'⟩ := h'.entry_of_mem (hkeys i ▸ hi)
    obtain ⟨hholders', -, -⟩ := h'.present key entry' hentry'
    have howner : entry.owner = entry'.owner :=
      Option.some.inj ((howns i hi).symm.trans ((htxn i (List.ne_nil_of_mem hi)).trans howner'))
    have hcount : entry.holders = entry'.holders := by rw [hholders, hholders', hclaims]
    rw [hentry']
    cases entry
    cases entry'
    cases howner
    cases hcount
    rfl

def liveGuards (control : Fin m → Pc) (key : LogicalKey) : ℕ := Threads.count control (Pc.Guards key)

theorem claims_eq_liveGuards (hsettled : ∀ i, ¬ (control i).Pending key) :
    claims control key = liveGuards control key := by
  have hiff : ∀ i, key ∈ (control i).keys ↔ (control i).Guards key := by
    intro i
    refine ⟨fun hmem => ?_, fun hguard => ?_⟩
    · by_contra hnot
      exact hsettled i ⟨hmem, hnot⟩
    · cases hpc : control i <;> rw [hpc] at hguard <;> first | exact hguard | exact hguard.elim
  simp only [claims, liveGuards, Threads.count, hiff]

/-- At every point of every interleaving: the threads with a claim on a key are of one transaction, the
owner in its entry; the holders of an entry are the claims on its key, which are the live guards once no
call or drop is on its way with the key; a key has an entry exactly while it has a claim. A call that
failed leaves the table as it was: with the claims of the other threads as before, so is the table. -/
theorem write_intents_exact {t : Threads m WriteIntentTable Pc} (h : (WriteIntentTable.system shard m).Reachable t) :
    (∀ key i j, key ∈ (t.control i).keys → key ∈ (t.control j).keys → (t.control i).txn = (t.control j).txn) ∧
    (∀ (key : LogicalKey) (entry : IntentEntry), t.shared.entries[key]? = some entry →
      (∀ i, key ∈ (t.control i).keys → (t.control i).txn = some entry.owner) ∧ entry.holders = claims t.control key ∧
      ((∀ i, ¬ (t.control i).Pending key) → entry.holders = liveGuards t.control key)) ∧
    (∀ key, t.shared.entries[key]? = none ↔ claims t.control key = 0) ∧
    (∀ key, (∀ i, ¬ (t.control i).Pending key) → (t.shared.entries[key]? = none ↔ liveGuards t.control key = 0)) ∧
    ∀ (acts : List (Fin m × Choice)) (t' : Threads m WriteIntentTable Pc) (i : Fin m) (last : Option WriteIntentError)
      (error : WriteIntentError), (WriteIntentTable.system shard m).run t acts = some t' → t.control i = .idle last →
      t'.control i = .idle (some error) → (∀ j, j ≠ i → t'.control j = t.control j) →
        t'.shared.entries = t.shared.entries := by
  have hinv := inv_of_reach h
  have habsent : ∀ key, t.shared.entries[key]? = none ↔ claims t.control key = 0 := by
    refine fun key => ⟨hinv.absent key, fun hzero => ?_⟩
    cases hentry : t.shared.entries[key]? with
    | none => rfl
    | some entry =>
      obtain ⟨hholders, hpos, -⟩ := hinv.present key entry hentry
      omega
  refine ⟨fun key i j hi hj => ?_, fun key entry hentry => ?_, habsent, fun key hsettled => ?_, ?_⟩
  · obtain ⟨entry, hentry, howner⟩ := hinv.entry_of_mem hi
    exact howner.trans ((hinv.present key entry hentry).2.2 j hj).symm
  · obtain ⟨hholders, -, howns⟩ := hinv.present key entry hentry
    exact ⟨howns, hholders, fun hsettled => hholders.trans (claims_eq_liveGuards hsettled)⟩
  · rw [habsent, claims_eq_liveGuards hsettled]
  · intro acts t' i last error hrun hidle hfailed hothers
    have hkeys : ∀ j, (t'.control j).keys = (t.control j).keys := by
      intro j
      by_cases hj : j = i
      · subst hj
        rw [hidle, hfailed]
        rfl
      · rw [hothers j hj]
    refine (inv_of_reach (Machine.reachable_run h hrun)).entries_eq hinv hkeys fun j hne => ?_
    by_cases hj : j = i
    · subst hj
      rw [hfailed] at hne
      exact (hne rfl).elim
    · rw [hothers j hj]

def putAt (txn : TxnId) (byte : Byte) : LoggedMutation := ⟨txn, 0, 1, .orderedPut, [byte], []⟩

/-- The first thread has two keys for transaction 1, the second a nested guard on the second key. -/
def nestedActs : List (Fin 3 × Choice) :=
  (0, .tryAcquire 1 [putAt 1 1, putAt 1 2]) :: List.replicate 3 (0, .go) ++ (1, .tryAcquire 1 [putAt 1 2]) ::
  List.replicate 2 (1, .go)

/-- The third thread asks for a free key and that second key for transaction 2. -/
def refusedActs : List (Fin 3 × Choice) := (2, .tryAcquire 2 [putAt 2 0, putAt 2 2]) :: List.replicate 4 (2, .go)

theorem write_intents_exact_nested :
    ∃ t t' : Threads 3 WriteIntentTable Pc, (WriteIntentTable.system (fun _ => 0) 3).Reachable t ∧
    (WriteIntentTable.system (fun _ => 0) 3).run t refusedActs = some t' ∧
      t'.control 2 = .idle (some (.conflict 1 [2] 1)) ∧ liveGuards t.control (toLex (1, [2])) = 2 ∧
      (∃ entry : IntentEntry, t.shared.entries[(toLex (1, [2]) : LogicalKey)]? = some entry ∧
      entry.holders = liveGuards t.control (toLex (1, [2]))) ∧ t'.shared.entries = t.shared.entries := by
  let start : Threads 3 WriteIntentTable Pc := ⟨.new, fun _ => .idle none⟩
  have hstart : (WriteIntentTable.system (fun _ => 0) 3).Reachable start := .init ⟨rfl, fun _ => rfl⟩
  have hrun : ((WriteIntentTable.system (fun _ => 0) 3).run start nestedActs).map (fun t => t.control) =
      some ![.guard 1 [toLex (1, [1]), toLex (1, [2])], .guard 1 [toLex (1, [2])], .idle none] := by decide +kernel
  obtain ⟨t, ht, hcontrol⟩ := Option.map_eq_some_iff.mp hrun
  have hrun' : (((WriteIntentTable.system (fun _ => 0) 3).run start nestedActs).bind fun t =>
      (WriteIntentTable.system (fun _ => 0) 3).run t refusedActs).map (fun t => t.control) =
      some ![.guard 1 [toLex (1, [1]), toLex (1, [2])], .guard 1 [toLex (1, [2])],
        .idle (some (.conflict 1 [2] 1))] := by decide +kernel
  have hreach := Machine.reachable_run hstart ht
  rw [ht] at hrun'
  obtain ⟨t', ht', hcontrol'⟩ := Option.map_eq_some_iff.mp hrun'
  obtain ⟨-, hentry, -, habsent, hfailed⟩ := write_intents_exact hreach
  have hsettled : ∀ i, ¬ (t.control i).Pending (toLex (1, [2])) := by
    rw [hcontrol]
    decide +kernel
  have htwo : liveGuards t.control (toLex (1, [2])) = 2 := by
    rw [hcontrol]
    decide +kernel
  have hothers : ∀ j : Fin 3, j ≠ 2 → t'.control j = t.control j := by
    rw [hcontrol, hcontrol']
    decide +kernel
  have hidle : t.control 2 = .idle none := congrFun hcontrol 2
  have hrefused : t'.control 2 = .idle (some (.conflict 1 [2] 1)) := congrFun hcontrol' 2
  refine ⟨t, t', hreach, ht', hrefused, htwo, ?_, hfailed refusedActs t' 2 none _ ht' hidle hrefused hothers⟩
  cases hget : t.shared.entries[(toLex (1, [2]) : LogicalKey)]? with
  | none =>
    have hzero := (habsent _ hsettled).mp hget
    omega
  | some entry => exact ⟨entry, rfl, (hentry _ entry hget).2.2 hsettled⟩

end Intent

end OmenDb.Vnext
