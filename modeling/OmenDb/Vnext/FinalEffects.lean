import OmenDb.Vnext.Record
import OmenDb.Vnext.TreeMap

/-! The mutations that a transaction logs, and its final effects: the last mutation of each key. -/
namespace OmenDb.Vnext

inductive MutationKind
  | orderedPut
  | orderedDelete
  deriving DecidableEq

structure LoggedMutation where
  txn : TxnId
  ordinal : Word 4
  object : StorageObjectId
  kind : MutationKind
  key : Bytes
  value : Bytes
  deriving DecidableEq

/-- An object with a key in it, in the order of objects, then of keys. -/
abbrev LogicalKey := StorageObjectId ×ₗ Bytes

instance LogicalKey.transCmp : Std.TransCmp (@LinearOrder.toOrd LogicalKey _).compare := inferInstance

def LoggedMutation.logicalKey (mutation : LoggedMutation) : LogicalKey := toLex (mutation.object, mutation.key)

inductive FinalWriteSetError
  | reservedTransaction
  | wrongTransaction (expected actual : TxnId) (ordinal : Word 4)
  | nonContiguousOrdinal (expected actual : Word 4)
  | tooManyMutations
  deriving DecidableEq

def collectEffects (txn : TxnId) : List LoggedMutation → ℕ → OrdMap LogicalKey LoggedMutation →
    Except FinalWriteSetError (OrdMap LogicalKey LoggedMutation)
  | [], _, byKey => .ok byKey
  | mutation :: mutations, index, byKey =>
    match (Word.ofLength? index : Option (Word 4)) with
    | none => .error .tooManyMutations
    | some expected =>
      if mutation.ordinal ≠ expected then .error (.nonContiguousOrdinal expected mutation.ordinal)
      else if mutation.txn ≠ txn then .error (.wrongTransaction txn mutation.txn mutation.ordinal)
      else collectEffects txn mutations (index + 1) (byKey.insert mutation.logicalKey mutation)

def normalizeFinalEffects (txn : TxnId) (mutations : List LoggedMutation) :
    Except FinalWriteSetError (List LoggedMutation) :=
  if txn = 0 then .error .reservedTransaction
  else match collectEffects txn mutations 0 ∅ with
  | .error error => .error error
  | .ok byKey => .ok byKey.entries

def latestFor (mutations : List LoggedMutation) (key : LogicalKey) : Option LoggedMutation :=
  mutations.reverse.find? fun mutation => decide (mutation.logicalKey = key)

theorem latestFor_cons (mutation : LoggedMutation) (mutations : List LoggedMutation) (key : LogicalKey) :
    latestFor (mutation :: mutations) key =
      (latestFor mutations key).or (if mutation.logicalKey = key then some mutation else none) := by
  rw [latestFor, List.reverse_cons, List.find?_append]
  by_cases hkey : mutation.logicalKey = key <;> simp [latestFor, hkey]

variable {mutations : List LoggedMutation} {txn : TxnId}

theorem latestFor_key {key : LogicalKey} {mutation : LoggedMutation}
    (h : latestFor mutations key = some mutation) : mutation.logicalKey = key ∧ mutation ∈ mutations := by
  refine ⟨by simpa using List.find?_some h, ?_⟩
  simpa using List.mem_of_find?_eq_some h

theorem collectEffects_ok {index : ℕ} {byKey byKey' : OrdMap LogicalKey LoggedMutation}
    (h : collectEffects txn mutations index byKey = .ok byKey') :
    (∀ key, byKey'[key]? = (latestFor mutations key).or byKey[key]?) ∧ ∀ mutation ∈ mutations, mutation.txn = txn := by
  induction mutations generalizing index byKey with
  | nil =>
    cases h
    simp [latestFor]
  | cons mutation mutations ih =>
    rw [collectEffects] at h
    split at h
    · cases h
    split at h
    · cases h
    split at h
    · cases h
    next htxn =>
    obtain ⟨hget, hall⟩ := ih h
    constructor
    · intro key
      rw [hget, latestFor_cons, OrdMap.get_insert, Option.or_assoc]
      by_cases hkey : mutation.logicalKey = key <;> simp [hkey]
    · intro other hother
      rcases List.mem_cons.mp hother with rfl | hother
      · exact not_not.mp htxn
      · exact hall other hother

theorem normalizeFinalEffects_ok {effects : List LoggedMutation}
    (h : normalizeFinalEffects txn mutations = .ok effects) :
    (effects.map LoggedMutation.logicalKey).Nodup ∧
    (∀ effect, effect ∈ effects ↔ latestFor mutations effect.logicalKey = some effect) ∧
      ∀ effect ∈ effects, effect.txn = txn := by
  rw [normalizeFinalEffects] at h
  split at h
  · cases h
  split at h
  · cases h
  next byKey hcollect =>
  cases h
  obtain ⟨hget, htxn⟩ := collectEffects_ok hcollect
  have hget' : ∀ key, byKey[key]? = latestFor mutations key := fun key => by simp [hget]
  have hkey : ∀ binding ∈ byKey.toList, binding.2.logicalKey = binding.1 := by
    rintro ⟨key, effect⟩ hmem
    rw [OrdMap.mem_toList, hget'] at hmem
    exact (latestFor_key hmem).1
  have hmem : ∀ effect, effect ∈ byKey.entries ↔ latestFor mutations effect.logicalKey = some effect := by
    intro effect
    rw [OrdMap.mem_entries]
    constructor
    · rintro ⟨key, heffect⟩
      rw [hget'] at heffect
      rwa [(latestFor_key heffect).1]
    · exact fun heffect => ⟨_, (hget' _).trans heffect⟩
  refine ⟨?_, hmem, ?_⟩
  · have hkeys : byKey.entries.map LoggedMutation.logicalKey = byKey.toList.map Prod.fst := by
      rw [OrdMap.entries, List.map_map]
      exact List.map_congr_left hkey
    rw [hkeys, List.Nodup, List.pairwise_map]
    exact byKey.distinct_toList
  · intro effect heffect
    exact htxn effect (latestFor_key ((hmem effect).mp heffect)).2

end OmenDb.Vnext
