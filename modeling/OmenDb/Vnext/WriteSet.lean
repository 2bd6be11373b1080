import OmenDb.Lib.Fields
import OmenDb.Vnext.FinalEffects

/-! A transaction's writes read three ways: one after the other, by the final effect of each key, and
through the overlay that the transaction itself reads. -/
namespace OmenDb.Vnext

abbrev OrderedState := OrdMap LogicalKey Bytes

def LoggedMutation.applyTo (state : OrderedState) (mutation : LoggedMutation) : OrderedState :=
  match mutation.kind with
  | .orderedPut => state.insert mutation.logicalKey mutation.value
  | .orderedDelete => state.erase mutation.logicalKey

def applyMutations (state : OrderedState) (mutations : List LoggedMutation) : OrderedState :=
  mutations.foldl LoggedMutation.applyTo state

inductive StagedOrderedLookup
  | put (value : Bytes)
  | delete
  | unchanged
  deriving DecidableEq

def stagedOrderedLookup (mutations : List LoggedMutation) (object : StorageObjectId) (key : Bytes) :
    StagedOrderedLookup :=
  match mutations.reverse.find? fun mutation => decide (mutation.object = object ∧ mutation.key = key) with
  | none => .unchanged
  | some mutation =>
    match mutation.kind with
    | .orderedPut => .put mutation.value
    | .orderedDelete => .delete

def StagedOrderedLookup.over (below : Option Bytes) : StagedOrderedLookup → Option Bytes
  | put value => some value
  | delete => none
  | unchanged => below

/-- The mutations of one transaction, numbered from `index` on. -/
def Contiguous (txn : TxnId) : ℕ → List LoggedMutation → Prop
  | _, [] => True
  | index, mutation :: mutations =>
    mutation.txn = txn ∧ mutation.ordinal.val = index ∧ Contiguous txn (index + 1) mutations

theorem stagedOrderedLookup_eq (mutations : List LoggedMutation) (object : StorageObjectId) (key : Bytes) :
    stagedOrderedLookup mutations object key = match latestFor mutations (toLex (object, key)) with
      | none => .unchanged
      | some mutation => match mutation.kind with
        | .orderedPut => .put mutation.value
        | .orderedDelete => .delete := by
  have hpred : (fun mutation : LoggedMutation => decide (mutation.object = object ∧ mutation.key = key)) =
      fun mutation => decide (mutation.logicalKey = toLex (object, key)) := by
    funext mutation
    simp [LoggedMutation.logicalKey]
  rw [stagedOrderedLookup, hpred, latestFor]

theorem get_applyMutations (state : OrderedState) (mutations : List LoggedMutation) (object : StorageObjectId)
    (key : Bytes) : (applyMutations state mutations)[toLex (object, key)]? =
      (stagedOrderedLookup mutations object key).over state[toLex (object, key)]? := by
  rw [stagedOrderedLookup_eq]
  induction mutations generalizing state with
  | nil => rfl
  | cons mutation mutations ih =>
    rw [applyMutations, List.foldl_cons, ← applyMutations, ih, latestFor_cons]
    cases latestFor mutations (toLex (object, key)) with
    | some later => cases hkind : later.kind <;> simp [StagedOrderedLookup.over, hkind]
    | none =>
      rw [Option.none_or]
      cases hkind : mutation.kind <;> by_cases hkey : mutation.logicalKey = toLex (object, key) <;>
        simp [LoggedMutation.applyTo, StagedOrderedLookup.over, hkind, hkey]

variable {txn : TxnId} {mutations effects : List LoggedMutation}

theorem collectEffects_contiguous {index : ℕ} (h : Contiguous txn index mutations)
    (byKey : OrdMap LogicalKey LoggedMutation) : ∃ byKey', collectEffects txn mutations index byKey = .ok byKey' := by
  induction mutations generalizing index byKey with
  | nil => exact ⟨byKey, rfl⟩
  | cons mutation mutations ih =>
    obtain ⟨htxn, hordinal, hrest⟩ := h
    obtain ⟨byKey', hcollect⟩ := ih hrest (byKey.insert mutation.logicalKey mutation)
    have hword : (Word.ofLength? index : Option (Word 4)) = some mutation.ordinal := by
      subst hordinal
      exact Word.ofLength?_of_lt mutation.ordinal.isLt
    refine ⟨byKey', ?_⟩
    rw [collectEffects, hword]
    simp only [ne_eq, not_true_eq_false, if_false, htxn]
    exact hcollect

theorem latestFor_of_nodup (hnodup : (effects.map LoggedMutation.logicalKey).Nodup) {effect : LoggedMutation}
    (hmem : effect ∈ effects) : latestFor effects effect.logicalKey = some effect := by
  cases hlatest : latestFor effects effect.logicalKey with
  | none =>
    have hnone := List.find?_eq_none.mp hlatest effect (List.mem_reverse.mpr hmem)
    simp at hnone
  | some other =>
    obtain ⟨hkey, hother⟩ := latestFor_key hlatest
    rw [List.inj_on_of_nodup_map hnodup hother hmem hkey]

theorem latestFor_finalEffects (h : normalizeFinalEffects txn mutations = .ok effects)
    (key : LogicalKey) : latestFor effects key = latestFor mutations key := by
  obtain ⟨hnodup, hmem, -⟩ := normalizeFinalEffects_ok h
  cases hlatest : latestFor mutations key with
  | some effect =>
    obtain ⟨rfl, -⟩ := latestFor_key hlatest
    exact latestFor_of_nodup hnodup ((hmem effect).mpr hlatest)
  | none =>
    cases hfinal : latestFor effects key with
    | none => rfl
    | some effect =>
      obtain ⟨rfl, heffect⟩ := latestFor_key hfinal
      exact ((hmem effect).mp heffect).symm.trans hlatest

/-- The final effects of a transaction do to any state what its mutations do one after the other, stand
in the order of their keys, and show the transaction the same overlay. -/
theorem final_effects_agree {txn : TxnId} (htxn : txn ≠ 0) {mutations : List LoggedMutation}
    (h : Contiguous txn 0 mutations) :
    ∃ effects, normalizeFinalEffects txn mutations = .ok effects ∧
      (effects.map LoggedMutation.logicalKey).Pairwise (· < ·) ∧
      ∀ state, applyMutations state effects = applyMutations state mutations ∧
        ∀ object key, stagedOrderedLookup effects object key = stagedOrderedLookup mutations object key ∧
          (applyMutations state mutations)[toLex (object, key)]? =
            (stagedOrderedLookup mutations object key).over state[toLex (object, key)]? := by
  obtain ⟨byKey, hcollect⟩ := collectEffects_contiguous h ∅
  have heffects : normalizeFinalEffects txn mutations = .ok byKey.entries := by
    rw [normalizeFinalEffects, if_neg htxn, hcollect]
  have hoverlay : ∀ object key, stagedOrderedLookup byKey.entries object key =
      stagedOrderedLookup mutations object key := by
    intro object key
    rw [stagedOrderedLookup_eq, stagedOrderedLookup_eq, latestFor_finalEffects heffects]
  have hkey : ∀ binding ∈ byKey.toList, (LoggedMutation.logicalKey ∘ Prod.snd) binding = binding.1 := by
    rintro ⟨key, effect⟩ hmem
    rw [OrdMap.mem_toList, (collectEffects_ok hcollect).1, OrdMap.get_empty, Option.or_none] at hmem
    exact (latestFor_key hmem).1
  refine ⟨byKey.entries, heffects, ?_, fun state =>
    ⟨?_, fun object key => ⟨hoverlay object key, get_applyMutations state mutations object key⟩⟩⟩
  · rw [OrdMap.entries, List.map_map, List.map_congr_left hkey, List.pairwise_map]
    exact byKey.sorted_toList
  · refine OrdMap.ext_get fun key => ?_
    rw [← toLex_ofLex key, get_applyMutations, get_applyMutations, hoverlay]

/-- A key is written twice and another is written and deleted, with `a` and `b` for the keys. -/
def rewrites (a b : Bytes) : List LoggedMutation :=
  [⟨3, 0, 1, .orderedPut, b, [7]⟩, ⟨3, 1, 1, .orderedPut, a, [8]⟩, ⟨3, 2, 1, .orderedPut, b, [9]⟩,
    ⟨3, 3, 1, .orderedDelete, a, []⟩]

theorem final_effects_agree_rewrites : ∃ effects, normalizeFinalEffects 3 (rewrites [1] [2]) = .ok effects ∧
    applyMutations ∅ effects = applyMutations ∅ (rewrites [1] [2]) := by
  obtain ⟨effects, heffects, -, hagree⟩ :=
    final_effects_agree (show (3 : TxnId) ≠ 0 by decide)
    (show Contiguous 3 0 (rewrites [1] [2]) by simp [rewrites, Contiguous])
  exact ⟨effects, heffects, (hagree ∅).1⟩

end OmenDb.Vnext
