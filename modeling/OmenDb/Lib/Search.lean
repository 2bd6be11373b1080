import Mathlib

/-! Binary search by a comparator. A search is known by its contract alone: on a list whose answers
ascend it finds an equal element when there is one, and on any other list its result is left open. So
a result is certain only when every search gives it. -/
namespace OmenDb

def Ascending (answers : List Ordering) : Prop :=
  answers.Pairwise fun a b => (b = .lt → a = .lt) ∧ (a = .gt → b = .gt)

/-- A search over the answers of a comparator for the elements of a list. -/
structure BinarySearch where
  find : List Ordering → Option ℕ
  bound : ∀ {answers i}, find answers = some i → i < answers.length
  found : ∀ {answers i}, Ascending answers → find answers = some i → answers[i]? = some .eq
  missing : ∀ {answers}, Ascending answers → find answers = none → .eq ∉ answers

namespace BinarySearch

def first : BinarySearch where
  find answers := answers.findIdx? (· = .eq)
  bound h := (List.findIdx?_eq_some_iff_getElem.mp h).1
  found _ h := by
    obtain ⟨hi, heq, -⟩ := List.findIdx?_eq_some_iff_getElem.mp h
    rw [List.getElem?_eq_getElem hi, of_decide_eq_true heq]
  missing _ h hmem := by
    have hne := List.findIdx?_eq_none_iff.mp h _ hmem
    simp at hne

def choose (answers : List Ordering) (result : Option ℕ) (hbound : ∀ i ∈ result, i < answers.length)
    (hfound : Ascending answers → ∀ i ∈ result, answers[i]? = some .eq)
    (hmissing : Ascending answers → result = none → .eq ∉ answers) : BinarySearch where
  find as := if as = answers then result else first.find as
  bound := by
    intro as i h
    split at h
    · next has => exact has ▸ hbound i h
    · exact first.bound h
  found := by
    intro as i hasc h
    split at h
    · next has => exact has ▸ hfound (has ▸ hasc) i h
    · exact first.found hasc h
  missing := by
    intro as hasc h
    split at h
    · next has => exact has ▸ hmissing (has ▸ hasc) h
    · exact first.missing hasc h

variable {answers : List Ordering} {j : ℕ}

theorem ascending_of_compare (h : ∀ i a, answers[i]? = some a → a = compare i j) : Ascending answers := by
  refine List.pairwise_iff_getElem.mpr fun i i' hi hi' hlt => ?_
  have ha := h i _ (List.getElem?_eq_getElem hi)
  have hb := h i' _ (List.getElem?_eq_getElem hi')
  rw [ha, hb]
  simp only [compare_lt_iff_lt, compare_gt_iff_gt]
  omega

/-- Every search gives place `j` exactly when the answers before it are less, its own is equal and
those after it are greater. -/
theorem forall_find_iff :
    (∀ search : BinarySearch, search.find answers = some j) ↔
      j < answers.length ∧ ∀ i a, answers[i]? = some a → a = compare i j := by
  constructor
  · intro h
    have hasc : Ascending answers := by
      by_contra hasc
      have hnone := h (choose answers none (by simp) (fun h => absurd h hasc) (fun h => absurd h hasc))
      simp [choose] at hnone
    have hat : answers[j]? = some .eq := first.found hasc (h first)
    -- a second equal element could be found in its place
    have honly : ∀ i, answers[i]? = some .eq → i = j := by
      intro i hi
      have hpick := h (choose answers (some i) (by simpa using (List.getElem?_eq_some_iff.mp hi).1)
        (fun _ => by simpa using hi) (fun _ h => by cases h))
      simpa [choose] using hpick
    refine ⟨first.bound (h first), fun i a hi => ?_⟩
    obtain ⟨hi', rfl⟩ := List.getElem?_eq_some_iff.mp hi
    obtain ⟨hj', hj⟩ := List.getElem?_eq_some_iff.mp hat
    have hpairs := List.pairwise_iff_getElem.mp hasc
    rcases Nat.lt_trichotomy i j with hlt | rfl | hlt
    · have hle := (hpairs i j hi' hj' hlt).2
      have hne : answers[i] ≠ .eq := fun heq => hlt.ne (honly i (heq ▸ hi))
      rw [compare_lt_iff_lt.mpr hlt]
      cases hc : answers[i] <;> simp_all
    · rw [hj, compare_eq_iff_eq.mpr rfl]
    · have hle := (hpairs j i hj' hi' hlt).1
      have hne : answers[i] ≠ .eq := fun heq => hlt.ne' (honly i (heq ▸ hi))
      rw [compare_gt_iff_gt.mpr hlt]
      cases hc : answers[i] <;> simp_all
  · rintro ⟨hj, h⟩ search
    have hasc := ascending_of_compare h
    cases hfind : search.find answers with
    | none =>
      have hat := h j _ (List.getElem?_eq_getElem hj)
      rw [compare_eq_iff_eq.mpr rfl] at hat
      exact absurd (hat ▸ List.getElem_mem hj) (search.missing hasc hfind)
    | some i =>
      have heq := h i _ (search.found hasc hfind)
      rw [compare_eq_iff_eq.mp heq.symm]

end BinarySearch

end OmenDb
