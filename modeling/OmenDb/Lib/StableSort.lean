import Mathlib

/-! What a comparison sort of the standard library promises. It sorts when the comparator is a
total order of the elements it is given. On any other comparator a long slice may come out in any
order, or the sort may panic; a short slice goes through insertion whatever the comparator is. -/
namespace OmenDb

variable {α : Type}

/-- Insertion from the left: each element moves back past those it is strictly below. The sorted
part is held last element first. -/
def insertionSortBy (c : α → α → Ordering) (l : List α) : List α :=
  (l.foldl (fun sorted x => sorted.orderedInsert (fun x y => c x y ≠ .lt) x) []).reverse

section
variable {c s : α → α → Ordering} [Std.TransCmp s]

theorem orderedInsert_sorted {x : α} {ys : List α} (hx : ∀ y ∈ ys, c x y = s x y)
    (h : ys.Pairwise fun a b => (s b a).isLE) :
    (ys.orderedInsert (fun x y => c x y ≠ .lt) x).Pairwise fun a b => (s b a).isLE := by
  induction ys with
  | nil => simp
  | cons y ys ih =>
    obtain ⟨hy, hys⟩ := List.pairwise_cons.mp h
    have hc : c x y = s x y := hx y (by simp)
    rw [List.orderedInsert_cons]
    split
    · rename_i hnlt
      -- `x` stays behind `y`, hence behind everything before `y`
      have hyx : (s y x).isLE := by
        rw [(inferInstance : Std.OrientedCmp s).eq_swap, ← hc]
        revert hnlt
        cases c x y <;> simp
      refine List.pairwise_cons.mpr ⟨fun z hz => ?_, h⟩
      rcases List.mem_cons.mp hz with rfl | hz
      · exact hyx
      · exact Std.TransCmp.isLE_trans (hy z hz) hyx
    · rename_i hlt
      refine List.pairwise_cons.mpr ⟨fun z hz => ?_, ih (fun z hz => hx z (by simp [hz])) hys⟩
      rcases (List.mem_orderedInsert _).mp hz with rfl | hz
      · rw [← hc, not_not.mp hlt]
        rfl
      · exact hy z hz

theorem foldl_orderedInsert (l acc : List α) (hagree : ∀ a ∈ l ++ acc, ∀ b ∈ l ++ acc, c a b = s a b)
    (hacc : acc.Pairwise fun a b => (s b a).isLE) :
    let out := l.foldl (fun sorted x => sorted.orderedInsert (fun x y => c x y ≠ .lt) x) acc
    out.Perm (l ++ acc) ∧ out.Pairwise fun a b => (s b a).isLE := by
  induction l generalizing acc with
  | nil => exact ⟨.refl _, hacc⟩
  | cons x l ih =>
    have hperm : (l ++ acc.orderedInsert (fun x y => c x y ≠ .lt) x).Perm (x :: l ++ acc) :=
      ((List.perm_orderedInsert _ x acc).append_left l).trans List.perm_middle
    have hsorted := @orderedInsert_sorted _ c s _ x acc
      (fun y hy => hagree x (by simp) y (by simp [hy])) hacc
    obtain ⟨hp, hs⟩ := ih (acc.orderedInsert (fun x y => c x y ≠ .lt) x)
      (fun a ha b hb => hagree a (hperm.mem_iff.mp ha) b (hperm.mem_iff.mp hb)) hsorted
    exact ⟨hp.trans hperm, hs⟩

theorem insertionSortBy_sorts {l : List α} (hagree : ∀ a ∈ l, ∀ b ∈ l, c a b = s a b) :
    (insertionSortBy c l).Perm l ∧ (insertionSortBy c l).Pairwise fun a b => (s a b).isLE := by
  obtain ⟨hp, hs⟩ := foldl_orderedInsert (c := c) (s := s) l [] (by simpa using hagree) .nil
  refine ⟨(List.reverse_perm _).trans (by simpa using hp), ?_⟩
  exact List.pairwise_reverse.mpr hs

end

theorem insertionSortBy_pair (c : α → α → Ordering) (a b : α) :
    insertionSortBy c [a, b] = if c b a = .lt then [b, a] else [a, b] := by
  simp only [insertionSortBy, List.foldl_cons, List.foldl_nil, List.orderedInsert_nil,
    List.orderedInsert_cons]
  split <;> simp_all

section Stable

variable {α : Type} {r s : α → α → Prop} [DecidableRel r]

/-- Before, by the key of the sort or, where the keys are equal, by the order before it. -/
def Stable (r s : α → α → Prop) (a b : α) : Prop := r a b ∧ (r b a → s a b)

theorem orderedInsert_stable (htotal : ∀ a b, r a b ∨ r b a) (htrans : ∀ a b c, r a b → r b c → r a c) {a : α}
    {l : List α}
    (ha : ∀ b ∈ l, s a b) (hl : l.Pairwise (Stable r s)) : (l.orderedInsert r a).Pairwise (Stable r s) := by
  induction l with
  | nil => simp
  | cons b l ih =>
    obtain ⟨hb, hrest⟩ := List.pairwise_cons.mp hl
    rw [List.orderedInsert_cons]
    split
    · rename_i hab
      refine List.pairwise_cons.mpr ⟨fun c hc => ⟨?_, fun _ => ha c hc⟩, hl⟩
      rcases List.mem_cons.mp hc with rfl | hc
      · exact hab
      · exact htrans a b c hab (hb c hc).1
    · rename_i hab
      refine List.pairwise_cons.mpr ⟨fun c hc => ?_, ih (fun c hc => ha c (List.mem_cons_of_mem _ hc)) hrest⟩
      rcases (List.mem_orderedInsert _).mp hc with rfl | hc
      · exact ⟨(htotal c b).resolve_left hab, fun h => (hab h).elim⟩
      · exact hb c hc

theorem insertionSort_stable (htotal : ∀ a b, r a b ∨ r b a) (htrans : ∀ a b c, r a b → r b c → r a c) {l : List α}
    (hl : l.Pairwise s) : (l.insertionSort r).Pairwise (Stable r s) := by
  induction l with
  | nil => simp
  | cons a l ih =>
    obtain ⟨ha, hrest⟩ := List.pairwise_cons.mp hl
    rw [List.insertionSort_cons]
    exact orderedInsert_stable htotal htrans (fun b hb => ha b ((List.mem_insertionSort _).mp hb)) (ih hrest)

end Stable

/-- An implementation of `sort_by`; `none` is a panic. -/
structure SortBy where
  sort : {α : Type} → (α → α → Ordering) → List α → Option (List α)
  short : ∀ {α : Type} (c : α → α → Ordering) (l : List α), l.length ≤ 20 →
    sort c l = some (insertionSortBy c l)
  sorts : ∀ {α : Type} (c s : α → α → Ordering) [Std.TransCmp s] (l : List α),
    (∀ a ∈ l, ∀ b ∈ l, c a b = s a b) →
      ∃ out, sort c l = some out ∧ out.Perm l ∧ out.Pairwise fun a b => (s a b).isLE

/-- Plain insertion at every length is such an implementation. -/
def SortBy.insertion : SortBy where
  sort c l := some (insertionSortBy c l)
  short _ _ _ := rfl
  sorts _ _ _ _ h := ⟨_, rfl, insertionSortBy_sorts h⟩

end OmenDb
