import Mathlib

/-! The first of every class of equal elements, in order. -/
namespace OmenDb

variable {α : Type}

/-- Keep an element unless an equal one stands before it. -/
def firsts (same : α → α → Bool) : List α → List α
  | [] => []
  | a :: l => a :: (firsts same l).filter fun b => !same a b

variable {same : α → α → Bool}

theorem firsts_pairwise (l : List α) : (firsts same l).Pairwise fun a b => same a b = false := by
  induction l with
  | nil => exact .nil
  | cons a l ih =>
    refine List.pairwise_cons.mpr ⟨fun b hb => ?_, ih.filter _⟩
    simpa using (List.mem_filter.mp hb).2

theorem mem_of_mem_firsts {l : List α} {a : α} (h : a ∈ firsts same l) : a ∈ l := by
  induction l with
  | nil => cases h
  | cons b l ih =>
    obtain rfl | h := List.mem_cons.mp h
    · exact List.mem_cons_self
    · exact List.mem_cons_of_mem _ (ih (List.mem_of_mem_filter h))

theorem firsts_of_pairwise {l : List α} (h : l.Pairwise fun a b => same a b = false) : firsts same l = l := by
  induction l with
  | nil => rfl
  | cons a l ih =>
    obtain ⟨ha, hl⟩ := List.pairwise_cons.mp h
    rw [firsts, ih hl, List.filter_eq_self.mpr (by simpa using ha)]

/-- What every two distinct elements of a list without repetition have, in the terms of membership. -/
theorem pairwise_iff_distinct {l : List α} {P : α → α → Prop} (hrefl : ∀ a, same a a = true)
    (hsymm : ∀ {a b}, P a b → P b a) (h : l.Pairwise fun a b => same a b = false) :
    l.Pairwise P ↔ ∀ a ∈ l, ∀ b ∈ l, same a b = false → P a b := by
  constructor
  · intro hp a ha b hb hab
    have : Std.Symm P := ⟨fun _ _ => hsymm⟩
    refine hp.forall ha hb ?_
    rintro rfl
    simp [hrefl] at hab
  · exact fun hall => h.imp_of_mem fun ha hb hab => hall _ ha _ hb hab

section Equivalence
variable (hsame : Equivalence fun a b => same a b = true)
include hsame

theorem same_congr {a b : α} (h : same a b = true) (c : α) : same a c = same b c := by
  rw [Bool.eq_iff_iff]
  exact ⟨hsame.trans (hsame.symm h), hsame.trans h⟩

theorem exists_mem_firsts {l : List α} {a : α} (h : a ∈ l) : ∃ b ∈ firsts same l, same b a = true := by
  induction l with
  | nil => cases h
  | cons c l ih =>
    by_cases hca : same c a = true
    · exact ⟨c, by simp [firsts], hca⟩
    · have hl : a ∈ l := by
        refine (List.mem_cons.mp h).resolve_left ?_
        rintro rfl
        exact hca (hsame.refl _)
      obtain ⟨b, hb, hba⟩ := ih hl
      refine ⟨b, List.mem_cons_of_mem _ (List.mem_filter.mpr ⟨hb, ?_⟩), hba⟩
      have hcb : ¬ same c b = true := fun hcb => hca (hsame.trans hcb hba)
      simpa using hcb

theorem foldl_insert_eq (l kept : List α) :
    l.foldl (fun kept a => if kept.any (same a) then kept else kept ++ [a]) kept =
      kept ++ (firsts same l).filter fun b => !kept.any (same b) := by
  induction l generalizing kept with
  | nil => simp [firsts]
  | cons a l ih =>
    rw [List.foldl_cons, ih, firsts, List.filter_cons, List.filter_filter]
    by_cases ha : kept.any (same a) = true
    · -- what equals `a` equals something kept as well
      rw [if_pos ha, if_neg (by simp [ha])]
      congr 1
      refine List.filter_congr fun b _ => ?_
      by_cases hab : same a b = true
      · obtain ⟨c, hc, hac⟩ := List.any_eq_true.mp ha
        have hkept : kept.any (same b) = true :=
          List.any_eq_true.mpr ⟨c, hc, by rw [← same_congr hsame hab]; exact hac⟩
        simp [hkept]
      · simp [hab]
    · rw [if_neg ha, if_pos (by simpa using ha), List.append_assoc]
      congr 1
      rw [List.singleton_append]
      congr 1
      refine List.filter_congr fun b _ => ?_
      have hsymm : same b a = same a b := Bool.eq_iff_iff.mpr ⟨hsame.symm, hsame.symm⟩
      simp [List.any_append, hsymm]

theorem firsts_concat (l : List α) (a : α) :
    firsts same (l ++ [a]) = if (firsts same l).any (same a) then firsts same l else firsts same l ++ [a] := by
  have hfold : ∀ m : List α,
      firsts same m = m.foldl (fun kept a => if kept.any (same a) then kept else kept ++ [a]) [] := by
    intro m
    rw [foldl_insert_eq hsame]
    simp
  rw [hfold, List.foldl_append, ← hfold]
  rfl

end Equivalence

end OmenDb
