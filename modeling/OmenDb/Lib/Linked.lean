import Mathlib

/-! Lists whose elements know their successor, and the element of a sorted list that is in charge of
a key: the last that starts at or before it. -/
namespace OmenDb.Linked

variable {α K : Type} {Q R : α → Option α → Prop}

/-- Every element stands in `Q` to its successor. -/
def Each (Q : α → Option α → Prop) : List α → Prop
  | [] => True
  | a :: rest => Q a rest.head? ∧ Each Q rest

theorem Each.imp {xs : List α} (h : Each Q xs) (himp : ∀ a ∈ xs, ∀ next, Q a next → R a next) : Each R xs := by
  induction xs with
  | nil => trivial
  | cons a xs ih => exact ⟨himp a (by simp) _ h.1, ih h.2 fun b hb => himp b (by simp [hb])⟩

variable {pre post : List α}

theorem Each.tail (h : Each Q (pre ++ post)) : Each Q post := by
  induction pre with
  | nil => exact h
  | cons a pre ih => exact ih h.2

theorem Each.here {a : α} (h : Each Q (pre ++ a :: post)) : Q a post.head? := h.tail.1

theorem Each.of_mem {xs : List α} {a : α} (h : Each Q xs) (ha : a ∈ xs) : ∃ next, Q a next := by
  obtain ⟨pre, post, rfl⟩ := List.append_of_mem ha
  exact ⟨_, h.here⟩

theorem Each.rejoin {a : α} {post' : List α} (h : Each Q (pre ++ a :: post))
    (hpre : ∀ b ∈ pre, ∀ next, Q b next → R b next) (hrest : Each R (a :: post')) : Each R (pre ++ a :: post') := by
  induction pre with
  | nil => exact hrest
  | cons b pre ih =>
    refine ⟨?_, ih h.2 fun c hc => hpre c (by simp [hc])⟩
    have hb := hpre b (by simp) _ h.1
    cases pre with
    | nil => exact hb
    | cons c pre => exact hb

theorem Each.replace {a : α} (h : Each Q (pre ++ a :: post))
    (hpre : ∀ b ∈ pre, ∀ next, Q b next → R b next) (hpost : ∀ b ∈ post, ∀ next, Q b next → R b next)
    (ha : R a post.head?) : Each R (pre ++ a :: post) :=
  h.rejoin hpre ⟨ha, h.tail.2.imp hpost⟩

theorem Each.insert {pre : List α} {a new : α} {post : List α} (h : Each Q (pre ++ a :: post))
    (hpre : ∀ b ∈ pre, ∀ next, Q b next → R b next) (hpost : ∀ b ∈ post, ∀ next, Q b next → R b next)
    (ha : R a (some new)) (hnew : R new post.head?) : Each R (pre ++ a :: new :: post) :=
  h.rejoin hpre ⟨ha, hnew, h.tail.2.imp hpost⟩

variable [LinearOrder K] {key : α → K} {xs ys : List α} {k l : K} {a b : α}

def Covers (key : α → K) (xs : List α) (k : K) (a : α) : Prop :=
  a ∈ xs ∧ key a ≤ k ∧ ∀ b ∈ xs, key b ≤ k → key b ≤ key a

/-- An element that is in charge of two keys of a finer list leaves the one in charge of a coarser
list the same. -/
theorem Covers.transfer (hk : Covers key xs k a) (hl : Covers key xs l a) (hsub : ∀ c ∈ ys, ∃ d ∈ xs, key d = key c)
    (hb : Covers key ys k b) : Covers key ys l b := by
  have hle : ∀ c ∈ ys, ∀ {m n : K}, Covers key xs m a → Covers key xs n a → key c ≤ m → key c ≤ n := by
    intro c hc m n hm hn hcm
    obtain ⟨d, hd, hdc⟩ := hsub c hc
    exact hdc ▸ (hm.2.2 d hd (hdc ▸ hcm)).trans hn.2.1
  refine ⟨hb.1, hle b hb.1 hk hl hb.2.1, ?_⟩
  intro c hc hcl
  exact hb.2.2 c hc (hle c hc hl hk hcl)

theorem covers_of_split (hs : (pre ++ a :: post).Pairwise fun x y => key x < key y) (hle : key a ≤ k)
    (hpost : ∀ b ∈ post, k < key b) : Covers key (pre ++ a :: post) k a := by
  refine ⟨by simp, hle, ?_⟩
  intro b hb hbk
  rcases List.mem_append.mp hb with hb | hb
  · exact ((List.pairwise_append.mp hs).2.2 b hb a (by simp)).le
  · rcases List.mem_cons.mp hb with rfl | hb
    · exact le_rfl
    · exact absurd hbk (not_le.mpr (hpost b hb))

theorem Covers.lt_of_mem (h : Covers key (pre ++ a :: post) k a)
    (hs : (pre ++ a :: post).Pairwise fun x y => key x < key y) (hb : b ∈ post) : k < key b := by
  by_contra hle
  have hab : key a < key b := (List.pairwise_cons.mp (List.pairwise_append.mp hs).2.1).1 b hb
  exact absurd (h.2.2 b (by simp [hb]) (not_lt.mp hle)) (not_le.mpr hab)

end OmenDb.Linked
