import Mathlib

/-! Lists of entries with strictly increasing keys: binary search, and what inserting, replacing and
removing at the place found does to the entry of each key. -/
namespace OmenDb.Keyed

variable {α K : Type} [LinearOrder K]

def Sorted (key : α → K) (es : List α) : Prop := es.Pairwise fun a b => key a < key b

/-- Where a search ends: at an entry, or at the place where one would go. -/
inductive Slot
  | found (i : ℕ)
  | missing (i : ℕ)
  deriving DecidableEq

/-- The loop of a binary search: below `lo` all is smaller, from `hi` on nothing is. -/
def probe (cmp : ℕ → Ordering) : ℕ → ℕ → ℕ → Option ℕ → Slot
  | 0, lo, _, found => found.elim (.missing lo) .found
  | fuel + 1, lo, hi, found =>
    if lo < hi then
      let mid := lo + (hi - lo) / 2
      match cmp mid with
      | .lt => probe cmp fuel (mid + 1) hi found
      | .eq => probe cmp fuel lo mid (some mid)
      | .gt => probe cmp fuel lo mid found
    else found.elim (.missing lo) .found

def binarySearch (cmp : ℕ → Ordering) (count : ℕ) : Slot := probe cmp count 0 count none

def get? (key : α → K) (es : List α) (k : K) : Option α := es.find? fun a => key a = k

def insertAt (es : List α) (i : ℕ) (a : α) : List α := es.take i ++ a :: es.drop i

def Slot.Fits (key : α → K) (es : List α) (k : K) : Slot → Prop
  | .found i => ∃ a, es[i]? = some a ∧ key a = k
  | .missing i => (∀ a ∈ es.take i, key a < k) ∧ ∀ a ∈ es.drop i, k < key a

section Search

variable {key : α → K} {es : List α} {k : K} {cmp : ℕ → Ordering}

theorem Sorted.lt_of_getElem? (hs : Sorted key es) {i j : ℕ} {a b : α} (hi : es[i]? = some a) (hj : es[j]? = some b)
    (hij : i < j) : key a < key b := by
  obtain ⟨hi', rfl⟩ := List.getElem?_eq_some_iff.mp hi
  obtain ⟨hj', rfl⟩ := List.getElem?_eq_some_iff.mp hj
  exact List.pairwise_iff_getElem.mp hs i j hi' hj' hij

theorem mem_take_iff {i : ℕ} {a : α} : a ∈ es.take i ↔ ∃ j, j < i ∧ es[j]? = some a := by
  rw [List.mem_iff_getElem?]
  constructor
  · rintro ⟨j, hj⟩
    rw [List.getElem?_take] at hj
    by_cases h : j < i
    · exact ⟨j, h, by simpa [h] using hj⟩
    · simp [h] at hj
  · rintro ⟨j, h, hj⟩
    exact ⟨j, by rw [List.getElem?_take_of_lt h, hj]⟩

theorem mem_drop_iff {i : ℕ} {a : α} : a ∈ es.drop i ↔ ∃ j, i ≤ j ∧ es[j]? = some a := by
  rw [List.mem_iff_getElem?]
  constructor
  · rintro ⟨j, hj⟩
    rw [List.getElem?_drop] at hj
    exact ⟨i + j, by omega, hj⟩
  · rintro ⟨j, h, hj⟩
    exact ⟨j - i, by rw [List.getElem?_drop, Nat.add_sub_of_le h, hj]⟩

/-- The first place that is not below, and whether it is the one looked for. -/
def Slot.First (cmp : ℕ → Ordering) (count : ℕ) : Slot → Prop
  | .found i => i < count ∧ cmp i = .eq ∧ ∀ j < i, cmp j = .lt
  | .missing i => i ≤ count ∧ (∀ j < i, cmp j = .lt) ∧ ∀ j, i ≤ j → j < count → cmp j = .gt

/-- The loop narrows down to the first place that is not below, when the order of the places is that of
the answers. -/
theorem probe_first {count : ℕ} (hlt : ∀ i j, i ≤ j → j < count → cmp j = .lt → cmp i = .lt)
    (hgt : ∀ i j, i ≤ j → j < count → cmp i = .gt → cmp j = .gt) (fuel lo hi : ℕ) (found : Option ℕ)
    (hfuel : hi - lo ≤ fuel) (hle : lo ≤ hi) (hhi : hi ≤ count) (hbelow : ∀ j < lo, cmp j = .lt)
    (hnone : found = none → ∀ j, hi ≤ j → j < count → cmp j = .gt)
    (hsome : ∀ i, found = some i → i = hi ∧ i < count ∧ cmp i = .eq) :
    (probe cmp fuel lo hi found).First cmp count := by
  have hdone : ∀ lo hi : ℕ, lo = hi → hi ≤ count → (∀ j < lo, cmp j = .lt) → ∀ found : Option ℕ,
      (found = none → ∀ j, hi ≤ j → j < count → cmp j = .gt) →
      (∀ i, found = some i → i = hi ∧ i < count ∧ cmp i = .eq) →
      (found.elim (.missing lo) Slot.found : Slot).First cmp count := by
    rintro lo hi rfl hhi hbelow found hnone hsome
    cases found with
    | none => exact ⟨hhi, hbelow, hnone rfl⟩
    | some i =>
      obtain ⟨rfl, hi, heq⟩ := hsome i rfl
      exact ⟨hi, heq, hbelow⟩
  induction fuel generalizing lo hi found with
  | zero => exact hdone lo hi (by omega) hhi hbelow found hnone hsome
  | succ fuel ih =>
    rw [probe]
    by_cases hlo : lo < hi
    swap
    · rw [if_neg hlo]
      exact hdone lo hi (by omega) hhi hbelow found hnone hsome
    rw [if_pos hlo]
    dsimp only
    have hmid : lo + (hi - lo) / 2 < count := by omega
    cases h : cmp (lo + (hi - lo) / 2) with
    | lt => exact ih _ hi found (by omega) (by omega) hhi (fun j hj => hlt j _ (by omega) hmid h) hnone hsome
    | eq => exact ih lo _ _ (by omega) (by omega) (by omega) hbelow nofun (by rintro i ⟨⟩; exact ⟨rfl, hmid, h⟩)
    | gt =>
      refine ih lo _ found (by omega) (by omega) (by omega) hbelow (fun _ j hj hlast => hgt _ j hj hlast h) ?_
      -- nothing was found yet: what lies behind a greater place is greater
      intro i hi'
      obtain ⟨rfl, hlast, heq⟩ := hsome i hi'
      rw [hgt _ _ (by omega) hlast h] at heq
      cases heq

theorem binarySearch_first {count : ℕ} (hlt : ∀ i j, i ≤ j → j < count → cmp j = .lt → cmp i = .lt)
    (hgt : ∀ i j, i ≤ j → j < count → cmp i = .gt → cmp j = .gt) : (binarySearch cmp count).First cmp count := by
  apply probe_first hlt hgt
  · omega
  · exact Nat.zero_le count
  · exact le_rfl
  · simp
  · omega
  · simp

theorem binarySearch_fits (hs : Sorted key es) (hcmp : ∀ i a, es[i]? = some a → cmp i = compare (key a) k) :
    (binarySearch cmp es.length).Fits key es k := by
  have hget : ∀ {i : ℕ}, i < es.length → ∃ a, es[i]? = some a := fun hi => ⟨_, List.getElem?_eq_getElem hi⟩
  have hfirst : (binarySearch cmp es.length).First cmp es.length := by
    apply binarySearch_first
    · intro i j hij hj h
      obtain ⟨a, ha⟩ := hget (hij.trans_lt hj)
      obtain ⟨b, hb⟩ := hget hj
      rcases hij.eq_or_lt with rfl | hij
      · exact h
      · rw [hcmp i a ha, compare_lt_iff_lt]
        exact (hs.lt_of_getElem? ha hb hij).trans (compare_lt_iff_lt.mp (hcmp j b hb ▸ h))
    · intro i j hij hj h
      obtain ⟨a, ha⟩ := hget (hij.trans_lt hj)
      obtain ⟨b, hb⟩ := hget hj
      rcases hij.eq_or_lt with rfl | hij
      · exact h
      · rw [hcmp j b hb, compare_gt_iff_gt]
        exact (compare_gt_iff_gt.mp (hcmp i a ha ▸ h)).trans (hs.lt_of_getElem? ha hb hij)
  cases hslot : binarySearch cmp es.length with
  | found i =>
    rw [hslot] at hfirst
    obtain ⟨a, ha⟩ := hget hfirst.1
    exact ⟨a, ha, compare_eq_iff_eq.mp (hcmp i a ha ▸ hfirst.2.1)⟩
  | missing i =>
    rw [hslot] at hfirst
    constructor
    · intro a ha
      obtain ⟨j, hj, hja⟩ := mem_take_iff.mp ha
      exact compare_lt_iff_lt.mp (hcmp j a hja ▸ hfirst.2.1 j hj)
    · intro a ha
      obtain ⟨j, hj, hja⟩ := mem_drop_iff.mp ha
      exact compare_gt_iff_gt.mp (hcmp j a hja ▸ hfirst.2.2 j hj (List.getElem?_eq_some_iff.mp hja).1)

end Search

section Repeats

variable {keys : List K} {key : K}

def orderAt (keys : List K) (key : K) (i : ℕ) : Ordering := keys[i]?.elim .gt (compare · key)

theorem orderAt_of_get {i : ℕ} {stored : K} (h : keys[i]? = some stored) : orderAt keys key i = compare stored key := by
  rw [orderAt, h, Option.elim_some]

theorem orderAt_of_less {hlt : DecidableLT K} {heq : DecidableEq K} {i : ℕ} {stored : K} (h : keys[i]? = some stored) :
    orderAt keys key i = compareOfLessAndEq stored key := by
  rw [orderAt_of_get h, LinearOrder.compare_eq_compareOfLessAndEq]
  congr

section

variable (hsorted : keys.Pairwise (· ≤ ·))
include hsorted

theorem orderAt_lt {i j : ℕ} (hij : i ≤ j) (hj : j < keys.length)
    (h : orderAt keys key j = .lt) : orderAt keys key i = .lt := by
  rw [orderAt_of_get (List.getElem?_eq_getElem hj), compare_lt_iff_lt] at h
  rw [orderAt_of_get (List.getElem?_eq_getElem (hij.trans_lt hj)), compare_lt_iff_lt]
  exact (hsorted.rel_get_of_le (a := ⟨i, hij.trans_lt hj⟩) (b := ⟨j, hj⟩) hij).trans_lt h

theorem orderAt_gt {i j : ℕ} (hij : i ≤ j) (hj : j < keys.length)
    (h : orderAt keys key i = .gt) : orderAt keys key j = .gt := by
  rw [orderAt_of_get (List.getElem?_eq_getElem (hij.trans_lt hj)), compare_gt_iff_gt] at h
  rw [orderAt_of_get (List.getElem?_eq_getElem hj), compare_gt_iff_gt]
  exact h.trans_le (hsorted.rel_get_of_le (a := ⟨i, hij.trans_lt hj⟩) (b := ⟨j, hj⟩) hij)

/-- The place of a key: the first of the equal ones, or where it would go. -/
def Place (keys : List K) (key : K) : Slot → Prop
  | .found i => keys[i]? = some key ∧ ∀ stored ∈ keys.take i, stored < key
  | .missing i => i ≤ keys.length ∧ (∀ stored ∈ keys.take i, stored < key) ∧ ∀ stored ∈ keys.drop i, key < stored

theorem binarySearch_place (key : K) :
    Place keys key (binarySearch (orderAt keys key) keys.length) := by
  have hfirst :=
    @binarySearch_first (orderAt keys key) keys.length (fun _ _ => orderAt_lt hsorted) fun _ _ => orderAt_gt hsorted
  have hbelow : ∀ i, (∀ j < i, orderAt keys key j = .lt) → ∀ stored ∈ keys.take i, stored < key := by
    intro i hi stored hmem
    obtain ⟨j, hj, hget⟩ := mem_take_iff.mp hmem
    have hlt := hi j hj
    rw [orderAt_of_get hget] at hlt
    exact compare_lt_iff_lt.mp hlt
  cases hslot : binarySearch (orderAt keys key) keys.length with
  | found i =>
    rw [hslot] at hfirst
    obtain ⟨hi, heq, hlt⟩ := hfirst
    have hget := List.getElem?_eq_getElem hi
    rw [orderAt_of_get hget] at heq
    refine ⟨?_, hbelow i hlt⟩
    rw [hget, compare_eq_iff_eq.mp heq]
  | missing i =>
    rw [hslot] at hfirst
    obtain ⟨hi, hlt, hgt⟩ := hfirst
    refine ⟨hi, hbelow i hlt, fun stored hmem => ?_⟩
    obtain ⟨j, hj, hget⟩ := mem_drop_iff.mp hmem
    have hafter := hgt j hj (List.getElem?_eq_some_iff.mp hget).1
    rw [orderAt_of_get hget] at hafter
    exact compare_gt_iff_gt.mp hafter

/-- So many keys are not above a key, and the others are. -/
structure UpperBound (keys : List K) (key : K) (n : ℕ) : Prop where
  le_length : n ≤ keys.length
  below : ∀ stored ∈ keys.take n, stored ≤ key
  above : ∀ stored ∈ keys.drop n, key < stored

theorem binarySearch_upper (key : K) :
    ∃ n, binarySearch (fun i => if orderAt keys key i = .gt then .gt else .lt) keys.length = .missing n ∧
      UpperBound keys key n := by
  have hfirst := @binarySearch_first (fun i => if orderAt keys key i = .gt then .gt else .lt) keys.length
    (fun i j hij hj h => by
      rw [ite_eq_right_iff] at h ⊢
      exact fun hgt => h (orderAt_gt hsorted hij hj hgt))
    (fun i j hij hj h => if_pos (orderAt_gt hsorted hij hj (by simpa using h)))
  cases hslot : binarySearch (fun i => if orderAt keys key i = .gt then .gt else .lt) keys.length with
  | found i =>
    rw [hslot] at hfirst
    have heq := hfirst.2.1
    dsimp only at heq
    split at heq <;> cases heq
  | missing n =>
    rw [hslot] at hfirst
    obtain ⟨hn, hbelow, habove⟩ := hfirst
    refine ⟨n, rfl, hn, fun stored hmem => ?_, fun stored hmem => ?_⟩
    · obtain ⟨j, hj, hget⟩ := mem_take_iff.mp hmem
      have hle := hbelow j hj
      simp only [orderAt_of_get hget, ite_eq_right_iff, reduceCtorEq, imp_false, compare_gt_iff_gt, not_lt] at hle
      exact hle
    · obtain ⟨j, hj, hget⟩ := mem_drop_iff.mp hmem
      have hgt := habove j hj (List.getElem?_eq_some_iff.mp hget).1
      simpa [orderAt_of_get hget, compare_gt_iff_gt] using hgt

end

end Repeats

variable {key : α → K} {es fs : List α} {k : K} {a b : α} {i : ℕ}

theorem get?_append : get? key (es ++ fs) k = (get? key es k).or (get? key fs k) := List.find?_append

theorem get?_eq_none_iff : get? key es k = none ↔ ∀ a ∈ es, key a ≠ k := by
  simp [get?]

theorem get?_eq_none_of_lt (h : ∀ a ∈ es, key a < k) : get? key es k = none :=
  get?_eq_none_iff.mpr fun a ha => (h a ha).ne

theorem get?_eq_none_of_gt (h : ∀ a ∈ es, k < key a) : get? key es k = none :=
  get?_eq_none_iff.mpr fun a ha => (h a ha).ne'

theorem Sorted.get?_eq_some (hs : Sorted key es) : get? key es k = some a ↔ a ∈ es ∧ key a = k := by
  constructor
  · intro h
    exact ⟨List.mem_of_find?_eq_some h, by simpa using List.find?_some h⟩
  · rintro ⟨hmem, rfl⟩
    cases h : get? key es (key a) with
    | none => exact absurd rfl (get?_eq_none_iff.mp h a hmem)
    | some b =>
      have hb : key b = key a := by simpa using List.find?_some h
      obtain ⟨i, hi⟩ := List.mem_iff_getElem?.mp hmem
      obtain ⟨j, hj⟩ := List.mem_iff_getElem?.mp (List.mem_of_find?_eq_some h)
      rcases Nat.lt_trichotomy i j with hlt | rfl | hlt
      · exact absurd (hs.lt_of_getElem? hi hj hlt) (by simp [hb])
      · rw [← hi, hj]
      · exact absurd (hs.lt_of_getElem? hj hi hlt) (by simp [hb])

theorem get?_of_missing (h : Slot.Fits key es k (.missing i)) : get? key es k = none := by
  rw [← List.take_append_drop i es, get?_append, get?_eq_none_of_lt h.1, get?_eq_none_of_gt h.2]
  rfl

theorem Sorted.append (hes : Sorted key es) (hfs : Sorted key fs) (h : ∀ a ∈ es, ∀ b ∈ fs, key a < key b) :
    Sorted key (es ++ fs) := List.pairwise_append.mpr ⟨hes, hfs, h⟩

theorem Sorted.take (hs : Sorted key es) (i : ℕ) : Sorted key (es.take i) := hs.sublist (List.take_sublist i es)

theorem Sorted.drop (hs : Sorted key es) (i : ℕ) : Sorted key (es.drop i) := hs.sublist (List.drop_sublist i es)

theorem mem_insertAt : b ∈ insertAt es i a ↔ b = a ∨ b ∈ es := by
  have hsplit : b ∈ es ↔ b ∈ es.take i ∨ b ∈ es.drop i := by
    rw [← List.mem_append, List.take_append_drop]
  rw [insertAt, List.mem_append, List.mem_cons, hsplit]
  tauto

theorem sorted_insertAt (hs : Sorted key es) (h : Slot.Fits key es (key a) (.missing i)) :
    Sorted key (insertAt es i a) := by
  refine (hs.take i).append (List.pairwise_cons.mpr ⟨h.2, hs.drop i⟩) ?_
  intro b hb c hc
  rcases List.mem_cons.mp hc with rfl | hc
  · exact h.1 b hb
  · exact (h.1 b hb).trans (h.2 c hc)

theorem get?_insertAt (hs : Sorted key es) (h : Slot.Fits key es (key a) (.missing i)) (k : K) :
    get? key (insertAt es i a) k = if key a = k then some a else get? key es k := by
  by_cases hk : key a = k
  · rw [if_pos hk]
    exact (sorted_insertAt hs h).get?_eq_some.mpr ⟨mem_insertAt.mpr (.inl rfl), hk⟩
  · rw [if_neg hk]
    ext b
    rw [(sorted_insertAt hs h).get?_eq_some, hs.get?_eq_some, mem_insertAt]
    constructor
    · rintro ⟨rfl | hb, hbk⟩
      · exact absurd hbk hk
      · exact ⟨hb, hbk⟩
    · rintro ⟨hb, hbk⟩
      exact ⟨.inr hb, hbk⟩

theorem sorted_set (hs : Sorted key es) (hi : es[i]? = some a) (hkey : key b = key a) : Sorted key (es.set i b) := by
  have hmap : (es.set i b).map key = es.map key := by
    rw [List.map_set, hkey]
    apply List.ext_getElem?
    intro j
    rw [List.getElem?_set]
    by_cases hij : i = j
    · subst hij
      obtain ⟨hlt, rfl⟩ := List.getElem?_eq_some_iff.mp hi
      simp [hlt]
    · simp [hij]
  have hpair : (es.map key).Pairwise (· < ·) := List.pairwise_map.mpr hs
  rw [← hmap] at hpair
  exact List.pairwise_map.mp hpair

theorem get?_set (hs : Sorted key es) (hi : es[i]? = some a) (hkey : key b = key a) (k : K) :
    get? key (es.set i b) k = if key b = k then some b else get? key es k := by
  obtain ⟨hlt, rfl⟩ := List.getElem?_eq_some_iff.mp hi
  by_cases hk : key b = k
  · rw [if_pos hk]
    exact (sorted_set hs hi hkey).get?_eq_some.mpr ⟨List.mem_set hlt b, hk⟩
  · rw [if_neg hk]
    ext c
    rw [(sorted_set hs hi hkey).get?_eq_some, hs.get?_eq_some]
    refine and_congr_left fun hck => ?_
    simp only [List.mem_iff_getElem?, List.getElem?_set]
    constructor
    · rintro ⟨j, hj⟩
      by_cases hij : i = j
      · subst hij
        simp [hlt] at hj
        exact absurd (hj ▸ hck) hk
      · exact ⟨j, by simpa [hij] using hj⟩
    · rintro ⟨j, hj⟩
      by_cases hij : i = j
      · subst hij
        rw [List.getElem?_eq_getElem hlt] at hj
        cases hj
        exact absurd (hkey.trans hck) hk
      · exact ⟨j, by simpa [hij] using hj⟩

theorem sorted_eraseIdx (hs : Sorted key es) (i : ℕ) : Sorted key (es.eraseIdx i) :=
  hs.sublist (List.eraseIdx_sublist es i)

theorem get?_eraseIdx (hs : Sorted key es) (hi : es[i]? = some a) (k : K) :
    get? key (es.eraseIdx i) k = if key a = k then none else get? key es k := by
  by_cases hk : key a = k
  · rw [if_pos hk, get?_eq_none_iff]
    intro b hb hbk
    obtain ⟨j, hji, hj⟩ := List.mem_eraseIdx_iff_getElem?.mp hb
    rcases Nat.lt_or_gt_of_ne hji with hlt | hlt
    · exact absurd (hs.lt_of_getElem? hj hi hlt) (by simp [hbk, hk])
    · exact absurd (hs.lt_of_getElem? hi hj hlt) (by simp [hbk, hk])
  · rw [if_neg hk]
    ext c
    rw [(sorted_eraseIdx hs i).get?_eq_some, hs.get?_eq_some]
    refine and_congr_left fun hck => ?_
    rw [List.mem_eraseIdx_iff_getElem?, List.mem_iff_getElem?]
    constructor
    · rintro ⟨j, -, hj⟩
      exact ⟨j, hj⟩
    · rintro ⟨j, hj⟩
      refine ⟨j, ?_, hj⟩
      rintro rfl
      cases hi.symm.trans hj
      exact hk hck

theorem Sorted.mem_iff (hes : Sorted key es) (hfs : Sorted key fs) {x : Option α}
    (h : ∀ l, get? key fs l = if k = l then x else get? key es l) (c : α) :
    c ∈ fs ↔ (k = key c ∧ x = some c) ∨ (c ∈ es ∧ key c ≠ k) := by
  have hmem : c ∈ fs ↔ get? key fs (key c) = some c := by simp [hfs.get?_eq_some]
  rw [hmem, h]
  by_cases hk : k = key c
  · rw [if_pos hk]
    constructor
    · exact fun hx => .inl ⟨hk, hx⟩
    · rintro (⟨-, hx⟩ | ⟨-, hne⟩)
      · exact hx
      · exact absurd hk.symm hne
  · rw [if_neg hk, hes.get?_eq_some]
    constructor
    · exact fun hc => .inr ⟨hc.1, fun heq => hk heq.symm⟩
    · rintro (⟨heq, -⟩ | ⟨hc, -⟩)
      · exact absurd heq hk
      · exact ⟨hc, rfl⟩

end OmenDb.Keyed
