import Mathlib

/-! Version chains, newest first. Each version carries a stamp that may be unresolvable; a
reader at a snapshot takes the first version stamped at or below it. -/
namespace OmenDb.VersionChain

variable {α : Type} (stamp stamp' : α → Option ℕ)

/-- The version a snapshot sees: `none` when the walk meets an unresolvable stamp, `some none`
when the chain ends above the snapshot. -/
def visible (s : ℕ) : List α → Option (Option α)
  | [] => some none
  | e :: es =>
    match stamp e with
    | none => none
    | some c => if c ≤ s then some (some e) else visible s es

/-- The prefix up to and including the first version stamped at or below `w`. An unresolvable
version ends the prefix too, so that a broken chain stays broken. -/
def cut (w : ℕ) : List α → List α
  | [] => []
  | e :: es =>
    match stamp e with
    | none => [e]
    | some c => if c ≤ w then [e] else e :: cut w es

variable {stamp stamp'}

@[simp] theorem visible_nil (s : ℕ) : visible stamp s [] = some none := rfl

variable {s c : ℕ} {e : α} {l : List α}

theorem visible_cons_of_le (es : List α) (h : stamp e = some c) (hc : c ≤ s) :
    visible stamp s (e :: es) = some (some e) := by simp [visible, h, hc]

theorem visible_cons_of_lt (es : List α) (h : stamp e = some c) (hc : s < c) :
    visible stamp s (e :: es) = visible stamp s es := by
  simp [visible, h, Nat.not_le.mpr hc]

theorem visible_congr (h : ∀ e ∈ l, stamp e = stamp' e) : visible stamp s l = visible stamp' s l := by
  induction l with
  | nil => rfl
  | cons e es ih =>
    have he := h e (by simp)
    have ht := ih fun x hx => h x (by simp [hx])
    simp [visible, he, ht]

theorem mem_of_visible (h : visible stamp s l = some (some e)) : e ∈ l := by
  induction l with
  | nil => simp [visible] at h
  | cons a es ih =>
    simp only [visible] at h
    split at h
    · simp at h
    · split at h
      · simp_all
      · exact List.mem_cons_of_mem _ (ih h)

theorem cut_prefix (w : ℕ) (l : List α) : cut stamp w l <+: l := by
  induction l with
  | nil => simp [cut]
  | cons e es ih =>
    simp only [cut]
    split
    · simp
    · split
      · simp
      · simpa using ih

theorem visible_between {w : ℕ} (h : w ≤ s) {l' : List α} (hp : l' <+: l)
    (hc : cut stamp w l <+: l') : visible stamp s l' = visible stamp s l := by
  induction l generalizing l' with
  | nil => simp_all
  | cons e es ih =>
    cases l' with
    | nil =>
      have : cut stamp w (e :: es) ≠ [] := by
        simp only [cut]
        split <;> [simp; (split <;> simp)]
      simp_all
    | cons e' es' =>
      obtain ⟨rfl, hp'⟩ := List.cons_prefix_cons.mp hp
      cases hs : stamp e' with
      | none => simp [visible, hs]
      | some c =>
        by_cases hw : c ≤ w
        · simp [visible, hs, hw.trans h]
        · have hc' : cut stamp w es <+: es' := by simpa [cut, hs, hw] using hc
          simp [visible, hs, ih hp' hc']

section Map
variable {β : Type} (f : β → α)

theorem cut_map (w : ℕ) (l : List β) : cut stamp w (l.map f) = (cut (stamp ∘ f) w l).map f := by
  induction l with
  | nil => rfl
  | cons b bs ih =>
    simp only [cut, List.map_cons, Function.comp_apply]
    split
    · rfl
    · split <;> simp [ih]

end Map

end OmenDb.VersionChain
