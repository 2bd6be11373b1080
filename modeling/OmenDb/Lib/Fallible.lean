import Mathlib.Data.Fin.Tuple.Basic
import Mathlib.Data.List.Forall2
import Mathlib.Data.Nat.Notation
import Mathlib.Tactic.Cases

/-! Computations that can fail: a sequence succeeds when its parts do. -/
namespace OmenDb

variable {ε α β : Type}

variable {x : Except ε α} {f : α → Except ε β} {b : β} {i : ℕ} {as l : List α} {l' : List β}

theorem bind_eq_ok : (x >>= f) = .ok b ↔ ∃ a, x = .ok a ∧ f a = .ok b := by
  cases x <;> simp [bind, Except.bind]

theorem map_eq_ok {f : α → β} : f <$> x = .ok b ↔ ∃ a, x = .ok a ∧ f a = b := by
  cases x <;> simp [Functor.map, Except.map]

@[simp] theorem ok_bind (a : α) (f : α → Except ε β) : ((.ok a : Except ε α) >>= f) = f a := rfl

/-- What `f` gives for the `n` places from one on. -/
def collect (f : ℕ → Except ε α) : ℕ → ℕ → Except ε (List α)
  | _, 0 => .ok []
  | i, n + 1 => do
    let a ← f i
    let rest ← collect f (i + 1) n
    return a :: rest

theorem collect_eq_ok {f : ℕ → Except ε α} {n : ℕ} (h : collect f i n = .ok as) :
    as.length = n ∧ ∀ j a, as[j]? = some a → f (i + j) = .ok a := by
  induction n generalizing i as with
  | zero =>
    cases h
    simp
  | succ n ih =>
    obtain ⟨first, hfirst, htail⟩ := bind_eq_ok.mp h
    obtain ⟨rest, hrest, hall⟩ := bind_eq_ok.mp htail
    cases hall
    obtain ⟨hlength, hget⟩ := ih hrest
    refine ⟨by simp [hlength], fun j a hj => ?_⟩
    cases j with
    | zero =>
      cases hj
      exact hfirst
    | succ j =>
      rw [List.getElem?_cons_succ] at hj
      rw [← hget j a hj]
      congr 1
      omega

theorem collect_of_get {f : ℕ → Except ε α} (h : ∀ j a, as[j]? = some a → f (i + j) = .ok a) :
    collect f i as.length = .ok as := by
  induction as generalizing i with
  | nil => rfl
  | cons a as ih =>
    have hrest : collect f (i + 1) as.length = .ok as := by
      apply ih
      intro j b hj
      rw [← h (j + 1) b (by rwa [List.getElem?_cons_succ])]
      congr 1
      omega
    have hfirst : f i = .ok a := h 0 a rfl
    rw [List.length_cons, collect, hfirst, ok_bind, hrest]
    rfl

theorem mapM_eq_ok : l.mapM f = .ok l' ↔ List.Forall₂ (fun a b => f a = .ok b) l l' := by
  induction l generalizing l' with
  | nil => cases l' <;> simp [pure, Except.pure]
  | cons a l ih =>
    rw [List.mapM_cons, bind_eq_ok, List.forall₂_cons_left_iff]
    refine exists_congr fun b => ⟨?_, ?_⟩
    · rintro ⟨hb, htail⟩
      obtain ⟨rest, hrest, hall⟩ := bind_eq_ok.mp htail
      cases hall
      exact ⟨rest, hb, ih.mp hrest, rfl⟩
    · rintro ⟨rest, hb, hrest, rfl⟩
      exact ⟨hb, bind_eq_ok.mpr ⟨rest, ih.mpr hrest, rfl⟩⟩

theorem forall₂_congr_of_mem {P Q : α → β → Prop}
    (h : ∀ a ∈ l, ∀ b, P a b ↔ Q a b) : List.Forall₂ P l l' ↔ List.Forall₂ Q l l' := by
  induction l generalizing l' with
  | nil => simp
  | cons a l ih =>
    simp only [List.forall₂_cons_left_iff, h a List.mem_cons_self, ih fun x hx => h x (List.mem_cons_of_mem a hx)]

theorem exists_of_mem_forall₂ {R : α → β → Prop} {a : α} (h : List.Forall₂ R l l') (ha : a ∈ l) :
    ∃ b ∈ l', R a b := by
  induction h with
  | nil => cases ha
  | cons hab _ ih =>
    obtain rfl | ha := List.mem_cons.mp ha
    · exact ⟨_, List.mem_cons_self, hab⟩
    · obtain ⟨b, hb, hab⟩ := ih ha
      exact ⟨b, List.mem_cons_of_mem _ hb, hab⟩

theorem exists_forall₂ {R : α → β → Prop} (h : ∀ a ∈ l, ∃ b, R a b) : ∃ l', List.Forall₂ R l l' := by
  induction l with
  | nil => exact ⟨[], .nil⟩
  | cons a l ih =>
    obtain ⟨b, hb⟩ := h a List.mem_cons_self
    obtain ⟨l', hl'⟩ := ih fun x hx => h x (List.mem_cons_of_mem a hx)
    exact ⟨b :: l', .cons hb hl'⟩

theorem mapM_ok_or_error (f : α → Except ε β) (l : List α) :
    (∃ out, l.mapM f = .ok out) ∨ ∃ a ∈ l, ∃ e, f a = .error e := by
  induction l with
  | nil => exact .inl ⟨[], rfl⟩
  | cons a l ih =>
    cases ha : f a with
    | error e => exact .inr ⟨a, List.mem_cons_self, e, ha⟩
    | ok b =>
      obtain ⟨out, hout⟩ | ⟨a', ha', e, he⟩ := ih
      · exact .inl ⟨b :: out, by rw [List.mapM_cons, ha, ok_bind, hout]; rfl⟩
      · exact .inr ⟨a', List.mem_cons_of_mem a ha', e, he⟩

theorem forall₂_pairwise_iff {R : α → β → Prop} {P : β → β → Prop} (hR : ∀ a b c, R a b → R a c → b = c)
    (h : List.Forall₂ R l l') : l'.Pairwise P ↔ l.Pairwise fun a b => ∀ c d, R a c → R b d → P c d := by
  induction h with
  | nil => simp
  | @cons a c l l' hac hl ih =>
    rw [List.pairwise_cons, List.pairwise_cons, ih]
    refine and_congr_left fun _ => ⟨fun hall b hb c' d hc' hd => ?_, fun hall d hd => ?_⟩
    · obtain rfl := hR a c c' hac hc'
      obtain ⟨d', hd', hbd'⟩ := exists_of_mem_forall₂ hl hb
      obtain rfl := hR b d d' hd hbd'
      exact hall d hd'
    · obtain ⟨b, hb, hbd⟩ := exists_of_mem_forall₂ hl.flip hd
      exact hall b hb c d hac hbd

theorem forall₂_factor {γ : Type} {R : α → β → Prop} {S : β → γ → Prop} {T : α → γ → Prop}
    {l' : List γ} (h : ∀ a ∈ l, ∀ c, (∃ b, R a b ∧ S b c) ↔ T a c) :
    (∃ m, List.Forall₂ R l m ∧ List.Forall₂ S m l') ↔ List.Forall₂ T l l' := by
  induction l generalizing l' with
  | nil => simp
  | cons a l ih =>
    have htail := fun l' => @ih l' fun b hb => h b (by simp [hb])
    constructor
    · rintro ⟨m, hm, hm'⟩
      obtain ⟨b, rest, hb, hrest, rfl⟩ := List.forall₂_cons_left_iff.mp hm
      obtain ⟨c, out, hc, hout, rfl⟩ := List.forall₂_cons_left_iff.mp hm'
      exact .cons ((h a (by simp) c).mp ⟨b, hb, hc⟩) ((htail out).mp ⟨rest, hrest, hout⟩)
    · intro hall
      obtain ⟨c, out, hc, hout, rfl⟩ := List.forall₂_cons_left_iff.mp hall
      obtain ⟨b, hb, hbc⟩ := (h a (by simp) c).mpr hc
      obtain ⟨rest, hrest, hout⟩ := (htail out).mpr hout
      exact ⟨b :: rest, .cons hb hrest, .cons hbc hout⟩

end OmenDb
