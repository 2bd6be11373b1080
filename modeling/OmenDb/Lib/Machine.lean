import Mathlib

/-! Labelled transition systems with guarded runs. A guard restricts which enabled actions a
run may take, so one system carries both its unrestricted runs and the runs that keep to a
side condition. -/
namespace OmenDb

/-- `step s a = some s'` when action `a` is enabled in `s` and leads to `s'`. -/
structure Machine (S A : Type) where
  init : S → Prop
  step : S → A → Option S

namespace Machine

variable {S A : Type} (M : Machine S A)

/-- States reached by runs all of whose steps meet the guard. -/
inductive Reach (guard : S → A → Prop) : S → Prop
  | init {s : S} : M.init s → Reach guard s
  | step {s s' : S} (a : A) : Reach guard s → guard s a → M.step s a = some s' → Reach guard s'

abbrev Reachable : S → Prop := M.Reach fun _ _ => True

variable {M} {guard guard' : S → A → Prop}

theorem Reach.invariant_of {P Q : S → Prop} (hP : ∀ s, M.Reach guard s → P s) (h0 : ∀ s, M.init s → Q s)
    (hs : ∀ s a s', P s → Q s → guard s a → M.step s a = some s' → Q s') {s : S}
    (h : M.Reach guard s) : Q s := by
  induction h with
  | init hi => exact h0 _ hi
  | step a hr hg hst ih => exact hs _ a _ (hP _ hr) ih hg hst

theorem Reach.invariant {P : S → Prop} (h0 : ∀ s, M.init s → P s)
    (hs : ∀ s a s', P s → guard s a → M.step s a = some s' → P s') {s : S} (h : M.Reach guard s) : P s :=
  h.invariant_of (fun _ _ => trivial) h0 fun s a s' _ => hs s a s'

theorem Reach.mono (hg : ∀ s a, guard s a → guard' s a) {s : S} (h : M.Reach guard s) :
    M.Reach guard' s := by
  induction h with
  | init hi => exact .init hi
  | step a _ hga hst ih => exact .step a ih (hg _ _ hga) hst

theorem Reach.reachable {s : S} (h : M.Reach guard s) : M.Reachable s :=
  h.mono fun _ _ _ => trivial

def run (M : Machine S A) : S → List A → Option S
  | s, [] => some s
  | s, a :: as => (M.step s a).bind fun s' => run M s' as

theorem reachable_run {s s' : S} (h : M.Reachable s) {as : List A}
    (hr : M.run s as = some s') : M.Reachable s' := by
  induction as generalizing s with
  | nil => cases hr; exact h
  | cons a as ih =>
    obtain ⟨t, ht, hrest⟩ := Option.bind_eq_some_iff.mp hr
    exact ih (.step a h trivial ht) hrest

/-- What the steps of a run add up to, each weighed in the state it starts from. -/
def total (M : Machine S A) (weight : S → A → ℕ) : S → List A → ℕ
  | _, [] => 0
  | s, a :: as =>
    match M.step s a with
    | none => 0
    | some s' => weight s a + total M weight s' as

theorem run_total {P : S → Prop} {ok : A → Prop} {counter : S → ℕ} {weight : S → A → ℕ} {bound : ℕ}
    (hstep : ∀ s a s', P s → ok a → M.step s a = some s' →
      P s' ∧ counter s' = min (counter s + weight s a) bound) {s s' : S} (hs : P s) (hbound : counter s ≤ bound)
    {as : List A} (hok : ∀ a ∈ as, ok a) (hr : M.run s as = some s') :
    P s' ∧ counter s' = min (counter s + M.total weight s as) bound := by
  induction as generalizing s with
  | nil =>
    cases hr
    exact ⟨hs, by simp [total, hbound]⟩
  | cons a as ih =>
    obtain ⟨t, ht, hrest⟩ := Option.bind_eq_some_iff.mp hr
    obtain ⟨hpt, hcount⟩ := hstep s a t hs (hok a List.mem_cons_self) ht
    obtain ⟨hps, hfinal⟩ := ih hpt (by omega) (fun b hb => hok b (List.mem_cons_of_mem a hb)) hrest
    refine ⟨hps, ?_⟩
    simp only [hfinal, hcount, total, ht]
    omega

theorem run_balance {P : S → Prop} {ok : A → Prop} {counter : S → ℕ} {loss gain : S → A → ℕ}
    (hstep : ∀ s a s', P s → ok a → M.step s a = some s' → P s' ∧ counter s' + loss s a = counter s + gain s a)
    {s s' : S} (hs : P s) {as : List A} (hok : ∀ a ∈ as, ok a) (hr : M.run s as = some s') :
    counter s' + M.total loss s as = counter s + M.total gain s as := by
  induction as generalizing s with
  | nil =>
    cases hr
    rfl
  | cons a as ih =>
    obtain ⟨t, ht, hrest⟩ := Option.bind_eq_some_iff.mp hr
    obtain ⟨hpt, hmoved⟩ := hstep s a t hs (hok a List.mem_cons_self) ht
    have hfinal := ih hpt (fun b hb => hok b (List.mem_cons_of_mem a hb)) hrest
    simp only [total, ht]
    omega

theorem total_add (weight weight' : S → A → ℕ) (s : S) (as : List A) :
    M.total (fun s a => weight s a + weight' s a) s as = M.total weight s as + M.total weight' s as := by
  induction as generalizing s with
  | nil => rfl
  | cons a as ih =>
    simp only [total]
    cases M.step s a with
    | none => rfl
    | some t =>
      simp only [ih]
      omega

theorem total_eq_zero_iff {weight : S → A → ℕ} {s s' : S} {as : List A} (hr : M.run s as = some s') :
    M.total weight s as = 0 ↔
      ∀ before a after t, as = before ++ a :: after → M.run s before = some t → weight t a = 0 := by
  induction as generalizing s with
  | nil => simp [total]
  | cons b as ih =>
    obtain ⟨t, ht, hrest⟩ := Option.bind_eq_some_iff.mp hr
    simp only [total, ht, Nat.add_eq_zero_iff, ih hrest]
    constructor
    · rintro ⟨hfirst, hlater⟩ before a after u happ hu
      cases before with
      | nil =>
        cases happ
        cases hu
        exact hfirst
      | cons c before =>
        cases happ
        simp only [run, ht, Option.bind_some] at hu
        exact hlater before a after u rfl hu
    · intro h
      refine ⟨h [] b as s rfl rfl, fun before a after u happ hu => ?_⟩
      refine h (b :: before) a after u (by rw [happ, List.cons_append]) ?_
      simpa only [run, ht, Option.bind_some] using hu

/-- Execute a list of actions as long as each meets a test. -/
def runWhere (M : Machine S A) (ok : S → A → Bool) : S → List A → Option S
  | s, [] => some s
  | s, a :: as => if ok s a then (M.step s a).bind fun s' => runWhere M ok s' as else none

theorem reach_runWhere {ok : S → A → Bool} (hok : ∀ s a, ok s a = true → guard s a) {s s' : S}
    (h : M.Reach guard s) {as : List A} (hr : M.runWhere ok s as = some s') : M.Reach guard s' := by
  induction as generalizing s with
  | nil => cases hr; exact h
  | cons a as ih =>
    unfold runWhere at hr
    split at hr
    · next hg =>
      obtain ⟨t, ht, hrest⟩ := Option.bind_eq_some_iff.mp hr
      exact ih (.step a h (hok _ _ hg) ht) hrest
    · cases hr

end Machine
end OmenDb
