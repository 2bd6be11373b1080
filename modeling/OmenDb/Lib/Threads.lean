import OmenDb.Lib.Machine

/-! Threads over a shared state. Each thread is at a control point; a step is taken by one thread and
changes the shared state and that thread's control point. What a thread claims of the shared state is
counted over all threads. -/
namespace OmenDb

/-- A shared state with the control points of its threads. -/
structure Threads (m : ℕ) (S P : Type) where
  shared : S
  control : Fin m → P

namespace Threads

instance three : NeZero (3 : ℕ) := ⟨by decide⟩

variable {m : ℕ} {S P C : Type}

/-- Thread `i` moves: the shared state and its control point change. -/
def move (t : Threads m S P) (i : Fin m) (s : S) (p : P) : Threads m S P := ⟨s, Function.update t.control i p⟩

def step (next : S → P → C → Option (S × P)) (t : Threads m S P) (a : Fin m × C) : Option (Threads m S P) :=
  (next t.shared (t.control a.1) a.2).map fun r => t.move a.1 r.1 r.2

theorem step_eq_some {next : S → P → C → Option (S × P)} {t t' : Threads m S P} {a : Fin m × C} :
    step next t a = some t' ↔ ∃ s p, next t.shared (t.control a.1) a.2 = some (s, p) ∧ t' = t.move a.1 s p := by
  simp only [step, Option.map_eq_some_iff, Prod.exists, eq_comm (a := t')]

def count (control : Fin m → P) (kind : P → Prop) [DecidablePred kind] : ℕ := ∑ i, if kind (control i) then 1 else 0

variable {kind : P → Prop} [DecidablePred kind]

theorem count_update (control : Fin m → P) (i : Fin m) (p : P) :
    count (Function.update control i p) kind + (if kind (control i) then 1 else 0) =
      count control kind + if kind p then 1 else 0 := by
  have hrest : ∑ j ∈ Finset.univ.erase i, (if kind (Function.update control i p j) then 1 else 0) =
      ∑ j ∈ Finset.univ.erase i, if kind (control j) then 1 else 0 := by
    apply Finset.sum_congr rfl
    intro j hj
    rw [Function.update_of_ne (Finset.ne_of_mem_erase hj)]
  have hnew := Finset.add_sum_erase Finset.univ (fun j => if kind (Function.update control i p j) then 1 else 0)
    (Finset.mem_univ i)
  have hold := Finset.add_sum_erase Finset.univ (fun j => if kind (control j) then 1 else 0) (Finset.mem_univ i)
  simp only [Function.update_self] at hnew
  unfold count
  omega

theorem count_update_of_iff (control : Fin m → P) (i : Fin m) {p : P} (h : kind p ↔ kind (control i)) :
    count (Function.update control i p) kind = count control kind := by
  have hcount := @count_update _ _ kind _ control i p
  simp only [h] at hcount
  omega

theorem count_pos {control : Fin m → P} {i : Fin m} (h : kind (control i)) : 0 < count control kind := by
  have hle := Finset.single_le_sum (f := fun j => if kind (control j) then 1 else 0) (fun _ _ => Nat.zero_le _)
    (Finset.mem_univ i)
  simp only [h, if_true] at hle
  exact hle

theorem count_eq_zero {control : Fin m → P} (h : ∀ i, ¬ kind (control i)) : count control kind = 0 := by
  simp [count, h]

end Threads
end OmenDb
