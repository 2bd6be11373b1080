import Mathlib

/-! Loops that go on with a new state or end with a result. A loop returns when a measure with a limit
rises at every turn that goes on. -/
namespace OmenDb

variable {σ ρ : Type}

/-- Take turns until one ends the loop, `fuel` of them at most. -/
def iterate (turn : σ → σ ⊕ ρ) : ℕ → σ → Option ρ
  | 0, _ => none
  | fuel + 1, s =>
    match turn s with
    | .inl next => iterate turn fuel next
    | .inr result => some result

def Turns (turn : σ → σ ⊕ ρ) (s s' : σ) : Prop := turn s = .inl s'

variable {turn : σ → σ ⊕ ρ}

theorem iterate_eq_some {fuel : ℕ} {s : σ} {result : ρ} (h : iterate turn fuel s = some result) :
    ∃ s', Relation.ReflTransGen (Turns turn) s s' ∧ turn s' = .inr result := by
  induction fuel generalizing s with
  | zero => cases h
  | succ fuel ih =>
    rw [iterate] at h
    cases hturn : turn s with
    | inl next =>
      rw [hturn] at h
      obtain ⟨s', hreach, hlast⟩ := ih h
      exact ⟨s', .head hturn hreach, hlast⟩
    | inr r =>
      rw [hturn] at h
      obtain rfl : r = result := Option.some.inj h
      exact ⟨s, .refl, hturn⟩

theorem exists_iterate (Inv : σ → Prop) (measure : σ → ℕ) (limit : ℕ)
    (hturn : ∀ s s', Inv s → turn s = .inl s' → Inv s' ∧ measure s < measure s')
    (hlimit : ∀ s, Inv s → measure s ≤ limit) {s : σ} (hs : Inv s) :
    ∃ fuel result, iterate turn fuel s = some result := by
  -- the induction is on what is left below the limit
  induction hleft : limit - measure s using Nat.strong_induction_on generalizing s with
  | _ left ih =>
    cases h : turn s with
    | inr result => exact ⟨1, result, by rw [iterate, h]⟩
    | inl next =>
      obtain ⟨hnext, hrises⟩ := hturn s next hs h
      have hle := hlimit next hnext
      obtain ⟨fuel, result, hresult⟩ := ih (limit - measure next) (by omega) hnext rfl
      exact ⟨fuel + 1, result, by rw [iterate, h]; exact hresult⟩

end OmenDb
