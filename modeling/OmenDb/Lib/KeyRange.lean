import OmenDb.Lib.Codec

/-! Ranges of byte strings that share a prefix, under the lexicographic order, and big-endian
words, whose order as strings is the order of the numbers. -/
namespace OmenDb

namespace Word

variable {w : ℕ}

def toBe (n : Word w) : List (Fin 256) := n.toLe.reverse

@[simp] theorem length_toBe (n : Word w) : n.toBe.length = w := by simp [toBe]

theorem toLe_injective : Function.Injective (toLe : Word w → List (Fin 256)) :=
  Function.LeftInverse.injective ofLe_toLe

theorem toBe_injective : Function.Injective (toBe : Word w → List (Fin 256)) :=
  List.reverse_injective.comp toLe_injective

theorem digits_reverse_lt {m n : ℕ} (h : m < n) (hn : n < 256 ^ w) (xs ys : List (Fin 256)) :
    (digits w m).reverse ++ xs < (digits w n).reverse ++ ys := by
  induction w generalizing m n xs ys with
  | zero => omega
  | succ w ih =>
    have hdiv : n / 256 < 256 ^ w := by
      rw [pow_succ] at hn
      omega
    simp only [digits, List.reverse_cons, List.append_assoc, List.singleton_append]
    rcases Nat.lt_or_ge (m / 256) (n / 256) with hlt | hge
    · exact ih hlt hdiv _ _
    · -- the high bytes agree, and the low byte decides
      have heq : m / 256 = n / 256 := by omega
      rw [heq]
      refine List.Lex.append_left _ (List.cons_lt_cons_iff.mpr (.inl ?_)) _
      rw [Fin.lt_def, Fin.val_ofNat, Fin.val_ofNat]
      omega

theorem toBe_append_lt {m n : Word w} (h : m < n) (xs ys : List (Fin 256)) : m.toBe ++ xs < n.toBe ++ ys :=
  digits_reverse_lt h n.isLt xs ys

end Word

/-- Add one to a number given by its bytes, least significant first; nothing on overflow. -/
def carry : List (Fin 256) → Option (List (Fin 256))
  | [] => none
  | b :: bs => if b = 255 then (0 :: ·) <$> carry bs else some ((b + 1) :: bs)

/-- The string with its last byte incremented, carried through a tail of largest bytes. -/
def prefixSuccessor (xs : List (Fin 256)) : Option (List (Fin 256)) := List.reverse <$> carry xs.reverse

theorem carry_append (xs : List (Fin 256)) (b : Fin 256) :
    carry (xs ++ [b]) = match carry xs with
      | some xs' => some (xs' ++ [b])
      | none => if b = 255 then none else some (List.replicate xs.length 0 ++ [b + 1]) := by
  induction xs with
  | nil =>
    by_cases hb : b = 255 <;> simp [carry, hb]
  | cons x xs ih =>
    simp only [List.cons_append, carry, ih]
    by_cases hx : x = 255
    · simp only [hx, if_true]
      cases carry xs with
      | some xs' => simp
      | none => by_cases hb : b = 255 <;> simp [hb, List.replicate_succ]
    · simp [hx]

@[simp] theorem prefixSuccessor_nil : prefixSuccessor [] = none := rfl

theorem prefixSuccessor_cons (b : Fin 256) (bs : List (Fin 256)) :
    prefixSuccessor (b :: bs) = match prefixSuccessor bs with
      | some bs' => some (b :: bs')
      | none => if b = 255 then none else some ((b + 1) :: List.replicate bs.length 0) := by
  simp only [prefixSuccessor, List.reverse_cons, carry_append]
  cases carry bs.reverse with
  | some bs' => simp
  | none => by_cases hb : b = 255 <;> simp [hb]

theorem not_lt_zeros {xs : List (Fin 256)} {n : ℕ} (h : n ≤ xs.length) : ¬ xs < List.replicate n 0 := by
  induction n generalizing xs with
  | zero => simp
  | succ n ih =>
    cases xs with
    | nil => simp at h
    | cons x xs =>
      rw [List.replicate_succ, List.cons_lt_cons_iff]
      rintro (hx | ⟨-, hx⟩)
      · exact absurd hx (by simp)
      · exact ih (by simpa using h) hx

/-- The key lies at or after the start and before the end, if there is one. -/
def InKeyRange (start : List (Fin 256)) (stop : Option (List (Fin 256))) (key : List (Fin 256)) : Prop :=
  start ≤ key ∧ ∀ e, stop = some e → key < e

theorem cons_le_cons {b c : Fin 256} {bs cs : List (Fin 256)} :
    b :: bs ≤ c :: cs ↔ b < c ∨ b = c ∧ bs ≤ cs := by
  rw [← not_lt, ← not_lt, List.cons_lt_cons_iff, not_or, not_lt, not_and_or]
  constructor
  · rintro ⟨hle, hne | hlt⟩
    · exact .inl (lt_of_le_of_ne hle fun h => hne h.symm)
    · exact (lt_or_eq_of_le hle).imp_right fun h => ⟨h, hlt⟩
  · rintro (hlt | ⟨rfl, hle⟩)
    · exact ⟨hlt.le, .inl hlt.ne'⟩
    · exact ⟨le_rfl, .inr hle⟩

/-- Among keys no shorter than a prefix, the range up to its successor holds those that begin with
it. A shorter key may lie in the range when the prefix ends in largest bytes. -/
theorem inKeyRange_successor {p key : List (Fin 256)} (h : p.length ≤ key.length) :
    InKeyRange p (prefixSuccessor p) key ↔ p <+: key := by
  induction p generalizing key with
  | nil => simp [InKeyRange, ← not_lt]
  | cons b bs ih =>
    cases key with
    | nil => simp at h
    | cons c cs =>
      have hlen : bs.length ≤ cs.length := by simpa using h
      have ih := ih hlen
      unfold InKeyRange at ih ⊢
      rw [prefixSuccessor_cons, List.cons_prefix_cons, ← ih, cons_le_cons]
      cases hs : prefixSuccessor bs with
      | some bs' =>
        simp only [Option.some.injEq, forall_eq', List.cons_lt_cons_iff]
        constructor
        · rintro ⟨hbc | ⟨rfl, hle⟩, hcb | ⟨hcb, hlt⟩⟩
          · exact absurd (hbc.trans hcb) (lt_irrefl _)
          · exact absurd (hcb ▸ hbc) (lt_irrefl _)
          · exact absurd hcb (lt_irrefl _)
          · exact ⟨rfl, hle, hlt⟩
        · rintro ⟨rfl, hle, hlt⟩
          exact ⟨.inr ⟨rfl, hle⟩, .inr ⟨rfl, hlt⟩⟩
      | none =>
        simp only [reduceCtorEq, false_implies, implies_true, and_true]
        by_cases hb : b = 255
        · simp only [hb, if_true, reduceCtorEq, false_implies, implies_true, and_true]
          constructor
          · rintro (hc | hc)
            · have := c.isLt
              rw [Fin.lt_def] at hc
              have h255 : ((255 : Fin 256) : ℕ) = 255 := rfl
              omega
            · exact hc
          · exact .inr
        · simp only [hb, if_false, Option.some.injEq, forall_eq', List.cons_lt_cons_iff]
          have hsucc : ((b + 1 : Fin 256) : ℕ) = b + 1 := by
            have hlt : (b : ℕ) < 255 := by
              have := b.isLt
              have hne : (b : ℕ) ≠ 255 := fun h => hb (Fin.ext h)
              omega
            rw [Fin.val_add_one_of_lt' (by omega)]
          constructor
          · rintro ⟨hbc | hbc, hlt | ⟨-, hlt⟩⟩
            · rw [Fin.lt_def] at hbc hlt
              omega
            · exact absurd hlt (not_lt_zeros hlen)
            · exact hbc
            · exact absurd hlt (not_lt_zeros hlen)
          · rintro ⟨rfl, hle⟩
            refine ⟨.inr ⟨rfl, hle⟩, .inl ?_⟩
            rw [Fin.lt_def]
            omega

end OmenDb
