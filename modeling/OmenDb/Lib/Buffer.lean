import OmenDb.Lib.Fields

/-! A byte buffer: checked reads, and writes in place. -/
namespace OmenDb

def checkedSlice (data : List (Fin 256)) (start len : ℕ) : Option (List (Fin 256)) :=
  if start + len ≤ data.length then some (slice data start (start + len)) else none

/-- A number in little-endian order, if it lies in the buffer. -/
def readWord (w : ℕ) (data : List (Fin 256)) (start : ℕ) : Option ℕ :=
  (checkedSlice data start w).map fun bytes => (Word.ofLe bytes : Word w).val

/-- `copy_from_slice` at a position. -/
def overwrite (data : List (Fin 256)) (start : ℕ) (bytes : List (Fin 256)) : List (Fin 256) :=
  data.take start ++ (bytes ++ data.drop (start + bytes.length))

variable {data bytes : List (Fin 256)} {start a b n : ℕ}

theorem length_overwrite (h : start + bytes.length ≤ data.length) :
    (overwrite data start bytes).length = data.length := by
  simp only [overwrite, List.length_append, List.length_take, List.length_drop]
  omega

theorem slice_overwrite_above (h : start + bytes.length ≤ data.length) (ha : start + bytes.length ≤ a) :
    slice (overwrite data start bytes) a b = slice data a b := by
  have htake : (data.take start).length = start := List.length_take_of_le (by omega)
  have hdrop : (overwrite data start bytes).drop a = data.drop a := by
    rw [overwrite, List.drop_append, List.drop_append, htake, List.drop_drop,
      List.drop_eq_nil_of_le (by omega), List.drop_eq_nil_of_le (by omega), List.nil_append, List.nil_append]
    congr 1
    omega
  rw [slice, slice, hdrop]

theorem slice_overwrite_self (h : start + bytes.length ≤ data.length) (hn : n ≤ bytes.length) :
    slice (overwrite data start bytes) start (start + n) = bytes.take n := by
  have htake : (data.take start).length = start := List.length_take_of_le (by omega)
  rw [slice, overwrite, List.drop_append, htake, List.drop_eq_nil_of_le (by omega), Nat.sub_self, List.drop_zero,
    List.nil_append, Nat.add_sub_cancel_left, List.take_append_of_le_length hn]

end OmenDb
