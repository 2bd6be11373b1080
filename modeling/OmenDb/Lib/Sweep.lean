import OmenDb.Lib.OrdMap

/-! Scans in key order that are taken in pieces. What a scan has covered is a lower set of keys, and a
piece reports the rows between two such sets as they are when it is taken; the rows may change from one
piece to the next. -/
namespace OmenDb.Sweep

variable {K V : Type} [LinearOrder K]

/-- The rows of the keys that are in `q` and not in `p`, in key order. -/
structure Piece (row : K → V → Prop) (p q : LowerSet K) (rows : List (K × V)) : Prop where
  le : p ≤ q
  sorted : rows.Pairwise fun a b => a.1 < b.1
  mem : ∀ k v, (k, v) ∈ rows ↔ row k v ∧ k ∈ q ∧ k ∉ p

section Piece

variable {row : K → V → Prop} {p q r : LowerSet K} {rows later : List (K × V)}

theorem Piece.nil (row : K → V → Prop) (p : LowerSet K) : Piece row p p [] := ⟨le_rfl, .nil, by simp⟩

theorem Piece.append (h : Piece row p q rows) (hlater : Piece row q r later) : Piece row p r (rows ++ later) where
  le := h.le.trans hlater.le
  sorted := by
    refine List.pairwise_append.mpr ⟨h.sorted, hlater.sorted, ?_⟩
    rintro ⟨k, v⟩ hk ⟨l, w⟩ hl
    -- the first key is covered and the second is not
    by_contra hle
    exact ((hlater.mem l w).mp hl).2.2 (q.lower (not_lt.mp hle) ((h.mem k v).mp hk).2.1)
  mem := by
    intro k v
    rw [List.mem_append, h.mem, hlater.mem]
    constructor
    · rintro (⟨hrow, hq, hp⟩ | ⟨hrow, hr, hq⟩)
      · exact ⟨hrow, hlater.le hq, hp⟩
      · exact ⟨hrow, hr, fun hp => hq (h.le hp)⟩
    · rintro ⟨hrow, hr, hp⟩
      by_cases hq : k ∈ q
      · exact .inl ⟨hrow, hq, hp⟩
      · exact .inr ⟨hrow, hr, hq⟩

theorem Piece.of_front {left : List (K × V)} {kv : K × V} (hsorted : left.Pairwise fun a b => a.1 < b.1)
    (hmem : ∀ k v, (k, v) ∈ left ↔ row k v ∧ k ∉ p) (hfront : rows <+: left) (hlast : rows.getLast? = some kv) :
    Piece row p (LowerSet.Iic kv.1) rows where
  le := by
    intro k hk
    have hkv : kv ∈ left := hfront.subset (List.mem_of_getLast? hlast)
    have hout := ((hmem kv.1 kv.2).mp hkv).2
    exact (not_le.mp fun hle => hout (p.lower hle hk)).le
  sorted := hsorted.sublist hfront.sublist
  mem := by
    obtain ⟨rest, rfl⟩ := hfront
    obtain ⟨init, rfl⟩ := List.getLast?_eq_some_iff.mp hlast
    intro k v
    rw [LowerSet.mem_Iic_iff]
    obtain ⟨hinit, -, hbefore⟩ := List.pairwise_append.mp hsorted
    obtain ⟨-, -, hbelow⟩ := List.pairwise_append.mp hinit
    constructor
    · intro hin
      obtain ⟨hrow, hout⟩ := (hmem k v).mp (List.mem_append_left rest hin)
      refine ⟨hrow, ?_, hout⟩
      rcases List.mem_append.mp hin with hin | hin
      · exact (hbelow _ hin kv (by simp)).le
      · cases List.mem_singleton.mp hin
        exact le_rfl
    · rintro ⟨hrow, hle, hout⟩
      rcases List.mem_append.mp ((hmem k v).mpr ⟨hrow, hout⟩) with hin | hin
      · exact hin
      · exact absurd hle (not_le.mpr (hbefore kv (by simp) _ hin))

theorem Piece.of_rest (hsorted : rows.Pairwise fun a b => a.1 < b.1) (hmem : ∀ k v, (k, v) ∈ rows ↔ row k v ∧ k ∉ p) :
    Piece row p ⊤ rows := ⟨le_top, hsorted, by simpa using hmem⟩

end Piece

/-- Pieces one after the other, with the rows of each moment, the last one first. -/
inductive Scan : List (K → V → Prop) → LowerSet K → List (K × V) → Prop
  | start : Scan [] ⊥ []
  | piece {moments : List (K → V → Prop)} {row : K → V → Prop} {p q : LowerSet K} {out rows : List (K × V)}
      (hscan : Scan moments p out) (hpiece : Piece row p q rows) : Scan (row :: moments) q (out ++ rows)

section Scan

variable {moments : List (K → V → Prop)} {p : LowerSet K} {out : List (K × V)}

theorem Scan.covered (h : Scan moments p out) {kv : K × V} (hmem : kv ∈ out) : kv.1 ∈ p := by
  induction h with
  | start => cases hmem
  | piece _ hpiece ih =>
    rcases List.mem_append.mp hmem with hmem | hmem
    · exact hpiece.le (ih hmem)
    · exact ((hpiece.mem kv.1 kv.2).mp hmem).2.1

theorem Scan.sorted (h : Scan moments p out) : out.Pairwise fun a b => a.1 < b.1 := by
  induction h with
  | start => exact .nil
  | @piece _ _ p _ out rows hscan hpiece ih =>
    refine List.pairwise_append.mpr ⟨ih, hpiece.sorted, ?_⟩
    rintro a ha ⟨l, w⟩ hl
    by_contra hle
    exact ((hpiece.mem l w).mp hl).2.2 (p.lower (not_lt.mp hle) (hscan.covered ha))

theorem Scan.sound (h : Scan moments p out) {kv : K × V} (hmem : kv ∈ out) : ∃ row ∈ moments, row kv.1 kv.2 := by
  induction h with
  | start => cases hmem
  | @piece _ row _ _ _ _ _ hpiece ih =>
    rcases List.mem_append.mp hmem with hmem | hmem
    · obtain ⟨row, hrow, hkv⟩ := ih hmem
      exact ⟨row, List.mem_cons_of_mem _ hrow, hkv⟩
    · exact ⟨row, by simp, ((hpiece.mem kv.1 kv.2).mp hmem).1⟩

theorem Scan.complete (h : Scan moments p out) {k : K} (hk : k ∈ p) (hall : ∀ row ∈ moments, ∃ v, row k v) :
    k ∈ out.map Prod.fst := by
  induction h with
  | start => exact absurd hk (by simp)
  | @piece moments row p q out rows _ hpiece ih =>
    rw [List.map_append, List.mem_append]
    by_cases hp : k ∈ p
    · exact .inl (ih hp fun row hrow => hall row (List.mem_cons_of_mem _ hrow))
    · obtain ⟨v, hv⟩ := hall row (by simp)
      exact .inr (List.mem_map.mpr ⟨(k, v), (hpiece.mem k v).mpr ⟨hv, hk, hp⟩, rfl⟩)

theorem Scan.constant {row : K → V → Prop} (h : Scan moments p out) (hall : ∀ row' ∈ moments, row' = row) :
    Piece row ⊥ p out := by
  induction h with
  | start => exact .nil row ⊥
  | @piece _ row' _ _ _ _ _ hpiece ih =>
    obtain rfl : row' = row := hall row' (by simp)
    exact (ih fun row hrow => hall row (List.mem_cons_of_mem _ hrow)).append hpiece

end Scan

end OmenDb.Sweep
