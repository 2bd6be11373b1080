import Mathlib

/-! Finite maps over a linear order, as the standard library's extensional tree maps
compared by the order itself, with the order-facing lemmas that scans need. -/
namespace OmenDb

abbrev OrdMap (K V : Type) [inst : LinearOrder K] := Std.ExtTreeMap K V inst.toOrd.compare

namespace OrdMap

variable {K V : Type} [LinearOrder K]

instance : Std.LawfulEqCmp (compare : K → K → Ordering) := ⟨fun h => compare_eq_iff_eq.mp h⟩

@[simp] theorem get_insert (m : OrdMap K V) (k a : K) (v : V) :
    (m.insert k v)[a]? = if k = a then some v else m[a]? := by
  simp [Std.ExtTreeMap.getElem?_insert]

@[simp] theorem get_erase (m : OrdMap K V) (k a : K) :
    (m.erase k)[a]? = if k = a then none else m[a]? := by
  simp [Std.ExtTreeMap.getElem?_erase]

theorem get_insert_self (m : OrdMap K V) (k : K) (v : V) : (m.insert k v)[k]? = some v := by simp

theorem get_insert_of_ne (m : OrdMap K V) {k a : K} (v : V) (h : k ≠ a) :
    (m.insert k v)[a]? = m[a]? := by simp [h]

theorem mem_toList (m : OrdMap K V) (k : K) (v : V) : (k, v) ∈ m.toList ↔ m[k]? = some v :=
  Std.ExtTreeMap.mem_toList_iff_getElem?_eq_some

theorem mem_iff_get (m : OrdMap K V) (k : K) : k ∈ m ↔ ∃ v, m[k]? = some v := by
  rw [← Std.ExtTreeMap.isSome_getElem?_iff_mem, Option.isSome_iff_exists]

theorem ext_get {m n : OrdMap K V} (h : ∀ k : K, m[k]? = n[k]?) : m = n := Std.ExtTreeMap.ext_getElem? h

def entries (m : OrdMap K V) : List V := m.toList.map Prod.snd

theorem mem_entries {m : OrdMap K V} {v : V} : v ∈ m.entries ↔ ∃ k : K, m[k]? = some v := by
  simp only [entries, List.mem_map, Prod.exists, mem_toList, exists_eq_right]

theorem sorted_toList (m : OrdMap K V) : m.toList.Pairwise (fun a b => a.1 < b.1) := by
  have h := Std.ExtTreeMap.ordered_keys_toList (t := m)
  exact h.imp (fun h => compare_lt_iff_lt.mp h)

theorem eq_of_sorted {l r : List (K × V)} (hl : l.Pairwise (fun a b => a.1 < b.1))
    (hr : r.Pairwise (fun a b => a.1 < b.1)) (h : ∀ p, p ∈ l ↔ p ∈ r) : l = r := by
  have nodup : ∀ {x : List (K × V)}, x.Pairwise (fun a b => a.1 < b.1) → x.Nodup := by
    intro x hx
    exact hx.imp (fun hab he => absurd hab (by simp [he]))
  have hp : l.Perm r := (List.perm_ext_iff_of_nodup (nodup hl) (nodup hr)).mpr h
  exact hp.eq_of_pairwise (fun a b _ _ hab hba => absurd (hab.trans hba) (lt_irrefl _)) hl hr

@[simp] theorem get_empty (k : K) : (∅ : OrdMap K V)[k]? = none := by simp

section

variable (m : OrdMap K V)

theorem get_filter (p : K → V → Bool) (k : K) : (m.filter p)[k]? = m[k]?.filter (p k) := by
  ext v
  rw [← mem_toList, Std.ExtTreeMap.toList_filter, List.mem_filter, mem_toList]
  simp [Option.filter_eq_some_iff]

theorem get_filterMap {W : Type} (f : K → V → Option W) (k : K) :
    (m.filterMap f)[k]? = m[k]?.bind (f k) := by
  rw [Std.ExtTreeMap.getElem?_filterMap]
  simp only [Std.ExtTreeMap.getKey_eq, Option.pbind_eq_bind]

def insertAll (m : OrdMap K V) (ps : List (K × V)) : OrdMap K V :=
  ps.foldl (fun m p => m.insert p.1 p.2) m

def eraseAll (m : OrdMap K V) (ks : Finset K) : OrdMap K V := m.filter fun k _ => decide (k ∉ ks)

@[simp] theorem insertAll_nil : m.insertAll [] = m := rfl

@[simp] theorem insertAll_empty : m.insertAll (∅ : OrdMap K V).toList = m := by
  have hnil : (∅ : OrdMap K V).toList = [] :=
    List.eq_nil_iff_forall_not_mem.mpr fun p hp => by simpa using (mem_toList _ p.1 p.2).mp hp
  rw [hnil, insertAll_nil]

theorem insertAll_append (ps qs : List (K × V)) :
    m.insertAll (ps ++ qs) = (m.insertAll ps).insertAll qs := List.foldl_append

theorem get_insertAll_of_notMem {ps : List (K × V)} {k : K}
    (h : ∀ p ∈ ps, p.1 ≠ k) : (m.insertAll ps)[k]? = m[k]? := by
  induction ps generalizing m with
  | nil => rfl
  | cons p ps ih =>
    change (insertAll (m.insert p.1 p.2) ps)[k]? = m[k]?
    rw [ih _ fun q hq => h q (by simp [hq]), get_insert_of_ne _ _ (h p (by simp))]

/-- Of several bindings of one key the last counts; with distinct keys there is only one. -/
theorem get_insertAll_of_mem {ps : List (K × V)} {k : K} {v : V}
    (hd : ps.Pairwise fun a b => a.1 ≠ b.1) (h : (k, v) ∈ ps) : (m.insertAll ps)[k]? = some v := by
  induction ps generalizing m with
  | nil => simp at h
  | cons p ps ih =>
    obtain ⟨hp, hps⟩ := List.pairwise_cons.mp hd
    change (insertAll (m.insert p.1 p.2) ps)[k]? = some v
    rcases List.mem_cons.mp h with rfl | h
    · rw [get_insertAll_of_notMem _ fun q hq => (hp q hq).symm, get_insert_self]
    · exact ih _ hps h

theorem distinct_toList : m.toList.Pairwise fun a b => a.1 ≠ b.1 :=
  m.sorted_toList.imp fun h => h.ne

end

theorem get_insertAll_toList (m n : OrdMap K V) (k : K) :
    (m.insertAll n.toList)[k]? = (n[k]?).or m[k]? := by
  cases h : n[k]? with
  | some v => simpa using m.get_insertAll_of_mem n.distinct_toList ((mem_toList n k v).mpr h)
  | none =>
    rw [Option.none_or]
    refine m.get_insertAll_of_notMem fun p hp hk => ?_
    have hv := (mem_toList n p.1 p.2).mp hp
    rw [hk, h] at hv
    cases hv

theorem get_eraseAll (m : OrdMap K V) (ks : Finset K) (k : K) :
    (m.eraseAll ks)[k]? = if k ∈ ks then none else m[k]? := by
  rw [eraseAll, get_filter]
  by_cases hk : k ∈ ks
  · cases m[k]? <;> simp [hk]
  · cases m[k]? <;> simp [hk]

@[simp] theorem eraseAll_empty (m : OrdMap K V) : m.eraseAll ∅ = m :=
  ext_get fun k => by simp [get_eraseAll]

end OrdMap
end OmenDb
