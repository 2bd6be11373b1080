import OmenDb.Lib.Distinct
import OmenDb.Lib.Fallible

/-! Grouping. Rows are folded into a list of keys with one accumulator each, in the order in which
the keys first occur; the update of an accumulator may fail. -/
namespace OmenDb

variable {R K V ε : Type}

/-- Update the accumulator of a key, from `fresh` when the key is new. -/
def upsert (same : K → K → Bool) (fresh : V) (f : V → Except ε V) (k : K) :
    List (K × V) → Except ε (List (K × V))
  | [] => do return [(k, ← f fresh)]
  | (k', v) :: rest =>
    if same k' k then do return (k', ← f v) :: rest
    else do return (k', v) :: (← upsert same fresh f k rest)

variable {same : K → K → Bool} {fresh : V} {f : V → Except ε V} {k : K}

variable {gs gs' : List (K × V)} {rows : List R}

theorem upsert_new (h : ∀ g ∈ gs, same g.1 k = false) :
    upsert same fresh f k gs = .ok gs' ↔ ∃ w, f fresh = .ok w ∧ gs' = gs ++ [(k, w)] := by
  induction gs generalizing gs' with
  | nil =>
    simp only [upsert, bind_eq_ok, List.nil_append]
    exact exists_congr fun w => and_congr_right fun _ => ⟨fun h => (Except.ok.inj h).symm, fun h => h ▸ rfl⟩
  | cons g gs ih =>
    rw [upsert, if_neg (by simp [h g]), bind_eq_ok]
    constructor
    · rintro ⟨rest, hrest, hout⟩
      obtain ⟨w, hw, rfl⟩ := (ih fun g hg => h g (by simp [hg])).mp hrest
      exact ⟨w, hw, (Except.ok.inj hout).symm⟩
    · rintro ⟨w, hw, rfl⟩
      exact ⟨_, (ih fun g hg => h g (by simp [hg])).mpr ⟨w, hw, rfl⟩, rfl⟩

theorem upsert_length (h : upsert same fresh f k gs = .ok gs') :
    gs'.length = gs.length + if gs.any fun g => same g.1 k then 0 else 1 := by
  induction gs generalizing gs' with
  | nil =>
    obtain ⟨w, -, hout⟩ := bind_eq_ok.mp h
    cases hout
    rfl
  | cons g gs ih =>
    rw [upsert] at h
    by_cases hk : same g.1 k = true
    · rw [if_pos hk] at h
      obtain ⟨w, -, hout⟩ := bind_eq_ok.mp h
      cases hout
      simp [hk]
    · rw [if_neg hk] at h
      obtain ⟨rest, hrest, hout⟩ := bind_eq_ok.mp h
      cases hout
      simp only [List.length_cons, ih hrest, List.any_cons, hk, Bool.false_or]
      omega

def Updated (same : K → K → Bool) (f : V → Except ε V) (k : K) (g g' : K × V) : Prop :=
  g'.1 = g.1 ∧ if same g.1 k = true then f g.2 = .ok g'.2 else g'.2 = g.2

theorem updated_eq (h : ∀ g ∈ gs, same g.1 k = false) :
    List.Forall₂ (Updated same f k) gs gs' ↔ gs' = gs := by
  induction gs generalizing gs' with
  | nil => simp
  | cons g gs ih =>
    rw [List.forall₂_cons_left_iff]
    constructor
    · rintro ⟨g', rest, hg, hrest, rfl⟩
      obtain ⟨hk, hv⟩ := hg
      rw [if_neg (by simp [h g])] at hv
      rw [(ih fun g hg => h g (by simp [hg])).mp hrest, Prod.ext hk hv]
    · rintro rfl
      exact ⟨g, gs, ⟨rfl, by rw [if_neg (by simp [h g])]⟩, (ih fun g hg => h g (by simp [hg])).mpr rfl, rfl⟩

theorem upsert_known (hsame : Equivalence fun a b => same a b = true)
    (hdistinct : gs.Pairwise fun a b => same a.1 b.1 = false) (h : ∃ g ∈ gs, same g.1 k = true) :
    upsert same fresh f k gs = .ok gs' ↔ List.Forall₂ (Updated same f k) gs gs' := by
  induction gs generalizing gs' with
  | nil => simp at h
  | cons g gs ih =>
    obtain ⟨hg, hgs⟩ := List.pairwise_cons.mp hdistinct
    rw [upsert, List.forall₂_cons_left_iff]
    by_cases hk : same g.1 k = true
    · -- the keys after it differ from it, hence from `k`
      have hrest : ∀ x ∈ gs, same x.1 k = false := by
        intro x hx
        rw [← Bool.not_eq_true]
        intro hxk
        have hgx : same g.1 x.1 = true := hsame.trans hk (hsame.symm hxk)
        simp [hg x hx] at hgx
      rw [if_pos hk, bind_eq_ok]
      constructor
      · rintro ⟨w, hw, hout⟩
        exact ⟨(g.1, w), gs, ⟨rfl, by rwa [if_pos hk]⟩, (updated_eq hrest).mpr rfl, (Except.ok.inj hout).symm⟩
      · rintro ⟨g', rest, ⟨hk', hv⟩, hrest', rfl⟩
        rw [if_pos hk] at hv
        rw [(updated_eq hrest).mp hrest']
        exact ⟨g'.2, hv, by rw [← hk']; rfl⟩
    · have hin : ∃ x ∈ gs, same x.1 k = true := by
        obtain ⟨x, hx, hxk⟩ := h
        obtain rfl | hx := List.mem_cons.mp hx
        · exact absurd hxk hk
        · exact ⟨x, hx, hxk⟩
      rw [if_neg hk, bind_eq_ok]
      constructor
      · rintro ⟨rest, hrest, hout⟩
        exact ⟨g, rest, ⟨rfl, by rw [if_neg hk]⟩, (ih hgs hin).mp hrest, (Except.ok.inj hout).symm⟩
      · rintro ⟨g', rest, ⟨hk', hv⟩, hrest, rfl⟩
        rw [if_neg hk] at hv
        exact ⟨rest, (ih hgs hin).mpr hrest, by rw [Prod.ext hk' hv]; rfl⟩

theorem forall₂_concat_left {α β : Type} {P : α → β → Prop} {l : List α} {a : α} {m : List β} :
    List.Forall₂ P (l ++ [a]) m ↔ ∃ m' b, List.Forall₂ P l m' ∧ P a b ∧ m = m' ++ [b] := by
  induction l generalizing m with
  | nil => simp [List.forall₂_cons_left_iff]
  | cons x l ih =>
    rw [List.cons_append, List.forall₂_cons_left_iff]
    constructor
    · rintro ⟨y, rest, hy, hrest, rfl⟩
      obtain ⟨m', b, hm, hb, rfl⟩ := ih.mp hrest
      exact ⟨y :: m', b, .cons hy hm, hb, rfl⟩
    · rintro ⟨m', b, hm, hb, rfl⟩
      obtain ⟨y, rest, hy, hrest, rfl⟩ := List.forall₂_cons_left_iff.mp hm
      exact ⟨y, rest ++ [b], hy, ih.mpr ⟨rest, b, hrest, hb, rfl⟩, rfl⟩

def groupFold (same : K → K → Bool) (key : R → K) (fresh : V) (step : V → R → Except ε V) (rows : List R) :
    Except ε (List (K × V)) :=
  rows.foldlM (fun groups row => upsert same fresh (step · row) (key row) groups) []

/-- A group: the key and the fold over exactly the rows of that key. -/
def IsGroup (same : K → K → Bool) (key : R → K) (fresh : V) (step : V → R → Except ε V) (rows : List R)
    (k : K) (g : K × V) : Prop :=
  g.1 = k ∧ (rows.filter fun row => same k (key row)).foldlM step fresh = .ok g.2

variable {key : R → K} {step : V → R → Except ε V}

theorem isGroup_concat {row : R} {k : K} {g' : K × V} :
    (∃ g, IsGroup same key fresh step rows k g ∧ Updated same (step · row) (key row) g g') ↔
      IsGroup same key fresh step (rows ++ [row]) k g' := by
  simp only [IsGroup, List.filter_append, List.foldlM_append, List.filter_singleton]
  by_cases hk : same k (key row) = true
  · simp only [hk, cond_true, List.foldlM_cons, List.foldlM_nil, bind_pure, bind_eq_ok]
    constructor
    · rintro ⟨g, ⟨rfl, hv⟩, hk', hw⟩
      exact ⟨hk', g.2, hv, by simpa [hk] using hw⟩
    · rintro ⟨hk', v, hv, hw⟩
      exact ⟨(k, v), ⟨rfl, hv⟩, hk', by simpa [hk] using hw⟩
  · simp only [hk, cond_false, List.foldlM_nil, bind_pure]
    constructor
    · rintro ⟨g, ⟨rfl, hv⟩, hk', hw⟩
      rw [if_neg hk] at hw
      exact ⟨hk', hw ▸ hv⟩
    · rintro ⟨hk', hv⟩
      exact ⟨g', ⟨hk', hv⟩, rfl, by rw [hk', if_neg hk]⟩

theorem keys_of_groups {ks : List K}
    (h : List.Forall₂ (IsGroup same key fresh step rows) ks gs) : gs.map Prod.fst = ks := by
  induction h with
  | nil => rfl
  | cons hg _ ih => rw [List.map_cons, hg.1, ih]

/-- The groups are the distinct keys of the rows in the order of first occurrence, each with the
fold over its own rows. -/
theorem groupFold_eq_ok (hsame : Equivalence fun a b => same a b = true) :
    groupFold same key fresh step rows = .ok gs ↔
      List.Forall₂ (IsGroup same key fresh step rows) (firsts same (rows.map key)) gs := by
  induction rows using List.reverseRecOn generalizing gs with
  | nil =>
    simp only [groupFold, List.foldlM_nil, List.map_nil, firsts, List.forall₂_nil_left_iff]
    exact ⟨fun h => (Except.ok.inj h).symm, fun h => h ▸ rfl⟩
  | append_singleton rows row ih =>
    have hfold : groupFold same key fresh step (rows ++ [row]) = .ok gs ↔
        ∃ gs', List.Forall₂ (IsGroup same key fresh step rows) (firsts same (rows.map key)) gs' ∧
          upsert same fresh (step · row) (key row) gs' = .ok gs := by
      rw [groupFold, List.foldlM_append, bind_eq_ok]
      refine exists_congr fun gs' => and_congr ih ?_
      rw [List.foldlM_cons]
      simp
    rw [hfold, List.map_append, List.map_singleton, firsts_concat hsame]
    by_cases hknown : (firsts same (rows.map key)).any (same (key row)) = true
    · rw [if_pos hknown]
      refine Iff.trans (exists_congr fun gs' => and_congr_right fun hgs' => upsert_known hsame ?_ ?_)
        (forall₂_factor fun k _ g' => isGroup_concat)
      · have hpairwise : (firsts same (rows.map key)).Pairwise _ := firsts_pairwise _
        rw [← keys_of_groups hgs'] at hpairwise
        exact List.pairwise_map.mp hpairwise
      · obtain ⟨k, hk, hk'⟩ := List.any_eq_true.mp hknown
        rw [← keys_of_groups hgs'] at hk
        obtain ⟨g, hg, rfl⟩ := List.mem_map.mp hk
        exact ⟨g, hg, hsame.symm hk'⟩
    · have hother : ∀ k ∈ firsts same (rows.map key), same k (key row) = false := by
        intro k hk
        rw [← Bool.not_eq_true]
        exact fun h => hknown (List.any_eq_true.mpr ⟨k, hk, hsame.symm h⟩)
      -- no row so far has the new key
      have hnone : (rows.filter fun r => same (key row) (key r)) = [] := by
        refine List.filter_eq_nil_iff.mpr fun r hr h => ?_
        obtain ⟨k, hk, hkr⟩ := exists_mem_firsts hsame (List.mem_map_of_mem hr)
        exact hknown (List.any_eq_true.mpr ⟨k, hk, hsame.trans h (hsame.symm hkr)⟩)
      have hnew : ∀ g : K × V, IsGroup same key fresh step (rows ++ [row]) (key row) g ↔
          g.1 = key row ∧ step fresh row = .ok g.2 := by
        intro g
        have hrefl : same (key row) (key row) = true := hsame.refl _
        simp [IsGroup, List.filter_append, hnone, hrefl]
      rw [if_neg hknown, forall₂_concat_left]
      have hold : ∀ k ∈ firsts same (rows.map key), ∀ g : K × V, IsGroup same key fresh step rows k g ↔
          IsGroup same key fresh step (rows ++ [row]) k g := by
        intro k hk g
        simp [IsGroup, List.filter_append, hother k hk]
      refine exists_congr fun gs' => ?_
      rw [forall₂_congr_of_mem hold, exists_and_left]
      refine and_congr_right fun hgs' => ?_
      have hkeys : ∀ g ∈ gs', same g.1 (key row) = false := by
        intro g hg
        exact hother g.1 (keys_of_groups hgs' ▸ List.mem_map_of_mem hg)
      rw [upsert_new hkeys]
      constructor
      · rintro ⟨w, hw, rfl⟩
        exact ⟨(key row, w), (hnew _).mpr ⟨rfl, hw⟩, rfl⟩
      · rintro ⟨g, hg, rfl⟩
        obtain ⟨hk, hw⟩ := (hnew g).mp hg
        exact ⟨g.2, hw, by rw [← hk]⟩

end OmenDb
