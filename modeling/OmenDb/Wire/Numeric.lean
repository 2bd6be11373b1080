import OmenDb.Lib.Digits
import OmenDb.Lib.Trap
import OmenDb.Rel.Key
import OmenDb.Sql.Coerce

/-! Decimals in the binary format of the wire: groups of four digits on a grid aligned to the
decimal point, the place of the first group, a sign word and the scale. -/
namespace OmenDb.Wire

open OmenDb.Sql OmenDb.Rel

/-- Zeros that bring the last digit down to the base of its group. -/
def groupPad (scale : ℕ) : ℕ := (4 - scale % 4) % 4

/-- `numeric_groups_weighted`: the place of the first group and the groups, most significant first. -/
def numericGroupsWeighted (value : DecimalValue) : Except String (ℤ × List ℕ) :=
  let mantissa := value.mantissa.natAbs
  if mantissa = 0 then .ok (0, [])
  else
    let full := (Nat.digits 10 mantissa).reverse ++ List.replicate (groupPad value.scale) 0
    -- `rchunks(4)` walks from the last digit, so each chunk is read least significant digit first.
    let groups := ((chunks4 full.reverse).map (Nat.ofDigits 10)).reverse
    let untrimmed := groups.length
    let groups := groups.rdropWhile (· = 0)
    let bottomSlots : ℤ := -((value.scale + 3) / 4 : ℕ)
    let weight := bottomSlots + ((groups.length : ℤ) - 1) + ((untrimmed - groups.length : ℕ) : ℤ)
    if -32768 ≤ weight ∧ weight ≤ 32767 then .ok (weight, groups) else .error "numeric weight overflow"

/-- `u16::try_from`. -/
def u16 (n : ℕ) (refusal : String) : Except String (Word 2) :=
  match (Word.ofLength? n : Option (Word 2)) with
  | some word => .ok word
  | none => .error refusal

def toSql (value : DecimalValue) : Except String Bytes := do
  let (weight, groups) ← numericGroupsWeighted value
  let ndigits ← u16 groups.length "too many digit groups"
  let sign : Word 2 := if value.mantissa < 0 then Word.ofNat 0x4000 else Word.ofNat 0
  let dscale ← u16 value.scale "numeric scale overflow"
  return ndigits.toBe ++ ((leSigned 2 weight).reverse ++ (sign.toBe ++ (dscale.toBe ++
    groups.flatMap fun group => (Word.ofNat group : Word 2).toBe)))

def be16 (raw : Bytes) (offset : ℕ) : ℕ := Word.value (slice raw offset (offset + 2)).reverse

/-- `i16::from_be_bytes`. -/
def beI16 (raw : Bytes) (offset : ℕ) : ℤ :=
  if be16 raw offset < 32768 then be16 raw offset else be16 raw offset - 65536

def tooLarge {α : Type} : Option α → Except String α
  | some x => .ok x
  | none => .error "numeric too large"

/-- `u32::try_from` and then `10_i128.checked_pow`. -/
def powTen (exponent : ℤ) : Except String ℤ :=
  tooLarge (if 0 ≤ exponent ∧ exponent < 2 ^ 32 then DecimalValue.checkedPowTen exponent.toNat else none)

def checkedAdd (m n : ℤ) : Option ℤ := if i128Min ≤ m + n ∧ m + n ≤ i128Max then some (m + n) else none

/-- One round of the loop of `decode_numeric_parameter`. An unchecked operation traps where its result
leaves the machine type. -/
def readGroup (dscale : ℕ) (weight : ℤ) (index group : ℕ) (mantissa : ℤ) : Trap String ℤ := do
  let exponent ← Trap.signed 64 (weight - index)
  if 0 ≤ exponent then
    let factor ← Trap.reported (powTen (← Trap.signed 64 (4 * exponent)))
    Trap.reported (tooLarge (checkedAdd mantissa (← Trap.signed 128 (group * factor))))
  else
    let negativeExponent ← Trap.signed 64 (-4 * exponent)
    if negativeExponent ≤ dscale then
      let factor ← Trap.reported (powTen (← Trap.signed 64 (dscale - negativeExponent)))
      Trap.reported (tooLarge (checkedAdd mantissa (← Trap.signed 128 (group * factor))))
    else pure mantissa

def readGroups (dscale : ℕ) (weight : ℤ) (groups : List ℕ) : Trap String ℤ :=
  groups.zipIdx.foldlM (fun mantissa entry => readGroup dscale weight entry.2 entry.1 mantissa) 0

def groupsOf (raw : Bytes) : List ℕ := (List.range (be16 raw 0)).map fun index => be16 raw (8 + index * 2)

/-- The text of an error of `DecimalValue::new`, which has only this one. -/
def decimalErrorText : DbError → String
  | .sqlNumericValueOutOfRange reason => "numeric value out of range: " ++ reason
  | _ => ""

def decodeNumericParameter (raw : Bytes) : Trap String DecimalValue :=
  if raw.length < 8 ∨ ¬ 2 ∣ raw.length then Trap.reported (.error "malformed numeric parameter width")
  else if raw.length ≠ 8 + be16 raw 0 * 2 then Trap.reported (.error "numeric parameter group count mismatch")
  else if decimalMaxPrecision < be16 raw 6 then
    Trap.reported (.error s!"numeric parameter scale {be16 raw 6} exceeds the maximum")
  else do
    let mantissa ← readGroups (be16 raw 6) (beI16 raw 2) (groupsOf raw)
    let mantissa ← if be16 raw 4 = 0x4000 then Trap.signed 128 (-mantissa) else pure mantissa
    Trap.reported ((DecimalValue.new mantissa (be16 raw 6)).mapError decimalErrorText)

theorem pad_add (s : ℕ) : s + groupPad s = 4 * ((s + 3) / 4) := by
  unfold groupPad
  omega

/-- The mantissa with its padding, in units of the lowest group. -/
def gridMantissa (value : DecimalValue) : ℕ := 10 ^ groupPad value.scale * value.mantissa.natAbs

theorem gridMantissa_lt (value : DecimalValue) : gridMantissa value < 10000 ^ ((value.scale + 3) / 4 + 10) := by
  have hm : value.mantissa.natAbs < 10 ^ 38 := value.mantissa_lt
  have hpow : (10000 : ℕ) ^ ((value.scale + 3) / 4 + 10) = 10 ^ groupPad value.scale * 10 ^ (value.scale + 40) := by
    rw [← pow_add, show (10000 : ℕ) = 10 ^ 4 by norm_num, ← pow_mul]
    congr 1
    have := pad_add value.scale
    omega
  rw [hpow, gridMantissa]
  exact Nat.mul_lt_mul_of_pos_left (hm.trans_le (Nat.pow_le_pow_right (by norm_num) (by omega))) (by positivity)

/-- The groups before the trimming, least significant first. -/
def gridGroups (value : DecimalValue) : List ℕ := Nat.digits 10000 (gridMantissa value)

theorem length_gridGroups (value : DecimalValue) : (gridGroups value).length ≤ (value.scale + 3) / 4 + 10 :=
  (Nat.digits_length_le_iff (by norm_num) _).mpr (gridMantissa_lt value)

def sentGroups (value : DecimalValue) : List ℕ := ((gridGroups value).dropWhile (· = 0)).reverse

def sentWeight (value : DecimalValue) : ℤ :=
  if value.mantissa = 0 then 0 else ((gridGroups value).length : ℤ) - 1 - ((value.scale + 3) / 4 : ℕ)

theorem sentGroups_zero {value : DecimalValue} (h : value.mantissa = 0) : sentGroups value = [] := by
  simp [sentGroups, gridGroups, gridMantissa, h]

theorem numericGroupsWeighted_eq (value : DecimalValue) :
    numericGroupsWeighted value = .ok (sentWeight value, sentGroups value) := by
  by_cases hm : value.mantissa = 0
  · simp [numericGroupsWeighted, sentWeight, sentGroups_zero hm, hm]
  · have habs : 0 < value.mantissa.natAbs := Int.natAbs_pos.mpr hm
    have hgroups : (chunks4 ((Nat.digits 10 value.mantissa.natAbs).reverse ++
        List.replicate (groupPad value.scale) 0).reverse).map (Nat.ofDigits 10) = gridGroups value := by
      rw [List.reverse_append, List.reverse_reverse, List.reverse_replicate,
        ← Nat.digits_base_pow_mul (by norm_num) habs, chunks4_digits]
      rfl
    have hle : (sentGroups value).length ≤ (gridGroups value).length := by
      rw [sentGroups, List.length_reverse]
      exact (List.dropWhile_sublist _).length_le
    have hlen := length_gridGroups value
    have hscale : value.scale ≤ 38 := value.scale_le
    simp only [numericGroupsWeighted, habs.ne', if_false, hgroups, List.rdropWhile, List.reverse_reverse,
      ← sentGroups.eq_1, List.length_reverse, sentWeight, hm]
    rw [if_pos (by omega)]
    congr 2
    omega

theorem sentGroups_lt (value : DecimalValue) : ∀ group ∈ sentGroups value, group < 10000 := by
  intro group hgroup
  rw [sentGroups, List.mem_reverse] at hgroup
  exact Nat.digits_lt_base (by norm_num) ((List.dropWhile_sublist _).subset hgroup)

theorem gridGroups_getLast (value : DecimalValue) : (gridGroups value).getLast? ≠ some 0 := by
  intro h
  by_cases hm : gridMantissa value = 0
  · simp [gridGroups, hm] at h
  · have hne : gridGroups value ≠ [] := Nat.digits_ne_nil_iff_ne_zero.mpr hm
    rw [List.getLast?_eq_some_getLast hne] at h
    exact Nat.getLast_digit_ne_zero 10000 hm (Option.some.inj h)

theorem sentGroups_trimmed (value : DecimalValue) :
    (sentGroups value).head? ≠ some 0 ∧ (sentGroups value).getLast? ≠ some 0 := by
  constructor
  · intro h
    rw [sentGroups, List.head?_reverse] at h
    refine gridGroups_getLast value ?_
    obtain ⟨front, hfront⟩ : (gridGroups value).dropWhile (· = 0) <:+ gridGroups value := List.dropWhile_suffix _
    rw [← hfront, List.getLast?_append, h]
    rfl
  · intro h
    rw [sentGroups, List.getLast?_reverse] at h
    have := List.head?_dropWhile_not (· = (0 : ℕ)) (gridGroups value)
    simp [h] at this

theorem sum_sentGroups {M : Type} [AddCommMonoid M] (worth : ℤ → ℕ → M) (hzero : ∀ e, worth e 0 = 0)
    (value : DecimalValue) :
    ((sentGroups value).zipIdx.map fun entry => worth (sentWeight value - entry.2) entry.1).sum =
      ladder worth (-((value.scale + 3) / 4 : ℕ)) (gridGroups value) := by
  by_cases hm : value.mantissa = 0
  · simp [sentGroups_zero hm, gridGroups, gridMantissa, hm, ladder]
  · have hle := (List.dropWhile_sublist (· = (0 : ℕ)) (l := gridGroups value)).length_le
    have hplace : sentWeight value - (0 : ℕ) - (sentGroups value).length + 1 =
        -((value.scale + 3) / 4 : ℕ) +
          (((gridGroups value).length - ((gridGroups value).dropWhile (· = 0)).length : ℕ) : ℤ) := by
      rw [sentWeight, if_neg hm, sentGroups, List.length_reverse]
      omega
    rw [ladder_reverse, hplace, sentGroups, List.reverse_reverse, ladder_dropZeros worth hzero]

theorem ladder_grid (e : ℤ) (gs : List ℕ) :
    ladder (fun place group => (group : ℚ) * 10000 ^ place) e gs = 10000 ^ e * (Nat.ofDigits 10000 gs : ℕ) := by
  induction gs generalizing e with
  | nil => simp [ladder]
  | cons g gs ih =>
    rw [ladder, ih, Nat.ofDigits_cons, zpow_add₀ (by norm_num)]
    push_cast
    ring

theorem sum_sentGroups_value (value : DecimalValue) :
    ((sentGroups value).zipIdx.map fun entry => (entry.1 : ℚ) * 10000 ^ (sentWeight value - entry.2)).sum =
      value.mantissa.natAbs / 10 ^ value.scale := by
  have hgrid := sum_sentGroups (fun place group => (group : ℚ) * 10000 ^ place) (by simp) value
  have hpow : (10000 : ℚ) ^ ((value.scale + 3) / 4) = 10 ^ value.scale * 10 ^ groupPad value.scale := by
    rw [← pow_add, pad_add, pow_mul]
    norm_num
  refine hgrid.trans ?_
  rw [ladder_grid, gridGroups, Nat.ofDigits_digits, gridMantissa, zpow_neg, zpow_natCast, hpow]
  push_cast
  field_simp

variable {offset n dscale group : ℕ} {e weight m : ℤ}

theorem be16_toBe (word : Word 2) (pre post : Bytes) (h : pre.length = offset) :
    be16 (pre ++ (word.toBe ++ post)) offset = word.val := by
  subst h
  have hslice : slice (pre ++ (word.toBe ++ post)) pre.length (pre.length + 2) = word.toBe := by
    rw [slice_append_at, slice_front _ _ (Word.length_toBe word)]
  rw [be16, hslice, Word.toBe, List.reverse_reverse]
  exact (Word.value_digits 2 word.val).trans (Nat.mod_eq_of_lt word.isLt)

theorem beI16_leSigned {n : ℤ} (hlo : -32768 ≤ n) (hhi : n ≤ 32767) (pre post : Bytes)
    (h : pre.length = offset) : beI16 (pre ++ ((leSigned 2 n).reverse ++ post)) offset = n := by
  have hlt : (n % 65536).toNat < 256 ^ 2 := by omega
  have hread : be16 (pre ++ ((leSigned 2 n).reverse ++ post)) offset = (n % 65536).toNat :=
    be16_toBe ⟨(n % 65536).toNat, hlt⟩ pre post h
  rw [beI16, hread]
  split <;> omega

theorem be16_groups (groups : List ℕ) (hlt : ∀ group ∈ groups, group < 10000) (pre : Bytes) :
    (List.range groups.length).map (fun index =>
      be16 (pre ++ groups.flatMap fun group => (Word.ofNat group : Word 2).toBe) (pre.length + index * 2)) =
        groups := by
  induction groups generalizing pre with
  | nil => rfl
  | cons g gs ih =>
    have hg : (Word.ofNat g : Word 2).val = g := Word.val_ofNat_of_lt (by have := hlt g (by simp); omega)
    have hrest :=
      ih (fun group hgroup => hlt group (List.mem_cons_of_mem _ hgroup)) (pre ++ (Word.ofNat g : Word 2).toBe)
    rw [List.length_cons, List.range_succ_eq_map, List.map_cons, List.map_map, List.flatMap_cons]
    refine congrArg₂ List.cons ?_ ?_
    · rw [be16_toBe _ _ _ (by omega), hg]
    · conv_rhs => rw [← hrest]
      refine List.map_congr_left fun index _ => ?_
      simp only [Function.comp_apply, List.append_assoc, List.length_append, Word.length_toBe]
      congr 1
      omega

def worth (dscale : ℕ) (exponent : ℤ) (group : ℕ) : ℕ :=
  if 0 ≤ exponent then group * 10 ^ (4 * exponent).toNat
  else if -4 * exponent ≤ dscale then group * 10 ^ (dscale - -4 * exponent).toNat
  else 0

theorem powTen_eq {exponent : ℤ} (h0 : 0 ≤ exponent) (h : exponent ≤ 38) :
    powTen exponent = .ok (10 ^ exponent.toNat) := by
  have hpow : (10 : ℤ) ^ exponent.toNat ≤ i128Max :=
    (pow_le_pow_right₀ (by norm_num) (by omega : exponent.toNat ≤ 38)).trans (by norm_num [i128Max])
  rw [powTen, if_pos ⟨h0, by omega⟩, DecimalValue.checkedPowTen, if_pos hpow]
  rfl

theorem powTen_large (h : 38 < e) : powTen e = .error "numeric too large" := by
  have hbig : ¬ (10 : ℤ) ^ e.toNat ≤ i128Max := by
    rw [not_le]
    exact lt_of_lt_of_le (by norm_num [i128Max] : i128Max < 10 ^ 39) (pow_le_pow_right₀ (by norm_num) (by omega))
  rw [powTen, DecimalValue.checkedPowTen, if_neg hbig, ite_self]
  rfl

theorem readGroup_eq {index : ℕ} (hscale : dscale ≤ 38)
    (hweight : -2 ^ 15 ≤ weight ∧ weight < 2 ^ 15) (hindex : index ≤ 2 ^ 16) (hm : 0 ≤ m) (hmax : m ≤ i128Max) :
    readGroup dscale weight index group m =
      if 9 < weight - index then Trap.reported (.error "numeric too large")
      else if i128Max < worth dscale (weight - index) group then Trap.trap
      else if m + worth dscale (weight - index) group ≤ i128Max then pure (m + worth dscale (weight - index) group)
      else Trap.reported (.error "numeric too large") := by
  have hi64 : ∀ {n : ℤ}, -2 ^ 20 ≤ n → n ≤ 2 ^ 20 → (Trap.signed 64 n : Trap String ℤ) = pure n := fun h h' =>
    Trap.within_eq (by omega) (by omega)
  -- what follows the factor, for an exponent of ten in reach
  have hproduct : ∀ {e : ℤ}, 0 ≤ e → e ≤ 38 → ∀ n : ℕ, n = group * 10 ^ e.toNat →
      (do
        let factor ← Trap.reported (powTen e)
        Trap.reported (tooLarge (checkedAdd m (← Trap.signed 128 (group * factor)))) : Trap String ℤ) =
      if i128Max < n then Trap.trap
      else if m + n ≤ i128Max then pure (m + n) else Trap.reported (.error "numeric too large") := by
    rintro e h0 h38 n rfl
    have hnonneg : (0 : ℤ) ≤ group * 10 ^ e.toNat := by positivity
    have htop : i128Max = 2 ^ 127 - 1 := rfl
    have hmin : i128Min ≤ 0 := by norm_num [i128Min]
    rw [powTen_eq h0 h38, Trap.reported_ok, pure_bind, Trap.signed, Trap.within]
    push_cast
    generalize (group : ℤ) * 10 ^ e.toNat = n at hnonneg ⊢
    by_cases hbig : i128Max < n
    · rw [if_neg (by omega), if_pos hbig, Trap.trap_bind]
    · rw [if_pos ⟨by omega, by omega⟩, if_neg hbig, pure_bind, checkedAdd]
      by_cases hsum : m + n ≤ i128Max
      · rw [if_pos ⟨by omega, hsum⟩, if_pos hsum]
        rfl
      · rw [if_neg (by omega), if_neg hsum]
        rfl
  unfold readGroup
  rw [hi64 (by omega) (by omega), pure_bind]
  by_cases hbig : 9 < weight - index
  · rw [if_pos hbig, if_pos (by omega), hi64 (by omega) (by omega), pure_bind, powTen_large (by omega), Trap.error_bind]
  · rw [if_neg hbig]
    by_cases hpos : 0 ≤ weight - (index : ℤ)
    · rw [if_pos hpos, hi64 (by omega) (by omega), pure_bind]
      exact hproduct (by omega) (by omega) _ (by rw [worth, if_pos hpos])
    · rw [if_neg hpos, hi64 (by omega) (by omega), pure_bind]
      by_cases hin : -4 * (weight - (index : ℤ)) ≤ dscale
      · rw [if_pos hin, hi64 (by omega) (by omega), pure_bind]
        exact hproduct (by omega) (by omega) _ (by rw [worth, if_neg hpos, if_pos hin])
      · have hnothing : worth dscale (weight - index) group = 0 := by rw [worth, if_neg hpos, if_neg hin]
        rw [if_neg hin, hnothing, Nat.cast_zero, add_zero, if_neg (by omega), if_pos hmax]

theorem readGroups_ok (hscale : dscale ≤ 38) (hlo : -2 ^ 15 ≤ weight) (hhi : weight ≤ 9) (groups : List ℕ) (k : ℕ)
    (hlength : k + groups.length ≤ 2 ^ 16) (hm : 0 ≤ m)
    (h : m + ((groups.zipIdx k).map fun entry => worth dscale (weight - entry.2) entry.1).sum ≤ i128Max) :
    (groups.zipIdx k).foldlM (fun mantissa entry => readGroup dscale weight entry.2 entry.1 mantissa) m =
      pure (m + ((groups.zipIdx k).map fun entry => worth dscale (weight - entry.2) entry.1).sum) := by
  induction groups generalizing k m with
  | nil => simp
  | cons g gs ih =>
    rw [List.length_cons] at hlength
    rw [List.zipIdx_cons, List.map_cons, List.sum_cons, Nat.cast_add] at h ⊢
    dsimp only at h ⊢
    have hstep : readGroup dscale weight k g m = pure (m + worth dscale (weight - k) g) := by
      rw [readGroup_eq hscale ⟨hlo, by omega⟩ (by omega) hm (by omega), if_neg (by omega), if_neg (by omega),
        if_pos (by omega)]
    rw [List.foldlM_cons, hstep, pure_bind, ih (k + 1) (by omega) (by omega) (by omega), add_assoc]

theorem ladder_whole (dscale : ℕ) {e : ℤ} (he : 0 ≤ e) (gs : List ℕ) :
    ladder (worth dscale) e gs = 10 ^ (4 * e).toNat * Nat.ofDigits 10000 gs := by
  induction gs generalizing e with
  | nil => simp [ladder]
  | cons g gs ih =>
    have hnext : (4 * (e + 1)).toNat = (4 * e).toNat + 4 := by omega
    rw [ladder, ih (by omega), Nat.ofDigits_cons, worth, if_pos he, hnext, pow_add]
    norm_num
    ring

theorem ladder_fraction {k : ℕ} (hk : 4 * k ≤ dscale) {gs : List ℕ} (hlt : ∀ g ∈ gs, g < 10000) :
    ladder (worth dscale) (-(k : ℤ)) gs =
      10 ^ (dscale - 4 * k) * (Nat.ofDigits 10000 gs % 10000 ^ k) + Nat.ofDigits 10000 gs / 10000 ^ k := by
  induction k generalizing gs with
  | zero => simp [ladder_whole dscale le_rfl, Nat.mod_one]
  | succ k ih =>
    cases gs with
    | nil => simp [ladder]
    | cons g gs =>
      have hg : g < 10000 := hlt g (by simp)
      have hdiv : (g + 10000 * Nat.ofDigits 10000 gs) / 10000 ^ (k + 1) = Nat.ofDigits 10000 gs / 10000 ^ k := by
        rw [pow_succ', ← Nat.div_div_eq_div_mul]
        congr 1
        omega
      have hmod : (g + 10000 * Nat.ofDigits 10000 gs) % 10000 ^ (k + 1) = g + 10000 *
          (Nat.ofDigits 10000 gs % 10000 ^ k) := by
        rw [pow_succ', Nat.mod_mul]
        congr 1
        · omega
        · congr 2
          omega
      have hworth : worth dscale (-((k + 1 : ℕ) : ℤ)) g = g * 10 ^ (dscale - 4 * (k + 1)) := by
        rw [worth, if_neg (by omega), if_pos (by omega)]
        congr 2
        omega
      have hnext : -((k + 1 : ℕ) : ℤ) + 1 = -(k : ℤ) := by omega
      have hscale : dscale - 4 * k = dscale - 4 * (k + 1) + 4 := by omega
      rw [ladder, hworth, hnext, ih (by omega) fun g' h' => hlt g' (List.mem_cons_of_mem _ h'), Nat.ofDigits_cons]
      rw [hdiv, hmod, hscale, pow_add]
      ring

/-- The mantissa the decoder arrives at: the whole part is added unscaled, and the digits of the
last group are lost when the scale ends inside it. -/
def decodedMantissa (n scale : ℕ) : ℕ :=
  10 ^ (scale % 4) * (n / 10 ^ (scale % 4) % 10000 ^ (scale / 4)) + n / 10 ^ scale

theorem ladder_gridGroups (value : DecimalValue) :
    ladder (worth value.scale) (-((value.scale + 3) / 4 : ℕ)) (gridGroups value) =
      decodedMantissa value.mantissa.natAbs value.scale := by
  have hlt : ∀ g ∈ gridGroups value, g < 10000 := fun g hg => Nat.digits_lt_base (by norm_num) hg
  have hten : (10000 : ℕ) ^ (value.scale / 4) = 10 ^ (4 * (value.scale / 4)) := by
    rw [pow_mul]
    norm_num
  have hscale : value.mantissa.natAbs / 10 ^ (value.scale % 4) / 10000 ^ (value.scale / 4) =
      value.mantissa.natAbs / 10 ^ value.scale := by
    rw [hten, Nat.div_div_eq_div_mul, ← pow_add, Nat.mod_add_div]
  rcases Nat.eq_zero_or_pos (value.scale % 4) with hr | hr
  · have hslots : (value.scale + 3) / 4 = value.scale / 4 := by omega
    have hpad : groupPad value.scale = 0 := by unfold groupPad; omega
    rw [hslots, ladder_fraction (by omega) hlt, gridGroups, Nat.ofDigits_digits, gridMantissa, hpad, decodedMantissa,
      ← hscale, hr, show value.scale - 4 * (value.scale / 4) = 0 by omega]
    simp
  · -- The scale ends inside the lowest group, which the decoder passes over.
    have hslots : (value.scale + 3) / 4 = value.scale / 4 + 1 := by omega
    have hdrop : ∀ gs : List ℕ, (∀ g ∈ gs, g < 10000) →
        ladder (worth value.scale) (-((value.scale / 4 + 1 : ℕ) : ℤ)) gs =
          ladder (worth value.scale) (-((value.scale / 4 : ℕ) : ℤ)) gs.tail ∧
        Nat.ofDigits 10000 gs.tail = Nat.ofDigits 10000 gs / 10000 := by
      rintro (_ | ⟨g, gs⟩) hgs
      · simp [ladder]
      · have hg : g < 10000 := hgs g (by simp)
        have hworth : worth value.scale (-((value.scale / 4 + 1 : ℕ) : ℤ)) g = 0 := by
          rw [worth, if_neg (by omega), if_neg (by omega)]
        refine ⟨?_, ?_⟩
        · rw [ladder, hworth, zero_add, List.tail_cons]
          congr 1
          omega
        · rw [List.tail_cons, Nat.ofDigits_cons]
          omega
    have hgrid : gridMantissa value / 10000 = value.mantissa.natAbs / 10 ^ (value.scale % 4) := by
      have hsplit : (10000 : ℕ) = 10 ^ groupPad value.scale * 10 ^ (value.scale % 4) := by
        rw [← pow_add, show groupPad value.scale + value.scale % 4 = 4 by unfold groupPad; omega]
        norm_num
      rw [gridMantissa, hsplit, Nat.mul_div_mul_left _ _ (by positivity)]
    obtain ⟨hladder, hdigits⟩ := hdrop _ hlt
    rw [hslots, hladder, ladder_fraction (by omega) fun g hg => hlt g (List.mem_of_mem_tail hg), hdigits, gridGroups,
      Nat.ofDigits_digits, hgrid, hscale, decodedMantissa, show value.scale - 4 * (value.scale / 4) =
      value.scale % 4 by omega]

theorem decodedMantissa_add (n scale : ℕ) :
    decodedMantissa n scale + ((10 ^ scale - 1) * (n / 10 ^ scale) + n % 10 ^ (scale % 4)) = n := by
  have hsplit : 10 ^ scale = 10 ^ (scale % 4) * 10000 ^ (scale / 4) := by
    rw [show (10000 : ℕ) = 10 ^ 4 by norm_num, ← pow_mul, ← pow_add, Nat.mod_add_div]
  obtain ⟨y, hy⟩ : ∃ y, 10 ^ scale = y + 1 := Nat.exists_eq_succ_of_ne_zero (by positivity)
  have hwhole : n / 10 ^ scale = n / 10 ^ (scale % 4) / 10000 ^ (scale / 4) := by rw [hsplit, Nat.div_div_eq_div_mul]
  have hn := Nat.div_add_mod n (10 ^ (scale % 4))
  have hq := Nat.div_add_mod (n / 10 ^ (scale % 4)) (10000 ^ (scale / 4))
  rw [decodedMantissa, hwhole, hy, Nat.add_sub_cancel]
  rw [hy] at hsplit
  set q := n / 10 ^ (scale % 4)
  set t := q / 10000 ^ (scale / 4)
  calc 10 ^ (scale % 4) * (q % 10000 ^ (scale / 4)) + t + (y * t + n % 10 ^ (scale % 4))
      = 10 ^ (scale % 4) * (q % 10000 ^ (scale / 4)) + (y + 1) * t + n % 10 ^ (scale % 4) := by ring
    _ = 10 ^ (scale % 4) * (10000 ^ (scale / 4) * t + q % 10000 ^ (scale / 4)) + n % 10 ^ (scale % 4) := by
        rw [hsplit]; ring
    _ = n := by rw [hq, hn]

theorem decodedMantissa_eq_iff (n scale : ℕ) :
    decodedMantissa n scale = n ↔ (scale = 0 ∨ n < 10 ^ scale) ∧ 10 ^ (scale % 4) ∣ n := by
  have hadd := decodedMantissa_add n scale
  have hone : 10 ^ scale - 1 = 0 ↔ scale = 0 := by
    constructor
    · intro h
      by_contra hs
      have := Nat.one_lt_pow hs (show 1 < 10 by norm_num)
      omega
    · rintro rfl
      rfl
  rw [Nat.dvd_iff_mod_eq_zero, ← hone, ← Nat.div_eq_zero_iff_lt (by positivity), ← Nat.mul_eq_zero]
  omega

def groupBytes (groups : List ℕ) : Bytes := groups.flatMap fun group => (Word.ofNat group : Word 2).toBe

@[simp] theorem length_groupBytes (groups : List ℕ) : (groupBytes groups).length = groups.length * 2 := by
  simp [groupBytes, List.length_flatMap]

def sentBytes (value : DecimalValue) : Bytes :=
  (Word.ofNat (sentGroups value).length : Word 2).toBe ++ ((leSigned 2 (sentWeight value)).reverse ++
    ((if value.mantissa < 0 then Word.ofNat 0x4000 else Word.ofNat 0 : Word 2).toBe ++
      ((Word.ofNat value.scale : Word 2).toBe ++ groupBytes (sentGroups value))))

theorem u16_eq (h : n < 65536) (refusal : String) : u16 n refusal = .ok (Word.ofNat n) := by
  have hlt : n < 256 ^ 2 := by omega
  have hword : (⟨n, hlt⟩ : Word 2) = Word.ofNat n := Fin.ext (Word.val_ofNat_of_lt hlt).symm
  rw [u16, Word.ofLength?, dif_pos hlt, ← hword]

section

variable (value : DecimalValue)

theorem length_sentGroups : (sentGroups value).length ≤ 20 := by
  have hle := (List.dropWhile_sublist (· = (0 : ℕ)) (l := gridGroups value)).length_le
  have hlen := length_gridGroups value
  have hscale : value.scale ≤ 38 := value.scale_le
  rw [sentGroups, List.length_reverse]
  omega

theorem sentWeight_range : -32768 ≤ sentWeight value ∧ sentWeight value ≤ 9 := by
  have hlen := length_gridGroups value
  have hscale : value.scale ≤ 38 := value.scale_le
  unfold sentWeight
  split <;> omega

theorem toSql_eq : toSql value = .ok (sentBytes value) := by
  have hlen := length_sentGroups value
  have hscale : value.scale ≤ 38 := value.scale_le
  have hndigits := u16_eq (show (sentGroups value).length < 65536 by omega) "too many digit groups"
  have hdscale := u16_eq (show value.scale < 65536 by omega) "numeric scale overflow"
  simp only [toSql, numericGroupsWeighted_eq, bind, Except.bind, hndigits, hdscale]
  rfl

theorem length_sentBytes : (sentBytes value).length = 8 + (sentGroups value).length * 2 := by
  simp only [sentBytes, List.length_append, Word.length_toBe, List.length_reverse, length_leSigned, length_groupBytes]
  omega

theorem header_sentBytes :
    be16 (sentBytes value) 0 = (sentGroups value).length ∧ beI16 (sentBytes value) 2 = sentWeight value ∧
    be16 (sentBytes value) 4 = (if value.mantissa < 0 then 0x4000 else 0) ∧ be16 (sentBytes value) 6 = value.scale := by
  have hlen := length_sentGroups value
  have hscale : value.scale ≤ 38 := value.scale_le
  obtain ⟨hwlo, hwhi⟩ := sentWeight_range value
  have hfit : ∀ {n : ℕ}, n < 65536 → (Word.ofNat n : Word 2).val = n := fun h => Word.val_ofNat_of_lt (by omega)
  refine ⟨(be16_toBe _ [] _ rfl).trans (hfit (by omega)),
    beI16_leSigned hwlo (by omega) _ _ (Word.length_toBe _), ?_, ?_⟩
  · rw [sentBytes, ← List.append_assoc, be16_toBe _ _ _ (by simp)]
    split <;> exact hfit (by omega)
  · rw [sentBytes, ← List.append_assoc, ← List.append_assoc, be16_toBe _ _ _ (by simp)]
    exact hfit (by omega)

theorem groups_sentBytes :
    (List.range (sentGroups value).length).map (fun index => be16 (sentBytes value) (8 + index * 2)) =
      sentGroups value := by
  have hread := be16_groups (sentGroups value) (sentGroups_lt value)
    ((Word.ofNat (sentGroups value).length : Word 2).toBe ++ ((leSigned 2 (sentWeight value)).reverse ++
      ((if value.mantissa < 0 then Word.ofNat 0x4000 else Word.ofNat 0 : Word 2).toBe ++
        (Word.ofNat value.scale : Word 2).toBe)))
  simpa [sentBytes, groupBytes, List.append_assoc] using hread

theorem readGroups_sentGroups :
    readGroups value.scale (sentWeight value) (sentGroups value) =
      pure (decodedMantissa value.mantissa.natAbs value.scale : ℤ) := by
  have hsum := (sum_sentGroups (worth value.scale) (by simp [worth]) value).trans (ladder_gridGroups value)
  have hle : (decodedMantissa value.mantissa.natAbs value.scale : ℤ) ≤ i128Max := by
    have hadd := decodedMantissa_add value.mantissa.natAbs value.scale
    have hm : value.mantissa.natAbs < 10 ^ 38 := value.mantissa_lt
    norm_num [i128Max] at hm ⊢
    omega
  have hlength := length_sentGroups value
  obtain ⟨hlo, hhi⟩ := sentWeight_range value
  have hrun := readGroups_ok value.scale_le (by omega) hhi (sentGroups value) 0 (by omega) le_rfl
    (by rw [hsum, zero_add]; exact hle)
  rw [hsum, zero_add] at hrun
  exact hrun

theorem decode_sentBytes :
    decodeNumericParameter (sentBytes value) = Trap.reported
      ((DecimalValue.new (if value.mantissa < 0 then -(decodedMantissa value.mantissa.natAbs value.scale : ℤ)
        else decodedMantissa value.mantissa.natAbs value.scale) value.scale).mapError decimalErrorText) := by
  obtain ⟨hndigits, hweight, hsign, hdscale⟩ := header_sentBytes value
  have hlength := length_sentBytes value
  have hscale : ¬ decimalMaxPrecision < value.scale := not_lt.mpr value.scale_le
  have hsigned : (Trap.signed 128 (-(decodedMantissa value.mantissa.natAbs value.scale : ℤ)) : Trap String ℤ) =
      pure (-(decodedMantissa value.mantissa.natAbs value.scale : ℤ)) := by
    have hadd := decodedMantissa_add value.mantissa.natAbs value.scale
    have hm : value.mantissa.natAbs < 10 ^ 38 := value.mantissa_lt
    norm_num at hm
    exact Trap.within_eq (by omega) (by omega)
  rw [decodeNumericParameter, groupsOf, hndigits, hweight, hsign, hdscale, groups_sentBytes, readGroups_sentGroups,
    if_neg (by omega), if_neg (by omega), if_neg hscale, pure_bind]
  by_cases hneg : value.mantissa < 0
  · rw [if_pos hneg, if_pos hneg, if_pos rfl, hsigned, pure_bind]
  · rw [if_neg hneg, if_neg hneg, if_neg (by decide), pure_bind]

end

theorem mapError_new_eq_ok {s : ℕ} {d : DecimalValue} (hs : d.scale = s) :
    (DecimalValue.new m s).mapError decimalErrorText = .ok d ↔ m = d.mantissa := by
  constructor
  · intro h
    cases hnew : DecimalValue.new m s with
    | error e => rw [hnew] at h; cases h
    | ok value =>
      rw [hnew] at h
      rw [← Except.ok.inj h]
      exact (DecimalValue.new_eq_ok hnew).1.symm
  · rintro rfl
    rw [← hs, DecimalValue.new_self]
    rfl

theorem decode_eq_iff (value : DecimalValue) :
    decodeNumericParameter (sentBytes value) = Trap.reported (.ok value) ↔
      decodedMantissa value.mantissa.natAbs value.scale = value.mantissa.natAbs := by
  rw [decode_sentBytes, Trap.reported_inj, mapError_new_eq_ok rfl]
  split <;> omega

/-- The groups are the number: digits of base ten thousand on the grid, trimmed at both ends. -/
def Grouped (value : DecimalValue) : Prop :=
  ∃ weight groups, numericGroupsWeighted value = .ok (weight, groups) ∧
    value.toRat = value.mantissa.sign *
    (groups.zipIdx.map fun entry => (entry.1 : ℚ) * 10000 ^ (weight - entry.2)).sum ∧
    (∀ group ∈ groups, group < 10000) ∧ groups.head? ≠ some 0 ∧ groups.getLast? ≠ some 0

theorem grouped (value : DecimalValue) : Grouped value := by
  have hsign : (value.mantissa : ℚ) = value.mantissa.sign * (value.mantissa.natAbs : ℚ) := by
    conv_lhs => rw [← Int.sign_mul_natAbs value.mantissa]
    rw [Int.cast_mul, Int.cast_natCast]
  refine ⟨sentWeight value, sentGroups value, numericGroupsWeighted_eq value, ?_, sentGroups_lt value,
    sentGroups_trimmed value⟩
  rw [sum_sentGroups_value, Decimal.toRat, hsign, mul_div_assoc]

/-- A decimal comes back as it was sent exactly when it has no fraction, or is all fraction and
its last group is not cut by the scale. -/
theorem numeric_roundtrip_iff (value : DecimalValue) :
    ((∃ raw, toSql value = .ok raw ∧ decodeNumericParameter raw = Trap.reported (.ok value)) ∧ Grouped value) ↔
      (value.scale = 0 ∨ value.mantissa.natAbs < 10 ^ value.scale) ∧
        10 ^ (value.scale % 4) ∣ value.mantissa.natAbs := by
  rw [← decodedMantissa_eq_iff, ← decode_eq_iff]
  constructor
  · rintro ⟨⟨raw, hsent, hread⟩, -⟩
    rw [toSql_eq] at hsent
    rw [Except.ok.inj hsent]
    exact hread
  · intro hread
    exact ⟨⟨_, toSql_eq value, hread⟩, grouped value⟩

/-- `1.5` is sent as the groups `1` and `5000`, and read back as `0.1`. -/
theorem numeric_mixed_lost :
    toSql ⟨15, 1, by decide, by decide⟩ = .ok [0, 2, 0, 0, 0, 0, 0, 1, 0, 1, 0x13, 0x88] ∧
    decodeNumericParameter [0, 2, 0, 0, 0, 0, 0, 1, 0, 1, 0x13, 0x88] =
      Trap.reported (.ok ⟨1, 1, by decide, by decide⟩) := by
  constructor
  · decide +kernel
  · decide +kernel

end OmenDb.Wire
