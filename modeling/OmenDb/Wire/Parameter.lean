import OmenDb.Lib.Fields
import OmenDb.Sql.Calendar
import OmenDb.Wire.Numeric

/-! Binary parameters of a date, timestamp or numeric type. Each unchecked operation of the reader is
run where a result outside its machine type has no value, so that what is read without an overflow,
and what of it passes the checks of the value's own constructor, can be told from the bytes. -/
namespace OmenDb.Wire

open OmenDb.Sql

/-- The header passes its checks: the width, the number of groups and the scale. -/
def HeaderOk (raw : Bytes) : Prop :=
  8 ≤ raw.length ∧ 2 ∣ raw.length ∧ raw.length = 8 + be16 raw 0 * 2 ∧ be16 raw 6 ≤ decimalMaxPrecision

/-- `from_be_bytes` of a signed type of `w` bytes. -/
def beSigned (w : ℕ) (raw : Bytes) : ℤ :=
  if 2 * Word.value raw.reverse < 256 ^ w then Word.value raw.reverse else (Word.value raw.reverse : ℤ) - 256 ^ w

def postgresEpochOffsetDays : ℤ := 10957
def postgresEpochOffsetMicros : ℤ := 946684800000000

def minDateDays : ℤ := -2441474
def maxDateDays : ℤ := 2145148992

inductive ParameterType
  | date | timestamp | numeric

inductive Parameter
  | date (days : ℤ)
  | timestamp (micros : ℤ)
  | decimal (value : DecimalValue)
  deriving DecidableEq

/-- `decode_parameter` on the bytes of a binary parameter of one of these types. -/
def decodeParameter (declared : ParameterType) (raw : Bytes) : Trap String Parameter :=
  match declared with
  | .date =>
    if raw.length = 4 then Parameter.date <$> Trap.signed 32 (beSigned 4 raw + postgresEpochOffsetDays)
    else Trap.reported (.error "malformed date parameter")
  | .timestamp =>
    if raw.length = 8 then Parameter.timestamp <$> Trap.signed 64 (beSigned 8 raw + postgresEpochOffsetMicros)
    else Trap.reported (.error "malformed timestamp parameter")
  | .numeric => Parameter.decimal <$> decodeNumericParameter raw

/-- `DateValue::from_days`, `TimestampValue::from_micros` or `DecimalValue::new` takes the value. -/
def Parameter.Accepted : Parameter → Prop
  | .date days => minDateDays ≤ days ∧ days ≤ maxDateDays
  | .timestamp micros => minTimestampMicros ≤ micros ∧ micros ≤ maxTimestampMicros
  | .decimal value => DecimalValue.new value.mantissa value.scale = .ok value

variable {e weight m : ℤ} {dscale group : ℕ} {groups : List ℕ}

/-- What the first `n` groups are worth. -/
def worthOf (dscale : ℕ) (weight : ℤ) (k n : ℕ) (groups : List ℕ) : ℕ :=
  (((groups.take n).zipIdx k).map fun entry => worth dscale (weight - entry.2) entry.1).sum

/-- A group is reached, by a weight and earlier groups that fit, and is itself worth too much. -/
def GroupOverflows (dscale : ℕ) (weight : ℤ) (k : ℕ) (m : ℤ) (groups : List ℕ) : Prop :=
  weight - k ≤ 9 ∧ ∃ n group, groups[n]? = some group ∧ i128Max < worth dscale (weight - (k + n : ℕ)) group ∧
    m + worthOf dscale weight k n groups ≤ i128Max

/-- The loop traps at such a group; otherwise it reports an error or a sum in range. -/
theorem readGroups_run (hscale : dscale ≤ 38) (hweight : -2 ^ 15 ≤ weight ∧ weight < 2 ^ 15)
    (groups : List ℕ) (k : ℕ) (hlength : k + groups.length ≤ 2 ^ 16) (hm : 0 ≤ m) (hmax : m ≤ i128Max) :
    (groups.zipIdx k).foldlM (fun mantissa entry => readGroup dscale weight entry.2 entry.1 mantissa) m = Trap.trap ∧
        GroupOverflows dscale weight k m groups ∨
      ¬ GroupOverflows dscale weight k m groups ∧ ∃ r,
        (groups.zipIdx k).foldlM (fun mantissa entry => readGroup dscale weight entry.2 entry.1 mantissa) m =
          Trap.reported r ∧ ∀ m', r = .ok m' → 0 ≤ m' ∧ m' ≤ i128Max := by
  induction groups generalizing k m with
  | nil =>
    refine .inr ⟨?_, .ok m, rfl, fun m' h => ?_⟩
    · rintro ⟨-, n, group, h, -⟩
      simp at h
    · cases h
      exact ⟨hm, hmax⟩
  | cons g gs ih =>
    rw [List.length_cons] at hlength
    rw [List.zipIdx_cons, List.foldlM_cons]
    dsimp only
    rw [readGroup_eq hscale hweight (by omega) hm hmax]
    by_cases hbig : 9 < weight - k
    · rw [if_pos hbig, Trap.error_bind]
      exact .inr ⟨fun h => absurd h.1 (by omega), _, rfl, fun _ h => by cases h⟩
    · rw [if_neg hbig]
      -- the first group is worth too much, or it counts among those before any other
      by_cases hworth : i128Max < worth dscale (weight - k) g
      · rw [if_pos hworth, Trap.trap_bind]
        exact .inl ⟨rfl, by omega, 0, g, rfl, by simpa using hworth, by simpa [worthOf] using hmax⟩
      · rw [if_neg hworth]
        have hlater : GroupOverflows dscale weight k m (g :: gs) ↔
            GroupOverflows dscale weight (k + 1) (m + worth dscale (weight - k) g) gs := by
          constructor
          · rintro ⟨h9, n, group, hget, hlarge, hsum⟩
            cases n with
            | zero =>
              cases hget
              exact absurd hlarge (by simpa using hworth)
            | succ n =>
              refine ⟨by omega, n, group, by simpa using hget, ?_, ?_⟩
              · rw [show k + 1 + n = k + (n + 1) by omega]
                exact hlarge
              · simp only [worthOf, List.take_succ_cons, List.zipIdx_cons, List.map_cons, List.sum_cons] at hsum
                rw [worthOf]
                omega
          · rintro ⟨h9, n, group, hget, hlarge, hsum⟩
            refine ⟨by omega, n + 1, group, by simpa using hget, ?_, ?_⟩
            · rw [show k + (n + 1) = k + 1 + n by omega]
              exact hlarge
            · simp only [worthOf, List.take_succ_cons, List.zipIdx_cons, List.map_cons, List.sum_cons]
              rw [worthOf] at hsum
              omega
        by_cases hsum : m + worth dscale (weight - k) g ≤ i128Max
        · rw [if_pos hsum, pure_bind, hlater]
          exact ih (k + 1) (by omega) (by omega) hsum
        · rw [if_neg hsum, Trap.error_bind, hlater]
          refine .inr ⟨?_, _, rfl, fun _ h => by cases h⟩
          rintro ⟨-, n, group, -, -, h⟩
          omega

/-- The first of ten groups before the point is at least 171; or, at the full scale, the first group
after the point is at least 17015 and the groups before it are in range. -/
def NumericOverflows (dscale : ℕ) (weight : ℤ) (groups : List ℕ) : Prop :=
  (weight = 9 ∧ ∃ group, groups[0]? = some group ∧ 171 ≤ group) ∨
    (dscale = 38 ∧ -1 ≤ weight ∧ weight ≤ 9 ∧ ∃ group, groups[(weight + 1).toNat]? = some group ∧ 17015 ≤ group ∧
      ((Nat.ofDigits 10000 (groups.take (weight + 1).toNat).reverse : ℕ) : ℤ) ≤ i128Max)

theorem worth_large_iff (hscale : dscale ≤ 38) (he : e ≤ 9) (hgroup : group < 65536) :
    i128Max < worth dscale e group ↔ (e = 9 ∧ 171 ≤ group) ∨ (dscale = 38 ∧ e = -1 ∧ 17015 ≤ group) := by
  have htop : i128Max = 2 ^ 127 - 1 := rfl
  -- a group of 16 bits fits at every place up to 33
  have hfits : ∀ {k : ℕ}, k ≤ 33 → ((group * 10 ^ k : ℕ) : ℤ) ≤ i128Max := by
    intro k hk
    have hle : group * 10 ^ k ≤ 65535 * 10 ^ 33 :=
      Nat.mul_le_mul (by omega) (Nat.pow_le_pow_right (by norm_num) hk)
    rw [htop]
    omega
  unfold worth
  by_cases hpos : 0 ≤ e
  · rw [if_pos hpos]
    by_cases hnine : e = 9
    · subst hnine
      rw [show (4 * (9 : ℤ)).toNat = 36 by rfl, htop]
      omega
    · have := @hfits (4 * e).toNat (by omega)
      omega
  · rw [if_neg hpos]
    by_cases hin : -4 * e ≤ dscale
    · rw [if_pos hin]
      by_cases hlast : (dscale : ℤ) - -4 * e = 34
      · rw [hlast, show (34 : ℤ).toNat = 34 by rfl, htop]
        omega
      · have := @hfits (dscale - -4 * e).toNat (by omega)
        omega
    · rw [if_neg hin, htop]
      omega

theorem worthOf_whole {n : ℕ} (hlength : n ≤ groups.length) :
    worthOf dscale ((n : ℤ) - 1) 0 n groups = Nat.ofDigits 10000 (groups.take n).reverse := by
  have hplace : (n : ℤ) - 1 - (0 : ℕ) - (groups.take n).length + 1 = 0 := by
    rw [List.length_take, min_eq_left hlength]
    omega
  rw [worthOf, ladder_reverse, hplace, ladder_whole dscale le_rfl]
  simp

theorem groupOverflows_iff (hscale : dscale ≤ 38) (hgroups : ∀ group ∈ groups, group < 65536) :
    GroupOverflows dscale weight 0 0 groups ↔ NumericOverflows dscale weight groups := by
  constructor
  · rintro ⟨h9, n, group, hget, hlarge, hsum⟩
    rw [zero_add] at hlarge hsum
    rcases (worth_large_iff hscale (by omega) (hgroups group (List.mem_of_getElem? hget))).mp hlarge with
      ⟨hplace, hgroup⟩ | ⟨rfl, hplace, hgroup⟩
    · obtain rfl : n = 0 := by omega
      exact .inl ⟨by omega, group, hget, hgroup⟩
    · obtain rfl : weight = (n : ℤ) - 1 := by omega
      have hn : ((n : ℤ) - 1 + 1).toNat = n := by omega
      rw [worthOf_whole (List.getElem?_eq_some_iff.mp hget).1.le] at hsum
      exact .inr ⟨rfl, by omega, by omega, group, hn.symm ▸ hget, hgroup, hn.symm ▸ hsum⟩
  · rintro (⟨rfl, group, hget, hgroup⟩ | ⟨rfl, hlow, hhigh, group, hget, hgroup, hsum⟩)
    · refine ⟨by omega, 0, group, hget, ?_, by simp [worthOf, i128Max]⟩
      exact (worth_large_iff hscale (by omega) (hgroups group (List.mem_of_getElem? hget))).mpr
        (.inl ⟨by omega, hgroup⟩)
    · obtain ⟨n, rfl⟩ : ∃ n : ℕ, weight = (n : ℤ) - 1 := ⟨(weight + 1).toNat, by omega⟩
      have hn : ((n : ℤ) - 1 + 1).toNat = n := by omega
      rw [hn] at hget hsum
      refine ⟨by omega, n, group, hget, ?_, ?_⟩
      · exact (worth_large_iff hscale (by omega) (hgroups group (List.mem_of_getElem? hget))).mpr
          (.inr ⟨rfl, by omega, hgroup⟩)
      · rw [zero_add, worthOf_whole (List.getElem?_eq_some_iff.mp hget).1.le]
        exact hsum

theorem be16_lt (raw : Bytes) (offset : ℕ) : be16 raw offset < 65536 := by
  have hvalue := Word.value_lt (slice raw offset (offset + 2)).reverse
  have hlength : (slice raw offset (offset + 2)).reverse.length ≤ 2 := by
    simp only [List.length_reverse, slice, List.length_take, List.length_drop]
    omega
  exact hvalue.trans_le (Nat.pow_le_pow_right (by norm_num) hlength)

/-- A numeric parameter is read without overflow unless its header is in order and its groups overflow,
and what is read is a decimal by construction. -/
theorem decodeNumericParameter_run (raw : Bytes) :
    decodeNumericParameter raw = Trap.trap ∧ HeaderOk raw ∧ NumericOverflows (be16 raw 6) (beI16 raw 2) (groupsOf raw) ∨
      ¬ (HeaderOk raw ∧ NumericOverflows (be16 raw 6) (beI16 raw 2) (groupsOf raw)) ∧
        ∃ r, decodeNumericParameter raw = Trap.reported r := by
  unfold decodeNumericParameter
  by_cases hwidth : raw.length < 8 ∨ ¬ 2 ∣ raw.length
  · rw [if_pos hwidth]
    exact .inr ⟨fun h => hwidth.elim (fun hlt => absurd h.1.1 (by omega)) fun hodd => hodd h.1.2.1, _, rfl⟩
  · rw [if_neg hwidth]
    by_cases hcount : raw.length ≠ 8 + be16 raw 0 * 2
    · rw [if_pos hcount]
      exact .inr ⟨fun h => hcount h.1.2.2.1, _, rfl⟩
    · rw [if_neg hcount]
      by_cases hscale : decimalMaxPrecision < be16 raw 6
      · rw [if_pos hscale]
        exact .inr ⟨fun h => absurd h.1.2.2.2 (by omega), _, rfl⟩
      · rw [if_neg hscale]
        push Not at hwidth hcount hscale
        have hheader : HeaderOk raw := ⟨hwidth.1, hwidth.2, hcount, hscale⟩
        have hgroups : ∀ group ∈ groupsOf raw, group < 65536 := by
          intro group hgroup
          obtain ⟨index, -, rfl⟩ := List.mem_map.mp hgroup
          exact be16_lt raw _
        have hweight : -2 ^ 15 ≤ beI16 raw 2 ∧ beI16 raw 2 < 2 ^ 15 := by
          have := be16_lt raw 2
          unfold beI16
          split <;> omega
        have hlength : 0 + (groupsOf raw).length ≤ 2 ^ 16 := by
          have := be16_lt raw 0
          rw [groupsOf, List.length_map, List.length_range]
          omega
        simp only [← groupOverflows_iff hscale hgroups, hheader, true_and]
        rcases readGroups_run hscale hweight (groupsOf raw) 0 hlength le_rfl (by norm_num [i128Max]) with
          ⟨htrap, hoverflow⟩ | ⟨hno, r, hr, hrange⟩
        · refine .inl ⟨?_, hoverflow⟩
          rw [readGroups, htrap, Trap.trap_bind]
        · refine .inr ⟨hno, ?_⟩
          rw [readGroups, hr]
          cases r with
          | error reason => exact ⟨.error reason, rfl⟩
          | ok mantissa =>
            obtain ⟨h0, hmax⟩ := hrange mantissa rfl
            rw [Trap.reported_ok, pure_bind]
            split
            · have hneg : (Trap.signed 128 (-mantissa) : Trap String ℤ) = pure (-mantissa) :=
                Trap.within_eq (by unfold i128Max at hmax; omega) (by omega)
              rw [hneg]
              exact ⟨_, rfl⟩
            · exact ⟨_, rfl⟩

/-- When a parameter is read without an overflow to a value that its type can hold. -/
def Fits (raw : Bytes) : ParameterType → Prop
  | .date => raw.length = 4 → minDateDays ≤ beSigned 4 raw + postgresEpochOffsetDays ∧
      beSigned 4 raw + postgresEpochOffsetDays ≤ maxDateDays
  | .timestamp => raw.length = 8 → minTimestampMicros ≤ beSigned 8 raw + postgresEpochOffsetMicros ∧
      beSigned 8 raw + postgresEpochOffsetMicros ≤ maxTimestampMicros
  | .numeric => HeaderOk raw → ¬ NumericOverflows (be16 raw 6) (beI16 raw 2) (groupsOf raw)

theorem shifted_iff {w : ℕ} {n lo hi : ℤ} {make : ℤ → Parameter} (hlo : -2 ^ (w - 1) ≤ lo) (hhi : hi ≤ 2 ^ (w - 1) - 1)
    (haccepted : ∀ m, (make m).Accepted ↔ lo ≤ m ∧ m ≤ hi) :
    (∃ r, (make <$> (Trap.signed w n : Trap String ℤ)) = Trap.reported r ∧
      ∀ value, r = .ok value → value.Accepted) ↔ lo ≤ n ∧ n ≤ hi := by
  constructor
  · rintro ⟨r, hr, hvalid⟩
    rw [Trap.signed, Trap.within] at hr
    split at hr
    · exact (haccepted n).mp (hvalid _ (Option.some.inj hr).symm)
    · cases hr
  · intro h
    rw [Trap.signed, Trap.within_eq (by omega) (by omega)]
    refine ⟨.ok (make n), rfl, fun value hvalue => ?_⟩
    cases hvalue
    exact (haccepted n).mpr h

/-- A binary parameter is read without an overflow, to an error or to a value that the constructor of
its type takes, exactly when its bytes fit. -/
theorem decodeParameter_valid_iff (declared : ParameterType) (raw : Bytes) :
    (∃ r, decodeParameter declared raw = Trap.reported r ∧ ∀ value, r = .ok value → value.Accepted) ↔
      Fits raw declared := by
  cases declared with
  | date =>
    unfold decodeParameter Fits
    by_cases hlength : raw.length = 4
    · simp only [hlength, if_true, true_imp_iff]
      exact shifted_iff (by norm_num [minDateDays]) (by norm_num [maxDateDays]) fun _ => Iff.rfl
    · simp only [hlength, if_false, false_imp_iff, iff_true]
      exact ⟨_, rfl, fun _ h => by cases h⟩
  | timestamp =>
    unfold decodeParameter Fits
    by_cases hlength : raw.length = 8
    · simp only [hlength, if_true, true_imp_iff]
      exact shifted_iff (by norm_num [minTimestampMicros]) (by norm_num [maxTimestampMicros]) fun _ => Iff.rfl
    · simp only [hlength, if_false, false_imp_iff, iff_true]
      exact ⟨_, rfl, fun _ h => by cases h⟩
  | numeric =>
    unfold decodeParameter Fits
    rcases decodeNumericParameter_run raw with ⟨htrap, hheader, hoverflow⟩ | ⟨hno, r, hr⟩
    · simp only [htrap, hheader, hoverflow]
      simp only [true_imp_iff, not_true_eq_false, iff_false]
      rintro ⟨r, hr, -⟩
      cases hr
    · refine iff_of_true ?_ (fun hheader hoverflow => hno ⟨hheader, hoverflow⟩)
      rw [hr]
      cases r with
      | error reason => exact ⟨.error reason, rfl, fun _ h => by cases h⟩
      | ok value =>
        refine ⟨.ok (.decimal value), rfl, fun read hread => ?_⟩
        cases hread
        exact DecimalValue.new_self value

/-- A date past the largest, a timestamp before the smallest, and a numeric whose first group
overflows. -/
theorem decodeParameter_overflows :
    decodeParameter .date [0x7f, 0xff, 0xff, 0xff] = Trap.trap ∧
    decodeParameter .timestamp [0x80, 0, 0, 0, 0, 0, 0, 0] =
      Trap.reported (.ok (.timestamp (-9222425352054775808))) ∧
    ¬ (Parameter.timestamp (-9222425352054775808)).Accepted ∧
    decodeParameter .numeric [0, 1, 0, 9, 0, 0, 0, 0, 0, 171] = Trap.trap := by
  refine ⟨by decide +kernel, by decide +kernel, ?_, by decide +kernel⟩
  rintro ⟨hlow, -⟩
  exact absurd hlow (by decide)

end OmenDb.Wire
