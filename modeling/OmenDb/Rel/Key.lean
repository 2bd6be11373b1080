import OmenDb.Lib.KeyRange
import OmenDb.Sql.Value

/-! Encoded values and index keys. A value is a tag and a payload of fixed width or with its length
in front, so a concatenation of values of known types splits in one way; an index entry puts the
length of its value key first, so the entries of one value key are a range of keys. -/
namespace OmenDb.Rel

open OmenDb.Sql

/-- `to_le_bytes` of a signed integer of `w` bytes. -/
def leSigned (w : ℕ) (n : ℤ) : Bytes := Word.digits w (n % (256 : ℤ) ^ w).toNat

/-- `as_bytes` of a text. -/
def textBytes (text : String) : Bytes := text.toByteArray.data.toList.map UInt8.toFin

def putBytes (value : Bytes) : DbResult Bytes :=
  match (Word.ofLength? value.length : Option (Word 4)) with
  | some length => .ok (length.toLe ++ value)
  | none => .error (.valueTooLarge value.length)

def encode : Value → DbResult Bytes
  | .null => .ok [0]
  | .bytes value => do return 1 :: (← putBytes value)
  | .bool value => .ok [2, if value then 1 else 0]
  | .i64 value => .ok (3 :: leSigned 8 value.val)
  | .u64 value => .ok (4 :: Word.digits 8 value.val)
  | .text value => do return 5 :: (← putBytes (textBytes value))
  | .float64 value => .ok (6 :: Word.digits 8 value.bits.val)
  | .date days => .ok (7 :: leSigned 4 days.val)
  | .timestamp micros => .ok (8 :: leSigned 8 micros.val)
  | .decimal value => .ok (9 :: (leSigned 16 value.mantissa ++ Word.digits 4 value.scale))
  | .uuid bits => .ok (10 :: bits.val)

def canonicalBits (value : F64) : ℕ :=
  if value.isZero then 0 else if value.isNan then 0x7ff8000000000000 else value.bits.val

def encodeForKey : Value → DbResult Bytes
  | .decimal value =>
    .ok (9 :: (leSigned 16 value.normalized.mantissa ++ Word.digits 4 value.normalized.scale))
  | .float64 value => .ok (6 :: Word.digits 8 (canonicalBits value))
  | value => encode value

def encodeKey : List Value → DbResult Bytes
  | [] => .ok []
  | value :: values => do
    let first ← encodeForKey value
    return first ++ (← encodeKey values)

/-- `index_entry_prefix`; a length past 32 bits panics. -/
def indexEntryPrefix (values : Bytes) : Option Bytes :=
  (Word.ofLength? values.length : Option (Word 4)).map fun length => length.toBe ++ values

def encodeIndexEntry (values identity : Bytes) : DbResult Bytes :=
  match (Word.ofLength? values.length : Option (Word 4)), (Word.ofLength? identity.length : Option (Word 4)) with
  | none, _ => .error (.valueTooLarge values.length)
  | some _, none => .error (.valueTooLarge identity.length)
  | some valuesLength, some identityLength =>
    .ok (valuesLength.toBe ++ (values ++ (identityLength.toBe ++ identity)))

variable {w : ℕ} {v a b x y values identity key : Bytes} {l r : Value}

theorem digits_inj {m n : ℕ} (hm : m < 256 ^ w) (hn : n < 256 ^ w) (h : Word.digits w m = Word.digits w n) :
    m = n := by
  have := congrArg Word.value h
  rwa [Word.value_digits, Word.value_digits, Nat.mod_eq_of_lt hm, Nat.mod_eq_of_lt hn] at this

@[simp] theorem length_leSigned (w : ℕ) (n : ℤ) : (leSigned w n).length = w := Word.length_digits w _

theorem leSigned_inj {m n : ℤ} (hlt : |m - n| < 256 ^ w) (h : leSigned w m = leSigned w n) : m = n := by
  have hpos : (0 : ℤ) < 256 ^ w := by positivity
  have hlt' : ∀ k : ℤ, (k % 256 ^ w).toNat < 256 ^ w := by
    intro k
    have hk := Int.emod_lt_of_pos k hpos
    have hk0 := Int.emod_nonneg k hpos.ne'
    have hcast : ((k % 256 ^ w).toNat : ℤ) < ((256 ^ w : ℕ) : ℤ) := by
      rw [Int.toNat_of_nonneg hk0]
      push_cast
      exact hk
    exact_mod_cast hcast
  have hnat := digits_inj (hlt' m) (hlt' n) h
  have hmod : m % 256 ^ w = n % 256 ^ w := by
    rw [← Int.toNat_of_nonneg (Int.emod_nonneg m hpos.ne'), ← Int.toNat_of_nonneg (Int.emod_nonneg n hpos.ne'), hnat]
  have hdvd : (256 : ℤ) ^ w ∣ m - n := Int.ModEq.dvd (show n ≡ m [ZMOD 256 ^ w] from hmod.symm)
  exact sub_eq_zero.mp (Int.eq_zero_of_abs_lt_dvd hdvd hlt)

theorem textBytes_inj {l r : String} (h : textBytes l = textBytes r) : l = r := by
  have hinj : Function.Injective UInt8.toFin := fun a b hab => UInt8.toFin_inj.mp hab
  have := (List.map_injective_iff.mpr hinj) h
  exact String.toByteArray_inj.mp (ByteArray.ext (Array.toList_inj.mp this))

theorem putBytes_append_inj {u : Bytes} (ha : putBytes u = .ok a) (hb : putBytes v = .ok b)
    (h : a ++ x = b ++ y) : u = v ∧ x = y := by
  unfold putBytes at ha hb
  split at ha
  · rename_i m hm
    split at hb
    · rename_i n hn
      cases ha
      cases hb
      rw [List.append_assoc, List.append_assoc] at h
      obtain ⟨hlength, hrest⟩ := List.append_inj h (by simp)
      have hmn := congrArg Fin.val (Word.toLe_injective hlength)
      rw [Word.ofLength?_eq_some hm, Word.ofLength?_eq_some hn] at hmn
      exact List.append_inj hrest hmn
    · cases hb
  · cases ha

structure KeyValue (value : Value) (ty : ColumnType) : Prop where
  notNull : value.isNull = false
  typed : value.matches ty = true
  notFloat : ty ≠ .float64

/-- Equality of key values: decimals by the number they stand for. -/
def SameKey : Value → Value → Prop
  | .decimal l, .decimal r => l.toRat = r.toRat
  | l, r => l = r

theorem i64_apart (m n : I64) : |m.val - n.val| < 256 ^ 8 := by
  have hm := m.property
  have hn := n.property
  rw [abs_lt]
  constructor <;> omega

theorem i32_apart (m n : I32) : |m.val - n.val| < 256 ^ 4 := by
  have hm := m.property
  have hn := n.property
  rw [abs_lt]
  constructor <;> omega

theorem mantissa_apart (m n : DecimalValue) : |m.mantissa - n.mantissa| < 256 ^ 16 := by
  have hm := m.mantissa_lt
  have hn := n.mantissa_lt
  unfold decimalMaxPrecision at hm hn
  rw [abs_lt]
  constructor <;> omega

inductive KeyPair : Value → Value → Prop
  | bytes (u v : Bytes) : KeyPair (.bytes u) (.bytes v)
  | bool (u v : Bool) : KeyPair (.bool u) (.bool v)
  | i64 (u v : I64) : KeyPair (.i64 u) (.i64 v)
  | u64 (u v : U64) : KeyPair (.u64 u) (.u64 v)
  | text (u v : String) : KeyPair (.text u) (.text v)
  | date (u v : I32) : KeyPair (.date u) (.date v)
  | timestamp (u v : I64) : KeyPair (.timestamp u) (.timestamp v)
  | decimal (u v : DecimalValue) : KeyPair (.decimal u) (.decimal v)
  | uuid (u v : Uuid) : KeyPair (.uuid u) (.uuid v)

theorem KeyValue.pair {ty : ColumnType} (hl : KeyValue l ty) (hr : KeyValue r ty) : KeyPair l r := by
  obtain ⟨hln, hlt, hf⟩ := hl
  obtain ⟨hrn, hrt, -⟩ := hr
  cases ty with
  | float64 => exact absurd rfl hf
  | _ =>
    cases l <;> first | (cases hlt; done) | (cases hln; done) | skip
    all_goals cases r <;> first | (cases hrt; done) | (cases hrn; done) | constructor

theorem append_fixed_inj {tag : Byte} (h : tag :: a ++ x = tag :: b ++ y)
    (hlen : a.length = b.length) : a = b ∧ x = y :=
  List.append_inj (List.cons.inj h).2 hlen

/-- An encoded value ends where its type says, so what follows it is determined too. -/
theorem encodeForKey_append_inj (hp : KeyPair l r)
    (ha : encodeForKey l = .ok a) (hb : encodeForKey r = .ok b) (h : a ++ x = b ++ y) : SameKey l r ∧ x = y := by
  cases hp with
  | bytes u v =>
    obtain ⟨a', ha', ha⟩ := bind_eq_ok.mp ha
    obtain ⟨b', hb', hb⟩ := bind_eq_ok.mp hb
    cases ha
    cases hb
    obtain ⟨rfl, rfl⟩ := putBytes_append_inj ha' hb' (List.cons.inj h).2
    exact ⟨rfl, rfl⟩
  | text u v =>
    obtain ⟨a', ha', ha⟩ := bind_eq_ok.mp ha
    obtain ⟨b', hb', hb⟩ := bind_eq_ok.mp hb
    cases ha
    cases hb
    obtain ⟨htext, rfl⟩ := putBytes_append_inj ha' hb' (List.cons.inj h).2
    exact ⟨congrArg Value.text (textBytes_inj htext), rfl⟩
  | bool u v =>
    cases ha
    cases hb
    obtain ⟨hbit, rfl⟩ := append_fixed_inj h rfl
    exact ⟨congrArg Value.bool (by cases u <;> cases v <;> simp_all), rfl⟩
  | i64 u v =>
    cases ha
    cases hb
    obtain ⟨hbits, rfl⟩ := append_fixed_inj h (by simp)
    exact ⟨congrArg Value.i64 (Subtype.ext (leSigned_inj (i64_apart u v) hbits)), rfl⟩
  | u64 u v =>
    cases ha
    cases hb
    obtain ⟨hbits, rfl⟩ := append_fixed_inj h (by simp)
    exact ⟨congrArg Value.u64 (Fin.ext (digits_inj u.isLt v.isLt hbits)), rfl⟩
  | date u v =>
    cases ha
    cases hb
    obtain ⟨hbits, rfl⟩ := append_fixed_inj h (by simp)
    exact ⟨congrArg Value.date (Subtype.ext (leSigned_inj (i32_apart u v) hbits)), rfl⟩
  | timestamp u v =>
    cases ha
    cases hb
    obtain ⟨hbits, rfl⟩ := append_fixed_inj h (by simp)
    exact ⟨congrArg Value.timestamp (Subtype.ext (leSigned_inj (i64_apart u v) hbits)), rfl⟩
  | decimal u v =>
    cases ha
    cases hb
    obtain ⟨hbits, rfl⟩ := append_fixed_inj h (by simp)
    obtain ⟨hmantissa, hscale⟩ := List.append_inj hbits (by simp)
    refine ⟨(Decimal.normalized_eq_iff u v).mp ?_, rfl⟩
    have hm := leSigned_inj (mantissa_apart u.normalized v.normalized) hmantissa
    have hs : u.normalized.scale = v.normalized.scale :=
      digits_inj (u.normalized.scale_le.trans_lt (by decide)) (v.normalized.scale_le.trans_lt (by decide)) hscale
    cases hu : u.normalized
    cases hv : v.normalized
    simp_all
  | uuid u v =>
    cases ha
    cases hb
    obtain ⟨hbits, rfl⟩ := append_fixed_inj h (u.property.trans v.property.symm)
    exact ⟨congrArg Value.uuid (Subtype.ext hbits), rfl⟩

theorem encodeForKey_congr (h : SameKey l r) : encodeForKey l = encodeForKey r := by
  cases l with
  | decimal u =>
    cases r with
    | decimal v => simp only [encodeForKey, (Decimal.normalized_eq_iff u v).mpr h]
    | _ => cases h
  | _ =>
    have heq : _ = r := h
    rw [heq]

theorem encodeKey_eq_iff {types : List ColumnType} {ls rs : List Value}
    (hl : List.Forall₂ KeyValue ls types) (hr : List.Forall₂ KeyValue rs types) (ha : encodeKey ls = .ok a)
    (hb : encodeKey rs = .ok b) : a = b ↔ List.Forall₂ SameKey ls rs := by
  induction hl generalizing rs a b with
  | nil =>
    cases hr
    cases ha
    cases hb
    simp
  | @cons l ty ls types hlv _ ih =>
    cases hr with
    | @cons r _ rs _ hrv hrs =>
      obtain ⟨a₁, ha₁, ha⟩ := bind_eq_ok.mp ha
      obtain ⟨a₂, ha₂, ha⟩ := bind_eq_ok.mp ha
      obtain ⟨b₁, hb₁, hb⟩ := bind_eq_ok.mp hb
      obtain ⟨b₂, hb₂, hb⟩ := bind_eq_ok.mp hb
      cases ha
      cases hb
      rw [List.forall₂_cons]
      constructor
      · intro h
        obtain ⟨hfirst, hrest⟩ := encodeForKey_append_inj (hlv.pair hrv) ha₁ hb₁ h
        exact ⟨hfirst, (ih hrs ha₂ hb₂).mp hrest⟩
      · rintro ⟨hfirst, hrest⟩
        have hhead : a₁ = b₁ := Except.ok.inj (ha₁.symm.trans ((encodeForKey_congr hfirst).trans hb₁))
        rw [hhead, (ih hrs ha₂ hb₂).mpr hrest]

/-- A byte string or text has a length of 32 bits. -/
def Sized : Value → Prop
  | .bytes value => value.length < 256 ^ 4
  | .text value => (textBytes value).length < 256 ^ 4
  | _ => True

theorem putBytes_ok_iff : (∃ a, putBytes v = .ok a) ↔ v.length < 256 ^ 4 := by
  unfold putBytes Word.ofLength?
  split_ifs with hlength
  · exact iff_of_true ⟨_, rfl⟩ hlength
  · exact iff_of_false (by rintro ⟨_, ⟨⟩⟩) hlength

theorem encodeForKey_ok_iff : (∃ a, encodeForKey l = .ok a) ↔ Sized l := by
  have htagged : ∀ (tag : Byte) (value : Bytes), (∃ a, (do return tag :: (← putBytes value) : DbResult Bytes) = .ok a) ↔
      value.length < 256 ^ 4 := by
    intro tag value
    rw [← putBytes_ok_iff]
    cases putBytes value <;> simp
  cases l with
  | bytes value => exact htagged 1 value
  | text value => exact htagged 5 (textBytes value)
  | _ => exact iff_of_true ⟨_, rfl⟩ trivial

theorem encodeKey_ok_iff {ls : List Value} : (∃ a, encodeKey ls = .ok a) ↔ ∀ value ∈ ls, Sized value := by
  induction ls with
  | nil => simp [encodeKey]
  | cons value ls ih =>
    rw [List.forall_mem_cons, ← ih, ← encodeForKey_ok_iff, encodeKey]
    cases encodeForKey value <;> cases encodeKey ls <;> simp [bind, Except.bind, pure, Except.pure]

theorem encodeIndexEntry_eq_ok (h : encodeIndexEntry values identity = .ok key) :
    ∃ (m n : Word 4), Word.ofLength? values.length = some m ∧ Word.ofLength? identity.length = some n ∧
      key = m.toBe ++ (values ++ (n.toBe ++ identity)) := by
  unfold encodeIndexEntry at h
  split at h
  · cases h
  · cases h
  · rename_i m n hm hn
    cases h
    exact ⟨m, n, hm, hn, rfl⟩

theorem entry_inKeyRange_iff {p : Bytes} (hp : indexEntryPrefix v = some p)
    (hkey : encodeIndexEntry values identity = .ok key) :
    InKeyRange p (prefixSuccessor p) key ↔ values = v := by
  obtain ⟨len, hlen, rfl⟩ := Option.map_eq_some_iff.mp hp
  obtain ⟨m, n, hm, -, rfl⟩ := encodeIndexEntry_eq_ok hkey
  have hlen := Word.ofLength?_eq_some hlen
  have hm := Word.ofLength?_eq_some hm
  rcases Nat.lt_or_ge values.length v.length with hlt | hge
  · -- a shorter value key sorts before the range by its length
    have hbefore : m.toBe ++ (values ++ (n.toBe ++ identity)) < len.toBe ++ v :=
      Word.toBe_append_lt (by rw [Fin.lt_def]; omega) _ _
    constructor
    · rintro ⟨hle, -⟩
      exact absurd hbefore (not_lt.mpr hle)
    · rintro rfl
      omega
  · rw [inKeyRange_successor (by simp only [List.length_append, Word.length_toBe]; omega)]
    constructor
    · rintro ⟨rest, hrest⟩
      rw [List.append_assoc] at hrest
      obtain ⟨hwords, hvalues⟩ := List.append_inj hrest (by simp)
      have hword := congrArg Fin.val (Word.toBe_injective hwords)
      exact (List.append_inj hvalues (by omega)).1.symm
    · rintro rfl
      have hword : m = len := Fin.ext (by omega)
      exact ⟨n.toBe ++ identity, by rw [hword, List.append_assoc]⟩

/-- The encoding of keys: equal keys are equal values, and the range of a value key's prefix selects
its entries from any set of entries. -/
theorem keyEncoding_exact :
    (∀ (types : List ColumnType) (ls rs : List Value) (a b : Bytes), List.Forall₂ KeyValue ls types →
      List.Forall₂ KeyValue rs types → encodeKey ls = .ok a → encodeKey rs = .ok b →
        (a = b ↔ List.Forall₂ SameKey ls rs)) ∧
    ∀ (v p : Bytes), indexEntryPrefix v = some p → ∀ entries : Set (Bytes × Bytes),
      {key | ∃ entry ∈ entries, encodeIndexEntry entry.1 entry.2 = .ok key ∧
        InKeyRange p (prefixSuccessor p) key} =
      {key | ∃ entry ∈ entries, encodeIndexEntry entry.1 entry.2 = .ok key ∧ entry.1 = v} := by
  refine ⟨fun types ls rs a b hl hr ha hb => encodeKey_eq_iff hl hr ha hb, fun v p hp entries => ?_⟩
  ext key
  refine exists_congr fun entry => and_congr_right fun _ => and_congr_right fun hkey => ?_
  exact entry_inKeyRange_iff hp hkey

/-- The decimals `1.50` and `1.5` are one key; the entries of a longer value key are out of the range. -/
theorem keyEncoding_exact_decimals :
    (∃ a b, encodeKey [.decimal ⟨150, 2, by decide, by decide⟩, .text "k"] = .ok a ∧
      encodeKey [.decimal ⟨15, 1, by decide, by decide⟩, .text "k"] = .ok b ∧ a = b) ∧
    ∃ p, indexEntryPrefix [7] = some p ∧
      {key | ∃ entry ∈ ({([7], [1]), ([7, 0], [1])} : Set (Bytes × Bytes)), encodeIndexEntry entry.1 entry.2 = .ok key ∧
        InKeyRange p (prefixSuccessor p) key} =
      {key | ∃ entry ∈ ({([7], [1]), ([7, 0], [1])} : Set (Bytes × Bytes)), encodeIndexEntry entry.1 entry.2 = .ok key ∧
        entry.1 = [7]} := by
  have hkey : ∀ d : DecimalValue, List.Forall₂ KeyValue [.decimal d, .text "k"] [.decimal, .text] := fun d =>
    .cons ⟨rfl, rfl, by decide⟩ (.cons ⟨rfl, rfl, by decide⟩ .nil)
  refine ⟨⟨_, _, rfl, rfl, (keyEncoding_exact.1 _ _ _ _ _ (hkey _) (hkey _) rfl rfl).mpr ?_⟩, _, rfl,
    keyEncoding_exact.2 _ _ rfl _⟩
  refine .cons ?_ (.cons rfl .nil)
  norm_num [SameKey, Decimal.toRat]

end OmenDb.Rel
