import OmenDb.Lib.Fields
import OmenDb.Rel.Key
import OmenDb.Sql.Coerce

/-! Stored rows: the codec of a row's values, and the reading of a row that was written before
columns were appended to its table. A reader gives a value and the bytes that are left. -/
namespace OmenDb.Rel

open OmenDb.Sql

structure Row where
  primary : Bytes
  values : List Value

def encodeValues : List Value → DbResult Bytes
  | [] => .ok []
  | value :: values => do
    let first ← encode value
    return first ++ (← encodeValues values)

def rowMagic : Bytes := [0x44, 0x42, 0x52, 0x57]

def rowVersion : Byte := 1

def rowHeader (count : Word 4) : Bytes := rowMagic ++ rowVersion :: count.toLe

def encodeRow (row : Row) : DbResult Bytes :=
  match (Word.ofLength? row.values.length : Option (Word 4)) with
  | none => .error (.invalidState "too many row values")
  | some count => do return rowHeader count ++ (← encodeValues row.values)

def corrupt (reason : String) : DbError := .corruption "row" reason

abbrev Fixed (w : ℕ) := {raw : Bytes // raw.length = w}

/-- `read_fixed`, and the part of `read_i64` and `read_u64` it shares; the end of a field of a byte
string in memory does not overflow. -/
def take (w : ℕ) (missing : String) (bytes : Bytes) : DbResult (Fixed w × Bytes) :=
  if h : w ≤ bytes.length then .ok (⟨bytes.take w, List.length_take_of_le h⟩, bytes.drop w)
  else .error (corrupt missing)

def readBytes (bytes : Bytes) : DbResult (Bytes × Bytes) := do
  let (length, rest) ← take 4 "missing value length" bytes
  let (value, rest) ← take (Word.value length.val) "truncated value" rest
  return (value.val, rest)

/-- `from_le_bytes` of a signed integer. -/
def ofLeSigned (w : ℕ) (raw : Bytes) : ℤ := Int.bmod (Word.value raw) (256 ^ w)

theorem ofLeSigned_bounds (w : ℕ) (raw : Bytes) :
    -((256 : ℤ) ^ w / 2) ≤ ofLeSigned w raw ∧ ofLeSigned w raw < ((256 : ℤ) ^ w + 1) / 2 := by
  have hpos : 0 < 256 ^ w := by positivity
  exact ⟨by exact_mod_cast Int.le_bmod hpos, by exact_mod_cast Int.bmod_lt hpos⟩

def readI64 (raw : Fixed 8) : I64 := ⟨ofLeSigned 8 raw.val, by have := ofLeSigned_bounds 8 raw.val; omega⟩

def readI32 (raw : Fixed 4) : I32 := ⟨ofLeSigned 4 raw.val, by have := ofLeSigned_bounds 4 raw.val; omega⟩

def readU64 (raw : Fixed 8) : U64 := Fin.ofNat (2 ^ 64) (Word.value raw.val)

def fromUtf8 (bytes : Bytes) : Option String := String.fromUTF8? ⟨(bytes.map UInt8.ofFin).toArray⟩

/-- `Display` of the errors of `DecimalValue::new`. -/
def decimalErrorText : DbError → String
  | .sqlNumericValueOutOfRange reason => "numeric value out of range: " ++ reason
  | _ => ""

def decodePayload (tag : Byte) (bytes : Bytes) : DbResult (Value × Bytes) :=
  match tag.val with
  | 0 => .ok (.null, bytes)
  | 1 => do
    let (value, rest) ← readBytes bytes
    return (.bytes value, rest)
  | 2 =>
    match bytes with
    | 0 :: rest => .ok (.bool false, rest)
    | 1 :: rest => .ok (.bool true, rest)
    | _ => .error (corrupt "invalid boolean")
  | 3 => do
    let (raw, rest) ← take 8 "truncated integer" bytes
    return (.i64 (readI64 raw), rest)
  | 4 => do
    let (raw, rest) ← take 8 "truncated integer" bytes
    return (.u64 (readU64 raw), rest)
  | 5 => do
    let (value, rest) ← readBytes bytes
    match fromUtf8 value with
    | some text => return (.text text, rest)
    | none => .error (corrupt "text is not UTF-8")
  | 6 => do
    let (raw, rest) ← take 8 "truncated fixed-width value" bytes
    return (.float64 ⟨readU64 raw⟩, rest)
  | 7 => do
    let (raw, rest) ← take 4 "truncated fixed-width value" bytes
    return (.date (readI32 raw), rest)
  | 8 => do
    let (raw, rest) ← take 8 "truncated fixed-width value" bytes
    return (.timestamp (readI64 raw), rest)
  | 9 => do
    let (mantissa, rest) ← take 16 "truncated fixed-width value" bytes
    let (scale, rest) ← take 4 "truncated fixed-width value" rest
    match DecimalValue.new (ofLeSigned 16 mantissa.val) (Word.value scale.val) with
    | .ok value => return (.decimal value, rest)
    | .error error => .error (corrupt (decimalErrorText error))
  | 10 => do
    let (raw, rest) ← take 16 "truncated fixed-width value" bytes
    return (.uuid raw, rest)
  | _ => .error (corrupt "unknown value tag")

def decodeValues : ℕ → Bytes → DbResult (List Value × Bytes)
  | 0, bytes => .ok ([], bytes)
  | _ + 1, [] => .error (corrupt "missing value tag")
  | count + 1, tag :: bytes => do
    let (value, rest) ← decodePayload tag bytes
    let (values, rest) ← decodeValues count rest
    return (value :: values, rest)

def decodeRow (primary : Bytes) (bytes : Bytes) : DbResult Row :=
  if bytes.length < 9 ∨ slice bytes 0 4 ≠ rowMagic ∨ bytes[4]? ≠ some rowVersion
    then .error (corrupt "invalid row header")
  else
    let count := Word.value (slice bytes 5 9)
    if bytes.length < count then .error (corrupt "row value count exceeds payload")
    else do
      let (values, rest) ← decodeValues count (bytes.drop 9)
      if rest = [] then return { primary, values } else .error (corrupt "trailing row bytes")

namespace Row

def checkValue (value : Value) (column : ColumnDefinition) : DbResult Unit :=
  if value.isNull && !column.nullable then .error (.invalidState s!"column {column.name} is not nullable")
  else if !value.matches column.dataType then .error (.invalidState s!"column {column.name} has the wrong type")
  else .ok ()

/-- The values against the columns they stand in, as far as both go. -/
def checkValues : List Value → List ColumnDefinition → DbResult Unit
  | value :: values, column :: columns => do
    checkValue value column
    checkValues values columns
  | _, _ => .ok ()

def validate (row : Row) (table : TableDefinition) : DbResult Unit :=
  if row.values.length ≠ table.columns.length then
    .error (.invalidState
      s!"row has {row.values.length} values but table {table.id} requires {table.columns.length}")
  else checkValues row.values table.columns

def validateStored (row : Row) (table : TableDefinition) : DbResult Unit :=
  if table.columns.length < row.values.length then
    .error (.invalidState
      s!"stored row has {row.values.length} values but table {table.id} requires at most {table.columns.length}")
  else do
    checkValues row.values table.columns
    if (table.columns.drop row.values.length).any fun column => !column.nullable then
      .error (.invalidState "stored row is missing a non-nullable column")
    else .ok ()

def materializeFor (row : Row) (table : TableDefinition) : DbResult Row := do
  row.validateStored table
  if row.values.length = table.columns.length then return row
  else return { row with values := row.values ++ List.replicate (table.columns.length - row.values.length) .null }

end Row

variable {w : ℕ} {bytes rest : Bytes} {tag : Byte} {value : Value} {values : List Value} {row : Row}

theorem take_iff {missing : String} {raw : Fixed w} :
    take w missing bytes = .ok (raw, rest) ↔ bytes = raw.val ++ rest := by
  unfold take
  split
  · rename_i h
    rw [Except.ok.injEq, Prod.mk.injEq, Subtype.ext_iff]
    constructor
    · rintro ⟨htake, hdrop⟩
      rw [← htake, ← hdrop, List.take_append_drop]
    · rintro rfl
      exact ⟨by simp [raw.property], by simp [raw.property]⟩
  · rename_i h
    refine iff_of_false nofun ?_
    rintro rfl
    have := raw.property
    simp at h
    omega

theorem putBytes_eq_ok {value : Bytes} :
    putBytes value = .ok bytes ↔ ∃ length : Fixed 4, Word.value length.val = value.length ∧
      bytes = length.val ++ value := by
  unfold putBytes
  split
  · rename_i length hlength
    have hval := Word.ofLength?_eq_some hlength
    rw [Except.ok.injEq]
    constructor
    · rintro rfl
      refine ⟨⟨length.toLe, length.length_toLe⟩, ?_, rfl⟩
      change Word.value (Word.digits 4 length.val) = _
      rw [Word.value_digits, Nat.mod_eq_of_lt length.isLt, hval]
    · rintro ⟨raw, hraw, rfl⟩
      rw [Word.toLe, hval, ← hraw, Word.digits_value raw.property]
  · rename_i hnone
    refine iff_of_false (by simp) ?_
    rintro ⟨raw, hraw, _⟩
    have hlt := Word.value_lt raw.val
    rw [raw.property, hraw] at hlt
    rw [Word.ofLength?_of_lt hlt] at hnone
    cases hnone

theorem readBytes_iff {value : Bytes} :
    readBytes bytes = .ok (value, rest) ↔ ∃ raw, putBytes value = .ok raw ∧ bytes = raw ++ rest := by
  unfold readBytes
  constructor
  · intro h
    obtain ⟨⟨length, tail⟩, hlength, h⟩ := bind_eq_ok.mp h
    obtain ⟨⟨body, tail'⟩, hbody, h⟩ := bind_eq_ok.mp h
    cases h
    rw [take_iff] at hlength hbody
    refine ⟨length.val ++ body.val, putBytes_eq_ok.mpr ⟨length, body.property.symm, rfl⟩, ?_⟩
    rw [hlength, hbody, List.append_assoc]
  · rintro ⟨raw, hraw, rfl⟩
    obtain ⟨length, hlength, rfl⟩ := putBytes_eq_ok.mp hraw
    rw [List.append_assoc, take_iff.mpr rfl, ok_bind]
    dsimp only
    rw [take_iff.mpr (show value ++ rest = (⟨value, hlength.symm⟩ : Fixed _).val ++ rest from rfl)]
    rfl

theorem ofLeSigned_leSigned {n : ℤ} (h : -((256 : ℤ) ^ w / 2) ≤ n ∧ n < (256 ^ w + 1) / 2) :
    ofLeSigned w (leSigned w n) = n := by
  have hpos : (0 : ℤ) < 256 ^ w := by positivity
  have hmod : ((n % 256 ^ w).toNat : ℤ) = n % 256 ^ w := Int.toNat_of_nonneg (Int.emod_nonneg n hpos.ne')
  rw [ofLeSigned, leSigned, Word.value_digits]
  push_cast
  rw [hmod, Int.emod_emod]
  have hback := Int.emod_bmod n (256 ^ w)
  push_cast at hback
  rw [hback]
  exact Int.bmod_eq_of_le (by exact_mod_cast h.1) (by exact_mod_cast h.2)

theorem leSigned_ofLeSigned {raw : Bytes} (h : raw.length = w) : leSigned w (ofLeSigned w raw) = raw := by
  have hlt := Word.value_lt raw
  rw [h] at hlt
  have hmod : ofLeSigned w raw % (256 : ℤ) ^ w = Word.value raw := by
    have hback := @Int.bmod_emod (Word.value raw : ℤ) (256 ^ w)
    push_cast at hback
    rw [ofLeSigned, hback, Int.emod_eq_of_lt (by positivity) (by exact_mod_cast hlt)]
  rw [leSigned, hmod, Int.toNat_natCast, Word.digits_value h]

theorem fromUtf8_iff {text : String} : fromUtf8 bytes = some text ↔ bytes = textBytes text := by
  have hofFin : ∀ bs : Bytes, (bs.map UInt8.ofFin).map UInt8.toFin = bs := fun bs => by
    rw [List.map_map]
    exact List.map_id _
  unfold fromUtf8 String.fromUTF8?
  constructor
  · intro h
    split at h
    · cases h
      rw [textBytes]
      exact (hofFin bytes).symm
    · cases h
  · rintro rfl
    have hback : (textBytes text).map UInt8.ofFin = text.toByteArray.data.toList := by
      rw [textBytes, List.map_map]
      exact List.map_id _
    rw [hback]
    exact dif_pos text.isValidUTF8

theorem digits_readU64 (raw : Fixed 8) : Word.digits 8 (readU64 raw).val = raw.val := by
  have hlt := Word.value_lt raw.val
  rw [raw.property] at hlt
  rw [readU64, Fin.val_ofNat, Nat.mod_eq_of_lt (by omega), Word.digits_value raw.property]

theorem readU64_digits (n : U64) (raw : Fixed 8) (h : raw.val = Word.digits 8 n.val) : readU64 raw = n := by
  apply Fin.ext
  rw [readU64, Fin.val_ofNat, h, Word.value_digits, Nat.mod_mod_of_dvd _ (by norm_num), Nat.mod_eq_of_lt n.isLt]

theorem readI64_leSigned (n : I64) (raw : Fixed 8) (h : raw.val = leSigned 8 n.val) : readI64 raw = n := by
  have hn := n.property
  have hread : ofLeSigned 8 (leSigned 8 n.val) = n.val := ofLeSigned_leSigned (by omega)
  rw [← h] at hread
  refine Subtype.ext (Eq.trans ?_ hread)
  unfold readI64
  dsimp only

theorem readI32_leSigned (n : I32) (raw : Fixed 4) (h : raw.val = leSigned 4 n.val) : readI32 raw = n := by
  have hn := n.property
  have hread : ofLeSigned 4 (leSigned 4 n.val) = n.val := ofLeSigned_leSigned (by omega)
  rw [← h] at hread
  refine Subtype.ext (Eq.trans ?_ hread)
  unfold readI32
  dsimp only

theorem mantissa_readable (d : DecimalValue) : ofLeSigned 16 (leSigned 16 d.mantissa) = d.mantissa := by
  have hd := d.mantissa_lt
  unfold decimalMaxPrecision at hd
  exact ofLeSigned_leSigned (by omega)

theorem scale_readable (d : DecimalValue) : Word.value (Word.digits 4 d.scale) = d.scale := by
  have hd := d.scale_le
  unfold decimalMaxPrecision at hd
  rw [Word.value_digits, Nat.mod_eq_of_lt (by omega)]

theorem encode_of_decodePayload
    (h : decodePayload tag bytes = .ok (value, rest)) : ∃ payload, encode value = .ok (tag :: payload) ∧
      bytes = payload ++ rest := by
  unfold decodePayload at h
  split at h
  case h_1 htag =>
    cases h
    exact ⟨[], by rw [show tag = 0 from Fin.ext htag]; rfl, rfl⟩
  case h_2 htag =>
    obtain ⟨⟨body, tail⟩, hread, h⟩ := bind_eq_ok.mp h
    cases h
    obtain ⟨raw, hraw, rfl⟩ := readBytes_iff.mp hread
    exact ⟨raw, by rw [show tag = 1 from Fin.ext htag, encode, hraw]; rfl, rfl⟩
  case h_3 htag =>
    rw [show tag = 2 from Fin.ext htag]
    split at h
    · cases h
      exact ⟨[0], rfl, rfl⟩
    · cases h
      exact ⟨[1], rfl, rfl⟩
    · cases h
  case h_6 htag =>
    obtain ⟨⟨body, tail⟩, hread, htext⟩ := bind_eq_ok.mp h
    obtain ⟨raw, hraw, rfl⟩ := readBytes_iff.mp hread
    dsimp only at htext
    split at htext
    · rename_i text hutf
      cases htext
      rw [fromUtf8_iff.mp hutf] at hraw
      exact ⟨raw, by rw [show tag = 5 from Fin.ext htag, encode, hraw]; rfl, rfl⟩
    · cases htext
  case h_10 htag =>
    obtain ⟨⟨mantissa, tail⟩, hmantissa, h⟩ := bind_eq_ok.mp h
    obtain ⟨⟨scale, tail'⟩, hscale, h⟩ := bind_eq_ok.mp h
    dsimp only at h
    split at h
    · rename_i d hd
      cases h
      obtain ⟨hm, hs⟩ := DecimalValue.new_eq_ok hd
      rw [take_iff] at hmantissa hscale
      refine ⟨mantissa.val ++ scale.val, ?_, by rw [hmantissa, hscale, List.append_assoc]⟩
      rw [show tag = 9 from Fin.ext htag, encode, hm, hs, leSigned_ofLeSigned mantissa.property,
        Word.digits_value scale.property]
    · cases h
  case h_12 => cases h
  all_goals
    rename_i htag
    obtain ⟨⟨raw, tail⟩, hread, h⟩ := bind_eq_ok.mp h
    cases h
    refine ⟨raw.val, ?_, take_iff.mp hread⟩
  · rw [show tag = 3 from Fin.ext htag, encode, readI64, leSigned_ofLeSigned raw.property]
  · rw [show tag = 4 from Fin.ext htag, encode, digits_readU64]
  · rw [show tag = 6 from Fin.ext htag, encode, digits_readU64]
  · rw [show tag = 7 from Fin.ext htag, encode, readI32, leSigned_ofLeSigned raw.property]
  · rw [show tag = 8 from Fin.ext htag, encode, readI64, leSigned_ofLeSigned raw.property]
  · rw [show tag = 10 from Fin.ext htag, encode]

theorem decodePayload_of_encode {payload : Bytes} (h : encode value = .ok (tag :: payload)) (rest : Bytes) :
    decodePayload tag (payload ++ rest) = .ok (value, rest) := by
  have htake : ∀ {w : ℕ} {raw : Bytes} (hw : raw.length = w) (missing : String) (rest : Bytes),
      take w missing (raw ++ rest) = .ok (⟨raw, hw⟩, rest) := fun hw missing rest => take_iff.mpr rfl
  cases value with
  | null =>
    cases h
    rfl
  | bool b =>
    cases h
    cases b <;> rfl
  | bytes v =>
    obtain ⟨raw, hraw, h⟩ := bind_eq_ok.mp h
    cases h
    change (readBytes (payload ++ rest) >>= _) = _
    rw [readBytes_iff.mpr ⟨payload, hraw, rfl⟩]
    rfl
  | text v =>
    obtain ⟨raw, hraw, h⟩ := bind_eq_ok.mp h
    cases h
    change (readBytes (payload ++ rest) >>= _) = _
    rw [readBytes_iff.mpr ⟨payload, hraw, rfl⟩, ok_bind]
    dsimp only
    rw [fromUtf8_iff.mpr rfl]
    rfl
  | i64 n =>
    cases h
    change (take 8 _ (leSigned 8 n.val ++ rest) >>= _) = _
    rw [htake (length_leSigned 8 _), ok_bind]
    exact congrArg (fun n => Except.ok (Value.i64 n, rest)) (readI64_leSigned n _ rfl)
  | u64 n =>
    cases h
    change (take 8 _ (Word.digits 8 n.val ++ rest) >>= _) = _
    rw [htake (Word.length_digits 8 _), ok_bind]
    exact congrArg (fun n => Except.ok (Value.u64 n, rest)) (readU64_digits n _ rfl)
  | float64 f =>
    cases h
    change (take 8 _ (Word.digits 8 f.bits.val ++ rest) >>= _) = _
    rw [htake (Word.length_digits 8 _), ok_bind]
    exact congrArg (fun n => Except.ok (Value.float64 ⟨n⟩, rest)) (readU64_digits f.bits _ rfl)
  | date n =>
    cases h
    change (take 4 _ (leSigned 4 n.val ++ rest) >>= _) = _
    rw [htake (length_leSigned 4 _), ok_bind]
    exact congrArg (fun n => Except.ok (Value.date n, rest)) (readI32_leSigned n _ rfl)
  | timestamp n =>
    cases h
    change (take 8 _ (leSigned 8 n.val ++ rest) >>= _) = _
    rw [htake (length_leSigned 8 _), ok_bind]
    exact congrArg (fun n => Except.ok (Value.timestamp n, rest)) (readI64_leSigned n _ rfl)
  | decimal d =>
    cases h
    change (take 16 _ (leSigned 16 d.mantissa ++ Word.digits 4 d.scale ++ rest) >>= _) = _
    rw [List.append_assoc, htake (length_leSigned 16 _), ok_bind]
    dsimp only
    rw [htake (Word.length_digits 4 _), ok_bind]
    dsimp only
    rw [mantissa_readable, scale_readable, DecimalValue.new_self]
    rfl
  | uuid bits =>
    cases h
    change (take 16 _ (bits.val ++ rest) >>= _) = _
    rw [htake bits.property]
    rfl

theorem encode_ne_nil : encode value ≠ .ok [] := by
  cases value <;> simp [encode, map_eq_ok]

theorem encodeValues_cons :
    encodeValues (value :: values) = .ok bytes ↔
      ∃ first rest, encode value = .ok first ∧ encodeValues values = .ok rest ∧ bytes = first ++ rest := by
  simp only [encodeValues, bind_eq_ok]
  constructor
  · rintro ⟨first, hfirst, rest, hrest, h⟩
    cases h
    exact ⟨first, rest, hfirst, hrest, rfl⟩
  · rintro ⟨first, rest, hfirst, hrest, rfl⟩
    exact ⟨first, hfirst, rest, hrest, rfl⟩

theorem decodeValues_iff {count : ℕ} :
    decodeValues count bytes = .ok (values, rest) ↔
      values.length = count ∧ ∃ raw, encodeValues values = .ok raw ∧ bytes = raw ++ rest := by
  induction count generalizing bytes values with
  | zero =>
    rw [decodeValues, Except.ok.injEq, Prod.mk.injEq, List.length_eq_zero_iff]
    constructor
    · rintro ⟨rfl, rfl⟩
      exact ⟨rfl, [], rfl, rfl⟩
    · rintro ⟨rfl, raw, hraw, rfl⟩
      cases hraw
      exact ⟨rfl, rfl⟩
  | succ count ih =>
    constructor
    · intro h
      cases bytes with
      | nil => cases h
      | cons tag bytes =>
        obtain ⟨⟨value, tail⟩, hvalue, h⟩ := bind_eq_ok.mp h
        obtain ⟨⟨more, tail'⟩, hmore, h⟩ := bind_eq_ok.mp h
        cases h
        obtain ⟨payload, hpayload, rfl⟩ := encode_of_decodePayload hvalue
        obtain ⟨hlength, raw, hraw, rfl⟩ := ih.mp hmore
        refine ⟨by rw [List.length_cons, hlength], _, encodeValues_cons.mpr ⟨_, _, hpayload, hraw, rfl⟩, ?_⟩
        simp
    · rintro ⟨hlength, raw, hraw, rfl⟩
      cases values with
      | nil => cases hlength
      | cons value values =>
        obtain ⟨first, more, hfirst, hmore, rfl⟩ := encodeValues_cons.mp hraw
        cases first with
        | nil => exact (encode_ne_nil hfirst).elim
        | cons tag payload =>
          rw [List.append_assoc, List.cons_append, decodeValues, decodePayload_of_encode hfirst, ok_bind]
          dsimp only
          rw [ih.mpr ⟨Nat.succ.inj hlength, more, hmore, rfl⟩]
          rfl

theorem length_le_encodeValues (h : encodeValues values = .ok bytes) :
    values.length ≤ bytes.length := by
  induction values generalizing bytes with
  | nil => simp
  | cons value values ih =>
    obtain ⟨first, rest, hfirst, hrest, rfl⟩ := encodeValues_cons.mp h
    have hne : first ≠ [] := fun hnil => encode_ne_nil (hnil ▸ hfirst)
    have hpos := List.length_pos_of_ne_nil hne
    have := ih hrest
    rw [List.length_cons, List.length_append]
    omega

theorem header_iff : ¬ (bytes.length < 9 ∨ slice bytes 0 4 ≠ rowMagic ∨ bytes[4]? ≠ some rowVersion) ↔
    ∃ (count : Word 4) (body : Bytes), bytes = rowHeader count ++ body := by
  constructor
  · intro h
    push Not at h
    obtain ⟨hlength, hmagic, hversion⟩ := h
    refine ⟨Word.ofLe (slice bytes 5 9), bytes.drop 9, ?_⟩
    have hcount : (Word.ofLe (slice bytes 5 9) : Word 4).toLe = slice bytes 5 9 :=
      Word.toLe_ofLe (length_slice_le _ hlength)
    have hbyte : slice bytes 4 5 = [rowVersion] := by
      rw [slice, List.take_one, List.head?_drop, hversion]
      rfl
    rw [rowHeader, hcount, ← hmagic, ← List.singleton_append, ← hbyte, List.append_assoc, List.append_assoc,
      ← List.append_assoc (slice bytes 4 5), slice_append_slice (by omega) (by omega), ← List.append_assoc,
      slice_append_slice (by omega) (by omega), slice_zero, List.take_append_drop]
  · rintro ⟨count, body, rfl⟩ h
    rcases h with h | h | h
    · simp only [rowHeader, rowMagic, List.length_append, List.length_cons, List.length_nil, Word.length_toLe] at h
      omega
    · exact h rfl
    · exact h rfl

theorem decodeRow_iff {primary : Bytes} :
    decodeRow primary bytes = .ok row ↔ row.primary = primary ∧ encodeRow row = .ok bytes := by
  have hbody : ∀ (count : Word 4) (body : Bytes), slice (rowHeader count ++ body) 5 9 = count.toLe ∧
      (rowHeader count ++ body).drop 9 = body := by
    intro count body
    have hlength : (rowHeader count).length = 9 := by simp [rowHeader, rowMagic]
    refine ⟨?_, ?_⟩
    · rw [slice_append_of_le _ _ hlength.ge]
      exact slice_all _ (by simp)
    · exact List.drop_left' hlength
  constructor
  · intro h
    unfold decodeRow at h
    split at h
    · cases h
    · rename_i hheader
      obtain ⟨count, body, rfl⟩ := header_iff.mp hheader
      dsimp only at h
      split at h
      · cases h
      · obtain ⟨⟨values, rest⟩, hvalues, h⟩ := bind_eq_ok.mp h
        dsimp only at h
        split at h
        · rename_i hrest
          cases h
          rw [(hbody count body).1, (hbody count body).2, decodeValues_iff, hrest] at hvalues
          obtain ⟨hlength, raw, hraw, rfl⟩ := hvalues
          rw [Word.toLe, Word.value_digits, Nat.mod_eq_of_lt count.isLt] at hlength
          refine ⟨rfl, ?_⟩
          have hcount : (Word.ofLength? values.length : Option (Word 4)) = some count := by
            rw [hlength, Word.ofLength?_of_lt count.isLt]
          simp only [encodeRow, hcount, hraw, ok_bind, List.append_nil]
          rfl
        · cases h
  · rintro ⟨rfl, h⟩
    unfold encodeRow at h
    split at h
    · cases h
    · rename_i count hcount
      obtain ⟨raw, hraw, h⟩ := bind_eq_ok.mp h
      cases h
      have hval := Word.ofLength?_eq_some hcount
      have hvalue : Word.value count.toLe = row.values.length := by
        rw [Word.toLe, Word.value_digits, Nat.mod_eq_of_lt count.isLt, hval]
      have hle := length_le_encodeValues hraw
      rw [decodeRow, if_neg (header_iff.mpr ⟨count, raw, rfl⟩), (hbody count raw).1, (hbody count raw).2, hvalue,
        if_neg (by simp; omega), decodeValues_iff.mpr ⟨rfl, raw, hraw, (List.append_nil raw).symm⟩]
      rfl

def Fits (n : ℕ) : Prop := n < 256 ^ 4

def FitsValue : Value → Prop
  | .bytes value => Fits value.length
  | .text value => Fits (textBytes value).length
  | _ => True

theorem putBytes_ok {value : Bytes} : (∃ bytes, putBytes value = .ok bytes) ↔ Fits value.length := by
  unfold putBytes Fits
  constructor
  · rintro ⟨bytes, h⟩
    split at h
    · rename_i length hlength
      rw [← Word.ofLength?_eq_some hlength]
      exact length.isLt
    · cases h
  · intro h
    rw [Word.ofLength?_of_lt h]
    exact ⟨_, rfl⟩

theorem encode_ok : (∃ bytes, encode value = .ok bytes) ↔ FitsValue value := by
  cases value with
  | bytes v | text v =>
    rw [FitsValue, ← putBytes_ok]
    simp [encode, map_eq_ok]
  | _ => exact iff_of_true ⟨_, rfl⟩ trivial

theorem encodeValues_ok : (∃ bytes, encodeValues values = .ok bytes) ↔ ∀ value ∈ values, FitsValue value := by
  induction values with
  | nil => exact iff_of_true ⟨_, rfl⟩ (by simp)
  | cons value values ih =>
    rw [List.forall_mem_cons, ← ih, ← encode_ok]
    simp only [encodeValues_cons]
    constructor
    · rintro ⟨bytes, first, rest, hfirst, hrest, _⟩
      exact ⟨⟨first, hfirst⟩, rest, hrest⟩
    · rintro ⟨⟨first, hfirst⟩, rest, hrest⟩
      exact ⟨_, first, rest, hfirst, hrest, rfl⟩

theorem encodeRow_ok :
    (∃ bytes, encodeRow row = .ok bytes) ↔ Fits row.values.length ∧ ∀ value ∈ row.values, FitsValue value := by
  rw [← encodeValues_ok]
  unfold encodeRow
  constructor
  · rintro ⟨bytes, h⟩
    split at h
    · cases h
    · rename_i count hcount
      obtain ⟨raw, hraw, _⟩ := bind_eq_ok.mp h
      exact ⟨Word.ofLength?_eq_some hcount ▸ count.isLt, raw, hraw⟩
  · rintro ⟨hfits, raw, hraw⟩
    rw [Word.ofLength?_of_lt hfits]
    exact ⟨_, bind_eq_ok.mpr ⟨raw, hraw, rfl⟩⟩

namespace Row

theorem checkValues_append {values : List Value} {columns added : List ColumnDefinition}
    (h : values.length ≤ columns.length) : checkValues values (columns ++ added) = checkValues values columns := by
  induction values generalizing columns with
  | nil => simp [checkValues]
  | cons value values ih =>
    cases columns with
    | nil => simp at h
    | cons column columns =>
      rw [List.cons_append, checkValues, checkValues, ih (by simpa using h)]

theorem materializeFor_appended {row : Row} {table : TableDefinition} {added : List ColumnDefinition}
    (hvalid : row.validate table = .ok ()) (hnullable : ∀ column ∈ added, column.nullable = true) :
    row.materializeFor { table with columns := table.columns ++ added } =
      .ok { row with values := row.values ++ List.replicate added.length .null } := by
  unfold validate at hvalid
  split at hvalid
  · cases hvalid
  · rename_i hlength
    push Not at hlength
    have hstored : row.validateStored { table with columns := table.columns ++ added } = .ok () := by
      have hdrop : (table.columns ++ added).drop row.values.length = added := by rw [hlength, List.drop_left]
      have hall : (added.any fun column => !column.nullable) = false := by
        rw [List.any_eq_false]
        intro column hcolumn
        simp [hnullable column hcolumn]
      rw [validateStored, if_neg (by simp; omega), checkValues_append hlength.le, hvalid, ok_bind, hdrop, hall]
      rfl
    rw [materializeFor, hstored, ok_bind, List.length_append]
    split
    · rename_i hnone
      have hadded : added.length = 0 := by omega
      simp [hadded]
      rfl
    · rw [hlength, Nat.add_sub_cancel_left]
      rfl

end Row

/-- The row codec: a row is written exactly when its lengths fit, what is written is read back as the
same row, what is read is written back as the same bytes, and a row of an earlier form of its table is
read as its values and a NULL for every column since appended. -/
theorem rowCodec_exact (row : Row) :
    ((∃ bytes, encodeRow row = .ok bytes) ↔ Fits row.values.length ∧ ∀ value ∈ row.values, FitsValue value) ∧
    (∀ bytes, encodeRow row = .ok bytes → decodeRow row.primary bytes = .ok row) ∧
    (∀ primary bytes, decodeRow primary bytes = .ok row → encodeRow row = .ok bytes) ∧
    ∀ bytes table (added : List ColumnDefinition), encodeRow row = .ok bytes → row.validate table = .ok () →
      (∀ column ∈ added, column.nullable = true) →
      (decodeRow row.primary bytes >>= (·.materializeFor { table with columns := table.columns ++ added })) =
        .ok { row with values := row.values ++ List.replicate added.length .null } := by
  refine ⟨encodeRow_ok, fun bytes h => decodeRow_iff.mpr ⟨rfl, h⟩, fun primary bytes h => (decodeRow_iff.mp h).2, ?_⟩
  intro bytes table added hbytes hvalid hnullable
  rw [decodeRow_iff.mpr ⟨rfl, hbytes⟩, ok_bind, Row.materializeFor_appended hvalid hnullable]

/-- The decimal `1.50` and a NULL, with the scale that is kept. -/
def pricedRow : Row := ⟨[], [.decimal ⟨150, 2, by decide, by decide⟩, .null]⟩

theorem rowCodec_priced : ∃ bytes, encodeRow pricedRow = .ok bytes ∧ decodeRow [] bytes = .ok pricedRow :=
  ⟨_, rfl, (rowCodec_exact pricedRow).2.1 _ rfl⟩

end OmenDb.Rel
