import LibBert.Bytes.Defined
import LibBert.Encoder.Sizeof

/-!
# Which arithmetic on magnitudes is defined

The mask and shift loops of `bert_data_sizeof_int`, `bert_encode_bignum` and
`bert_decode_bignum` once more, operation by operation, with a result only where
every shift and negation has one and no index passes below zero.
-/

namespace LibBert

open Bytes Defined

namespace Checked

/-! ## The functions -/

/-- `BERT_STRIP_SIGN` on an `int64_t`. -/
def bertStripSign (i : ℤ) : Option ℤ := if i < 0 then negate 64 i else some i

/-- The search for the highest byte with a bit set, from index `i` down, where
`mask` is the shifted `0xff`.  The index is unsigned: there is no result where it
would pass below zero. -/
def highestByte (mask : ℕ → Option ℕ) (unsignedInteger : ℕ) : ℕ → Option ℕ
  | 0 => do
      let bits ← mask 0
      if unsignedInteger &&& bits ≠ 0 then some 1 else none
  | i + 1 => do
      let bits ← mask (i + 1)
      if unsignedInteger &&& bits ≠ 0 then some (i + 2) else highestByte mask unsignedInteger i

/-- `0xff << (i * 8)`, where `0xff` is an `int`. -/
def intMask (i : ℕ) : Option ℕ := (shiftLeft 32 0xff (i * 8)).map Int.toNat

/-- `((uint64_t)0xff) << (i * 8)`. -/
def uint64Mask (i : ℕ) : Option ℕ := shiftLeftUnsigned 64 0xff (i * 8)

def bertDataSizeofInt (i : ℤ) : Option ℕ :=
  if i ≤ bertMaxInt.toInt ∧ bertMinInt.toInt ≤ i then
    if i ≤ 0xff then some 1 else some 4
  else do
    let unsignedInteger ← bertStripSign i
    let byteCount ← highestByte intMask unsignedInteger.toNat 7
    return (if 0xff < byteCount then 4 else 1) + 1 + byteCount

/-- `(unsigned_integer & mask) >> (i * 8)` as one byte of the buffer. -/
def bignumByte (unsignedInteger i : ℕ) : Option UInt8 := do
  let bits ← uint64Mask i
  let byte ← shiftRightUnsigned 64 (unsignedInteger &&& bits) (i * 8)
  return UInt8.ofNat byte

/-- The buffer `bert_encode_bignum` writes. -/
def bertEncodeBignum (integer : ℤ) : Option (List UInt8) := do
  let sign : UInt8 := if integer < 0 then 1 else 0
  let unsignedInteger ← bertStripSign integer
  let bytes ← highestByte uint64Mask unsignedInteger.toNat 7
  let header :=
    if 0xff < bytes then bertLargeBignum :: bertWriteUint32 (UInt32.ofNat bytes)
    else bertSmallBignum :: bertWriteUint8 (UInt8.ofNat bytes)
  let digits ← (List.range bytes).mapM (bignumByte unsignedInteger.toNat)
  return header ++ bertWriteUint8 sign ++ digits

/-- The loop of `bert_decode_bignum` over the bytes from index `i` on. -/
def bignumValue : List UInt8 → ℕ → ℕ → Option ℕ
  | [], _, unsignedInteger => some unsignedInteger
  | byte :: bytes, i, unsignedInteger => do
      let shifted ← shiftLeftUnsigned 64 byte.toNat (i * 8)
      bignumValue bytes (i + 1) (unsignedInteger ||| shifted)

/-- The integer `bert_decode_bignum` makes of a sign byte and a magnitude. -/
def bertDecodeBignum (sign : UInt8) (bytes : List UInt8) : Option ℤ := do
  let unsignedInteger ← bignumValue bytes 0 0
  -- the conversion to `int64_t`
  let signedInteger ← bertStripSign (UInt64.ofNat unsignedInteger).toInt64.toInt
  if sign ≠ 0 then negate 64 signedInteger else some signedInteger

/-! ## Sizes -/

theorem highestByte_intMask (u : ℕ) : highestByte intMask u 7 = none := by
  have hmask : intMask 7 = none := by
    rw [intMask, shiftLeft_of_le (by decide)]
    rfl
  rw [highestByte, hmask]
  rfl

/-- Out of the range of `BERT_INT` the first shift of the search is of an `int` by
56 bits. -/
theorem bertDataSizeofInt_eq (i : Int64) :
    bertDataSizeofInt i.toInt = LibBert.bertDataSizeofInt i := by
  unfold bertDataSizeofInt LibBert.bertDataSizeofInt
  have hbyte : i.toInt ≤ 0xff ↔ i ≤ 0xff := by
    rw [Int64.le_iff_toInt_le]
    rfl
  simp only [← Int64.le_iff_toInt_le]
  by_cases hsmall : i ≤ bertMaxInt ∧ bertMinInt ≤ i
  · simp only [if_pos hsmall, hbyte, apply_ite some]
  · simp only [if_neg hsmall, highestByte_intMask, Option.bind_eq_bind, Option.bind_none,
      Option.bind_fun_none]

theorem isSome_bertDataSizeofInt (i : Int64) :
    (bertDataSizeofInt i.toInt).isSome ↔ bertMinInt ≤ i ∧ i ≤ bertMaxInt := by
  rw [bertDataSizeofInt_eq, LibBert.bertDataSizeofInt]
  split_ifs with hsmall <;> simp [and_comm, hsmall]

/-! ## Magnitudes taken apart -/

theorem bertStripSign_eq (i : Int64) :
    bertStripSign i.toInt = if i.toInt = -2 ^ 63 then none else some (i.toInt.natAbs : ℤ) := by
  have hi := toInt_bounds i
  unfold bertStripSign
  split_ifs with hneg hmin hmin
  · exact negate_of_le (by omega)
  · rw [negate_of_lt (by omega)]
    congr 1
    omega
  · omega
  · congr 1
    omega

theorem uint64Mask_eq {i : ℕ} (hi : i < 8) : uint64Mask i = some (byteMask i).toNat := by
  rw [uint64Mask, shiftLeftUnsigned_byte (by omega) (by decide), byteMask_toNat hi,
    Nat.shiftLeft_eq]

theorem highestByte_uint64Mask (u : UInt64) {i : ℕ} (hi : i < 8) :
    highestByte uint64Mask u.toNat i = bignumBytes u i := by
  have hand : ∀ k, u.toNat &&& (byteMask k).toNat ≠ 0 ↔ u &&& byteMask k ≠ 0 := by
    intro k
    rw [Ne, Ne, ← UInt64.toNat_inj, UInt64.toNat_and]
    rfl
  induction i with
  | zero => simp only [highestByte, uint64Mask_eq hi, Option.bind_eq_bind, Option.bind_some, hand,
      bignumBytes]
  | succ i ih => simp only [highestByte, uint64Mask_eq hi, Option.bind_eq_bind, Option.bind_some,
      hand, bignumBytes, ih (by omega)]

theorem bignumByte_eq (u : UInt64) {i : ℕ} (hi : i < 8) :
    bignumByte u.toNat i = some (LibBert.bignumByte u i) := by
  have hshift : (UInt64.ofNat (i * 8)).toNat % 64 = i * 8 := by
    rw [UInt64.toNat_ofNat']
    omega
  simp only [bignumByte, uint64Mask_eq hi, Option.bind_eq_bind, Option.bind_some,
    shiftRightUnsigned_of_lt (show i * 8 < 64 by omega), Option.pure_def, Option.some_inj]
  apply UInt8.toNat_inj.mp
  rw [LibBert.bignumByte, UInt64.toNat_toUInt8, UInt64.toNat_shiftRight, UInt64.toNat_and, hshift,
    UInt8.toNat_ofNat', Nat.shiftRight_eq_div_pow]

theorem mapM_bignumByte (u : UInt64) {indices : List ℕ} (h : ∀ i ∈ indices, i < 8) :
    indices.mapM (bignumByte u.toNat) = some (indices.map (LibBert.bignumByte u)) := by
  induction indices with
  | nil => rfl
  | cons i indices ih =>
      obtain ⟨hi, hrest⟩ := List.forall_mem_cons.mp h
      rw [List.mapM_cons, bignumByte_eq u hi, ih hrest]
      rfl

/-- A buffer is written for every magnitude but that of the least value, and it is
the one of the wrapping model. -/
theorem bertEncodeBignum_eq {i : Int64} (hi : i.toInt ≠ 0) :
    bertEncodeBignum i.toInt = if i.toInt = -2 ^ 63 then none else some (bignumField i) := by
  rw [bertEncodeBignum, bertStripSign_eq]
  by_cases hmin : i.toInt = -2 ^ 63
  · simp only [if_pos hmin, Option.bind_eq_bind, Option.bind_none]
  · have hsearch := (Encode.bertEncodeBignum_eq (ω := Unit) hi).1
    have hlength := magnitudeLength_le i
    have hdigits : (List.range (magnitudeLength i.toInt.natAbs)).map
        (LibBert.bignumByte (LibBert.bertStripSign i).toUInt64) =
          littleEndian (magnitudeLength i.toInt.natAbs) i.toInt.natAbs := by
      apply List.map_congr_left
      intro k hk
      rw [List.mem_range] at hk
      rw [LibBert.bignumByte_eq _ (by omega), stripSign_toNat]
    have hbound : ∀ k ∈ List.range (magnitudeLength i.toInt.natAbs), k < 8 :=
      fun k hk ↦ (List.mem_range.mp hk).trans_le hlength
    have hmapM := mapM_bignumByte (LibBert.bertStripSign i).toUInt64 hbound
    rw [stripSign_toNat, hdigits] at hmapM
    have hsearch' := (highestByte_uint64Mask (LibBert.bertStripSign i).toUInt64
      (by decide : 7 < 8)).trans hsearch
    rw [stripSign_toNat] at hsearch'
    have hneg : i.toInt < 0 ↔ i < 0 := by
      rw [Int64.lt_iff_toInt_lt]
      rfl
    simp only [if_neg hmin, hneg, Option.bind_eq_bind, Option.bind_some, Int.toNat_natCast,
      hsearch', hmapM, if_neg (show ¬ 0xff < magnitudeLength i.toInt.natAbs by omega), bignumField]
    rfl

/-- `bert_encode_bignum` writes the buffer of the checked operations. -/
theorem write_of_bertEncodeBignum {ω : Type} {i : Int64} {buffer : List UInt8} (hi : i.toInt ≠ 0)
    (h : bertEncodeBignum i.toInt = some buffer) :
    (LibBert.bertEncodeBignum i : Encode ω) = .write buffer := by
  rw [bertEncodeBignum_eq hi] at h
  split_ifs at h
  cases h
  exact (Encode.bertEncodeBignum_eq hi).2

/-! ## Magnitudes put together -/

theorem bignumValue_eq (bytes : List UInt8) (i : ℕ) (u : UInt64) (h : i + bytes.length ≤ 8) :
    bignumValue bytes i u.toNat = some (LibBert.bignumValue bytes i u).toNat := by
  induction bytes generalizing i u with
  | nil => rfl
  | cons byte bytes ih =>
      rw [List.length_cons] at h
      have hbyte := byte.toNat_lt
      have hshift : (byte.toUInt64 <<< UInt64.ofNat (i * 8)).toNat = byte.toNat * 2 ^ (i * 8) := by
        have hi : (UInt64.ofNat (i * 8)).toNat % 64 = i * 8 := by
          rw [UInt64.toNat_ofNat']
          omega
        have hlt : byte.toNat * 2 ^ (i * 8) < 2 ^ 64 := by
          calc
            byte.toNat * 2 ^ (i * 8) < 2 ^ 8 * 2 ^ (i * 8) :=
              Nat.mul_lt_mul_of_pos_right hbyte (Nat.two_pow_pos _)
            _ = 2 ^ (8 + i * 8) := (Nat.pow_add 2 8 _).symm
            _ ≤ 2 ^ 64 := Nat.pow_le_pow_right (by decide) (by omega)
        rw [UInt64.toNat_shiftLeft, hi, UInt8.toNat_toUInt64, Nat.shiftLeft_eq,
          Nat.mod_eq_of_lt hlt]
      rw [bignumValue, shiftLeftUnsigned_byte (by omega) hbyte, LibBert.bignumValue,
        ← ih (i + 1) _ (by omega), UInt64.toNat_or, hshift]
      rfl

theorem stripSign_toInt {i : Int64} (h : i.toInt ≠ -2 ^ 63) :
    (LibBert.bertStripSign i).toInt = i.toInt.natAbs := by
  unfold LibBert.bertStripSign
  split_ifs with hneg <;> rw [Int64.lt_iff_toInt_lt] at hneg
  · rw [toInt_neg_of_ne_min h]
    simp at hneg
    omega
  · simp at hneg
    omega

/-- An integer is made of every magnitude but `2 ^ 63`, and it is the one of the
wrapping model. -/
theorem bertDecodeBignum_eq (sign : UInt8) {bytes : List UInt8} (h : bytes.length ≤ 8) :
    bertDecodeBignum sign bytes =
      if ofLittleEndian bytes = 2 ^ 63 then none else some (bignumInteger sign bytes).toInt := by
  have hvalue := bignumValue_zero_toNat h
  have hlt : ofLittleEndian bytes < 2 ^ 64 := hvalue ▸ UInt64.toNat_lt _
  have hbytes : bignumValue bytes 0 0 = some (LibBert.bignumValue bytes 0 0).toNat :=
    bignumValue_eq bytes 0 0 (by omega)
  have hmin : (LibBert.bignumValue bytes 0 0).toInt64.toInt = -2 ^ 63 ↔
      ofLittleEndian bytes = 2 ^ 63 := by
    rw [toInt64_toInt, hvalue]
    split_ifs <;> omega
  simp only [bertDecodeBignum, hbytes, Option.bind_eq_bind, Option.bind_some, UInt64.ofNat_toNat,
    bertStripSign_eq, hmin, bignumInteger]
  generalize (LibBert.bignumValue bytes 0 0).toInt64 = i at hmin
  by_cases hleast : ofLittleEndian bytes = 2 ^ 63
  · simp only [if_pos hleast, Option.bind_none]
  · have hstrip := stripSign_toInt (mt hmin.mp hleast)
    have hi := toInt_bounds i
    have hne := mt hmin.mp hleast
    rw [if_neg hleast, if_neg hleast, Option.bind_some]
    split_ifs with hsign
    · rw [negate_of_lt (by omega), toInt_neg_of_ne_min (by omega), hstrip]
    · rw [hstrip]

/-! ## The inputs on which all of it is defined -/

/-- Only a `BERT_INT` can be sized, every integer but the least encoded and every
magnitude but `2 ^ 63` decoded. -/
theorem arithmetic_defined_iff (i : Int64) (sign : UInt8) {bytes : List UInt8}
    (hlength : bytes.length ≤ 8) :
    ((bertDataSizeofInt i.toInt).isSome ↔ bertMinInt ≤ i ∧ i ≤ bertMaxInt) ∧
    (¬ (i ≤ bertMaxInt ∧ bertMinInt ≤ i) →
      ((bertEncodeBignum i.toInt).isSome ↔ i.toInt ≠ -2 ^ 63)) ∧
    ((bertDecodeBignum sign bytes).isSome ↔ ofLittleEndian bytes ≠ 2 ^ 63) := by
  refine ⟨isSome_bertDataSizeofInt i, fun hi ↦ ?_, ?_⟩
  · rw [bertEncodeBignum_eq (Encode.toInt_ne_zero_of_not_small hi)]
    split_ifs with hmin
    · exact iff_of_false Bool.false_ne_true (not_not_intro hmin)
    · exact iff_of_true rfl hmin
  · rw [bertDecodeBignum_eq sign hlength]
    split_ifs with hvalue
    · exact iff_of_false Bool.false_ne_true (not_not_intro hvalue)
    · exact iff_of_true rfl hvalue

/-- Sizing `2 ^ 27`, encoding it and decoding its four bytes. -/
theorem arithmetic_defined_at :
    (¬ (bertDataSizeofInt (134217728 : Int64).toInt).isSome) ∧
    (bertEncodeBignum (134217728 : Int64).toInt).isSome ∧
    (bertDecodeBignum 0 [0, 0, 0, 8]).isSome := by
  obtain ⟨hsizeof, hencode, hdecode⟩ :=
    arithmetic_defined_iff 134217728 0 (show List.length [(0 : UInt8), 0, 0, 8] ≤ 8 by decide)
  exact ⟨mt hsizeof.mp (by decide), (hencode (by decide)).mpr (by decide),
    hdecode.mpr (by decide)⟩

/-- The search for the size of `2 ^ 27` starts with a shift of an `int` by 56. -/
theorem arithmetic_undefined :
    ¬ ((∀ i : Int64, (bertDataSizeofInt i.toInt).isSome) ∧
      (∀ i : Int64, ¬ (i ≤ bertMaxInt ∧ bertMinInt ≤ i) → (bertEncodeBignum i.toInt).isSome) ∧
      ∀ (sign : UInt8) (bytes : List UInt8), bytes.length ≤ 8 →
        (bertDecodeBignum sign bytes).isSome) := by
  intro h
  have hsome := h.1 134217728
  rw [isSome_bertDataSizeofInt] at hsome
  exact absurd hsome (by decide)

end Checked

end LibBert
