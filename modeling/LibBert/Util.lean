import LibBert.Bytes.Endian
import LibBert.Types

/-!
# Fixed-width fields and integer conversions

The reads and writes of `util.c`, the sign macro of `util.h`, the regular
expression table of `private/regex.c`, and the loops of `encode.c` and
`decode.c` that take a 64-bit magnitude apart and put it together.
-/

namespace LibBert

open Bytes

/-! ## Fields -/

def bertReadUint8 (src : List UInt8) : UInt8 := src.getD 0 0

def bertReadUint16 (src : List UInt8) : UInt16 :=
  ((src.getD 0 0).toUInt16 <<< 8) ||| (src.getD 1 0).toUInt16

def bertReadUint32 (src : List UInt8) : UInt32 :=
  ((src.getD 0 0).toUInt32 <<< 24) ||| ((src.getD 1 0).toUInt32 <<< 16) |||
    ((src.getD 2 0).toUInt32 <<< 8) ||| (src.getD 3 0).toUInt32

def bertReadMagic (src : List UInt8) : UInt8 := src.getD 0 0

theorem bertReadMagic_singleton (tag : UInt8) : bertReadMagic [tag] = tag := rfl

def bertWriteUint8 (i : UInt8) : List UInt8 := [i]

def bertWriteUint16 (i : UInt16) : List UInt8 :=
  [((i &&& 0xff00) >>> 8).toUInt8, (i &&& 0xff).toUInt8]

def bertWriteUint32 (i : UInt32) : List UInt8 :=
  [((i &&& 0xff000000) >>> 24).toUInt8, ((i &&& 0xff0000) >>> 16).toUInt8,
    ((i &&& 0xff00) >>> 8).toUInt8, (i &&& 0xff).toUInt8]

theorem bertReadUint16_toNat {src : List UInt8} (h : src.length = 2) :
    (bertReadUint16 src).toNat = ofBigEndian src := by
  match src, h with
  | [a, b], _ =>
      have hb := b.toNat_lt
      have hmod : a.toNat <<< 8 % 2 ^ 16 = a.toNat <<< 8 := by
        have ha := a.toNat_lt
        rw [Nat.shiftLeft_eq]
        omega
      simp only [bertReadUint16, List.getD_cons_zero, List.getD_cons_succ, UInt16.toNat_or,
        UInt16.toNat_shiftLeft, UInt8.toNat_toUInt16, show UInt16.toNat 8 % 16 = 8 from rfl]
      rw [hmod, shiftLeft_or_eq_add (by omega)]
      simp [ofBigEndian]

theorem bertReadUint32_toNat {src : List UInt8} (h : src.length = 4) :
    (bertReadUint32 src).toNat = ofBigEndian src := by
  match src, h with
  | [a, b, c, d], _ =>
      have ha := a.toNat_lt
      have hb := b.toNat_lt
      have hc := c.toNat_lt
      have hd := d.toNat_lt
      have hmod : ∀ (x : UInt8) (k : ℕ), k ≤ 24 →
          x.toNat <<< k % 2 ^ 32 = x.toNat * 2 ^ k := by
        intro x k hk
        have hx := x.toNat_lt
        have hpow : 2 ^ k ≤ 2 ^ 24 := Nat.pow_le_pow_right (by decide) hk
        rw [Nat.shiftLeft_eq, Nat.mod_eq_of_lt]
        nlinarith
      have hshift : ∀ x k : ℕ, x * 2 ^ k = x <<< k := fun x k ↦ (Nat.shiftLeft_eq x k).symm
      simp only [bertReadUint32, List.getD_cons_zero, List.getD_cons_succ, UInt32.toNat_or,
        UInt32.toNat_shiftLeft, UInt8.toNat_toUInt32, show UInt32.toNat 24 % 32 = 24 from rfl,
        show UInt32.toNat 16 % 32 = 16 from rfl, show UInt32.toNat 8 % 32 = 8 from rfl]
      rw [hmod a 24 (by decide), hmod b 16 (by decide), hmod c 8 (by decide), hshift a.toNat 24,
        shiftLeft_or_eq_add (by omega),
        show a.toNat * 2 ^ 24 + b.toNat * 2 ^ 16 = (a.toNat * 2 ^ 8 + b.toNat) * 2 ^ 16 by ring,
        hshift _ 16, shiftLeft_or_eq_add (by omega),
        show (a.toNat * 2 ^ 8 + b.toNat) * 2 ^ 16 + c.toNat * 2 ^ 8 =
          ((a.toNat * 2 ^ 8 + b.toNat) * 2 ^ 8 + c.toNat) * 2 ^ 8 by ring,
        hshift _ 8, shiftLeft_or_eq_add (by omega)]
      simp [ofBigEndian]
      ring

theorem bertWriteUint16_eq (i : UInt16) : bertWriteUint16 i = bigEndian 2 i.toNat := by
  have h8 := byte_and_mask_shiftRight_mod i.toNat 8
  have h0 := byte_and_mask_shiftRight_mod i.toNat 0
  simp only [bertWriteUint16, bigEndian, List.cons.injEq, ← UInt8.toNat_inj,
    UInt16.toNat_toUInt8, UInt16.toNat_shiftRight, UInt16.toNat_and, UInt8.toNat_ofNat', and_true]
  exact ⟨by simpa using h8, by simpa using h0⟩

theorem bertWriteUint32_eq (i : UInt32) : bertWriteUint32 i = bigEndian 4 i.toNat := by
  have h24 := byte_and_mask_shiftRight_mod i.toNat 24
  have h16 := byte_and_mask_shiftRight_mod i.toNat 16
  have h8 := byte_and_mask_shiftRight_mod i.toNat 8
  have h0 := byte_and_mask_shiftRight_mod i.toNat 0
  simp only [bertWriteUint32, bigEndian, List.cons.injEq, ← UInt8.toNat_inj,
    UInt32.toNat_toUInt8, UInt32.toNat_shiftRight, UInt32.toNat_and, UInt8.toNat_ofNat', and_true]
  exact ⟨by simpa using h24, by simpa using h16, by simpa using h8, by simpa using h0⟩

/-! ## Signs -/

/-- `BERT_STRIP_SIGN`; the negation of the least value wraps. -/
def bertStripSign (i : Int64) : Int64 := if i < 0 then -i else i

theorem toInt_bounds (i : Int64) : -2 ^ 63 ≤ i.toInt ∧ i.toInt < 2 ^ 63 :=
  ⟨i.le_toInt, i.toInt_lt⟩

theorem toInt_neg_of_ne_min {i : Int64} (h : i.toInt ≠ -2 ^ 63) : (-i).toInt = -i.toInt := by
  have hi := toInt_bounds i
  rw [Int64.toInt_neg, Int.bmod_eq_of_le_mul_two] <;> omega

theorem neg_eq_self_of_toInt_eq_min {i : Int64} (h : i.toInt = -2 ^ 63) : -i = i := by
  apply Int64.toInt_inj.mp
  rw [Int64.toInt_neg, h]
  decide

theorem toUInt64_toNat (i : Int64) : (i.toUInt64.toNat : ℤ) = i.toInt % 2 ^ 64 := by
  change (i.toBitVec.toNat : ℤ) = i.toBitVec.toInt % 2 ^ 64
  have h := i.toBitVec.isLt
  rw [BitVec.toInt_eq_toNat_cond]
  split <;> omega

theorem toInt64_toInt (u : UInt64) :
    u.toInt64.toInt = if u.toNat < 2 ^ 63 then (u.toNat : ℤ) else u.toNat - 2 ^ 64 := by
  change u.toBitVec.toInt = _
  have h := u.toBitVec.isLt
  rw [BitVec.toInt_eq_toNat_cond]
  change (if 2 * u.toNat < 2 ^ 64 then (u.toNat : ℤ) else u.toNat - (2 ^ 64 : ℕ)) = _
  split_ifs <;> first | rfl | omega

theorem stripSign_toNat (i : Int64) : (bertStripSign i).toUInt64.toNat = i.toInt.natAbs := by
  have hi := toInt_bounds i
  have hnat := toUInt64_toNat (bertStripSign i)
  unfold bertStripSign at hnat ⊢
  split_ifs at hnat ⊢ with hneg
  · rw [Int64.lt_iff_toInt_lt] at hneg
    by_cases hmin : i.toInt = -2 ^ 63
    · rw [neg_eq_self_of_toInt_eq_min hmin] at hnat ⊢
      omega
    · rw [toInt_neg_of_ne_min hmin] at hnat
      simp at hneg
      omega
  · rw [Int64.lt_iff_toInt_lt] at hneg
    simp at hneg
    omega

theorem stripSign_stripSign (i : Int64) : bertStripSign (bertStripSign i) = bertStripSign i := by
  have hi := toInt_bounds i
  by_cases hmin : i.toInt = -2 ^ 63
  · have h := neg_eq_self_of_toInt_eq_min hmin
    simp [bertStripSign, h]
  · unfold bertStripSign
    split_ifs with hneg hneg'
    · rw [Int64.lt_iff_toInt_lt, toInt_neg_of_ne_min hmin] at hneg'
      rw [Int64.lt_iff_toInt_lt] at hneg
      simp at hneg hneg'
      omega
    all_goals rfl

/-! ## Times -/

/-- The C division and remainder that split a time into megaseconds and seconds
round toward zero. -/
theorem time_parts (t : Int64) :
    1000000 * (t / 1000000).toInt + (t % 1000000).toInt = t.toInt ∧
      (0 ≤ t.toInt → 0 ≤ (t % 1000000).toInt ∧ (t % 1000000).toInt < 1000000) ∧
      (t.toInt ≤ 0 → -1000000 < (t % 1000000).toInt ∧ (t % 1000000).toInt ≤ 0) := by
  have hpos : (0 : ℤ) < 1000000 := by decide
  rw [show (t / 1000000).toInt = t.toInt.tdiv 1000000 from
      Int64.toInt_div_of_ne_right t 1000000 (by decide),
    show (t % 1000000).toInt = t.toInt.tmod 1000000 from Int64.toInt_mod t 1000000]
  refine ⟨Int.mul_tdiv_add_tmod t.toInt 1000000, fun h ↦ ?_, fun h ↦ ?_⟩
  · exact ⟨Int.tmod_nonneg _ h, Int.tmod_lt_of_pos _ hpos⟩
  · have hneg := Int.tmod_nonneg 1000000 (Int.neg_nonneg_of_nonpos h)
    rw [Int.neg_tmod] at hneg
    exact ⟨Int.lt_tmod_of_pos _ hpos, by omega⟩

/-! ## Magnitudes -/

/-- `((uint64_t)0xff) << (i * 8)`. -/
def byteMask (i : ℕ) : UInt64 := 0xff <<< UInt64.ofNat (i * 8)

/-- The search of `bert_encode_bignum` for the highest non-zero byte, from
index `i` down: the byte count, or nothing when the unsigned index would pass
below zero. -/
def bignumBytes (unsignedInteger : UInt64) : ℕ → Option ℕ
  | 0 => if unsignedInteger &&& byteMask 0 ≠ 0 then some 1 else none
  | i + 1 =>
      if unsignedInteger &&& byteMask (i + 1) ≠ 0 then some (i + 2)
      else bignumBytes unsignedInteger i

/-- The byte of a magnitude at index `i`, as `bert_encode_bignum` extracts it. -/
def bignumByte (unsignedInteger : UInt64) (i : ℕ) : UInt8 :=
  ((unsignedInteger &&& byteMask i) >>> UInt64.ofNat (i * 8)).toUInt8

/-- The loop of `bert_decode_bignum` over the bytes from index `i` on. -/
def bignumValue : List UInt8 → ℕ → UInt64 → UInt64
  | [], _, unsignedInteger => unsignedInteger
  | byte :: bytes, i, unsignedInteger =>
      bignumValue bytes (i + 1)
        (unsignedInteger ||| (byte.toUInt64 <<< UInt64.ofNat (i * 8)))

/-- The integer `bert_decode_bignum` makes of a sign byte and a magnitude. -/
def bignumInteger (sign : UInt8) (bytes : List UInt8) : Int64 :=
  let signedInteger := bertStripSign (bignumValue bytes 0 0).toInt64
  if sign ≠ 0 then -signedInteger else signedInteger

theorem byteMask_toNat {i : ℕ} (hi : i < 8) : (byteMask i).toNat = 255 <<< (i * 8) := by
  have hshift : (UInt64.ofNat (i * 8)).toNat % 64 = i * 8 := by
    rw [UInt64.toNat_ofNat']
    omega
  have hpow : 2 ^ (i * 8) ≤ 2 ^ 56 := Nat.pow_le_pow_right (by decide) (by omega)
  rw [byteMask, UInt64.toNat_shiftLeft, hshift]
  apply Nat.mod_eq_of_lt
  change 255 <<< (i * 8) < 2 ^ 64
  rw [Nat.shiftLeft_eq]
  omega

theorem bignumByte_eq (u : UInt64) {i : ℕ} (hi : i < 8) :
    bignumByte u i = UInt8.ofNat (u.toNat / 256 ^ i) := by
  have hshift : (UInt64.ofNat (i * 8)).toNat % 64 = i * 8 := by
    rw [UInt64.toNat_ofNat']
    omega
  apply UInt8.toNat_inj.mp
  rw [bignumByte, UInt64.toNat_toUInt8, UInt64.toNat_shiftRight, UInt64.toNat_and, hshift,
    byteMask_toNat hi, byte_and_mask_shiftRight, UInt8.toNat_ofNat', Nat.mul_comm, Nat.pow_mul]
  exact Nat.mod_mod _ _

theorem and_byteMask_ne_zero_iff {u : UInt64} {i : ℕ} (hi : i < 8) (hu : u.toNat < 256 ^ (i + 1)) :
    u &&& byteMask i ≠ 0 ↔ 256 ^ i ≤ u.toNat := by
  have hpow : (2 : ℕ) ^ (i * 8) = 256 ^ i := by
    rw [Nat.mul_comm, Nat.pow_mul]
  have hlt : u.toNat / 256 ^ i < 256 := by
    rw [Nat.div_lt_iff_lt_mul (Nat.pow_pos (by decide)), ← Nat.pow_succ']
    exact hu
  rw [Ne, ← UInt64.toNat_inj, UInt64.toNat_and, byteMask_toNat hi]
  change ¬ u.toNat &&& 255 <<< (i * 8) = 0 ↔ _
  rw [and_mask_eq_zero_iff, hpow, Nat.mod_eq_of_lt hlt, Nat.div_eq_zero_iff]
  have : 0 < 256 ^ i := Nat.pow_pos (by decide)
  omega

/-- The search finds the least number of bytes that hold the magnitude, and
passes below zero only on zero. -/
theorem bignumBytes_spec {u : UInt64} {i : ℕ} (hi : i < 8) (hu : u.toNat < 256 ^ (i + 1)) :
    (bignumBytes u i = none ∧ u.toNat = 0) ∨
      ∃ n, bignumBytes u i = some (n + 1) ∧ n ≤ i ∧
        256 ^ n ≤ u.toNat ∧ u.toNat < 256 ^ (n + 1) := by
  induction i with
  | zero =>
      by_cases hmask : u &&& byteMask 0 ≠ 0
      · have hle := (and_byteMask_ne_zero_iff hi hu).mp hmask
        exact .inr ⟨0, by rw [bignumBytes, if_pos hmask], le_refl 0, hle, hu⟩
      · have hle := mt (and_byteMask_ne_zero_iff hi hu).mpr hmask
        exact .inl ⟨by rw [bignumBytes, if_neg hmask], by simpa using hle⟩
  | succ i ih =>
      by_cases hmask : u &&& byteMask (i + 1) ≠ 0
      · have hle := (and_byteMask_ne_zero_iff hi hu).mp hmask
        exact .inr ⟨i + 1, by rw [bignumBytes, if_pos hmask], le_refl _, hle, hu⟩
      · have hlt := mt (and_byteMask_ne_zero_iff hi hu).mpr hmask
        rw [bignumBytes, if_neg hmask]
        rcases ih (by omega) (by omega) with hnone | ⟨n, hsome, hn, hbounds⟩
        · exact .inl hnone
        · exact .inr ⟨n, hsome, by omega, hbounds⟩

theorem bignumValue_toNat (bytes : List UInt8) (i : ℕ) (u : UInt64)
    (hlength : i + bytes.length ≤ 8) (hu : u.toNat < 2 ^ (i * 8)) :
    (bignumValue bytes i u).toNat = u.toNat + ofLittleEndian bytes * 2 ^ (i * 8) := by
  induction bytes generalizing i u with
  | nil => simp [bignumValue]
  | cons byte bytes ih =>
      have hbyte := byte.toNat_lt
      rw [List.length_cons] at hlength
      have hpow : 2 ^ ((i + 1) * 8) = 2 ^ (i * 8) * 256 := by
        rw [Nat.add_mul, Nat.pow_add]
      have hlow : byte.toNat * 2 ^ (i * 8) + 2 ^ (i * 8) ≤ 2 ^ ((i + 1) * 8) := by
        rw [hpow]
        nlinarith [Nat.pow_pos (n := i * 8) (a := 2) (by decide)]
      have hhigh : 2 ^ ((i + 1) * 8) ≤ 2 ^ 64 := Nat.pow_le_pow_right (by decide) (by omega)
      have hshift : (byte.toUInt64 <<< UInt64.ofNat (i * 8)).toNat = byte.toNat <<< (i * 8) := by
        have hi : (UInt64.ofNat (i * 8)).toNat % 64 = i * 8 := by
          rw [UInt64.toNat_ofNat']
          omega
        rw [UInt64.toNat_shiftLeft, hi, UInt8.toNat_toUInt64, Nat.mod_eq_of_lt]
        rw [Nat.shiftLeft_eq]
        omega
      have hor : (u ||| byte.toUInt64 <<< UInt64.ofNat (i * 8)).toNat =
          u.toNat + byte.toNat * 2 ^ (i * 8) := by
        rw [UInt64.toNat_or, hshift, or_shiftLeft_eq_add hu]
      rw [bignumValue, ih (i + 1) _ (by omega) (by rw [hor]; omega), hor, ofLittleEndian_cons, hpow]
      ring

theorem bignumValue_zero_toNat {bytes : List UInt8} (hlength : bytes.length ≤ 8) :
    (bignumValue bytes 0 0).toNat = ofLittleEndian bytes := by
  simpa using bignumValue_toNat bytes 0 0 (by omega) (by decide)

/-- A magnitude below `2 ^ 63` becomes the integer of that magnitude. -/
theorem bignumInteger_toInt {sign : UInt8} {bytes : List UInt8} (hlength : bytes.length ≤ 8)
    (hvalue : ofLittleEndian bytes < 2 ^ 63) :
    (bignumInteger sign bytes).toInt =
      if sign = 0 then (ofLittleEndian bytes : ℤ) else -(ofLittleEndian bytes : ℤ) := by
  have hmagnitude : (bignumValue bytes 0 0).toInt64.toInt = ofLittleEndian bytes := by
    rw [toInt64_toInt, bignumValue_zero_toNat hlength, if_pos hvalue]
  have hstrip : bertStripSign (bignumValue bytes 0 0).toInt64 =
      (bignumValue bytes 0 0).toInt64 := by
    rw [bertStripSign, if_neg]
    rw [Int64.lt_iff_toInt_lt, hmagnitude]
    simp
  by_cases hsign : sign = 0
  · simpa [bignumInteger, hstrip, hsign] using hmagnitude
  · have hneg : (bignumInteger sign bytes).toInt = (-(bignumValue bytes 0 0).toInt64).toInt := by
      simp [bignumInteger, hstrip, hsign]
    rw [hneg, toInt_neg_of_ne_min (by omega), hmagnitude, if_neg hsign]

/-- The sign and the magnitude of an integer give the integer back, also where
its negation wraps. -/
theorem bignumInteger_of_natAbs {i : Int64} {bytes : List UInt8} (hlength : bytes.length ≤ 8)
    (hvalue : ofLittleEndian bytes = i.toInt.natAbs) :
    bignumInteger (if i < 0 then 1 else 0) bytes = i := by
  have hmagnitude : (bignumValue bytes 0 0).toInt64 = bertStripSign i := by
    rw [← Int64.toInt64_toUInt64 (bertStripSign i)]
    congr 1
    rw [← UInt64.toNat_inj, bignumValue_zero_toNat hlength, hvalue, stripSign_toNat]
  unfold bignumInteger
  rw [hmagnitude, stripSign_stripSign]
  by_cases hneg : i < 0
  · simp [bertStripSign, hneg]
  · simp [bertStripSign, hneg]

/-! ## Regular expression options -/

def bertRegexUnicode : UInt32 := 0x00000800
def bertRegexAnchored : UInt32 := 0x00000010
def bertRegexCaseless : UInt32 := 0x00000001
def bertRegexDollarEndonly : UInt32 := 0x00000020
def bertRegexDotall : UInt32 := 0x00000004
def bertRegexExtended : UInt32 := 0x00000008
def bertRegexFirstline : UInt32 := 0x00040000
def bertRegexMultiline : UInt32 := 0x00000002
def bertRegexNoAutoCapture : UInt32 := 0x00001000
def bertRegexDupnames : UInt32 := 0x00080000
def bertRegexUngreedy : UInt32 := 0x00000200
def bertRegexNewlineCr : UInt32 := 0x00100000
def bertRegexNewlineLf : UInt32 := 0x00200000
def bertRegexNewlineCrlf : UInt32 := 0x00300000
def bertRegexNewlineAnycrlf : UInt32 := 0x00500000
def bertRegexNewlineAny : UInt32 := 0x00400000
def bertRegexBsrAnycrlf : UInt32 := 0x00800000
def bertRegexBsrUnicode : UInt32 := 0x01000000

/-- The entries of `bert_regex_options` before the terminating `{NULL, 0}`. -/
def bertRegexOptions : List (List UInt8 × UInt32) :=
  [(cString "unicode", bertRegexUnicode),
    (cString "anchored", bertRegexAnchored),
    (cString "caseless", bertRegexCaseless),
    (cString "dollar_endonly", bertRegexDollarEndonly),
    (cString "dotall", bertRegexDotall),
    (cString "extended", bertRegexExtended),
    (cString "firstline", bertRegexFirstline),
    (cString "multiline", bertRegexMultiline),
    (cString "no_auto_capture", bertRegexNoAutoCapture),
    (cString "dupnames", bertRegexNoAutoCapture),
    (cString "ungreedy", bertRegexUngreedy),
    (cString "bsr_any_crlf", bertRegexBsrAnycrlf),
    (cString "bsr_unicode", bertRegexBsrUnicode)]

/-- `strcmp` sees a name up to its first zero byte. -/
def cName (name : List UInt8) : List UInt8 := name.takeWhile (· ≠ 0)

def bertRegexOptmask (name : List UInt8) : UInt32 :=
  match bertRegexOptions.find? fun option ↦ cName name == option.1 with
  | some option => option.2
  | none => 0

/-- The walk stops at the first entry whose mask is zero. -/
def bertRegexOptname (mask : UInt32) : Option (List UInt8) :=
  ((bertRegexOptions.takeWhile fun option ↦ option.2 ≠ 0).find?
    fun option ↦ mask == option.2).map Prod.fst

end LibBert
