import LibBert.Encoder.Encoding
import LibBert.Wire.Completeness

/-!
# What the encoder writes, as wire terms

The fields and headers that the encoder writes are the bytes of wire terms.  An
integer is read back as it was but for those that `bert_encode_int` takes for
unsigned ones.
-/

namespace LibBert

open Bytes

variable {F : Type} [Platform F]

/-- The integers that come back as they were. -/
def Survives (i : Int64) : Prop := 0 ≤ i ∨ i < bertMinInt

/-- What becomes of an integer. -/
def readBack (i : Int64) : Int64 := if bertMinInt ≤ i ∧ i < 0 then i + 4294967296 else i

def complexWire (name : List UInt8) : Wire :=
  .tuple false 2 [.atom (cString "bert"), .atom name]

def uintWire (n : ℕ) : Wire :=
  if n ≤ 255 then .smallInt (UInt8.ofNat n) else .int (UInt32.ofNat n)

def intWire (i : Int64) : Wire :=
  if i ≤ bertMaxInt ∧ bertMinInt ≤ i then uintWire (low32 i)
  else
    .bignum false (if i < 0 then 1 else 0)
      (littleEndian (magnitudeLength i.toInt.natAbs) i.toInt.natAbs)

/-! ## Integers -/

theorem survives_iff (i : Int64) : Survives i ↔ 0 ≤ i.toInt ∨ i.toInt < -2 ^ 27 := by
  rw [Survives, Int64.le_iff_toInt_le, Int64.lt_iff_toInt_lt]
  exact Iff.rfl

theorem readBack_toInt (i : Int64) :
    (readBack i).toInt =
      if -2 ^ 27 ≤ i.toInt ∧ i.toInt < 0 then i.toInt + 2 ^ 32 else i.toInt := by
  have hrange : (bertMinInt ≤ i ∧ i < 0) ↔ -2 ^ 27 ≤ i.toInt ∧ i.toInt < 0 := by
    rw [Int64.le_iff_toInt_le, Int64.lt_iff_toInt_lt]
    exact Iff.rfl
  simp only [readBack, hrange]
  split_ifs with h
  · rw [Int64.toInt_add, show Int64.toInt 4294967296 = 2 ^ 32 from rfl,
      Int.bmod_eq_of_le_mul_two] <;> omega
  · rfl

theorem readBack_eq_self_iff (i : Int64) : readBack i = i ↔ Survives i := by
  rw [← Int64.toInt_inj, readBack_toInt, survives_iff]
  split_ifs <;> omega

theorem low32_eq_readBack {i : Int64} (h : -2 ^ 27 ≤ i.toInt ∧ i.toInt < 2 ^ 27) :
    (low32 i : ℤ) = (readBack i).toInt := by
  rw [low32, readBack_toInt]
  split_ifs <;> omega

theorem int64_ofNat_low32 {i : Int64} (h : -2 ^ 27 ≤ i.toInt ∧ i.toInt < 2 ^ 27) :
    Int64.ofNat (low32 i) = readBack i := by
  have hlow := low32_eq_readBack h
  apply Int64.toInt_inj.mp
  rw [← hlow, Int64.toInt_ofNat_of_lt]
  rw [readBack_toInt] at hlow
  split_ifs at hlow <;> omega

theorem denote_uintWire {n : ℕ} (hn : n < 2 ^ 32) :
    ((uintWire n).denote : Option (Data F)) = some (.int (Int64.ofNat n)) := by
  rw [uintWire]
  split_ifs with hbyte
  · rw [Wire.denote, UInt8.toNat_ofNat', Nat.mod_eq_of_lt (by omega)]
  · rw [Wire.denote, UInt32.toNat_ofNat', Nat.mod_eq_of_lt hn]

theorem denote_intWire (i : Int64) :
    ((intWire i).denote : Option (Data F)) = some (.int (readBack i)) := by
  by_cases hsmall : i ≤ bertMaxInt ∧ bertMinInt ≤ i
  · rw [intWire, if_pos hsmall, denote_uintWire (low32_lt i),
      int64_ofNat_low32 ((small_iff i).mp hsmall)]
  · have hrange := mt (small_iff i).mpr hsmall
    have hself : readBack i = i := (readBack_eq_self_iff i).mpr ((survives_iff i).mpr (by omega))
    have hvalue : ofLittleEndian (littleEndian (magnitudeLength i.toInt.natAbs) i.toInt.natAbs) =
        i.toInt.natAbs := by
      rw [ofLittleEndian_littleEndian]
      exact Nat.mod_eq_of_lt (lt_pow_magnitudeLength _)
    have hlength : (littleEndian (magnitudeLength i.toInt.natAbs) i.toInt.natAbs).length ≤ 8 := by
      rw [length_littleEndian]
      exact magnitudeLength_le i
    rw [intWire, if_neg hsmall, Wire.denote, if_pos hlength, bignumInteger_of_natAbs hlength hvalue,
      hself]

theorem bigEndian_one (n : ℕ) : bigEndian 1 n = [UInt8.ofNat n] := by
  simp [bigEndian]

theorem bytes_uintWire {n : ℕ} (hn : n < 2 ^ 32) : (uintWire n).bytes = intBytes n := by
  rw [uintWire, intBytes]
  split_ifs with hbyte
  · rfl
  · rw [Wire.bytes, Wire.chunks, UInt32.toNat_ofNat', Nat.mod_eq_of_lt hn]
    simp

theorem bytes_intWire (i : Int64) :
    (intWire i).bytes =
      if i ≤ bertMaxInt ∧ bertMinInt ≤ i then intBytes (low32 i) else bignumField i := by
  by_cases hsmall : i ≤ bertMaxInt ∧ bertMinInt ≤ i
  · rw [intWire, if_pos hsmall, if_pos hsmall, bytes_uintWire (low32_lt i)]
  · rw [intWire, if_neg hsmall, if_neg hsmall, Wire.bytes, Wire.chunks, bignumField]
    simp [Wire.bignumTag, Wire.size, bigEndian_one]

theorem low32_of_nonneg {i : Int64} (h : 0 ≤ i) (hsmall : i ≤ bertMaxInt ∧ bertMinInt ≤ i) :
    low32 i = i.toInt.natAbs := by
  have hrange := (small_iff i).mp hsmall
  rw [Int64.le_iff_toInt_le] at h
  change 0 ≤ i.toInt at h
  rw [low32]
  omega

/-! ## Terms -/

theorem bytes_atom (name : List UInt8) : (Wire.atom name).bytes = atomField name := by
  simp [Wire.bytes, Wire.chunks, atomField]

theorem bytes_bin (data : List UInt8) : (Wire.bin data).bytes = binField data := by
  simp [Wire.bytes, Wire.chunks, binField]

theorem bytes_tuple (n : ℕ) (ws : List Wire) :
    (Wire.tuple (255 < n) n ws).bytes = tupleHeader n ++ (Wire.chunksList ws).flatten := by
  by_cases hn : n ≤ 255
  · simp [Wire.bytes, Wire.chunks, Wire.size, Wire.tupleTag, tupleHeader, hn, Nat.not_lt.mpr hn,
      bigEndian_one]
  · simp [Wire.bytes, Wire.chunks, Wire.size, Wire.tupleTag, tupleHeader, hn,
      Nat.lt_of_not_le hn]

theorem bytes_complexWire (name : List UInt8) :
    (complexWire name).bytes = (complexHeader name 0).flatten := by
  have htuple := bytes_tuple 2 [.atom (cString "bert"), .atom name]
  have hbert := bytes_atom (cString "bert")
  have hname := bytes_atom name
  rw [Wire.bytes] at hbert hname
  simp only [complexWire, complexHeader, Wire.chunksList, List.flatten_append, hbert, hname,
    List.append_nil, List.flatten_cons, List.flatten_nil] at htuple ⊢
  exact htuple

end LibBert
