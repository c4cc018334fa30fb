import Mathlib.Data.Nat.Digits.Defs
import Mathlib.Data.Nat.Bitwise
import Mathlib.Tactic.Linarith

/-!
# Byte strings and numbers

Big-endian fields of a fixed width, little-endian magnitudes, and the mask and
shift identities that take a number apart into bytes and put it together.
-/

namespace Bytes

/-! ## Masks and shifts -/

theorem byte_and_mask_shiftRight (n k : ℕ) : (n &&& 255 <<< k) >>> k = n / 2 ^ k % 256 := by
  rw [Nat.shiftRight_and_distrib, Nat.shiftLeft_shiftRight, Nat.shiftRight_eq_div_pow]
  exact Nat.and_two_pow_sub_one_eq_mod _ 8

theorem byte_and_mask_shiftRight_mod (n k : ℕ) :
    (n &&& 255 <<< k) >>> k % 256 = n / 2 ^ k % 256 := by
  rw [byte_and_mask_shiftRight, Nat.mod_mod]

theorem and_mask_eq_zero_iff (n k : ℕ) : n &&& 255 <<< k = 0 ↔ n / 2 ^ k % 256 = 0 := by
  constructor
  · intro h
    rw [← byte_and_mask_shiftRight, h, Nat.zero_shiftRight]
  · intro h
    have hand : n &&& 255 <<< k = (n >>> k &&& 255) <<< k := by
      apply Nat.eq_of_testBit_eq
      intro j
      by_cases hj : k ≤ j <;> simp [hj]
    rw [hand, Nat.shiftRight_eq_div_pow, Nat.and_two_pow_sub_one_eq_mod _ 8]
    simp [h]

theorem or_shiftLeft_eq_add {a b k : ℕ} (h : a < 2 ^ k) : a ||| b <<< k = a + b * 2 ^ k := by
  rw [Nat.or_comm, ← Nat.shiftLeft_add_eq_or_of_lt h, Nat.shiftLeft_eq, Nat.add_comm]

theorem shiftLeft_or_eq_add {a b k : ℕ} (h : b < 2 ^ k) : a <<< k ||| b = a * 2 ^ k + b := by
  rw [← Nat.shiftLeft_add_eq_or_of_lt h, Nat.shiftLeft_eq]

/-! ## Big-endian fields -/

/-- The last `width` base-256 digits of a number, most significant first. -/
def bigEndian : ℕ → ℕ → List UInt8
  | 0, _ => []
  | width + 1, n => UInt8.ofNat (n / 256 ^ width) :: bigEndian width n

@[simp] theorem length_bigEndian (width n : ℕ) : (bigEndian width n).length = width := by
  induction width with
  | zero => rfl
  | succ width ih => simp [bigEndian, ih]

/-- The number a big-endian field stands for. -/
def ofBigEndian : List UInt8 → ℕ
  | [] => 0
  | byte :: bytes => byte.toNat * 256 ^ bytes.length + ofBigEndian bytes

theorem ofBigEndian_lt (bytes : List UInt8) : ofBigEndian bytes < 256 ^ bytes.length := by
  induction bytes with
  | nil => decide
  | cons byte bytes ih =>
      have hbyte : byte.toNat ≤ 255 := Nat.le_of_lt_succ byte.toNat_lt
      calc
        ofBigEndian (byte :: bytes) < byte.toNat * 256 ^ bytes.length + 256 ^ bytes.length :=
          Nat.add_lt_add_left ih _
        _ ≤ 255 * 256 ^ bytes.length + 256 ^ bytes.length :=
          Nat.add_le_add_right (Nat.mul_le_mul_right _ hbyte) _
        _ = 256 ^ (byte :: bytes).length := by rw [List.length_cons, Nat.pow_succ]; ring

theorem ofBigEndian_bigEndian (width n : ℕ) :
    ofBigEndian (bigEndian width n) = n % 256 ^ width := by
  induction width with
  | zero => simp [bigEndian, ofBigEndian, Nat.mod_one]
  | succ width ih =>
      have hmod : n % 256 ^ (width + 1) =
          n % 256 ^ width + 256 ^ width * (n / 256 ^ width % 256) := by
        rw [Nat.pow_succ, Nat.mod_mul]
      rw [bigEndian, ofBigEndian, ih, length_bigEndian, UInt8.toNat_ofNat', hmod]
      ring

theorem bigEndian_ofBigEndian (bytes : List UInt8) :
    bigEndian bytes.length (ofBigEndian bytes) = bytes := by
  suffices h : ∀ (high : ℕ) (bytes : List UInt8),
      bigEndian bytes.length (high * 256 ^ bytes.length + ofBigEndian bytes) = bytes by
    simpa using h 0 bytes
  intro high bytes
  induction bytes generalizing high with
  | nil => rfl
  | cons byte bytes ih =>
      have hlt := ofBigEndian_lt bytes
      have hsplit : high * 256 ^ (byte :: bytes).length + ofBigEndian (byte :: bytes) =
          (high * 256 + byte.toNat) * 256 ^ bytes.length + ofBigEndian bytes := by
        rw [List.length_cons, Nat.pow_succ, ofBigEndian]
        ring
      have hdiv : ((high * 256 + byte.toNat) * 256 ^ bytes.length + ofBigEndian bytes) /
          256 ^ bytes.length = high * 256 + byte.toNat := by
        rw [Nat.add_comm, Nat.add_mul_div_right _ _ (Nat.pow_pos (by decide)),
          Nat.div_eq_of_lt hlt, Nat.zero_add]
      rw [hsplit, List.length_cons, bigEndian, hdiv, ih]
      congr 1
      apply UInt8.toNat_inj.mp
      have hbyte := byte.toNat_lt
      rw [UInt8.toNat_ofNat']
      omega

theorem bigEndian_mod (width n : ℕ) : bigEndian width (n % 256 ^ width) = bigEndian width n := by
  have h := bigEndian_ofBigEndian (bigEndian width n)
  rwa [ofBigEndian_bigEndian, length_bigEndian] at h

theorem bigEndian_injOn {width m n : ℕ} (hm : m < 256 ^ width) (hn : n < 256 ^ width)
    (h : bigEndian width m = bigEndian width n) : m = n := by
  have hvalue := congrArg ofBigEndian h
  rwa [ofBigEndian_bigEndian, ofBigEndian_bigEndian, Nat.mod_eq_of_lt hm,
    Nat.mod_eq_of_lt hn] at hvalue

/-- Fields of one width in front of one input hold the same number. -/
theorem field_eq {width m n : ℕ} {t t' : List UInt8} (hm : m < 256 ^ width) (hn : n < 256 ^ width)
    (h : bigEndian width m ++ t = bigEndian width n ++ t') : m = n ∧ t = t' := by
  obtain ⟨hfield, hrest⟩ := List.append_inj h (by simp)
  exact ⟨bigEndian_injOn hm hn hfield, hrest⟩

/-- Texts behind their length fields are the same. -/
theorem text_eq {width : ℕ} {x y t t' : List UInt8} (hx : x.length < 256 ^ width)
    (hy : y.length < 256 ^ width)
    (h : bigEndian width x.length ++ x ++ t = bigEndian width y.length ++ y ++ t') :
    x = y ∧ t = t' := by
  rw [List.append_assoc, List.append_assoc] at h
  obtain ⟨hlength, hrest⟩ := field_eq hx hy h
  exact List.append_inj hrest hlength

/-! ## Little-endian magnitudes -/

/-- The number a little-endian magnitude stands for. -/
def ofLittleEndian (bytes : List UInt8) : ℕ := Nat.ofDigits 256 (bytes.map UInt8.toNat)

@[simp] theorem ofLittleEndian_nil : ofLittleEndian [] = 0 := rfl

theorem ofLittleEndian_cons (byte : UInt8) (bytes : List UInt8) :
    ofLittleEndian (byte :: bytes) = byte.toNat + 256 * ofLittleEndian bytes := by
  simp [ofLittleEndian, Nat.ofDigits_cons]

theorem ofLittleEndian_lt (bytes : List UInt8) :
    ofLittleEndian bytes < 256 ^ bytes.length := by
  have h := Nat.ofDigits_lt_base_pow_length (b := 256) (by decide : 1 < 256)
    (l := bytes.map UInt8.toNat) (by simpa using fun a _ ↦ UInt8.toNat_lt a)
  simpa [ofLittleEndian] using h

/-- The first `width` base-256 digits of a number, least significant first. -/
def littleEndian (width n : ℕ) : List UInt8 :=
  (List.range width).map fun i ↦ UInt8.ofNat (n / 256 ^ i)

@[simp] theorem length_littleEndian (width n : ℕ) : (littleEndian width n).length = width := by
  simp [littleEndian]

theorem littleEndian_succ (width n : ℕ) :
    littleEndian (width + 1) n = UInt8.ofNat n :: littleEndian width (n / 256) := by
  simp only [littleEndian, List.range_succ_eq_map, List.map_cons, List.map_map, Nat.pow_zero,
    Nat.div_one]
  congr 2
  funext i
  simp only [Function.comp_apply, Nat.pow_succ', Nat.div_div_eq_div_mul]

theorem ofLittleEndian_littleEndian (width n : ℕ) :
    ofLittleEndian (littleEndian width n) = n % 256 ^ width := by
  induction width generalizing n with
  | zero => simp [littleEndian, Nat.mod_one]
  | succ width ih =>
      have hmod : n % 256 ^ (width + 1) = n % 256 + 256 * (n / 256 % 256 ^ width) := by
        rw [Nat.pow_succ', Nat.mod_mul]
      rw [littleEndian_succ, ofLittleEndian_cons, ih, UInt8.toNat_ofNat', hmod]

theorem littleEndian_injOn {width m n : ℕ} (hm : m < 256 ^ width) (hn : n < 256 ^ width)
    (h : littleEndian width m = littleEndian width n) : m = n := by
  have hvalue := congrArg ofLittleEndian h
  rwa [ofLittleEndian_littleEndian, ofLittleEndian_littleEndian, Nat.mod_eq_of_lt hm,
    Nat.mod_eq_of_lt hn] at hvalue

end Bytes
