import Mathlib.Algebra.Order.Field.Basic
import Mathlib.Data.Nat.Log
import Mathlib.Data.Rat.Cast.Order
import Mathlib.Tactic.FieldSimp
import Mathlib.Tactic.Linarith
import Mathlib.Tactic.Ring

/-!
# Decimal digits and rounding

Natural numbers as a fixed number of decimal digits, and the rounding of a fraction
to the nearest natural number.
-/

namespace Bytes

/-! ## Digits -/

/-- The lowest `width` decimal digits of a number, the most significant first. -/
def decimal : ℕ → ℕ → List UInt8
  | 0, _ => []
  | width + 1, n => UInt8.ofNat (48 + n / 10 ^ width % 10) :: decimal width n

@[simp] theorem length_decimal (width n : ℕ) : (decimal width n).length = width := by
  induction width with
  | zero => rfl
  | succ width ih => rw [decimal, List.length_cons, ih]

theorem digit_toNat (n : ℕ) : (UInt8.ofNat (48 + n % 10)).toNat = 48 + n % 10 := by
  rw [UInt8.toNat_ofNat']
  omega

/-- Every digit is one of the characters from `0` to `9`. -/
theorem digit_of_mem_decimal {width n : ℕ} {c : UInt8} (h : c ∈ decimal width n) :
    48 ≤ c.toNat ∧ c.toNat < 58 := by
  induction width with
  | zero => cases h
  | succ width ih =>
      rw [decimal, List.mem_cons] at h
      rcases h with rfl | h
      · rw [digit_toNat]
        omega
      · exact ih h

/-- Higher digits are those of a quotient. -/
theorem decimal_add (high low n : ℕ) :
    decimal (high + low) n = decimal high (n / 10 ^ low) ++ decimal low n := by
  induction high with
  | zero => rw [Nat.zero_add, decimal, List.nil_append]
  | succ high ih =>
      rw [Nat.succ_add, decimal, ih, decimal, List.cons_append, Nat.div_div_eq_div_mul,
        ← Nat.pow_add, Nat.add_comm low high]

theorem take_decimal (high low n : ℕ) :
    (decimal (high + low) n).take high = decimal high (n / 10 ^ low) := by
  rw [decimal_add, List.take_left' (length_decimal high _)]

theorem decimal_eq_iff {width m n : ℕ} :
    decimal width m = decimal width n ↔ m % 10 ^ width = n % 10 ^ width := by
  induction width with
  | zero => simp [decimal, Nat.mod_one]
  | succ width ih =>
      have hm := Nat.mod_lt m (Nat.pow_pos (by decide) : 0 < 10 ^ width)
      have hn := Nat.mod_lt n (Nat.pow_pos (by decide) : 0 < 10 ^ width)
      rw [decimal, decimal, List.cons.injEq, ih, Nat.mod_pow_succ, Nat.mod_pow_succ]
      constructor
      · rintro ⟨hdigit, hrest⟩
        have htoNat := congrArg UInt8.toNat hdigit
        rw [digit_toNat, digit_toNat, Nat.add_left_cancel_iff] at htoNat
        rw [htoNat, hrest]
      · intro h
        have hhigh : m / 10 ^ width % 10 = n / 10 ^ width % 10 := by
          have hdiv := congrArg (· / 10 ^ width) h
          rwa [Nat.add_mul_div_left _ _ (Nat.pow_pos (by decide)), Nat.div_eq_of_lt hm,
            Nat.add_mul_div_left _ _ (Nat.pow_pos (by decide)), Nat.div_eq_of_lt hn, Nat.zero_add,
            Nat.zero_add] at hdiv
        rw [hhigh, Nat.add_right_cancel_iff] at h
        exact ⟨by rw [hhigh], h⟩

/-- Numbers that fit are told apart by their digits. -/
theorem decimal_injOn {width m n : ℕ} (hm : m < 10 ^ width) (hn : n < 10 ^ width) :
    decimal width m = decimal width n ↔ m = n := by
  rw [decimal_eq_iff, Nat.mod_eq_of_lt hm, Nat.mod_eq_of_lt hn]

/-- Numbers with one quotient are less than the divisor apart. -/
theorem abs_sub_le_of_div_eq {m n q : ℕ} (hq : 0 < q) (h : m / q = n / q) :
    |(m : ℚ) - n| ≤ q - 1 := by
  have hm := Nat.div_add_mod m q
  have hn := Nat.div_add_mod n q
  have hmodm := Nat.mod_lt m hq
  have hmodn := Nat.mod_lt n hq
  rw [h] at hm
  have hlow : (m + 1 : ℚ) ≤ n + q := by exact_mod_cast (by omega : m + 1 ≤ n + q)
  have hhigh : (n + 1 : ℚ) ≤ m + q := by exact_mod_cast (by omega : n + 1 ≤ m + q)
  rw [abs_le]
  constructor <;> linarith

/-! ## Rounding -/

/-- The natural number nearest to a fraction, the even one of two. -/
def roundHalfEven (num den : ℕ) : ℕ :=
  if 2 * (num % den) < den then num / den
  else if den < 2 * (num % den) then num / den + 1
  else num / den + num / den % 2

/-- The fraction is at most a half away. -/
theorem abs_sub_roundHalfEven (num : ℕ) {den : ℕ} (hden : 0 < den) :
    |(num / den : ℚ) - roundHalfEven num den| ≤ 1 / 2 := by
  have hmod := Nat.mod_lt num hden
  have hsplit := Nat.div_add_mod num den
  have hround : 2 * num ≤ 2 * (den * roundHalfEven num den) + den ∧
      2 * (den * roundHalfEven num den) ≤ 2 * num + den := by
    have hparity := Nat.mod_two_eq_zero_or_one (num / den)
    unfold roundHalfEven
    split_ifs with hlow hhigh
    · omega
    · rw [Nat.mul_add]
      omega
    · rcases hparity with hparity | hparity <;> rw [hparity, Nat.mul_add] <;> omega
  have hpos : (0 : ℚ) < den := Nat.cast_pos.mpr hden
  have hlow : (2 * num : ℚ) ≤ 2 * (den * roundHalfEven num den) + den := by
    exact_mod_cast hround.1
  have hhigh : (2 * (den * roundHalfEven num den) : ℚ) ≤ 2 * num + den := by
    exact_mod_cast hround.2
  have hdiv : (num / den : ℚ) - roundHalfEven num den =
      (num - den * roundHalfEven num den) / den := by
    field_simp
  rw [hdiv, abs_le, div_le_iff₀ hpos, le_div_iff₀ hpos]
  constructor <;> linarith

end Bytes
