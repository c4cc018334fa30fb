import Mathlib.Data.Nat.Bitwise
import Mathlib.Tactic.Linarith

/-!
# Arithmetic with a defined result

Negation, sums, products and shifts on integer types of a given width.  There is a
result only where the shift count is smaller than the width and the exact value is one
of the type, and then it is that value.
-/

namespace Defined

/-- `-i` on a signed type of `w` bits. -/
def negate (w : ℕ) (i : ℤ) : Option ℤ := if -i < 2 ^ (w - 1) then some (-i) else none

/-- An exact value on a signed type of `w` bits. -/
def signed (w : ℕ) (i : ℤ) : Option ℤ :=
  if -2 ^ (w - 1) ≤ i ∧ i < 2 ^ (w - 1) then some i else none

/-- `i + j` on a signed type of `w` bits. -/
def add (w : ℕ) (i j : ℤ) : Option ℤ := signed w (i + j)

/-- `i * j` on a signed type of `w` bits. -/
def multiply (w : ℕ) (i j : ℤ) : Option ℤ := signed w (i * j)

/-- `i << n` on a signed type of `w` bits. -/
def shiftLeft (w : ℕ) (i : ℤ) (n : ℕ) : Option ℤ :=
  if n < w ∧ 0 ≤ i ∧ i * 2 ^ n < 2 ^ (w - 1) then some (i * 2 ^ n) else none

/-- `u << n` on an unsigned type of `w` bits. -/
def shiftLeftUnsigned (w u n : ℕ) : Option ℕ :=
  if n < w ∧ u * 2 ^ n < 2 ^ w then some (u * 2 ^ n) else none

/-- `u >> n` on an unsigned type of `w` bits. -/
def shiftRightUnsigned (w u n : ℕ) : Option ℕ := if n < w then some (u / 2 ^ n) else none

theorem negate_of_lt {w : ℕ} {i : ℤ} (h : -i < 2 ^ (w - 1)) : negate w i = some (-i) := if_pos h

theorem negate_of_le {w : ℕ} {i : ℤ} (h : 2 ^ (w - 1) ≤ -i) : negate w i = none :=
  if_neg (not_lt.mpr h)

theorem signed_eq_some_iff {w : ℕ} {i j : ℤ} :
    signed w i = some j ↔ (-2 ^ (w - 1) ≤ i ∧ i < 2 ^ (w - 1)) ∧ i = j := by
  rw [signed, Option.ite_none_right_eq_some, Option.some_inj]

theorem shiftLeft_of_le {w n : ℕ} (h : w ≤ n) (i : ℤ) : shiftLeft w i n = none :=
  if_neg fun hn ↦ absurd hn.1 (Nat.not_lt.mpr h)

/-- A byte that is shifted to the place of a byte of the type keeps its bits. -/
theorem shiftLeftUnsigned_byte {w u k : ℕ} (hk : 8 * (k + 1) ≤ w) (hu : u < 256) :
    shiftLeftUnsigned w u (k * 8) = some (u * 2 ^ (k * 8)) := by
  refine if_pos ⟨by omega, ?_⟩
  calc
    u * 2 ^ (k * 8) < 2 ^ 8 * 2 ^ (k * 8) := Nat.mul_lt_mul_of_pos_right hu (Nat.two_pow_pos _)
    _ = 2 ^ (8 * (k + 1)) := by rw [← Nat.pow_add, Nat.mul_add, Nat.add_comm, Nat.mul_comm]
    _ ≤ 2 ^ w := Nat.pow_le_pow_right (by decide) hk

theorem shiftRightUnsigned_of_lt {w n : ℕ} (h : n < w) (u : ℕ) :
    shiftRightUnsigned w u n = some (u / 2 ^ n) := if_pos h

end Defined
