import LibBert.Bytes.Decimal

/-!
# Formatted numbers

The conversions of numbers that `printf` makes without a field width, and what is read
back from them: the digits of a number end where something else begins.
-/

namespace Bytes

/-! ## Conversions -/

/-- `%u`: the decimal digits, without leading zeros. -/
def unsignedDigits (n : ℕ) : List UInt8 := decimal (Nat.log 10 n + 1) n

/-- `%ld`: the digits, behind a sign where it is negative. -/
def signedDigits (i : ℤ) : List UInt8 :=
  if i < 0 then 45 :: unsignedDigits i.natAbs else unsignedDigits i.natAbs

/-- A hexadecimal digit, in lower case. -/
def hexDigit (n : ℕ) : UInt8 := UInt8.ofNat (if n < 10 then 48 + n else 87 + n)

/-- The lowest `width` hexadecimal digits, the most significant first. -/
def hexadecimal : ℕ → ℕ → List UInt8
  | 0, _ => []
  | width + 1, n => hexDigit (n / 16 ^ width % 16) :: hexadecimal width n

/-- `%.2x`: the hexadecimal digits, at least two. -/
def hexDigits (n : ℕ) : List UInt8 := hexadecimal (max 2 (Nat.log 16 n + 1)) n

example : unsignedDigits 1234567 = [49, 50, 51, 52, 53, 54, 55] := by decide

example : hexDigits 10 = [48, 97] := by decide

/-- What holds of the numbers below 256 holds of every byte. -/
theorem forall_byte {p : UInt8 → Prop} (h : ∀ n < 256, p (UInt8.ofNat n)) (c : UInt8) : p c := by
  have hc := h c.toNat c.toNat_lt
  rwa [UInt8.ofNat_toNat] at hc

/-! ## Decimal digits -/

theorem unsignedDigits_ne_nil (n : ℕ) : unsignedDigits n ≠ [] := by
  rw [unsignedDigits, decimal]
  exact List.cons_ne_nil _ _

theorem digit_of_mem_unsignedDigits {n : ℕ} {c : UInt8} (h : c ∈ unsignedDigits n) :
    48 ≤ c.toNat ∧ c.toNat < 58 := digit_of_mem_decimal h

theorem unsignedDigits_inj {m n : ℕ} : unsignedDigits m = unsignedDigits n ↔ m = n := by
  refine ⟨fun h ↦ ?_, congrArg _⟩
  have hwidth : Nat.log 10 m + 1 = Nat.log 10 n + 1 := by
    have hlength := congrArg List.length h
    rwa [unsignedDigits, unsignedDigits, length_decimal, length_decimal] at hlength
  have hm : m < 10 ^ (Nat.log 10 m + 1) := Nat.lt_pow_succ_log_self (by decide) m
  have hn : n < 10 ^ (Nat.log 10 m + 1) := hwidth ▸ Nat.lt_pow_succ_log_self (by decide) n
  rw [unsignedDigits, unsignedDigits, ← hwidth] at h
  exact (decimal_injOn hm hn).mp h

/-- A sign or a digit. -/
theorem signed_of_mem_signedDigits {i : ℤ} {c : UInt8} (h : c ∈ signedDigits i) :
    c = 45 ∨ 48 ≤ c.toNat ∧ c.toNat < 58 := by
  rw [signedDigits] at h
  split_ifs at h
  · exact (List.mem_cons.mp h).imp_right digit_of_mem_unsignedDigits
  · exact .inr (digit_of_mem_unsignedDigits h)

theorem signedDigits_ne_nil (i : ℤ) : signedDigits i ≠ [] := by
  rw [signedDigits]
  split_ifs
  · exact List.cons_ne_nil _ _
  · exact unsignedDigits_ne_nil _

/-- The sign is no digit. -/
theorem cons_sign_ne_unsignedDigits (ds : List UInt8) (n : ℕ) : 45 :: ds ≠ unsignedDigits n := by
  intro h
  have hmem : (45 : UInt8) ∈ unsignedDigits n := h ▸ List.mem_cons_self
  exact absurd (digit_of_mem_unsignedDigits hmem).1 (by decide)

theorem signedDigits_inj {i j : ℤ} : signedDigits i = signedDigits j ↔ i = j := by
  refine ⟨fun h ↦ ?_, congrArg _⟩
  rw [signedDigits, signedDigits] at h
  split_ifs at h with hi hj hj
  · have habs := unsignedDigits_inj.mp (List.cons.inj h).2
    omega
  · exact absurd h (cons_sign_ne_unsignedDigits _ _)
  · exact absurd h.symm (cons_sign_ne_unsignedDigits _ _)
  · have habs := unsignedDigits_inj.mp h
    omega

end Bytes
