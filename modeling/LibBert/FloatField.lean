import LibBert.Bytes.Decimal
import LibBert.Encoder.Encoding
import Mathlib.Tactic.Positivity

/-!
# The text of a float

`bert_encode_float` writes a number as text with fifteen decimals, cut to thirty
characters.  What two numbers have in common when their texts do is said of the
numbers: they agree in sign and in the digits that the field has room for.
-/

namespace LibBert

open Bytes

/-! ## Doubles and their text -/

/-- A finite `double`: the number `mantissa * 2 ^ exponent` with a sign bit. -/
structure FiniteDouble : Type where
  negative : Bool
  mantissa : ℕ
  exponent : ℤ
  mantissa_lt : mantissa < 2 ^ 53
  exponent_ge : -1074 ≤ exponent
  exponent_le : exponent ≤ 971

namespace FiniteDouble

variable (x y : FiniteDouble)

def magnitude : ℚ := x.mantissa * 2 ^ x.exponent

def value : ℚ := if x.negative then -x.magnitude else x.magnitude

/-- The magnitude in units of the fifteenth decimal, correctly rounded. -/
def units : ℕ :=
  roundHalfEven (x.mantissa * 10 ^ 15 * 2 ^ x.exponent.toNat) (2 ^ (-x.exponent).toNat)

def integerDigits : ℕ := Nat.log 10 (x.units / 10 ^ 15) + 1

/-- The digits of the text, around its point. -/
def digits : List UInt8 :=
  decimal x.integerDigits (x.units / 10 ^ 15) ++ 46 :: decimal 15 x.units

def sign : List UInt8 := if x.negative then [45] else []

/-- `snprintf` with `"%15.15f"`, where nothing is cut. -/
def text : List UInt8 :=
  List.replicate (15 - (x.sign ++ x.digits).length) 32 ++ (x.sign ++ x.digits)

-- the number of `test_encode_float.c`
example : text ⟨false, 7737125245533627, -87, by decide, by decide, by decide⟩ =
    cString "0.000000000050000" := by decide

/-- The platform that writes doubles as their text. -/
abbrev platform (sscanf : List UInt8 → Option FiniteDouble)
    (unionInteger : Data FiniteDouble → Int64) : Platform FiniteDouble where
  sscanf := sscanf
  snprintf := text
  unionInteger := unionInteger

/-! ## What the field shows -/

/-- The characters left for the digits. -/
def room : ℕ := if x.negative then 29 else 30

/-- The decimals shown behind the point. -/
def decimals : ℕ := min 15 (x.room - x.integerDigits - 1)

/-- The place of the point and the number made of the digits shown; where the point is
cut off, the leading digits only. -/
def shown : Option ℕ × ℕ :=
  if x.integerDigits < x.room then (some x.integerDigits, x.units / 10 ^ (15 - x.decimals))
  else (none, x.units / 10 ^ 15 / 10 ^ (x.integerDigits - x.room))

variable {x y}

theorem integer_lt : x.units / 10 ^ 15 < 10 ^ x.integerDigits :=
  Nat.lt_pow_succ_log_self (by decide) _

theorem integer_of_shown :
    x.units / 10 ^ (15 - x.decimals) / 10 ^ x.decimals = x.units / 10 ^ 15 := by
  have hle : x.decimals ≤ 15 := Nat.min_le_left _ _
  rw [Nat.div_div_eq_div_mul, ← Nat.pow_add, Nat.sub_add_cancel hle]

theorem take_digits_of_lt (h : x.integerDigits < x.room) :
    x.digits.take x.room = decimal x.integerDigits (x.units / 10 ^ 15) ++
      46 :: decimal x.decimals (x.units / 10 ^ (15 - x.decimals)) := by
  obtain ⟨k, hk⟩ : ∃ k, x.room - x.integerDigits = k + 1 :=
    ⟨x.room - x.integerDigits - 1, by omega⟩
  have hdecimals : x.decimals = min 15 k := by rw [decimals, hk, Nat.add_sub_cancel]
  rw [digits, List.take_append, length_decimal, hk, List.take_succ_cons,
    List.take_of_length_le (by rw [length_decimal]; exact h.le), hdecimals]
  by_cases hle : k ≤ 15
  · have hsplit := take_decimal k (15 - k) x.units
    rw [Nat.add_sub_cancel' hle] at hsplit
    rw [hsplit, Nat.min_eq_right hle]
  · rw [Nat.min_eq_left (by omega), List.take_of_length_le (by rw [length_decimal]; omega)]
    simp

theorem take_digits_of_le (h : x.room ≤ x.integerDigits) :
    x.digits.take x.room =
      decimal x.room (x.units / 10 ^ 15 / 10 ^ (x.integerDigits - x.room)) := by
  have hsplit := take_decimal x.room (x.integerDigits - x.room) (x.units / 10 ^ 15)
  rw [Nat.add_sub_cancel' h] at hsplit
  rw [digits, List.take_append_of_le_length (by rwa [length_decimal]), hsplit]

theorem point_notMem_decimal (width n : ℕ) : 46 ∉ decimal width n := by
  intro h
  exact absurd (digit_of_mem_decimal h).1 (by decide)

/-- Two texts with a point have it in the same place. -/
theorem eq_of_point {a b a' b' m n m' n' : ℕ}
    (h : decimal a m ++ 46 :: decimal b n = decimal a' m' ++ 46 :: decimal b' n') :
    a = a' ∧ decimal a m = decimal a' m' ∧ decimal b n = decimal b' n' := by
  have hfront (width k : ℕ) (rest : List UInt8) :
      (decimal width k ++ 46 :: rest).takeWhile (· ≠ 46) = decimal width k := by
    have hdigits : ∀ c ∈ decimal width k, decide (c ≠ 46) = true := fun c hc ↦
      decide_eq_true fun hpoint ↦ point_notMem_decimal width k (hpoint ▸ hc)
    rw [List.takeWhile_append_of_pos hdigits]
    simp
  have hsame := congrArg (List.takeWhile (· ≠ 46)) h
  rw [hfront, hfront] at hsame
  rw [hsame, List.append_cancel_left_eq, List.cons.injEq] at h
  refine ⟨?_, hsame, h.2⟩
  simpa using congrArg List.length hsame

theorem point_mem_take (h : x.integerDigits < x.room) : 46 ∈ x.digits.take x.room := by
  rw [take_digits_of_lt h]
  exact List.mem_append_right _ List.mem_cons_self

theorem point_notMem_take (h : x.room ≤ x.integerDigits) : 46 ∉ x.digits.take x.room := by
  rw [take_digits_of_le h]
  exact point_notMem_decimal _ _

theorem decimals_eq (hroom : x.room = y.room) (hplace : x.integerDigits = y.integerDigits) :
    x.decimals = y.decimals := by
  rw [decimals, decimals, hroom, hplace]

theorem shown_lt_of_lt (x : FiniteDouble) :
    x.units / 10 ^ (15 - x.decimals) < 10 ^ (x.integerDigits + x.decimals) := by
  have hinteger := x.integer_lt
  rwa [← x.integer_of_shown, Nat.div_lt_iff_lt_mul (Nat.pow_pos (by decide)),
    ← Nat.pow_add] at hinteger

theorem shown_lt_of_le (h : x.room ≤ x.integerDigits) :
    x.units / 10 ^ 15 / 10 ^ (x.integerDigits - x.room) < 10 ^ x.room := by
  rw [Nat.div_lt_iff_lt_mul (Nat.pow_pos (by decide)), ← Nat.pow_add, Nat.add_sub_cancel' h]
  exact x.integer_lt

/-- The digits on both sides of the point, read as one number. -/
theorem take_digits_eq_iff_of_lt (hroom : x.room = y.room) (hx : x.integerDigits < x.room)
    (hy : y.integerDigits < y.room) :
    x.digits.take x.room = y.digits.take y.room ↔ x.integerDigits = y.integerDigits ∧
      x.units / 10 ^ (15 - x.decimals) = y.units / 10 ^ (15 - y.decimals) := by
  rw [take_digits_of_lt hx, take_digits_of_lt hy]
  constructor
  · intro h
    obtain ⟨hplace, hinteger, hrest⟩ := eq_of_point h
    have hdecimals := decimals_eq hroom hplace
    have hlty := y.shown_lt_of_lt
    rw [← hplace, ← hdecimals] at hlty
    refine ⟨hplace, ?_⟩
    rw [← hdecimals] at hrest ⊢
    apply (decimal_injOn x.shown_lt_of_lt hlty).mp
    have hy_integer := y.integer_of_shown
    rw [← hdecimals] at hy_integer
    rw [decimal_add, decimal_add, x.integer_of_shown, hy_integer, hinteger, hrest, hplace]
  · rintro ⟨hplace, hshown⟩
    rw [← x.integer_of_shown, ← y.integer_of_shown, hshown, hplace, decimals_eq hroom hplace]

/-- The texts are cut to the same digits exactly when the numbers show the same. -/
theorem take_digits_eq_iff (hroom : x.room = y.room) :
    x.digits.take x.room = y.digits.take y.room ↔ x.shown = y.shown := by
  rw [shown, shown]
  by_cases hx : x.integerDigits < x.room <;> by_cases hy : y.integerDigits < y.room
  · rw [if_pos hx, if_pos hy, Prod.mk.injEq, Option.some.injEq]
    exact take_digits_eq_iff_of_lt hroom hx hy
  · -- only the first text has a point
    rw [if_pos hx, if_neg hy]
    apply iff_of_false
    · intro h
      exact point_notMem_take (Nat.le_of_not_lt hy) (h ▸ point_mem_take hx)
    · simp
  · rw [if_neg hx, if_pos hy]
    apply iff_of_false
    · intro h
      exact point_notMem_take (Nat.le_of_not_lt hx) (h ▸ point_mem_take hy)
    · simp
  · have hcutx := Nat.le_of_not_lt hx
    have hcuty := Nat.le_of_not_lt hy
    have hltx := shown_lt_of_le hcutx
    rw [if_neg hx, if_neg hy, take_digits_of_le hcutx, take_digits_of_le hcuty, Prod.mk.injEq]
    rw [hroom] at hltx ⊢
    rw [decimal_injOn hltx (shown_lt_of_le hcuty)]
    exact (and_iff_right rfl).symm

/-! ## The field -/

theorem digits_chars {c : UInt8} (h : c ∈ x.digits) : c = 46 ∨ 48 ≤ c.toNat := by
  rw [digits, List.mem_append, List.mem_cons] at h
  rcases h with h | rfl | h
  · exact .inr (digit_of_mem_decimal h).1
  · exact .inl rfl
  · exact .inr (digit_of_mem_decimal h).1

theorem text_eq (x : FiniteDouble) : x.text = x.sign ++ x.digits := by
  have hlength : 15 - (x.sign ++ x.digits).length = 0 := by
    simp only [digits, List.length_append, List.length_cons, length_decimal]
    omega
  rw [text, hlength, List.replicate_zero, List.nil_append]

/-- Behind the sign the digits are cut to the room that is left. -/
theorem take_text (x : FiniteDouble) : x.text.take 30 = x.sign ++ x.digits.take x.room := by
  have hcut (negative : Bool) (digits : List UInt8) :
      ((if negative then [45] else []) ++ digits).take 30 =
        (if negative then [45] else []) ++ digits.take (if negative then 29 else 30) := by
    cases negative <;> rfl
  rw [text_eq, sign, room, hcut]

theorem take_text_eq_iff :
    x.text.take 30 = y.text.take 30 ↔ x.negative = y.negative ∧ x.shown = y.shown := by
  have hminus {z z' : FiniteDouble} (hz : z.negative = true) (hz' : z'.negative = false) :
      z.text.take 30 ≠ z'.text.take 30 := by
    intro h
    rw [take_text, take_text, sign, sign, hz, hz'] at h
    have hmem : (45 : UInt8) ∈ z'.digits.take z'.room := by
      rw [← show _ = z'.digits.take z'.room from h]
      exact List.mem_cons_self
    exact absurd (digits_chars (List.mem_of_mem_take hmem)) (by decide)
  by_cases hsame : x.negative = y.negative
  · have hroom : x.room = y.room := by rw [room, room, hsame]
    have hsign : x.sign = y.sign := by rw [sign, sign, hsame]
    rw [take_text, take_text, hsign, List.append_cancel_left_eq, take_digits_eq_iff hroom]
    exact (and_iff_right hsame).symm
  · refine iff_of_false ?_ fun h ↦ hsame h.1
    cases hx : x.negative <;> cases hy : y.negative <;> rw [hx, hy] at hsame
    · exact absurd rfl hsame
    · exact (hminus hy hx).symm
    · exact hminus hx hy
    · exact absurd rfl hsame

theorem text_nonzero {c : UInt8} (h : c ∈ x.text.take 30) : c ≠ 0 := by
  rintro rfl
  rw [take_text, List.mem_append] at h
  rcases h with h | h
  · rw [sign] at h
    split_ifs at h <;> simp at h
  · exact absurd (digits_chars (List.mem_of_mem_take h)) (by decide)

/-- The zero bytes behind a text without any do not hide where it ends. -/
theorem takeWhile_padded {chars : List UInt8} (hlength : chars.length ≤ 31)
    (hnonzero : ∀ c ∈ chars, c ≠ 0) :
    ((chars ++ List.replicate 31 0).take 31).takeWhile (· ≠ 0) = chars := by
  have hchars : ∀ c ∈ chars, decide (c ≠ 0) = true := fun c hc ↦ decide_eq_true (hnonzero c hc)
  rw [List.take_append, List.take_of_length_le hlength, List.takeWhile_append_of_pos hchars,
    List.take_replicate, List.takeWhile_replicate]
  simp

theorem floatField_eq_iff (sscanf : List UInt8 → Option FiniteDouble)
    (unionInteger : Data FiniteDouble → Int64) :
    letI := platform sscanf unionInteger
    floatField x = floatField y ↔ x.negative = y.negative ∧ x.shown = y.shown := by
  rw [← take_text_eq_iff]
  unfold floatField
  rw [List.cons.injEq]
  constructor
  · rintro ⟨-, h⟩
    have htext := congrArg (List.takeWhile (· ≠ 0)) h
    have hlength (z : FiniteDouble) : (z.text.take 30).length ≤ 31 :=
      (List.length_take_le 30 z.text).trans (by decide)
    change (((x.text.take 30) ++ List.replicate 31 0).take 31).takeWhile (· ≠ 0) =
      (((y.text.take 30) ++ List.replicate 31 0).take 31).takeWhile (· ≠ 0) at htext
    rwa [takeWhile_padded (hlength x) fun _ ↦ text_nonzero,
      takeWhile_padded (hlength y) fun _ ↦ text_nonzero] at htext
  · intro h
    exact ⟨rfl, congrArg (fun t ↦ (t ++ List.replicate 31 0).take 31) h⟩

/-! ## Distances -/

theorem two_zpow (e : ℤ) : (2 : ℚ) ^ e = 2 ^ e.toNat / 2 ^ (-e).toNat := by
  rcases le_total 0 e with h | h
  · lift e to ℕ using h
    simp
  · obtain ⟨n, rfl⟩ : ∃ n : ℕ, e = -n := ⟨(-e).toNat, by omega⟩
    simp

/-- The units are at most a half away from the magnitude. -/
theorem abs_magnitude_sub_units (x : FiniteDouble) :
    |x.magnitude * 10 ^ 15 - x.units| ≤ 1 / 2 := by
  have hround := abs_sub_roundHalfEven (x.mantissa * 10 ^ 15 * 2 ^ x.exponent.toNat)
    (Nat.pow_pos (by decide) : 0 < 2 ^ (-x.exponent).toNat)
  have hmagnitude : x.magnitude * 10 ^ 15 =
      ((x.mantissa * 10 ^ 15 * 2 ^ x.exponent.toNat : ℕ) : ℚ) /
        ((2 ^ (-x.exponent).toNat : ℕ) : ℚ) := by
    rw [magnitude, two_zpow]
    push_cast
    ring
  rw [hmagnitude]
  exact hround

/-- Magnitudes whose units lie in one interval of `kept` are at most as far apart. -/
theorem abs_magnitude_sub_le {kept : ℕ} (hkept : 0 < kept)
    (hunits : x.units / kept = y.units / kept) :
    |x.magnitude - y.magnitude| * 10 ^ 15 ≤ kept := by
  have hx := abs_le.mp x.abs_magnitude_sub_units
  have hy := abs_le.mp y.abs_magnitude_sub_units
  have hxy := abs_le.mp (abs_sub_le_of_div_eq hkept hunits)
  have hpos : (0 : ℚ) < 10 ^ 15 := by positivity
  rw [← abs_of_pos hpos, ← abs_mul, abs_le]
  constructor <;> linarith

theorem abs_value_sub_eq (hsign : x.negative = y.negative) :
    |x.value - y.value| = |x.magnitude - y.magnitude| := by
  rw [value, value, hsign]
  split_ifs
  · rw [neg_sub_neg, abs_sub_comm]
  · rfl

/-- Numbers that show the same digits behind a point are at most one unit of the last
decimal shown apart. -/
theorem abs_value_sub_le (hsign : x.negative = y.negative) (hshown : x.shown = y.shown)
    (hpoint : x.integerDigits < x.room) : |x.value - y.value| ≤ 1 / 10 ^ x.decimals := by
  have hroom : x.room = y.room := by rw [room, room, hsign]
  rw [shown, shown, if_pos hpoint] at hshown
  split_ifs at hshown with hy
  · rw [Prod.mk.injEq, Option.some.injEq] at hshown
    obtain ⟨hplace, hkept⟩ := hshown
    rw [← decimals_eq hroom hplace] at hkept
    have hmagnitudes := abs_magnitude_sub_le (Nat.pow_pos (by decide)) hkept
    have hsplit : (10 : ℚ) ^ 15 = 10 ^ (15 - x.decimals) * 10 ^ x.decimals := by
      have hle : x.decimals ≤ 15 := Nat.min_le_left _ _
      rw [← pow_add, Nat.sub_add_cancel hle]
    have hpos : (0 : ℚ) < 10 ^ (15 - x.decimals) := by positivity
    rw [abs_value_sub_eq hsign, le_div_iff₀ (by positivity)]
    rw [hsplit, Nat.cast_pow, ← mul_assoc, mul_right_comm] at hmagnitudes
    exact (mul_le_iff_le_one_left hpos).mp hmagnitudes
  · cases (Prod.mk.inj hshown).1

theorem shown_of_units (hsign : x.negative = y.negative) (hunits : x.units = y.units) :
    x.shown = y.shown := by
  rw [shown, shown, decimals, decimals, integerDigits, integerDigits, room, room, hunits, hsign]

end FiniteDouble

/-- Two finite doubles are written as the same field exactly when they agree in sign
and in what the field shows of them.  Where the first has room for its point, numbers
further apart than one unit of the last decimal shown are told apart. -/
theorem float_field_eq_iff (sscanf : List UInt8 → Option FiniteDouble)
    (unionInteger : Data FiniteDouble → Int64) (x y : FiniteDouble) :
    letI := FiniteDouble.platform sscanf unionInteger
    (∀ (ω : Type) (z : FiniteDouble), (bertEncodeFloat z : Encode ω) = .write (floatField z)) ∧
      (floatField x = floatField y ↔ x.negative = y.negative ∧ x.shown = y.shown) ∧
      (x.integerDigits < x.room → 1 / 10 ^ x.decimals < |x.value - y.value| →
        floatField x ≠ floatField y) := by
  refine ⟨fun _ _ ↦ rfl, FiniteDouble.floatField_eq_iff sscanf unionInteger, ?_⟩
  intro hpoint hapart hsame
  obtain ⟨hsign, hshown⟩ := (FiniteDouble.floatField_eq_iff sscanf unionInteger).mp hsame
  exact absurd (FiniteDouble.abs_value_sub_le hsign hshown hpoint) (not_le.mpr hapart)

theorem float_field_eq_iff_halves :
    letI := FiniteDouble.platform (fun _ ↦ none) (fun _ ↦ 0)
    floatField (⟨false, 1, -1, by decide, by decide, by decide⟩ : FiniteDouble) ≠
      floatField (⟨false, 1, -2, by decide, by decide, by decide⟩ : FiniteDouble) := by
  apply (float_field_eq_iff (fun _ ↦ none) (fun _ ↦ 0) _ _).2.2
  · decide
  · rw [show FiniteDouble.decimals _ = 15 by decide]
    norm_num [FiniteDouble.value, FiniteDouble.magnitude]

/-- The numbers `2 ^ -60` and `2 ^ -61` are both written as zero. -/
theorem small_floats_share_field :
    ¬ ∀ (sscanf : List UInt8 → Option FiniteDouble) (unionInteger : Data FiniteDouble → Int64)
      (x y : FiniteDouble), x.value ≠ y.value →
        letI := FiniteDouble.platform sscanf unionInteger
        floatField x ≠ floatField y := by
  intro h
  have hvalues : FiniteDouble.value ⟨false, 1, -60, by decide, by decide, by decide⟩ ≠
      FiniteDouble.value ⟨false, 1, -61, by decide, by decide, by decide⟩ := by
    norm_num [FiniteDouble.value, FiniteDouble.magnitude]
  refine h (fun _ ↦ none) (fun _ ↦ 0) _ _ hvalues ?_
  exact (FiniteDouble.floatField_eq_iff _ _).mpr ⟨rfl, FiniteDouble.shown_of_units rfl (by decide)⟩

end LibBert
