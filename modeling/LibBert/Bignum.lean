import LibBert.Decoder.Refinement
import LibBert.Wire.Encoded

/-!
# Bignums

What the encoder writes for an integer beyond the range of `BERT_INT` is its
sign and the shortest magnitude, and is decoded as that integer.  What the
decoder makes of an arbitrary sign and magnitude is exact below `2 ^ 63`; above,
where no 64-bit integer is meant but for the least, it is never refused.
-/

namespace LibBert

open Reading Bytes

variable {F σ : Type} {R : BertReader σ}

/-! ## Encoding -/

/-- As many bytes as the magnitude has hold it, and fewer do not. -/
theorem lt_pow_iff_magnitudeLength_le {n : ℕ} (hn : n ≠ 0) (m : ℕ) :
    n < 256 ^ m ↔ magnitudeLength n ≤ m := by
  rw [magnitudeLength, Nat.succ_le_iff]
  exact (Nat.log_lt_iff_lt_pow (by decide) hn).symm

theorem getLast_littleEndian {n : ℕ} (hn : n ≠ 0) :
    ∃ byte, (littleEndian (magnitudeLength n) n).getLast? = some byte ∧ byte ≠ 0 := by
  refine ⟨UInt8.ofNat (n / 256 ^ Nat.log 256 n), ?_, fun hzero ↦ ?_⟩
  · rw [littleEndian, magnitudeLength, List.range_succ, List.map_append, List.map_singleton,
      List.getLast?_concat]
  · have hlow := Nat.pow_log_le_self 256 hn
    have hhigh : n < 256 ^ Nat.log 256 n * 256 :=
      Nat.lt_pow_succ_log_self (by decide : 1 < 256) n
    have hdiv : n / 256 ^ Nat.log 256 n < 256 := Nat.div_lt_of_lt_mul hhigh
    have hpos : 0 < n / 256 ^ Nat.log 256 n := Nat.div_pos hlow (Nat.pow_pos (by decide))
    have hvalue := congrArg UInt8.toNat hzero
    rw [UInt8.toNat_ofNat', Nat.mod_eq_of_lt hdiv] at hvalue
    exact absurd hvalue hpos.ne'

/-- Bignum encoding is canonical and invertible: the search for the byte count
ends, the magnitude is the shortest one, and it is decoded as the integer. -/
theorem bignum_canonical {i : Int64} (hi : bertMaxInt < i ∨ i < bertMinInt) :
    ∃ bytes : List UInt8,
      bignumBytes (bertStripSign i).toUInt64 7 = some bytes.length ∧
      (∀ m, i.toInt.natAbs < 256 ^ m ↔ bytes.length ≤ m) ∧
      ofLittleEndian bytes = i.toInt.natAbs ∧
      (∃ byte, bytes.getLast? = some byte ∧ byte ≠ 0) ∧
      (∀ (ω : Type) (e : Encoder ω), bertEncodeBignum i e =
        some (bertEncoderWrite
          (bertSmallBignum :: UInt8.ofNat bytes.length :: (if i < 0 then 1 else 0) :: bytes) e)) ∧
      ∀ (σ : Type) (R : BertReader σ) (s t : σ),
        Delivers R s ([if i < 0 then 1 else 0] :: pieces bytes) t →
          run R (bertDecodeBignum bytes.length : Decode F _) s =
            .done ((bertSuccess, some (.int i)) : Result F) t := by
  have hsmall : ¬ (i ≤ bertMaxInt ∧ bertMinInt ≤ i) := by
    rw [← Int64.not_le, ← Int64.not_le] at hi
    exact fun h ↦ hi.elim (fun hlt ↦ hlt h.1) fun hlt ↦ hlt h.2
  have hzero := Encode.toInt_ne_zero_of_not_small hsmall
  have hmagnitude : i.toInt.natAbs ≠ 0 := Int.natAbs_ne_zero.mpr hzero
  have hvalue : ofLittleEndian (littleEndian (magnitudeLength i.toInt.natAbs) i.toInt.natAbs) =
      i.toInt.natAbs := by
    rw [ofLittleEndian_littleEndian]
    exact Nat.mod_eq_of_lt (lt_pow_magnitudeLength _)
  refine ⟨littleEndian (magnitudeLength i.toInt.natAbs) i.toInt.natAbs, ?_, ?_, hvalue,
    getLast_littleEndian hmagnitude, ?_, ?_⟩
  · rw [length_littleEndian]
    exact (Encode.bertEncodeBignum_eq (ω := Unit) hzero).1
  · rw [length_littleEndian]
    exact lt_pow_iff_magnitudeLength_le hmagnitude
  · intro ω e
    rw [(Encode.bertEncodeBignum_eq hzero).2, length_littleEndian]
    rfl
  · intro σ R s t hdelivers
    have hlength : (littleEndian (magnitudeLength i.toInt.natAbs) i.toInt.natAbs).length ≤ 8 := by
      rw [length_littleEndian]
      exact magnitudeLength_le i
    rw [run_decodeBignum hlength hdelivers, bignumInteger_of_natAbs hlength hvalue]

/-- The least integer, whose negation wraps. -/
theorem bignum_canonical_min :
    ∃ bytes : List UInt8,
      bignumBytes (bertStripSign (-9223372036854775808)).toUInt64 7 = some bytes.length ∧
      (∀ m, (-9223372036854775808 : Int64).toInt.natAbs < 256 ^ m ↔ bytes.length ≤ m) ∧
      ofLittleEndian bytes = (-9223372036854775808 : Int64).toInt.natAbs ∧
      (∃ byte, bytes.getLast? = some byte ∧ byte ≠ 0) ∧
      (∀ (ω : Type) (e : Encoder ω), bertEncodeBignum (-9223372036854775808) e =
        some (bertEncoderWrite
          (bertSmallBignum :: UInt8.ofNat bytes.length ::
            (if (-9223372036854775808 : Int64) < 0 then 1 else 0) :: bytes) e)) ∧
      ∀ (σ : Type) (R : BertReader σ) (s t : σ),
        Delivers R s ([if (-9223372036854775808 : Int64) < 0 then 1 else 0] :: pieces bytes) t →
          run R (bertDecodeBignum bytes.length : Decode Empty _) s =
            .done ((bertSuccess, some (.int (-9223372036854775808))) : Result Empty) t :=
  bignum_canonical (.inr (by decide))

/-! ## Decoding -/

/-- The integer that a sign and a magnitude stand for. -/
def signedMagnitude (sign : UInt8) (magnitude : List UInt8) : ℤ :=
  if sign = 0 then ofLittleEndian magnitude else -(ofLittleEndian magnitude : ℤ)

/-- The outcome of a pull is that integer, an error where 64 bits do not hold it,
or `BERT_ERRNO_BIGNUM` where the magnitude has more than eight bytes. -/
def ExactOrRefused (sign : UInt8) (magnitude : List UInt8) (o : Outcome σ (Result F)) : Prop :=
  if 8 < magnitude.length then ∃ t, o = .done (bertErrnoBignum, none) t
  else if -2 ^ 63 ≤ signedMagnitude sign magnitude ∧ signedMagnitude sign magnitude < 2 ^ 63 then
    ∃ (i : Int64) (t : σ), i.toInt = signedMagnitude sign magnitude ∧
      o = .done (1, some (.int i)) t
  else ∃ code t, code < 0 ∧ o = .done (code, none) t

theorem signedMagnitude_bounds_iff (sign : UInt8) (magnitude : List UInt8) :
    (-2 ^ 63 ≤ signedMagnitude sign magnitude ∧ signedMagnitude sign magnitude < 2 ^ 63) ↔
      ofLittleEndian magnitude < 2 ^ 63 ∨ ofLittleEndian magnitude = 2 ^ 63 ∧ sign ≠ 0 := by
  rw [signedMagnitude]
  split_ifs with hsign
  · simp only [hsign, ne_eq, not_true_eq_false, and_false, or_false]
    omega
  · simp only [hsign, ne_eq, not_false_eq_true, and_true]
    omega

/-- Within 64 bits the decoder computes it. -/
theorem bignumInteger_eq_signedMagnitude {sign : UInt8} {magnitude : List UInt8}
    (hlength : magnitude.length ≤ 8)
    (h : ofLittleEndian magnitude < 2 ^ 63 ∨ ofLittleEndian magnitude = 2 ^ 63 ∧ sign ≠ 0) :
    (bignumInteger sign magnitude).toInt = signedMagnitude sign magnitude := by
  rcases h with hlt | ⟨hvalue, hsign⟩
  · exact bignumInteger_toInt hlength hlt
  · have hmin : bignumInteger 1 magnitude = -9223372036854775808 :=
      bignumInteger_of_natAbs (i := -9223372036854775808) hlength hvalue
    have hsame : bignumInteger sign magnitude = bignumInteger 1 magnitude := by
      simp [bignumInteger, hsign]
    rw [hsame, hmin, signedMagnitude, if_neg hsign, hvalue]
    rfl

theorem run_bertDecoderPull_bignum [Platform F] {large : Bool} {sign : UInt8}
    {magnitude : List UInt8} {s t : σ} (hfits : magnitude.length < if large then 2 ^ 32 else 2 ^ 8)
    (h : Delivers R s (Wire.bignum large sign magnitude).chunks t) (hlong : 8 < magnitude.length)
    (depth : ℕ) :
    ∃ u, run R (bertDecoderPull (depth + 1)) s = .done ((bertErrnoBignum, none) : Result F) u := by
  obtain ⟨u, htag, hbody⟩ := delivers_cons_split.mp h
  obtain ⟨v, hsize, -⟩ := delivers_cons_split.mp hbody
  have hmagic : Wire.bignumTag large ≠ bertMagic := by
    cases large <;> decide
  refine ⟨v, ?_⟩
  have hrefused : run R (bertDecodeBignum magnitude.length) v =
      .done ((bertErrnoBignum, none) : Result F) v := by
    rw [bertDecodeBignum, if_pos hlong, run_pure]
  rw [run_bertDecoderPull_succ, run_pullBody_tag htag hmagic, run_decodeMagic_bignum hfits hsize,
    hrefused]
  rfl

/-- A pull of a bignum is exact or refused just when the magnitude is too long,
below `2 ^ 63`, or that of the least integer: beyond, nothing is refused. -/
theorem bignum_exact_iff [Platform F] {large : Bool} {sign : UInt8} {magnitude : List UInt8}
    {s t : σ} (hfits : magnitude.length < if large then 2 ^ 32 else 2 ^ 8)
    (h : Delivers R s (Wire.bignum large sign magnitude).chunks t) (depth : ℕ) :
    ExactOrRefused sign magnitude (run R (bertDecoderPull (depth + 1) : Decode F _) s) ↔
      8 < magnitude.length ∨ ofLittleEndian magnitude < 2 ^ 63 ∨
        ofLittleEndian magnitude = 2 ^ 63 ∧ sign ≠ 0 := by
  by_cases hlong : 8 < magnitude.length
  · have hrefused := run_bertDecoderPull_bignum (F := F) hfits h hlong depth
    rw [ExactOrRefused, if_pos hlong]
    exact iff_of_true hrefused (.inl hlong)
  · have hlength := Nat.le_of_not_lt hlong
    have hrun : run R (bertDecoderPull (depth + 1)) s =
        .done ((1, some (.int (bignumInteger sign magnitude))) : Result F) t :=
      run_bertDecoderPull_of_delivers (w := .bignum large sign magnitude) (Nat.succ_pos depth)
        (if_pos hlength) h
    rw [ExactOrRefused, if_neg hlong, hrun, or_iff_right hlong, ← signedMagnitude_bounds_iff]
    by_cases hbounds :
        -2 ^ 63 ≤ signedMagnitude sign magnitude ∧ signedMagnitude sign magnitude < 2 ^ 63
    · have hvalue := (signedMagnitude_bounds_iff sign magnitude).mp hbounds
      rw [if_pos hbounds]
      exact iff_of_true ⟨_, t, bignumInteger_eq_signedMagnitude hlength hvalue, rfl⟩ hbounds
    · rw [if_neg hbounds]
      refine iff_of_false ?_ hbounds
      rintro ⟨code, u, hneg, hdone⟩
      cases hdone

/-- The magnitude `2 ^ 63 - 1`. -/
theorem bignum_exact_iff_max :
    ExactOrRefused 0 [255, 255, 255, 255, 255, 255, 255, 127]
        (run plainReader (bertDecoderPull 1 : Decode Empty _)
          [110, 8, 0, 255, 255, 255, 255, 255, 255, 255, 127]) ↔
      8 < [255, 255, 255, 255, 255, 255, 255, 127].length ∨
        ofLittleEndian [255, 255, 255, 255, 255, 255, 255, 127] < 2 ^ 63 ∨
        ofLittleEndian [255, 255, 255, 255, 255, 255, 255, 127] = 2 ^ 63 ∧ (0 : UInt8) ≠ 0 := by
  have hbytes : [110, 8, 0, 255, 255, 255, 255, 255, 255, 255, 127] =
      (Wire.bignum false 0 [255, 255, 255, 255, 255, 255, 255, 127]).bytes ++ [] := by
    rw [Wire.bytes_bignum]
    rfl
  exact bignum_exact_iff (by decide) (plainReader_delivers_iff.mpr hbytes) 0

/-- The magnitude `2 ^ 63` without a sign is decoded as a negative integer. -/
theorem bignum_two_pow_63_not_refused :
    ¬ ∀ (large : Bool) (sign : UInt8) (magnitude rest : List UInt8) (depth : ℕ),
      (magnitude.length < if large then 2 ^ 32 else 2 ^ 8) →
        ExactOrRefused sign magnitude
          (run plainReader (bertDecoderPull (depth + 1) : Decode Empty _)
            ((Wire.bignum large sign magnitude).bytes ++ rest)) := by
  intro h
  have hexact := h false 0 [0, 0, 0, 0, 0, 0, 0, 128] [] 0 (by decide)
  have hrun : run plainReader (bertDecoderPull 1 : Decode Empty _)
      ((Wire.bignum false 0 [0, 0, 0, 0, 0, 0, 0, 128]).bytes ++ []) =
        .done (1, some (.int (-9223372036854775808))) [] := by
    rw [Wire.bytes_bignum]
    rfl
  rw [ExactOrRefused, if_neg (by decide), if_neg (by decide)] at hexact
  obtain ⟨code, t, hneg, hdone⟩ := hexact
  cases hrun.symm.trans hdone

end LibBert
