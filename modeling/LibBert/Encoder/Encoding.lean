import LibBert.Encoder.Encode
import Mathlib.Data.Nat.Log

/-!
# What a push writes

The encoding of a term as the sequence of byte strings that are handed to
`bert_encoder_write`, stated in terms of the format.  A push of an encodable
term is that sequence of writes, given up at the first that fails.
-/

namespace LibBert

open Bytes

variable {F ω : Type}

/-! ## The ideal encoding -/

def intBytes (n : ℕ) : List UInt8 :=
  if n ≤ 255 then [bertSmallInt, UInt8.ofNat n] else bertInt :: bigEndian 4 n

/-- The least number of bytes that hold a positive magnitude. -/
def magnitudeLength (n : ℕ) : ℕ := Nat.log 256 n + 1

def bignumField (i : Int64) : List UInt8 :=
  let n := magnitudeLength i.toInt.natAbs
  bertSmallBignum :: UInt8.ofNat n :: (if i < 0 then 1 else 0) :: littleEndian n i.toInt.natAbs

def floatField [Platform F] (d : F) : List UInt8 :=
  bertFloat :: ((Platform.snprintf d).take 30 ++ List.replicate 31 0).take 31

def atomField (name : List UInt8) : List UInt8 := bertAtom :: bigEndian 2 name.length ++ name

def stringField (text : List UInt8) : List UInt8 := bertString :: bigEndian 4 text.length ++ text

def binField (data : List UInt8) : List UInt8 := bertBin :: bigEndian 4 data.length ++ data

def tupleHeader (n : ℕ) : List UInt8 :=
  if n ≤ 255 then [bertSmallTuple, UInt8.ofNat n] else bertLargeTuple :: bigEndian 4 n

def listHeader (n : ℕ) : List UInt8 := bertList :: bigEndian 4 n

def complexHeader (name : List UInt8) (n : ℕ) : List (List UInt8) :=
  [tupleHeader (n + 2), atomField (cString "bert"), atomField name]

/-- The low 32 bits, which is what `bert_encode_int` gets of an `int64_t`. -/
def low32 (i : Int64) : ℕ := (i.toInt % 2 ^ 32).toNat

mutual

/-- The writes of a term, without the magic byte. -/
def writes [Platform F] : Data F → List (List UInt8)
  | .none => []
  | .nil => complexHeader (cString "nil") 0
  | .boolean boolean => complexHeader (if boolean = 1 then cString "true" else cString "false") 0
  | .int i => [if i ≤ bertMaxInt ∧ bertMinInt ≤ i then intBytes (low32 i) else bignumField i]
  | .float d => [floatField d]
  | .atom name => [atomField name]
  | .string text => [stringField text]
  | .bin data => [binField data]
  | .tuple elements => tupleHeader elements.length :: writesSlots elements
  | .list entries => listHeader entries.length :: writesList entries
  | .dict entries =>
      complexHeader (cString "dict") 1 ++ listHeader entries.length :: writesPairs entries
  | .time time =>
      complexHeader (cString "time") 3 ++
        [intBytes (low32 (time / 1000000)), intBytes (low32 (time % 1000000)), intBytes 0]
  | .regex source options =>
      complexHeader (cString "regex") 2 ++ binField source ::
        listHeader ((regexBits options).countP (· ≠ 0)) ::
          ((regexBits options).filterMap bertRegexOptname).map atomField

def writesSlots [Platform F] : List (Option (Data F)) → List (List UInt8)
  | [] => []
  | none :: rest => writesSlots rest
  | some d :: rest => writes d ++ writesSlots rest

def writesList [Platform F] : List (Data F) → List (List UInt8)
  | [] => []
  | d :: rest => writes d ++ writesList rest

def writesPairs [Platform F] : List (Option (Data F) × Option (Data F)) → List (List UInt8)
  | [] => []
  | (some key, some value) :: rest =>
      tupleHeader 2 :: (writes key ++ (writes value ++ writesPairs rest))
  | _ :: rest => writesPairs rest

end

/-- The bytes of a term behind the magic byte. -/
def encoding [Platform F] (d : Data F) : List UInt8 := (writes d).flatten

mutual

/-- No pointer below the term is `NULL`, no boolean is other than 0 or 1 and no
tuple is longer than its length field can say. -/
def Encodable : Data F → Prop
  | .none => False
  | .boolean boolean => boolean = 0 ∨ boolean = 1
  | .tuple elements => elements.length < 2 ^ 32 ∧ EncodableSlots elements
  | .list entries => EncodableList entries
  | .dict entries => EncodablePairs entries
  | _ => True

def EncodableSlots : List (Option (Data F)) → Prop
  | [] => True
  | none :: _ => False
  | some d :: rest => Encodable d ∧ EncodableSlots rest

def EncodableList : List (Data F) → Prop
  | [] => True
  | d :: rest => Encodable d ∧ EncodableList rest

def EncodablePairs : List (Option (Data F) × Option (Data F)) → Prop
  | [] => True
  | (some key, some value) :: rest => Encodable key ∧ Encodable value ∧ EncodablePairs rest
  | _ :: _ => False

end

/-! ## The fields -/

theorem bertWriteUint32_ofNat (n : ℕ) : bertWriteUint32 (UInt32.ofNat n) = bigEndian 4 n := by
  rw [bertWriteUint32_eq, UInt32.toNat_ofNat']
  exact bigEndian_mod 4 n

theorem bertWriteUint16_ofNat (n : ℕ) : bertWriteUint16 (UInt16.ofNat n) = bigEndian 2 n := by
  rw [bertWriteUint16_eq, UInt16.toNat_ofNat']
  exact bigEndian_mod 2 n

theorem low32_eq (i : Int64) : i.toUInt64.toUInt32.toNat = low32 i := by
  have h := toUInt64_toNat i
  rw [low32, UInt64.toNat_toUInt32]
  omega

theorem low32_lt (i : Int64) : low32 i < 2 ^ 32 := by
  rw [low32]
  omega

theorem small_iff (i : Int64) :
    (i ≤ bertMaxInt ∧ bertMinInt ≤ i) ↔ -2 ^ 27 ≤ i.toInt ∧ i.toInt < 2 ^ 27 := by
  rw [Int64.le_iff_toInt_le, Int64.le_iff_toInt_le]
  change i.toInt ≤ 134217727 ∧ -134217728 ≤ i.toInt ↔ _
  omega

theorem length_intBytes (n : ℕ) : (intBytes n).length = if n ≤ 255 then 2 else 5 := by
  unfold intBytes
  split_ifs <;> simp

theorem length_tupleHeader (n : ℕ) : (tupleHeader n).length = if n ≤ 255 then 2 else 5 := by
  unfold tupleHeader
  split_ifs <;> simp

theorem length_atomField (name : List UInt8) : (atomField name).length = 3 + name.length := by
  simp only [atomField, List.cons_append, List.length_cons, List.length_append, length_bigEndian]
  omega

theorem lt_pow_magnitudeLength (n : ℕ) : n < 256 ^ magnitudeLength n :=
  Nat.lt_pow_succ_log_self (by decide) n

theorem magnitudeLength_le (i : Int64) : magnitudeLength i.toInt.natAbs ≤ 8 := by
  have hi := toInt_bounds i
  rcases Nat.eq_zero_or_pos i.toInt.natAbs with hzero | hpos
  · simp [magnitudeLength, hzero]
  · exact Nat.log_lt_of_lt_pow (by omega) (by omega)

theorem length_bignumField (i : Int64) :
    (bignumField i).length = 3 + magnitudeLength i.toInt.natAbs := by
  simp only [bignumField, List.length_cons, length_littleEndian]
  omega

theorem length_floatField [Platform F] (d : F) : (floatField d).length = 32 := by
  simp only [floatField, List.length_cons, List.length_take, List.length_append,
    List.length_replicate]
  omega

theorem encoding_int [Platform F] (i : Int64) :
    encoding (.int i : Data F) =
      if i ≤ bertMaxInt ∧ bertMinInt ≤ i then intBytes (low32 i) else bignumField i := by
  rw [encoding, writes, List.flatten_singleton]

theorem writesSlots_map_some [Platform F] (ds : List (Data F)) :
    writesSlots (ds.map some) = writesList ds := by
  induction ds with
  | nil => rfl
  | cons d ds ih => rw [List.map_cons, writesSlots, writesList, ih]

/-! ## The options of a regular expression -/

/-- The names of the options that are written. -/
def optionNames (options : UInt32) : List (List UInt8) :=
  (regexBits options).filterMap bertRegexOptname

theorem options_toNat {options : UInt32} (h : options < 16) : ∃ n : Fin 16,
    options = UInt32.ofNat n :=
  ⟨⟨options.toNat, h⟩, UInt32.ofNat_toNat.symm⟩

/-- The loops see the four lowest bits of the options. -/
theorem exists_regexBits_eq (options : UInt32) :
    ∃ n : Fin 16, regexBits options = regexBits (UInt32.ofNat n) := by
  have hlow : options &&& 15 < 16 := by
    rw [UInt32.lt_iff_toNat_lt, UInt32.toNat_and]
    exact Nat.lt_of_le_of_lt Nat.and_le_right (by decide)
  obtain ⟨n, hn⟩ := options_toNat hlow
  refine ⟨n, ?_⟩
  rw [← hn]
  apply List.map_congr_left
  intro i hi
  have hmask : ∀ i ∈ List.range 4,
      (15 : UInt32) &&& 1 <<< UInt32.ofNat i = 1 <<< UInt32.ofNat i := by
    decide
  rw [UInt32.and_assoc, hmask i hi]

/-- Each of the bits has a name, so as many names are written as are announced. -/
theorem countP_regexBits (options : UInt32) :
    (regexBits options).countP (· ≠ 0) = (optionNames options).length := by
  obtain ⟨n, hn⟩ := exists_regexBits_eq options
  have hall : ∀ n : Fin 16, (regexBits (UInt32.ofNat n)).countP (· ≠ 0) =
      ((regexBits (UInt32.ofNat n)).filterMap bertRegexOptname).length := by decide
  rw [optionNames, hn, hall]

theorem optionNames_fit (options : UInt32) :
    (optionNames options).length < 2 ^ 32 ∧ ∀ name ∈ optionNames options, name.length < 2 ^ 16 := by
  obtain ⟨n, hn⟩ := exists_regexBits_eq options
  have hall : ∀ n : Fin 16, (optionNames (UInt32.ofNat n)).length < 2 ^ 32 ∧
      ∀ name ∈ optionNames (UInt32.ofNat n), name.length < 2 ^ 16 := by decide
  rw [show optionNames options = optionNames (UInt32.ofNat n) by rw [optionNames, hn]; rfl]
  exact hall n

namespace Encode

/-- The writes one after the other, up to the first that fails. -/
def writeAll : List (List UInt8) → Encode ω
  | [] => .done bertSuccess
  | data :: rest => (Encode.write data).andThen (writeAll rest)

theorem andThen_assoc (f g h : Encode ω) :
    (f.andThen g).andThen h = f.andThen (g.andThen h) := by
  funext e
  simp only [andThen]
  rcases f e with _ | ⟨result, e'⟩
  · rfl
  · dsimp only
    split_ifs with hresult <;> simp [hresult]

@[simp] theorem done_andThen (f : Encode ω) : (Encode.done bertSuccess).andThen f = f := by
  funext e
  simp [andThen, done]

@[simp] theorem andThen_done (f : Encode ω) : f.andThen (.done bertSuccess) = f := by
  funext e
  simp only [andThen, done]
  rcases f e with _ | ⟨result, e'⟩
  · rfl
  · dsimp only
    split_ifs with hresult
    · rfl
    · rw [not_not.mp hresult]

theorem writeAll_append (xs ys : List (List UInt8)) :
    (writeAll (xs ++ ys) : Encode ω) = (writeAll xs).andThen (writeAll ys) := by
  induction xs with
  | nil => simp [writeAll]
  | cons data xs ih => rw [List.cons_append, writeAll, writeAll, ih, andThen_assoc]

theorem writeAll_singleton (data : List UInt8) : (writeAll [data] : Encode ω) = .write data := by
  simp [writeAll]

theorem write_wroteMagic (data : List UInt8) (e : Encoder ω) :
    (bertEncoderWrite data e).2.wroteMagic = e.wroteMagic := by
  simp only [bertEncoderWrite]
  split_ifs <;> rfl

theorem writeAll_wroteMagic {ws : List (List UInt8)} {e e' : Encoder ω} {result : Code}
    (h : writeAll ws e = some (result, e')) : e'.wroteMagic = e.wroteMagic := by
  induction ws generalizing e with
  | nil =>
      cases h
      rfl
  | cons data ws ih =>
      simp only [writeAll, andThen, Encode.write] at h
      split_ifs at h with hresult
      · cases h
        exact write_wroteMagic data e
      · rw [ih h, write_wroteMagic]

/-- On an encoder that has written its magic byte the function is a sequence of
writes. -/
def Writes (f : Encode ω) (ws : List (List UInt8)) : Prop :=
  ∀ e : Encoder ω, e.wroteMagic = true → f e = writeAll ws e

theorem Writes.andThen {f g : Encode ω} {xs ys : List (List UInt8)} (hf : f.Writes xs)
    (hg : g.Writes ys) : (f.andThen g).Writes (xs ++ ys) := by
  intro e he
  rw [writeAll_append]
  simp only [Encode.andThen, hf e he]
  cases hrun : writeAll xs e with
  | none => rfl
  | some r =>
      dsimp only
      rw [hg r.2 (by rw [writeAll_wroteMagic hrun, he])]

theorem writes_write (data : List UInt8) : (Encode.write data : Encode ω).Writes [data] :=
  fun e _ ↦ by rw [writeAll_singleton]

theorem writes_done : (Encode.done bertSuccess : Encode ω).Writes [] := fun _ _ ↦ rfl

theorem writes_encodeMagicOnce : (encodeMagicOnce : Encode ω).Writes [] := fun e he ↦ by
  rw [encodeMagicOnce, if_pos he]
  rfl

/-! ## The encode functions -/

theorem writes_int (i : UInt32) : (bertEncodeInt i : Encode ω).Writes [intBytes i.toNat] := by
  have hi := i.toNat_lt
  by_cases hsmall : i.toNat ≤ 255
  · have hbyte : i.toUInt8 = UInt8.ofNat i.toNat := by
      apply UInt8.toNat_inj.mp
      simp
    rw [bertEncodeInt, if_pos (UInt32.le_iff_toNat_le.mpr hsmall), intBytes, if_pos hsmall,
      bertEncodeSmallInt, bertWriteUint8, hbyte]
    exact writes_write _
  · have hlarge : i ≤ 0xffffffff := UInt32.le_iff_toNat_le.mpr (Nat.le_of_lt_succ hi)
    rw [bertEncodeInt, if_neg (mt UInt32.le_iff_toNat_le.mp hsmall), if_pos hlarge, intBytes,
      if_neg hsmall, bertEncodeBigInt, bertWriteUint32_eq]
    exact writes_write _

/-- The search finds the least number of bytes that hold a magnitude other than
zero, and these are its digits. -/
theorem bertEncodeBignum_eq {i : Int64} (hi : i.toInt ≠ 0) :
    bignumBytes (bertStripSign i).toUInt64 7 = some (magnitudeLength i.toInt.natAbs) ∧
      (bertEncodeBignum i : Encode ω) = .write (bignumField i) := by
  have hmagnitude := stripSign_toNat i
  have hbounds := toInt_bounds i
  rcases bignumBytes_spec (u := (bertStripSign i).toUInt64) (i := 7) (by decide)
      (UInt64.toNat_lt _) with ⟨-, hzero⟩ | ⟨n, hbytes, hn, hlow, hhigh⟩
  · omega
  · have hlength : magnitudeLength i.toInt.natAbs = n + 1 := by
      rw [magnitudeLength, ← hmagnitude, Nat.add_right_cancel_iff]
      exact (Nat.log_eq_iff (.inr ⟨by decide, by omega⟩)).mpr ⟨hlow, hhigh⟩
    have hdigits : (List.range (n + 1)).map (bignumByte (bertStripSign i).toUInt64) =
        littleEndian (n + 1) i.toInt.natAbs := by
      apply List.map_congr_left
      intro k hk
      rw [List.mem_range] at hk
      rw [bignumByte_eq _ (by omega), hmagnitude]
    refine ⟨by rw [hbytes, hlength], ?_⟩
    simp only [bertEncodeBignum, hbytes, hdigits, if_neg (by omega : ¬ 0xff < n + 1), bignumField,
      hlength]
    rfl

theorem writes_bignum {i : Int64} (hi : i.toInt ≠ 0) :
    (bertEncodeBignum i : Encode ω).Writes [bignumField i] := by
  rw [(bertEncodeBignum_eq hi).2]
  exact writes_write _

theorem writes_atom (name : List UInt8) :
    (bertEncodeAtom name : Encode ω).Writes [atomField name] := by
  rw [bertEncodeAtom, bertWriteUint16_ofNat]
  exact writes_write _

theorem writes_string (text : List UInt8) :
    (bertEncodeString text : Encode ω).Writes [stringField text] := by
  rw [bertEncodeString, bertWriteUint32_ofNat]
  exact writes_write _

theorem writes_bin (data : List UInt8) :
    (bertEncodeBin data : Encode ω).Writes [binField data] := by
  rw [bertEncodeBin, bertWriteUint32_ofNat]
  exact writes_write _

theorem writes_listHeader (n : ℕ) :
    (bertEncodeListHeader n : Encode ω).Writes [listHeader n] := by
  rw [bertEncodeListHeader, bertWriteUint32_ofNat]
  exact writes_write _

theorem writes_tupleHeader {n : ℕ} (hn : n < 2 ^ 32) :
    (bertEncodeTupleHeader n : Encode ω).Writes [tupleHeader n] := by
  rw [bertEncodeTupleHeader, tupleHeader]
  split_ifs with hsmall hlarge
  · exact writes_write _
  · rw [bertWriteUint32_ofNat]
    exact writes_write _
  · omega

theorem writes_complexHeader (name : List UInt8) (n : ℕ) (hn : n + 2 < 2 ^ 32) :
    (bertEncodeComplexHeader name n : Encode ω).Writes (complexHeader name n) :=
  (writes_tupleHeader hn).andThen ((writes_atom _).andThen (writes_atom name))

theorem writes_boolean {boolean : UInt32} (h : boolean = 0 ∨ boolean = 1) :
    (bertEncodeBoolean boolean : Encode ω).Writes
      (complexHeader (if boolean = 1 then cString "true" else cString "false") 0) := by
  rcases h with rfl | rfl
  · exact writes_complexHeader _ 0 (by decide)
  · exact writes_complexHeader _ 0 (by decide)

theorem writes_time (time : Int64) :
    (bertEncodeTime time : Encode ω).Writes (complexHeader (cString "time") 3 ++
      [intBytes (low32 (time / 1000000)), intBytes (low32 (time % 1000000)), intBytes 0]) := by
  rw [← low32_eq, ← low32_eq]
  exact (writes_complexHeader _ 3 (by decide)).andThen
    ((writes_int _).andThen ((writes_int _).andThen (writes_int 0)))

theorem writes_options (masks : List UInt32) :
    (bertEncodeOptions masks : Encode ω).Writes
      ((masks.filterMap bertRegexOptname).map atomField) := by
  induction masks with
  | nil => exact writes_done
  | cons mask masks ih =>
      rw [bertEncodeOptions]
      cases hname : bertRegexOptname mask with
      | none => rwa [List.filterMap_cons_none hname]
      | some name =>
          rw [List.filterMap_cons_some hname]
          exact (writes_atom name).andThen ih

theorem writes_regex (source : List UInt8) (options : UInt32) :
    (bertEncodeRegex source options : Encode ω).Writes
      (complexHeader (cString "regex") 2 ++ binField source ::
        listHeader ((regexBits options).countP (· ≠ 0)) ::
          ((regexBits options).filterMap bertRegexOptname).map atomField) :=
  (writes_complexHeader _ 2 (by decide)).andThen
    ((writes_bin source).andThen ((writes_listHeader _).andThen (writes_options _)))

theorem toInt_ne_zero_of_not_small {i : Int64} (h : ¬ (i ≤ bertMaxInt ∧ bertMinInt ≤ i)) :
    i.toInt ≠ 0 := by
  intro hzero
  apply h
  rw [Int64.le_iff_toInt_le, Int64.le_iff_toInt_le, hzero]
  decide

mutual

/-- The switch of a push of an encodable term is its sequence of writes. -/
theorem writes_encodeSwitch [Platform F] :
    ∀ d : Data F, Encodable d → (encodeSwitch d : Encode ω).Writes (writes d)
  | .none, h => h.elim
  | .nil, _ => writes_complexHeader (cString "nil") 0 (by decide)
  | .boolean boolean, h => writes_boolean h
  | .int i, _ => by
      rw [encodeSwitch, writes]
      split_ifs with hsmall
      · rw [← low32_eq]
        exact writes_int _
      · exact writes_bignum (toInt_ne_zero_of_not_small hsmall)
  | .float d, _ => writes_write _
  | .atom name, _ => writes_atom name
  | .string text, _ => writes_string text
  | .bin data, _ => writes_bin data
  | .tuple elements, h =>
      (writes_tupleHeader h.1).andThen (writes_encodeElements elements h.2)
  | .list entries, h => (writes_listHeader _).andThen (writes_encodeEntries entries h)
  | .dict entries, h =>
      (writes_complexHeader _ 1 (by decide)).andThen
        ((writes_listHeader _).andThen (writes_encodePairs entries h))
  | .time time, _ => writes_time time
  | .regex source options, _ => writes_regex source options

theorem writes_encodeElements [Platform F] :
    ∀ elements : List (Option (Data F)), EncodableSlots elements →
      (encodeElements elements : Encode ω).Writes (writesSlots elements)
  | [], _ => writes_done
  | none :: _, h => h.elim
  | some d :: rest, h =>
      (writes_encodeMagicOnce.andThen (writes_encodeSwitch d h.1)).andThen
        (writes_encodeElements rest h.2)

theorem writes_encodeEntries [Platform F] :
    ∀ entries : List (Data F), EncodableList entries →
      (encodeEntries entries : Encode ω).Writes (writesList entries)
  | [], _ => writes_done
  | d :: rest, h =>
      (writes_encodeMagicOnce.andThen (writes_encodeSwitch d h.1)).andThen
        (writes_encodeEntries rest h.2)

theorem writes_encodePairs [Platform F] :
    ∀ entries : List (Option (Data F) × Option (Data F)), EncodablePairs entries →
      (encodePairs entries : Encode ω).Writes (writesPairs entries)
  | [], _ => writes_done
  | (none, _) :: _, h => h.elim
  | (some _, none) :: _, h => h.elim
  | (some key, some value) :: rest, h =>
      (writes_tupleHeader (by decide)).andThen
        ((writes_encodeMagicOnce.andThen (writes_encodeSwitch key h.1)).andThen
          ((writes_encodeMagicOnce.andThen (writes_encodeSwitch value h.2.1)).andThen
            (writes_encodePairs rest h.2.2)))

end

end Encode

end LibBert
