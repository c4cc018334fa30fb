import LibBert.Encoder.Write
import LibBert.Util

/-!
# The encode functions

`private/encode.c` and `bert_encoder_push` as functions of the encoder's state.
There is no result where the code follows a `NULL` pointer or its search for the
bytes of a magnitude runs past the lowest byte.
-/

namespace LibBert

variable {F ω : Type}

/-- An encode function. -/
abbrev Encode (ω : Type) := Encoder ω → Option (Code × Encoder ω)

namespace Encode

def write (data : List UInt8) : Encode ω := fun encoder ↦ some (bertEncoderWrite data encoder)

def done (result : Code) : Encode ω := fun encoder ↦ some (result, encoder)

def crash : Encode ω := fun _ ↦ none

/-- `if ((result = first) != BERT_SUCCESS) { return result; }`, then the rest. -/
def andThen (first next : Encode ω) : Encode ω := fun encoder ↦
  match first encoder with
  | none => none
  | some (result, encoder) => if result ≠ bertSuccess then some (result, encoder) else next encoder

end Encode

def bertEncodeMagic (magic : UInt8) : Encode ω := .write [magic]

def bertEncodeSmallInt (i : UInt8) : Encode ω := .write (bertSmallInt :: bertWriteUint8 i)

def bertEncodeBigInt (i : UInt32) : Encode ω := .write (bertInt :: bertWriteUint32 i)

def bertEncodeInt (i : UInt32) : Encode ω :=
  if i ≤ 0xff then bertEncodeSmallInt i.toUInt8
  else if i ≤ 0xffffffff then bertEncodeBigInt i
  else .done bertErrnoInvalid

/-- `snprintf` leaves the last of the 31 bytes zero. -/
def bertEncodeFloat [Platform F] (d : F) : Encode ω :=
  .write (bertFloat :: ((Platform.snprintf d).take 30 ++ List.replicate 31 0).take 31)

def bertEncodeBignum (integer : Int64) : Encode ω :=
  let sign : UInt8 := if integer < 0 then 1 else 0
  let unsignedInteger := (bertStripSign integer).toUInt64
  match bignumBytes unsignedInteger 7 with
  | none => .crash
  | some bytes =>
      let header :=
        if 0xff < bytes then bertLargeBignum :: bertWriteUint32 (UInt32.ofNat bytes)
        else bertSmallBignum :: bertWriteUint8 (UInt8.ofNat bytes)
      .write (header ++ bertWriteUint8 sign ++ (List.range bytes).map (bignumByte unsignedInteger))

def bertEncodeAtom (atom : List UInt8) : Encode ω :=
  .write (bertAtom :: bertWriteUint16 (UInt16.ofNat atom.length) ++ atom)

def bertEncodeString (string : List UInt8) : Encode ω :=
  .write (bertString :: bertWriteUint32 (UInt32.ofNat string.length) ++ string)

def bertEncodeBin (bin : List UInt8) : Encode ω :=
  .write (bertBin :: bertWriteUint32 (UInt32.ofNat bin.length) ++ bin)

def bertEncodeTupleHeader (elements : ℕ) : Encode ω :=
  if elements ≤ 0xff then .write (bertSmallTuple :: bertWriteUint8 (UInt8.ofNat elements))
  else if elements ≤ 0xffffffff then
    .write (bertLargeTuple :: bertWriteUint32 (UInt32.ofNat elements))
  else .done bertErrnoInvalid

def bertEncodeListHeader (length : ℕ) : Encode ω :=
  .write (bertList :: bertWriteUint32 (UInt32.ofNat length))

def bertEncodeComplexHeader (name : List UInt8) (elements : ℕ) : Encode ω :=
  (bertEncodeTupleHeader (elements + 2)).andThen
    ((bertEncodeAtom (cString "bert")).andThen (bertEncodeAtom name))

def bertEncodeNil : Encode ω := bertEncodeComplexHeader (cString "nil") 0

def bertEncodeTrue : Encode ω := bertEncodeComplexHeader (cString "true") 0

def bertEncodeFalse : Encode ω := bertEncodeComplexHeader (cString "false") 0

def bertEncodeBoolean (boolean : UInt32) : Encode ω :=
  if boolean = 1 then bertEncodeTrue
  else if boolean = 0 then bertEncodeFalse
  else .done bertErrnoInvalid

def bertEncodeTime (timestamp : Int64) : Encode ω :=
  let megaseconds := (timestamp / 1000000).toUInt64.toUInt32
  let seconds := (timestamp % 1000000).toUInt64.toUInt32
  (bertEncodeComplexHeader (cString "time") 3).andThen
    ((bertEncodeInt megaseconds).andThen ((bertEncodeInt seconds).andThen (bertEncodeInt 0)))

/-- `options & (0x1 << i)` for the indices of the loops of `bert_encode_regex`,
which stop at `sizeof(int)`. -/
def regexBits (options : UInt32) : List UInt32 :=
  (List.range 4).map fun i ↦ options &&& (1 <<< UInt32.ofNat i)

/-- The second loop of `bert_encode_regex`. -/
def bertEncodeOptions : List UInt32 → Encode ω
  | [] => .done bertSuccess
  | mask :: rest =>
      match bertRegexOptname mask with
      | some optName => (bertEncodeAtom optName).andThen (bertEncodeOptions rest)
      | none => bertEncodeOptions rest

def bertEncodeRegex (source : List UInt8) (options : UInt32) : Encode ω :=
  (bertEncodeComplexHeader (cString "regex") 2).andThen
    ((bertEncodeBin source).andThen
      ((bertEncodeListHeader ((regexBits options).countP (· ≠ 0))).andThen
        (bertEncodeOptions (regexBits options))))

/-! ## Pushing a term -/

/-- The magic byte is written before the first term only. -/
def encodeMagicOnce : Encode ω := fun encoder ↦
  if encoder.wroteMagic then some (bertSuccess, encoder)
  else (bertEncodeMagic bertMagic).andThen
    (fun encoder ↦ some (bertSuccess, { encoder with wroteMagic := true })) encoder

mutual

/-- The switch of `bert_encoder_push`. -/
def encodeSwitch [Platform F] : Data F → Encode ω
  | .int integer =>
      if integer ≤ bertMaxInt ∧ bertMinInt ≤ integer then
        bertEncodeInt integer.toUInt64.toUInt32
      else bertEncodeBignum integer
  | .float floatingPoint => bertEncodeFloat floatingPoint
  | .atom name => bertEncodeAtom name
  | .string text => bertEncodeString text
  | .bin data => bertEncodeBin data
  -- `bert_encode_tuple`
  | .tuple elements => (bertEncodeTupleHeader elements.length).andThen (encodeElements elements)
  -- `bert_encode_list`, which writes nothing behind the entries
  | .list entries => (bertEncodeListHeader entries.length).andThen (encodeEntries entries)
  | .nil => bertEncodeNil
  | .boolean boolean => bertEncodeBoolean boolean
  -- `bert_encode_dict`
  | .dict entries =>
      (bertEncodeComplexHeader (cString "dict") 1).andThen
        ((bertEncodeListHeader entries.length).andThen (encodePairs entries))
  | .regex source options => bertEncodeRegex source options
  | .time time => bertEncodeTime time
  | .none => .done bertErrnoInvalid

/-- The loop of `bert_encode_tuple`. -/
def encodeElements [Platform F] : List (Option (Data F)) → Encode ω
  | [] => .done bertSuccess
  | none :: _ => .crash
  | some element :: rest =>
      (encodeMagicOnce.andThen (encodeSwitch element)).andThen (encodeElements rest)

/-- The second loop of `bert_encode_list`. -/
def encodeEntries [Platform F] : List (Data F) → Encode ω
  | [] => .done bertSuccess
  | entry :: rest => (encodeMagicOnce.andThen (encodeSwitch entry)).andThen (encodeEntries rest)

/-- The second loop of `bert_encode_dict`. -/
def encodePairs [Platform F] : List (Option (Data F) × Option (Data F)) → Encode ω
  | [] => .done bertSuccess
  | (none, _) :: _ => (bertEncodeTupleHeader 2).andThen .crash
  | (some key, none) :: _ =>
      (bertEncodeTupleHeader 2).andThen
        ((encodeMagicOnce.andThen (encodeSwitch key)).andThen .crash)
  | (some key, some value) :: rest =>
      (bertEncodeTupleHeader 2).andThen
        ((encodeMagicOnce.andThen (encodeSwitch key)).andThen
          ((encodeMagicOnce.andThen (encodeSwitch value)).andThen (encodePairs rest)))

end

def bertEncoderPush [Platform F] (data : Data F) : Encode ω :=
  encodeMagicOnce.andThen (encodeSwitch data)

end LibBert
