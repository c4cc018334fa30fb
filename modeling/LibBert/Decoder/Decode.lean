import LibBert.Reading.Program
import LibBert.Util

/-!
# The decode functions

`private/decode.c` and `bert_decoder_pull` as programs over a reader.  A decode
function returns its `int` together with what it stored through its result
pointer, if anything.  Nested pulls reach the functions as an argument; the call
depth bounds the recursion of `bert_decoder_pull`.  Allocation succeeds.  Where a block
is written past its end or freed twice, the run ends in a fault.
-/

namespace LibBert

open Reading

/-- Ghost marks of a run: a pull starts, a pull returns, and a list appends the
pointer an earlier iteration left because the pull that was to replace it
stored nothing. -/
inductive Event (F : Type) : Type where
  | enter
  | leave (result : Code) (data : Option (Data F))
  | stale

/-- The codes `bert_decoder_read` fails with. -/
def ReadFails (code : Code) : Prop :=
  code = bertErrnoEmpty ∨ code = bertErrnoShortRead ∨
    code = bertErrnoRead ∨ code = bertErrnoInvalid

abbrev BertReader (σ : Type) := Reader UInt8 bertSuccess ReadFails σ

abbrev Decode (F α : Type) := Program UInt8 Code (Event F) α

/-- The returned `int` and the term stored through the result pointer. -/
abbrev Result (F : Type) := Code × Option (Data F)

variable {F : Type}

/-- `BERT_DECODER_READ`, which returns from the function on these four codes. -/
def decoderRead (i : ℕ) : Decode F (Except Code Unit) :=
  .read i fun code ↦
    if code = bertErrnoEmpty ∨ code = bertErrnoShortRead then
      pure (.error bertErrnoShortRead)
    else if code = bertErrnoRead then
      pure (.error bertErrnoRead)
    else if code = bertErrnoInvalid then
      pure (.error bertErrnoInvalid)
    else
      pure (.ok ())

/-- `BERT_DECODER_READ(i)`, a conversion of the bytes at `BERT_DECODER_PTR` and
`BERT_DECODER_STEP(i)`. -/
def decodeField {α : Type} (i : ℕ) (convert : List UInt8 → α) : Decode F (Except Code α) := do
  match ← decoderRead i with
  | .error result => return .error result
  | .ok () => .peek i fun src ↦ .step i (pure (.ok (convert src)))

theorem faultless_decoderRead (i : ℕ) : (decoderRead i : Decode F _).Faultless := by
  intro code
  dsimp only
  split_ifs <;> trivial

theorem faultless_decodeField {α : Type} (i : ℕ) (convert : List UInt8 → α) :
    (decodeField i convert : Decode F _).Faultless := by
  refine (faultless_decoderRead i).bind fun result ↦ ?_
  cases result with
  | error code => trivial
  | ok _ => exact fun symbols ↦ trivial

def bertDecodeUint8 : Decode F (Except Code UInt8) := decodeField 1 bertReadUint8

def bertDecodeUint16 : Decode F (Except Code UInt16) := decodeField 2 bertReadUint16

def bertDecodeUint32 : Decode F (Except Code UInt32) := decodeField 4 bertReadUint32

def bertDecodeMagic : Decode F (Except Code UInt8) := decodeField 1 bertReadMagic

/-- The loop of `bert_decode_bytes`, with its 32-bit index and the bytes copied
to `dest` so far; `fuel` bounds the number of iterations. -/
def decodeBytesLoop (length : ℕ) :
    ℕ → ℕ → List UInt8 → Decode F (Except Code (List UInt8))
  | 0, _, _ => .timeout
  | fuel + 1, index, dest =>
      if index < length then do
        let chunkLength := min (bertShortBuffer / 2) (length - index)
        match ← decodeField chunkLength id with
        | .error result => return .error result
        | .ok chunk =>
            decodeBytesLoop length fuel ((index + chunkLength) % 2 ^ 32) (dest ++ chunk)
      else
        return .ok dest

def bertDecodeBytes (length : ℕ) : Decode F (Except Code (List UInt8)) :=
  decodeBytesLoop length (length + 1) 0 []

def bertDecodeNil : Decode F (Result F) := return (bertSuccess, some .nil)

def bertDecodeSmallInt : Decode F (Result F) := do
  match ← bertDecodeUint8 with
  | .error result => return (result, none)
  | .ok i => return (bertSuccess, some (.int (Int64.ofNat i.toNat)))

def bertDecodeBigInt : Decode F (Result F) := do
  match ← bertDecodeUint32 with
  | .error result => return (result, none)
  | .ok i => return (bertSuccess, some (.int (Int64.ofNat i.toNat)))

def bertDecodeFloat [Platform F] : Decode F (Result F) := do
  match ← bertDecodeBytes 31 with
  | .error result => return (result, none)
  | .ok floatBuffer =>
      match Platform.sscanf (floatBuffer ++ [0]) with
      | none => return (bertErrnoInvalid, none)
      | some floatingPoint => return (bertSuccess, some (.float floatingPoint))

def bertDecodeBignum (size : ℕ) : Decode F (Result F) := do
  if 8 < size then
    return (bertErrnoBignum, none)
  else
    match ← bertDecodeUint8 with
    | .error result => return (result, none)
    | .ok sign =>
        match ← bertDecodeBytes size with
        | .error result => return (result, none)
        | .ok bytes => return (bertSuccess, some (.int (bignumInteger sign bytes)))

def bertDecodeSmallBignum : Decode F (Result F) := do
  match ← bertDecodeUint8 with
  | .error result => return (result, none)
  | .ok i => bertDecodeBignum i.toNat

def bertDecodeBigBignum : Decode F (Result F) := do
  match ← bertDecodeUint32 with
  | .error result => return (result, none)
  | .ok i => bertDecodeBignum i.toNat

/-- The shared body of `bert_decode_string`, `bert_decode_atom` and
`bert_decode_bin` behind their length field. -/
def decodeText (create : List UInt8 → Data F) (size : ℕ) : Decode F (Result F) := do
  if size = 0 then
    return (bertSuccess, some (create []))
  else
    match ← bertDecodeBytes size with
    | .error result => return (result, none)
    | .ok bytes => return (bertSuccess, some (create bytes))

def bertDecodeString : Decode F (Result F) := do
  match ← bertDecodeUint16 with
  | .error result => return (result, none)
  | .ok size => decodeText .string size.toNat

def bertDecodeAtom : Decode F (Result F) := do
  match ← bertDecodeUint16 with
  | .error result => return (result, none)
  | .ok size => decodeText .atom size.toNat

/-- The bytes `bert_data_create_empty_bin` asks for: `length + 1` is computed in
`uint32_t`. -/
def emptyBinSize (length : UInt32) : ℕ := (length + 1).toNat

theorem emptyBinSize_of_lt {length : UInt32} (h : length.toNat < 2 ^ 32 - 1) :
    emptyBinSize length = length.toNat + 1 := by
  rw [emptyBinSize, UInt32.toNat_add]
  exact Nat.mod_eq_of_lt (Nat.add_lt_of_lt_sub h)

/-- Only the block of the longest binary is too short. -/
theorem emptyBinSize_lt_iff {length : UInt32} :
    emptyBinSize length < length.toNat ↔ length.toNat = 2 ^ 32 - 1 := by
  have hlength := length.toNat_lt
  constructor
  · intro hshort
    by_contra hne
    rw [emptyBinSize_of_lt (by omega)] at hshort
    omega
  · intro hmax
    rw [emptyBinSize, UInt32.toNat_add, hmax]
    decide

def bertDecodeBin : Decode F (Result F) := do
  match ← bertDecodeUint32 with
  | .error result => return (result, none)
  | .ok size =>
      if emptyBinSize size < size.toNat then
        -- the first chunk of `bert_decode_bytes` does not fit into the block
        match ← decodeField (bertShortBuffer / 2) id with
        | .error result => return (result, none)
        | .ok _ => .fault
      else
        decodeText .bin size.toNat

/-- `megaseconds * 1000000 + seconds + microseconds / 1000000` on `int64_t`. -/
def timestamp [Platform F] (megaseconds seconds microseconds : Data F) : Int64 :=
  megaseconds.integer * 1000000 + seconds.integer + microseconds.integer / 1000000

/-- The walk of `bert_decode_dict` over the list: each entry has to be a tuple
of two elements, which become key and value. -/
def dictEntries : List (Data F) →
    Option (List (Option (Data F) × Option (Data F)))
  | [] => some []
  | .tuple [key, value] :: rest => (dictEntries rest).map ((key, value) :: ·)
  | _ :: _ => none

/-- The chain of comparisons behind a `newline` tuple; `"cr"` is compared twice
and `"lf"` never. -/
def regexNewline (name : Data F) : Option UInt32 :=
  if name.strequal (cString "cr") then some bertRegexNewlineCr
  else if name.strequal (cString "cr") then some bertRegexNewlineLf
  else if name.strequal (cString "crlf") then some bertRegexNewlineCrlf
  else if name.strequal (cString "anycrlf") then some bertRegexNewlineAnycrlf
  else if name.strequal (cString "any") then some bertRegexNewlineAny
  else none

/-- What `bert_decode_regex` does with one option: it adds a mask, gives up, or
follows a `NULL` slot. -/
inductive RegexOption : Type where
  | mask (mask : UInt32)
  | invalid
  | null

def regexOption : Data F → RegexOption
  | .atom name => .mask (bertRegexOptmask name)
  | .tuple [none, _] => .null
  | .tuple [some tag, name] =>
      if ¬ tag.isAtom then .invalid
      else if ¬ tag.strequal (cString "newline") then .invalid
      else match name with
        | none => .null
        | some name =>
            if ¬ name.isAtom then .invalid
            else match regexNewline name with
              | some mask => .mask mask
              | none => .invalid
  | _ => .invalid

/-- The loop of `bert_decode_regex` over the options. -/
def regexOptions : List (Data F) → UInt32 → RegexOption
  | [], options => .mask options
  | option :: rest, options =>
      match regexOption option with
      | .mask mask => regexOptions rest (options ||| mask)
      | .invalid => .invalid
      | .null => .null

section Nested

/-! ## Functions with nested pulls -/

variable (pull : Decode F (Result F))

/-- A nested pull of `bert_decode_time`: on any result but 1 the pointer is
destroyed before returning, which uses it. -/
def pullTimePart (next : Data F → Decode F (Result F)) : Decode F (Result F) := do
  let (result, data) ← pull
  if result ≠ 1 then do
    let _ ← Program.assigned data
    return (result, none)
  else do
    let part ← Program.assigned data
    next part

/-- The microseconds are never checked: `seconds->type` is tested a second
time. -/
def bertDecodeTime [Platform F] : Decode F (Result F) :=
  pullTimePart pull fun megaseconds ↦
    if ¬ megaseconds.isInt then return (bertErrnoInvalid, none)
    else pullTimePart pull fun seconds ↦
      if ¬ seconds.isInt then return (bertErrnoInvalid, none)
      else pullTimePart pull fun microseconds ↦
        if ¬ seconds.isInt then return (bertErrnoInvalid, none)
        else return (bertSuccess, some (.time (timestamp megaseconds seconds microseconds)))

/-- A nested pull whose pointer is only used when it returns 1. -/
def pullPart (next : Data F → Decode F (Result F)) : Decode F (Result F) := do
  let (result, data) ← pull
  if result ≠ 1 then
    return (result, none)
  else do
    let part ← Program.assigned data
    next part

def bertDecodeDict : Decode F (Result F) :=
  pullPart pull fun listData ↦
    match listData with
    | .nil => return (bertSuccess, some (.dict []))
    | .list entries =>
        match dictEntries entries with
        | some entries => return (bertSuccess, some (.dict entries))
        | none => return (bertErrnoInvalid, none)
    | _ => return (bertErrnoInvalid, none)

def bertDecodeRegex : Decode F (Result F) :=
  pullPart pull fun source ↦
    match source with
    | .bin source =>
        pullPart pull fun optList ↦
          match optList with
          | .list optList =>
              match regexOptions optList 0 with
              | .mask options => return (bertSuccess, some (.regex source options))
              | .invalid => return (bertErrnoInvalid, none)
              | .null => .stuck
          | _ => return (bertErrnoInvalid, none)
    | _ => return (bertErrnoInvalid, none)

def bertDecodeComplex [Platform F] : Decode F (Result F) :=
  pullPart pull fun keyword ↦
    if ¬ keyword.isAtom then return (bertErrnoInvalid, none)
    else if keyword.strequal (cString "nil") then return (bertSuccess, some .nil)
    else if keyword.strequal (cString "true") then return (bertSuccess, some (.boolean 1))
    else if keyword.strequal (cString "false") then return (bertSuccess, some (.boolean 0))
    else if keyword.strequal (cString "time") then bertDecodeTime pull
    else if keyword.strequal (cString "dict") then bertDecodeDict pull
    else if keyword.strequal (cString "regex") then bertDecodeRegex pull
    else return (bertErrnoInvalid, none)

/-- The loop of `bert_decode_tuple` over the slots after the first; a slot
whose pull stores nothing stays `NULL`. -/
def decodeTupleLoop : ℕ → List (Option (Data F)) → Decode F (Result F)
  | 0, elements => return (bertSuccess, some (.tuple elements))
  | i + 1, elements => do
      let (result, slot) ← pull
      if result ≠ 1 then return (result, none)
      else decodeTupleLoop i (elements ++ [slot])

def bertDecodeTuple [Platform F] (size : ℕ) : Decode F (Result F) :=
  if size = 0 then
    return (bertSuccess, some (.tuple []))
  else
    pullPart pull fun first ↦
      if first.isAtom ∧ first.strequal (cString "bert") then bertDecodeComplex pull
      else decodeTupleLoop pull (size - 1) [some first]

def bertDecodeSmallTuple [Platform F] : Decode F (Result F) := do
  match ← bertDecodeUint8 with
  | .error result => return (result, none)
  | .ok size => bertDecodeTuple pull size.toNat

def bertDecodeLargeTuple [Platform F] : Decode F (Result F) := do
  match ← bertDecodeUint32 with
  | .error result => return (result, none)
  | .ok size => bertDecodeTuple pull size.toNat

/-- The loop of `bert_decode_list` and the tail byte behind it.  The variable
`element` lives across iterations; once its term was appended twice, destroying the
list frees that term twice. -/
def decodeListLoop : ℕ → Option (Data F) → Bool → List (Data F) → Decode F (Result F)
  | 0, _, _, entries => do
      match ← decoderRead 1 with
      | .error result => return (result, none)
      | .ok () => .step 1 (pure (bertSuccess, some (.list entries)))
  | i + 1, element, twice, entries => do
      let (result, data) ← pull
      if result ≠ 1 then
        if twice then .fault else return (result, none)
      else match data with
        | some data => decodeListLoop i (some data) twice (entries ++ [data])
        | none => do
            let stale ← Program.assigned element
            .emit .stale (decodeListLoop i element true (entries ++ [stale]))

def bertDecodeList : Decode F (Result F) := do
  match ← bertDecodeUint32 with
  | .error result => return (result, none)
  | .ok size => decodeListLoop pull size.toNat none false []

/-- The switch of `bert_decoder_pull` over the magic byte. -/
def decodeMagic [Platform F] (magic : UInt8) : Decode F (Result F) :=
  if magic = bertNil then bertDecodeNil
  else if magic = bertSmallInt then bertDecodeSmallInt
  else if magic = bertInt then bertDecodeBigInt
  else if magic = bertSmallBignum then bertDecodeSmallBignum
  else if magic = bertLargeBignum then bertDecodeBigBignum
  else if magic = bertFloat then bertDecodeFloat
  else if magic = bertAtom then bertDecodeAtom
  else if magic = bertString then bertDecodeString
  else if magic = bertBin then bertDecodeBin
  else if magic = bertSmallTuple then bertDecodeSmallTuple pull
  else if magic = bertLargeTuple then bertDecodeLargeTuple pull
  else if magic = bertList then bertDecodeList pull
  else return (bertErrnoInvalid, none)

/-- A pull returns 1 where the decode function returned `BERT_SUCCESS`. -/
def pullResult (result : Result F) : Result F :=
  if result.1 ≠ bertSuccess then result else (1, result.2)

/-- The body of `bert_decoder_pull`. -/
def pullBody [Platform F] : Decode F (Result F) :=
  .read 1 fun result ↦
    if result = bertSuccess then do
      match ← bertDecodeMagic with
      | .error result => return (result, none)
      | .ok magic =>
          if magic = bertMagic then
            match ← bertDecodeMagic with
            | .error result => return (result, none)
            | .ok magic => return pullResult (← decodeMagic pull magic)
          else
            return pullResult (← decodeMagic pull magic)
    else if result = bertErrnoEmpty then
      return (0, none)
    else
      return (result, none)

end Nested

/-- `bert_decoder_pull` with a bounded depth of nested calls. -/
def bertDecoderPull [Platform F] : ℕ → Decode F (Result F)
  | 0 => .timeout
  | depth + 1 => .emit .enter do
      let result ← pullBody (bertDecoderPull depth)
      .emit (.leave result.1 result.2) (pure result)

end LibBert
