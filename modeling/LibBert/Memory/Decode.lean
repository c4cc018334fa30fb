import LibBert.Memory.Owned

/-!
# The decode functions and their memory

`private/decode.c` and `bert_decoder_pull` once more, with every allocation, every
destruction on the way out of a function and every access to a term.  What a function
reads of a term is taken to be all of it.
-/

namespace LibBert.Managed

open Reading Storing

/-- The returned `int` and the term stored through the result pointer. -/
abbrev Result (F : Type) := Code × Option (Owned F)

variable {F : Type}

/-- `if ((result = field) != BERT_SUCCESS) { return result; }`, then the rest. -/
def behind {α : Type} (field : Managed F (Except Code α)) (next : α → Managed F (Result F)) :
    Managed F (Result F) := do
  match ← field with
  | .error result => return (result, none)
  | .ok a => next a

/-- `if (!(new_data = create)) { failed }`, then the rest. -/
def allocated (create : Managed F (Option (Owned F))) (failed : Managed F (Result F))
    (next : Owned F → Managed F (Result F)) : Managed F (Result F) := do
  match ← create with
  | none => failed
  | some newData => next newData

/-- A created term is stored. -/
def finish (create : Managed F (Option (Owned F))) : Managed F (Result F) :=
  allocated create (return (bertErrnoMalloc, none)) fun newData ↦ return (bertSuccess, some newData)

/-- The loop of `bert_decode_bytes`. -/
def decodeBytesLoop (dest : Option Block) (length : ℕ) :
    ℕ → ℕ → List UInt8 → Managed F (Except Code (List UInt8))
  | 0, _, _ => timeout
  | fuel + 1, index, bytes =>
      if index < length then do
        let chunkLength := min (bertShortBuffer / 2) (length - index)
        match ← lift (decodeField chunkLength id) with
        | .error result => return .error result
        | .ok chunk =>
            writeText dest index chunkLength length
            decodeBytesLoop dest length fuel ((index + chunkLength) % 2 ^ 32) (bytes ++ chunk)
      else
        return .ok bytes

def bertDecodeBytes (dest : Option Block) (length : ℕ) :
    Managed F (Except Code (List UInt8)) :=
  decodeBytesLoop dest length (length + 1) 0 []

def bertDecodeNil : Managed F (Result F) := finish bertDataCreateNil

def bertDecodeSmallInt : Managed F (Result F) :=
  behind (lift bertDecodeUint8) fun i ↦ finish (bertDataCreateInt (Int64.ofNat i.toNat))

def bertDecodeBigInt : Managed F (Result F) :=
  behind (lift bertDecodeUint32) fun i ↦ finish (bertDataCreateInt (Int64.ofNat i.toNat))

def bertDecodeFloat [Platform F] : Managed F (Result F) :=
  behind (bertDecodeBytes none 31) fun floatBuffer ↦
    match Platform.sscanf (floatBuffer ++ [0]) with
    | none => return (bertErrnoInvalid, none)
    | some floatingPoint => finish (bertDataCreateFloat floatingPoint)

def bertDecodeBignum (size : ℕ) : Managed F (Result F) :=
  if 8 < size then
    return (bertErrnoBignum, none)
  else
    behind (lift bertDecodeUint8) fun sign ↦
      behind (bertDecodeBytes none size) fun bytes ↦
        finish (bertDataCreateInt (bignumInteger sign bytes))

def bertDecodeSmallBignum : Managed F (Result F) :=
  behind (lift bertDecodeUint8) fun i ↦ bertDecodeBignum i.toNat

def bertDecodeBigBignum : Managed F (Result F) :=
  behind (lift bertDecodeUint32) fun i ↦ bertDecodeBignum i.toNat

/-- The shared body of `bert_decode_string`, `bert_decode_atom` and `bert_decode_bin`
behind their length field. -/
def decodeText (create : Managed F (Option (Owned F))) (size : ℕ) : Managed F (Result F) :=
  allocated create (return (bertErrnoMalloc, none)) fun newData ↦
    if size = 0 then
      return (bertSuccess, some newData)
    else do
      match ← bertDecodeBytes newData.text size with
      | .error result => do
          bertDataDestroy newData
          return (result, none)
      | .ok bytes => return (bertSuccess, some (newData.setText bytes))

def bertDecodeString : Managed F (Result F) :=
  behind (lift bertDecodeUint16) fun size ↦
    decodeText (bertDataCreateEmptyString size) size.toNat

def bertDecodeAtom : Managed F (Result F) :=
  behind (lift bertDecodeUint16) fun size ↦ decodeText (bertDataCreateEmptyAtom size) size.toNat

def bertDecodeBin : Managed F (Result F) :=
  behind (lift bertDecodeUint32) fun size ↦ decodeText (bertDataCreateEmptyBin size) size.toNat

section Nested

/-! ## Functions with nested pulls -/

variable (pull : Managed F (Result F))

/-- A nested pull, on any result but 1 of which the terms held so far are destroyed. -/
def pullPart (held : List (Owned F)) (next : Owned F → Managed F (Result F)) :
    Managed F (Result F) := do
  let (result, data) ← pull
  if result ≠ 1 then do
    destroyAll held
    return (result, none)
  else do
    let part ← assigned data
    look part
    next part

/-- A nested pull of `bert_decode_time`, on any result but 1 of which the pointer is
destroyed as well. -/
def pullTimePart (held : List (Owned F)) (next : Owned F → Managed F (Result F)) :
    Managed F (Result F) := do
  let (result, data) ← pull
  if result ≠ 1 then do
    let part ← assigned data
    bertDataDestroy part
    destroyAll held
    return (result, none)
  else do
    let part ← assigned data
    look part
    next part

/-- The way out through a cleanup label. -/
def cleanup (held : List (Owned F)) (result : Code) : Managed F (Result F) := do
  destroyAll held
  return (result, none)

def bertDecodeTime [Platform F] : Managed F (Result F) :=
  pullTimePart pull [] fun megaseconds ↦
    if ¬ megaseconds.erase.isInt then cleanup [megaseconds] bertErrnoInvalid
    else pullTimePart pull [megaseconds] fun seconds ↦
      if ¬ seconds.erase.isInt then cleanup [seconds, megaseconds] bertErrnoInvalid
      else pullTimePart pull [seconds, megaseconds] fun microseconds ↦
        if ¬ seconds.erase.isInt then
          cleanup [microseconds, seconds, megaseconds] bertErrnoInvalid
        else do
          look megaseconds
          look seconds
          look microseconds
          let timestamp := timestamp megaseconds.erase seconds.erase microseconds.erase
          destroyAll [microseconds, seconds, megaseconds]
          finish (bertDataCreateTime timestamp)

/-- The loop of `bert_decode_dict` over the list `listData`, whose tuples it has emptied
up to the node it is at. -/
def decodeDictLoop (newData : Owned F) (listData : List (Block × Owned F) → Owned F)
    (passed : List (Block × Owned F)) : List (Block × Owned F) → Managed F (Result F)
  | [] => do
      bertDataDestroy (listData passed)
      return (bertSuccess, some newData)
  | (node, nextTuple) :: rest => do
      touch node
      look nextTuple
      match nextTuple with
      | .tuple data header elements [key, value] => do
          let emptied := .tuple data header elements [none, none]
          let (result, newData) ← bertDictAppend newData key value
          if result = bertErrnoMalloc then do
            destroySlot value
            destroySlot key
            cleanup [newData, listData (passed ++ (node, emptied) :: rest)] bertErrnoMalloc
          else decodeDictLoop newData listData (passed ++ [(node, emptied)]) rest
      | _ => cleanup [newData, listData (passed ++ (node, nextTuple) :: rest)] bertErrnoInvalid

def bertDecodeDict : Managed F (Result F) :=
  pullPart pull [] fun listData ↦
    match listData with
    | .nil _ =>
        allocated bertDataCreateDict (cleanup [listData] bertErrnoMalloc) fun newData ↦ do
          bertDataDestroy listData
          return (bertSuccess, some newData)
    | .list data header nodes =>
        allocated bertDataCreateDict (cleanup [listData] bertErrnoMalloc) fun newData ↦
          decodeDictLoop newData (.list data header) [] nodes
    | _ => cleanup [listData] bertErrnoInvalid

/-- An option is read, and its elements where it is a tuple. -/
def lookOption (nextOpt : Owned F) : Managed F Unit := do
  look nextOpt
  match nextOpt with
  | .tuple _ _ _ slots => lookSlots slots
  | _ => pure ()

/-- The bits of an option, if it is none that is refused; a `NULL` element is followed. -/
def optionMask : RegexOption → Managed F (Option UInt32)
  | .mask mask => return some mask
  | .invalid => return none
  | .null => assigned none

/-- The loop of `bert_decode_regex` over the options; there are none where one is
refused. -/
def regexOptionsLoop : List (Block × Owned F) → UInt32 → Managed F (Option UInt32)
  | [], options => return some options
  | (node, nextOpt) :: rest, options => do
      touch node
      lookOption nextOpt
      match ← optionMask (regexOption nextOpt.erase) with
      | none => return none
      | some mask => regexOptionsLoop rest (options ||| mask)

/-- What `bert_decode_regex` does behind the loop. -/
def finishRegex (source optList : Owned F) (bytes : List UInt8) :
    Option UInt32 → Managed F (Result F)
  | none => cleanup [optList, source] bertErrnoInvalid
  | some options => do
      bertDataDestroy optList
      look source
      allocated (bertDataCreateRegex bytes (UInt32.ofNat bytes.length) options)
        (cleanup [source] bertErrnoMalloc) fun newData ↦ do
          bertDataDestroy source
          return (bertSuccess, some newData)

def bertDecodeRegex : Managed F (Result F) :=
  pullPart pull [] fun source ↦
    match source with
    | .bin _ _ bytes =>
        pullPart pull [source] fun optList ↦
          match optList with
          | .list _ _ nodes => do finishRegex source optList bytes (← regexOptionsLoop nodes 0)
          | _ => cleanup [optList, source] bertErrnoInvalid
    | _ => cleanup [source] bertErrnoInvalid

/-- A term without parts, behind whose creation the keyword is destroyed. -/
def finishKeyword (keyword : Owned F) (create : Managed F (Option (Owned F))) :
    Managed F (Result F) := do
  let newData ← create
  bertDataDestroy keyword
  match newData with
  | none => return (bertErrnoMalloc, none)
  | some newData => return (bertSuccess, some newData)

/-- The way into a function behind a keyword that is no longer needed. -/
def behindKeyword (keyword : Owned F) (next : Managed F (Result F)) : Managed F (Result F) := do
  bertDataDestroy keyword
  next

/-- A keyword that is not an atom is neither used nor destroyed. -/
def bertDecodeComplex [Platform F] : Managed F (Result F) :=
  pullPart pull [] fun keyword ↦
    if ¬ keyword.erase.isAtom then do
      abandon keyword.blocks
      return (bertErrnoInvalid, none)
    else if keyword.erase.strequal (cString "nil") then finishKeyword keyword bertDataCreateNil
    else if keyword.erase.strequal (cString "true") then finishKeyword keyword bertDataCreateTrue
    else if keyword.erase.strequal (cString "false") then finishKeyword keyword bertDataCreateFalse
    else if keyword.erase.strequal (cString "time") then
      behindKeyword keyword (bertDecodeTime pull)
    else if keyword.erase.strequal (cString "dict") then
      behindKeyword keyword (bertDecodeDict pull)
    else if keyword.erase.strequal (cString "regex") then
      behindKeyword keyword (bertDecodeRegex pull)
    else cleanup [keyword] bertErrnoInvalid

/-- The loop of `bert_decode_tuple` over the slots from index `i` on. -/
def decodeTupleLoop : ℕ → ℕ → Owned F → Managed F (Result F)
  | 0, _, newData => return (bertSuccess, some newData)
  | remaining + 1, i, newData => do
      let (result, slot) ← pull
      if result ≠ 1 then cleanup [newData] result
      else decodeTupleLoop remaining (i + 1) (newData.setSlot i slot)

def bertDecodeTuple [Platform F] (size : ℕ) : Managed F (Result F) :=
  allocated (bertDataCreateTuple size) (return (bertErrnoMalloc, none)) fun newData ↦
    if size = 0 then
      return (bertSuccess, some newData)
    else
      pullPart pull [newData] fun first ↦
        if first.erase.isAtom ∧ first.erase.strequal (cString "bert") then do
          destroyAll [first, newData]
          bertDecodeComplex pull
        else decodeTupleLoop pull (size - 1) 1 (newData.setSlot 0 (some first))

def bertDecodeSmallTuple [Platform F] : Managed F (Result F) :=
  behind (lift bertDecodeUint8) fun size ↦ bertDecodeTuple pull size.toNat

def bertDecodeLargeTuple [Platform F] : Managed F (Result F) :=
  behind (lift bertDecodeUint32) fun size ↦ bertDecodeTuple pull size.toNat

/-- The loop of `bert_decode_list` and the tail byte behind it; where that is missing
the list is neither stored nor destroyed.  The variable `element` lives across
iterations. -/
def decodeListLoop : ℕ → Option (Owned F) → Owned F → Managed F (Result F)
  | 0, _, newData => do
      match ← lift (decoderRead 1) with
      | .error result => do
          abandon newData.blocks
          return (result, none)
      | .ok () => do
          lift (.step 1 (pure ()))
          return (bertSuccess, some newData)
  | i + 1, element, newData => do
      let (result, data) ← pull
      if result ≠ 1 then cleanup [newData] result
      else do
        let element ← assigned (data.or element)
        if data.isNone then mark .stale
        let (result, newData) ← bertListAppend newData element
        if result = bertErrnoMalloc then cleanup [element, newData] bertErrnoMalloc
        else decodeListLoop i (some element) newData

def bertDecodeList : Managed F (Result F) :=
  behind (lift bertDecodeUint32) fun size ↦
    allocated bertDataCreateList (return (bertErrnoMalloc, none)) fun newData ↦
      decodeListLoop pull size.toNat none newData

/-- The switch of `bert_decoder_pull` over the magic byte. -/
def decodeMagic [Platform F] (magic : UInt8) : Managed F (Result F) :=
  if magic = bertNil then bertDecodeNil
  else if magic = bertSmallInt then bertDecodeSmallInt
  else if magic = bertInt then bertDecodeBigInt
  else if magic = bertSmallBignum then bertDecodeSmallBignum
  else if magic = bertLargeBignum then bertDecodeBigBignum
  else if magic = bertFloat then bertDecodeFloat
  else if magic = bertAtom then bertDecodeAtom
  else if magic = bertString then bertDecodeString
  else if magic = bertBin then bertDecodeBin
  else if magic = bertSmallTuple then bertDecodeSmallTuple pull
  else if magic = bertLargeTuple then bertDecodeLargeTuple pull
  else if magic = bertList then bertDecodeList pull
  else return (bertErrnoInvalid, none)

/-- A pull returns 1 where the decode function returned `BERT_SUCCESS`. -/
def pullResult (result : Result F) : Result F :=
  if result.1 ≠ bertSuccess then result else (1, result.2)

/-- The body of `bert_decoder_pull`. -/
def pullBody [Platform F] : Managed F (Result F) := do
  let result ← lift (.read 1 .ret)
  if result = bertSuccess then
    behind (lift bertDecodeMagic) fun magic ↦
      if magic = bertMagic then
        behind (lift bertDecodeMagic) fun magic ↦ do
          return pullResult (← decodeMagic pull magic)
      else do
        return pullResult (← decodeMagic pull magic)
  else if result = bertErrnoEmpty then
    return (0, none)
  else
    return (result, none)

end Nested

/-- `bert_decoder_pull` with a bounded depth of nested calls. -/
def bertDecoderPull [Platform F] : ℕ → Managed F (Result F)
  | 0 => timeout
  | depth + 1 => do
      mark .enter
      let result ← pullBody (bertDecoderPull depth)
      mark (.leave result.1 (Owned.eraseSlot result.2))
      return result

end LibBert.Managed
