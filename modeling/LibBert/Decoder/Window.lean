import LibBert.Types

/-!
# The read window

`struct bert_decoder` and `bert_decoder_read` from `private/decoder.c`: a
512-byte window that is filled from a stream, a callback or a buffer.  Moving
the unread bytes to the front of the window is a copy of a list of bytes, that
is, `memcpy` behaves as `memmove`.
-/

namespace LibBert

/-- What stands behind `read` or a read callback: asked for at most `size`
bytes it fails or delivers no more than that, and moves on. -/
structure Source (ρ : Type) where
  read : ρ → ℕ → Option (List UInt8) × ρ
  read_length_le : ∀ s size bytes, (read s size).1 = some bytes → bytes.length ≤ size

/-- The mode of a decoder with the union member that belongs to it. -/
inductive DecoderMode (ρ : Type) : Type where
  | none
  | stream (file : Source ρ) (stream : ρ)
  | buffer (ptr : List UInt8) (length : ℕ) (index : ℕ)
  | callback (ptr : Source ρ) (data : ρ)

/-- `struct bert_decoder`. -/
structure Decoder (ρ : Type) : Type where
  mode : DecoderMode ρ
  total : ℕ
  shortLength : ℕ
  shortIndex : ℕ
  shortBuffer : List UInt8

variable {ρ : Type}

def bertDecoderCreate : Decoder ρ where
  mode := .none
  total := 0
  shortLength := 0
  shortIndex := 0
  shortBuffer := List.replicate bertShortBuffer 0

def bertDecoderStream (decoder : Decoder ρ) (file : Source ρ) (fd : ρ) : Decoder ρ :=
  { decoder with mode := .stream file fd }

def bertDecoderCallback (decoder : Decoder ρ) (callback : Source ρ) (data : ρ) : Decoder ρ :=
  { decoder with mode := .callback callback data }

def bertDecoderBuffer (decoder : Decoder ρ) (buffer : List UInt8) (length : ℕ) : Decoder ρ :=
  { decoder with mode := .buffer buffer length 0 }

def bertDecoderTotal (decoder : Decoder ρ) : ℕ := decoder.total

namespace Decoder

/-- `memcpy` into a block of memory at an offset. -/
def blit (block : List UInt8) (offset : ℕ) (bytes : List UInt8) : List UInt8 :=
  block.take offset ++ bytes ++ block.drop (offset + bytes.length)

/-- `BERT_DECODER_EMPTY`. -/
def empty (decoder : Decoder ρ) : ℕ := bertShortBuffer - decoder.shortLength

/-- `BERT_DECODER_STEP`. -/
def step (decoder : Decoder ρ) (i : ℕ) : Decoder ρ :=
  { decoder with shortIndex := decoder.shortIndex + i }

/-- The `size` bytes at `BERT_DECODER_PTR`. -/
def ptr (decoder : Decoder ρ) (size : ℕ) : List UInt8 :=
  (List.range size).map fun i ↦ decoder.shortBuffer.getD (decoder.shortIndex + i) 0

/-- The unread bytes move to the front of the window. -/
def shift (decoder : Decoder ρ) : Decoder ρ :=
  let unreadSpace := decoder.shortLength - decoder.shortIndex
  { decoder with
    shortBuffer := blit decoder.shortBuffer 0 (decoder.ptr unreadSpace)
    shortLength := unreadSpace
    shortIndex := 0 }

/-- The bytes that were copied behind the last one in the window are counted,
unless there are none and none were unread. -/
def receive (decoder : Decoder ρ) (bytes : List UInt8) (size remainingSpace : ℕ) :
    Code × Decoder ρ :=
  let decoder :=
    { decoder with shortBuffer := blit decoder.shortBuffer decoder.shortLength bytes }
  if bytes.length = 0 ∧ remainingSpace = 0 then
    (bertErrnoEmpty, decoder)
  else
    let decoder :=
      { decoder with
        shortLength := decoder.shortLength + bytes.length
        total := decoder.total + bytes.length }
    if decoder.shortLength - decoder.shortIndex < size then
      (bertErrnoShortRead, decoder)
    else
      (bertSuccess, decoder)

/-- The code from `fill_short_buffer` on.  In buffer mode the bytes are copied
from the start of the buffer, whatever its index. -/
def fillShortBuffer (decoder : Decoder ρ) (size remainingSpace emptySpace : ℕ) :
    Code × Decoder ρ :=
  match decoder.mode with
  | .stream file fd =>
      match file.read fd emptySpace with
      | (none, fd) => (bertErrnoRead, { decoder with mode := .stream file fd })
      | (some bytes, fd) =>
          { decoder with mode := .stream file fd }.receive bytes size remainingSpace
  | .buffer ptr length index =>
      let count := min (length - index) emptySpace
      { decoder with mode := .buffer ptr length ((index + count) % 2 ^ 32) }.receive
        (ptr.take count) size remainingSpace
  | .callback callback data =>
      match callback.read data emptySpace with
      | (none, data) => (bertErrnoInvalid, { decoder with mode := .callback callback data })
      | (some bytes, data) =>
          { decoder with mode := .callback callback data }.receive bytes size remainingSpace
  | .none => (bertErrnoInvalid, decoder)

end Decoder

def bertDecoderRead (decoder : Decoder ρ) (size : ℕ) : Code × Decoder ρ :=
  let remainingSpace := decoder.shortLength - decoder.shortIndex
  if size ≤ remainingSpace then
    (bertSuccess, decoder)
  else if bertShortBuffer / 2 ≤ decoder.empty then
    decoder.fillShortBuffer size remainingSpace decoder.empty
  else
    decoder.shift.fillShortBuffer size remainingSpace decoder.shift.empty

end LibBert
