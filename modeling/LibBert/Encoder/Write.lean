import LibBert.Types

/-!
# The encoder's output

`struct bert_encoder` and `bert_encoder_write` from `private/encoder.c`: every
write goes to a stream, a callback or a buffer, and is counted in full when it
is taken.
-/

namespace LibBert

/-- What stands behind `write` or a write callback: given some bytes it returns
a result and moves on. -/
structure Sink (ω : Type) where
  write : ω → List UInt8 → ℤ × ω

/-- The mode of an encoder with the union member that belongs to it. -/
inductive EncoderMode (ω : Type) : Type where
  | none
  | stream (file : Sink ω) (stream : ω)
  | buffer (ptr : List UInt8) (length : ℕ) (index : ℕ)
  | callback (ptr : Sink ω) (data : ω)

/-- `struct bert_encoder`. -/
structure Encoder (ω : Type) : Type where
  mode : EncoderMode ω
  wroteMagic : Bool
  total : ℕ

variable {ω : Type}

def bertEncoderCreate : Encoder ω where
  mode := .none
  wroteMagic := false
  total := 0

def bertEncoderStream (encoder : Encoder ω) (file : Sink ω) (stream : ω) : Encoder ω :=
  { encoder with mode := .stream file stream }

def bertEncoderBuffer (encoder : Encoder ω) (buffer : List UInt8) (length : ℕ) : Encoder ω :=
  { encoder with mode := .buffer buffer length 0 }

def bertEncoderCallback (encoder : Encoder ω) (callback : Sink ω) (data : ω) : Encoder ω :=
  { encoder with mode := .callback callback data }

def bertEncoderTotal (encoder : Encoder ω) : ℕ := encoder.total

/-- The switch of `bert_encoder_write`; the index of a buffer has 32 bits. -/
def EncoderMode.write (data : List UInt8) : EncoderMode ω → Code × EncoderMode ω
  | .stream file fd =>
      ((if (file.write fd data).1 < 0 then bertErrnoWrite else bertSuccess),
        .stream file (file.write fd data).2)
  | .buffer ptr length index =>
      if length < index + data.length then
        (bertErrnoShortWrite, .buffer ptr length index)
      else
        (bertSuccess, .buffer (ptr.take index ++ data ++ ptr.drop (index + data.length)) length
          ((index + data.length) % 2 ^ 32))
  | .callback ptr user =>
      ((if (ptr.write user data).1 < 0 then bertErrnoInvalid else bertSuccess),
        .callback ptr (ptr.write user data).2)
  | .none => (bertErrnoInvalid, .none)

def bertEncoderWrite (data : List UInt8) (encoder : Encoder ω) : Code × Encoder ω :=
  let (result, mode) := encoder.mode.write data
  if result ≠ bertSuccess then
    (result, { encoder with mode := mode })
  else
    (bertSuccess, { encoder with mode := mode, total := encoder.total + data.length })

end LibBert
