import Mathlib.Tactic.Linarith

/-!
# Codes, magic bytes and terms

The constants of `errno.h`, `magic.h`, `util.h` and `decoder.h` and the terms of
`data.h`.  A `bert_data_t` pointer that may be `NULL` is an option; the slots of
a tuple and the keys and values of a dictionary are such pointers.
-/

namespace LibBert

/-! ## Result codes -/

/-- The `int` every encoding and decoding function returns. -/
abbrev Code := ℤ

def bertSuccess : Code := 0
def bertErrnoInvalid : Code := -1
def bertErrnoEmpty : Code := -2
def bertErrnoShortRead : Code := -3
def bertErrnoShortWrite : Code := -4
def bertErrnoRead : Code := -5
def bertErrnoWrite : Code := -6
def bertErrnoMalloc : Code := -7
def bertErrnoBignum : Code := -8

/-! ## Magic bytes and sizes -/

def bertSmallInt : UInt8 := 97
def bertInt : UInt8 := 98
def bertFloat : UInt8 := 99
def bertAtom : UInt8 := 100
def bertSmallTuple : UInt8 := 104
def bertLargeTuple : UInt8 := 105
def bertNil : UInt8 := 106
def bertString : UInt8 := 107
def bertList : UInt8 := 108
def bertBin : UInt8 := 109
def bertSmallBignum : UInt8 := 110
def bertLargeBignum : UInt8 := 111
def bertMagic : UInt8 := 131

attribute [grind] bertMagic bertNil bertSmallInt bertInt bertSmallBignum bertLargeBignum bertFloat
  bertAtom bertString bertBin bertSmallTuple bertLargeTuple bertList

def bertShortBuffer : ℕ := 512

/-- `(1 << 27) - 1`. -/
def bertMaxInt : Int64 := 134217727
/-- `-(1 << 27)`. -/
def bertMinInt : Int64 := -134217728

/-- The characters of a C string literal, without the terminating zero byte. -/
def cString (s : String) : List UInt8 := s.toList.map fun c ↦ UInt8.ofNat c.toNat

/-! ## Terms -/

/-- A `bert_data_t`.  `F` is the type of its `double` field; text and binary
fields hold exactly the bytes their length field counts. -/
inductive Data (F : Type) : Type where
  | none
  | boolean (boolean : UInt32)
  | int (integer : Int64)
  | float (floatingPoint : F)
  | atom (name : List UInt8)
  | string (text : List UInt8)
  | tuple (elements : List (Option (Data F)))
  | list (entries : List (Data F))
  | dict (entries : List (Option (Data F) × Option (Data F)))
  | bin (data : List UInt8)
  | time (time : Int64)
  | regex (source : List UInt8) (options : UInt32)
  | nil

/-- What the code uses of the C library's formatted input and output, and of
reading the `integer` member of a term of another type. -/
class Platform (F : Type) where
  /-- `sscanf(buffer,"%lf",&d)`: the number read, when one is read. -/
  sscanf : List UInt8 → Option F
  /-- `snprintf(buffer,31,"%15.15f",d)`: the characters written before the
  terminating zero byte. -/
  snprintf : F → List UInt8
  /-- `data->integer` where `data->type` is not `bert_data_int`.  For a tuple, a list or a
  dictionary it is part of a pointer to the heap and no function of the term: where two
  runs are compared, nothing is said of a time that is made of it. -/
  unionInteger : Data F → Int64

/-- Terms without a `double`. -/
instance : Platform Empty where
  sscanf _ := .none
  snprintf := Empty.elim
  unionInteger _ := 0

namespace Data

variable {F : Type}

/-- `data->integer`. -/
def integer [Platform F] : Data F → Int64
  | .int i => i
  | d => Platform.unionInteger d

/-- `bert_data_strequal`. -/
def strequal (str : List UInt8) : Data F → Bool
  | .string text => text == str
  | .atom name => name == str
  | .bin data => data == str
  | _ => false

def isInt : Data F → Bool
  | .int _ => true
  | _ => false

def isAtom : Data F → Bool
  | .atom _ => true
  | _ => false

mutual

/-- No slot, key or value below the term is `NULL`. -/
def Complete : Data F → Prop
  | .tuple elements => CompleteSlots elements
  | .list entries => CompleteList entries
  | .dict entries => CompletePairs entries
  | _ => True

def CompleteSlots : List (Option (Data F)) → Prop
  | [] => True
  | .none :: _ => False
  | .some d :: slots => Complete d ∧ CompleteSlots slots

def CompleteList : List (Data F) → Prop
  | [] => True
  | d :: entries => Complete d ∧ CompleteList entries

def CompletePairs : List (Option (Data F) × Option (Data F)) → Prop
  | [] => True
  | (.some key, .some value) :: entries => Complete key ∧ Complete value ∧ CompletePairs entries
  | _ :: _ => False

end

@[simp] theorem strequal_atom (str name : List UInt8) :
    (Data.atom name : Data F).strequal str = (name == str) := rfl

end Data

end LibBert
