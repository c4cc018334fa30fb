import LibBert.Decoder.Decode
import LibBert.Reading.Heap

/-!
# Terms and the blocks they are made of

`data.c`, `list.c`, `dict.c` and `tuple.c` with their allocations: a term together
with the blocks `malloc` gave for it, the functions that create terms and
containers, of which every allocation may fail, and the functions that destroy
them.  A list or dictionary is the sequence its nodes form.
-/

namespace LibBert

open Reading

/-- A term with the block of its `bert_data_t` first and those it points to behind. -/
inductive Owned (F : Type) : Type where
  | none (data : Block)
  | boolean (data : Block) (boolean : UInt32)
  | int (data : Block) (integer : Int64)
  | float (data : Block) (floatingPoint : F)
  | atom (data text : Block) (name : List UInt8)
  | string (data text : Block) (bytes : List UInt8)
  | tuple (data header elements : Block) (slots : List (Option (Owned F)))
  | list (data header : Block) (nodes : List (Block × Owned F))
  | dict (data header : Block) (nodes : List (Block × Option (Owned F) × Option (Owned F)))
  | bin (data text : Block) (bytes : List UInt8)
  | time (data : Block) (time : Int64)
  | regex (data text : Block) (source : List UInt8) (options : UInt32)
  | nil (data : Block)

namespace Owned

variable {F : Type}

mutual

/-- The term without its blocks. -/
def erase : Owned F → Data F
  | .none _ => .none
  | .boolean _ b => .boolean b
  | .int _ integer => .int integer
  | .float _ floatingPoint => .float floatingPoint
  | .atom _ _ name => .atom name
  | .string _ _ bytes => .string bytes
  | .tuple _ _ _ slots => .tuple (eraseSlots slots)
  | .list _ _ nodes => .list (eraseNodes nodes)
  | .dict _ _ nodes => .dict (erasePairs nodes)
  | .bin _ _ bytes => .bin bytes
  | .time _ t => .time t
  | .regex _ _ source options => .regex source options
  | .nil _ => .nil

def eraseSlot : Option (Owned F) → Option (Data F)
  | Option.none => Option.none
  | some d => some (erase d)

def eraseSlots : List (Option (Owned F)) → List (Option (Data F))
  | [] => []
  | slot :: slots => eraseSlot slot :: eraseSlots slots

def eraseNodes : List (Block × Owned F) → List (Data F)
  | [] => []
  | (_, d) :: nodes => erase d :: eraseNodes nodes

def erasePairs : List (Block × Option (Owned F) × Option (Owned F)) →
    List (Option (Data F) × Option (Data F))
  | [] => []
  | (_, key, value) :: nodes => (eraseSlot key, eraseSlot value) :: erasePairs nodes

end

mutual

/-- The blocks of a term and of all terms below it. -/
def blocks : Owned F → Multiset Block
  | .atom data text _ => {data} + {text}
  | .string data text _ => {data} + {text}
  | .bin data text _ => {data} + {text}
  | .regex data text _ _ => {data} + {text}
  | .tuple data header elements slots => {data} + {header} + {elements} + blocksSlots slots
  | .list data header nodes => {data} + {header} + blocksNodes nodes
  | .dict data header nodes => {data} + {header} + blocksPairs nodes
  | .none data => {data}
  | .boolean data _ => {data}
  | .int data _ => {data}
  | .float data _ => {data}
  | .time data _ => {data}
  | .nil data => {data}

def blocksSlot : Option (Owned F) → Multiset Block
  | Option.none => 0
  | some d => blocks d

def blocksSlots : List (Option (Owned F)) → Multiset Block
  | [] => 0
  | slot :: slots => blocksSlot slot + blocksSlots slots

def blocksNodes : List (Block × Owned F) → Multiset Block
  | [] => 0
  | (node, d) :: nodes => {node} + blocks d + blocksNodes nodes

def blocksPairs : List (Block × Option (Owned F) × Option (Owned F)) → Multiset Block
  | [] => 0
  | (node, key, value) :: nodes => {node} + blocksSlot key + blocksSlot value + blocksPairs nodes

end

/-- The blocks of the term itself. -/
def own : Owned F → List Block
  | .atom data text _ => [data, text]
  | .string data text _ => [data, text]
  | .bin data text _ => [data, text]
  | .regex data text _ _ => [data, text]
  | .tuple data header elements _ => [data, header, elements]
  | .list data header _ => [data, header]
  | .dict data header _ => [data, header]
  | .none data => [data]
  | .boolean data _ => [data]
  | .int data _ => [data]
  | .float data _ => [data]
  | .time data _ => [data]
  | .nil data => [data]

/-- The block of the `bert_data_t`. -/
def data : Owned F → Block
  | .atom data _ _ => data
  | .string data _ _ => data
  | .bin data _ _ => data
  | .regex data _ _ _ => data
  | .tuple data _ _ _ => data
  | .list data _ _ => data
  | .dict data _ _ => data
  | .none data => data
  | .boolean data _ => data
  | .int data _ => data
  | .float data _ => data
  | .time data _ => data
  | .nil data => data

/-- The pointer `text`, `name`, `data` or `source` to the bytes of a term. -/
def text : Owned F → Option Block
  | .atom _ text _ => some text
  | .string _ text _ => some text
  | .bin _ text _ => some text
  | .regex _ text _ _ => some text
  | _ => Option.none

def setText : Owned F → List UInt8 → Owned F
  | .atom data text _, bytes => .atom data text bytes
  | .string data text _, bytes => .string data text bytes
  | .bin data text _, bytes => .bin data text bytes
  | d, _ => d

/-- `tuple->elements[i] = slot`. -/
def setSlot : Owned F → ℕ → Option (Owned F) → Owned F
  | .tuple data header elements slots, i, slot => .tuple data header elements (slots.set i slot)
  | d, _, _ => d

/-- `list->tail` or `dict->tail`. -/
def tail : Owned F → Option Block
  | .list _ _ nodes => nodes.getLast?.map Prod.fst
  | .dict _ _ nodes => nodes.getLast?.map Prod.fst
  | _ => Option.none

/-- A node behind the last one of a list. -/
def pushNode : Owned F → Block → Owned F → Owned F
  | .list data header nodes, node, entry => .list data header (nodes ++ [(node, entry)])
  | d, _, _ => d

/-- A node behind the last one of a dictionary. -/
def pushPair : Owned F → Block → Option (Owned F) → Option (Owned F) → Owned F
  | .dict data header nodes, node, key, value => .dict data header (nodes ++ [(node, key, value)])
  | d, _, _, _ => d

end Owned

/-- A program with a heap, run over a reader. -/
abbrev Managed (F α : Type) := Storing UInt8 Code (Event F) α

namespace Managed

open Storing

variable {F : Type}

/-! ## Destroying -/

/-- A term without further blocks. -/
def destroyPlain (data : Block) : Managed F Unit := do touch data; free data

/-- A term with a text. -/
def destroyText (data text : Block) : Managed F Unit := do touch data; free text; free data

mutual

/-- `bert_data_destroy`, whose switch has no case for the source of a regex. -/
def bertDataDestroy : Owned F → Managed F Unit
  | .atom data text _ => destroyText data text
  | .string data text _ => destroyText data text
  | .bin data text _ => destroyText data text
  -- `bert_tuple_destroy`
  | .tuple data header elements slots => do
      touch data
      touch header
      touch elements
      destroySlots slots
      free elements
      free header
      free data
  -- `bert_list_destroy`
  | .list data header nodes => do
      touch data
      touch header
      destroyNodes nodes
      free header
      free data
  -- `bert_dict_destroy`
  | .dict data header nodes => do
      touch data
      touch header
      destroyPairs nodes
      free header
      free data
  | .regex data text _ _ => do touch data; free data; abandon {text}
  | .none data => destroyPlain data
  | .boolean data _ => destroyPlain data
  | .int data _ => destroyPlain data
  | .float data _ => destroyPlain data
  | .time data _ => destroyPlain data
  | .nil data => destroyPlain data

/-- A pointer that may be `NULL`. -/
def destroySlot : Option (Owned F) → Managed F Unit
  | none => pure ()
  | some d => bertDataDestroy d

/-- The loop of `bert_tuple_destroy`. -/
def destroySlots : List (Option (Owned F)) → Managed F Unit
  | [] => pure ()
  | slot :: slots => do destroySlot slot; destroySlots slots

/-- The loop of `bert_list_destroy`. -/
def destroyNodes : List (Block × Owned F) → Managed F Unit
  | [] => pure ()
  | (node, d) :: nodes => do touch node; bertDataDestroy d; free node; destroyNodes nodes

/-- The loop of `bert_dict_destroy`. -/
def destroyPairs : List (Block × Option (Owned F) × Option (Owned F)) → Managed F Unit
  | [] => pure ()
  | (node, key, value) :: nodes => do
      touch node
      destroySlot key
      destroySlot value
      free node
      destroyPairs nodes

end

def destroyAll : List (Owned F) → Managed F Unit
  | [] => pure ()
  | d :: ds => do bertDataDestroy d; destroyAll ds

/-! ## Creating -/

/-- Sizes of the structures on a machine with 64-bit pointers. -/
def sizeofData : ℕ := 32
def sizeofHeader : ℕ := 16
def sizeofPointer : ℕ := 8
def sizeofListNode : ℕ := 16
def sizeofDictNode : ℕ := 24

/-- `bert_data_create` and the fields the creating functions set. -/
def bertDataCreate (fields : Block → Owned F) : Managed F (Option (Owned F)) := do
  match ← malloc sizeofData with
  | none => return none
  | some data => return some (fields data)

def bertDataCreateNil : Managed F (Option (Owned F)) := bertDataCreate .nil

def bertDataCreateTrue : Managed F (Option (Owned F)) := bertDataCreate (.boolean · 1)

def bertDataCreateFalse : Managed F (Option (Owned F)) := bertDataCreate (.boolean · 0)

def bertDataCreateInt (i : Int64) : Managed F (Option (Owned F)) := bertDataCreate (.int · i)

def bertDataCreateFloat (f : F) : Managed F (Option (Owned F)) := bertDataCreate (.float · f)

def bertDataCreateTime (timestamp : Int64) : Managed F (Option (Owned F)) :=
  bertDataCreate (.time · timestamp)

/-- The shared body of the functions that create a term with one more block: that
block comes first and is freed when there is none for the term. -/
def createWith (size : ℕ) (fields : Block → Block → Owned F) : Managed F (Option (Owned F)) := do
  match ← malloc size with
  | none => return none
  | some block =>
      match ← bertDataCreate (fields · block) with
      | none => do
          free block
          return none
      | some d => return some d

/-- A text of zero bytes. -/
def zeros (length : ℕ) : List UInt8 := List.replicate length 0

/-- `length + 1` is computed with the `int` a `uint16_t` is promoted to. -/
def bertDataCreateEmptyAtom (length : UInt16) : Managed F (Option (Owned F)) :=
  createWith (length.toNat + 1) (.atom · · (zeros length.toNat))

def bertDataCreateEmptyString (length : UInt16) : Managed F (Option (Owned F)) :=
  createWith (length.toNat + 1) (.string · · (zeros length.toNat))

def bertDataCreateEmptyBin (length : UInt32) : Managed F (Option (Owned F)) :=
  createWith (emptyBinSize length) (.bin · · (zeros length.toNat))

/-- `bert_list_create` and `bert_data_create_list`. -/
def bertDataCreateList : Managed F (Option (Owned F)) := createWith sizeofHeader (.list · · [])

/-- `bert_dict_create` and `bert_data_create_dict`. -/
def bertDataCreateDict : Managed F (Option (Owned F)) := createWith sizeofHeader (.dict · · [])

/-- `bert_tuple_create`: the block of the structure and that of the elements. -/
def bertTupleCreate (length : ℕ) : Managed F (Option (Block × Block)) := do
  match ← malloc (length * sizeofPointer) with
  | none => return none
  | some elements =>
      match ← malloc sizeofHeader with
      | none => do
          free elements
          return none
      | some header => return some (header, elements)

def bertDataCreateTuple (length : ℕ) : Managed F (Option (Owned F)) := do
  match ← bertTupleCreate length with
  | none => return none
  | some (header, elements) =>
      match ← bertDataCreate (.tuple · header elements (List.replicate length none)) with
      | none => do
          -- `bert_tuple_destroy` of a tuple without elements
          free elements
          free header
          return none
      | some d => return some d

/-- `memcpy` to a place in the text, of which `length` bytes are to be filled in all;
an array on the stack has no block. -/
def writeText (dest : Option Block) (offset size length : ℕ) : Managed F Unit :=
  match dest with
  | none => pure ()
  | some text => write text offset size length

/-- The source is copied to a block one byte longer, and a zero byte behind it;
`length + 1` is computed with the `uint32_t` itself. -/
def bertDataCreateRegex (source : List UInt8) (length options : UInt32) :
    Managed F (Option (Owned F)) := do
  match ← malloc (length + 1).toNat with
  | none => return none
  | some text =>
      write text 0 length.toNat length.toNat
      write text length.toNat 1 length.toNat
      match ← bertDataCreate (.regex · text source options) with
      | none => do
          free text
          return none
      | some d => return some d

/-! ## Reading and extending -/

def touchAll : List Block → Managed F Unit
  | [] => pure ()
  | b :: bs => do touch b; touchAll bs

/-- A term is read. -/
def look (d : Owned F) : Managed F Unit := touchAll d.own

def lookSlots : List (Option (Owned F)) → Managed F Unit
  | [] => pure ()
  | none :: slots => lookSlots slots
  | some d :: slots => do look d; lookSlots slots

def bertListAppend (list data : Owned F) : Managed F (Code × Owned F) := do
  match ← malloc sizeofListNode with
  | none => return (bertErrnoMalloc, list)
  | some node => do
      look list
      touchAll list.tail.toList
      return (bertSuccess, list.pushNode node data)

def bertDictAppend (dict : Owned F) (key value : Option (Owned F)) :
    Managed F (Code × Owned F) := do
  match ← malloc sizeofDictNode with
  | none => return (bertErrnoMalloc, dict)
  | some node => do
      look dict
      touchAll dict.tail.toList
      return (bertSuccess, dict.pushPair node key value)

end Managed

end LibBert
