import LibBert.Decoder.Fields

/-!
# Wire terms

The syntax of encoded terms and what they stand for.  A tuple or list header
announces a number that is kept apart from the elements which follow, and a
list keeps its tail byte, so that the syntax also covers the loosely framed
input the decoder takes; `Exact` singles out the framing the format asks for.
-/

namespace LibBert

open Bytes

/-- An encoded term. -/
inductive Wire : Type where
  /-- a term behind one `BERT_MAGIC` byte -/
  | marked (term : Wire)
  | nil
  | smallInt (i : UInt8)
  | int (i : UInt32)
  | bignum (large : Bool) (sign : UInt8) (magnitude : List UInt8)
  | float (text : List UInt8)
  | atom (name : List UInt8)
  | string (text : List UInt8)
  | bin (data : List UInt8)
  | tuple (large : Bool) (announced : ℕ) (elements : List Wire)
  | list (announced : ℕ) (elements : List Wire) (tail : UInt8)

namespace Wire

theorem induct {motive : Wire → Prop}
    (marked : ∀ term, motive term → motive (.marked term))
    (nil : motive .nil)
    (smallInt : ∀ i, motive (.smallInt i))
    (int : ∀ i, motive (.int i))
    (bignum : ∀ large sign magnitude, motive (.bignum large sign magnitude))
    (float : ∀ text, motive (.float text))
    (atom : ∀ name, motive (.atom name))
    (string : ∀ text, motive (.string text))
    (bin : ∀ data, motive (.bin data))
    (tuple : ∀ large announced elements, (∀ w ∈ elements, motive w) →
      motive (.tuple large announced elements))
    (list : ∀ announced elements tail, (∀ w ∈ elements, motive w) →
      motive (.list announced elements tail)) (w : Wire) : motive w := by
  refine @Wire.rec motive (fun ws ↦ ∀ w ∈ ws, motive w)
    marked nil smallInt int bignum float atom string bin tuple list ?_ ?_ w
  · simp
  · intro w ws hw hws
    simpa using ⟨hw, hws⟩

/-! ## Bytes -/

/-- The length field of a tuple or bignum header. -/
def size (large : Bool) (n : ℕ) : List UInt8 := bigEndian (if large then 4 else 1) n

@[simp] theorem length_size (large : Bool) (n : ℕ) :
    (size large n).length = if large then 4 else 1 := by
  simp [size]

def bignumTag (large : Bool) : UInt8 := if large then bertLargeBignum else bertSmallBignum

def tupleTag (large : Bool) : UInt8 := if large then bertLargeTuple else bertSmallTuple

mutual

/-- The bytes of a term, cut where the decoder's requests fall. -/
def chunks : Wire → List (List UInt8)
  | .marked term => [bertMagic] :: chunks term
  | .nil => [[bertNil]]
  | .smallInt i => [[bertSmallInt], [i]]
  | .int i => [[bertInt], bigEndian 4 i.toNat]
  | .bignum large sign magnitude =>
      [bignumTag large] :: size large magnitude.length :: [sign] :: pieces magnitude
  | .float text => [bertFloat] :: pieces text
  | .atom name => [bertAtom] :: bigEndian 2 name.length :: pieces name
  | .string text => [bertString] :: bigEndian 2 text.length :: pieces text
  | .bin data => [bertBin] :: bigEndian 4 data.length :: pieces data
  | .tuple large announced elements =>
      [tupleTag large] :: size large announced :: chunksList elements
  | .list announced elements tail =>
      [bertList] :: bigEndian 4 announced :: (chunksList elements ++ [[tail]])

def chunksList : List Wire → List (List UInt8)
  | [] => []
  | w :: ws => chunks w ++ chunksList ws

end

/-- The terms below a term. -/
def elements : Wire → List Wire
  | .tuple _ _ elements => elements
  | .list _ elements _ => elements
  | _ => []

/-- The term behind an optional `BERT_MAGIC` byte. -/
def unmark : Wire → Wire
  | .marked term => term
  | w => w

/-- The bytes of a term. -/
def bytes (w : Wire) : List UInt8 := w.chunks.flatten

/-! ## Meaning -/

end Wire

namespace Data

variable {F : Type}

/-- The atom that opens a complex term. -/
def isBert : Data F → Bool
  | .atom name => name == cString "bert"
  | _ => false

theorem isAtom_and_strequal_iff (d : Data F) :
    (d.isAtom ∧ d.strequal (cString "bert")) ↔ d.isBert := by
  cases d <;> simp [isAtom, strequal, isBert]

theorem isBert_iff {d : Data F} : d.isBert ↔ d = .atom (cString "bert") := by
  cases d <;> simp [isBert]

end Data

section Meaning

variable {F : Type} [Platform F]

/-- The term the elements behind the atom `bert` stand for. -/
def denoteComplex : List (Data F) → Option (Data F)
  | [.atom keyword] =>
      if keyword = cString "nil" then some .nil
      else if keyword = cString "true" then some (.boolean 1)
      else if keyword = cString "false" then some (.boolean 0)
      else none
  | [.atom keyword, listData] =>
      if keyword = cString "dict" then
        match listData with
        | .nil => some (.dict [])
        | .list entries => (dictEntries entries).map .dict
        | _ => none
      else none
  | [.atom keyword, .bin source, .list optList] =>
      if keyword = cString "regex" then
        match regexOptions optList 0 with
        | .mask options => some (.regex source options)
        | _ => none
      else none
  | [.atom keyword, megaseconds, seconds, microseconds] =>
      if keyword = cString "time" ∧ megaseconds.isInt ∧ seconds.isInt then
        some (.time (timestamp megaseconds seconds microseconds))
      else none
  | _ => none

/-- The term a tuple with a given announced length stands for: unless it is a
complex term the announced length is the number of its elements. -/
def denoteTuple (announced : ℕ) (elements : List (Data F)) : Option (Data F) :=
  match elements with
  | [] => if announced = 0 then some (.tuple []) else none
  | first :: rest =>
      if first.isBert then
        if announced = 0 then none else denoteComplex rest
      else if elements.length = announced then some (.tuple (elements.map some))
      else none

mutual

/-- The term a wire term stands for, if it is well formed and the decoder has room for
it: the block of a binary of `2 ^ 32 - 1` bytes is too short. -/
def Wire.denote : Wire → Option (Data F)
  | .marked (.marked _) => none
  | .marked term => Wire.denote term
  | .nil => some .nil
  | .smallInt i => some (.int (Int64.ofNat i.toNat))
  | .int i => some (.int (Int64.ofNat i.toNat))
  | .bignum _ sign magnitude =>
      if magnitude.length ≤ 8 then some (.int (bignumInteger sign magnitude)) else none
  | .float text =>
      if text.length = 31 then (Platform.sscanf (text ++ [0])).map .float else none
  | .atom name => if name.length < 2 ^ 16 then some (.atom name) else none
  | .string text => if text.length < 2 ^ 16 then some (.string text) else none
  | .bin data => if data.length < 2 ^ 32 - 1 then some (.bin data) else none
  | .tuple large announced elements =>
      if announced < if large then 2 ^ 32 else 2 ^ 8 then
        (Wire.denoteList elements).bind (denoteTuple announced)
      else none
  | .list announced elements _ =>
      if elements.length = announced ∧ announced < 2 ^ 32 then
        (Wire.denoteList elements).map .list
      else none

def Wire.denoteList : List Wire → Option (List (Data F))
  | [] => some []
  | w :: ws => (Wire.denote w).bind fun d ↦ (Wire.denoteList ws).map (d :: ·)

end

/-! ## What tuples stand for -/

theorem denoteTuple_cases {announced : ℕ} {ds : List (Data F)} {d : Data F}
    (h : denoteTuple announced ds = some d) :
    (d = .tuple (ds.map some) ∧ ds.length = announced) ∨
      ∃ rest, ds = .atom (cString "bert") :: rest ∧ denoteComplex rest = some d := by
  cases ds with
  | nil =>
      simp only [denoteTuple, Option.ite_none_right_eq_some, Option.some.injEq] at h
      exact .inl ⟨h.2.symm, h.1.symm⟩
  | cons first rest =>
      rw [denoteTuple] at h
      split_ifs at h with hbert hzero hlength
      · exact .inr ⟨rest, by rw [Data.isBert_iff.mp hbert], h⟩
      · exact .inl ⟨(Option.some.inj h).symm, hlength⟩

/-- The kinds of complex terms. -/
theorem denoteComplex_kinds {ds : List (Data F)} {d : Data F} (h : denoteComplex ds = some d) :
    (d = .nil ∧ ds = [.atom (cString "nil")]) ∨ (∃ boolean, d = .boolean boolean) ∨
      (∃ entries, d = .dict entries) ∨ (∃ source options, d = .regex source options) ∨
      ∃ time, d = .time time := by
  unfold denoteComplex at h
  split at h
  next keyword =>
      split_ifs at h with hnil <;> cases h
      · exact .inl ⟨rfl, by rw [hnil]⟩
      · exact .inr (.inl ⟨1, rfl⟩)
      · exact .inr (.inl ⟨0, rfl⟩)
  next keyword listData =>
      split_ifs at h
      split at h
      · cases h
        exact .inr (.inr (.inl ⟨[], rfl⟩))
      next entries =>
          obtain ⟨entries, -, rfl⟩ := Option.map_eq_some_iff.mp h
          exact .inr (.inr (.inl ⟨entries, rfl⟩))
      · cases h
  next keyword source optList =>
      split_ifs at h
      split at h
      next options _ =>
          cases h
          exact .inr (.inr (.inr (.inl ⟨source, options, rfl⟩)))
      · cases h
  next keyword megaseconds seconds microseconds =>
      split_ifs at h
      cases h
      exact .inr (.inr (.inr (.inr ⟨_, rfl⟩)))
  · cases h

theorem denoteComplex_ne_atom {ds : List (Data F)} {name : List UInt8} :
    denoteComplex ds ≠ some (.atom name) := fun h ↦ by
  rcases denoteComplex_kinds h with ⟨⟨⟩, -⟩ | ⟨_, ⟨⟩⟩ | ⟨_, ⟨⟩⟩ | ⟨_, _, ⟨⟩⟩ | ⟨_, ⟨⟩⟩

end Meaning

namespace Wire

mutual

/-- Every announced length is the number of elements, every list ends in
`BERT_NIL`. -/
def Exact : Wire → Prop
  | .marked term => Exact term
  | .tuple _ announced elements => announced = elements.length ∧ ExactList elements
  | .list announced elements tail =>
      announced = elements.length ∧ tail = bertNil ∧ ExactList elements
  | _ => True

def ExactList : List Wire → Prop
  | [] => True
  | w :: ws => Exact w ∧ ExactList ws

end

mutual

/-- The depth of nested pulls a term needs below the first. -/
def height : Wire → ℕ
  | .marked term => height term
  | .tuple _ _ elements => heightList elements + 1
  | .list _ elements _ => heightList elements + 1
  | _ => 0

def heightList : List Wire → ℕ
  | [] => 0
  | w :: ws => max (height w) (heightList ws)

end

theorem bytes_marked (term : Wire) : (marked term).bytes = bertMagic :: term.bytes := rfl

theorem bytes_bignum (large : Bool) (sign : UInt8) (magnitude : List UInt8) :
    (bignum large sign magnitude).bytes =
      bignumTag large :: size large magnitude.length ++ sign :: magnitude := by
  simp [bytes, chunks]

theorem bytes_tuple_eq (large : Bool) (announced : ℕ) (ws : List Wire) :
    (tuple large announced ws).bytes =
      tupleTag large :: size large announced ++ (chunksList ws).flatten := by
  simp [bytes, chunks]

theorem bytes_list_eq (announced : ℕ) (ws : List Wire) (tail : UInt8) :
    (list announced ws tail).bytes =
      bertList :: bigEndian 4 announced ++ (chunksList ws).flatten ++ [tail] := by
  simp [bytes, chunks]

theorem height_unmark (w : Wire) : w.unmark.height = w.height := by
  cases w <;> rfl

theorem heightList_elements_lt (w : Wire) (h : w.unmark.elements ≠ []) :
    heightList w.unmark.elements < w.height := by
  rw [← height_unmark]
  generalize w.unmark = w at h
  cases w <;> simp_all [elements, height]

theorem height_le_heightList {w : Wire} {ws : List Wire} (h : w ∈ ws) :
    w.height ≤ heightList ws := by
  induction ws with
  | nil => cases h
  | cons v ws ih =>
      rw [heightList]
      rcases List.mem_cons.mp h with rfl | hrest
      · exact le_max_left _ _
      · exact (ih hrest).trans (le_max_right _ _)

theorem heightList_append (ws vs : List Wire) :
    heightList (ws ++ vs) = max (heightList ws) (heightList vs) := by
  induction ws with
  | nil => simp [heightList]
  | cons w ws ih => rw [List.cons_append, heightList, heightList, ih, max_assoc]

theorem heightList_le_length {ws : List Wire} (h : ∀ w ∈ ws, w.height < w.bytes.length) :
    heightList ws ≤ (chunksList ws).flatten.length := by
  induction ws with
  | nil => simp [heightList]
  | cons w ws ih =>
      have hw := h w List.mem_cons_self
      have hws := ih fun v hv ↦ h v (List.mem_cons_of_mem w hv)
      rw [heightList, chunksList, List.flatten_append, List.length_append]
      rw [bytes] at hw
      omega

theorem height_lt_length_bytes (w : Wire) : w.height < w.bytes.length := by
  induction w using induct with
  | marked term ih =>
      rw [bytes, chunks, List.flatten_cons, List.length_append]
      exact Nat.lt_add_left _ ih
  | tuple large announced elements ih =>
      have helements := heightList_le_length ih
      have hsize : 1 ≤ (size large announced).length := by cases large <;> simp
      simp only [bytes, chunks, height, List.flatten_cons, List.length_append, List.length_cons,
        List.length_nil]
      omega
  | list announced elements tail ih =>
      have helements := heightList_le_length ih
      simp only [bytes, chunks, height, List.flatten_cons, List.flatten_append, List.length_append,
        List.length_cons, List.length_nil]
      omega
  | _ => simp [bytes, chunks, height]

end Wire

end LibBert
