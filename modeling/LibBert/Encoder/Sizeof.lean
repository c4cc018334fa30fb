import LibBert.Encoder.Storage
import LibBert.Encoder.Sinks

/-!
# The size of a term

`bert_data_sizeof` counts the bytes of a term in a recursion of its own.  Apart
from integers and times it agrees with what a push writes, unless the length of a
binary is so close to `2 ^ 32` that its sum with the header wraps.
-/

namespace LibBert

open Bytes

variable {F ω : Type}

/-! ## Counting -/

/-- `bert_data_sizeof_int`.  There is no result out of the range of `BERT_INT`,
where the search starts by shifting an `int` by 56 bits. -/
def bertDataSizeofInt (i : Int64) : Option ℕ :=
  if i ≤ bertMaxInt ∧ bertMinInt ≤ i then some (if i ≤ 0xff then 1 else 4) else none

mutual

/-- `bert_data_sizeof`.  The lengths of binaries and regular expressions are
added to their headers in 32 bits. -/
def bertDataSizeof : Data F → Option ℕ
  | .int integer => do return 1 + (← bertDataSizeofInt integer)
  | .float _ => some (1 + 31)
  | .atom name => some (1 + (2 + name.length))
  | .string text => some (1 + (4 + text.length))
  | .bin data => some (1 + (4 + data.length) % 2 ^ 32)
  | .tuple elements =>
      if elements.length ≤ 0xff then do return 1 + 1 + (← sizeofElements elements)
      else if elements.length ≤ 0xffffffff then do return 1 + 4 + (← sizeofElements elements)
      else some 1
  | .list entries => do return 1 + 4 + (← sizeofEntries entries)
  | .nil => some (1 + (1 + 1 + 2 + 4 + 1 + 2 + 3))
  | .boolean boolean =>
      some (1 + (1 + 1 + 2 + 4) +
        if boolean = 1 then 1 + 2 + 4 else if boolean = 0 then 1 + 2 + 5 else 0)
  | .dict entries => do return 1 + (1 + 1 + 2 + 4 + 1 + 2 + 4 + 1 + 4) + (← sizeofPairs entries)
  | .regex source options =>
      some (1 + (1 + 1 + 2 + 4 + 1 + 2 + 5) + (1 + 4 + source.length) % 2 ^ 32 + (1 + 4) +
        (((regexBits options).filterMap bertRegexOptname).map fun name ↦ 1 + 2 + name.length).sum)
  | .time time => do
      let megaseconds ← bertDataSizeofInt (time / 1000000)
      let seconds ← bertDataSizeofInt (time % 1000000)
      let last ← bertDataSizeofInt 0
      return 1 + (1 + 1 + 2 + 4 + 1 + 2 + 4) + (1 + megaseconds) + (1 + seconds) + (1 + last)
  | .none => some 0

/-- The loop over the elements of a tuple. -/
def sizeofElements : List (Option (Data F)) → Option ℕ
  | [] => some 0
  | none :: _ => none
  | some element :: rest => do return (← bertDataSizeof element) + (← sizeofElements rest)

/-- The loop over the nodes of a list. -/
def sizeofEntries : List (Data F) → Option ℕ
  | [] => some 0
  | entry :: rest => do return (← bertDataSizeof entry) + (← sizeofEntries rest)

/-- The loop over the nodes of a dict. -/
def sizeofPairs : List (Option (Data F) × Option (Data F)) → Option ℕ
  | [] => some 0
  | (some key, some value) :: rest => do
      return 1 + 1 + (← bertDataSizeof key) + (← bertDataSizeof value) + (← sizeofPairs rest)
  | _ :: _ => none

end

mutual

/-- Nothing below the term is an integer or a time. -/
def Structural : Data F → Prop
  | .int _ => False
  | .time _ => False
  | .tuple elements => StructuralSlots elements
  | .list entries => StructuralList entries
  | .dict entries => StructuralPairs entries
  | _ => True

def StructuralSlots : List (Option (Data F)) → Prop
  | [] => True
  | none :: rest => StructuralSlots rest
  | some d :: rest => Structural d ∧ StructuralSlots rest

def StructuralList : List (Data F) → Prop
  | [] => True
  | d :: rest => Structural d ∧ StructuralList rest

def StructuralPairs : List (Option (Data F) × Option (Data F)) → Prop
  | [] => True
  | (some key, some value) :: rest => Structural key ∧ Structural value ∧ StructuralPairs rest
  | _ :: rest => StructuralPairs rest

end

mutual

/-- No binary or source of a regular expression below the term is so long that
its length wraps when its header is added. -/
def SizesFit : Data F → Prop
  | .bin data => 4 + data.length < 2 ^ 32
  | .regex source _ => 1 + 4 + source.length < 2 ^ 32
  | .tuple elements => SizesFitSlots elements
  | .list entries => SizesFitList entries
  | .dict entries => SizesFitPairs entries
  | _ => True

def SizesFitSlots : List (Option (Data F)) → Prop
  | [] => True
  | none :: rest => SizesFitSlots rest
  | some d :: rest => SizesFit d ∧ SizesFitSlots rest

def SizesFitList : List (Data F) → Prop
  | [] => True
  | d :: rest => SizesFit d ∧ SizesFitList rest

def SizesFitPairs : List (Option (Data F) × Option (Data F)) → Prop
  | [] => True
  | (some key, some value) :: rest => SizesFit key ∧ SizesFit value ∧ SizesFitPairs rest
  | _ :: rest => SizesFitPairs rest

end

/-! ## The size and the encoding -/

/-- The count is at most the length, and equal to it just when all sizes fit. -/
def CountsUpTo (size : Option ℕ) (length : ℕ) (fit : Prop) : Prop :=
  ∃ n, size = some n ∧ n ≤ length ∧ (n = length ↔ fit)

theorem countsUpTo_of_eq {size length : ℕ} {fit : Prop} (heq : size = length) (hfit : fit) :
    CountsUpTo (some size) length fit :=
  ⟨size, rfl, heq.le, iff_of_true heq hfit⟩

theorem length_complexHeader (name : List UInt8) {n : ℕ} (hn : n + 2 ≤ 255) :
    (complexHeader name n).flatten.length = 12 + name.length := by
  have hbert : (cString "bert").length = 4 := rfl
  simp only [complexHeader, List.flatten_cons, List.flatten_nil, List.length_append,
    List.length_nil, length_tupleHeader, length_atomField, hbert, if_pos hn]
  omega

theorem length_flatten_map_atomField (names : List (List UInt8)) :
    (names.map atomField).flatten.length = (names.map fun name ↦ 1 + 2 + name.length).sum := by
  induction names with
  | nil => rfl
  | cons name names ih =>
      rw [List.map_cons, List.flatten_cons, List.length_append, ih, length_atomField,
        List.map_cons, List.sum_cons]

variable [Platform F]

mutual

theorem sizeof_spec : ∀ d : Data F, Encodable d → Structural d →
    CountsUpTo (bertDataSizeof d) (writes d).flatten.length (SizesFit d)
  | .none, h, _ => h.elim
  | .int _, _, h => h.elim
  | .time _, _, h => h.elim
  | .nil, _, _ => countsUpTo_of_eq (length_complexHeader (cString "nil") (by decide)).symm trivial
  | .boolean boolean, h, _ => by
      rw [bertDataSizeof, writes]
      rcases h with rfl | rfl
      · exact countsUpTo_of_eq (length_complexHeader (cString "false") (by decide)).symm trivial
      · exact countsUpTo_of_eq (length_complexHeader (cString "true") (by decide)).symm trivial
  | .float d, _, _ => by
      refine countsUpTo_of_eq ?_ trivial
      simp only [writes, List.flatten_singleton, length_floatField]
  | .atom name, _, _ => by
      refine countsUpTo_of_eq ?_ trivial
      simp only [writes, List.flatten_singleton, length_atomField]
      omega
  | .string text, _, _ => by
      refine countsUpTo_of_eq ?_ trivial
      simp only [writes, List.flatten_singleton, stringField, List.length_cons, List.length_append,
        length_bigEndian]
      omega
  | .bin data, _, _ => by
      refine ⟨_, rfl, ?_⟩
      simp only [writes, List.flatten_singleton, binField, List.length_cons, List.length_append,
        length_bigEndian, SizesFit, List.cons_append]
      omega
  | .tuple elements, henc, hstr => by
      obtain ⟨n, hn, hle, hiff⟩ := sizeofElements_spec elements henc.2 hstr
      have hlength := henc.1
      rw [writes, List.flatten_cons, List.length_append, length_tupleHeader, SizesFit, ← hiff]
      by_cases hsmall : elements.length ≤ 255
      · refine ⟨1 + 1 + n, ?_, ?_, ?_⟩
        · simp [bertDataSizeof, hsmall, hn]
        · rw [if_pos hsmall]
          omega
        · rw [if_pos hsmall]
          omega
      · have hlarge : elements.length ≤ 0xffffffff := by omega
        refine ⟨1 + 4 + n, ?_, ?_, ?_⟩
        · simp [bertDataSizeof, hsmall, hlarge, hn]
        · rw [if_neg hsmall]
          omega
        · rw [if_neg hsmall]
          omega
  | .list entries, henc, hstr => by
      obtain ⟨n, hn, hle, hiff⟩ := sizeofEntries_spec entries henc hstr
      rw [writes, List.flatten_cons, List.length_append, listHeader, List.length_cons,
        length_bigEndian, SizesFit, ← hiff]
      refine ⟨1 + 4 + n, ?_, ?_, ?_⟩
      · simp [bertDataSizeof, hn]
      · omega
      · omega
  | .dict entries, henc, hstr => by
      obtain ⟨n, hn, hle, hiff⟩ := sizeofPairs_spec entries henc hstr
      rw [writes, List.flatten_append, List.length_append, length_complexHeader _ (by decide),
        List.flatten_cons, List.length_append, listHeader, List.length_cons, length_bigEndian,
        SizesFit, ← hiff, show (cString "dict").length = 4 from rfl]
      refine ⟨1 + (1 + 1 + 2 + 4 + 1 + 2 + 4 + 1 + 4) + n, ?_, ?_, ?_⟩
      · simp [bertDataSizeof, hn]
      · omega
      · omega
  | .regex source options, _, _ => by
      refine ⟨_, rfl, ?_⟩
      simp only [writes, List.flatten_append, List.flatten_cons, List.length_append,
        length_complexHeader _ (show 2 + 2 ≤ 255 by decide), length_flatten_map_atomField, binField,
        listHeader, List.length_cons, length_bigEndian, SizesFit, List.cons_append,
        show (cString "regex").length = 5 from rfl]
      omega

theorem sizeofElements_spec : ∀ elements : List (Option (Data F)), EncodableSlots elements →
    StructuralSlots elements → CountsUpTo (sizeofElements elements)
      (writesSlots elements).flatten.length (SizesFitSlots elements)
  | [], _, _ => countsUpTo_of_eq rfl trivial
  | none :: _, h, _ => h.elim
  | some d :: rest, henc, hstr => by
      obtain ⟨n, hn, hle, hiff⟩ := sizeof_spec d henc.1 hstr.1
      obtain ⟨m, hm, hle', hiff'⟩ := sizeofElements_spec rest henc.2 hstr.2
      rw [writesSlots, List.flatten_append, List.length_append, SizesFitSlots, ← hiff, ← hiff']
      refine ⟨n + m, ?_, ?_, ?_⟩
      · simp [sizeofElements, hn, hm]
      · omega
      · omega

theorem sizeofEntries_spec : ∀ entries : List (Data F), EncodableList entries →
    StructuralList entries → CountsUpTo (sizeofEntries entries)
      (writesList entries).flatten.length (SizesFitList entries)
  | [], _, _ => countsUpTo_of_eq rfl trivial
  | d :: rest, henc, hstr => by
      obtain ⟨n, hn, hle, hiff⟩ := sizeof_spec d henc.1 hstr.1
      obtain ⟨m, hm, hle', hiff'⟩ := sizeofEntries_spec rest henc.2 hstr.2
      rw [writesList, List.flatten_append, List.length_append, SizesFitList, ← hiff, ← hiff']
      refine ⟨n + m, ?_, ?_, ?_⟩
      · simp [sizeofEntries, hn, hm]
      · omega
      · omega

theorem sizeofPairs_spec : ∀ entries : List (Option (Data F) × Option (Data F)),
    EncodablePairs entries → StructuralPairs entries → CountsUpTo (sizeofPairs entries)
      (writesPairs entries).flatten.length (SizesFitPairs entries)
  | [], _, _ => countsUpTo_of_eq rfl trivial
  | (none, _) :: _, h, _ => h.elim
  | (some _, none) :: _, h, _ => h.elim
  | (some key, some value) :: rest, henc, hstr => by
      obtain ⟨n, hn, hle, hiff⟩ := sizeof_spec key henc.1 hstr.1
      obtain ⟨m, hm, hle', hiff'⟩ := sizeof_spec value henc.2.1 hstr.2.1
      obtain ⟨k, hk, hle'', hiff''⟩ := sizeofPairs_spec rest henc.2.2 hstr.2.2
      rw [writesPairs, List.flatten_cons, List.length_append, List.flatten_append,
        List.length_append, List.flatten_append, List.length_append, SizesFitPairs, ← hiff, ← hiff',
        ← hiff'', length_tupleHeader, if_pos (by decide)]
      refine ⟨1 + 1 + n + m + k, ?_, ?_, ?_⟩
      · simp [sizeofPairs, hn, hm, hk]
      · omega
      · omega

end

/-! ## The size and the encoder -/

/-- A successful push counts the size, and one byte more for the magic byte of the
first; a buffer of just that size is large enough. -/
def SizeofAgrees (d : Data F) (size : ℕ) : Prop :=
  (∀ (ω : Type) (e e' : Encoder ω), bertEncoderPush d e = some (bertSuccess, e') →
    bertEncoderTotal e' = bertEncoderTotal e + (size + if e.wroteMagic then 0 else 1)) ∧
  (1 + size < 2 ^ 32 → ∀ (ω : Type) (ptr : List UInt8) (length : ℕ), length ≤ ptr.length →
    length ≤ 1 + size → ∃ code e',
      bertEncoderPush d (bertEncoderBuffer (bertEncoderCreate : Encoder ω) ptr length) =
        some (code, e') ∧
      code = if length = 1 + size then bertSuccess else bertErrnoShortWrite)

theorem sizeofAgrees_length {d : Data F} (hd : Encodable d) :
    SizeofAgrees d (encoding d).length := by
  refine ⟨fun ω e e' hpush ↦ ?_, fun hsize ω ptr length _ hle ↦ ?_⟩
  · rw [← pushAll_singleton] at hpush
    rw [bertEncoderTotal, total_of_pushAll hpush, length_output_singleton, bertEncoderTotal]
  · have hds : ∀ x ∈ [d], Encodable x := fun x hx ↦ List.mem_singleton.mp hx ▸ hd
    have hempty : (bufferStorage ptr (hle.trans_lt hsize)).At []
        (bertEncoderBuffer bertEncoderCreate ptr length : Encoder ω).mode := ⟨Nat.zero_le _, rfl⟩
    obtain ⟨code, e', done, hpush, ⟨hroom, -⟩, -, houtcome⟩ := Storage.pushAll hds hempty
    rw [pushAll_singleton] at hpush
    refine ⟨code, e', hpush, (bufferStorage_code houtcome hroom).trans ?_⟩
    have hlength : (output false [d]).length = 1 + (encoding d).length := by
      rw [length_output_singleton, Nat.add_comm]
      rfl
    have hiff : (output false [d]).length ≤ length ↔ length = 1 + (encoding d).length := by
      omega
    exact if_congr hiff rfl rfl

/-- Only the length of the encoding agrees. -/
theorem eq_length_of_sizeofAgrees {d : Data F} (hd : Encodable d) {size : ℕ}
    (h : SizeofAgrees d size) : size = (encoding d).length := by
  have hds : ∀ x ∈ [d], Encodable x := fun x hx ↦ List.mem_singleton.mp hx ▸ hd
  obtain ⟨e', hpush, -⟩ := AcceptingSink.recording.receiving.pushAll hds
    (e := { mode := .stream AcceptingSink.recording.toSink [], wroteMagic := true, total := 0 })
    ⟨[], .inl rfl⟩ le_rfl
  have htotal := total_of_pushAll hpush
  rw [pushAll_singleton] at hpush
  have hcount := h.1 _ _ _ hpush
  rw [length_output_singleton] at htotal
  simp only [bertEncoderTotal, if_true] at hcount htotal
  omega

theorem sizesFit_of_sizeofAgrees {d : Data F} (hd : Encodable d) (hstructural : Structural d)
    (h : ∃ size, bertDataSizeof d = some size ∧ SizeofAgrees d size) : SizesFit d := by
  obtain ⟨size, hsize, hagrees⟩ := h
  obtain ⟨n, hn, -, hiff⟩ := sizeof_spec d hd hstructural
  have hlength := eq_length_of_sizeofAgrees hd hagrees
  rw [hn] at hsize
  cases hsize
  exact hiff.mp hlength

/-- The size agrees with the encoder just when no length wraps. -/
theorem sizeof_agrees_iff {d : Data F} (hd : Encodable d) (hstructural : Structural d) :
    (∃ size, bertDataSizeof d = some size ∧ SizeofAgrees d size) ↔ SizesFit d := by
  constructor
  · exact sizesFit_of_sizeofAgrees hd hstructural
  · intro hfit
    obtain ⟨n, hn, -, hiff⟩ := sizeof_spec d hd hstructural
    refine ⟨n, hn, ?_⟩
    rw [hiff.mpr hfit]
    exact sizeofAgrees_length hd

/-- A list of an atom and a binary. -/
theorem sizeof_agrees_iff_list :
    (∃ size, bertDataSizeof (.list [.atom [97], .bin [0]] : Data Empty) = some size ∧
      SizeofAgrees (.list [.atom [97], .bin [0]] : Data Empty) size) ↔
        SizesFit (.list [.atom [97], .bin [0]] : Data Empty) :=
  sizeof_agrees_iff ⟨trivial, trivial, trivial⟩ ⟨trivial, trivial, trivial⟩

/-- The size of a binary of `2 ^ 32 - 4` bytes is counted as one. -/
theorem sizeof_wraps :
    ¬ ∀ d : Data Empty, Encodable d → Structural d →
      ∃ size, bertDataSizeof d = some size ∧ SizeofAgrees d size := by
  intro h
  have hd : Encodable (.bin (List.replicate (2 ^ 32 - 4) 0) : Data Empty) := trivial
  have hfit := sizesFit_of_sizeofAgrees hd trivial (h _ hd trivial)
  rw [SizesFit, List.length_replicate] at hfit
  omega

end LibBert
