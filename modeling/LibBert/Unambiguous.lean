import LibBert.Encoder.Form
import LibBert.Encoder.Sinks
import LibBert.Encoder.Storage

/-!
# Encodings are unambiguous

Terms that a push writes are told apart by their bytes, but for tuples that look
like complex values, values beyond the fields they are written to, and what the
encoder drops of times and options.
-/

namespace LibBert

open Bytes

variable {F ω : Type}

/-! ## Legible terms -/

mutual

/-- No text or count below the term outgrows its length field, no tuple opens with
the atom `bert`, no option is beyond those written, and all times are in the set. -/
def Legible (times : Set Int64) : Data F → Prop
  | .float _ => False
  | .atom name => name.length < 2 ^ 16
  | .string text => text.length < 2 ^ 16
  | .bin data => data.length < 2 ^ 32
  | .tuple elements =>
      elements.head? ≠ some (some (.atom (cString "bert"))) ∧ LegibleSlots times elements
  | .list entries => entries.length < 2 ^ 32 ∧ LegibleList times entries
  | .dict entries => entries.length < 2 ^ 32 ∧ LegiblePairs times entries
  | .time time => time ∈ times
  | .regex source options => source.length < 2 ^ 32 ∧ options < 16
  | _ => True

def LegibleSlots (times : Set Int64) : List (Option (Data F)) → Prop
  | [] => True
  | none :: rest => LegibleSlots times rest
  | some d :: rest => Legible times d ∧ LegibleSlots times rest

def LegibleList (times : Set Int64) : List (Data F) → Prop
  | [] => True
  | d :: rest => Legible times d ∧ LegibleList times rest

def LegiblePairs (times : Set Int64) : List (Option (Data F) × Option (Data F)) → Prop
  | [] => True
  | (some key, some value) :: rest =>
      Legible times key ∧ Legible times value ∧ LegiblePairs times rest
  | _ :: rest => LegiblePairs times rest

end

/-- No two times differ by a multiple of `2 ^ 32` million seconds. -/
def Spread (times : Set Int64) : Prop :=
  ∀ t ∈ times, ∀ u ∈ times, (2 ^ 32 * 1000000 : ℤ) ∣ t.toInt - u.toInt → t = u

/-! ## Kinds -/

/-- The kinds of terms, told by their forms. -/
inductive Kind where
  | none | nil | boolean | int | float | atom | string | bin | tuple | list | dict | time | regex
  deriving DecidableEq

def Data.kind : Data F → Kind
  | .none => .none
  | .nil => .nil
  | .boolean _ => .boolean
  | .int _ => .int
  | .float _ => .float
  | .atom _ => .atom
  | .string _ => .string
  | .bin _ => .bin
  | .tuple _ => .tuple
  | .list _ => .list
  | .dict _ => .dict
  | .time _ => .time
  | .regex _ _ => .regex

/-- The kind of complex value that a keyword names. -/
def keywordKind (keyword : List UInt8) : Kind :=
  if keyword = cString "nil" then .nil
  else if keyword = cString "true" ∨ keyword = cString "false" then .boolean
  else if keyword = cString "dict" then .dict
  else if keyword = cString "time" then .time
  else if keyword = cString "regex" then .regex
  else .tuple

def tupleKind : List Form → Kind
  | .atom name :: .atom keyword :: _ =>
      if name = cString "bert" then keywordKind keyword else .tuple
  | _ => .tuple

def Form.kind : Form → Kind
  | .uint _ => .int
  | .bignum _ => .int
  | .float _ => .float
  | .atom _ => .atom
  | .string _ => .string
  | .bin _ => .bin
  | .list _ => .list
  | .tuple elements => tupleKind elements

variable [Platform F]

/-! ## The form of a term -/

def complexForm (name : List UInt8) (elements : List Form) : Form :=
  .tuple (.atom (cString "bert") :: .atom name :: elements)

mutual

/-- The form that a push writes. -/
def formOf : Data F → Form
  | .none => .tuple []
  | .nil => complexForm (cString "nil") []
  | .boolean boolean => complexForm (if boolean = 1 then cString "true" else cString "false") []
  | .int i => if i ≤ bertMaxInt ∧ bertMinInt ≤ i then .uint (low32 i) else .bignum i
  | .float d => .float (((Platform.snprintf d).take 30 ++ List.replicate 31 0).take 31)
  | .atom name => .atom name
  | .string text => .string text
  | .bin data => .bin data
  | .tuple elements => .tuple (formSlots elements)
  | .list entries => .list (formList entries)
  | .dict entries => complexForm (cString "dict") [.list (formPairs entries)]
  | .time time =>
      complexForm (cString "time")
        [.uint (low32 (time / 1000000)), .uint (low32 (time % 1000000)), .uint 0]
  | .regex source options =>
      complexForm (cString "regex") [.bin source, .list ((optionNames options).map .atom)]

def formSlots : List (Option (Data F)) → List Form
  | [] => []
  | none :: rest => formSlots rest
  | some d :: rest => formOf d :: formSlots rest

def formList : List (Data F) → List Form
  | [] => []
  | d :: rest => formOf d :: formList rest

def formPairs : List (Option (Data F) × Option (Data F)) → List Form
  | [] => []
  | (some key, some value) :: rest => .tuple [formOf key, formOf value] :: formPairs rest
  | _ :: rest => formPairs rest

end

/-! ## The bytes of the form -/

theorem flatten_complexHeader (name : List UInt8) (elements : List Form) :
    (complexForm name elements).bytes =
      (complexHeader name elements.length).flatten ++ Form.bytesList elements := by
  simp [complexForm, complexHeader, Form.bytes, Form.bytesList]

theorem bytesList_atoms (names : List (List UInt8)) :
    Form.bytesList (names.map .atom) = (names.map atomField).flatten := by
  induction names with
  | nil => rfl
  | cons name names ih => simp [Form.bytesList, Form.bytes, ih]

theorem optionNames_injOn {options options' : UInt32} (h : options < 16) (h' : options' < 16)
    (heq : optionNames options = optionNames options') : options = options' := by
  obtain ⟨n, rfl⟩ := options_toNat h
  obtain ⟨m, rfl⟩ := options_toNat h'
  have hall : ∀ n m : Fin 16, optionNames (UInt32.ofNat n) = optionNames (UInt32.ofNat m) →
      n = m := by decide
  rw [hall n m heq]

theorem length_formSlots {elements : List (Option (Data F))} (h : EncodableSlots elements) :
    (formSlots elements).length = elements.length := by
  induction elements with
  | nil => rfl
  | cons slot rest ih =>
      cases slot with
      | none => exact h.elim
      | some d => rw [formSlots, List.length_cons, ih h.2, List.length_cons]

theorem length_formList (entries : List (Data F)) :
    (formList entries).length = entries.length := by
  induction entries with
  | nil => rfl
  | cons d rest ih => rw [formList, List.length_cons, ih, List.length_cons]

theorem length_formPairs {entries : List (Option (Data F) × Option (Data F))}
    (h : EncodablePairs entries) : (formPairs entries).length = entries.length := by
  induction entries with
  | nil => rfl
  | cons pair rest ih =>
      rcases pair with ⟨_ | key, _ | value⟩
      · exact h.elim
      · exact h.elim
      · exact h.elim
      · rw [formPairs, List.length_cons, ih h.2.2, List.length_cons]

mutual

theorem bytes_formOf {times : Set Int64} : ∀ d : Data F, Encodable d → Legible times d →
    (writes d).flatten = (formOf d).bytes
  | .none, h, _ => h.elim
  | .float _, _, h => h.elim
  | .nil, _, _ => by
      rw [formOf, flatten_complexHeader, Form.bytesList, List.append_nil]
      rfl
  | .boolean boolean, _, _ => by
      rw [formOf, flatten_complexHeader, Form.bytesList, List.append_nil]
      rfl
  | .int i, _, _ => by
      rw [writes, formOf, List.flatten_singleton]
      split_ifs <;> rfl
  | .atom name, _, _ => by simp [writes, formOf, Form.bytes]
  | .string text, _, _ => by simp [writes, formOf, Form.bytes]
  | .bin data, _, _ => by simp [writes, formOf, Form.bytes]
  | .tuple elements, henc, hlegible => by
      rw [writes, formOf, Form.bytes, List.flatten_cons, length_formSlots henc.2,
        bytes_formSlots elements henc.2 hlegible.2]
  | .list entries, henc, hlegible => by
      rw [writes, formOf, Form.bytes, List.flatten_cons, length_formList,
        bytes_formList entries henc hlegible.2]
  | .dict entries, henc, hlegible => by
      rw [writes, formOf, flatten_complexHeader, List.flatten_append, List.flatten_cons,
        bytes_formPairs entries henc hlegible.2, Form.bytesList, Form.bytesList, Form.bytes,
        length_formPairs henc, List.append_nil]
      rfl
  | .time time, _, _ => by
      rw [writes, formOf, flatten_complexHeader, List.flatten_append]
      simp [Form.bytesList, Form.bytes]
  | .regex source options, _, hlegible => by
      rw [writes, formOf, flatten_complexHeader, List.flatten_append, List.flatten_cons,
        List.flatten_cons, countP_regexBits]
      simp [Form.bytesList, Form.bytes, bytesList_atoms, optionNames]

theorem bytes_formSlots {times : Set Int64} : ∀ elements : List (Option (Data F)),
    EncodableSlots elements → LegibleSlots times elements →
      (writesSlots elements).flatten = Form.bytesList (formSlots elements)
  | [], _, _ => rfl
  | none :: _, h, _ => h.elim
  | some d :: rest, henc, hlegible => by
      rw [writesSlots, formSlots, Form.bytesList, List.flatten_append,
        bytes_formOf d henc.1 hlegible.1, bytes_formSlots rest henc.2 hlegible.2]

theorem bytes_formList {times : Set Int64} : ∀ entries : List (Data F), EncodableList entries →
    LegibleList times entries → (writesList entries).flatten = Form.bytesList (formList entries)
  | [], _, _ => rfl
  | d :: rest, henc, hlegible => by
      rw [writesList, formList, Form.bytesList, List.flatten_append,
        bytes_formOf d henc.1 hlegible.1, bytes_formList rest henc.2 hlegible.2]

theorem bytes_formPairs {times : Set Int64} :
    ∀ entries : List (Option (Data F) × Option (Data F)), EncodablePairs entries →
      LegiblePairs times entries →
        (writesPairs entries).flatten = Form.bytesList (formPairs entries)
  | [], _, _ => rfl
  | (none, _) :: _, h, _ => h.elim
  | (some _, none) :: _, h, _ => h.elim
  | (some key, some value) :: rest, henc, hlegible => by
      rw [writesPairs, formPairs, Form.bytesList, List.flatten_cons, List.flatten_append,
        List.flatten_append, bytes_formOf key henc.1 hlegible.1,
        bytes_formOf value henc.2.1 hlegible.2.1, bytes_formPairs rest henc.2.2 hlegible.2.2]
      simp [Form.bytes, Form.bytesList]

end

/-! ## The fields fit -/

theorem fits_complexForm {name : List UInt8} {elements : List Form} (hname : name.length < 2 ^ 16)
    (hlength : elements.length < 2 ^ 31) (helements : Form.FitsList elements) :
    (complexForm name elements).Fits := by
  refine ⟨?_, show (cString "bert").length < 2 ^ 16 by decide, hname, helements⟩
  simp only [List.length_cons]
  omega

theorem fitsList_optionNames (options : UInt32) :
    (optionNames options).length < 2 ^ 32 ∧ Form.FitsList ((optionNames options).map .atom) := by
  have hatoms : ∀ names : List (List UInt8), (∀ name ∈ names, name.length < 2 ^ 16) →
      Form.FitsList (names.map .atom) := by
    intro names hnames
    induction names with
    | nil => trivial
    | cons name names ih =>
        rw [List.forall_mem_cons] at hnames
        exact ⟨hnames.1, ih hnames.2⟩
  exact ⟨(optionNames_fit options).1, hatoms _ (optionNames_fit options).2⟩

mutual

theorem fits_formOf {times : Set Int64} : ∀ d : Data F, Encodable d → Legible times d →
    (formOf d).Fits
  | .none, h, _ => h.elim
  | .float _, _, h => h.elim
  | .nil, _, _ => fits_complexForm (by decide) (by decide) trivial
  | .boolean boolean, _, _ => by
      rw [formOf]
      split_ifs
      · exact fits_complexForm (by decide) (by decide) trivial
      · exact fits_complexForm (by decide) (by decide) trivial
  | .int i, _, _ => by
      rw [formOf]
      split_ifs
      · exact low32_lt i
      · trivial
  | .atom name, _, h => h
  | .string text, _, h => show text.length < 2 ^ 32 from h.trans (by decide)
  | .bin data, _, h => h
  | .tuple elements, henc, hlegible =>
      ⟨by rw [length_formSlots henc.2]; exact henc.1, fits_formSlots elements henc.2 hlegible.2⟩
  | .list entries, henc, hlegible =>
      ⟨by rw [length_formList]; exact hlegible.1, fits_formList entries henc hlegible.2⟩
  | .dict entries, henc, hlegible =>
      fits_complexForm (by decide) (show 1 < 2 ^ 31 by decide)
        ⟨⟨by rw [length_formPairs henc]; exact hlegible.1, fits_formPairs entries henc hlegible.2⟩,
          trivial⟩
  | .time time, _, _ =>
      fits_complexForm (by decide) (show 3 < 2 ^ 31 by decide)
        ⟨low32_lt _, low32_lt _, show 0 < 2 ^ 32 by decide, trivial⟩
  | .regex source options, _, hlegible =>
      fits_complexForm (by decide) (show 2 < 2 ^ 31 by decide)
        ⟨hlegible.1, ⟨by rw [List.length_map]; exact (fitsList_optionNames options).1,
          (fitsList_optionNames options).2⟩, trivial⟩

theorem fits_formSlots {times : Set Int64} : ∀ elements : List (Option (Data F)),
    EncodableSlots elements → LegibleSlots times elements → Form.FitsList (formSlots elements)
  | [], _, _ => trivial
  | none :: _, h, _ => h.elim
  | some d :: rest, henc, hlegible =>
      ⟨fits_formOf d henc.1 hlegible.1, fits_formSlots rest henc.2 hlegible.2⟩

theorem fits_formList {times : Set Int64} : ∀ entries : List (Data F), EncodableList entries →
    LegibleList times entries → Form.FitsList (formList entries)
  | [], _, _ => trivial
  | d :: rest, henc, hlegible =>
      ⟨fits_formOf d henc.1 hlegible.1, fits_formList rest henc.2 hlegible.2⟩

theorem fits_formPairs {times : Set Int64} :
    ∀ entries : List (Option (Data F) × Option (Data F)), EncodablePairs entries →
      LegiblePairs times entries → Form.FitsList (formPairs entries)
  | [], _, _ => trivial
  | (none, _) :: _, h, _ => h.elim
  | (some _, none) :: _, h, _ => h.elim
  | (some key, some value) :: rest, henc, hlegible =>
      ⟨⟨show 2 < 2 ^ 32 by decide, fits_formOf key henc.1 hlegible.1,
          fits_formOf value henc.2.1 hlegible.2.1, trivial⟩,
        fits_formPairs rest henc.2.2 hlegible.2.2⟩

end

/-! ## The kind of a form -/

theorem kind_complexForm (keyword : List UInt8) (elements : List Form) :
    (complexForm keyword elements).kind = keywordKind keyword := by
  rw [complexForm, Form.kind, tupleKind, if_pos rfl]

theorem tupleKind_of_head {elements : List Form}
    (h : elements.head? ≠ some (.atom (cString "bert"))) : tupleKind elements = .tuple := by
  unfold tupleKind
  split
  · next name keyword rest =>
      exact if_neg fun hname ↦ h (by rw [hname]; rfl)
  · rfl

theorem eq_atom_of_formOf {d : Data F} {name : List UInt8} (h : formOf d = .atom name) :
    d = .atom name := by
  cases d with
  | atom name' =>
      rw [formOf] at h
      injection h with h
      rw [h]
  | int i =>
      rw [formOf] at h
      split_ifs at h
  | _ => cases h

theorem head_formSlots {times : Set Int64} {elements : List (Option (Data F))}
    (henc : EncodableSlots elements) (hlegible : Legible times (.tuple elements)) :
    (formSlots elements).head? ≠ some (.atom (cString "bert")) := by
  intro h
  rcases elements with _ | ⟨_ | d, rest⟩
  · cases h
  · exact henc.elim
  · have hd := eq_atom_of_formOf (Option.some.inj h)
    exact hlegible.1 (by rw [hd]; rfl)

theorem kind_formOf {times : Set Int64} {d : Data F} (henc : Encodable d)
    (hlegible : Legible times d) : (formOf d).kind = d.kind := by
  cases d with
  | none => exact henc.elim
  | nil => exact kind_complexForm _ _
  | boolean boolean =>
      rw [formOf, kind_complexForm, Data.kind]
      split_ifs <;> decide
  | int i =>
      rw [formOf]
      split_ifs <;> rfl
  | tuple elements =>
      rw [formOf, Form.kind]
      exact tupleKind_of_head (head_formSlots henc.2 hlegible)
  | dict entries => exact kind_complexForm _ _
  | time time => exact kind_complexForm _ _
  | regex source options => exact kind_complexForm _ _
  | _ => rfl

/-! ## The term of a form -/

theorem small_of_low32 {i j : Int64} (hi : i ≤ bertMaxInt ∧ bertMinInt ≤ i)
    (hj : j ≤ bertMaxInt ∧ bertMinInt ≤ j) (h : low32 i = low32 j) : i = j := by
  rw [small_iff] at hi hj
  rw [low32, low32] at h
  exact Int64.toInt_inj.mp (by omega)

/-- Times with the same fields differ by a multiple of what the fields hold. -/
theorem time_dvd {t u : Int64} (hmegaseconds : low32 (t / 1000000) = low32 (u / 1000000))
    (hseconds : low32 (t % 1000000) = low32 (u % 1000000)) :
    (2 ^ 32 * 1000000 : ℤ) ∣ t.toInt - u.toInt := by
  have ht := time_parts t
  have hu := time_parts u
  rw [low32, low32] at hmegaseconds hseconds
  omega

theorem atoms_injective {names names' : List (List UInt8)}
    (h : names.map Form.atom = names'.map Form.atom) : names = names' :=
  (List.map_inj_right fun _ _ heq ↦ Form.atom.inj heq).mp h

mutual

theorem formOf_injOn {times : Set Int64} (hspread : Spread times) : ∀ d d' : Data F,
    Encodable d → Legible times d → Encodable d' → Legible times d' → formOf d = formOf d' → d = d'
  | d, d', henc, hlegible, henc', hlegible', h => by
      have hkind : d.kind = d'.kind := by
        rw [← kind_formOf henc hlegible, h, kind_formOf henc' hlegible']
      cases d with
      | none => exact henc.elim
      | float _ => exact hlegible.elim
      | nil =>
          cases d' with
          | nil => rfl
          | _ => cases hkind
      | boolean b =>
          cases d' with
          | boolean b' =>
              have hname : (if b = 1 then cString "true" else cString "false") =
                  if b' = 1 then cString "true" else cString "false" := by
                simpa [formOf, complexForm] using h
              rcases henc with rfl | rfl <;> rcases henc' with rfl | rfl
              · rfl
              · exact absurd hname (by decide)
              · exact absurd hname (by decide)
              · rfl
          | _ => cases hkind
      | int i =>
          cases d' with
          | int j =>
              rw [formOf, formOf] at h
              split_ifs at h with hi hj hj
              · rw [small_of_low32 hi hj (Form.uint.inj h)]
              · rw [Form.bignum.inj h]
          | _ => cases hkind
      | atom name =>
          cases d' with
          | atom name' => rw [Form.atom.inj h]
          | _ => cases hkind
      | string text =>
          cases d' with
          | string text' => rw [Form.string.inj h]
          | _ => cases hkind
      | bin data =>
          cases d' with
          | bin data' => rw [Form.bin.inj h]
          | _ => cases hkind
      | tuple elements =>
          cases d' with
          | tuple elements' =>
              rw [formSlots_injOn hspread elements elements' henc.2 hlegible.2 henc'.2 hlegible'.2
                (Form.tuple.inj h)]
          | _ => cases hkind
      | list entries =>
          cases d' with
          | list entries' =>
              rw [formList_injOn hspread entries entries' henc hlegible.2 henc' hlegible'.2
                (Form.list.inj h)]
          | _ => cases hkind
      | dict entries =>
          cases d' with
          | dict entries' =>
              have hpairs : formPairs entries = formPairs entries' := by
                simpa [formOf, complexForm] using h
              rw [formPairs_injOn hspread entries entries' henc hlegible.2 henc' hlegible'.2 hpairs]
          | _ => cases hkind
      | time t =>
          cases d' with
          | time u =>
              have hfields : low32 (t / 1000000) = low32 (u / 1000000) ∧
                  low32 (t % 1000000) = low32 (u % 1000000) := by
                simpa [formOf, complexForm] using h
              rw [hspread t hlegible u hlegible' (time_dvd hfields.1 hfields.2)]
          | _ => cases hkind
      | regex source options =>
          cases d' with
          | regex source' options' =>
              have hparts : source = source' ∧
                  (optionNames options).map Form.atom = (optionNames options').map .atom := by
                simpa [formOf, complexForm] using h
              rw [hparts.1, optionNames_injOn hlegible.2 hlegible'.2 (atoms_injective hparts.2)]
          | _ => cases hkind

theorem formSlots_injOn {times : Set Int64} (hspread : Spread times) :
    ∀ elements elements' : List (Option (Data F)), EncodableSlots elements →
      LegibleSlots times elements → EncodableSlots elements' → LegibleSlots times elements' →
        formSlots elements = formSlots elements' → elements = elements'
  | [], [], _, _, _, _, _ => rfl
  | [], some _ :: _, _, _, _, _, h => by cases h
  | some _ :: _, [], _, _, _, _, h => by cases h
  | none :: _, _, h, _, _, _, _ => h.elim
  | _, none :: _, _, _, h, _, _ => h.elim
  | some d :: rest, some d' :: rest', henc, hlegible, henc', hlegible', h => by
      obtain ⟨hd, hrest⟩ := List.cons.inj h
      rw [formOf_injOn hspread d d' henc.1 hlegible.1 henc'.1 hlegible'.1 hd,
        formSlots_injOn hspread rest rest' henc.2 hlegible.2 henc'.2 hlegible'.2 hrest]

theorem formList_injOn {times : Set Int64} (hspread : Spread times) :
    ∀ entries entries' : List (Data F), EncodableList entries → LegibleList times entries →
      EncodableList entries' → LegibleList times entries' →
        formList entries = formList entries' → entries = entries'
  | [], [], _, _, _, _, _ => rfl
  | [], _ :: _, _, _, _, _, h => by cases h
  | _ :: _, [], _, _, _, _, h => by cases h
  | d :: rest, d' :: rest', henc, hlegible, henc', hlegible', h => by
      obtain ⟨hd, hrest⟩ := List.cons.inj h
      rw [formOf_injOn hspread d d' henc.1 hlegible.1 henc'.1 hlegible'.1 hd,
        formList_injOn hspread rest rest' henc.2 hlegible.2 henc'.2 hlegible'.2 hrest]

theorem formPairs_injOn {times : Set Int64} (hspread : Spread times) :
    ∀ entries entries' : List (Option (Data F) × Option (Data F)), EncodablePairs entries →
      LegiblePairs times entries → EncodablePairs entries' → LegiblePairs times entries' →
        formPairs entries = formPairs entries' → entries = entries'
  | [], [], _, _, _, _, _ => rfl
  | [], (some _, some _) :: _, _, _, _, _, h => by cases h
  | (some _, some _) :: _, [], _, _, _, _, h => by cases h
  | (none, _) :: _, _, h, _, _, _, _ => h.elim
  | (some _, none) :: _, _, h, _, _, _, _ => h.elim
  | _, (none, _) :: _, _, _, h, _, _ => h.elim
  | _, (some _, none) :: _, _, _, h, _, _ => h.elim
  | (some key, some value) :: rest, (some key', some value') :: rest', henc, hlegible, henc',
      hlegible', h => by
      obtain ⟨hpair, hrest⟩ := List.cons.inj h
      have hparts : formOf key = formOf key' ∧ formOf value = formOf value' := by
        simpa using hpair
      rw [formOf_injOn hspread key key' henc.1 hlegible.1 henc'.1 hlegible'.1 hparts.1,
        formOf_injOn hspread value value' henc.2.1 hlegible.2.1 henc'.2.1 hlegible'.2.1 hparts.2,
        formPairs_injOn hspread rest rest' henc.2.2 hlegible.2.2 henc'.2.2 hlegible'.2.2 hrest]

end

theorem encoding_injOn {times : Set Int64} (hspread : Spread times) {d d' : Data F}
    (henc : Encodable d) (hlegible : Legible times d) (henc' : Encodable d')
    (hlegible' : Legible times d')
    (h : encoding d = encoding d') : d = d' := by
  rw [encoding, encoding, bytes_formOf d henc hlegible, bytes_formOf d' henc' hlegible'] at h
  have hform := Form.unique (formOf d) (formOf d') [] [] (fits_formOf d henc hlegible)
    (fits_formOf d' henc' hlegible') (by rw [h])
  exact formOf_injOn hspread d d' henc hlegible henc' hlegible' hform.1

/-! ## Pushes -/

/-- A created encoder that has been given its mode. -/
def Encoder.fresh (mode : EncoderMode ω) : Encoder ω :=
  { (bertEncoderCreate : Encoder ω) with mode := mode }

theorem Storage.stored_of_push {storage : Storage ω} {mode : EncoderMode ω} {e : Encoder ω}
    {d : Data F} (hmode : storage.At [] mode)
    (h : bertEncoderPush d (.fresh mode) = some (bertSuccess, e)) :
    Encodable d ∧ storage.At (output false [d]) e.mode := by
  rw [← pushAll_singleton] at h
  have hds := encodable_of_pushAll h
  have hfresh : storage.At [] (Encoder.fresh mode).mode := hmode
  obtain ⟨code, e', done, hpush, hat, -, houtcome⟩ := storage.pushAll hds hfresh
  rw [h] at hpush
  cases hpush
  rcases houtcome with ⟨-, rfl⟩ | ⟨hcode, -⟩
  · exact ⟨hds d List.mem_cons_self, hat⟩
  · exact absurd rfl hcode

/-- Of two different terms that are pushed with success on fresh encoders, the
bytes stored are different. -/
theorem pushes_store_different {ω' : Type} {times : Set Int64} (hspread : Spread times)
    {d d' : Data F} (hlegible : Legible times d) (hlegible' : Legible times d') (hne : d ≠ d')
    {storage : Storage ω} {storage' : Storage ω'} {mode : EncoderMode ω} {mode' : EncoderMode ω'}
    (hmode : storage.At [] mode) (hmode' : storage'.At [] mode') {e : Encoder ω} {e' : Encoder ω'}
    (h : bertEncoderPush d (.fresh mode) = some (bertSuccess, e))
    (h' : bertEncoderPush d' (.fresh mode') = some (bertSuccess, e')) :
    storage.At (output false [d]) e.mode ∧ storage'.At (output false [d']) e'.mode ∧
      output false [d] ≠ output false [d'] := by
  obtain ⟨henc, hat⟩ := Storage.stored_of_push hmode h
  obtain ⟨henc', hat'⟩ := Storage.stored_of_push hmode' h'
  refine ⟨hat, hat', fun heq ↦ hne ?_⟩
  have hencoding : encoding d = encoding d' := by
    simpa [output] using heq
  exact encoding_injOn hspread henc hlegible henc' hlegible' hencoding

/-- Two atoms on buffers of five bytes. -/
theorem pushes_store_different_atoms :
    (bufferStorage [0, 0, 0, 0, 0] (by decide : 5 < 2 ^ 32) : Storage Unit).At
        (output false [(.atom [97] : Data Empty)]) (.buffer [131, 100, 0, 1, 97] 5 5) ∧
      (bufferStorage [0, 0, 0, 0, 0] (by decide : 5 < 2 ^ 32) : Storage Unit).At
        (output false [(.atom [98] : Data Empty)]) (.buffer [131, 100, 0, 1, 98] 5 5) ∧
      output false [(.atom [97] : Data Empty)] ≠ output false [(.atom [98] : Data Empty)] := by
  have hspread : Spread ∅ := fun t ht ↦ ht.elim
  have hlegible : ∀ byte, Legible ∅ (.atom [byte] : Data Empty) := fun _ ↦ show 1 < 2 ^ 16 by decide
  have hempty : (bufferStorage [0, 0, 0, 0, 0] (by decide : 5 < 2 ^ 32) : Storage Unit).At []
      (.buffer [0, 0, 0, 0, 0] 5 0) := ⟨by decide, rfl⟩
  exact pushes_store_different hspread (hlegible 97) (hlegible 98) (by simp) hempty hempty
    (e := ⟨.buffer [131, 100, 0, 1, 97] 5 5, true, 5⟩) rfl rfl

/-- The term nil and the tuple of the atoms `bert` and `nil` are stored alike. -/
theorem nil_stored_as_tuple :
    ¬ ∀ (d d' : Data Empty) (e e' : Encoder (List UInt8)) (stored stored' : List UInt8), d ≠ d' →
      bertEncoderPush d
          (bertEncoderCallback bertEncoderCreate AcceptingSink.recording.toSink []) =
        some (bertSuccess, e) →
      bertEncoderPush d'
          (bertEncoderCallback bertEncoderCreate AcceptingSink.recording.toSink []) =
        some (bertSuccess, e') →
      e.mode = .callback AcceptingSink.recording.toSink stored →
      e'.mode = .callback AcceptingSink.recording.toSink stored' → stored ≠ stored' := by
  intro h
  have hne : (.nil : Data Empty) ≠
      .tuple [some (.atom (cString "bert")), some (.atom (cString "nil"))] := nofun
  exact h _ _ _ _ _ _ hne rfl rfl rfl rfl rfl

end LibBert
