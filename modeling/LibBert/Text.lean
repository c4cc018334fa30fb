import LibBert.Encoder.Outcome
import LibBert.Encoder.Sinks

/-!
# Terms made of C strings

`bert_data_create_atom` and `bert_data_create_string` copy as many characters as
their 16-bit length field counts of a text that may be longer.
-/

namespace LibBert

variable {F ω : Type}

/-! ## The functions -/

def strlen (s : List UInt8) : ℕ := (cName s).length

/-- `strncpy`: at most `n` characters, filled up with zero bytes. -/
def strncpy (dest src : List UInt8) (n : ℕ) : List UInt8 :=
  let copied := (cName src).take n
  copied ++ List.replicate (n - copied.length) 0 ++ dest.drop n

/-- The shared body of the two functions: the length of the text is stored in 16
bits, and that many of its characters are copied to a block of zero bytes that is
one byte longer. -/
def createText (create : List UInt8 → Data F) (text : List UInt8) : Data F :=
  let length : UInt16 := UInt16.ofNat (strlen text)
  create ((strncpy (List.replicate (length.toNat + 1) 0) text length.toNat).take length.toNat)

def bertDataCreateAtom (name : List UInt8) : Data F := createText .atom name

def bertDataCreateString (text : List UInt8) : Data F := createText .string text

/-- A text that can end in a zero byte. -/
structure CText : Type where
  chars : List UInt8
  nonzero : ∀ c ∈ chars, c ≠ 0

/-- The text as it stands in memory. -/
def CText.memory (text : CText) : List UInt8 := text.chars ++ [0]

/-! ## What is stored -/

theorem CText.cName_memory (text : CText) : cName text.memory = text.chars := by
  have hchars : ∀ c ∈ text.chars, decide (c ≠ 0) = true :=
    fun c hc ↦ decide_eq_true (text.nonzero c hc)
  rw [cName, memory, List.takeWhile_append_of_pos hchars]
  simp

/-- The term holds the text up to its length modulo `2 ^ 16`. -/
theorem createText_eq (create : List UInt8 → Data F) (text : CText) :
    createText create text.memory = create (text.chars.take (text.chars.length % 2 ^ 16)) := by
  have hcopied : (text.chars.take (text.chars.length % 2 ^ 16)).length =
      text.chars.length % 2 ^ 16 := List.length_take_of_le (Nat.mod_le _ _)
  simp only [createText, strncpy, strlen, text.cName_memory, UInt16.toNat_ofNat']
  rw [List.append_assoc, List.take_left' hcopied]

theorem take_mod_eq_iff (chars : List UInt8) :
    chars.take (chars.length % 2 ^ 16) = chars ↔ chars.length < 2 ^ 16 := by
  constructor
  · intro h
    have hlength := congrArg List.length h
    rw [List.length_take_of_le (Nat.mod_le _ _)] at hlength
    omega
  · intro h
    rw [Nat.mod_eq_of_lt h, List.take_length]

variable [Platform F]

theorem suffix_output_atom (wroteMagic : Bool) (name : List UInt8) :
    name <:+ output wroteMagic [(.atom name : Data F)] := by
  rw [output, encoding, writes, List.flatten_singleton, atomField, List.map_nil, List.flatten_nil,
    List.append_nil]
  exact (List.suffix_append _ name).trans (List.suffix_append _ _)

theorem suffix_output_string (wroteMagic : Bool) (text : List UInt8) :
    text <:+ output wroteMagic [(.string text : Data F)] := by
  rw [output, encoding, writes, List.flatten_singleton, stringField, List.map_nil,
    List.flatten_nil, List.append_nil]
  exact (List.suffix_append _ text).trans (List.suffix_append _ _)

/-- An atom or string of a text equals the text, and a push of it writes the whole
text, exactly when the text has fewer than `2 ^ 16` characters. -/
theorem text_stored_whole_iff (receiving : Receiving ω) {e : Encoder ω} {room : ℕ} (text : CText)
    {create : List UInt8 → Data F}
    (hcreate : create = bertDataCreateAtom ∨ create = bertDataCreateString)
    (htakes : receiving.Takes e.mode room)
    (hroom : (output e.wroteMagic [create text.memory]).length ≤ room) :
    ∃ e', bertEncoderPush (create text.memory) e = some (bertSuccess, e') ∧
      (((create text.memory).strequal text.chars = true ∧
          ∃ written, receiving.stored e'.mode = receiving.stored e.mode ++ written ∧
            text.chars <:+ written) ↔
        text.chars.length < 2 ^ 16) := by
  obtain ⟨hencodable, hequal, hsuffix⟩ : Encodable (create text.memory) ∧
      (create text.memory).strequal text.chars =
        (text.chars.take (text.chars.length % 2 ^ 16) == text.chars) ∧
      text.chars.take (text.chars.length % 2 ^ 16) <:+
        output e.wroteMagic [create text.memory] := by
    rcases hcreate with rfl | rfl
    · rw [bertDataCreateAtom, createText_eq]
      exact ⟨trivial, rfl, suffix_output_atom _ _⟩
    · rw [bertDataCreateString, createText_eq]
      exact ⟨trivial, rfl, suffix_output_string _ _⟩
  obtain ⟨e', hpush, hstored⟩ := receiving.pushAll
    (fun d hd ↦ by rwa [List.mem_singleton.mp hd]) htakes hroom
  rw [pushAll_singleton] at hpush
  refine ⟨e', hpush, ?_⟩
  rw [hequal, beq_iff_eq, take_mod_eq_iff]
  refine ⟨And.left, fun hlength ↦ ⟨hlength, _, hstored, ?_⟩⟩
  rwa [(take_mod_eq_iff text.chars).mpr hlength] at hsuffix

/-- A text of two characters. -/
theorem text_stored_whole_iff_hi :
    ∃ e', bertEncoderPush (bertDataCreateString [104, 105, 0] : Data Empty)
        (bertEncoderCallback bertEncoderCreate AcceptingSink.recording.toSink []) =
          some (bertSuccess, e') ∧
      (((bertDataCreateString [104, 105, 0] : Data Empty).strequal [104, 105] = true ∧
          ∃ written, AcceptingSink.recording.receiving.stored e'.mode = [] ++ written ∧
            [104, 105] <:+ written) ↔
        [(104 : UInt8), 105].length < 2 ^ 16) :=
  text_stored_whole_iff AcceptingSink.recording.receiving ⟨[104, 105], by simp⟩ (.inr rfl)
    ⟨[], .inr rfl⟩ (Nat.le_refl _)

/-- A text of `2 ^ 16` characters is stored as the empty one. -/
theorem text_of_65536_not_equal :
    ¬ ∀ text : CText,
      (bertDataCreateString text.memory : Data Empty).strequal text.chars = true ∧
        (bertDataCreateAtom text.memory : Data Empty).strequal text.chars = true := by
  intro h
  obtain ⟨hstring, -⟩ := h ⟨List.replicate 65536 97, fun c hc ↦ by
    rw [List.eq_of_mem_replicate hc]
    decide⟩
  rw [bertDataCreateString, createText_eq] at hstring
  have hsame := (take_mod_eq_iff _).mp (beq_iff_eq.mp hstring)
  rw [List.length_replicate] at hsame
  exact absurd hsame (by decide)

end LibBert
