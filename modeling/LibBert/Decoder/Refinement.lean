import LibBert.Decoder.Discipline
import LibBert.Decoder.Window

/-!
# The window refines a plain reader

The unread bytes of the window followed by what the source still holds are the
input of a plain reader.  Every path of `bert_decoder_read` keeps this, as long
as a source that is asked for more delivers what the request misses or all that
remains.
-/

namespace LibBert

open Reading

variable {F ρ : Type}

/-! ## The two readers -/

/-- What the source of a mode answers to a request, and the mode behind it. -/
def DecoderMode.fill : DecoderMode ρ → ℕ → Option (List UInt8) × DecoderMode ρ
  | .none, _ => (.none, .none)
  | .stream file fd, space => ((file.read fd space).1, .stream file (file.read fd space).2)
  | .buffer ptr length index, space =>
      (some (ptr.take (min (length - index) space)),
        .buffer ptr length ((index + min (length - index) space) % 2 ^ 32))
  | .callback ptr data, space =>
      ((ptr.read data space).1, .callback ptr (ptr.read data space).2)

/-- The code for a source that fails. -/
def DecoderMode.failure : DecoderMode ρ → Code
  | .stream _ _ => bertErrnoRead
  | _ => bertErrnoInvalid

theorem DecoderMode.readFails_failure (mode : DecoderMode ρ) : ReadFails mode.failure := by
  cases mode <;> simp [failure, ReadFails]

namespace Decoder

def setMode (d : Decoder ρ) (mode : DecoderMode ρ) : Decoder ρ := { d with mode := mode }

theorem fillShortBuffer_eq (d : Decoder ρ) (size remainingSpace space : ℕ) :
    d.fillShortBuffer size remainingSpace space =
      match d.mode.fill space with
      | (some bytes, mode) => (d.setMode mode).receive bytes size remainingSpace
      | (none, mode) => (d.mode.failure, d.setMode mode) := by
  obtain ⟨mode, total, shortLength, shortIndex, shortBuffer⟩ := d
  cases mode with
  | none => rfl
  | stream file fd =>
      simp only [fillShortBuffer, DecoderMode.fill]
      rcases file.read fd space with ⟨_ | bytes, fd'⟩ <;> rfl
  | buffer ptr length index => rfl
  | callback ptr data =>
      simp only [fillShortBuffer, DecoderMode.fill]
      rcases ptr.read data space with ⟨_ | bytes, data'⟩ <;> rfl

theorem receive_cases (d : Decoder ρ) (bytes : List UInt8) (size remainingSpace : ℕ) :
    (d.receive bytes size remainingSpace).1 = bertSuccess ∧
        size ≤ (d.receive bytes size remainingSpace).2.shortLength -
          (d.receive bytes size remainingSpace).2.shortIndex ∨
      ReadFails (d.receive bytes size remainingSpace).1 := by
  simp only [receive]
  split_ifs with hnone hshort
  · exact .inr (.inl rfl)
  · exact .inr (.inr (.inl rfl))
  · exact .inl ⟨rfl, Nat.le_of_not_lt hshort⟩

theorem fillShortBuffer_cases (d : Decoder ρ) (size remainingSpace space : ℕ) :
    (d.fillShortBuffer size remainingSpace space).1 = bertSuccess ∧
        size ≤ (d.fillShortBuffer size remainingSpace space).2.shortLength -
          (d.fillShortBuffer size remainingSpace space).2.shortIndex ∨
      ReadFails (d.fillShortBuffer size remainingSpace space).1 := by
  rw [fillShortBuffer_eq]
  split
  · exact receive_cases _ _ _ _
  · exact .inr d.mode.readFails_failure

end Decoder

/-- A read succeeds with as many unread bytes as were asked for, or fails. -/
theorem bertDecoderRead_cases (d : Decoder ρ) (size : ℕ) :
    (bertDecoderRead d size).1 = bertSuccess ∧
        size ≤ (bertDecoderRead d size).2.shortLength - (bertDecoderRead d size).2.shortIndex ∨
      ReadFails (bertDecoderRead d size).1 := by
  simp only [bertDecoderRead]
  split_ifs with hle
  · exact .inl ⟨rfl, hle⟩
  · exact Decoder.fillShortBuffer_cases _ _ _ _
  · exact Decoder.fillShortBuffer_cases _ _ _ _

theorem bertDecoderRead_again (d : Decoder ρ) (size : ℕ) (d' : Decoder ρ)
    (h : bertDecoderRead d size = (bertSuccess, d')) :
    bertDecoderRead d' size = (bertSuccess, d') := by
  rcases bertDecoderRead_cases d size with ⟨-, hle⟩ | hfails
  · rw [h] at hle
    rw [bertDecoderRead, if_pos hle]
  · have hneg := hfails.neg
    rw [h] at hneg
    exact absurd hneg (by decide : ¬ bertSuccess < 0)

/-- `bert_decoder_read`, `BERT_DECODER_PTR` and `BERT_DECODER_STEP`. -/
def windowReader : BertReader (Decoder ρ) where
  read := bertDecoderRead
  peek := Decoder.ptr
  step := Decoder.step
  read_code d size := (bertDecoderRead_cases d size).imp_left And.left
  read_again := bertDecoderRead_again
  peek_length d size d' h := by simp [Decoder.ptr]

/-- The reader that holds the whole remaining input. -/
def plainReader : BertReader (List UInt8) :=
  listReader bertSuccess bertErrnoEmpty bertErrnoShortRead (.inl rfl) (.inr (.inl rfl))
    (by decide) (by decide)

theorem plainReader_read (rest : List UInt8) (size : ℕ) :
    plainReader.read rest size =
      (if size ≤ rest.length then bertSuccess
        else if rest.length = 0 then bertErrnoEmpty else bertErrnoShortRead, rest) := by
  simp [plainReader, listReader]

theorem plainReader_delivers_iff {rest rest' : List UInt8} {chunks : List (List UInt8)} :
    Delivers plainReader rest chunks rest' ↔ rest = chunks.flatten ++ rest' :=
  listReader_delivers_iff

/-! ## The state of the window -/

namespace Decoder

variable {d : Decoder ρ}

/-- The offsets lie within the window. -/
structure Valid (d : Decoder ρ) : Prop where
  index_le : d.shortIndex ≤ d.shortLength
  length_le : d.shortLength ≤ bertShortBuffer
  buffer : d.shortBuffer.length = bertShortBuffer

/-- The bytes in the window that were not stepped over. -/
def unread (d : Decoder ρ) : List UInt8 := (d.shortBuffer.take d.shortLength).drop d.shortIndex

theorem Valid.length_unread (h : d.Valid) : d.unread.length = d.shortLength - d.shortIndex := by
  have := h.length_le
  simp [unread, h.buffer, this]

theorem Valid.ptr_eq (h : d.Valid) {size : ℕ} (hsize : size ≤ d.unread.length) :
    d.ptr size = d.unread.take size := by
  have hlength := h.length_unread
  have hbound := h.length_le
  have hbuffer := h.buffer
  refine List.ext_getElem (by simp [ptr, hsize]) fun i hi _ ↦ ?_
  have hi' : i < size := by simpa [ptr] using hi
  have hin : d.shortIndex + i < d.shortBuffer.length := by omega
  simp [ptr, unread, List.getD_eq_getElem?_getD, List.getElem?_eq_getElem hin]

theorem Valid.step (h : d.Valid) {size : ℕ} (hsize : size ≤ d.unread.length) :
    (d.step size).Valid ∧ (d.step size).unread = d.unread.drop size := by
  have hlength := h.length_unread
  have hindex := h.index_le
  refine ⟨⟨?_, h.length_le, h.buffer⟩, ?_⟩
  · simp only [Decoder.step]
    omega
  · simp [Decoder.step, unread]

/-- A step over promised bytes leaves the promise of the others. -/
theorem Valid.step_promised (h : d.Valid) {avail size : ℕ} (havail : avail ≤ d.unread.length)
    (hsize : size ≤ avail) :
    (d.step size).Valid ∧ avail - size ≤ (d.step size).unread.length := by
  obtain ⟨hvalid, hunread⟩ := h.step (hsize.trans havail)
  refine ⟨hvalid, ?_⟩
  rw [hunread, List.length_drop]
  exact Nat.sub_le_sub_right havail size

theorem length_blit {block bytes : List UInt8} {offset : ℕ}
    (h : offset + bytes.length ≤ block.length) :
    (blit block offset bytes).length = block.length := by
  simp only [blit, List.length_append, List.length_take, List.length_drop]
  omega

theorem take_blit {block bytes : List UInt8} {offset : ℕ}
    (h : offset + bytes.length ≤ block.length) :
    (blit block offset bytes).take (offset + bytes.length) = block.take offset ++ bytes := by
  apply List.take_left'
  simp only [List.length_append, List.length_take]
  omega

theorem Valid.shift_eq (h : d.Valid) :
    d.shift = { d with
      shortBuffer := blit d.shortBuffer 0 d.unread
      shortLength := d.unread.length
      shortIndex := 0 } := by
  have hptr : d.ptr (d.shortLength - d.shortIndex) = d.unread := by
    rw [h.ptr_eq h.length_unread.ge, ← h.length_unread, List.take_length]
  simp only [Decoder.shift, hptr, h.length_unread]

theorem Valid.shift (h : d.Valid) :
    d.shift.Valid ∧ d.shift.unread = d.unread ∧ d.shift.shortLength = d.unread.length := by
  have hlength := h.length_unread
  have hbound := h.length_le
  have hbuffer := h.buffer
  have hfits : 0 + d.unread.length ≤ d.shortBuffer.length := by omega
  have htake := take_blit hfits
  rw [h.shift_eq]
  refine ⟨⟨Nat.zero_le _, by dsimp only; omega, ?_⟩, ?_, rfl⟩
  · rw [length_blit hfits, h.buffer]
  · simpa [unread] using htake

/-- The window as it is filled: with at least half of it empty. -/
def ready (d : Decoder ρ) : Decoder ρ :=
  if bertShortBuffer / 2 ≤ d.empty then d else d.shift

@[simp] theorem ready_mode : d.ready.mode = d.mode := by
  rw [ready]
  split_ifs <;> rfl

@[simp] theorem ready_total : d.ready.total = d.total := by
  rw [ready]
  split_ifs <;> rfl

theorem Valid.ready (h : d.Valid) :
    d.ready.Valid ∧ d.ready.unread = d.unread ∧ d.ready.shortLength ≤ d.shortLength := by
  rw [Decoder.ready]
  split_ifs
  · exact ⟨h, rfl, Nat.le_refl _⟩
  · obtain ⟨hvalid, hunread, hshort⟩ := h.shift
    refine ⟨hvalid, hunread, ?_⟩
    rw [hshort, h.length_unread]
    exact Nat.sub_le _ _

theorem Valid.ready_shortLength_le (h : d.Valid) (hunread : d.unread.length ≤ bertShortBuffer / 2) :
    d.ready.shortLength ≤ bertShortBuffer / 2 := by
  have hlength := h.length_le
  rw [Decoder.ready]
  split_ifs with hempty
  · simp only [empty, bertShortBuffer] at *
    omega
  · rw [h.shift.2.2]
    exact hunread

/-- The code `receive` returns. -/
def receiveCode (unread bytes : List UInt8) (size : ℕ) : Code :=
  if bytes.length = 0 ∧ unread.length = 0 then bertErrnoEmpty
  else if unread.length + bytes.length < size then bertErrnoShortRead
  else bertSuccess

/-- The window with more bytes behind its last one. -/
def received (d : Decoder ρ) (bytes : List UInt8) : Decoder ρ :=
  { d with
    shortBuffer := blit d.shortBuffer d.shortLength bytes
    shortLength := d.shortLength + bytes.length
    total := d.total + bytes.length }

theorem Valid.receive_eq (h : d.Valid) (bytes : List UInt8) (size : ℕ) :
    d.receive bytes size d.unread.length = (receiveCode d.unread bytes size, d.received bytes) := by
  have hlength := h.length_unread
  have hindex := h.index_le
  have hmissing : d.shortLength + bytes.length - d.shortIndex =
      d.unread.length + bytes.length := by omega
  simp only [Decoder.receive, receiveCode, received, hmissing]
  split_ifs with hnone
  · simp [hnone.1]
  · rfl
  · rfl

theorem Valid.received (h : d.Valid) {bytes : List UInt8}
    (hfits : d.shortLength + bytes.length ≤ bertShortBuffer) :
    (d.received bytes).Valid ∧ (d.received bytes).unread = d.unread ++ bytes := by
  have hindex := h.index_le
  have hbuffer := h.buffer
  have hfits' : d.shortLength + bytes.length ≤ d.shortBuffer.length := by omega
  refine ⟨⟨?_, hfits, ?_⟩, ?_⟩
  · exact Nat.le_add_right_of_le hindex
  · rw [Decoder.received, length_blit hfits', h.buffer]
  · have hlength : d.shortIndex ≤ (d.shortBuffer.take d.shortLength).length := by
      rw [List.length_take]
      omega
    rw [Decoder.received, unread, take_blit hfits', List.drop_append_of_le_length hlength, unread]

end Decoder

theorem Decoder.Valid.setMode {d : Decoder ρ} (h : d.Valid) (mode : DecoderMode ρ) :
    (d.setMode mode).Valid ∧ (d.setMode mode).unread = d.unread :=
  ⟨⟨h.index_le, h.length_le, h.buffer⟩, rfl⟩

theorem valid_fresh (mode : DecoderMode ρ) : (bertDecoderCreate.setMode mode).Valid :=
  ⟨Nat.le_refl _, Nat.zero_le _, List.length_replicate⟩

theorem bertDecoderRead_eq (d : Decoder ρ) (size : ℕ) :
    bertDecoderRead d size =
      if size ≤ d.shortLength - d.shortIndex then (bertSuccess, d)
      else d.ready.fillShortBuffer size (d.shortLength - d.shortIndex) d.ready.empty := by
  simp only [bertDecoderRead, Decoder.ready]
  split_ifs <;> rfl

theorem Decoder.Valid.read_of_le {d : Decoder ρ} (h : d.Valid) {size : ℕ}
    (hle : size ≤ d.unread.length) : bertDecoderRead d size = (bertSuccess, d) := by
  rw [bertDecoderRead_eq, ← h.length_unread, if_pos hle]

theorem Decoder.Valid.read_of_fill {d : Decoder ρ} (h : d.Valid) {size : ℕ} {bytes : List UInt8}
    {mode : DecoderMode ρ} (hmore : d.unread.length < size)
    (hfill : d.mode.fill d.ready.empty = (some bytes, mode))
    (hlength : bytes.length ≤ d.ready.empty) :
    bertDecoderRead d size =
        (Decoder.receiveCode d.unread bytes size, (d.ready.setMode mode).received bytes) ∧
      ((d.ready.setMode mode).received bytes).Valid ∧
      ((d.ready.setMode mode).received bytes).unread = d.unread ++ bytes := by
  obtain ⟨hready, hunread, -⟩ := h.ready
  obtain ⟨hvalid, hmode⟩ := hready.setMode mode
  rw [hunread] at hmode
  have hfits : (d.ready.setMode mode).shortLength + bytes.length ≤ bertShortBuffer := by
    have hbound := hready.length_le
    simp only [Decoder.setMode, Decoder.empty] at *
    omega
  obtain ⟨hvalid', hunread'⟩ := hvalid.received hfits
  refine ⟨?_, hvalid', by rw [hunread', hmode]⟩
  rw [← d.ready_mode] at hfill
  rw [bertDecoderRead_eq, ← h.length_unread, if_neg (Nat.not_le.mpr hmore),
    Decoder.fillShortBuffer_eq, hfill, ← hmode]
  exact hvalid.receive_eq bytes size

theorem DecoderMode.length_le_of_fill {mode mode' : DecoderMode ρ} {space : ℕ} {bytes : List UInt8}
    (h : mode.fill space = (some bytes, mode')) : bytes.length ≤ space := by
  cases mode with
  | none => cases h
  | stream file fd => exact file.read_length_le fd space bytes (congrArg Prod.fst h)
  | buffer ptr length index =>
      obtain rfl : _ = bytes := Option.some.inj (congrArg Prod.fst h)
      exact (List.length_take_le _ ptr).trans (Nat.min_le_right _ space)
  | callback ptr data => exact ptr.read_length_le data space bytes (congrArg Prod.fst h)

/-- A read whose fill fails keeps the unread bytes. -/
theorem Decoder.Valid.read_of_fill_none {d : Decoder ρ} (h : d.Valid) {size : ℕ}
    {mode : DecoderMode ρ} (hmore : d.unread.length < size)
    (hfill : d.mode.fill d.ready.empty = (none, mode)) :
    bertDecoderRead d size = (d.mode.failure, d.ready.setMode mode) ∧
      (d.ready.setMode mode).Valid ∧ (d.ready.setMode mode).unread = d.unread := by
  obtain ⟨hready, hunread, -⟩ := h.ready
  obtain ⟨hvalid, hmode⟩ := hready.setMode mode
  refine ⟨?_, hvalid, by rw [hmode, hunread]⟩
  rw [← d.ready_mode] at hfill ⊢
  rw [bertDecoderRead_eq, ← h.length_unread, if_neg (Nat.not_le.mpr hmore),
    Decoder.fillShortBuffer_eq, hfill]

/-- What a read can do: nothing when enough bytes are unread, or else one fill of
the window, which delivers some bytes or fails. -/
inductive Decoder.ReadStep (d : Decoder ρ) (size : ℕ) : Code × Decoder ρ → Prop
  | enough (hle : size ≤ d.unread.length) : ReadStep d size (bertSuccess, d)
  | filled {bytes : List UInt8} {mode : DecoderMode ρ} (hmore : d.unread.length < size)
      (hfill : d.mode.fill d.ready.empty = (some bytes, mode))
      (hvalid : ((d.ready.setMode mode).received bytes).Valid)
      (hunread : ((d.ready.setMode mode).received bytes).unread = d.unread ++ bytes) :
      ReadStep d size (receiveCode d.unread bytes size, (d.ready.setMode mode).received bytes)
  | failed {mode : DecoderMode ρ} (hmore : d.unread.length < size)
      (hfill : d.mode.fill d.ready.empty = (none, mode)) (hvalid : (d.ready.setMode mode).Valid)
      (hunread : (d.ready.setMode mode).unread = d.unread) :
      ReadStep d size (d.mode.failure, d.ready.setMode mode)

theorem Decoder.Valid.readStep {d : Decoder ρ} (h : d.Valid) (size : ℕ) :
    d.ReadStep size (bertDecoderRead d size) := by
  by_cases hle : size ≤ d.unread.length
  · rw [h.read_of_le hle]
    exact .enough hle
  · have hmore := Nat.lt_of_not_le hle
    rcases hfill : d.mode.fill d.ready.empty with ⟨_ | bytes, mode⟩
    · obtain ⟨hread, hvalid, hunread⟩ := h.read_of_fill_none hmore hfill
      rw [hread]
      exact .failed hmore hfill hvalid hunread
    · obtain ⟨hread, hvalid, hunread⟩ :=
        h.read_of_fill hmore hfill (DecoderMode.length_le_of_fill hfill)
      rw [hread]
      exact .filled hmore hfill hvalid hunread

theorem Decoder.ReadStep.le_of_success {d : Decoder ρ} {size : ℕ} {r : Code × Decoder ρ}
    (h : d.ReadStep size r) (hcode : r.1 = bertSuccess) : size ≤ r.2.unread.length := by
  cases h with
  | enough hle => exact hle
  | @filled bytes mode hmore hfill hvalid hunread =>
      dsimp only at hcode ⊢
      rw [hunread, List.length_append]
      rw [receiveCode] at hcode
      split_ifs at hcode with hnone hshort
      · exact absurd hcode (by decide)
      · exact absurd hcode (by decide)
      · exact Nat.le_of_not_lt hshort
  | failed =>
      have hneg := d.mode.readFails_failure.neg
      dsimp only at hcode
      rw [hcode] at hneg
      exact absurd hneg (by decide)

theorem Decoder.ReadStep.valid {d : Decoder ρ} {size : ℕ} {r : Code × Decoder ρ}
    (h : d.ReadStep size r) (hd : d.Valid) : r.2.Valid := by
  cases h with
  | enough => exact hd
  | filled _ _ hvalid _ => exact hvalid
  | failed _ _ hvalid _ => exact hvalid

/-! ## Reading from the window -/

theorem Decoder.Valid.delivers {d : Decoder ρ} (h : d.Valid) (chunks : List (List UInt8))
    {rest : List UInt8} (hunread : d.unread = chunks.flatten ++ rest) :
    ∃ d', Delivers windowReader d chunks d' ∧ d'.Valid ∧ d'.unread = rest ∧ d'.mode = d.mode ∧
      d'.shortLength = d.shortLength := by
  induction chunks generalizing d with
  | nil => exact ⟨d, .nil d, h, hunread, rfl, rfl⟩
  | cons chunk chunks ih =>
      rw [List.flatten_cons, List.append_assoc] at hunread
      have hle : chunk.length ≤ d.unread.length := by
        rw [hunread, List.length_append]
        exact Nat.le_add_right _ _
      obtain ⟨hvalid, hstep⟩ := h.step hle
      rw [hunread, List.drop_left] at hstep
      obtain ⟨d', hdelivers, hnext⟩ := ih hvalid hstep
      have hpeek : windowReader.peek d chunk.length = chunk := by
        change d.ptr chunk.length = chunk
        rw [h.ptr_eq hle, hunread, List.take_left]
      exact ⟨d', .cons (h.read_of_le hle) hpeek hdelivers, hnext⟩

/-- With nothing unread the next byte is read behind a fill from the start of
the buffer. -/
theorem Decoder.Valid.refill {d : Decoder ρ} (h : d.Valid) (hempty : d.unread = [])
    {buffer : List UInt8} {length index count : ℕ} (hmode : d.mode = .buffer buffer length index)
    (hcount : min (length - index) d.ready.empty = count) (hpos : 0 < (buffer.take count).length) :
    ∃ d', windowReader.read d 1 = (bertSuccess, d') ∧ d'.Valid ∧ d'.unread = buffer.take count ∧
      d'.mode = .buffer buffer length ((index + count) % 2 ^ 32) ∧
      d'.shortLength = d.ready.shortLength + (buffer.take count).length := by
  have hmore : d.unread.length < 1 := by simp [hempty]
  have hfill : d.mode.fill d.ready.empty =
      (some (buffer.take count), .buffer buffer length ((index + count) % 2 ^ 32)) := by
    rw [hmode, DecoderMode.fill, hcount]
  obtain ⟨hread, hvalid, hunread⟩ :=
    h.read_of_fill hmore hfill (DecoderMode.length_le_of_fill hfill)
  have hcode : Decoder.receiveCode d.unread (buffer.take count) 1 = bertSuccess := by
    rw [Decoder.receiveCode, hempty, List.length_nil, if_neg (by omega), if_neg (by omega)]
  rw [hcode] at hread
  rw [hempty, List.nil_append] at hunread
  exact ⟨_, hread, hvalid, hunread, rfl, rfl⟩

/-! ## Sources -/

/-- A source over the bytes it holds: every answer is what it holds next, and
only a source that holds nothing answers nothing. -/
structure SlicedSource (ρ : Type) extends Source ρ where
  contents : ρ → List UInt8
  delivers : ∀ s size, ∃ bytes, (read s size).1 = some bytes ∧
    contents s = bytes ++ contents (read s size).2
  progress : ∀ s size, 0 < size → (read s size).1 = some [] → contents s = []

/-- A source that answers with as many bytes as are asked for and left. -/
structure PlainSource (ρ : Type) extends SlicedSource ρ where
  full : ∀ s size bytes, (read s size).1 = some bytes →
    bytes.length = min size (contents s).length

/-- The list of bytes that is handed out `most` at a time. -/
def SlicedSource.ofList (most : ℕ) (hmost : 0 < most) : SlicedSource (List UInt8) where
  read s size := (some (s.take (min size most)), s.drop (min size most))
  read_length_le s size bytes h := by
    cases h
    exact (List.length_take_le _ s).trans (Nat.min_le_left size most)
  contents := id
  delivers s size := ⟨_, rfl, (List.take_append_drop (min size most) s).symm⟩
  progress s size hsize h := by
    have htake : s.take (min size most) = [] := Option.some.inj h
    exact (List.take_eq_nil_iff.mp htake).resolve_left (by omega)

/-- The list of bytes that is handed out as asked for. -/
def PlainSource.ofList : PlainSource (List UInt8) where
  read s size := (some (s.take size), s.drop size)
  read_length_le s size bytes h := by
    cases h
    exact List.length_take_le size s
  contents := id
  delivers s size := ⟨_, rfl, (List.take_append_drop size s).symm⟩
  progress s size hsize h := by
    have htake : s.take size = [] := Option.some.inj h
    exact (List.take_eq_nil_iff.mp htake).resolve_left (by omega)
  full s size bytes h := by
    cases h
    exact List.length_take

/-! ## What is still to come -/

/-- What a mode will still deliver, given how many bytes the window holds. -/
structure Feeding (ρ : Type) where
  Holds : DecoderMode ρ → ℕ → List UInt8 → Prop
  shrink : ∀ {mode length length' upcoming}, Holds mode length upcoming → length' ≤ length →
    Holds mode length' upcoming
  fill : ∀ {mode length upcoming}, Holds mode length upcoming →
    ∃ bytes mode' upcoming', mode.fill (bertShortBuffer - length) = (some bytes, mode') ∧
      bytes.length ≤ bertShortBuffer - length ∧ upcoming = bytes ++ upcoming' ∧
      Holds mode' (length + bytes.length) upcoming'

/-- A stream or callback decoder over a source. -/
def SlicedSource.feeding (source : SlicedSource ρ) : Feeding ρ where
  Holds mode _ upcoming :=
    ∃ s, (mode = .stream source.toSource s ∨ mode = .callback source.toSource s) ∧
      upcoming = source.contents s
  shrink h _ := h
  fill := by
    rintro mode length upcoming ⟨s, hmode, rfl⟩
    obtain ⟨bytes, hread, hcontents⟩ := source.delivers s (bertShortBuffer - length)
    have hlength := source.read_length_le s _ bytes hread
    rcases hmode with rfl | rfl
    · exact ⟨bytes, _, _, by rw [DecoderMode.fill, hread], hlength, hcontents, _, .inl rfl, rfl⟩
    · exact ⟨bytes, _, _, by rw [DecoderMode.fill, hread], hlength, hcontents, _, .inr rfl, rfl⟩

/-- A buffer decoder over a buffer that fits into the window: nothing is left
behind the first fill. -/
def bufferFeeding (buffer : List UInt8) (hfits : buffer.length ≤ bertShortBuffer) : Feeding ρ where
  Holds mode length upcoming :=
    mode = .buffer buffer buffer.length 0 ∧ length = 0 ∧ upcoming = buffer ∨
      mode = .buffer buffer buffer.length buffer.length ∧ upcoming = []
  shrink := by
    rintro mode length length' upcoming (⟨hmode, rfl, hupcoming⟩ | h) hle
    · exact .inl ⟨hmode, Nat.le_zero.mp hle, hupcoming⟩
    · exact .inr h
  fill := by
    have hmod : buffer.length % 2 ^ 32 = buffer.length :=
      Nat.mod_eq_of_lt (hfits.trans_lt (by decide))
    rintro mode length upcoming (⟨rfl, rfl, rfl⟩ | ⟨rfl, rfl⟩)
    · refine ⟨upcoming, _, [], ?_, hfits, by simp, .inr ⟨rfl, rfl⟩⟩
      rw [DecoderMode.fill, Nat.sub_zero, Nat.sub_zero, Nat.min_eq_left hfits, Nat.zero_add, hmod,
        List.take_length]
    · refine ⟨[], _, [], ?_, Nat.zero_le _, rfl, .inr ⟨rfl, rfl⟩⟩
      rw [DecoderMode.fill, Nat.sub_self, Nat.zero_min, Nat.add_zero, hmod, List.take_zero]

/-! ## The simulation -/

namespace Feeding

variable {feeding : Feeding ρ} {total avail size : ℕ} {d : Decoder ρ} {rest : List UInt8}

/-- A fill for a request gets the bytes the request misses, or all that are
left. -/
def Ample (feeding : Feeding ρ) (d : Decoder ρ) (size : ℕ) : Prop :=
  ∀ bytes mode upcoming, feeding.Holds d.mode d.shortLength upcoming →
    d.mode.fill d.ready.empty = (some bytes, mode) →
      min (size - d.unread.length) upcoming.length ≤ bytes.length

/-- The unread bytes followed by the upcoming ones are the plain input; `total`
counts what was and what will be received. -/
structure Refines (feeding : Feeding ρ) (total avail : ℕ) (d : Decoder ρ) (rest : List UInt8) :
    Prop where
  valid : d.Valid
  avail_le : avail ≤ d.unread.length
  unread_le : d.unread.length ≤ d.total
  upcoming : ∃ upcoming, feeding.Holds d.mode d.shortLength upcoming ∧
    rest = d.unread ++ upcoming ∧ d.total + upcoming.length = total

theorem Refines.mono {avail' : ℕ} (h : feeding.Refines total avail d rest) (hle : avail' ≤ avail) :
    feeding.Refines total avail' d rest :=
  ⟨h.valid, hle.trans h.avail_le, h.unread_le, h.upcoming⟩

theorem Refines.weaken (h : feeding.Refines total avail d rest) :
    feeding.Refines total 0 d rest :=
  h.mono (Nat.zero_le avail)

/-- A read that has to fill the window receives the next upcoming bytes. -/
theorem Refines.read_of_lt (h : feeding.Refines total avail d rest)
    (hmore : d.unread.length < size) :
    ∃ bytes upcoming, rest = d.unread ++ (bytes ++ upcoming) ∧
      (feeding.Ample d size →
        min (size - d.unread.length) (bytes ++ upcoming).length ≤ bytes.length) ∧
      (bertDecoderRead d size).1 = Decoder.receiveCode d.unread bytes size ∧
      feeding.Refines total (d.unread.length + bytes.length) (bertDecoderRead d size).2 rest := by
  obtain ⟨upcoming, hholds, rfl, htotal⟩ := h.upcoming
  obtain ⟨bytes, mode, upcoming', hfill, hlength, rfl, hnext⟩ :=
    feeding.fill (feeding.shrink hholds h.valid.ready.2.2)
  obtain ⟨hread, hvalid, hunread⟩ := h.valid.read_of_fill hmore hfill hlength
  have hcounted := h.unread_le
  have hready : d.ready.total = d.total := d.ready_total
  rw [List.length_append] at htotal
  rw [hread]
  refine ⟨bytes, upcoming', rfl, fun hample ↦ hample bytes mode _ hholds hfill, rfl, hvalid, ?_, ?_,
    upcoming', hnext, ?_, ?_⟩
  · rw [hunread, List.length_append]
  · rw [hunread, List.length_append]
    simp only [Decoder.received, Decoder.setMode]
    omega
  · rw [hunread, List.append_assoc]
  · simp only [Decoder.received, Decoder.setMode]
    omega

theorem Refines.read_ok (h : feeding.Refines total avail d rest)
    (hcode : (bertDecoderRead d size).1 = bertSuccess) :
    feeding.Refines total size (bertDecoderRead d size).2 rest := by
  by_cases hle : size ≤ d.unread.length
  · rw [h.valid.read_of_le hle]
    exact ⟨h.valid, hle, h.unread_le, h.upcoming⟩
  · obtain ⟨bytes, upcoming, -, -, hread, hrefines⟩ := h.read_of_lt (Nat.lt_of_not_le hle)
    rw [hread, Decoder.receiveCode] at hcode
    split_ifs at hcode with hnone hshort
    · exact absurd hcode (by decide)
    · exact absurd hcode (by decide)
    · exact hrefines.mono (Nat.le_of_not_lt hshort)

/-- A read answers as the plain reader does, and keeps the relation. -/
theorem Refines.read (h : feeding.Refines total avail d rest)
    (hample : feeding.Ample d size) :
    (bertDecoderRead d size).1 = (plainReader.read rest size).1 ∧
      feeding.Refines total 0 (bertDecoderRead d size).2 rest := by
  by_cases hle : size ≤ d.unread.length
  · obtain ⟨upcoming, -, rfl, -⟩ := h.upcoming
    rw [h.valid.read_of_le hle, plainReader_read,
      if_pos (by rw [List.length_append]; omega)]
    exact ⟨rfl, h.weaken⟩
  · obtain ⟨bytes, upcoming, rfl, hmissing, hread, hrefines⟩ := h.read_of_lt (Nat.lt_of_not_le hle)
    have hmissing := hmissing hample
    refine ⟨?_, hrefines.weaken⟩
    rw [hread, plainReader_read]
    simp only [List.length_append, Decoder.receiveCode] at hmissing ⊢
    split_ifs <;> first | rfl | omega

theorem Refines.step (h : feeding.Refines total avail d rest) (hsize : size ≤ avail) :
    feeding.Refines total (avail - size) (d.step size) (rest.drop size) := by
  have hle := hsize.trans h.avail_le
  obtain ⟨hvalid, hunread⟩ := h.valid.step hle
  obtain ⟨upcoming, hholds, rfl, htotal⟩ := h.upcoming
  refine ⟨hvalid, ?_, ?_, upcoming, hholds, ?_, htotal⟩
  · rw [hunread, List.length_drop]
    exact Nat.sub_le_sub_right h.avail_le size
  · rw [hunread, List.length_drop]
    exact (Nat.sub_le _ _).trans h.unread_le
  · rw [hunread, List.drop_append_of_le_length hle]

theorem Refines.ptr (h : feeding.Refines total avail d rest) (hsize : size ≤ avail) :
    d.ptr size = rest.take size := by
  have hle := hsize.trans h.avail_le
  obtain ⟨upcoming, -, rfl, -⟩ := h.upcoming
  rw [h.valid.ptr_eq hle, List.take_append_of_le_length hle]

/-- What is delivered is the first part of what was still to come. -/
theorem Refines.delivers {d' : Decoder ρ} {chunks : List (List UInt8)}
    (h : feeding.Refines total avail d rest)
    (hdelivers : Delivers windowReader d chunks d') :
    ∃ rest', rest = chunks.flatten ++ rest' ∧ feeding.Refines total 0 d' rest' := by
  induction hdelivers generalizing rest avail with
  | nil d => exact ⟨rest, rfl, h.weaken⟩
  | @cons d d' t chunk chunks hread hpeek hrest ih =>
      have hcode : (bertDecoderRead d chunk.length).1 = bertSuccess := congrArg Prod.fst hread
      have hpromised := h.read_ok hcode
      rw [show (bertDecoderRead d chunk.length).2 = d' from congrArg Prod.snd hread] at hpromised
      obtain ⟨rest', hdrop, hnext⟩ := ih (hpromised.step (Nat.le_refl _))
      have hchunk : chunk = rest.take chunk.length :=
        hpeek.symm.trans (hpromised.ptr (Nat.le_refl _))
      refine ⟨rest', ?_, hnext⟩
      rw [List.flatten_cons, List.append_assoc, ← hdrop]
      nth_rewrite 1 [hchunk]
      exact (List.take_append_drop _ _).symm

/-- The window simulates the plain reader, where the fills are ample. -/
def simulation (feeding : Feeding ρ) (total : ℕ) (ample : Decoder ρ → ℕ → Prop)
    (hample : ∀ d size, d.Valid → size ≤ bertShortBuffer / 2 → ample d size →
      feeding.Ample d size) :
    Simulation windowReader plainReader (bertShortBuffer / 2) ample where
  rel := feeding.Refines total
  weaken := Refines.weaken
  read_code h hsize h' := (h.read (hample _ _ h.valid hsize h')).1
  read_ok h _ _ hcode := h.read_ok hcode
  read_fail h hsize h' _ := (h.read (hample _ _ h.valid hsize h')).2
  peek := Refines.ptr
  step := Refines.step

end Feeding

theorem Decoder.Valid.le_ready_empty {d : Decoder ρ} (h : d.Valid) {size : ℕ}
    (hsize : size ≤ bertShortBuffer / 2) : size - d.unread.length ≤ d.ready.empty := by
  by_cases hunread : d.unread.length ≤ bertShortBuffer / 2
  · have hroom := h.ready_shortLength_le hunread
    simp only [Decoder.empty, bertShortBuffer] at *
    omega
  · omega

/-- A source that answers with up to half a window at a time makes every fill
ample. -/
theorem SlicedSource.ample_of_half (source : SlicedSource ρ)
    (hhalf : ∀ s size bytes, (source.read s size).1 = some bytes →
      min (min size (bertShortBuffer / 2)) (source.contents s).length ≤ bytes.length)
    {d : Decoder ρ} {size : ℕ} (h : d.Valid) (hsize : size ≤ bertShortBuffer / 2) :
    source.feeding.Ample d size := by
  rintro bytes mode upcoming ⟨s, hmode, rfl⟩ hfill
  have hroom := h.le_ready_empty hsize
  have hread : (source.read s d.ready.empty).1 = some bytes := by
    rcases hmode with hmode | hmode <;> rw [hmode] at hfill <;> exact congrArg Prod.fst hfill
  have hbytes := hhalf s _ bytes hread
  omega

theorem PlainSource.half_le (source : PlainSource ρ) (s : ρ) (size : ℕ) (bytes : List UInt8)
    (hread : (source.read s size).1 = some bytes) :
    min (min size (bertShortBuffer / 2)) (source.contents s).length ≤ bytes.length := by
  rw [source.full s size bytes hread]
  omega

theorem PlainSource.ample (source : PlainSource ρ) {d : Decoder ρ} {size : ℕ} (h : d.Valid)
    (hsize : size ≤ bertShortBuffer / 2) : source.feeding.Ample d size :=
  source.ample_of_half source.half_le h hsize

theorem bufferFeeding_ample {buffer : List UInt8} (hfits : buffer.length ≤ bertShortBuffer)
    {d : Decoder ρ} {size : ℕ} (h : d.Valid) (hsize : size ≤ bertShortBuffer / 2) :
    (bufferFeeding buffer hfits).Ample d size := by
  rintro bytes mode upcoming (⟨hmode, -, rfl⟩ | ⟨-, rfl⟩) hfill
  · have hroom := h.le_ready_empty hsize
    rw [hmode] at hfill
    obtain rfl := Option.some.inj (congrArg Prod.fst hfill)
    rw [List.length_take]
    omega
  · simp

end LibBert
