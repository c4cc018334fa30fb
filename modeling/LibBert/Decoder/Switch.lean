import LibBert.Decoder.Pulls

/-!
# Switching to another buffer

`bert_decoder_buffer` sets the mode of a decoder and nothing else: the window
keeps the unread bytes and its fill.  A buffer of at most half a window, or one
there is room for, is read whole behind the unread bytes; with nothing unread
and a window that is filled alike the pulls are those of a fresh decoder.
-/

namespace LibBert

open Reading

variable {F ρ : Type} [Platform F]

/-! ## Reachable decoders -/

/-- The states of a decoder: it is created, given any source at any time, and
left behind by any pull that returned. -/
inductive Reached (F : Type) [Platform F] : Decoder ρ → Prop
  | create : Reached F bertDecoderCreate
  | stream {d : Decoder ρ} (file : Source ρ) (fd : ρ) (h : Reached F d) :
      Reached F (bertDecoderStream d file fd)
  | callback {d : Decoder ρ} (callback : Source ρ) (data : ρ) (h : Reached F d) :
      Reached F (bertDecoderCallback d callback data)
  | buffer {d : Decoder ρ} (buffer : List UInt8) (length : ℕ) (h : Reached F d) :
      Reached F (bertDecoderBuffer d buffer length)
  | pull {d d' : Decoder ρ} {depth : ℕ} {r : Result F} (h : Reached F d)
      (hrun : run windowReader (bertDecoderPull depth) d = .done r d') : Reached F d'

theorem Decoder.Valid.switched {d : Decoder ρ} (h : d.Valid) (buffer : List UInt8) (n : ℕ) :
    (bertDecoderBuffer d buffer n).Valid ∧ (bertDecoderBuffer d buffer n).unread = d.unread :=
  h.setMode (.buffer buffer n 0)

/-- The offsets stay within the window. -/
def windowInvariant (ρ : Type) : Invariant (windowReader (ρ := ρ)) (bertShortBuffer / 2) where
  Holds avail d := d.Valid ∧ avail ≤ d.unread.length
  weaken h := ⟨h.1, Nat.zero_le _⟩
  read_ok {_ _ size} h _ hcode :=
    have hstep := h.1.readStep size
    ⟨hstep.valid h.1, hstep.le_of_success hcode⟩
  read_fail {_ _ size} h _ _ := ⟨(h.1.readStep size).valid h.1, Nat.zero_le _⟩
  step h hsize := h.1.step_promised h.2 hsize

theorem Reached.valid {d : Decoder ρ} (h : Reached F d) : d.Valid := by
  induction h with
  | create => exact valid_fresh .none
  | stream file fd _ ih => exact (ih.setMode _).1
  | callback callback data _ ih => exact (ih.setMode _).1
  | buffer buffer length _ ih => exact (ih.switched buffer length).1
  | pull _ hrun ih =>
      exact ((windowInvariant ρ).run (disciplined_bertDecoderPull _) ⟨ih, Nat.zero_le _⟩ hrun).1

/-! ## Clean switches -/

/-- The pulls of the switched decoder are those of a fresh one, on every buffer
of `n` bytes and with depth for every byte there is. -/
def SwitchesCleanly (F : Type) [Platform F] (d : Decoder ρ) (n : ℕ) : Prop :=
  ∀ buffer : List UInt8, buffer.length = n → ∀ depth, d.unread.length + n < depth → ∀ count,
    pulls (F := F) windowReader (fun _ ↦ ()) depth count (bertDecoderBuffer d buffer n) =
      pulls windowReader (fun _ ↦ ()) depth count
        (bertDecoderBuffer (bertDecoderCreate : Decoder ρ) buffer n)

/-! ## A buffer that is read whole -/

/-- The buffer is still to be copied, all of it by the next fill, or was copied
and left nothing behind. -/
inductive Appended (buffer : List UInt8) (d : Decoder ρ) : List UInt8 → Prop
  | waiting (hmode : d.mode = .buffer buffer buffer.length 0)
      (hfits : buffer.length ≤ bertShortBuffer / 2 ∨
        d.shortLength + buffer.length ≤ bertShortBuffer) :
      Appended buffer d (d.unread ++ buffer)
  | copied (hmode : d.mode = .buffer buffer buffer.length buffer.length) :
      Appended buffer d d.unread

theorem Appended.fill {buffer rest : List UInt8} {d : Decoder ρ} {size : ℕ}
    (h : Appended buffer d rest) (hvalid : d.Valid) (hmore : d.unread.length < size)
    (hsize : size ≤ bertShortBuffer / 2) (hlength : buffer.length ≤ bertShortBuffer) :
    ∃ bytes, rest = d.unread ++ bytes ∧
      d.mode.fill d.ready.empty = (some bytes, .buffer buffer buffer.length buffer.length) := by
  have hmod : buffer.length % 2 ^ 32 = buffer.length :=
    Nat.mod_eq_of_lt (hlength.trans_lt (by decide))
  cases h with
  | waiting hmode hfits =>
      have hhalf := hvalid.ready_shortLength_le (hmore.le.trans hsize)
      have hready := hvalid.ready.2.2
      have hroom : buffer.length ≤ d.ready.empty := by
        simp only [Decoder.empty, bertShortBuffer] at *
        omega
      refine ⟨buffer, rfl, ?_⟩
      rw [hmode, DecoderMode.fill, Nat.sub_zero, Nat.min_eq_left hroom, List.take_length,
        Nat.zero_add, hmod]
  | copied hmode =>
      refine ⟨[], (List.append_nil _).symm, ?_⟩
      rw [hmode, DecoderMode.fill, Nat.sub_self, Nat.zero_min, List.take_zero, Nat.add_zero, hmod]

theorem Appended.exists_eq {buffer rest : List UInt8} {d : Decoder ρ} (h : Appended buffer d rest) :
    ∃ bytes, rest = d.unread ++ bytes := by
  cases h with
  | waiting => exact ⟨buffer, rfl⟩
  | copied => exact ⟨[], (List.append_nil _).symm⟩

/-- A read answers as the plain reader does on the unread bytes and the buffer. -/
theorem Appended.read {buffer rest : List UInt8} {d : Decoder ρ} {size : ℕ}
    (h : Appended buffer d rest) (hvalid : d.Valid) (hsize : size ≤ bertShortBuffer / 2)
    (hlength : buffer.length ≤ bertShortBuffer) :
    (bertDecoderRead d size).1 = (plainReader.read rest size).1 ∧
      Appended buffer (bertDecoderRead d size).2 rest := by
  by_cases hle : size ≤ d.unread.length
  · obtain ⟨bytes, hrest⟩ := h.exists_eq
    have hle' : size ≤ rest.length := by
      rw [hrest, List.length_append]
      exact Nat.le_add_right_of_le hle
    rw [hvalid.read_of_le hle, plainReader_read, if_pos hle']
    exact ⟨rfl, h⟩
  · have hmore := Nat.lt_of_not_le hle
    obtain ⟨bytes, rfl, hfill⟩ := h.fill hvalid hmore hsize hlength
    obtain ⟨hread, -, hunread⟩ :=
      hvalid.read_of_fill hmore hfill (DecoderMode.length_le_of_fill hfill)
    rw [hread]
    constructor
    · rw [plainReader_read]
      simp only [List.length_append, Decoder.receiveCode]
      split_ifs <;> first | rfl | omega
    · rw [← hunread]
      exact .copied rfl

theorem Appended.step {buffer rest : List UInt8} {d : Decoder ρ} {size : ℕ}
    (h : Appended buffer d rest) (hvalid : d.Valid) (hsize : size ≤ d.unread.length) :
    Appended buffer (d.step size) (rest.drop size) := by
  have hunread := (hvalid.step hsize).2
  cases h with
  | waiting hmode hfits =>
      rw [List.drop_append_of_le_length hsize, ← hunread]
      exact .waiting hmode hfits
  | copied hmode =>
      rw [← hunread]
      exact .copied hmode

/-- The window simulates the plain reader on the unread bytes and the buffer. -/
def appendedSimulation (buffer : List UInt8) (hlength : buffer.length ≤ bertShortBuffer) :
    Simulation (windowReader (ρ := ρ)) plainReader (bertShortBuffer / 2) fun _ _ ↦ True where
  rel avail d rest := (windowInvariant ρ).Holds avail d ∧ Appended buffer d rest
  weaken h := ⟨(windowInvariant ρ).weaken h.1, h.2⟩
  read_code h hsize _ := (h.2.read h.1.1 hsize hlength).1
  read_ok h hsize _ hcode :=
    ⟨(windowInvariant ρ).read_ok h.1 hsize hcode, (h.2.read h.1.1 hsize hlength).2⟩
  read_fail h hsize _ hcode :=
    ⟨(windowInvariant ρ).read_fail h.1 hsize hcode, (h.2.read h.1.1 hsize hlength).2⟩
  peek {avail d rest size} h hsize := by
    have hle := hsize.trans h.1.2
    obtain ⟨bytes, rfl⟩ := h.2.exists_eq
    exact (h.1.1.ptr_eq hle).trans (List.take_append_of_le_length hle).symm
  step h hsize :=
    ⟨(windowInvariant ρ).step h.1 hsize, h.2.step h.1.1 (hsize.trans h.1.2)⟩

variable {d : Decoder ρ}

/-- A buffer of at most half a window, or one there is room for, is read whole
behind the bytes that were left unread. -/
theorem pulls_appended (hvalid : d.Valid) {buffer : List UInt8}
    (hfits : buffer.length ≤ bertShortBuffer / 2 ∨
      d.shortLength + buffer.length ≤ bertShortBuffer) (depth count : ℕ) :
    pulls (F := F) windowReader (fun _ ↦ ()) depth count
        (bertDecoderBuffer d buffer buffer.length) =
      pulls plainReader (fun _ ↦ ()) depth count (d.unread ++ buffer) := by
  have hlength : buffer.length ≤ bertShortBuffer := by
    simp only [bertShortBuffer] at *
    omega
  have hwindow := (hvalid.switched buffer buffer.length).1
  exact (appendedSimulation buffer hlength).runs (fun _ ↦ rfl) (disciplined_bertDecoderPull depth)
    ⟨⟨hwindow, Nat.zero_le _⟩, .waiting rfl hfits⟩ (alongRuns_default _ count _)

/-! ## Windows that are filled alike -/

/-- Two decoders of one source with the same unread bytes, whose next fills ask
for as much. -/
structure Alike (d e : Decoder ρ) : Prop where
  left : d.Valid
  right : e.Valid
  mode : d.mode = e.mode
  unread : d.unread = e.unread
  fills : d.shortLength = e.shortLength ∨
    d.unread = [] ∧ d.ready.shortLength = e.ready.shortLength

theorem Decoder.Valid.ready_shortLength (h : d.Valid) :
    d.ready.shortLength =
      if bertShortBuffer / 2 ≤ d.empty then d.shortLength else d.unread.length := by
  rw [Decoder.ready]
  split_ifs
  · rfl
  · exact h.shift.2.2

namespace Alike

variable {e : Decoder ρ} {size : ℕ}

theorem ready_eq (h : Alike d e) : d.ready.shortLength = e.ready.shortLength := by
  rcases h.fills with hlength | ⟨-, hready⟩
  · rw [h.left.ready_shortLength, h.right.ready_shortLength, Decoder.empty, Decoder.empty, hlength,
      h.unread]
  · exact hready

theorem fill_eq (h : Alike d e) : d.mode.fill d.ready.empty = e.mode.fill e.ready.empty := by
  rw [h.mode, Decoder.empty, Decoder.empty, h.ready_eq]

theorem read (h : Alike d e) (size : ℕ) :
    (bertDecoderRead d size).1 = (bertDecoderRead e size).1 ∧
      Alike (bertDecoderRead d size).2 (bertDecoderRead e size).2 := by
  have hunread := h.unread
  by_cases hle : size ≤ d.unread.length
  · rw [h.left.read_of_le hle, h.right.read_of_le (hunread ▸ hle)]
    exact ⟨rfl, h⟩
  · have hmore := Nat.lt_of_not_le hle
    have hmore' : e.unread.length < size := hunread ▸ hmore
    rcases hfill : d.mode.fill d.ready.empty with ⟨_ | bytes, mode⟩
    · obtain ⟨hread, hvalid, hleft⟩ := h.left.read_of_fill_none hmore hfill
      obtain ⟨hread', hvalid', hright⟩ :=
        h.right.read_of_fill_none hmore' (h.fill_eq ▸ hfill)
      rw [hread, hread', h.mode]
      exact ⟨rfl, hvalid, hvalid', rfl, by rw [hleft, hright, hunread], .inl h.ready_eq⟩
    · have hlength := DecoderMode.length_le_of_fill hfill
      have hfill' : e.mode.fill e.ready.empty = (some bytes, mode) := h.fill_eq ▸ hfill
      obtain ⟨hread, hvalid, hleft⟩ := h.left.read_of_fill hmore hfill hlength
      obtain ⟨hread', hvalid', hright⟩ :=
        h.right.read_of_fill hmore' hfill' (DecoderMode.length_le_of_fill hfill')
      rw [hread, hread', hunread]
      refine ⟨rfl, hvalid, hvalid', rfl, by rw [hleft, hright, hunread], .inl ?_⟩
      exact congrArg (· + bytes.length) h.ready_eq

theorem step (h : Alike d e) (hsize : size ≤ d.unread.length) :
    Alike (d.step size) (e.step size) := by
  obtain ⟨hvalid, hleft⟩ := h.left.step hsize
  obtain ⟨hvalid', hright⟩ := h.right.step (h.unread ▸ hsize)
  refine ⟨hvalid, hvalid', h.mode, by rw [hleft, hright, h.unread], ?_⟩
  rcases h.fills with hlength | ⟨hempty, -⟩
  · exact .inl hlength
  · obtain rfl : size = 0 := by simpa [hempty] using hsize
    exact h.fills

end Alike

/-- Windows that are filled alike simulate each other. -/
def alikeSimulation (ρ : Type) :
    Simulation (windowReader (ρ := ρ)) (windowReader (ρ := ρ)) (bertShortBuffer / 2)
      fun _ _ ↦ True where
  rel avail d e := (windowInvariant ρ).Holds avail d ∧ Alike d e
  weaken h := ⟨(windowInvariant ρ).weaken h.1, h.2⟩
  read_code h _ _ := (h.2.read _).1
  read_ok h hsize _ hcode := ⟨(windowInvariant ρ).read_ok h.1 hsize hcode, (h.2.read _).2⟩
  read_fail h hsize _ hcode := ⟨(windowInvariant ρ).read_fail h.1 hsize hcode, (h.2.read _).2⟩
  peek {avail d e size} h hsize := by
    have hle := hsize.trans h.1.2
    have hle' : size ≤ e.unread.length := h.2.unread ▸ hle
    change d.ptr size = e.ptr size
    rw [h.1.1.ptr_eq hle, h.2.right.ptr_eq hle', h.2.unread]
  step h hsize := ⟨(windowInvariant ρ).step h.1 hsize, h.2.step (hsize.trans h.1.2)⟩

theorem Alike.pulls_eq {e : Decoder ρ} (h : Alike d e) (depth count : ℕ) :
    pulls (F := F) windowReader (fun _ ↦ ()) depth count d =
      pulls windowReader (fun _ ↦ ()) depth count e :=
  (alikeSimulation ρ).runs (fun _ ↦ rfl) (disciplined_bertDecoderPull depth)
    ⟨⟨h.left, Nat.zero_le _⟩, h⟩ (alongRuns_default _ count _)

/-- With nothing unread and an empty window, or one that is shifted before it is
filled, the fills are those of a fresh decoder. -/
theorem alike_fresh (h : d.Valid) (hempty : d.unread = [])
    (hfill : d.shortLength = 0 ∨ bertShortBuffer / 2 < d.shortLength) (buffer : List UInt8)
    (n : ℕ) :
    Alike (bertDecoderBuffer d buffer n) (bertDecoderBuffer bertDecoderCreate buffer n) := by
  obtain ⟨hvalid, hunread⟩ := h.switched buffer n
  refine ⟨hvalid, valid_fresh _, rfl, hunread.trans hempty, ?_⟩
  rcases hfill with hzero | hmore
  · exact .inl hzero
  · refine .inr ⟨hunread.trans hempty, ?_⟩
    have hshift : ¬ bertShortBuffer / 2 ≤ (bertDecoderBuffer d buffer n).empty := by
      change ¬ bertShortBuffer / 2 ≤ bertShortBuffer - d.shortLength
      simp only [bertShortBuffer] at *
      omega
    rw [hvalid.ready_shortLength, if_neg hshift, hunread, hempty]
    rfl

/-- With nothing unread a switch is clean where the window is empty, more than
half full, or has room for the buffer. -/
theorem switchesCleanly_of_fill {n : ℕ} (hvalid : d.Valid) (hempty : d.unread = [])
    (hfill : d.shortLength = 0 ∨ bertShortBuffer / 2 < d.shortLength ∨
      n + d.shortLength ≤ bertShortBuffer) : SwitchesCleanly F d n := by
  rintro buffer rfl depth - count
  rw [← or_assoc] at hfill
  rcases hfill with hfill | hroom
  · exact (alike_fresh hvalid hempty hfill buffer buffer.length).pulls_eq depth count
  · have hcreate : (bertDecoderCreate : Decoder ρ).Valid := valid_fresh .none
    have hfresh : (bertDecoderCreate : Decoder ρ).shortLength + buffer.length ≤
        bertShortBuffer := by
      change 0 + buffer.length ≤ bertShortBuffer
      omega
    rw [pulls_appended hvalid (.inr (Nat.add_comm _ _ ▸ hroom)),
      pulls_appended hcreate (.inr hfresh), hempty]
    rfl

end LibBert
