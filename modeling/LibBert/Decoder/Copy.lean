import LibBert.Bytes.Memory
import LibBert.Decoder.Switch

/-!
# Copying bytes to their destination

`bert_decode_bytes` once more, with the memory it writes to.  Each `memcpy` is
kept with the index and the size it was called with, also where the function
gives up.  In whatever state a decoder is when the copy starts, the chunks make up
one contiguous copy of what is read next.
-/

namespace LibBert

open Reading Bytes

variable {F ρ σ : Type}

namespace InMemory

/-! ## The function -/

/-- The memory at `dest`, with the index and the size of each `memcpy` into it. -/
structure Destination : Type where
  memory : ℕ → UInt8
  copies : List (ℕ × ℕ)

/-- `memcpy(dest+index, chunk, size)`. -/
def Destination.memcpy (dest : Destination) (index : ℕ) (chunk : List UInt8) : Destination where
  memory := store dest.memory index chunk
  copies := dest.copies ++ [(index, chunk.length)]

section Memcpy

variable {dest : Destination} {index count : ℕ} {chunk bytes : List UInt8}

/-- What is stored behind a copy continues it. -/
theorem memory_memcpy (h : chunk.length = count) :
    store (dest.memcpy index chunk).memory (index + count) bytes =
      store dest.memory index (chunk ++ bytes) := by
  rw [← store_append, h]
  rfl

theorem copies_memcpy (h : chunk.length = count) :
    (dest.memcpy index chunk).copies = dest.copies ++ [(index, count)] := by
  rw [← h]
  rfl

end Memcpy

/-- The loop of `bert_decode_bytes` with its 32-bit index; `fuel` bounds the number of
iterations. -/
def decodeBytesLoop (length : ℕ) : ℕ → ℕ → Destination → Decode F (Code × Destination)
  | 0, _, _ => .timeout
  | fuel + 1, index, dest =>
      if index < length then do
        let chunkLength := min (bertShortBuffer / 2) (length - index)
        match ← decoderRead chunkLength with
        | .error result => return (result, dest)
        | .ok () =>
            .peek chunkLength fun src ↦ .step chunkLength
              (decodeBytesLoop length fuel ((index + chunkLength) % 2 ^ 32) (dest.memcpy index src))
      else
        return (bertSuccess, dest)

def bertDecodeBytes (length : ℕ) (dest : Destination) : Decode F (Code × Destination) :=
  decodeBytesLoop length (length + 1) 0 dest

/-! ## One iteration -/

section Iteration

variable {R : BertReader σ} {s t : σ} {length fuel index count : ℕ} {dest : Destination}

theorem run_loop_of_read (hlength : length < 2 ^ 32) (hlt : index < length)
    (hcount : count = min 256 (length - index)) (hread : R.read s count = (bertSuccess, t)) :
    run R (decodeBytesLoop length (fuel + 1) index dest : Decode F _) s =
      run R (decodeBytesLoop length fuel (index + count)
        (dest.memcpy index (R.peek t count)) : Decode F _) (R.step t count) := by
  have hmod : (index + count) % 2 ^ 32 = index + count := Nat.mod_eq_of_lt (by omega)
  rw [decodeBytesLoop, if_pos hlt]
  simp only [bertShortBuffer, Nat.reduceDiv, ← hcount, hmod, run_bind, run_decoderRead_ok hread,
    Outcome.bind_done, run_peek, run_step]

theorem run_loop_of_fails {code : Code} (hlt : index < length)
    (hcount : count = min 256 (length - index)) (hread : R.read s count = (code, t))
    (hcode : ReadFails code) :
    run R (decodeBytesLoop length (fuel + 1) index dest : Decode F _) s =
      .done (readError code, dest) t := by
  rw [decodeBytesLoop, if_pos hlt]
  simp only [bertShortBuffer, Nat.reduceDiv, ← hcount, run_bind,
    run_decoderRead_error hread hcode, Outcome.bind_done, run_pure]

theorem run_loop_of_le (hle : length ≤ index) :
    run R (decodeBytesLoop length (fuel + 1) index dest : Decode F _) s =
      .done (bertSuccess, dest) s := by
  rw [decodeBytesLoop, if_neg (Nat.not_lt.mpr hle), run_pure]

end Iteration

/-! ## The plain copy -/

/-- How many bytes are copied of those that remain: all that are asked for, or the chunks
that remain whole. -/
def copiedLength (length remaining : ℕ) : ℕ :=
  if length ≤ remaining then length else remaining / 256 * 256

theorem copiedLength_of_le {length remaining count : ℕ} (hcount : count = min 256 length)
    (hle : count ≤ remaining) :
    copiedLength length remaining = count + copiedLength (length - count) (remaining - count) := by
  unfold copiedLength
  split_ifs <;> omega

theorem copiedLength_of_lt {length remaining count : ℕ} (hcount : count = min 256 length)
    (hlt : remaining < count) : copiedLength length remaining = 0 := by
  unfold copiedLength
  split_ifs <;> omega

/-- The code `bert_decode_bytes` returns. -/
def copyCode (length remaining : ℕ) : Code :=
  if length ≤ remaining then bertSuccess else bertErrnoShortRead

theorem copyCode_sub {length remaining count : ℕ} (hcount : count = min 256 length)
    (hle : count ≤ remaining) :
    copyCode (length - count) (remaining - count) = copyCode length remaining := by
  have hsame : length - count ≤ remaining - count ↔ length ≤ remaining := by omega
  simp only [copyCode, hsame]

section Plain

variable {length fuel index count : ℕ} {dest : Destination} {rest : List UInt8}

theorem run_plain_loop_of_le (hlength : length < 2 ^ 32) (hlt : index < length)
    (hcount : count = min 256 (length - index)) (hle : count ≤ rest.length) :
    run plainReader (decodeBytesLoop length (fuel + 1) index dest : Decode F _) rest =
      run plainReader (decodeBytesLoop length fuel (index + count)
        (dest.memcpy index (rest.take count)) : Decode F _) (rest.drop count) := by
  have hread : plainReader.read rest count = (bertSuccess, rest) := by
    rw [plainReader_read, if_pos hle]
  exact run_loop_of_read hlength hlt hcount hread

/-- A plain reader with too little left fails as a short read, whether there is nothing
left or not. -/
theorem run_plain_loop_of_lt (hlt : index < length) (hcount : count = min 256 (length - index))
    (hshort : rest.length < count) :
    run plainReader (decodeBytesLoop length (fuel + 1) index dest : Decode F _) rest =
      .done (bertErrnoShortRead, dest) rest := by
  have hread := plainReader_read rest count
  rw [if_neg (Nat.not_le.mpr hshort)] at hread
  split_ifs at hread
  · exact run_loop_of_fails hlt hcount hread (.inl rfl)
  · exact run_loop_of_fails hlt hcount hread (.inr (.inl rfl))

end Plain

/-- Over a plain reader the loop stores the next bytes behind those already copied,
chunk by chunk. -/
theorem run_plain_loop {length missing fuel index : ℕ} (hlength : length < 2 ^ 32)
    (hindex : index + missing = length) (hfuel : missing < fuel) (dest : Destination)
    (rest : List UInt8) :
    ∃ copies,
      run plainReader (decodeBytesLoop length fuel index dest : Decode F _) rest =
        .done (copyCode missing rest.length,
          ⟨store dest.memory index (rest.take (copiedLength missing rest.length)),
            dest.copies ++ copies⟩)
          (rest.drop (copiedLength missing rest.length)) ∧
      ∀ copy ∈ copies, copy.1 + copy.2 ≤ length := by
  induction fuel generalizing missing index dest rest with
  | zero => omega
  | succ fuel ih =>
      by_cases hdone : missing = 0
      · subst hdone
        refine ⟨[], ?_, by simp⟩
        rw [run_loop_of_le (by omega)]
        simp [copyCode, copiedLength]
      obtain ⟨count, hcount⟩ : ∃ count, count = min 256 missing := ⟨_, rfl⟩
      have hchunk : count = min 256 (length - index) := by omega
      by_cases hle : count ≤ rest.length
      · have hpiece : (rest.take count).length = count := List.length_take_of_le hle
        have hnext : index + count + (missing - count) = length := by omega
        obtain ⟨copies, hrun, hwithin⟩ :=
          ih hnext (by omega) (dest.memcpy index (rest.take count)) (rest.drop count)
        refine ⟨(index, count) :: copies, ?_, ?_⟩
        · have hcopied : copiedLength missing rest.length =
              count + copiedLength (missing - count) (rest.drop count).length := by
            rw [List.length_drop]
            exact copiedLength_of_le hcount hle
          have hcode : copyCode (missing - count) (rest.drop count).length =
              copyCode missing rest.length := by
            rw [List.length_drop]
            exact copyCode_sub hcount hle
          rw [run_plain_loop_of_le hlength (by omega) hchunk hle, hrun, hcode, hcopied,
            memory_memcpy hpiece, copies_memcpy hpiece, List.take_add, List.drop_drop,
            List.append_assoc, List.singleton_append]
        · rintro copy hcopy
          rcases List.mem_cons.mp hcopy with rfl | hcopy
          · show index + count ≤ length
            omega
          · exact hwithin copy hcopy
      · have hshort : rest.length < count := Nat.lt_of_not_le hle
        have hcode : copyCode missing rest.length = bertErrnoShortRead := if_neg (by omega)
        refine ⟨[], ?_, by simp⟩
        rw [run_plain_loop_of_lt (by omega) hchunk hshort, copiedLength_of_lt hcount hshort, hcode,
          List.take_zero, List.drop_zero, store_nil, List.append_nil]

/-! ## The bytes that are returned -/

/-- The bytes the loop has collected are those in the memory. -/
theorem run_decodeBytesLoop_eq (R : BertReader σ) {length fuel index : ℕ}
    (hlength : length < 2 ^ 32) (hindex : index ≤ length) (dest : Destination) (s : σ) :
    run R (LibBert.decodeBytesLoop length fuel index (load dest.memory index) : Decode F _) s =
      (run R (decodeBytesLoop length fuel index dest : Decode F _) s).bind fun r t ↦
        .done (if r.1 = bertSuccess then .ok (load r.2.memory length) else .error r.1) t := by
  induction fuel generalizing index dest s with
  | zero => rfl
  | succ fuel ih =>
      by_cases hlt : index < length
      · obtain ⟨count, hcount⟩ : ∃ count, count = min 256 (length - index) := ⟨_, rfl⟩
        rw [run_decodeBytesLoop_succ _ _ hlength hlt hcount]
        rcases R.read_cases s count with ⟨t, hread⟩ | ⟨code, t, hfails, hread⟩
        · obtain ⟨hpiece, hdelivers⟩ := delivers_of_read hread
          have hload : load (dest.memcpy index (R.peek t count)).memory (index + count) =
              load dest.memory index ++ R.peek t count := by
            rw [← load_store, hpiece]
            rfl
          rw [run_decodeField id hpiece hdelivers, run_loop_of_read hlength hlt hcount hread,
            ← ih (by omega), hload]
          rfl
        · have hneg : readError code ≠ bertSuccess := by
            intro hzero
            exact absurd (hzero ▸ readError_neg hfails) (by decide)
          rw [run_decodeField_error id hread hfails, run_loop_of_fails hlt hcount hread hfails,
            Outcome.bind_done, Outcome.bind_done, if_neg hneg]
      · obtain rfl : index = length := by omega
        rw [run_loop_of_le (Nat.le_refl index), LibBert.decodeBytesLoop, if_neg hlt]
        rfl

/-- What `bert_decode_bytes` returns to the decode functions is what the memory holds. -/
theorem run_bertDecodeBytes_eq (R : BertReader σ) {length : ℕ} (hlength : length < 2 ^ 32)
    (dest : Destination) (s : σ) :
    run R (LibBert.bertDecodeBytes length : Decode F _) s =
      (run R (bertDecodeBytes length dest : Decode F _) s).bind fun r t ↦
        .done (if r.1 = bertSuccess then .ok (load r.2.memory length) else .error r.1) t :=
  run_decodeBytesLoop_eq R hlength (Nat.zero_le length) dest s

/-! ## The requests -/

theorem pullsOnly_decodeBytesLoop {loud : Prop} {pull : Decode F (Result F)}
    {length fuel index avail : ℕ} (dest : Destination) (hlength : length < 2 ^ 32)
    (hindex : index ≤ length) (hfuel : length - index < fuel) :
    PullsOnly loud pull avail (decodeBytesLoop length fuel index dest) := by
  induction fuel generalizing index dest avail with
  | zero => omega
  | succ fuel ih =>
      rw [decodeBytesLoop]
      split_ifs with hlt
      · refine PullsOnly.decoderRead (Nat.min_le_left _ _) ?_ fun _ ↦ Calls.ret 0 _
        refine Calls.peek (Nat.le_refl _) fun src ↦ Calls.step (Nat.le_refl _) (ih _ ?_ ?_)
        all_goals simp only [bertShortBuffer]; omega
      · exact Calls.ret _ _

theorem disciplined_bertDecodeBytes {length : ℕ} (hlength : length < 2 ^ 32)
    (dest : Destination) :
    Disciplined bertSuccess ReadFails (bertShortBuffer / 2) 0
      (bertDecodeBytes length dest : Decode F _) := by
  have hloop : PullsOnly False (.ret (0, none)) 0 (bertDecodeBytes length dest : Decode F _) :=
    pullsOnly_decodeBytesLoop dest hlength (Nat.zero_le length) (Nat.lt_succ_self length)
  exact hloop.disciplined trivial

end InMemory

/-! ## The states of a decoder -/

/-- The states a decoder goes through, also in the middle of a pull: it is created, given
any source at any time, asked for any number of bytes and stepped over unread ones. -/
inductive Visited : Decoder ρ → Prop
  | create : Visited bertDecoderCreate
  | stream {d : Decoder ρ} (file : Source ρ) (fd : ρ) (h : Visited d) :
      Visited (bertDecoderStream d file fd)
  | callback {d : Decoder ρ} (callback : Source ρ) (data : ρ) (h : Visited d) :
      Visited (bertDecoderCallback d callback data)
  | buffer {d : Decoder ρ} (buffer : List UInt8) (length : ℕ) (h : Visited d) :
      Visited (bertDecoderBuffer d buffer length)
  | read {d : Decoder ρ} (size : ℕ) (h : Visited d) : Visited (bertDecoderRead d size).2
  | step {d : Decoder ρ} {size : ℕ} (h : Visited d) (hsize : size ≤ d.unread.length) :
      Visited (d.step size)

/-- The unread bytes lie within the window and were counted. -/
theorem Visited.counted {d : Decoder ρ} (h : Visited d) :
    d.Valid ∧ d.unread.length ≤ d.total := by
  induction h with
  | create => exact ⟨valid_fresh .none, Nat.zero_le _⟩
  | stream file fd _ ih => exact ⟨(ih.1.setMode _).1, ih.2⟩
  | callback callback data _ ih => exact ⟨(ih.1.setMode _).1, ih.2⟩
  | buffer buffer length _ ih => exact ⟨(ih.1.setMode _).1, ih.2⟩
  | @read d size _ ih =>
      have hstep := ih.1.readStep size
      refine ⟨hstep.valid ih.1, ?_⟩
      generalize bertDecoderRead d size = r at hstep
      cases hstep with
      | enough => exact ih.2
      | filled hmore hfill hvalid hunread =>
          rw [hunread, List.length_append]
          simpa [Decoder.received, Decoder.setMode] using ih.2
      | failed hmore hfill hvalid hunread =>
          rw [hunread]
          simpa [Decoder.setMode] using ih.2
  | step _ hsize ih =>
      obtain ⟨hvalid, hunread⟩ := ih.1.step hsize
      refine ⟨hvalid, ?_⟩
      rw [hunread, List.length_drop]
      exact (Nat.sub_le _ _).trans ih.2

/-- Decoding only goes through such states. -/
def visiting (ρ : Type) : Invariant (windowReader (ρ := ρ)) (bertShortBuffer / 2) where
  Holds avail d := Visited d ∧ avail ≤ d.unread.length
  weaken h := ⟨h.1, Nat.zero_le _⟩
  read_ok h _ hcode := ⟨h.1.read _, (h.1.counted.1.readStep _).le_of_success hcode⟩
  read_fail h _ _ := ⟨h.1.read _, Nat.zero_le _⟩
  step h hsize := ⟨h.1.step (hsize.trans h.2), (h.1.counted.1.step_promised h.2 hsize).2⟩

section Reached

variable [Platform F] {d : Decoder ρ}

theorem Reached.visited (h : Reached F d) : Visited d := by
  induction h with
  | create => exact .create
  | stream file fd _ ih => exact ih.stream file fd
  | callback callback data _ ih => exact ih.callback callback data
  | buffer buffer length _ ih => exact ih.buffer buffer length
  | pull _ hrun ih =>
      exact ((visiting ρ).run (disciplined_bertDecoderPull _) ⟨ih, Nat.zero_le _⟩ hrun).1

/-- Wherever a pull asks for bytes it is in such a state. -/
theorem Reached.along_visited (h : Reached F d) (depth : ℕ) :
    Along windowReader { onRead := fun e _ ↦ Visited e } (bertDecoderPull depth : Decode F _)
      d := by
  have hallows : (visiting ρ).Allows
      ({ onRead := fun e _ ↦ Visited e } : Watch (Event F) (Decoder ρ)) :=
    ⟨fun h _ ↦ h.1, fun _ _ ↦ trivial, fun _ _ ↦ trivial, fun _ _ ↦ trivial, fun _ ↦ trivial,
      fun _ ↦ trivial⟩
  exact Invariant.along hallows (fun _ ↦ trivial) (disciplined_bertDecoderPull depth)
    ⟨h.visited, Nat.zero_le _⟩

end Reached

/-! ## Every copy -/

/-- The decoder reads from the source, and these are its unread bytes followed by those
the source still holds. -/
def PlainSource.Ahead (source : PlainSource ρ) (d : Decoder ρ) (rest : List UInt8) : Prop :=
  ∃ s, (d.mode = .stream source.toSource s ∨ d.mode = .callback source.toSource s) ∧
    rest = d.unread ++ source.contents s

/-- With `rest` ahead `bert_decode_bytes` succeeds if there are enough bytes and else
returns `BERT_ERRNO_SHORT_READ`.  It stores the first of them from `dest` on, all that
were asked for or a part, which are then no longer ahead, and with each `memcpy` both
the destination and the index stay within the length. -/
def CopiesBytes (F : Type) (ahead : Decoder ρ → List UInt8 → Prop) (length : ℕ)
    (memory : ℕ → UInt8) (d : Decoder ρ) (rest : List UInt8) : Prop :=
  ∃ copies d',
    run windowReader (InMemory.bertDecodeBytes length ⟨memory, []⟩ : Decode F _) d =
      .done (InMemory.copyCode length rest.length,
        ⟨store memory 0 (rest.take (InMemory.copiedLength length rest.length)), copies⟩) d' ∧
    ahead d' (rest.drop (InMemory.copiedLength length rest.length)) ∧
    ∀ copy ∈ copies, copy.1 + copy.2 ≤ length

section Copies

variable {length : ℕ} {d : Decoder ρ} {rest : List UInt8}

/-- A decoder that simulates the plain reader on what is ahead copies it. -/
theorem copiesBytes_of_simulation {ample : Decoder ρ → ℕ → Prop}
    (sim : Simulation windowReader plainReader (bertShortBuffer / 2) ample)
    (hample : ∀ {avail d rest size}, sim.rel avail d rest → size ≤ bertShortBuffer / 2 →
      ample d size)
    (hlength : length < 2 ^ 32) (memory : ℕ → UInt8) (hrel : sim.rel 0 d rest) :
    CopiesBytes F (sim.rel 0) length memory d rest := by
  have hdisciplined := InMemory.disciplined_bertDecodeBytes (F := F) hlength ⟨memory, []⟩
  have hrelated := sim.run hdisciplined hrel (sim.along hample hdisciplined hrel)
  obtain ⟨copies, hplain, hwithin⟩ := InMemory.run_plain_loop (F := F) hlength
    (Nat.zero_add length) (Nat.lt_succ_self length) ⟨memory, []⟩ rest
  rw [InMemory.bertDecodeBytes, hplain, List.nil_append] at hrelated
  obtain ⟨d', hrun, hrel'⟩ := hrelated.exists_left
  exact ⟨copies, d', hrun, hrel', hwithin⟩

theorem CopiesBytes.mono {ahead ahead' : Decoder ρ → List UInt8 → Prop} {memory : ℕ → UInt8}
    (h : CopiesBytes F ahead length memory d rest)
    (hmono : ∀ d rest, ahead d rest → ahead' d rest) :
    CopiesBytes F ahead' length memory d rest := by
  obtain ⟨copies, d', hrun, hahead, hwithin⟩ := h
  exact ⟨copies, d', hrun, hmono _ _ hahead, hwithin⟩

end Copies

/-- In every state a decoder goes through, the chunks of `bert_decode_bytes` are one
contiguous copy of the bytes ahead: over a stream or callback that answers in full, and
over a buffer that the next fill copies whole. -/
theorem bytes_copied_contiguously (F : Type) {d : Decoder ρ} (h : Visited d) {length : ℕ}
    (hlength : length < 2 ^ 32) (memory : ℕ → UInt8) (rest : List UInt8) :
    (∀ source : PlainSource ρ, source.Ahead d rest →
      CopiesBytes F source.Ahead length memory d rest) ∧
    (∀ buffer : List UInt8, buffer.length ≤ bertShortBuffer → Appended buffer d rest →
      CopiesBytes F (Appended buffer) length memory d rest) := by
  obtain ⟨hvalid, hcounted⟩ := h.counted
  constructor
  · rintro source ⟨s, hmode, rfl⟩
    have hrefines : source.feeding.Refines (d.total + (source.contents s).length) 0 d
        (d.unread ++ source.contents s) :=
      ⟨hvalid, Nat.zero_le _, hcounted, _, ⟨s, hmode, rfl⟩, rfl, rfl⟩
    have hcopies : CopiesBytes F (source.feeding.Refines _ 0) length memory d _ :=
      copiesBytes_of_simulation (source.feeding.simulation _ source.feeding.Ample fun _ _ _ _ ↦ id)
        (fun hrel hsize ↦ source.ample hrel.valid hsize) hlength memory hrefines
    apply hcopies.mono
    rintro d' rest' hrefines'
    obtain ⟨upcoming, ⟨s', hmode', rfl⟩, hrest, -⟩ := hrefines'.upcoming
    exact ⟨s', hmode', hrest⟩
  · intro buffer hfits happended
    have hcopies := copiesBytes_of_simulation (F := F) (appendedSimulation buffer hfits)
      (fun _ _ ↦ trivial) hlength memory ⟨⟨hvalid, Nat.zero_le _⟩, happended⟩
    exact hcopies.mono fun _ _ hrel ↦ hrel.2

/-- The first 300 of 600 bytes, which takes two chunks. -/
theorem bytes_copied_contiguously_two_chunks :
    CopiesBytes Empty PlainSource.ofList.Ahead 300 (fun _ ↦ 0)
      (bertDecoderStream bertDecoderCreate PlainSource.ofList.toSource (List.replicate 600 7))
      (List.replicate 600 7) :=
  (bytes_copied_contiguously Empty (.stream _ _ .create) (by decide) _ _).1 _ ⟨_, .inl rfl, rfl⟩

end LibBert
