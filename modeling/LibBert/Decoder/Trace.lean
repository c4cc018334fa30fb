import LibBert.Decoder.Pulls

/-!
# The window keeps every byte

A run is watched beside two ghosts: the source logs what it was asked for and
what it delivered, and the reader keeps the bytes it has stepped over.  Whatever
the source answers, the bytes stepped over and those in the window are the bytes
delivered, and no request or step leaves the window.
-/

namespace LibBert

open Reading

variable {F ρ : Type}

/-! ## Ghosts -/

/-- A source state with the bytes delivered and the sizes asked for. -/
structure Log (ρ : Type) : Type where
  state : ρ
  delivered : List UInt8
  requests : List ℕ

def Log.start (s : ρ) : Log ρ := ⟨s, [], []⟩

/-- The source that logs its answers. -/
def Source.logged (source : Source ρ) : Source (Log ρ) where
  read log size :=
    ((source.read log.state size).1,
      { state := (source.read log.state size).2
        delivered := log.delivered ++ ((source.read log.state size).1.getD [])
        requests := log.requests ++ [size] })
  read_length_le log size bytes h := source.read_length_le log.state size bytes h

/-- A decoder with the bytes it has stepped over. -/
structure Traced (ρ : Type) : Type where
  decoder : Decoder ρ
  stepped : List UInt8

/-- The window reader that keeps what is stepped over. -/
def tracedReader : BertReader (Traced ρ) where
  read t size :=
    ((bertDecoderRead t.decoder size).1, { t with decoder := (bertDecoderRead t.decoder size).2 })
  peek t size := t.decoder.ptr size
  step t size := ⟨t.decoder.step size, t.stepped ++ t.decoder.ptr size⟩
  read_code t size := windowReader.read_code t.decoder size
  read_again := by
    rintro t size t' h
    obtain ⟨hcode, rfl⟩ := Prod.mk.inj h
    have hagain := bertDecoderRead_again t.decoder size _ (Prod.ext hcode rfl)
    dsimp only
    rw [hagain]
  peek_length t size t' h := by simp [Decoder.ptr]

/-! ## The invariant -/

/-- The offsets lie within the window, and what was stepped over and what is
unread is what was delivered. -/
structure Intact (source : Source ρ) (t : Traced (Log ρ)) : Prop where
  valid : t.decoder.Valid
  log : ∃ log, (t.decoder.mode = .stream source.logged log ∨
      t.decoder.mode = .callback source.logged log) ∧
    log.delivered = t.stepped ++ t.decoder.unread ∧
    bertDecoderTotal t.decoder = log.delivered.length ∧
    ∀ size ∈ log.requests, bertShortBuffer / 2 ≤ size

/-- The window is filled for the request by asking for at least half a window,
and has room for it. -/
def Roomy (d : Decoder ρ) (size : ℕ) : Prop :=
  ∃ e : Decoder ρ,
    bertDecoderRead d size = e.fillShortBuffer size (d.shortLength - d.shortIndex) e.empty ∧
      bertShortBuffer / 2 ≤ e.empty ∧ e.shortLength + e.empty ≤ e.shortBuffer.length

theorem Decoder.Valid.half_le_empty {d : Decoder ρ} (h : d.Valid) {size : ℕ}
    (hsize : size ≤ bertShortBuffer / 2) (hmore : d.unread.length < size) :
    bertShortBuffer / 2 ≤ d.ready.empty := by
  have hroom := h.ready_shortLength_le (by omega)
  simp only [Decoder.empty, bertShortBuffer] at *
  omega

theorem Decoder.Valid.roomy {d : Decoder ρ} (h : d.Valid) {size : ℕ}
    (hsize : size ≤ bertShortBuffer / 2) (hmore : d.unread.length < size) : Roomy d size := by
  obtain ⟨hready, -, -⟩ := h.ready
  have hbuffer := hready.buffer
  have hlength := hready.length_le
  refine ⟨d.ready, ?_, h.half_le_empty hsize hmore, ?_⟩
  · rw [bertDecoderRead_eq, ← h.length_unread, if_neg (Nat.not_le.mpr hmore)]
  · simp only [Decoder.empty]
    omega

/-- A fill of a mode over the logged source logs the request and its answer. -/
theorem Source.logged_fill {source : Source ρ} {log : Log ρ} {mode mode' : DecoderMode (Log ρ)}
    {space : ℕ} {answer : Option (List UInt8)}
    (hmode : mode = .stream source.logged log ∨ mode = .callback source.logged log)
    (hfill : mode.fill space = (answer, mode')) :
    ∃ log', (mode' = .stream source.logged log' ∨ mode' = .callback source.logged log') ∧
      log'.delivered = log.delivered ++ answer.getD [] ∧
      log'.requests = log.requests ++ [space] := by
  rcases hmode with rfl | rfl
  · obtain ⟨rfl, rfl⟩ := Prod.mk.inj hfill
    exact ⟨_, .inl rfl, rfl, rfl⟩
  · obtain ⟨rfl, rfl⟩ := Prod.mk.inj hfill
    exact ⟨_, .inr rfl, rfl, rfl⟩

namespace Intact

variable {source : Source ρ} {t : Traced (Log ρ)} {size : ℕ}

/-- A read keeps every byte, whether it succeeds or fails. -/
theorem read (h : Intact source t) (hsize : size ≤ bertShortBuffer / 2) :
    Intact source (tracedReader.read t size).2 := by
  obtain ⟨log, hmode, hdelivered, htotal, hrequests⟩ := h.log
  have hstep := h.valid.readStep size
  change Intact source ⟨(bertDecoderRead t.decoder size).2, t.stepped⟩
  generalize bertDecoderRead t.decoder size = r at hstep
  cases hstep with
  | enough => exact h
  | @filled bytes mode hmore hfill hvalid hunread =>
      have hspace := h.valid.half_le_empty hsize hmore
      obtain ⟨log', hmode', hdelivered', hrequests'⟩ := Source.logged_fill hmode hfill
      refine ⟨hvalid, log', hmode', ?_, ?_, ?_⟩
      · rw [hdelivered', hdelivered, hunread, List.append_assoc]
        rfl
      · rw [hdelivered', List.length_append, ← htotal]
        simp [bertDecoderTotal, Decoder.received, Decoder.setMode]
      · rw [hrequests']
        simpa using fun n hn ↦ hn.elim (hrequests n) fun hn ↦ hn ▸ hspace
  | @failed mode hmore hfill hvalid hunread =>
      have hspace := h.valid.half_le_empty hsize hmore
      obtain ⟨log', hmode', hdelivered', hrequests'⟩ := Source.logged_fill hmode hfill
      refine ⟨hvalid, log', hmode', ?_, ?_, ?_⟩
      · rw [hdelivered', hdelivered, hunread]
        exact List.append_nil _
      · rw [hdelivered', List.length_append, ← htotal]
        simp [bertDecoderTotal, Decoder.setMode]
      · rw [hrequests']
        simpa using fun n hn ↦ hn.elim (hrequests n) fun hn ↦ hn ▸ hspace

theorem step (h : Intact source t) (hsize : size ≤ t.decoder.unread.length) :
    Intact source (tracedReader.step t size) := by
  obtain ⟨log, hmode, hdelivered, htotal, hrequests⟩ := h.log
  obtain ⟨hvalid, hunread⟩ := h.valid.step hsize
  refine ⟨hvalid, log, hmode, ?_, htotal, hrequests⟩
  change log.delivered = t.stepped ++ t.decoder.ptr size ++ (t.decoder.step size).unread
  rw [hdelivered, hunread, h.valid.ptr_eq hsize, List.append_assoc, List.take_append_drop]

/-- What decoding keeps, with as many unread bytes as were promised. -/
def invariant (source : Source ρ) :
    Invariant (tracedReader (ρ := Log ρ)) (bertShortBuffer / 2) where
  Holds avail t := Intact source t ∧ avail ≤ t.decoder.unread.length
  weaken h := ⟨h.1, Nat.zero_le _⟩
  read_ok {_ _ size} h hsize hcode :=
    ⟨h.1.read hsize, (h.1.valid.readStep size).le_of_success hcode⟩
  read_fail h hsize _ := ⟨h.1.read hsize, Nat.zero_le _⟩
  step h hsize :=
    ⟨h.1.step (hsize.trans h.2), (h.1.valid.step_promised h.2 hsize).2⟩

end Intact

/-! ## Forgetting the ghosts -/

/-- The mode without the log of its source. -/
def DecoderMode.erase (source : Source ρ) : DecoderMode (Log ρ) → DecoderMode ρ
  | .none => .none
  | .stream _ log => .stream source log.state
  | .buffer ptr length index => .buffer ptr length index
  | .callback _ log => .callback source log.state

namespace Decoder

variable {source : Source ρ} {d : Decoder (Log ρ)}

def erase (source : Source ρ) (d : Decoder (Log ρ)) : Decoder ρ where
  mode := d.mode.erase source
  total := d.total
  shortLength := d.shortLength
  shortIndex := d.shortIndex
  shortBuffer := d.shortBuffer

theorem erase_ready : (d.erase source).ready = d.ready.erase source := by
  by_cases hempty : bertShortBuffer / 2 ≤ d.empty
  · rw [ready, ready, if_pos hempty, if_pos (show _ ≤ (d.erase source).empty from hempty)]
  · rw [ready, ready, if_neg hempty, if_neg (show ¬ _ ≤ (d.erase source).empty from hempty)]
    rfl

theorem erase_receive (bytes : List UInt8) (size remainingSpace : ℕ) :
    (d.erase source).receive bytes size remainingSpace =
      ((d.receive bytes size remainingSpace).1,
        (d.receive bytes size remainingSpace).2.erase source) := by
  by_cases hnone : bytes.length = 0 ∧ remainingSpace = 0
  · simp only [receive, erase, hnone, and_self, ↓reduceIte]
  · by_cases hshort : d.shortLength + bytes.length - d.shortIndex < size
    · simp only [receive, erase, hnone, hshort, ↓reduceIte]
    · simp only [receive, erase, hnone, hshort, ↓reduceIte]

theorem erase_fillShortBuffer {log : Log ρ}
    (hmode : d.mode = .stream source.logged log ∨ d.mode = .callback source.logged log)
    (size remainingSpace space : ℕ) :
    (d.erase source).fillShortBuffer size remainingSpace space =
      ((d.fillShortBuffer size remainingSpace space).1,
        (d.fillShortBuffer size remainingSpace space).2.erase source) := by
  have hfill : (d.erase source).mode.fill space =
      ((d.mode.fill space).1, (d.mode.fill space).2.erase source) := by
    rcases hmode with hmode | hmode <;> rw [erase, hmode] <;> rfl
  have hfailure : (d.erase source).mode.failure = d.mode.failure := by
    rcases hmode with hmode | hmode <;> rw [erase, hmode] <;> rfl
  rw [fillShortBuffer_eq, fillShortBuffer_eq, hfill, hfailure]
  rcases d.mode.fill space with ⟨_ | bytes, mode⟩
  · rfl
  · exact erase_receive (d := d.setMode mode) bytes size remainingSpace

/-- A read over the logged source answers as over the source. -/
theorem erase_read {log : Log ρ}
    (hmode : d.mode = .stream source.logged log ∨ d.mode = .callback source.logged log)
    (size : ℕ) :
    bertDecoderRead (d.erase source) size =
      ((bertDecoderRead d size).1, (bertDecoderRead d size).2.erase source) := by
  rw [← d.ready_mode] at hmode
  rw [bertDecoderRead_eq, bertDecoderRead_eq, erase_ready]
  by_cases hle : size ≤ d.shortLength - d.shortIndex
  · rw [if_pos hle]
    exact if_pos hle
  · rw [if_neg hle, ← erase_fillShortBuffer hmode]
    exact if_neg hle

end Decoder

/-- A traced decoder behaves as the decoder does. -/
def erasure (source : Source ρ) :
    Simulation (tracedReader (ρ := Log ρ)) (windowReader (ρ := ρ)) (bertShortBuffer / 2)
      (fun _ _ ↦ True) where
  rel avail t d := (Intact.invariant source).Holds avail t ∧ t.decoder.erase source = d
  weaken h := ⟨(Intact.invariant source).weaken h.1, h.2⟩
  read_code := by
    rintro avail t d size ⟨hintact, rfl⟩ - -
    obtain ⟨log, hmode, -⟩ := hintact.1.log
    exact (congrArg Prod.fst (Decoder.erase_read hmode size)).symm
  read_ok := by
    rintro avail t d size ⟨hintact, rfl⟩ hsize - hcode
    obtain ⟨log, hmode, -⟩ := hintact.1.log
    exact ⟨(Intact.invariant source).read_ok hintact hsize hcode,
      (congrArg Prod.snd (Decoder.erase_read hmode size)).symm⟩
  read_fail := by
    rintro avail t d size ⟨hintact, rfl⟩ hsize - hcode
    obtain ⟨log, hmode, -⟩ := hintact.1.log
    exact ⟨(Intact.invariant source).read_fail hintact hsize hcode,
      (congrArg Prod.snd (Decoder.erase_read hmode size)).symm⟩
  peek := by
    rintro avail t d size ⟨-, rfl⟩ -
    rfl
  step := by
    rintro avail t d size ⟨hintact, rfl⟩ hsize
    exact ⟨(Intact.invariant source).step hintact hsize, rfl⟩

/-! ## Every run -/

/-- The window is intact at every point of a run, requests have room, successful
reads leave what was asked for, and no step goes past the bytes in the window. -/
def intactWatch (source : Source ρ) : Watch (Event F) (Traced (Log ρ)) where
  onRead t size :=
    Intact source t ∧ Intact source (tracedReader.read t size).2 ∧
      (t.decoder.unread.length < size → Roomy t.decoder size) ∧
      ((tracedReader.read t size).1 = bertSuccess →
        size ≤ (tracedReader.read t size).2.decoder.unread.length)
  onPeek t size := Intact source t ∧ t.decoder.shortIndex + size ≤ t.decoder.shortLength
  onStep t size := Intact source t ∧ t.decoder.shortIndex + size ≤ t.decoder.shortLength
  onEmit _ t := Intact source t
  onStuck t := Intact source t
  onFault t := Intact source t
  onTimeout t := Intact source t

theorem Decoder.Valid.index_add_le {d : Decoder ρ} (h : d.Valid) {size : ℕ}
    (hsize : size ≤ d.unread.length) : d.shortIndex + size ≤ d.shortLength := by
  have hindex := h.index_le
  rw [h.length_unread] at hsize
  omega

theorem Intact.allows (source : Source ρ) :
    (Intact.invariant source).Allows (intactWatch source : Watch (Event F) _) where
  read h hsize :=
    ⟨h.1, h.1.read hsize, h.1.valid.roomy hsize, (h.1.valid.readStep _).le_of_success⟩
  peek h hsize := ⟨h.1, h.1.valid.index_add_le (hsize.trans h.2)⟩
  step h hsize := ⟨h.1, h.1.valid.index_add_le (hsize.trans h.2)⟩
  emit _ h := h.1
  stuck h := h.1
  fault h := h.1

theorem intact_fresh (stream : Bool) (source : Source ρ) (s : ρ) :
    Intact source ⟨freshDecoder stream source.logged (.start s), []⟩ := by
  cases stream
  · exact ⟨valid_fresh _, .start s, .inr rfl, rfl, rfl, by simp [Log.start]⟩
  · exact ⟨valid_fresh _, .start s, .inl rfl, rfl, rfl, by simp [Log.start]⟩

/-- The window never loses, duplicates or overruns bytes, whatever the source
answers and however many pulls are made. -/
theorem window_intact [Platform F] (stream : Bool) (source : Source ρ) (s : ρ)
    (depth count : ℕ) :
    AlongRuns tracedReader (intactWatch source) (bertDecoderPull depth : Decode F _) count
      ⟨freshDecoder stream source.logged (.start s), []⟩ :=
  (Intact.invariant source).alongRuns (Intact.allows source) (fun h ↦ h.1)
    (disciplined_bertDecoderPull depth) count ⟨intact_fresh stream source s, Nat.zero_le _⟩

/-- The ghosts change nothing: pulls beside them return what the pulls of the
decoder over the source itself return, and leave the decoder in its state. -/
theorem pulls_traced [Platform F] (stream : Bool) (source : Source ρ) (s : ρ) (depth count : ℕ) :
    pulls (F := F) tracedReader (fun t ↦ t.decoder.erase source) depth count
        ⟨freshDecoder stream source.logged (.start s), []⟩ =
      pulls windowReader id depth count (freshDecoder stream source s) := by
  refine (erasure source).runs (fun h ↦ h.2) (disciplined_bertDecoderPull depth) ?_
    (alongRuns_default _ count _)
  refine ⟨⟨intact_fresh stream source s, Nat.zero_le _⟩, ?_⟩
  cases stream <;> rfl

end LibBert
