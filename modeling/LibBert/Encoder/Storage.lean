import LibBert.Encoder.Outcome

/-!
# What reaches a buffer or a callback

A buffer keeps a write whole or not at all, and so does a callback that never
takes a part of one.  What they hold of a sequence of pushes is then a prefix of
what the pushes should write, cut between two writes.
-/

namespace LibBert

variable {F ω : Type}

/-- What a mode holds, and when it rejects a write with which code. -/
structure Storage (ω : Type) where
  At : List UInt8 → EncoderMode ω → Prop
  Rejects : List UInt8 → List UInt8 → Code → Prop
  write : ∀ {stored mode}, At stored mode → ∀ data, ∃ code mode',
    mode.write data = (code, mode') ∧
      (code = bertSuccess ∧ At (stored ++ data) mode' ∨
        code ≠ bertSuccess ∧ Rejects stored data code ∧ At stored mode')

namespace Storage

variable (storage : Storage ω)

/-- Every write of `bytes` was kept, or all in front of one that was rejected. -/
def Outcome (stored bytes done : List UInt8) (code : Code) : Prop :=
  code = bertSuccess ∧ done = bytes ∨
    code ≠ bertSuccess ∧ ∃ data rest, bytes = done ++ (data ++ rest) ∧
      storage.Rejects (stored ++ done) data code

variable {storage} {stored bytes done : List UInt8} {code : Code}

theorem Outcome.isPrefix (h : storage.Outcome stored bytes done code) : done <+: bytes := by
  rcases h with ⟨-, rfl⟩ | ⟨-, data, rest, rfl, -⟩
  · exact List.prefix_refl done
  · exact List.prefix_append done (data ++ rest)

theorem writeAll (ws : List (List UInt8)) {e : Encoder ω} (h : storage.At stored e.mode) :
    ∃ code e' done, Encode.writeAll ws e = some (code, e') ∧
      storage.At (stored ++ done) e'.mode ∧ e'.total = e.total + done.length ∧
      storage.Outcome stored ws.flatten done code := by
  induction ws generalizing stored e with
  | nil => exact ⟨_, e, [], rfl, by rwa [List.append_nil], rfl, .inl ⟨rfl, rfl⟩⟩
  | cons data ws ih =>
      obtain ⟨code, mode, hwrite, hresult⟩ := storage.write h data
      rcases hresult with ⟨rfl, hat⟩ | ⟨hcode, hrejects, hat⟩
      · obtain ⟨code, e', done, hrun, hat', htotal, houtcome⟩ :=
          @ih _ { e with mode := mode, total := e.total + data.length } hat
        refine ⟨code, e', data ++ done, ?_, by rwa [← List.append_assoc], ?_, ?_⟩
        · simp [Encode.writeAll, Encode.andThen, Encode.write, bertEncoderWrite, hwrite, hrun]
        · rw [htotal, List.length_append, Nat.add_assoc]
        · rcases houtcome with ⟨hcode, rfl⟩ | ⟨hcode, last, rest, hflatten, hrejects⟩
          · exact .inl ⟨hcode, rfl⟩
          · refine .inr ⟨hcode, last, rest, ?_, by rwa [← List.append_assoc]⟩
            rw [List.flatten_cons, hflatten, List.append_assoc]
      · refine ⟨code, { e with mode := mode }, [], ?_, by rwa [List.append_nil], rfl, ?_⟩
        · simp [Encode.writeAll, Encode.andThen, Encode.write, bertEncoderWrite, hwrite, hcode]
        · exact .inr ⟨hcode, data, ws.flatten, rfl, by rwa [List.append_nil]⟩

variable [Platform F]

theorem pushAll {ds : List (Data F)} (hds : ∀ d ∈ ds, Encodable d) {e : Encoder ω}
    (h : storage.At stored e.mode) :
    ∃ code e' done, LibBert.pushAll ds e = some (code, e') ∧
      storage.At (stored ++ done) e'.mode ∧ e'.total = e.total + done.length ∧
      storage.Outcome stored (output e.wroteMagic ds) done code := by
  obtain ⟨code, e', done, hrun, hat, htotal, houtcome⟩ :=
    storage.writeAll (outputWrites e.wroteMagic ds) h
  obtain ⟨wroteMagic, hpush⟩ := exists_pushAll_eq hds hrun
  rw [flatten_outputWrites] at houtcome
  exact ⟨code, e'.mark wroteMagic, done, hpush, hat, htotal, houtcome⟩

theorem push {ds : List (Data F)} {d : Data F} (hds : ∀ x ∈ ds, Encodable x) (hd : Encodable d)
    {e₀ e : Encoder ω} (h : storage.At stored e₀.mode)
    (hpushed : LibBert.pushAll ds e₀ = some (bertSuccess, e)) :
    ∃ code e' done, bertEncoderPush d e = some (code, e') ∧
      storage.At (stored ++ done) e'.mode ∧ e'.total = e₀.total + done.length ∧
      storage.Outcome stored (output e₀.wroteMagic (ds ++ [d])) done code := by
  have hall : ∀ x ∈ ds ++ [d], Encodable x := by
    intro x hx
    rcases List.mem_append.mp hx with hx | hx
    · exact hds x hx
    · exact List.mem_singleton.mp hx ▸ hd
  obtain ⟨code, e', done, hpush, hrest⟩ := storage.pushAll hall h
  rw [pushAll_concat, Encode.andThen_of_success hpushed] at hpush
  exact ⟨code, e', done, hpush, hrest⟩

end Storage

/-! ## Buffers -/

theorem write_buffer_of_le {ptr stored data : List UInt8} {length : ℕ} (hlength : length < 2 ^ 32)
    (hfits : (stored ++ data).length ≤ length) :
    (EncoderMode.buffer (stored ++ ptr.drop stored.length) length stored.length :
        EncoderMode ω).write data =
      (bertSuccess, .buffer (stored ++ data ++ ptr.drop (stored ++ data).length) length
        (stored ++ data).length) := by
  rw [List.length_append] at hfits
  have hmod : (stored.length + data.length) % 2 ^ 32 = stored.length + data.length :=
    Nat.mod_eq_of_lt (by omega)
  have hbehind : (stored ++ ptr.drop stored.length).drop (stored.length + data.length) =
      ptr.drop (stored.length + data.length) := by
    rw [← List.drop_drop, List.drop_left, List.drop_drop]
  rw [EncoderMode.write, if_neg (not_lt.mpr hfits), hmod, List.take_left, hbehind,
    List.length_append]

theorem write_buffer_of_lt {ptr data : List UInt8} {length index : ℕ}
    (hfull : length < index + data.length) :
    (EncoderMode.buffer ptr length index : EncoderMode ω).write data =
      (bertErrnoShortWrite, .buffer ptr length index) := by
  rw [EncoderMode.write, if_pos hfull]

theorem bertErrnoShortWrite_ne : bertErrnoShortWrite ≠ bertSuccess := by decide

/-- A buffer whose length fits the 32-bit index holds what was written at its
start and is untouched behind it. -/
def bufferStorage (ptr : List UInt8) {length : ℕ} (hlength : length < 2 ^ 32) : Storage ω where
  At stored mode := stored.length ≤ length ∧
    mode = .buffer (stored ++ ptr.drop stored.length) length stored.length
  Rejects stored data code := length < (stored ++ data).length ∧ code = bertErrnoShortWrite
  write := by
    rintro stored mode ⟨hroom, rfl⟩ data
    rcases Nat.lt_or_ge length (stored ++ data).length with hfull | hfits
    · have hindex := hfull
      rw [List.length_append] at hindex
      exact ⟨_, _, write_buffer_of_lt hindex,
        .inr ⟨bertErrnoShortWrite_ne, ⟨hfull, rfl⟩, hroom, rfl⟩⟩
    · exact ⟨_, _, write_buffer_of_le hlength hfits, .inl ⟨rfl, hfits, rfl⟩⟩

/-- The writes fail for a buffer just when they do not fit. -/
theorem bufferStorage_code {ptr bytes done : List UInt8} {length : ℕ} {hlength : length < 2 ^ 32}
    {code : Code} (h : (bufferStorage ptr hlength : Storage ω).Outcome [] bytes done code)
    (hroom : done.length ≤ length) :
    code = if bytes.length ≤ length then bertSuccess else bertErrnoShortWrite := by
  rcases h with ⟨rfl, rfl⟩ | ⟨-, data, rest, rfl, hfull, rfl⟩
  · exact (if_pos hroom).symm
  · have hlonger : done ++ data <+: done ++ (data ++ rest) := ⟨rest, List.append_assoc _ _ _⟩
    exact (if_neg (not_le.mpr (hfull.trans_le hlonger.length_le))).symm

theorem drop_overwrite {ptr data : List UInt8} {index length : ℕ}
    (hfits : index + data.length ≤ length) (hptr : length ≤ ptr.length) :
    (ptr.take index ++ data ++ ptr.drop (index + data.length)).drop length = ptr.drop length := by
  have hwritten : (ptr.take index ++ data).length = index + data.length := by
    rw [List.length_append, List.length_take_of_le (by omega)]
  rw [List.drop_append, List.drop_of_length_le (by omega), List.nil_append, hwritten,
    List.drop_drop, Nat.add_sub_cancel' hfits]

/-- No byte of the buffer at or behind its length differs from what was there. -/
def Beyond (ptr : List UInt8) (length : ℕ) (e : Encoder ω) : Prop :=
  ∃ ptr' index, e.mode = .buffer ptr' length index ∧ ptr'.length = ptr.length ∧
    ptr'.drop length = ptr.drop length

theorem kept_beyond {ptr : List UInt8} {length : ℕ} (hptr : length ≤ ptr.length) :
    Kept (Beyond ptr length : Encoder ω → Prop) where
  mark := fun he wroteMagic ↦ he
  write := by
    rintro e ⟨ptr', index, hmode, hlength, hdrop⟩ data
    by_cases hfits : length < index + data.length
    · refine ⟨ptr', index, ?_, hlength, hdrop⟩
      simp [bertEncoderWrite, hmode, write_buffer_of_lt hfits, bertErrnoShortWrite_ne]
    · refine ⟨ptr'.take index ++ data ++ ptr'.drop (index + data.length),
        (index + data.length) % 2 ^ 32, ?_, ?_, ?_⟩
      · simp [bertEncoderWrite, hmode, EncoderMode.write, hfits]
      · simp only [List.length_append, List.length_take, List.length_drop]
        omega
      · rw [drop_overwrite (by omega) (by omega), hdrop]

/-! ## Callbacks -/

/-- A sink that keeps a write whole or rejects it and stays as it was. -/
structure AtomicSink (ω : Type) extends Sink ω where
  contents : ω → List UInt8
  atomic : ∀ s data, 0 ≤ (write s data).1 ∧ contents (write s data).2 = contents s ++ data ∨
    (write s data).1 < 0 ∧ contents (write s data).2 = contents s

def AtomicSink.storage (sink : AtomicSink ω) : Storage ω where
  At stored mode := ∃ s, mode = .callback sink.toSink s ∧ sink.contents s = stored
  Rejects _ _ code := code = bertErrnoInvalid
  write := by
    rintro stored mode ⟨s, rfl, rfl⟩ data
    rcases sink.atomic s data with ⟨hresult, hcontents⟩ | ⟨hresult, hcontents⟩
    · exact ⟨_, _, by rw [EncoderMode.write, if_neg (not_lt.mpr hresult)],
        .inl ⟨rfl, _, rfl, hcontents⟩⟩
    · exact ⟨_, _, by rw [EncoderMode.write, if_pos hresult],
        .inr ⟨by decide, rfl, _, rfl, hcontents⟩⟩

/-! ## Every push -/

/-- What is stored of encodable terms is a prefix of their encodings behind one
magic byte, up to and including the first push that fails; the push fails in a
buffer just when the encodings no longer fit.  No push at all writes behind the
buffer. -/
theorem stored_prefix_of_output [Platform F] {ds : List (Data F)} {d : Data F}
    (hds : ∀ x ∈ ds, Encodable x) (hd : Encodable d) :
    (∀ (ptr : List UInt8) (length : ℕ) (e : Encoder ω), length < 2 ^ 32 → length ≤ ptr.length →
      pushAll ds (bertEncoderBuffer bertEncoderCreate ptr length) = some (bertSuccess, e) →
        ∃ code e' stored, bertEncoderPush d e = some (code, e') ∧
          stored <+: output false (ds ++ [d]) ∧ bertEncoderTotal e' = stored.length ∧
          e'.mode = .buffer (stored ++ ptr.drop stored.length) length stored.length ∧
          code = if (output false (ds ++ [d])).length ≤ length then bertSuccess
            else bertErrnoShortWrite) ∧
    (∀ (sink : AtomicSink ω) (s : ω) (e : Encoder ω),
      pushAll ds (bertEncoderCallback bertEncoderCreate sink.toSink s) = some (bertSuccess, e) →
        ∃ code e' stored s', bertEncoderPush d e = some (code, e') ∧
          stored <+: output false (ds ++ [d]) ∧ bertEncoderTotal e' = stored.length ∧
          e'.mode = .callback sink.toSink s' ∧ sink.contents s' = sink.contents s ++ stored ∧
          (code = bertSuccess → stored = output false (ds ++ [d]))) ∧
    ∀ (terms : List (Data F)) (ptr : List UInt8) (length : ℕ) (e : Encoder ω),
      length ≤ ptr.length →
        pushEach terms (bertEncoderBuffer bertEncoderCreate ptr length) = some e →
          Beyond ptr length e := by
  refine ⟨fun ptr length e hlength _ hpushed ↦ ?_, fun sink s e hpushed ↦ ?_,
    fun terms ptr length e hptr hrun ↦ ?_⟩
  · have hempty : (bufferStorage ptr hlength).At []
        (bertEncoderBuffer bertEncoderCreate ptr length : Encoder ω).mode := ⟨Nat.zero_le _, rfl⟩
    obtain ⟨code, e', stored, hpush, ⟨hroom, hmode⟩, htotal, houtcome⟩ :=
      (bufferStorage ptr hlength).push hds hd hempty hpushed
    exact ⟨code, e', stored, hpush, houtcome.isPrefix, htotal.trans (Nat.zero_add _), hmode,
      bufferStorage_code houtcome hroom⟩
  · obtain ⟨code, e', stored, hpush, ⟨s', hmode, hcontents⟩, htotal, houtcome⟩ :=
      sink.storage.push hds hd ⟨s, rfl, rfl⟩ hpushed
    refine ⟨code, e', stored, s', hpush, houtcome.isPrefix, htotal.trans (Nat.zero_add _), hmode,
      hcontents, fun hcode ↦ ?_⟩
    rcases houtcome with ⟨-, hall⟩ | ⟨hfailed, -⟩
    · exact hall
    · exact absurd hcode hfailed
  · exact (kept_beyond hptr).pushEach ⟨ptr, 0, rfl, rfl, rfl⟩ hrun

/-- A push on a buffer of four bytes, three of which are taken. -/
theorem stored_prefix_of_output_short :
    ∃ code e' stored, bertEncoderPush (.nil : Data Empty)
        { mode := .buffer [131, 97, 1, 0] 4 3, wroteMagic := true, total := 3 } = some (code, e') ∧
      stored <+: output false ([.int 1] ++ [(.nil : Data Empty)]) ∧
      bertEncoderTotal (e' : Encoder Unit) = stored.length ∧
      e'.mode = .buffer (stored ++ [0, 0, 0, 0].drop stored.length) 4 stored.length ∧
      code = if (output false ([.int 1] ++ [(.nil : Data Empty)])).length ≤ 4 then bertSuccess
        else bertErrnoShortWrite := by
  have hds : ∀ x ∈ [(.int 1 : Data Empty)], Encodable x := by simp [Encodable]
  have hd : Encodable (.nil : Data Empty) := trivial
  exact (stored_prefix_of_output hds hd).1 [0, 0, 0, 0] 4 _ (by decide) (by decide) rfl

end LibBert
