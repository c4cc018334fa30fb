import LibBert.Encoder.Pushes

/-!
# Sinks that take every write

What a stream, a callback or a buffer stores of a sequence of pushes as long as
it takes every write: the magic byte once, then the encodings of the terms.
-/

namespace LibBert

variable {F ω : Type}

/-! ## What is stored -/

/-- What a mode has stored, and a state of it in which it takes as many more
bytes as there is room for. -/
structure Receiving (ω : Type) where
  stored : EncoderMode ω → List UInt8
  Takes : EncoderMode ω → ℕ → Prop
  write : ∀ {mode room data}, Takes mode room → data.length ≤ room →
    ∃ mode', mode.write data = (bertSuccess, mode') ∧ stored mode' = stored mode ++ data ∧
      Takes mode' (room - data.length)

/-- A sink that accepts every write whole. -/
structure AcceptingSink (ω : Type) extends Sink ω where
  contents : ω → List UInt8
  accepts : ∀ s data, 0 ≤ (write s data).1
  appends : ∀ s data, contents (write s data).2 = contents s ++ data

/-- A stream or callback encoder over an accepting sink. -/
def AcceptingSink.receiving (sink : AcceptingSink ω) : Receiving ω where
  stored
    | .stream _ s => sink.contents s
    | .callback _ s => sink.contents s
    | _ => []
  Takes mode _ := ∃ s, mode = .stream sink.toSink s ∨ mode = .callback sink.toSink s
  write := by
    rintro mode room data ⟨s, rfl | rfl⟩ -
    · refine ⟨.stream sink.toSink (sink.write s data).2, ?_, sink.appends s data, _, .inl rfl⟩
      rw [EncoderMode.write, if_neg (not_lt.mpr (sink.accepts s data))]
    · refine ⟨.callback sink.toSink (sink.write s data).2, ?_, sink.appends s data, _, .inr rfl⟩
      rw [EncoderMode.write, if_neg (not_lt.mpr (sink.accepts s data))]

/-- A buffer encoder whose length fits the 32-bit index. -/
def bufferReceiving (length : ℕ) (hlength : length < 2 ^ 32) : Receiving ω where
  stored
    | .buffer ptr _ index => ptr.take index
    | _ => []
  Takes mode room := ∃ ptr index, mode = .buffer ptr length index ∧ index + room ≤ length ∧
    length ≤ ptr.length
  write := by
    rintro mode room data ⟨ptr, index, rfl, hroom, hptr⟩ hdata
    have hmod : (index + data.length) % 2 ^ 32 = index + data.length :=
      Nat.mod_eq_of_lt (by omega)
    have hstart : (ptr.take index).length = index := by
      rw [List.length_take]
      omega
    refine ⟨_, by rw [EncoderMode.write, if_neg (by omega), hmod], ?_, _, _, rfl, by omega, ?_⟩
    · exact List.take_left' (by rw [List.length_append, hstart])
    · simp only [List.length_append, hstart, List.length_drop]
      omega

/-- The sink that keeps the bytes written to it. -/
def AcceptingSink.recording : AcceptingSink (List UInt8) where
  write s data := (data.length, s ++ data)
  contents := id
  accepts _ _ := Int.natCast_nonneg _
  appends _ _ := rfl

/-! ## Pushes -/

namespace Receiving

variable (receiving : Receiving ω) {e : Encoder ω} {room : ℕ}

theorem writeAll (ws : List (List UInt8)) (h : receiving.Takes e.mode room)
    (hroom : ws.flatten.length ≤ room) :
    ∃ e', Encode.writeAll ws e = some (bertSuccess, e') ∧
      receiving.stored e'.mode = receiving.stored e.mode ++ ws.flatten := by
  induction ws generalizing e room with
  | nil => exact ⟨e, rfl, by simp⟩
  | cons data ws ih =>
      rw [List.flatten_cons, List.length_append] at hroom
      obtain ⟨mode, hwrite, hstored, htakes⟩ := receiving.write h (show data.length ≤ room by omega)
      obtain ⟨e', hrest, hstored'⟩ :=
        @ih { e with mode := mode, total := e.total + data.length } _ htakes (by omega)
      refine ⟨e', ?_, ?_⟩
      · simp [Encode.writeAll, Encode.andThen, Encode.write, bertEncoderWrite, hwrite, hrest]
      · rw [hstored', hstored, List.flatten_cons, List.append_assoc]

theorem pushAll [Platform F] {ds : List (Data F)} (hds : ∀ d ∈ ds, Encodable d)
    (h : receiving.Takes e.mode room) (hroom : (output e.wroteMagic ds).length ≤ room) :
    ∃ e', LibBert.pushAll ds e = some (bertSuccess, e') ∧
      receiving.stored e'.mode = receiving.stored e.mode ++ output e.wroteMagic ds := by
  rw [← flatten_outputWrites] at hroom ⊢
  obtain ⟨e', hrun, hstored⟩ := receiving.writeAll (outputWrites e.wroteMagic ds) h hroom
  obtain ⟨wroteMagic, hpush⟩ := exists_pushAll_eq hds hrun
  exact ⟨e'.mark wroteMagic, hpush, hstored⟩

end Receiving

end LibBert
