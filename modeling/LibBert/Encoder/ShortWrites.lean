import LibBert.Encoder.Outcome

/-!
# Streams that take less than asked

`write` may accept a part of what it is given and say so by its result.  The
encoder looks at the sign of the result only and counts the whole write, so that
the rest of it is lost.
-/

namespace LibBert

variable {F ω : Type}

/-- A descriptor that accepts a part of every write, at least one byte of a
write that has any. -/
structure PartialSink (ω : Type) extends Sink ω where
  contents : ω → List UInt8
  takes : ∀ s data, ∃ n : ℕ, n ≤ data.length ∧ (data ≠ [] → 1 ≤ n) ∧ (write s data).1 = n ∧
    contents (write s data).2 = contents s ++ data.take n

/-- Every one of the writes is accepted whole. -/
def Sink.TakesAll (sink : Sink ω) : List (List UInt8) → ω → Prop
  | [], _ => True
  | data :: ws, s => (sink.write s data).1 = data.length ∧ sink.TakesAll ws (sink.write s data).2

namespace PartialSink

variable (sink : PartialSink ω)

/-- Writes to such a descriptor succeed and are counted in full.  The bytes
accepted are all of them just when none of the writes was cut. -/
theorem writeAll (ws : List (List UInt8)) {s : ω} {e : Encoder ω}
    (h : e.mode = .stream sink.toSink s) :
    ∃ e' s' accepted, Encode.writeAll ws e = some (bertSuccess, e') ∧
      e'.mode = .stream sink.toSink s' ∧ sink.contents s' = sink.contents s ++ accepted ∧
      e'.total = e.total + ws.flatten.length ∧ accepted.length ≤ ws.flatten.length ∧
      (accepted = ws.flatten ↔ sink.TakesAll ws s) := by
  induction ws generalizing s e with
  | nil => exact ⟨e, s, [], rfl, h, (List.append_nil _).symm, rfl, le_rfl, iff_of_true rfl trivial⟩
  | cons data ws ih =>
      obtain ⟨n, hn, -, hresult, hcontents⟩ := sink.takes s data
      have hwrite : e.mode.write data =
          (bertSuccess, .stream sink.toSink (sink.write s data).2) := by
        rw [h, EncoderMode.write, if_neg (by rw [hresult]; exact not_lt.mpr (Int.natCast_nonneg n))]
      obtain ⟨e', s', accepted, hrun, hmode, hcontents', htotal, hlength, hall⟩ :=
        @ih (sink.write s data).2
          { e with
            mode := .stream sink.toSink (sink.write s data).2
            total := e.total + data.length } rfl
      refine ⟨e', s', data.take n ++ accepted, ?_, hmode, ?_, ?_, ?_, ?_⟩
      · simp [Encode.writeAll, Encode.andThen, Encode.write, bertEncoderWrite, hwrite, hrun]
      · rw [hcontents', hcontents, List.append_assoc]
      · rw [htotal, List.flatten_cons, List.length_append, Nat.add_assoc]
      · rw [List.length_append, List.flatten_cons, List.length_append, List.length_take]
        omega
      · rw [Sink.TakesAll, hresult, Nat.cast_inj, List.flatten_cons]
        by_cases hwhole : n = data.length
        · rw [hwhole, List.take_length, List.append_right_inj, hall, and_iff_right rfl]
        · refine iff_of_false (fun heq ↦ ?_) fun htakes ↦ hwhole htakes.1
          have hshort := congrArg List.length heq
          rw [List.length_append, List.length_append, List.length_take] at hshort
          omega

/-- The descriptor that accepts one byte of each write. -/
def byteAtATime : PartialSink (List UInt8) where
  write s data := ((min 1 data.length : ℕ), s ++ data.take (min 1 data.length))
  contents := id
  takes s data := by
    refine ⟨min 1 data.length, min_le_right _ _, fun hdata ↦ ?_, rfl, rfl⟩
    exact le_min le_rfl (List.length_pos_iff.mpr hdata)

end PartialSink

/-! ## Pushes -/

/-- The bytes that the descriptor accepted are those of the terms behind one
magic byte, and the encoder counts as many. -/
def StreamIntact [Platform F] (sink : PartialSink ω) (ds : List (Data F)) (s : ω)
    (e : Encoder ω) : Prop :=
  ∃ s' accepted, e.mode = .stream sink.toSink s' ∧ sink.contents s' = sink.contents s ++ accepted ∧
    accepted = output false ds ∧ bertEncoderTotal e = accepted.length

/-- Pushes that all succeed leave their bytes on a stream just when each of their
writes was accepted whole. -/
theorem stream_intact_iff [Platform F] {sink : PartialSink ω} {ds : List (Data F)} {s : ω}
    {e : Encoder ω}
    (h : pushAll ds (bertEncoderStream bertEncoderCreate sink.toSink s) = some (bertSuccess, e)) :
    StreamIntact sink ds s e ↔ sink.TakesAll (outputWrites false ds) s := by
  obtain ⟨e', s', accepted, hrun, hmode, hcontents, htotal, -, hall⟩ :=
    sink.writeAll (outputWrites false ds)
      (rfl : (bertEncoderStream bertEncoderCreate sink.toSink s).mode = _)
  obtain ⟨wroteMagic, hpush⟩ :=
    exists_pushAll_eq (e := bertEncoderStream bertEncoderCreate sink.toSink s)
      (encodable_of_pushAll h) hrun
  obtain rfl : e = e'.mark wroteMagic := by
    rw [h] at hpush
    injection hpush with hpair
    exact congrArg Prod.snd hpair
  rw [← hall, flatten_outputWrites]
  constructor
  · rintro ⟨t, taken, hmode', hcontents', rfl, -⟩
    obtain rfl : s' = t := by
      rw [Encoder.mark_mode, hmode] at hmode'
      injection hmode'
    exact List.append_cancel_left (hcontents.symm.trans hcontents')
  · rintro rfl
    refine ⟨s', _, hmode, hcontents, rfl, ?_⟩
    rw [bertEncoderTotal, Encoder.mark_total, htotal, flatten_outputWrites]
    exact Nat.zero_add _

/-- An atom on a descriptor that accepts one byte of each write. -/
theorem stream_intact_iff_atom :
    StreamIntact PartialSink.byteAtATime [(.atom [97] : Data Empty)] []
        { mode := .stream PartialSink.byteAtATime.toSink [131, 100], wroteMagic := true,
          total := 5 } ↔
      PartialSink.byteAtATime.TakesAll (outputWrites false [(.atom [97] : Data Empty)]) [] :=
  stream_intact_iff rfl

/-- All pushes succeed while three of five bytes are lost. -/
theorem stream_loses_bytes :
    ¬ ∀ (sink : PartialSink (List UInt8)) (ds : List (Data Empty)) (s : List UInt8)
      (e : Encoder (List UInt8)),
      pushAll ds (bertEncoderStream bertEncoderCreate sink.toSink s) = some (bertSuccess, e) →
        StreamIntact sink ds s e := by
  intro h
  obtain ⟨s', accepted, hmode, hcontents, rfl, -⟩ :=
    h PartialSink.byteAtATime [.atom [97]] []
      { mode := .stream PartialSink.byteAtATime.toSink [131, 100], wroteMagic := true, total := 5 }
      rfl
  cases hmode
  exact absurd hcontents (by decide)

end LibBert
