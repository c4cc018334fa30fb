import LibBert.Encoder.Sizeof

/-!
# The sizes of integers and times

`bert_data_sizeof_int` counts one byte for every small integer that is not above
`0xff`, also for the negative ones that are written in four, and `bert_data_sizeof`
takes the parts of a time for `int64_t` where they are written as `unsigned int`.
-/

namespace LibBert

variable {F ω : Type}

theorem bertDataSizeofInt_of_small {i : Int64} (h : i ≤ bertMaxInt ∧ bertMinInt ≤ i) :
    bertDataSizeofInt i = some (if i.toInt ≤ 255 then 1 else 4) := by
  rw [bertDataSizeofInt, if_pos h]
  exact congrArg some (if_congr Int64.le_iff_toInt_le rfl rfl)

/-- The size of a small integer is at most the one it is written in, and that one
when it is not negative. -/
theorem sizeofInt_of_small {i : Int64} (h : i ≤ bertMaxInt ∧ bertMinInt ≤ i) :
    ∃ n, bertDataSizeofInt i = some n ∧ 1 + n ≤ (intBytes (low32 i)).length ∧
      (1 + n = (intBytes (low32 i)).length ↔ 0 ≤ i.toInt) := by
  have hrange := (small_iff i).mp h
  refine ⟨_, bertDataSizeofInt_of_small h, ?_⟩
  rw [length_intBytes, low32]
  constructor <;> split_ifs <;> omega

/-! ## What a push adds to the total -/

variable [Platform F]

/-- The size of a term is the number of bytes its push writes behind the magic
byte. -/
def SizeWritten (d : Data F) : Prop :=
  ∃ size, bertDataSizeof d = some size ∧
    ∀ (ω : Type) (e e' : Encoder ω), e.wroteMagic = true →
      bertEncoderPush d e = some (bertSuccess, e') →
        bertEncoderTotal e' = bertEncoderTotal e + size

theorem total_of_push {d : Data F} {e e' : Encoder ω} (hmagic : e.wroteMagic = true)
    (h : bertEncoderPush d e = some (bertSuccess, e')) :
    bertEncoderTotal e' = bertEncoderTotal e + (encoding d).length := by
  rw [← pushAll_singleton] at h
  rw [bertEncoderTotal, total_of_pushAll h, length_output_singleton, if_pos hmagic,
    bertEncoderTotal, Nat.add_zero]

theorem sizeWritten_iff {d : Data F} (hd : Encodable d) :
    SizeWritten d ↔ bertDataSizeof d = some (encoding d).length := by
  constructor
  · rintro ⟨size, hsize, hpush⟩
    have hds : ∀ x ∈ [d], Encodable x := fun x hx ↦ List.mem_singleton.mp hx ▸ hd
    let e : Encoder (List UInt8) :=
      { mode := .stream AcceptingSink.recording.toSink [], wroteMagic := true, total := 0 }
    obtain ⟨e', he', -⟩ := AcceptingSink.recording.receiving.pushAll hds (e := e)
      ⟨[], .inl rfl⟩ le_rfl
    rw [pushAll_singleton] at he'
    have htotal := hpush _ e e' rfl he'
    rw [total_of_push rfl he', Nat.add_right_inj] at htotal
    rw [hsize, htotal]
  · intro hsize
    exact ⟨_, hsize, fun ω e e' hmagic h ↦ total_of_push hmagic h⟩

theorem sizeWritten_int_iff (i : Int64) :
    SizeWritten (.int i : Data F) ↔ 0 ≤ i ∧ i ≤ bertMaxInt := by
  have hencodable : Encodable (.int i : Data F) := trivial
  have hrange : (0 ≤ i ∧ i ≤ bertMaxInt) ↔ 0 ≤ i.toInt ∧ i.toInt < 2 ^ 27 := by
    rw [Int64.le_iff_toInt_le, Int64.le_iff_toInt_le]
    change 0 ≤ i.toInt ∧ i.toInt ≤ 134217727 ↔ _
    omega
  rw [sizeWritten_iff hencodable, encoding_int, bertDataSizeof, hrange]
  by_cases hsmall : i ≤ bertMaxInt ∧ bertMinInt ≤ i
  · obtain ⟨n, hn, -, hiff⟩ := sizeofInt_of_small hsmall
    rw [small_iff] at hsmall
    rw [if_pos ((small_iff i).mpr hsmall), hn, Option.bind_eq_bind, Option.bind_some,
      Option.pure_def, Option.some_inj, hiff]
    omega
  · rw [bertDataSizeofInt, if_neg hsmall, Option.bind_eq_bind, Option.bind_none]
    rw [small_iff] at hsmall
    exact iff_of_false (Option.some_ne_none _).symm (by omega)

theorem length_encoding_time (t : Int64) :
    (encoding (.time t : Data F)).length =
      16 + (intBytes (low32 (t / 1000000))).length +
        (intBytes (low32 (t % 1000000))).length + 2 := by
  simp only [encoding, writes, List.flatten_append, List.length_append, List.flatten_cons,
    List.flatten_nil, List.length_nil, length_complexHeader _ (show 3 + 2 ≤ 255 by decide),
    length_intBytes 0, show (cString "time").length = 4 from rfl, if_pos (Nat.zero_le 255)]
  omega

theorem sizeWritten_time_iff (t : Int64) :
    SizeWritten (.time t : Data F) ↔ 0 ≤ t ∧ t / 1000000 ≤ bertMaxInt := by
  have hencodable : Encodable (.time t : Data F) := trivial
  have hparts := time_parts t
  have hrange : (0 ≤ t ∧ t / 1000000 ≤ bertMaxInt) ↔
      0 ≤ t.toInt ∧ (t / 1000000).toInt < 2 ^ 27 := by
    rw [Int64.le_iff_toInt_le, Int64.le_iff_toInt_le]
    change 0 ≤ t.toInt ∧ (t / 1000000).toInt ≤ 134217727 ↔ _
    omega
  have hseconds : t % 1000000 ≤ bertMaxInt ∧ bertMinInt ≤ t % 1000000 := by
    rw [small_iff]
    omega
  obtain ⟨s, hs, hsle, hsiff⟩ := sizeofInt_of_small hseconds
  rw [sizeWritten_iff hencodable, length_encoding_time, bertDataSizeof, hrange, hs]
  by_cases hsmall : t / 1000000 ≤ bertMaxInt ∧ bertMinInt ≤ t / 1000000
  · obtain ⟨m, hm, hmle, hmiff⟩ := sizeofInt_of_small hsmall
    rw [small_iff] at hsmall
    -- neither part is counted longer than it is, so both have to be exact
    have hboth : 1 + (1 + 1 + 2 + 4 + 1 + 2 + 4) + (1 + m) + (1 + s) + (1 + 1) =
        16 + (intBytes (low32 (t / 1000000))).length +
          (intBytes (low32 (t % 1000000))).length + 2 ↔
        0 ≤ (t / 1000000).toInt ∧ 0 ≤ (t % 1000000).toInt := by
      rw [← hmiff, ← hsiff]
      omega
    rw [hm, show bertDataSizeofInt 0 = some 1 from rfl]
    simp only [Option.bind_eq_bind, Option.bind_some, Option.pure_def, Option.some_inj, hboth]
    omega
  · rw [bertDataSizeofInt, if_neg hsmall, Option.bind_eq_bind, Option.bind_none]
    rw [small_iff] at hsmall
    exact iff_of_false (Option.some_ne_none _).symm (by omega)

/-- The size of an integer is the written one just for the integers from zero to
`BERT_MAX_INT`, and that of a time just for those with megaseconds in this
range. -/
theorem size_written_iff :
    (∀ i : Int64, SizeWritten (.int i : Data F) ↔ 0 ≤ i ∧ i ≤ bertMaxInt) ∧
      ∀ t : Int64, SizeWritten (.time t : Data F) ↔ 0 ≤ t ∧ t / 1000000 ≤ bertMaxInt :=
  ⟨sizeWritten_int_iff, sizeWritten_time_iff⟩

/-- The integer -1 is counted with two bytes and written in five. -/
theorem size_of_minus_one_not_written :
    ¬ ((∀ i : Int64, SizeWritten (.int i : Data Empty)) ∧
      ∀ t : Int64, SizeWritten (.time t : Data Empty)) := by
  intro h
  have hrange := (sizeWritten_int_iff (-1)).mp (h.1 (-1))
  exact absurd hrange.1 (by decide)

end LibBert
