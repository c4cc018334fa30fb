import LibBert.Bytes.Defined
import LibBert.RoundTrip

/-!
# Times

A time is split into megaseconds and seconds by divisions that round toward zero,
and both are written as `unsigned int`.  Behind the header of a time the decoder
takes any term for the microseconds, and its sum can leave `int64_t`.
-/

namespace LibBert

open Reading Bytes

variable {F σ ω : Type} [Platform F]

/-! ## What becomes of a time on the wire -/

/-- The wire term the encoder writes for a time. -/
def timeWire (t : Int64) : Wire :=
  .tuple false 5 [.atom (cString "bert"), .atom (cString "time"),
    uintWire (low32 (t / 1000000)), uintWire (low32 (t % 1000000)), uintWire 0]

/-- What becomes of a time. -/
def timeBack (t : Int64) : Int64 :=
  Int64.ofNat (low32 (t / 1000000)) * 1000000 + Int64.ofNat (low32 (t % 1000000))

theorem bytes_timeWire (t : Int64) : (timeWire t).bytes = encoding (.time t : Data F) := by
  have hbytes := bytes_tuple 5 [.atom (cString "bert"), .atom (cString "time"),
    uintWire (low32 (t / 1000000)), uintWire (low32 (t % 1000000)), uintWire 0]
  have hfields : (Wire.chunksList [.atom (cString "bert"), .atom (cString "time"),
      uintWire (low32 (t / 1000000)), uintWire (low32 (t % 1000000)), uintWire 0]).flatten =
      atomField (cString "bert") ++ (atomField (cString "time") ++
        (intBytes (low32 (t / 1000000)) ++ (intBytes (low32 (t % 1000000)) ++ intBytes 0))) := by
    rw [← bytes_atom, ← bytes_atom, ← bytes_uintWire (low32_lt _), ← bytes_uintWire (low32_lt _),
      ← bytes_uintWire (by decide : 0 < 2 ^ 32)]
    simp only [Wire.chunksList, Wire.bytes, List.flatten_append, List.append_nil]
  rw [hfields] at hbytes
  simp only [encoding, writes, complexHeader, List.cons_append, List.nil_append, List.flatten_cons,
    List.flatten_nil, List.append_nil]
  exact hbytes

theorem denote_timeWire (t : Int64) :
    (timeWire t).denote = some (.time (timeBack t) : Data F) := by
  have hlist : Wire.denoteList [.atom (cString "bert"), .atom (cString "time"),
      uintWire (low32 (t / 1000000)), uintWire (low32 (t % 1000000)), uintWire 0] =
      some [.atom (cString "bert"), .atom (cString "time"),
        .int (Int64.ofNat (low32 (t / 1000000))), .int (Int64.ofNat (low32 (t % 1000000))),
        (.int (Int64.ofNat 0) : Data F)] := by
    simp only [Wire.denoteList, denote_uintWire (low32_lt _),
      denote_uintWire (by decide : 0 < 2 ^ 32)]
    rfl
  rw [timeWire, Wire.denote, hlist]
  have hzero : timestamp (.int (Int64.ofNat (low32 (t / 1000000))) : Data F)
      (.int (Int64.ofNat (low32 (t % 1000000)))) (.int (Int64.ofNat 0)) = timeBack t := by
    change timeBack t + Int64.ofNat 0 / 1000000 = timeBack t
    rw [show (Int64.ofNat 0 / 1000000 : Int64) = 0 from rfl, Int64.add_zero]
  rw [← hzero]
  rfl

theorem toInt_megaseconds_add {m s : ℕ} (hm : m < 2 ^ 32) (hs : s < 2 ^ 32) :
    (Int64.ofNat m * 1000000 + Int64.ofNat s).toInt = (m * 1000000 + s : ℕ) := by
  have hvalue : Int64.ofNat m * 1000000 + Int64.ofNat s = Int64.ofNat (m * 1000000 + s) := by
    rw [Int64.ofNat_add, Int64.ofNat_mul]
    rfl
  rw [hvalue, Int64.toInt_ofNat_of_lt (by omega)]

/-- The parts are recombined without wrapping. -/
theorem timeBack_toInt (t : Int64) :
    (timeBack t).toInt = (low32 (t / 1000000) * 1000000 + low32 (t % 1000000) : ℕ) :=
  toInt_megaseconds_add (low32_lt _) (low32_lt _)

theorem timeBack_eq_self_iff (t : Int64) :
    timeBack t = t ↔ 0 ≤ t ∧ t / 1000000 < 4294967296 := by
  obtain ⟨hsum, hnonneg, hnonpos⟩ := time_parts t
  have hcast : ∀ i : Int64, (low32 i : ℤ) = i.toInt % 4294967296 := fun i ↦
    Int.toNat_of_nonneg (Int.emod_nonneg _ (by decide))
  rw [← Int64.toInt_inj, timeBack_toInt, Nat.cast_add, Nat.cast_mul, hcast, hcast,
    Int64.le_iff_toInt_le, Int64.lt_iff_toInt_lt]
  change _ ↔ 0 ≤ t.toInt ∧ (t / 1000000).toInt < 4294967296
  omega

/-! ## Pulling a time that was pushed -/

/-- A decoder over what a fresh encoder stored for a time returns a time. -/
theorem pulls_time {ρ : Type} (t : Int64) (stream : Bool) (source : PlainSource ρ) (s : ρ)
    (hcontents : source.contents s = output false [(.time t : Data F)]) {depth : ℕ}
    (hdepth : (output false [(.time t : Data F)]).length ≤ depth) :
    pulls (F := F) windowReader (fun _ ↦ ()) depth 1 (freshDecoder stream source.toSource s) =
      [.done (1, some (.time (timeBack t))) ()] := by
  have houtput : output false [(.time t : Data F)] = (Wire.marked (timeWire t)).bytes ++ [] := by
    rw [Wire.bytes, Wire.chunks, List.flatten_cons, ← Wire.bytes, bytes_timeWire (F := F)]
    rfl
  have hdenote : (Wire.marked (timeWire t)).denote = some (.time (timeBack t) : Data F) := by
    rw [Wire.denote_marked_of rfl, denote_timeWire]
  rw [houtput, List.append_nil] at hdepth
  rw [pulls_results_eq_plain, hcontents, houtput]
  exact runs_of_yields (.cons (run_plain_of_denote hdepth hdenote) (.nil [])) 0

/-- A time that is pushed comes back with its value exactly when it is not negative
and its megaseconds fit in 32 bits. -/
theorem time_survives_iff (receiving : Receiving ω) {e : Encoder ω} {room : ℕ} {t : Int64}
    (hfresh : e.wroteMagic = false) (hempty : receiving.stored e.mode = [])
    (htakes : receiving.Takes e.mode room)
    (hroom : (output false [(.time t : Data F)]).length ≤ room) :
    ∃ e', pushAll [(.time t : Data F)] e = some (bertSuccess, e') ∧
      ∀ (ρ : Type) (stream : Bool) (source : PlainSource ρ) (s : ρ) (depth : ℕ),
        source.contents s = receiving.stored e'.mode → (source.contents s).length < depth →
          (pulls (F := F) windowReader (fun _ ↦ ()) depth 1
              (freshDecoder stream source.toSource s) = [.done (1, some (.time t)) ()] ↔
            0 ≤ t ∧ t / 1000000 < 4294967296) := by
  have hds : ∀ d ∈ [(.time t : Data F)], Encodable d := by
    intro d hd
    rw [List.mem_singleton.mp hd]
    trivial
  obtain ⟨e', hpush, hstored⟩ := receiving.pushAll hds htakes (by rwa [hfresh])
  refine ⟨e', hpush, fun ρ stream source s depth hcontents hdepth ↦ ?_⟩
  rw [hempty, List.nil_append, hfresh] at hstored
  rw [hstored] at hcontents
  rw [pulls_time t stream source s hcontents (hcontents ▸ hdepth.le), ← timeBack_eq_self_iff]
  simp

/-- A time of the tests. -/
theorem time_survives_iff_date :
    ∃ e', pushAll [(.time 1260391096 : Data Empty)]
        (bertEncoderCallback bertEncoderCreate AcceptingSink.recording.toSink []) =
          some (bertSuccess, e') ∧
      ∀ (ρ : Type) (stream : Bool) (source : PlainSource ρ) (s : ρ) (depth : ℕ),
        source.contents s = AcceptingSink.recording.receiving.stored e'.mode →
        (source.contents s).length < depth →
          (pulls (F := Empty) windowReader (fun _ ↦ ()) depth 1
              (freshDecoder stream source.toSource s) = [.done (1, some (.time 1260391096)) ()] ↔
            (0 : Int64) ≤ 1260391096 ∧ (1260391096 : Int64) / 1000000 < 4294967296) :=
  time_survives_iff AcceptingSink.recording.receiving rfl rfl ⟨[], .inr rfl⟩ (Nat.le_refl _)

/-- One second before the epoch comes back as a time in the year 2106. -/
theorem time_before_epoch_does_not_survive :
    ¬ ∀ (t : Int64) (e' : Encoder (List UInt8)),
      bertEncoderPush (.time t : Data Empty)
          (bertEncoderCallback bertEncoderCreate AcceptingSink.recording.toSink []) =
        some (bertSuccess, e') →
      ∀ depth, (AcceptingSink.recording.receiving.stored e'.mode).length < depth →
        pulls (F := Empty) windowReader (fun _ ↦ ()) depth 1
            (freshDecoder false PlainSource.ofList.toSource
              (AcceptingSink.recording.receiving.stored e'.mode)) =
          [.done (1, some (.time t)) ()] := by
  intro h
  have hsame := h (-1) _ rfl 27 (by decide)
  have hlength : (output false [(.time (-1) : Data Empty)]).length ≤ 27 := by decide
  have hpull := pulls_time (-1) false PlainSource.ofList _ rfl hlength
  have hvalue : timeBack (-1) = -1 := by
    simpa using hpull.symm.trans hsame
  exact absurd hvalue (by decide)

/-! ## The parts of a time -/

/-- The time three integers stand for. -/
def exactTime (megaseconds seconds microseconds : ℤ) : ℤ :=
  megaseconds * 1000000 + seconds + microseconds.tdiv 1000000

/-- The sum that makes up a time stays within `int64_t` at each of its steps. -/
def TimeFits (megaseconds seconds microseconds : ℤ) : Prop :=
  (-2 ^ 63 ≤ megaseconds * 1000000 ∧ megaseconds * 1000000 < 2 ^ 63) ∧
    (-2 ^ 63 ≤ megaseconds * 1000000 + seconds ∧ megaseconds * 1000000 + seconds < 2 ^ 63) ∧
      -2 ^ 63 ≤ exactTime megaseconds seconds microseconds ∧
        exactTime megaseconds seconds microseconds < 2 ^ 63

namespace Checked

open Defined

/-- `timestamp` with a result only where each step has one. -/
def timestamp (megaseconds seconds microseconds : ℤ) : Option ℤ := do
  let product ← multiply 64 megaseconds 1000000
  let sum ← add 64 product seconds
  add 64 sum (microseconds.tdiv 1000000)

/-- `bert_decode_time`, which is undefined where the sum has no result. -/
def bertDecodeTime (pull : Decode F (Result F)) : Decode F (Result F) :=
  pullTimePart pull fun megaseconds ↦
    if ¬ megaseconds.isInt then return (bertErrnoInvalid, none)
    else pullTimePart pull fun seconds ↦
      if ¬ seconds.isInt then return (bertErrnoInvalid, none)
      else pullTimePart pull fun microseconds ↦
        if ¬ seconds.isInt then return (bertErrnoInvalid, none)
        else (timestamp megaseconds.integer.toInt seconds.integer.toInt
          microseconds.integer.toInt).elim .fault fun time ↦
            return (bertSuccess, some (.time (Int64.ofInt time)))

theorem timestamp_eq_some_iff {m s u time : ℤ} :
    timestamp m s u = some time ↔ TimeFits m s u ∧ time = exactTime m s u := by
  simp only [timestamp, multiply, add, Option.bind_eq_bind, Option.bind_eq_some_iff,
    signed_eq_some_iff, TimeFits, exactTime]
  constructor
  · rintro ⟨_, ⟨hproduct, rfl⟩, _, ⟨hsum, rfl⟩, htotal, rfl⟩
    exact ⟨⟨hproduct, hsum, htotal⟩, rfl⟩
  · rintro ⟨⟨hproduct, hsum, htotal⟩, rfl⟩
    exact ⟨_, ⟨hproduct, rfl⟩, _, ⟨hsum, rfl⟩, htotal, rfl⟩

variable {R : BertReader σ} {pull : Decode F (Result F)} {s t : σ}

theorem ofInt_of_timestamp {M S U : Data F} {time : ℤ}
    (h : timestamp M.integer.toInt S.integer.toInt U.integer.toInt = some time) :
    Int64.ofInt time = LibBert.timestamp M S U := by
  rw [(timestamp_eq_some_iff.mp h).2]
  exact (Wire.timestamp_eq_ofInt (F := F) M.integer S.integer U.integer).symm

omit [Platform F] in
theorem run_pullTimePart_of_done {next next' : Data F → Decode F (Result F)} {result : Result F}
    (hnext : ∀ d u, run R (next d) u = .done result t → run R (next' d) u = .done result t)
    (h : run R (pullTimePart pull next) s = .done result t) :
    run R (pullTimePart pull next') s = .done result t := by
  rw [pullTimePart, run_bind, Outcome.bind_eq_done_iff] at h ⊢
  obtain ⟨⟨code, data⟩, u, hpull, h⟩ := h
  refine ⟨_, u, hpull, ?_⟩
  dsimp only at h ⊢
  split_ifs at h ⊢ with hcode
  · exact h
  · cases data with
    | none => cases h
    | some d => exact hnext d u h

/-- Where it is defined it is the function of the model. -/
theorem run_bertDecodeTime {result : Result F}
    (h : run R (bertDecodeTime pull) s = .done result t) :
    run R (LibBert.bertDecodeTime pull) s = .done result t := by
  refine run_pullTimePart_of_done (fun m u h ↦ ?_) h
  split_ifs at h ⊢ with hm
  · refine run_pullTimePart_of_done (fun i v h ↦ ?_) h
    split_ifs at h ⊢ with hi
    · refine run_pullTimePart_of_done (fun j w h ↦ ?_) h
      cases htime : timestamp m.integer.toInt i.integer.toInt j.integer.toInt with
      | none =>
          rw [htime] at h
          cases h
      | some time =>
          rw [htime] at h
          rw [← ofInt_of_timestamp htime]
          exact h
    · exact h
  · exact h

/-- Behind two integers the third part is taken as it is. -/
theorem run_bertDecodeTime_of_yields {M S U : Data F} (hM : M.isInt) (hS : S.isInt)
    (h : Yields R pull s [M, S, U] t) :
    run R (bertDecodeTime pull) s =
      (timestamp M.integer.toInt S.integer.toInt U.integer.toInt).elim (.fault t) fun time ↦
        .done (bertSuccess, some (.time (Int64.ofInt time))) t := by
  obtain ⟨s₁, hpull₁, h⟩ := yields_cons_iff.mp h
  obtain ⟨s₂, hpull₂, h⟩ := yields_cons_iff.mp h
  obtain ⟨s₃, hpull₃, h⟩ := yields_cons_iff.mp h
  obtain rfl := yields_nil_iff.mp h
  rw [bertDecodeTime, run_pullTimePart _ hpull₁, if_neg (by simpa using hM),
    run_pullTimePart _ hpull₂, if_neg (by simpa using hS),
    run_pullTimePart _ hpull₃, if_neg (by simpa using hS)]
  cases timestamp M.integer.toInt S.integer.toInt U.integer.toInt <;> rfl

end Checked

/-- Three integers whose exact time is one of `int64_t` are that time.  Terms of other
types, or whose exact time is none of `int64_t`, are an error and nothing is stored. -/
def ChecksParts (megaseconds seconds microseconds : Data F) (o : Outcome σ (Result F)) : Prop :=
  ∃ result t, o = .done result t ∧
    ((∃ m s u : Int64, megaseconds = .int m ∧ seconds = .int s ∧ microseconds = .int u ∧
        (-2 ^ 63 ≤ exactTime m.toInt s.toInt u.toInt ∧
          exactTime m.toInt s.toInt u.toInt < 2 ^ 63) ∧
        result = (bertSuccess, some (.time (Int64.ofInt (exactTime m.toInt s.toInt u.toInt))))) ∨
      ((∀ m s u : Int64, megaseconds = .int m → seconds = .int s → microseconds = .int u →
          ¬ (-2 ^ 63 ≤ exactTime m.toInt s.toInt u.toInt ∧
            exactTime m.toInt s.toInt u.toInt < 2 ^ 63)) ∧
        result.1 < 0 ∧ result.2 = none))

omit [Platform F] in
theorem Data.isInt_iff {d : Data F} : d.isInt ↔ ∃ i, d = .int i := by
  cases d <;> simp [Data.isInt]

omit [Platform F] in
/-- An error is right where one of the parts is no integer. -/
theorem checksParts_invalid {M S U : Data F} (h : ¬ (M.isInt ∧ S.isInt ∧ U.isInt)) (t : σ) :
    ChecksParts M S U (.done (bertErrnoInvalid, none) t) := by
  refine ⟨_, t, rfl, .inr ⟨?_, show bertErrnoInvalid < 0 by decide, rfl⟩⟩
  rintro m s u rfl rfl rfl
  exact absurd ⟨rfl, rfl, rfl⟩ h

variable {R : BertReader σ} {pull : Decode F (Result F)} {s t : σ}

/-- Behind the header of a time the three terms pulled are checked and summed as
they should exactly when one of the first two is no integer or all three are and
no step of the sum overflows. -/
theorem time_parts_checked_iff {M S U : Data F} (h : Yields R pull s [M, S, U] t) :
    ChecksParts M S U (run R (Checked.bertDecodeTime pull) s) ↔
      M.isInt = false ∨ S.isInt = false ∨
        U.isInt ∧ TimeFits M.integer.toInt S.integer.toInt U.integer.toInt := by
  obtain ⟨s₁, hpull₁, h₁⟩ := yields_cons_iff.mp h
  obtain ⟨s₂, hpull₂, -⟩ := yields_cons_iff.mp h₁
  cases hM : M.isInt with
  | false =>
      rw [Checked.bertDecodeTime, run_pullTimePart _ hpull₁, if_pos (by simp [hM])]
      exact iff_of_true (checksParts_invalid (by simp [hM]) _) (.inl rfl)
  | true =>
      cases hS : S.isInt with
      | false =>
          rw [Checked.bertDecodeTime, run_pullTimePart _ hpull₁, if_neg (by simp [hM]),
            run_pullTimePart _ hpull₂, if_pos (by simp [hS])]
          exact iff_of_true (checksParts_invalid (by simp [hS]) _) (.inr (.inl rfl))
      | true =>
          rw [Checked.run_bertDecodeTime_of_yields hM hS h]
          obtain ⟨m, rfl⟩ := Data.isInt_iff.mp hM
          obtain ⟨i, rfl⟩ := Data.isInt_iff.mp hS
          cases htime : Checked.timestamp (Data.int m : Data F).integer.toInt
              (Data.int i : Data F).integer.toInt U.integer.toInt with
          | none =>
              refine iff_of_false ?_ ?_
              · rintro ⟨result, t', ⟨⟩, -⟩
              · rintro (⟨⟨⟩⟩ | ⟨⟨⟩⟩ | ⟨-, hfits⟩)
                rw [Checked.timestamp_eq_some_iff.mpr ⟨hfits, rfl⟩] at htime
                cases htime
          | some time =>
              obtain ⟨hfits, rfl⟩ := Checked.timestamp_eq_some_iff.mp htime
              constructor
              · rintro ⟨result, t', ⟨⟩, ⟨m', i', u, ⟨⟩, ⟨⟩, rfl, -, -⟩ | ⟨-, hneg, -⟩⟩
                · exact .inr (.inr ⟨rfl, hfits⟩)
                · exact absurd hneg (show ¬ bertSuccess < 0 by decide)
              · rintro (⟨⟨⟩⟩ | ⟨⟨⟩⟩ | ⟨hU, -⟩)
                obtain ⟨u, rfl⟩ := Data.isInt_iff.mp hU
                exact ⟨_, t, rfl, .inl ⟨m, i, u, rfl, rfl, rfl, hfits.2.2, rfl⟩⟩

/-- The parts 1, 2 and 3. -/
theorem time_parts_checked_small :
    ChecksParts (.int 1) (.int 2) (.int 3)
        (run plainReader (Checked.bertDecodeTime (bertDecoderPull 1) : Decode Empty _)
          [97, 1, 97, 2, 97, 3]) ↔
      (.int 1 : Data Empty).isInt = false ∨ (.int 2 : Data Empty).isInt = false ∨
        (.int 3 : Data Empty).isInt ∧
          TimeFits (1 : Int64).toInt (2 : Int64).toInt (3 : Int64).toInt :=
  time_parts_checked_iff (t := []) (.cons (u := [97, 2, 97, 3]) rfl
    (.cons (u := [97, 3]) rfl (.cons (u := []) rfl (.nil _))))

/-- Of `{bert,time,0,0,nil}` a time is made. -/
theorem time_of_nil_microseconds :
    ¬ ∀ (M S U : Data Empty) (s t : List UInt8),
      Yields plainReader (bertDecoderPull 1) s [M, S, U] t →
        ChecksParts M S U (run plainReader (Checked.bertDecodeTime (bertDecoderPull 1)) s) := by
  intro h
  have hchecks := h (.int 0) (.int 0) .nil [97, 0, 97, 0, 106] []
    (.cons (u := [97, 0, 106]) rfl (.cons (u := [106]) rfl (.cons (u := []) rfl (.nil _))))
  obtain ⟨result, t, ⟨⟩, ⟨m, s, u, -, -, ⟨⟩, -⟩ | ⟨-, hneg, -⟩⟩ := hchecks
  exact absurd hneg (show ¬ bertSuccess < 0 by decide)

end LibBert
