import LibBert.Decoder.Refinement

/-!
# Termination

A pull that reads anything reads a magic byte first, so every nested pull starts
with fewer bytes to come than the pull it is nested in, and every iteration of a
loop that goes on has consumed a byte.  This holds over every reader with a
measure of what is to come; the window has one over every finite source.
-/

namespace LibBert

open Reading

variable {F σ ρ : Type} {R : BertReader σ}

section Measured

variable [Platform F] (M : Measure R (bertShortBuffer / 2)) {avail depth : ℕ} {s t : σ}

/-- From the first state to the second something was consumed. -/
def Advances (M : Measure R (bertShortBuffer / 2)) (s t : σ) : Prop :=
  M.Holds 0 t ∧ M.size t < M.size s

/-- Every pull that starts does so behind the state. -/
def nested (M : Measure R (bertShortBuffer / 2)) (s : σ) : Watch (Event F) σ where
  onEmit event t :=
    match event with
    | .enter => Advances M s t
    | _ => True

omit [Platform F] in
theorem size_of_decodeField {α : Type} {i : ℕ} {convert : List UInt8 → α} {a : α}
    (h : M.Holds avail s) (hi : i ≤ bertShortBuffer / 2)
    (hrun : run R (decodeField i convert : Decode F _) s = .done (.ok a) t) :
    M.Holds 0 t ∧ M.size t + i ≤ M.size s := by
  rcases decodeField_cases (F := F) (R := R) convert s i with
    ⟨chunk, u, rfl, hdelivers, hrun'⟩ | ⟨code, u, -, hrun'⟩
  · obtain ⟨-, rfl⟩ : convert chunk = a ∧ u = t := by
      simpa using hrun'.symm.trans hrun
    simpa using M.delivers h (by simpa using hi) hdelivers
  · cases hrun'.symm.trans hrun

/-- What a watch asks of events below the size a pull starts with holds along its
body, if it holds along the nested pulls that start there. -/
theorem along_pullBody {W : Watch (Event F) σ} {pull : Decode F (Result F)} (hW : W.OnEvents)
    (hbelow : ∀ m, m < M.size s → (M.below m).Allows W)
    (hpull : Disciplined bertSuccess ReadFails (bertShortBuffer / 2) 0 pull)
    (halong : ∀ t, Advances M s t → Along R W pull t) (h : M.Holds avail s) :
    Along R W (pullBody pull) s := by
  refine ⟨hW.read s 1, ?_⟩
  rcases R.read_code s 1 with hcode | hcode
  · have hpromised := M.read_ok h (by decide) hcode
    have hle := M.read_le h (n := 1) (by decide)
    have hfield : PullsOnly False (.ret ⟨0, none⟩ : Decode F (Result F)) 0 bertDecodeMagic :=
      PullsOnly.bertDecodeMagic
    rw [hcode]
    dsimp only
    rw [if_pos rfl, along_bind]
    refine ⟨hfield.along_quiet hW (fun _ ↦ trivial) _, fun r t hrun ↦ ?_⟩
    cases r with
    | error code => trivial
    | ok magic =>
        obtain ⟨hholds, hsize⟩ := size_of_decodeField M hpromised (by decide) hrun
        have hlt : M.size t < M.size s := by omega
        exact (PullsOnly.behindMagic magic).along (hbelow _ hlt) hpull
          (fun u hu ↦ halong u ⟨hu.1, Nat.lt_of_le_of_lt hu.2 hlt⟩) ⟨hholds, Nat.le_refl _⟩
  · rcases hcode with hcode | hcode | hcode | hcode <;> rw [hcode] <;> trivial

/-- A pull deeper than its reader has symbols to come never runs out of depth. -/
theorem along_bertDecoderPull (h : M.Holds 0 s) (hdepth : M.size s < depth) :
    Along R { onTimeout := fun _ ↦ False } (bertDecoderPull depth : Decode F _) s := by
  induction depth generalizing s with
  | zero => omega
  | succ depth ih =>
      rw [bertDecoderPull, along_emit, along_bind]
      refine ⟨trivial, ?_, by simp⟩
      refine along_pullBody M
        ⟨fun _ _ ↦ trivial, fun _ _ ↦ trivial, fun _ _ ↦ trivial, fun _ ↦ trivial⟩
        (fun m _ ↦ ?_) (disciplined_bertDecoderPull depth)
        (fun t ht ↦ ih ht.1 (Nat.lt_of_lt_of_le ht.2 (Nat.le_of_lt_succ hdepth))) h
      exact ⟨fun _ _ ↦ trivial, fun _ _ ↦ trivial, fun _ _ ↦ trivial, fun _ _ ↦ trivial,
        fun _ ↦ trivial, fun _ ↦ trivial⟩

theorem alongRuns_bertDecoderPull (h : M.Holds 0 s) (hdepth : M.size s < depth) (count : ℕ) :
    AlongRuns R { onTimeout := fun _ ↦ False } (bertDecoderPull depth : Decode F _) count s := by
  induction count generalizing s with
  | zero => trivial
  | succ count ih =>
      refine ⟨along_bertDecoderPull M h hdepth, fun r t hrun ↦ ?_⟩
      obtain ⟨hholds, hle⟩ := M.size_le_of_run (disciplined_bertDecoderPull depth) h hrun
      exact ih hholds (Nat.lt_of_le_of_lt hle hdepth)

/-- Every pull within the body of a pull starts behind the state the body starts
in. -/
theorem along_nested (h : M.Holds avail s) (depth : ℕ) :
    Along R (nested M s) (pullBody (bertDecoderPull depth) : Decode F _) s := by
  have hbelow : ∀ m, m < M.size s → (M.below m).Allows (nested M s : Watch (Event F) σ) := by
    intro m hm
    refine ⟨fun _ _ ↦ trivial, fun _ _ ↦ trivial, fun _ _ ↦ trivial, fun event ht ↦ ?_,
      fun _ ↦ trivial, fun _ ↦ trivial⟩
    cases event with
    | enter => exact ⟨M.weaken ht.1, Nat.lt_of_le_of_lt ht.2 hm⟩
    | leave result data => trivial
    | stale => trivial
  refine along_pullBody M
    ⟨fun _ _ ↦ trivial, fun _ _ ↦ trivial, fun _ _ ↦ trivial, fun _ ↦ trivial⟩ hbelow
    (disciplined_bertDecoderPull depth) (fun t ht ↦ ?_) h
  exact (M.below (M.size t)).along (hbelow _ ht.2) (fun _ ↦ trivial)
    (disciplined_bertDecoderPull depth) ⟨ht.1, Nat.le_refl _⟩

/-- A pull that returns 1 has consumed its magic byte. -/
theorem advances_of_pull {data : Option (Data F)} (h : M.Holds 0 s)
    (hrun : run R (bertDecoderPull depth) s = .done ((1, data) : Result F) t) :
    Advances M s t := by
  cases depth with
  | zero => cases hrun
  | succ depth =>
      rw [run_bertDecoderPull_succ] at hrun
      rcases pullBody_cases (F := F) (R := R) (bertDecoderPull depth) s with
        ⟨u, -, hrun'⟩ | ⟨code, huntagged⟩ | ⟨tag, u, htag, hrun'⟩
      · cases hrun'.symm.trans hrun
      · obtain ⟨u, hrun'⟩ := huntagged.run_pullBody (bertDecoderPull (F := F) depth)
        obtain ⟨⟨rfl, -⟩, -⟩ : (code = 1 ∧ none = data) ∧ u = t := by
          simpa using hrun'.symm.trans hrun
        exact absurd huntagged.neg (by decide)
      · obtain ⟨hholds, hsize⟩ : M.Holds 0 u ∧ M.size u < M.size s := by
          rcases htag with ⟨-, hdelivers⟩ | hdelivers
          · have hmeasured := M.delivers h (by simp [bertShortBuffer]) hdelivers
            exact ⟨hmeasured.1, Nat.lt_of_succ_le hmeasured.2⟩
          · have hmeasured := M.delivers h (by simp [bertShortBuffer]) hdelivers
            exact ⟨hmeasured.1, Nat.lt_of_succ_lt hmeasured.2⟩
        rw [hrun', Outcome.bind_eq_done_iff] at hrun
        obtain ⟨r, v, hdecode, hdone⟩ := hrun
        have hcalls : PullsOnly True (bertDecoderPull (F := F) depth) 0
            (decodeMagic (bertDecoderPull depth) tag) := PullsOnly.decodeMagic tag
        obtain ⟨hholds', hle⟩ := M.size_le_of_run
          (hcalls.disciplined (disciplined_bertDecoderPull depth)) hholds hdecode
        obtain ⟨-, rfl⟩ : pullResult r = (1, data) ∧ v = t := by
          simpa using hdone
        exact ⟨hholds', Nat.lt_of_le_of_lt hle hsize⟩

/-! ## Loops -/

/-- An iteration of the loop over tuple slots goes on behind its state, or ends
the loop with what its pull returned. -/
theorem decodeTupleLoop_advances (h : M.Holds 0 s) (depth i : ℕ)
    (elements : List (Option (Data F))) :
    (∃ slot t, Advances M s t ∧
      run R (decodeTupleLoop (bertDecoderPull depth) (i + 1) elements) s =
        run R (decodeTupleLoop (bertDecoderPull depth) i (elements ++ [slot])) t) ∨
    run R (decodeTupleLoop (bertDecoderPull depth) (i + 1) elements) s =
      (run R (bertDecoderPull depth : Decode F _) s).bind fun r t ↦ .done (r.1, none) t := by
  rw [decodeTupleLoop, run_bind]
  cases hrun : run R (bertDecoderPull depth : Decode F _) s with
  | done r t =>
      obtain ⟨result, slot⟩ := r
      by_cases hone : result = 1
      · subst hone
        exact .inl ⟨slot, t, advances_of_pull M h hrun, rfl⟩
      · refine .inr ?_
        simp [hone]
  | stuck t => exact .inr rfl
  | fault t => exact .inr rfl
  | timeout t => exact .inr rfl

/-- An iteration of the loop over list entries goes on behind its state, or ends
the loop with what its pull returned, on an unassigned pointer, or by freeing a term
twice. -/
theorem decodeListLoop_advances (h : M.Holds 0 s) (depth i : ℕ) (element : Option (Data F))
    (twice : Bool) (entries : List (Data F)) :
    (∃ element' twice' entry t, Advances M s t ∧
      run R (decodeListLoop (bertDecoderPull depth) (i + 1) element twice entries) s =
        run R (decodeListLoop (bertDecoderPull depth) i element' twice' (entries ++ [entry])) t) ∨
    run R (decodeListLoop (bertDecoderPull depth) (i + 1) element twice entries) s =
      (run R (bertDecoderPull depth : Decode F _) s).bind fun r t ↦
        if r.1 = 1 then .stuck t else if twice then .fault t else .done (r.1, none) t := by
  rw [decodeListLoop, run_bind]
  cases hrun : run R (bertDecoderPull depth : Decode F _) s with
  | done r t =>
      obtain ⟨result, data⟩ := r
      by_cases hone : result = 1
      · subst hone
        have hadvances := advances_of_pull M h hrun
        cases data with
        | some data => exact .inl ⟨some data, twice, data, t, hadvances, rfl⟩
        | none =>
            cases element with
            | some stale => exact .inl ⟨some stale, true, stale, t, hadvances, rfl⟩
            | none => exact .inr rfl
      · refine .inr ?_
        cases twice <;> simp [hone]
  | stuck t => exact .inr rfl
  | fault t => exact .inr rfl
  | timeout t => exact .inr rfl

omit [Platform F] in
/-- An iteration of the loop that copies bytes goes on behind its state, or ends
the loop with the error of its read. -/
theorem decodeBytesLoop_advances (h : M.Holds 0 s) {length index : ℕ} (fuel : ℕ)
    (dest : List UInt8) (hlength : length < 2 ^ 32) (hindex : index < length) :
    (∃ count chunk t, Advances M s t ∧
      run R (decodeBytesLoop length (fuel + 1) index dest : Decode F _) s =
        run R (decodeBytesLoop length fuel (index + count) (dest ++ chunk) : Decode F _) t) ∨
    ∃ code t, code < 0 ∧
      run R (decodeBytesLoop length (fuel + 1) index dest : Decode F _) s =
        .done (.error code) t := by
  obtain ⟨count, hcount⟩ : ∃ count, count = min 256 (length - index) := ⟨_, rfl⟩
  rw [run_decodeBytesLoop_succ dest s hlength hindex hcount]
  rcases decodeField_cases (F := F) (R := R) id s count with
    ⟨chunk, t, hchunk, hdelivers, hrun⟩ | ⟨code, t, hfails, hrun⟩
  · rw [hrun]
    obtain ⟨hholds, hsize⟩ := M.delivers h (by simp [bertShortBuffer]; omega) hdelivers
    rw [List.flatten_singleton] at hsize
    exact .inl ⟨count, chunk, t, ⟨hholds, by omega⟩, rfl⟩
  · rw [hrun]
    exact .inr ⟨code, t, hfails.neg, rfl⟩

end Measured

/-- What a plain reader has to come is its input. -/
def plainMeasure : Measure plainReader (bertShortBuffer / 2) where
  Holds avail rest := avail ≤ rest.length
  size := List.length
  weaken _ := Nat.zero_le _
  read_ok {avail rest size} _ _ hcode := by
    rw [plainReader_read] at hcode ⊢
    dsimp only at hcode
    split_ifs at hcode with hle hnil
    · exact hle
    · exact absurd hcode (by decide)
    · exact absurd hcode (by decide)
  read_fail _ _ _ := Nat.zero_le _
  step {avail rest size} h _ := by
    change avail - size ≤ (rest.drop size).length
    rw [List.length_drop]
    exact Nat.sub_le_sub_right h size
  read_le _ _ := Nat.le_refl _
  step_le {avail rest size} h hsize := by
    change (rest.drop size).length + size ≤ rest.length
    rw [List.length_drop, Nat.sub_add_cancel (hsize.trans h)]

/-! ## Finite sources -/

/-- A source with a bound on what it will still deliver. -/
structure FiniteSource (ρ : Type) extends Source ρ where
  left : ρ → ℕ
  delivers : ∀ s size bytes, (read s size).1 = some bytes →
    left (read s size).2 + bytes.length ≤ left s
  fails : ∀ s size, (read s size).1 = none → left (read s size).2 ≤ left s

namespace FiniteSource

variable (source : FiniteSource ρ)

/-- The mode is over the source, or over a buffer whose index has 32 bits. -/
def Feeds : DecoderMode ρ → Prop
  | .none => True
  | .stream file _ => file = source.toSource
  | .buffer _ length index => length < 2 ^ 32 ∧ index ≤ length
  | .callback ptr _ => ptr = source.toSource

/-- The bytes that a mode has not delivered. -/
def undelivered : DecoderMode ρ → ℕ
  | .none => 0
  | .stream _ fd => source.left fd
  | .buffer _ length index => length - index
  | .callback _ data => source.left data

/-- The bytes a decoder has not stepped over, unread or undelivered. -/
def remaining (d : Decoder ρ) : ℕ := d.unread.length + source.undelivered d.mode

variable {source} {mode mode' : DecoderMode ρ} {space : ℕ} {bytes : List UInt8}

theorem Feeds.fill_some (h : source.Feeds mode) (hfill : mode.fill space = (some bytes, mode')) :
    source.Feeds mode' ∧ source.undelivered mode' + bytes.length ≤ source.undelivered mode := by
  cases mode with
  | none => cases hfill
  | stream file fd =>
      cases h
      obtain ⟨hread, rfl⟩ := Prod.mk.inj hfill
      exact ⟨rfl, source.delivers fd space bytes hread⟩
  | buffer ptr length index =>
      obtain ⟨hbytes, rfl⟩ := Prod.mk.inj hfill
      obtain rfl := Option.some.inj hbytes
      have hmod : (index + min (length - index) space) % 2 ^ 32 =
          index + min (length - index) space := by
        apply Nat.mod_eq_of_lt
        have := h.1
        have := h.2
        omega
      have htake := List.length_take_le (min (length - index) space) ptr
      have hle := h.2
      simp only [Feeds, undelivered, hmod]
      exact ⟨⟨h.1, by omega⟩, by omega⟩
  | callback ptr data =>
      cases h
      obtain ⟨hread, rfl⟩ := Prod.mk.inj hfill
      exact ⟨rfl, source.delivers data space bytes hread⟩

theorem Feeds.fill_none (h : source.Feeds mode) (hfill : mode.fill space = (none, mode')) :
    source.Feeds mode' ∧ source.undelivered mode' ≤ source.undelivered mode := by
  cases mode with
  | none =>
      cases hfill
      exact ⟨trivial, Nat.le_refl _⟩
  | stream file fd =>
      cases h
      obtain ⟨hread, rfl⟩ := Prod.mk.inj hfill
      exact ⟨rfl, source.fails fd space hread⟩
  | buffer ptr length index => cases hfill
  | callback ptr data =>
      cases h
      obtain ⟨hread, rfl⟩ := Prod.mk.inj hfill
      exact ⟨rfl, source.fails data space hread⟩

theorem Feeds.read {d : Decoder ρ} {size : ℕ} {r : Code × Decoder ρ} (h : source.Feeds d.mode)
    (hstep : d.ReadStep size r) : source.Feeds r.2.mode := by
  cases hstep with
  | enough => exact h
  | filled _ hfill => exact (h.fill_some hfill).1
  | failed _ hfill => exact (h.fill_none hfill).1

theorem Feeds.remaining_read {d : Decoder ρ} {size : ℕ} {r : Code × Decoder ρ}
    (h : source.Feeds d.mode) (hstep : d.ReadStep size r) :
    source.remaining r.2 ≤ source.remaining d := by
  cases hstep with
  | enough => exact Nat.le_refl _
  | @filled bytes mode _ hfill _ hunread =>
      have hle := (h.fill_some hfill).2
      dsimp only [remaining]
      rw [hunread, List.length_append]
      change d.unread.length + bytes.length + source.undelivered mode ≤ _
      omega
  | @failed mode _ hfill _ hunread =>
      have hle := (h.fill_none hfill).2
      dsimp only [remaining]
      rw [hunread]
      exact Nat.add_le_add_left hle _

/-- What is left to decode, as the measure of a decoder over a finite source. -/
def measure (source : FiniteSource ρ) : Measure (windowReader (ρ := ρ)) (bertShortBuffer / 2) where
  Holds avail d := d.Valid ∧ avail ≤ d.unread.length ∧ source.Feeds d.mode
  size := source.remaining
  weaken h := ⟨h.1, Nat.zero_le _, h.2.2⟩
  read_ok := by
    rintro avail d size ⟨hvalid, -, hfeeds⟩ - hcode
    have hstep := hvalid.readStep size
    exact ⟨hstep.valid hvalid, hstep.le_of_success hcode, hfeeds.read hstep⟩
  read_fail := by
    rintro avail d size ⟨hvalid, -, hfeeds⟩ - -
    have hstep := hvalid.readStep size
    exact ⟨hstep.valid hvalid, Nat.zero_le _, hfeeds.read hstep⟩
  step := by
    rintro avail d size ⟨hvalid, havail, hfeeds⟩ hsize
    obtain ⟨hvalid', hpromised⟩ := hvalid.step_promised havail hsize
    exact ⟨hvalid', hpromised, hfeeds⟩
  read_le := by
    rintro avail d size ⟨hvalid, -, hfeeds⟩ -
    exact hfeeds.remaining_read (hvalid.readStep size)
  step_le := by
    rintro avail d size ⟨hvalid, havail, hfeeds⟩ hsize
    obtain ⟨-, hunread⟩ := hvalid.step (hsize.trans havail)
    change (d.step size).unread.length + source.undelivered d.mode + size ≤
      d.unread.length + source.undelivered d.mode
    rw [hunread, List.length_drop]
    omega

end FiniteSource

/-- What a source holds bounds what it will deliver. -/
def SlicedSource.finite (source : SlicedSource ρ) : FiniteSource ρ where
  toSource := source.toSource
  left s := (source.contents s).length
  delivers s size bytes hread := by
    obtain ⟨bytes', hread', hcontents⟩ := source.delivers s size
    obtain rfl : bytes = bytes' := Option.some.inj (hread.symm.trans hread')
    rw [hcontents, List.length_append, Nat.add_comm]
  fails s size hread := by
    obtain ⟨bytes, hread', -⟩ := source.delivers s size
    cases hread.symm.trans hread'

/-- A pull from the state comes to its end, and how. -/
structure Terminates (F : Type) [Platform F] (source : FiniteSource ρ) (d : Decoder ρ)
    (depth : ℕ) : Prop where
  /-- a call depth beyond what is left is not used up -/
  ends : source.remaining d < depth →
    ∀ d', run windowReader (bertDecoderPull depth : Decode F _) d ≠ .timeout d'
  /-- every nested pull starts with less left -/
  nested : Along windowReader (nested source.measure d)
    (pullBody (bertDecoderPull depth) : Decode F _) d
  /-- an iteration that goes on has consumed a byte -/
  tupleLoop : ∀ (i : ℕ) (elements : List (Option (Data F))),
    (∃ slot d', Advances source.measure d d' ∧
      run windowReader (decodeTupleLoop (bertDecoderPull depth) (i + 1) elements) d =
        run windowReader (decodeTupleLoop (bertDecoderPull depth) i (elements ++ [slot])) d') ∨
    run windowReader (decodeTupleLoop (bertDecoderPull depth) (i + 1) elements) d =
      (run windowReader (bertDecoderPull depth : Decode F _) d).bind
        fun r d' ↦ .done (r.1, none) d'
  listLoop : ∀ (i : ℕ) (element : Option (Data F)) (twice : Bool) (entries : List (Data F)),
    (∃ element' twice' entry d', Advances source.measure d d' ∧
      run windowReader (decodeListLoop (bertDecoderPull depth) (i + 1) element twice entries) d =
        run windowReader
          (decodeListLoop (bertDecoderPull depth) i element' twice' (entries ++ [entry])) d') ∨
    run windowReader (decodeListLoop (bertDecoderPull depth) (i + 1) element twice entries) d =
      (run windowReader (bertDecoderPull depth : Decode F _) d).bind fun r d' ↦
        if r.1 = 1 then .stuck d' else if twice then .fault d' else .done (r.1, none) d'
  bytesLoop : ∀ length index fuel dest, length < 2 ^ 32 → index < length →
    (∃ count chunk d', Advances source.measure d d' ∧
      run windowReader (decodeBytesLoop length (fuel + 1) index dest : Decode F _) d =
        run windowReader
          (decodeBytesLoop length fuel (index + count) (dest ++ chunk) : Decode F _) d') ∨
    ∃ code d', code < 0 ∧
      run windowReader (decodeBytesLoop length (fuel + 1) index dest : Decode F _) d =
        .done (.error code) d'

/-- Decoding terminates on every finite source, whatever it delivers. -/
theorem decoding_terminates [Platform F] (source : FiniteSource ρ) {d : Decoder ρ}
    (hvalid : d.Valid) (hfeeds : source.Feeds d.mode) (depth : ℕ) :
    Terminates F source d depth := by
  have hholds : source.measure.Holds 0 d := ⟨hvalid, Nat.zero_le _, hfeeds⟩
  constructor
  · intro hdepth d' hrun
    exact onTimeout_of_run (along_bertDecoderPull _ hholds hdepth) hrun
  · exact along_nested _ hholds depth
  · exact decodeTupleLoop_advances _ hholds depth
  · exact decodeListLoop_advances _ hholds depth
  · intro length index fuel dest hlength hindex
    exact decodeBytesLoop_advances _ hholds fuel dest hlength hindex

/-- Headers that announce 4294967295 elements, one within the other. -/
theorem decoding_terminates_announced :
    Terminates Empty PlainSource.ofList.toSlicedSource.finite
      (bertDecoderCallback bertDecoderCreate PlainSource.ofList.toSource
        [105, 255, 255, 255, 255, 108, 255, 255, 255, 255, 106]) 12 := by
  refine decoding_terminates _ ?_ ?_ 12
  · exact valid_fresh _
  · exact rfl

end LibBert
