import LibBert.Decoder.Decode
import LibBert.Reading.Simulation

/-!
# What the field reads and a pull do

One lemma for each function below the term decoders says everything it can do
over an arbitrary reader: it succeeds on the chunk the reader delivers, or it
returns an error and the reader delivers no such chunk.
-/

namespace LibBert

open Reading Bytes

variable {F σ α : Type} {R : BertReader σ}

theorem ReadFails.neg {code : Code} (h : ReadFails code) : code < 0 := by
  rcases h with rfl | rfl | rfl | rfl <;> decide

/-- The code `BERT_DECODER_READ` makes of a failed read. -/
def readError (code : Code) : Code :=
  if code = bertErrnoEmpty then bertErrnoShortRead else code

theorem readError_neg {code : Code} (h : ReadFails code) : readError code < 0 := by
  rcases h with rfl | rfl | rfl | rfl <;> decide

/-- A request for `i` bytes fails, which `BERT_DECODER_READ` reports as `code`. -/
def Fails (R : BertReader σ) (code : Code) (s : σ) (i : ℕ) : Prop :=
  ReadFails (R.read s i).1 ∧ code = readError (R.read s i).1

theorem Fails.neg {code : Code} {s : σ} {i : ℕ} (h : Fails R code s i) : code < 0 :=
  h.2 ▸ readError_neg h.1

/-- One of the requests for the chunks fails with `code`. -/
inductive Breaks (R : BertReader σ) (code : Code) : σ → List (List UInt8) → Prop
  | here {s : σ} {chunk : List UInt8} {chunks : List (List UInt8)}
      (hfails : Fails R code s chunk.length) : Breaks R code s (chunk :: chunks)
  | later {s t : σ} {chunk : List UInt8} {chunks : List (List UInt8)}
      (hchunk : Delivers R s [chunk] t) (h : Breaks R code t chunks) :
      Breaks R code s (chunk :: chunks)

theorem Breaks.neg {code : Code} {s : σ} {chunks : List (List UInt8)}
    (h : Breaks R code s chunks) : code < 0 := by
  induction h with
  | here hfails => exact hfails.neg
  | later _ _ ih => exact ih

theorem Breaks.not_delivers {code : Code} {s t : σ} {chunks chunks' : List (List UInt8)}
    (h : Breaks R code s chunks) (hlengths : chunks.map List.length = chunks'.map List.length) :
    ¬ Delivers R s chunks' t := by
  induction h generalizing chunks' with
  | @here s chunk chunks hfails =>
      intro hdelivers
      cases chunks' with
      | nil => cases hlengths
      | cons chunk' chunks' =>
          rw [List.map_cons, List.map_cons, List.cons.injEq] at hlengths
          obtain ⟨s', hread, -⟩ := delivers_cons_iff.mp hdelivers
          have hsuccess := hfails.1.neg
          rw [hlengths.1, hread] at hsuccess
          exact absurd hsuccess (by decide : ¬ bertSuccess < 0)
  | @later s u chunk chunks hchunk h ih =>
      intro hdelivers
      cases chunks' with
      | nil => cases hlengths
      | cons chunk' chunks' =>
          rw [List.map_cons, List.map_cons, List.cons.injEq] at hlengths
          obtain ⟨v, hfirst, hrest⟩ := delivers_cons_split.mp hdelivers
          obtain ⟨-, rfl⟩ := hchunk.functional hfirst (by simp [hlengths.1])
          exact ih hlengths.2 hrest

/-- How the first request that fails is reported depends on the lengths alone. -/
theorem Breaks.functional {code code' : Code} {s : σ} {chunks chunks' : List (List UInt8)}
    (h : Breaks R code s chunks) (h' : Breaks R code' s chunks')
    (hlengths : chunks.map List.length = chunks'.map List.length) : code = code' := by
  induction h generalizing chunks' with
  | @here s chunk chunks hfails =>
      cases h' with
      | here hfails' =>
          rw [List.map_cons, List.map_cons, List.cons.injEq] at hlengths
          rw [hfails.2, hfails'.2, hlengths.1]
      | later hchunk h' =>
          rw [List.map_cons, List.map_cons, List.cons.injEq] at hlengths
          have hbreaks : Breaks R code s [chunk] := .here hfails
          exact absurd hchunk (hbreaks.not_delivers (by simp [hlengths.1]))
  | @later s u chunk chunks hchunk h ih =>
      cases h' with
      | @here _ chunk' _ hfails' =>
          rw [List.map_cons, List.map_cons, List.cons.injEq] at hlengths
          have hbreaks : Breaks R code' s [chunk'] := .here hfails'
          exact absurd hchunk (hbreaks.not_delivers (by simp [hlengths.1]))
      | later hchunk' h' =>
          rw [List.map_cons, List.map_cons, List.cons.injEq] at hlengths
          obtain ⟨-, rfl⟩ := hchunk.functional hchunk' (by simp [hlengths.1])
          exact ih h' hlengths.2

theorem run_decoderRead_ok {s t : σ} {i : ℕ} (h : R.read s i = (bertSuccess, t)) :
    run R (decoderRead i : Decode F _) s = .done (.ok ()) t := by
  simp only [decoderRead, run_read, h]
  rfl

theorem run_decoderRead_error {s t : σ} {i : ℕ} {code : Code} (h : R.read s i = (code, t))
    (hcode : ReadFails code) :
    run R (decoderRead i : Decode F _) s = .done (.error (readError code)) t := by
  simp only [decoderRead, run_read, h]
  rcases hcode with rfl | rfl | rfl | rfl <;> rfl

/-! ## One field -/

theorem run_decodeField (convert : List UInt8 → α) {s t : σ} {chunk : List UInt8} {i : ℕ}
    (hlength : chunk.length = i) (h : Delivers R s [chunk] t) :
    run R (decodeField i convert : Decode F _) s = .done (.ok (convert chunk)) t := by
  subst hlength
  obtain ⟨s', hread, hpeek, hrest⟩ := delivers_cons_iff.mp h
  rw [delivers_nil_iff] at hrest
  simp [decodeField, run_decoderRead_ok hread, hpeek, hrest]

theorem run_decodeField_error (convert : List UInt8 → α) {s t : σ} {i : ℕ} {code : Code}
    (hread : R.read s i = (code, t)) (hcode : ReadFails code) :
    run R (decodeField i convert : Decode F _) s = .done (.error (readError code)) t := by
  simp [decodeField, run_decoderRead_error hread hcode]

theorem run_decodeField_of_fails (convert : List UInt8 → α) {s : σ} {i : ℕ} {code : Code}
    (h : Fails R code s i) :
    ∃ t, run R (decodeField i convert : Decode F _) s = .done (.error code) t := by
  obtain ⟨hfails, rfl⟩ := h
  exact ⟨(R.read s i).2, run_decodeField_error convert Prod.mk.eta.symm hfails⟩

theorem decodeField_cases (convert : List UInt8 → α) (s : σ) (i : ℕ) :
    (∃ chunk t, chunk.length = i ∧ Delivers R s [chunk] t ∧
      run R (decodeField i convert : Decode F _) s = .done (.ok (convert chunk)) t) ∨
    (∃ code t, Fails R code s i ∧
      run R (decodeField i convert : Decode F _) s = .done (.error code) t) := by
  rcases R.read_cases s i with ⟨t, hread⟩ | ⟨code, t, hcode, hread⟩
  · obtain ⟨hlength, hdelivers⟩ := delivers_of_read hread
    exact .inl ⟨_, _, hlength, hdelivers, run_decodeField convert hlength hdelivers⟩
  · have hfails : Fails R (readError code) s i := ⟨by rwa [hread], by rw [hread]⟩
    obtain ⟨u, hrun⟩ := run_decodeField_of_fails (F := F) convert hfails
    exact .inr ⟨_, u, hfails, hrun⟩

/-! ## Byte strings -/

/-- A byte string cut into the chunks `bert_decode_bytes` asks for. -/
def pieces (bytes : List UInt8) : List (List UInt8) :=
  if bytes.length = 0 then [] else bytes.take 256 :: pieces (bytes.drop 256)
termination_by bytes.length
decreasing_by simp only [List.length_drop]; omega

@[simp] theorem pieces_nil : pieces [] = [] := by
  rw [pieces]
  rfl

theorem pieces_of_pos {bytes : List UInt8} (h : 0 < bytes.length) :
    pieces bytes = bytes.take 256 :: pieces (bytes.drop 256) := by
  rw [pieces, if_neg (by omega)]

@[simp] theorem pieces_flatten (bytes : List UInt8) : (pieces bytes).flatten = bytes := by
  induction bytes using pieces.induct with
  | case1 bytes h => simp [List.length_eq_zero_iff.mp h]
  | case2 bytes h ih =>
      rw [pieces_of_pos (by omega), List.flatten_cons, ih, List.take_append_drop]

theorem pieces_lengths {bytes bytes' : List UInt8} (h : bytes.length = bytes'.length) :
    (pieces bytes).map List.length = (pieces bytes').map List.length := by
  induction bytes using pieces.induct generalizing bytes' with
  | case1 bytes hzero =>
      obtain rfl : bytes = [] := List.length_eq_zero_iff.mp hzero
      obtain rfl : bytes' = [] := List.length_eq_zero_iff.mp h.symm
      rfl
  | case2 bytes hpos ih =>
      rw [pieces_of_pos (by omega : 0 < bytes.length),
        pieces_of_pos (by omega : 0 < bytes'.length), List.map_cons, List.map_cons,
        @ih (bytes'.drop 256) (by simp [h]), List.length_take, List.length_take, h]

theorem pieces_append {chunk rest : List UInt8} (hpos : 0 < chunk.length)
    (hfull : chunk.length = min 256 (chunk.length + rest.length)) :
    pieces (chunk ++ rest) = chunk :: pieces rest := by
  rw [pieces_of_pos (by rw [List.length_append]; omega)]
  rcases Nat.lt_or_ge chunk.length 256 with hlt | hge
  · obtain rfl : rest = [] := List.length_eq_zero_iff.mp (by omega)
    rw [List.append_nil, List.take_of_length_le hlt.le, List.drop_eq_nil_of_le hlt.le]
  · rw [List.take_left' (by omega), List.drop_left' (by omega)]

theorem exists_first_piece (bytes : List UInt8) (hpos : 0 < bytes.length) :
    ∃ chunk rest, bytes = chunk ++ rest ∧ chunk.length = min 256 bytes.length ∧
      pieces bytes = chunk :: pieces rest :=
  ⟨bytes.take 256, bytes.drop 256, (List.take_append_drop 256 bytes).symm,
    List.length_take, pieces_of_pos hpos⟩

/-- One iteration of the loop of `bert_decode_bytes` is one field read. -/
theorem run_decodeBytesLoop_succ {length fuel index count : ℕ} (dest : List UInt8) (s : σ)
    (hlength : length < 2 ^ 32) (hlt : index < length) (hcount : count = min 256 (length - index)) :
    run R (decodeBytesLoop length (fuel + 1) index dest : Decode F _) s =
      (run R (decodeField count id : Decode F _) s).bind fun
        | .error result, t => .done (.error result) t
        | .ok chunk, t =>
            run R (decodeBytesLoop length fuel (index + count) (dest ++ chunk) : Decode F _) t := by
  have hmod : (index + count) % 2 ^ 32 = index + count := Nat.mod_eq_of_lt (by omega)
  rw [decodeBytesLoop, if_pos hlt]
  simp only [bertShortBuffer, Nat.reduceDiv, ← hcount, hmod, run_bind]
  congr 1
  funext chunk t
  cases chunk <;> rfl

/-- The loop of `bert_decode_bytes` either copies the bytes the reader delivers
or returns the error of the request that fails. -/
theorem decodeBytesLoop_cases (length fuel index : ℕ) (dest : List UInt8) (s : σ)
    (hlength : length < 2 ^ 32) (hindex : index ≤ length) (hfuel : length - index < fuel) :
    (∃ bytes t, bytes.length = length - index ∧ Delivers R s (pieces bytes) t ∧
      run R (decodeBytesLoop length fuel index dest : Decode F _) s =
        .done (.ok (dest ++ bytes)) t) ∨
    (∃ bytes code t, bytes.length = length - index ∧ Breaks R code s (pieces bytes) ∧
      run R (decodeBytesLoop length fuel index dest : Decode F _) s =
        .done (.error code) t) := by
  induction fuel generalizing index dest s with
  | zero => omega
  | succ fuel ih =>
      by_cases hlt : index < length
      swap
      · refine .inl ⟨[], s, by simp only [List.length_nil]; omega, by simp, ?_⟩
        simp [decodeBytesLoop, hlt]
      obtain ⟨count, hcount⟩ : ∃ count, count = min 256 (length - index) := ⟨_, rfl⟩
      rw [run_decodeBytesLoop_succ dest s hlength hlt hcount]
      rcases decodeField_cases (F := F) (R := R) id s count with
        ⟨chunk, u, hchunk, hdelivers, hrun⟩ | ⟨code, u, hfails, hrun⟩
      · rw [hrun]
        rcases ih (index + count) (dest ++ chunk) u (by omega) (by omega) with
          ⟨bytes, t, hbytes, hrest, hrun'⟩ | ⟨bytes, code, t, hbytes, hbreaks, hrun'⟩
        · refine .inl ⟨chunk ++ bytes, t, by rw [List.length_append]; omega, ?_, ?_⟩
          · rw [pieces_append (by omega) (by omega), ← List.singleton_append]
            exact delivers_append_iff.mpr ⟨u, hdelivers, hrest⟩
          · simpa using hrun'
        · refine .inr ⟨chunk ++ bytes, code, t, by rw [List.length_append]; omega, ?_, hrun'⟩
          rw [pieces_append (by omega) (by omega)]
          exact .later hdelivers hbreaks
      · rw [hrun]
        refine .inr ⟨List.replicate (length - index) 0, code, u, List.length_replicate, ?_, rfl⟩
        obtain ⟨first, rest, -, hfirst, hpieces⟩ :=
          exists_first_piece (List.replicate (length - index) 0)
            (by rw [List.length_replicate]; omega)
        rw [List.length_replicate, ← hcount] at hfirst
        rw [hpieces]
        exact .here (hfirst ▸ hfails)

theorem decodeBytes_cases (length : ℕ) (s : σ) (hlength : length < 2 ^ 32) :
    (∃ bytes t, bytes.length = length ∧ Delivers R s (pieces bytes) t ∧
      run R (bertDecodeBytes length : Decode F _) s = .done (.ok bytes) t) ∨
    (∃ bytes code t, bytes.length = length ∧ Breaks R code s (pieces bytes) ∧
      run R (bertDecodeBytes length : Decode F _) s = .done (.error code) t) := by
  simpa [bertDecodeBytes] using
    decodeBytesLoop_cases (F := F) (R := R) length (length + 1) 0 [] s hlength (by omega) (by omega)

theorem run_decodeBytes {s t : σ} {bytes : List UInt8} {length : ℕ}
    (hlength : bytes.length = length) (hbound : length < 2 ^ 32)
    (h : Delivers R s (pieces bytes) t) :
    run R (bertDecodeBytes length : Decode F _) s = .done (.ok bytes) t := by
  rcases decodeBytes_cases (F := F) (R := R) length s hbound with
    ⟨bytes', t', hlength', hdelivers, hrun⟩ | ⟨bytes', code, t', hlength', hbreaks, -⟩
  · have hsame := h.functional hdelivers (pieces_lengths (by omega))
    have hbytes : bytes = bytes' := by
      simpa using congrArg List.flatten hsame.1
    rw [hrun, hbytes, hsame.2]
  · exact absurd h (hbreaks.not_delivers (pieces_lengths (by omega)))

theorem run_decodeBytes_of_breaks {s : σ} {bytes : List UInt8} {code : Code}
    (hbound : bytes.length < 2 ^ 32) (h : Breaks R code s (pieces bytes)) :
    ∃ t, run R (bertDecodeBytes bytes.length : Decode F _) s = .done (.error code) t := by
  rcases decodeBytes_cases (F := F) (R := R) bytes.length s hbound with
    ⟨bytes', t, hlength, hdelivers, -⟩ | ⟨bytes', code', t, hlength, hbreaks, hrun⟩
  · exact absurd hdelivers (h.not_delivers (pieces_lengths hlength.symm))
  · rw [h.functional hbreaks (pieces_lengths hlength.symm)]
    exact ⟨t, hrun⟩

/-! ## Length fields and what they count -/

section Fails

variable {s : σ} {code : Code}

theorem run_decodeUint8_of_fails (h : Fails R code s 1) :
    ∃ t, run R (bertDecodeUint8 : Decode F _) s = .done (.error code) t :=
  run_decodeField_of_fails bertReadUint8 h

theorem run_decodeUint16_of_fails (h : Fails R code s 2) :
    ∃ t, run R (bertDecodeUint16 : Decode F _) s = .done (.error code) t :=
  run_decodeField_of_fails bertReadUint16 h

theorem run_decodeUint32_of_fails (h : Fails R code s 4) :
    ∃ t, run R (bertDecodeUint32 : Decode F _) s = .done (.error code) t :=
  run_decodeField_of_fails bertReadUint32 h

end Fails

theorem run_decodeUint8 {s t : σ} {n : ℕ} (h : Delivers R s [bigEndian 1 n] t) :
    run R (bertDecodeUint8 : Decode F _) s = .done (.ok (UInt8.ofNat n)) t := by
  have hread : bertReadUint8 (bigEndian 1 n) = UInt8.ofNat n := by simp [bigEndian, bertReadUint8]
  rw [← hread]
  exact run_decodeField bertReadUint8 (length_bigEndian 1 n) h

theorem run_decodeUint16 {s t : σ} {n : ℕ} (h : Delivers R s [bigEndian 2 n] t) :
    run R (bertDecodeUint16 : Decode F _) s = .done (.ok (UInt16.ofNat n)) t := by
  have hread : bertReadUint16 (bigEndian 2 n) = UInt16.ofNat n := by
    apply UInt16.toNat_inj.mp
    rw [bertReadUint16_toNat (length_bigEndian 2 n), ofBigEndian_bigEndian]
    simp
  rw [← hread]
  exact run_decodeField bertReadUint16 (length_bigEndian 2 n) h

theorem run_decodeUint32 {s t : σ} {n : ℕ} (h : Delivers R s [bigEndian 4 n] t) :
    run R (bertDecodeUint32 : Decode F _) s = .done (.ok (UInt32.ofNat n)) t := by
  have hread : bertReadUint32 (bigEndian 4 n) = UInt32.ofNat n := by
    apply UInt32.toNat_inj.mp
    rw [bertReadUint32_toNat (length_bigEndian 4 n), ofBigEndian_bigEndian]
    simp
  rw [← hread]
  exact run_decodeField bertReadUint32 (length_bigEndian 4 n) h

theorem run_decodeText {s t : σ} {create : List UInt8 → Data F} {bytes : List UInt8}
    (hbound : bytes.length < 2 ^ 32) (h : Delivers R s (pieces bytes) t) :
    run R (decodeText create bytes.length) s =
      .done ((bertSuccess, some (create bytes)) : Result F) t := by
  by_cases hzero : bytes.length = 0
  · obtain rfl := List.length_eq_zero_iff.mp hzero
    rw [pieces_nil, delivers_nil_iff] at h
    simp [decodeText, h]
  · simp [decodeText, hzero, run_decodeBytes rfl hbound h]

theorem run_decodeText_of_breaks {s : σ} {bytes : List UInt8} {code : Code}
    (create : List UInt8 → Data F) (hbound : bytes.length < 2 ^ 32)
    (h : Breaks R code s (pieces bytes)) :
    ∃ t, run R (decodeText create bytes.length) s = .done ((code, none) : Result F) t := by
  by_cases hzero : bytes.length = 0
  · rw [List.length_eq_zero_iff.mp hzero, pieces_nil] at h
    cases h
  · obtain ⟨t, hrun⟩ := run_decodeBytes_of_breaks (F := F) hbound h
    exact ⟨t, by simp [decodeText, hzero, hrun]⟩

/-! ## The block of a binary -/

theorem run_decodeBin {s u : σ} {n : ℕ} (hbound : n < 2 ^ 32 - 1)
    (h : Delivers R s [bigEndian 4 n] u) :
    run R (bertDecodeBin : Decode F _) s = run R (decodeText .bin n : Decode F _) u := by
  have hsize : (UInt32.ofNat n).toNat = n := by
    rw [UInt32.toNat_ofNat']
    omega
  have hroom : ¬ emptyBinSize (UInt32.ofNat n) < n := by
    rw [← hsize, UInt32.ofNat_toNat, emptyBinSize_lt_iff]
    omega
  simp [bertDecodeBin, run_decodeUint32 h, hsize, hroom]

/-- The block of the longest binary takes no chunk. -/
theorem run_decodeBin_max {s u : σ} (h : Delivers R s [bigEndian 4 (2 ^ 32 - 1)] u) :
    run R (bertDecodeBin : Decode F _) s =
      (run R (decodeField 256 id : Decode F _) u).bind fun
        | .error result, t => .done (result, none) t
        | .ok _, t => .fault t := by
  have hshort : emptyBinSize (UInt32.ofNat (2 ^ 32 - 1)) < (UInt32.ofNat (2 ^ 32 - 1)).toNat := by
    decide
  simp only [bertDecodeBin, run_bind, run_decodeUint32 h, Outcome.bind_done, hshort, if_true]
  congr 1
  funext chunk t
  cases chunk <;> rfl

/-- A chunk arrives for a binary whose block is too short. -/
def Overlong (R : BertReader σ) (s t : σ) : Prop :=
  ∃ chunk : List UInt8, chunk.length = 256 ∧ Delivers R s [bigEndian 4 (2 ^ 32 - 1), chunk] t

/-- The bytes of the longest binary begin with one. -/
theorem exists_overlong {s t : σ} {data : List UInt8} (hmax : data.length = 2 ^ 32 - 1)
    (h : Delivers R s (bigEndian 4 data.length :: pieces data) t) : ∃ u, Overlong R s u := by
  obtain ⟨chunk, rest, -, hlength, hpieces⟩ := exists_first_piece data (by rw [hmax]; decide)
  rw [hpieces, hmax] at h
  obtain ⟨u, hfirst, -⟩ := delivers_append_iff.mp
    (show Delivers R s ([bigEndian 4 (2 ^ 32 - 1), chunk] ++ pieces rest) t from h)
  exact ⟨u, chunk, by rw [hlength, hmax]; decide, hfirst⟩

theorem Overlong.run {s t : σ} (h : Overlong R s t) :
    Reading.run R (bertDecodeBin : Decode F _) s = .fault t := by
  obtain ⟨chunk, hlength, hdelivers⟩ := h
  obtain ⟨u, hsize, hchunk⟩ := delivers_cons_split.mp hdelivers
  rw [run_decodeBin_max hsize, run_decodeField id hlength hchunk]
  rfl

theorem run_decodeBignum {s t : σ} {sign : UInt8} {magnitude : List UInt8}
    (hlength : magnitude.length ≤ 8)
    (h : Delivers R s ([sign] :: pieces magnitude) t) :
    run R (bertDecodeBignum magnitude.length : Decode F _) s =
      .done ((bertSuccess, some (.int (bignumInteger sign magnitude))) : Result F) t := by
  rw [← List.singleton_append] at h
  obtain ⟨u, hsign, hmagnitude⟩ := delivers_append_iff.mp h
  have hsign' : run R (bertDecodeUint8 : Decode F _) s = .done (.ok sign) u :=
    run_decodeField bertReadUint8 rfl hsign
  simp [bertDecodeBignum, Nat.not_lt.mpr hlength, hsign',
    run_decodeBytes rfl (by omega) hmagnitude]

theorem run_decodeBignum_of_breaks {s : σ} {sign : UInt8} {magnitude : List UInt8} {code : Code}
    (hlength : magnitude.length ≤ 8) (h : Breaks R code s ([sign] :: pieces magnitude)) :
    ∃ t, run R (bertDecodeBignum magnitude.length : Decode F _) s =
      .done ((code, none) : Result F) t := by
  cases h with
  | here hfails =>
      obtain ⟨t, hrun⟩ := run_decodeUint8_of_fails (F := F) hfails
      exact ⟨t, by simp [bertDecodeBignum, Nat.not_lt.mpr hlength, hrun]⟩
  | @later _ u _ _ hsign hbreaks =>
      have hsign' : run R (bertDecodeUint8 : Decode F _) s = .done (.ok sign) u :=
        run_decodeField bertReadUint8 rfl hsign
      obtain ⟨t, hrun⟩ := run_decodeBytes_of_breaks (F := F) (by omega) hbreaks
      exact ⟨t, by simp [bertDecodeBignum, Nat.not_lt.mpr hlength, hsign', hrun]⟩

/-! ## One pull -/

@[simp] theorem pullResult_success (data : Option (Data F)) :
    pullResult (bertSuccess, data) = (1, data) := rfl

theorem pullResult_of_neg {code : Code} (h : code < 0) (data : Option (Data F)) :
    pullResult (code, data) = (code, data) := if_pos h.ne

section Pull

variable {pull : Decode F (Result F)} {s t : σ}

theorem delivers_after_read {s' : σ} {chunk : List UInt8} {i : ℕ} (hlength : chunk.length = i)
    (hread : R.read s i = (bertSuccess, s')) :
    Delivers R s' [chunk] t ↔ Delivers R s [chunk] t := by
  subst hlength
  simp only [delivers_cons_iff, hread, R.read_again _ _ _ hread]

theorem run_bertDecodeMagic {tag : UInt8} (h : Delivers R s [[tag]] t) :
    run R (bertDecodeMagic : Decode F _) s = .done (.ok tag) t := by
  have hfield := run_decodeField (F := F) bertReadMagic (i := 1) rfl h
  rwa [bertReadMagic_singleton] at hfield

/-- A pull looks at the first byte twice: it asks for it, and then decodes it. -/
theorem read_then_decodeMagic {tag : UInt8} (h : Delivers R s [[tag]] t) :
    ∃ s', R.read s 1 = (bertSuccess, s') ∧
      run R (bertDecodeMagic : Decode F _) s' = .done (.ok tag) t := by
  obtain ⟨s', hread, -, -⟩ := delivers_cons_iff.mp h
  exact ⟨s', hread, run_bertDecodeMagic ((delivers_after_read rfl hread).mpr h)⟩

variable [Platform F]

theorem run_pullBody_tag {tag : UInt8} (h : Delivers R s [[tag]] t) (htag : tag ≠ bertMagic) :
    run R (pullBody pull) s =
      (run R (decodeMagic pull tag) t).bind fun r u ↦ .done (pullResult r) u := by
  obtain ⟨s', hread, hmagic⟩ := read_then_decodeMagic (F := F) h
  simp only [pullBody, run_read, hread, ↓reduceIte, run_bind, hmagic, Outcome.bind_done]
  rw [if_neg htag, run_bind]
  rfl

theorem run_pullBody_marked {tag : UInt8} (h : Delivers R s [[bertMagic], [tag]] t) :
    run R (pullBody pull) s =
      (run R (decodeMagic pull tag) t).bind fun r u ↦ .done (pullResult r) u := by
  obtain ⟨u, hfirst, hsecond⟩ := delivers_cons_split.mp h
  obtain ⟨s', hread, hmagic⟩ := read_then_decodeMagic (F := F) hfirst
  simp only [pullBody, run_read, hread, ↓reduceIte, run_bind, hmagic, Outcome.bind_done,
    run_bertDecodeMagic hsecond]
  rfl

/-- The magic byte of a term is not delivered to a pull. -/
inductive Untagged (R : BertReader σ) (code : Code) (s : σ) : Prop
  | first (hfails : Fails R code s 1) (hmore : (R.read s 1).1 ≠ bertErrnoEmpty)
  | second {t : σ} (hmark : Delivers R s [[bertMagic]] t) (hfails : Fails R code t 1)

theorem Untagged.neg {code : Code} (h : Untagged R code s) : code < 0 := by
  cases h with
  | first hfails => exact hfails.neg
  | second hmark hfails => exact hfails.neg

theorem Untagged.run_pullBody {code : Code} (h : Untagged R code s)
    (pull : Decode F (Result F)) :
    ∃ t, run R (pullBody pull) s = .done ((code, none) : Result F) t := by
  cases h with
  | first hfails hmore =>
      obtain ⟨hcode, rfl⟩ := hfails
      rcases hread : R.read s 1 with ⟨code, t⟩
      rw [hread] at hcode hmore
      refine ⟨t, ?_⟩
      rw [pullBody, Reading.run_read, hread]
      rcases hcode with rfl | rfl | rfl | rfl
      · exact absurd rfl hmore
      all_goals rfl
  | @second u hmark hfails =>
      obtain ⟨s', hread, hmagic⟩ := read_then_decodeMagic (F := F) hmark
      obtain ⟨t, hrun⟩ := run_decodeField_of_fails (F := F) bertReadMagic hfails
      refine ⟨t, ?_⟩
      simp only [pullBody, Reading.run_read, hread, ↓reduceIte, Reading.run_bind, hmagic,
        Outcome.bind_done]
      rw [bertDecodeMagic, hrun]
      rfl

/-- A pull finds nothing left, fails on a read, or decodes behind a magic byte. -/
theorem pullBody_cases (pull : Decode F (Result F)) (s : σ) :
    (∃ t, R.read s 1 = (bertErrnoEmpty, t) ∧
      run R (pullBody pull) s = .done ((0, none) : Result F) t) ∨
    (∃ code, Untagged R code s) ∨
    (∃ tag t, (tag ≠ bertMagic ∧ Delivers R s [[tag]] t ∨
        Delivers R s [[bertMagic], [tag]] t) ∧
      run R (pullBody pull) s =
        (run R (decodeMagic pull tag) t).bind fun r u ↦ .done (pullResult r) u) := by
  rcases decodeField_cases (F := F) (R := R) bertReadMagic s 1 with
    ⟨chunk, t, hchunk, hfirst, -⟩ | ⟨code, -, hfails, -⟩
  · obtain ⟨tag, rfl⟩ := List.length_eq_one_iff.mp hchunk
    refine .inr ?_
    by_cases hmagic : tag = bertMagic
    · subst hmagic
      rcases decodeField_cases (F := F) (R := R) bertReadMagic t 1 with
        ⟨chunk, u, hchunk, hsecond, -⟩ | ⟨code, -, hfails, -⟩
      · obtain ⟨tag, rfl⟩ := List.length_eq_one_iff.mp hchunk
        have hboth : Delivers R s [[bertMagic], [tag]] u :=
          delivers_append_iff.mpr ⟨_, hfirst, hsecond⟩
        exact .inr ⟨tag, u, .inr hboth, run_pullBody_marked hboth⟩
      · exact .inl ⟨code, .second hfirst hfails⟩
    · exact .inr ⟨tag, t, .inl ⟨hmagic, hfirst⟩, run_pullBody_tag hfirst hmagic⟩
  · by_cases hempty : (R.read s 1).1 = bertErrnoEmpty
    · refine .inl ⟨(R.read s 1).2, Prod.ext hempty rfl, ?_⟩
      rw [pullBody, run_read, hempty]
      rfl
    · exact .inr (.inl ⟨code, .first hfails hempty⟩)

theorem run_bertDecoderPull_succ (depth : ℕ) (s : σ) :
    run R (bertDecoderPull (depth + 1) : Decode F _) s =
      run R (pullBody (bertDecoderPull depth)) s := by
  rw [bertDecoderPull, run_emit, run_bind]
  exact Outcome.bind_done_right _

end Pull

end LibBert
