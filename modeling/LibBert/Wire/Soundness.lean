import LibBert.Decoder.Container
import LibBert.Decoder.Discipline

/-!
# What a pull makes of its input

Behind a magic byte the decoder reads one scalar, fails with a negative code, writes a
binary past its block, or enters a container.  All but the last never use an unassigned
pointer, and a scalar that is answered with a term was one wire term on the wire.
-/

namespace LibBert

open Reading Bytes

variable {F σ : Type} {R : BertReader σ} {W : Watch (Event F) σ}

/-! ## Length fields -/

theorem decodeUint8_cases (s : σ) :
    (∃ i t, Delivers R s [[i]] t ∧ run R (bertDecodeUint8 : Decode F _) s = .done (.ok i) t) ∨
    (∃ code t, Fails R code s 1 ∧
      run R (bertDecodeUint8 : Decode F _) s = .done (.error code) t) := by
  rcases decodeField_cases (F := F) (R := R) bertReadUint8 s 1 with
    ⟨chunk, t, hlength, hdelivers, hrun⟩ | hfails
  · obtain ⟨i, rfl⟩ := List.length_eq_one_iff.mp hlength
    exact .inl ⟨i, t, hdelivers, hrun⟩
  · exact .inr hfails

theorem decodeUint16_cases (s : σ) :
    (∃ i t, Delivers R s [bigEndian 2 i.toNat] t ∧
      run R (bertDecodeUint16 : Decode F _) s = .done (.ok i) t) ∨
    (∃ code t, Fails R code s 2 ∧
      run R (bertDecodeUint16 : Decode F _) s = .done (.error code) t) := by
  rcases decodeField_cases (F := F) (R := R) bertReadUint16 s 2 with
    ⟨chunk, t, hlength, hdelivers, hrun⟩ | hfails
  · refine .inl ⟨_, t, ?_, hrun⟩
    rwa [bertReadUint16_toNat hlength, ← hlength, bigEndian_ofBigEndian]
  · exact .inr hfails

theorem decodeUint32_cases (s : σ) :
    (∃ i t, Delivers R s [bigEndian 4 i.toNat] t ∧
      run R (bertDecodeUint32 : Decode F _) s = .done (.ok i) t) ∨
    (∃ code t, Fails R code s 4 ∧
      run R (bertDecodeUint32 : Decode F _) s = .done (.error code) t) := by
  rcases decodeField_cases (F := F) (R := R) bertReadUint32 s 4 with
    ⟨chunk, t, hlength, hdelivers, hrun⟩ | hfails
  · refine .inl ⟨_, t, ?_, hrun⟩
    rwa [bertReadUint32_toNat hlength, ← hlength, bigEndian_ofBigEndian]
  · exact .inr hfails

theorem Breaks.field {code : Code} {s : σ} {width : ℕ} (h : Fails R code s width) (n : ℕ)
    (chunks : List (List UInt8)) : Breaks R code s (bigEndian width n :: chunks) :=
  .here (by rwa [length_bigEndian])

/-! ## Scalars -/

/-- A scalar with as many bytes as the decoder reads for one. -/
def Wire.Sized : Wire → Prop
  | .nil => True
  | .smallInt _ => True
  | .int _ => True
  | .bignum _ _ magnitude => magnitude.length ≤ 8
  | .float text => text.length = 31
  | .atom name => name.length < 2 ^ 16
  | .string text => text.length < 2 ^ 16
  | .bin data => data.length < 2 ^ 32 - 1
  | _ => False

/-- Behind the magic byte `tag` a scalar was read. -/
structure ReadsScalar [Platform F] (R : BertReader σ) (p : Decode F (Result F)) (tag : UInt8)
    (s : σ) (w : Wire) (d : Data F) (t : σ) : Prop where
  tag : w.tag = tag
  unmarked : w.isMarked = false
  leaf : w.elements = []
  denote : w.denote = some d
  delivers : Delivers R s w.body t
  run : run R p s = .done ((bertSuccess, some d) : Result F) t

/-- Why no term is read behind a magic byte: a request for a scalar or a header
fails, or what was read is refused. -/
inductive Fault (R : BertReader σ) (code : Code) (tag : UInt8) (s : σ) : Prop
  | scalar (w : Wire) (htag : w.tag = tag) (hsized : w.Sized) (hbreaks : Breaks R code s w.body)
  | overlong (chunk : List UInt8) (htag : bertBin = tag) (hlength : chunk.length = 256)
      (hbreaks : Breaks R code s [bigEndian 4 (2 ^ 32 - 1), chunk])
  | header (o : Opening) (htag : o.tag = tag) (hbreaks : Breaks R code s [o.size])
  | refused (hcode : code = bertErrnoInvalid ∨ code = bertErrnoBignum)

theorem Fault.neg {code : Code} {tag : UInt8} {s : σ} (h : Fault R code tag s) : code < 0 := by
  rcases h with ⟨w, -, -, hbreaks⟩ | ⟨chunk, -, -, hbreaks⟩ | ⟨o, -, hbreaks⟩ | ⟨rfl | rfl⟩
  · exact hbreaks.neg
  · exact hbreaks.neg
  · exact hbreaks.neg
  · decide
  · decide

/-- The decode function of a scalar reads one, fails, or overruns the block of a
binary. -/
def Scalar [Platform F] (R : BertReader σ) (p : Decode F (Result F)) (tag : UInt8) (s : σ) :
    Prop :=
  (∃ w d t, ReadsScalar R p tag s w d t) ∨
    (∃ code t, Fault R code tag s ∧ Reading.run R p s = .done ((code, none) : Result F) t) ∨
    bertBin = tag ∧ ∃ t, Overlong R s t ∧ Reading.run R p s = .fault t

theorem decodeText_cases (create : List UInt8 → Data F) (size : ℕ) (hsize : size < 2 ^ 32) (s : σ) :
    (∃ bytes t, bytes.length = size ∧ Delivers R s (pieces bytes) t ∧
      run R (decodeText create size) s = .done ((bertSuccess, some (create bytes)) : Result F) t) ∨
    (∃ bytes code t, bytes.length = size ∧ Breaks R code s (pieces bytes) ∧
      run R (decodeText create size) s = .done ((code, none) : Result F) t) := by
  by_cases hzero : size = 0
  · subst hzero
    exact .inl ⟨[], s, rfl, by simp, by simp [decodeText]⟩
  · rcases decodeBytes_cases (F := F) (R := R) size s hsize with
      ⟨bytes, t, hlength, hdelivers, hrun⟩ | ⟨bytes, code, t, hlength, hbreaks, hrun⟩
    · exact .inl ⟨bytes, t, hlength, hdelivers, by simp [decodeText, hzero, hrun]⟩
    · exact .inr ⟨bytes, code, t, hlength, hbreaks, by simp [decodeText, hzero, hrun]⟩

theorem decodeBignum_cases (size : ℕ) (s : σ) :
    (∃ sign magnitude t, magnitude.length = size ∧ size ≤ 8 ∧
      Delivers R s ([sign] :: pieces magnitude) t ∧
      run R (bertDecodeBignum size : Decode F _) s =
        .done ((bertSuccess, some (.int (bignumInteger sign magnitude))) : Result F) t) ∨
    (∃ sign magnitude code t, magnitude.length = size ∧ size ≤ 8 ∧
      Breaks R code s ([sign] :: pieces magnitude) ∧
      run R (bertDecodeBignum size : Decode F _) s = .done ((code, none) : Result F) t) ∨
    run R (bertDecodeBignum size : Decode F _) s =
      .done ((bertErrnoBignum, none) : Result F) s := by
  by_cases hsize : 8 < size
  · exact .inr (.inr (by simp [bertDecodeBignum, hsize]))
  rcases decodeUint8_cases (F := F) (R := R) s with
    ⟨sign, u, hsign, hrun⟩ | ⟨code, t, hfails, hrun⟩
  · rcases decodeBytes_cases (F := F) (R := R) size u (by omega) with
      ⟨magnitude, t, hlength, hdelivers, hrun'⟩ | ⟨magnitude, code, t, hlength, hbreaks, hrun'⟩
    · exact .inl ⟨sign, magnitude, t, hlength, by omega,
        delivers_cons_split.mpr ⟨u, hsign, hdelivers⟩,
        by simp [bertDecodeBignum, hsize, hrun, hrun']⟩
    · exact .inr (.inl ⟨sign, magnitude, code, t, hlength, by omega, .later hsign hbreaks,
        by simp [bertDecodeBignum, hsize, hrun, hrun']⟩)
  · exact .inr (.inl ⟨0, List.replicate size 0, code, t, List.length_replicate, by omega,
      .here hfails, by simp [bertDecodeBignum, hsize, hrun]⟩)

section Scalars

variable [Platform F] (s : σ)

theorem scalar_nil : Scalar R (bertDecodeNil : Decode F _) bertNil s :=
  .inl ⟨.nil, .nil, s, rfl, rfl, rfl, rfl, .nil s, rfl⟩

theorem scalar_smallInt : Scalar R (bertDecodeSmallInt : Decode F _) bertSmallInt s := by
  rcases decodeUint8_cases (F := F) (R := R) s with ⟨i, t, hi, hrun⟩ | ⟨code, t, hfails, hrun⟩
  · exact .inl ⟨.smallInt i, _, t, rfl, rfl, rfl, rfl, hi, by simp [bertDecodeSmallInt, hrun]⟩
  · exact .inr (.inl ⟨code, t, .scalar (.smallInt 0) rfl trivial (.here hfails),
      by simp [bertDecodeSmallInt, hrun]⟩)

theorem scalar_int : Scalar R (bertDecodeBigInt : Decode F _) bertInt s := by
  rcases decodeUint32_cases (F := F) (R := R) s with ⟨i, t, hi, hrun⟩ | ⟨code, t, hfails, hrun⟩
  · exact .inl ⟨.int i, _, t, rfl, rfl, rfl, rfl, hi, by simp [bertDecodeBigInt, hrun]⟩
  · exact .inr (.inl ⟨code, t, .scalar (.int 0) rfl trivial (.field hfails _ _),
      by simp [bertDecodeBigInt, hrun]⟩)

theorem scalar_bignum (large : Bool) {p : Decode F (Result F)} {n : ℕ} {u : σ}
    (hsize : Delivers R s [Wire.size large n] u)
    (hp : run R p s = run R (bertDecodeBignum n : Decode F _) u) :
    Scalar R p (Wire.bignumTag large) s := by
  rcases decodeBignum_cases (F := F) (R := R) n u with
    ⟨sign, magnitude, t, rfl, hle, hdelivers, hrun⟩ |
    ⟨sign, magnitude, code, t, rfl, hle, hbreaks, hrun⟩ | hrun
  · refine .inl ⟨.bignum large sign magnitude, .int (bignumInteger sign magnitude), t, rfl, rfl,
      rfl, if_pos hle, ?_, hp.trans hrun⟩
    exact delivers_cons_split.mpr ⟨u, hsize, hdelivers⟩
  · exact .inr (.inl ⟨code, t,
      .scalar (.bignum large sign magnitude) rfl hle (.later hsize hbreaks), hp.trans hrun⟩)
  · exact .inr (.inl ⟨bertErrnoBignum, u, .refused (.inr rfl), hp.trans hrun⟩)

theorem scalar_smallBignum : Scalar R (bertDecodeSmallBignum : Decode F _) bertSmallBignum s := by
  rcases decodeUint8_cases (F := F) (R := R) s with ⟨i, u, hi, hrun⟩ | ⟨code, t, hfails, hrun⟩
  · have hsize : Wire.size false i.toNat = [i] := by simp [Wire.size, bigEndian]
    exact scalar_bignum s false (hsize ▸ hi) (by simp [bertDecodeSmallBignum, hrun])
  · exact .inr (.inl ⟨code, t, .scalar (.bignum false 0 []) rfl (Nat.zero_le 8) (.field hfails _ _),
      by simp [bertDecodeSmallBignum, hrun]⟩)

theorem scalar_largeBignum : Scalar R (bertDecodeBigBignum : Decode F _) bertLargeBignum s := by
  rcases decodeUint32_cases (F := F) (R := R) s with ⟨i, u, hi, hrun⟩ | ⟨code, t, hfails, hrun⟩
  · exact scalar_bignum s true hi (by simp [bertDecodeBigBignum, hrun])
  · exact .inr (.inl ⟨code, t, .scalar (.bignum true 0 []) rfl (Nat.zero_le 8) (.field hfails _ _),
      by simp [bertDecodeBigBignum, hrun]⟩)

theorem scalar_float : Scalar R (bertDecodeFloat : Decode F _) bertFloat s := by
  rcases decodeBytes_cases (F := F) (R := R) 31 s (by decide) with
    ⟨text, t, hlength, hdelivers, hrun⟩ | ⟨text, code, t, hlength, hbreaks, hrun⟩
  · cases hscan : (Platform.sscanf (text ++ [0]) : Option F) with
    | none =>
        exact .inr (.inl ⟨bertErrnoInvalid, t, .refused (.inl rfl),
          by simp [bertDecodeFloat, hrun, hscan]⟩)
    | some f =>
        refine .inl ⟨.float text, .float f, t, rfl, rfl, rfl, ?_, hdelivers,
          by simp [bertDecodeFloat, hrun, hscan]⟩
        rw [Wire.denote, if_pos hlength, hscan]
        rfl
  · exact .inr (.inl ⟨code, t, .scalar (.float text) rfl hlength hbreaks,
      by simp [bertDecodeFloat, hrun]⟩)

theorem scalar_atom : Scalar R (bertDecodeAtom : Decode F _) bertAtom s := by
  rcases decodeUint16_cases (F := F) (R := R) s with ⟨i, u, hi, hrun⟩ | ⟨code, t, hfails, hrun⟩
  · have hbound : i.toNat < 2 ^ 16 := i.toNat_lt
    rcases decodeText_cases (R := R) (.atom : List UInt8 → Data F) i.toNat (by omega) u with
      ⟨name, t, hlength, hdelivers, hrun'⟩ | ⟨name, code, t, hlength, hbreaks, hrun'⟩
    · refine .inl ⟨.atom name, .atom name, t, rfl, rfl, rfl, ?_,
        delivers_cons_split.mpr ⟨u, hlength ▸ hi, hdelivers⟩, by simp [bertDecodeAtom, hrun, hrun']⟩
      rw [Wire.denote, if_pos (hlength ▸ hbound)]
    · exact .inr (.inl ⟨code, t,
        .scalar (.atom name) rfl (hlength.trans_lt hbound) (.later (hlength ▸ hi) hbreaks),
        by simp [bertDecodeAtom, hrun, hrun']⟩)
  · exact .inr (.inl ⟨code, t, .scalar (.atom []) rfl (by simp [Wire.Sized]) (.field hfails _ _),
      by simp [bertDecodeAtom, hrun]⟩)

theorem scalar_string : Scalar R (bertDecodeString : Decode F _) bertString s := by
  rcases decodeUint16_cases (F := F) (R := R) s with ⟨i, u, hi, hrun⟩ | ⟨code, t, hfails, hrun⟩
  · have hbound : i.toNat < 2 ^ 16 := i.toNat_lt
    rcases decodeText_cases (R := R) (.string : List UInt8 → Data F) i.toNat (by omega) u with
      ⟨text, t, hlength, hdelivers, hrun'⟩ | ⟨text, code, t, hlength, hbreaks, hrun'⟩
    · refine .inl ⟨.string text, .string text, t, rfl, rfl, rfl, ?_,
        delivers_cons_split.mpr ⟨u, hlength ▸ hi, hdelivers⟩,
        by simp [bertDecodeString, hrun, hrun']⟩
      rw [Wire.denote, if_pos (hlength ▸ hbound)]
    · exact .inr (.inl ⟨code, t, .scalar (.string text) rfl (hlength.trans_lt hbound)
        (.later (hlength ▸ hi) hbreaks), by simp [bertDecodeString, hrun, hrun']⟩)
  · exact .inr (.inl ⟨code, t, .scalar (.string []) rfl (by simp [Wire.Sized]) (.field hfails _ _),
      by simp [bertDecodeString, hrun]⟩)

theorem scalar_bin : Scalar R (bertDecodeBin : Decode F _) bertBin s := by
  rcases decodeUint32_cases (F := F) (R := R) s with ⟨i, u, hi, hrun⟩ | ⟨code, t, hfails, hrun⟩
  · by_cases hmax : i.toNat = 2 ^ 32 - 1
    · rw [hmax] at hi
      rcases decodeField_cases (F := F) (R := R) id u 256 with
        ⟨chunk, t, hchunk, hdelivers, -⟩ | ⟨code, t, hfails, hrun'⟩
      · have hlong : Overlong R s t := ⟨chunk, hchunk, delivers_cons_split.mpr ⟨u, hi, hdelivers⟩⟩
        exact .inr (.inr ⟨rfl, t, hlong, hlong.run⟩)
      · refine .inr (.inl ⟨code, t, .overlong (List.replicate 256 0) rfl List.length_replicate
          (.later hi (.here ?_)), ?_⟩)
        · rwa [List.length_replicate]
        · rw [run_decodeBin_max hi, hrun']
          rfl
    have hbound : i.toNat < 2 ^ 32 - 1 := by
      have := i.toNat_lt
      omega
    rw [Scalar, run_decodeBin hbound hi]
    rcases decodeText_cases (R := R) (.bin : List UInt8 → Data F) i.toNat i.toNat_lt u with
      ⟨data, t, hlength, hdelivers, hrun'⟩ | ⟨data, code, t, hlength, hbreaks, hrun'⟩
    · refine .inl ⟨.bin data, .bin data, t, rfl, rfl, rfl, ?_,
        delivers_cons_split.mpr ⟨u, hlength ▸ hi, hdelivers⟩,
        (run_decodeBin hbound hi).trans hrun'⟩
      rw [Wire.denote, if_pos (hlength ▸ hbound)]
    · exact .inr (.inl ⟨code, t, .scalar (.bin data) rfl (hlength.trans_lt hbound)
        (.later (hlength ▸ hi) hbreaks), hrun'⟩)
  · exact .inr (.inl ⟨code, t, .scalar (.bin []) rfl (by simp [Wire.Sized]) (.field hfails _ _),
      by simp [bertDecodeBin, hrun]⟩)

end Scalars

/-! ## Behind the magic byte -/

theorem PullsOnly.along_scalar {α : Type} {p : Decode F α}
    (h : PullsOnly False (.ret (0, none)) 0 p) (hW : W.OnEvents) (s : σ) : Along R W p s :=
  h.along_quiet hW (fun _ ↦ trivial) s

section Magic

variable [Platform F] {pull : Decode F (Result F)} {s t : σ}

theorem run_decodeMagic_opening {o : Opening} (hfits : o.Fits) (h : Delivers R s [o.size] t) :
    run R (decodeMagic pull o.tag) s = run R (o.decode pull) t := by
  cases o with
  | list announced =>
      have hsize : (UInt32.ofNat announced).toNat = announced := by
        rw [UInt32.toNat_ofNat']
        exact Nat.mod_eq_of_lt hfits
      simp [Opening.tag, decodeMagic_list, bertDecodeList, run_decodeUint32 h, hsize,
        Opening.decode]
  | tuple large announced =>
      cases large
      · have hsize : (UInt8.ofNat announced).toNat = announced := by
          rw [UInt8.toNat_ofNat']
          exact Nat.mod_eq_of_lt hfits
        simp [Opening.tag, Wire.tupleTag, decodeMagic_smallTuple, bertDecodeSmallTuple,
          run_decodeUint8 h, hsize, Opening.decode]
      · have hsize : (UInt32.ofNat announced).toNat = announced := by
          rw [UInt32.toNat_ofNat']
          exact Nat.mod_eq_of_lt hfits
        simp [Opening.tag, Wire.tupleTag, decodeMagic_largeTuple, bertDecodeLargeTuple,
          run_decodeUint32 h, hsize, Opening.decode]

theorem along_decodeMagic_opening (hW : W.OnEvents) {o : Opening} (hfits : o.Fits)
    (h : Delivers R s [o.size] t) :
    Along R W (decodeMagic pull o.tag) s ↔ Along R W (o.decode pull) t := by
  cases o with
  | list announced =>
      have hsize : (UInt32.ofNat announced).toNat = announced := by
        rw [UInt32.toNat_ofNat']
        exact Nat.mod_eq_of_lt hfits
      simp [Opening.tag, decodeMagic_list, bertDecodeList, run_decodeUint32 h, hsize,
        Opening.decode, PullsOnly.bertDecodeUint32.along_scalar hW]
  | tuple large announced =>
      cases large
      · have hsize : (UInt8.ofNat announced).toNat = announced := by
          rw [UInt8.toNat_ofNat']
          exact Nat.mod_eq_of_lt hfits
        simp [Opening.tag, Wire.tupleTag, decodeMagic_smallTuple, bertDecodeSmallTuple,
          run_decodeUint8 h, hsize, Opening.decode, PullsOnly.bertDecodeUint8.along_scalar hW]
      · have hsize : (UInt32.ofNat announced).toNat = announced := by
          rw [UInt32.toNat_ofNat']
          exact Nat.mod_eq_of_lt hfits
        simp [Opening.tag, Wire.tupleTag, decodeMagic_largeTuple, bertDecodeLargeTuple,
          run_decodeUint32 h, hsize, Opening.decode, PullsOnly.bertDecodeUint32.along_scalar hW]

/-- A magic byte selects a scalar or a container. -/
theorem decodeMagic_cases (pull : Decode F (Result F)) (hW : W.OnEvents) (tag : UInt8) (s : σ) :
    (Scalar R (decodeMagic pull tag) tag s ∧ Along R W (decodeMagic pull tag) s) ∨
    (∃ o t, Opening.tag o = tag ∧ o.Fits ∧ Delivers R s [o.size] t) := by
  have hscalar {p : Decode F (Result F)} (hp : decodeMagic pull tag = p) (hread : Scalar R p tag s)
      (hquiet : PullsOnly False (.ret (0, none)) 0 p) :
      (Scalar R (decodeMagic pull tag) tag s ∧ Along R W (decodeMagic pull tag) s) ∨
        (∃ o t, Opening.tag o = tag ∧ o.Fits ∧ Delivers R s [o.size] t) :=
    .inl (hp ▸ ⟨hread, hquiet.along_scalar hW s⟩)
  by_cases h : tag = bertNil
  · exact hscalar (h ▸ rfl) (h ▸ scalar_nil s) (.ret _ _)
  by_cases h : tag = bertSmallInt
  · exact hscalar (h ▸ rfl) (h ▸ scalar_smallInt s) PullsOnly.bertDecodeSmallInt
  by_cases h : tag = bertInt
  · exact hscalar (h ▸ rfl) (h ▸ scalar_int s) PullsOnly.bertDecodeBigInt
  by_cases h : tag = bertSmallBignum
  · exact hscalar (h ▸ rfl) (h ▸ scalar_smallBignum s) PullsOnly.bertDecodeSmallBignum
  by_cases h : tag = bertLargeBignum
  · exact hscalar (h ▸ rfl) (h ▸ scalar_largeBignum s) PullsOnly.bertDecodeBigBignum
  by_cases h : tag = bertFloat
  · exact hscalar (h ▸ rfl) (h ▸ scalar_float s) PullsOnly.bertDecodeFloat
  by_cases h : tag = bertAtom
  · exact hscalar (h ▸ rfl) (h ▸ scalar_atom s) PullsOnly.bertDecodeAtom
  by_cases h : tag = bertString
  · exact hscalar (h ▸ rfl) (h ▸ scalar_string s) PullsOnly.bertDecodeString
  by_cases h : tag = bertBin
  · exact hscalar (h ▸ rfl) (h ▸ scalar_bin s) PullsOnly.bertDecodeBin
  by_cases h : tag = bertSmallTuple
  · subst h
    rcases decodeUint8_cases (F := F) (R := R) s with ⟨i, t, hi, -⟩ | ⟨code, t, hfails, hrun⟩
    · refine .inr ⟨.tuple false i.toNat, t, rfl, i.toNat_lt, ?_⟩
      have hsize : Wire.size false i.toNat = [i] := by simp [Wire.size, bigEndian]
      rwa [Opening.size, hsize]
    · refine .inl ⟨.inr (.inl ⟨code, t, .header (.tuple false 0) rfl (.field hfails _ _), ?_⟩), ?_⟩
      · simp [decodeMagic_smallTuple, bertDecodeSmallTuple, hrun]
      · simp [decodeMagic_smallTuple, bertDecodeSmallTuple, hrun,
          PullsOnly.bertDecodeUint8.along_scalar hW]
  by_cases h : tag = bertLargeTuple
  · subst h
    rcases decodeUint32_cases (F := F) (R := R) s with ⟨i, t, hi, -⟩ | ⟨code, t, hfails, hrun⟩
    · exact .inr ⟨.tuple true i.toNat, t, rfl, i.toNat_lt, hi⟩
    · refine .inl ⟨.inr (.inl ⟨code, t, .header (.tuple true 0) rfl (.field hfails _ _), ?_⟩), ?_⟩
      · simp [decodeMagic_largeTuple, bertDecodeLargeTuple, hrun]
      · simp [decodeMagic_largeTuple, bertDecodeLargeTuple, hrun,
          PullsOnly.bertDecodeUint32.along_scalar hW]
  by_cases h : tag = bertList
  · subst h
    rcases decodeUint32_cases (F := F) (R := R) s with ⟨i, t, hi, -⟩ | ⟨code, t, hfails, hrun⟩
    · exact .inr ⟨.list i.toNat, t, rfl, i.toNat_lt, hi⟩
    · refine .inl ⟨.inr (.inl ⟨code, t, .header (.list 0) rfl (.field hfails _ _), ?_⟩), ?_⟩
      · simp [decodeMagic_list, bertDecodeList, hrun]
      · simp [decodeMagic_list, bertDecodeList, hrun,
          PullsOnly.bertDecodeUint32.along_scalar hW]
  have hinvalid : decodeMagic pull tag = .ret (bertErrnoInvalid, none) := by
    simp only [decodeMagic, *, if_false]
    rfl
  exact hscalar hinvalid (.inr (.inl ⟨bertErrnoInvalid, s, .refused (.inl rfl), rfl⟩)) (.ret _ _)

/-! ## One pull -/

/-- The reader delivers the header of a container, marked or not. -/
def Opened (R : BertReader σ) (s : σ) (o : Opening) (t : σ) : Prop :=
  o.Fits ∧ (Delivers R s [[o.tag], o.size] t ∨ Delivers R s [[bertMagic], [o.tag], o.size] t)

theorem along_pullBody_tag (hW : W.OnEvents) {tag : UInt8} (h : Delivers R s [[tag]] t)
    (htag : tag ≠ bertMagic) :
    Along R W (pullBody pull) s ↔ Along R W (decodeMagic pull tag) t := by
  obtain ⟨s', hread, hmagic⟩ := read_then_decodeMagic (F := F) h
  simp only [pullBody, along_read, hread, ↓reduceIte, along_bind, hmagic]
  constructor
  · rintro ⟨-, -, hrest⟩
    have := hrest _ _ rfl
    dsimp only at this
    rw [if_neg htag, along_bind] at this
    exact this.1
  · intro halong
    refine ⟨hW.read s 1, PullsOnly.bertDecodeMagic.along_scalar hW s', ?_⟩
    rintro _ _ ⟨⟩
    dsimp only
    rw [if_neg htag, along_bind]
    exact ⟨halong, fun _ _ _ ↦ trivial⟩

theorem along_pullBody_marked (hW : W.OnEvents) {tag : UInt8}
    (h : Delivers R s [[bertMagic], [tag]] t) :
    Along R W (pullBody pull) s ↔ Along R W (decodeMagic pull tag) t := by
  obtain ⟨u, hfirst, hsecond⟩ := delivers_cons_split.mp h
  obtain ⟨s', hread, hmagic⟩ := read_then_decodeMagic (F := F) hfirst
  simp only [pullBody, along_read, hread, ↓reduceIte, along_bind, hmagic]
  constructor
  · rintro ⟨-, -, hrest⟩
    have := hrest _ _ rfl
    dsimp only at this
    rw [if_pos rfl, along_bind, run_bertDecodeMagic hsecond] at this
    have := this.2 _ _ rfl
    dsimp only at this
    rw [along_bind] at this
    exact this.1
  · intro halong
    refine ⟨hW.read s 1, PullsOnly.bertDecodeMagic.along_scalar hW s', ?_⟩
    rintro _ _ ⟨⟩
    dsimp only
    rw [if_pos rfl, along_bind, run_bertDecodeMagic hsecond]
    refine ⟨PullsOnly.bertDecodeMagic.along_scalar hW u, ?_⟩
    rintro _ _ ⟨⟩
    dsimp only
    rw [along_bind]
    exact ⟨halong, fun _ _ _ ↦ trivial⟩

theorem Opening.tag_ne_magic (o : Opening) : o.tag ≠ bertMagic := by
  cases o with
  | tuple large announced => exact Wire.tag_ne_magic (w := .tuple large announced []) rfl
  | list announced => exact Wire.tag_ne_magic (w := .list announced [] 0) rfl

theorem Opened.run_pullBody {o : Opening} (h : Opened R s o t) (pull : Decode F (Result F)) :
    run R (pullBody pull) s =
      (run R (o.decode pull) t).bind fun r u ↦ .done (pullResult r) u := by
  obtain ⟨hfits, hplain | hmarked⟩ := h
  · obtain ⟨u, htag, hsize⟩ := delivers_cons_split.mp hplain
    rw [run_pullBody_tag htag o.tag_ne_magic, run_decodeMagic_opening hfits hsize]
  · obtain ⟨u, htags, hsize⟩ := delivers_append_iff.mp
      (show Delivers R s ([[bertMagic], [o.tag]] ++ [o.size]) t from hmarked)
    rw [run_pullBody_marked htags, run_decodeMagic_opening hfits hsize]

theorem Opened.along_pullBody (hW : W.OnEvents) {o : Opening} (h : Opened R s o t)
    (pull : Decode F (Result F)) :
    Along R W (pullBody pull) s ↔ Along R W (o.decode pull) t := by
  obtain ⟨hfits, hplain | hmarked⟩ := h
  · obtain ⟨u, htag, hsize⟩ := delivers_cons_split.mp hplain
    rw [along_pullBody_tag hW htag o.tag_ne_magic, along_decodeMagic_opening hW hfits hsize]
  · obtain ⟨u, htags, hsize⟩ := delivers_append_iff.mp
      (show Delivers R s ([[bertMagic], [o.tag]] ++ [o.size]) t from hmarked)
    rw [along_pullBody_marked hW htags, along_decodeMagic_opening hW hfits hsize]

/-- The reader delivers a magic byte, marked or not. -/
def Tagged (R : BertReader σ) (s : σ) (tag : UInt8) (t : σ) : Prop :=
  tag ≠ bertMagic ∧ Delivers R s [[tag]] t ∨ Delivers R s [[bertMagic], [tag]] t

theorem run_pullBody_overlong {u : σ} (htag : Tagged R s bertBin t) (hlong : Overlong R t u)
    (pull : Decode F (Result F)) : run R (pullBody pull) s = .fault u := by
  have hmagic : run R (decodeMagic pull bertBin) t = .fault u := by
    rw [decodeMagic_bin, hlong.run]
  rcases htag with ⟨htag, hdelivers⟩ | hdelivers
  · rw [run_pullBody_tag hdelivers htag, hmagic, Outcome.bind_fault]
  · rw [run_pullBody_marked hdelivers, hmagic, Outcome.bind_fault]

/-- A pull meets a watch of its events where the function its magic byte selects
does. -/
theorem along_pullBody_of (hW : W.OnEvents) (pull : Decode F (Result F)) (s : σ)
    (h : ∀ tag t, Tagged R s tag t → Along R W (decodeMagic pull tag) t) :
    Along R W (pullBody pull) s := by
  rcases R.read_cases s 1 with ⟨s', hread⟩ | ⟨code, s', hcode, hread⟩
  · obtain ⟨tag, htag⟩ : ∃ tag, R.peek s' 1 = [tag] :=
      List.length_eq_one_iff.mp (R.peek_length s 1 s' hread)
    have hfirst : Delivers R s [[tag]] (R.step s' 1) := .cons hread htag (.nil _)
    by_cases hmagic : tag = bertMagic
    · subst hmagic
      rcases decodeField_cases (F := F) (R := R) bertReadMagic (R.step s' 1) 1 with
        ⟨chunk, u, hchunk, hsecond, -⟩ | ⟨code, u, -, hrun⟩
      · obtain ⟨tag, rfl⟩ := List.length_eq_one_iff.mp hchunk
        have hboth := delivers_cons_split.mpr ⟨_, hfirst, hsecond⟩
        exact (along_pullBody_marked hW hboth).mpr (h tag u (.inr hboth))
      · have hmark := run_bertDecodeMagic (F := F) ((delivers_after_read rfl hread).mpr hfirst)
        have hquiet (v : σ) : Along R W bertDecodeMagic v :=
          PullsOnly.bertDecodeMagic.along_scalar hW v
        simp only [pullBody, along_read, hread, ↓reduceIte, along_bind, hmark]
        refine ⟨hW.read s 1, hquiet s', ?_⟩
        rintro _ _ ⟨⟩
        dsimp only
        rw [if_pos rfl, along_bind]
        refine ⟨hquiet _, ?_⟩
        rw [bertDecodeMagic, hrun]
        rintro _ _ ⟨⟩
        trivial
    · exact (along_pullBody_tag hW hfirst hmagic).mpr (h tag _ (.inl ⟨hmagic, hfirst⟩))
  · rw [pullBody, along_read, hread]
    refine ⟨hW.read s 1, ?_⟩
    rcases hcode with rfl | rfl | rfl | rfl <;> trivial

/-- Why a pull that enters no container fails. -/
inductive Stops (R : BertReader σ) (code : Code) (s : σ) : Prop
  | untagged (h : Untagged R code s)
  | fault {tag : UInt8} {t : σ} (htag : Tagged R s tag t) (h : Fault R code tag t)

theorem Stops.neg {code : Code} (h : Stops R code s) : code < 0 := by
  cases h with
  | untagged h => exact h.neg
  | fault htag h => exact h.neg

/-- What a pull outside containers does. -/
inductive Plain (R : BertReader σ) (p : Decode F (Result F)) (s : σ) : Prop
  | empty (t : σ) (hread : R.read s 1 = (bertErrnoEmpty, t))
      (hrun : run R p s = .done ((0, none) : Result F) t)
  | fail (code : Code) (t : σ) (hstops : Stops R code s)
      (hrun : run R p s = .done ((code, none) : Result F) t)
  | scalar (w : Wire) (d : Data F) (t : σ) (hdenote : w.denote = some d)
      (hleaf : w.unmark.elements = []) (hdelivers : Delivers R s w.chunks t)
      (hrun : run R p s = .done ((1, some d) : Result F) t)
  | overlong {t : σ} (u : σ) (htag : Tagged R s bertBin t) (hlong : Overlong R t u)
      (hrun : run R p s = .fault u)

/-- A pull finds nothing left, fails, reads a scalar, overruns the block of a binary or
enters a container; only in a container does it use a pointer or make a nested pull. -/
theorem pullBody_classes (pull : Decode F (Result F)) (hW : W.OnEvents) (s : σ) :
    Plain R (pullBody pull) s ∧ Along R W (pullBody pull) s ∨ ∃ o t, Opened R s o t := by
  by_cases hopened : ∃ o t, Opened R s o t
  · exact .inr hopened
  have hscalar {tag : UInt8} {t : σ} (htag : Tagged R s tag t) :
      Scalar R (decodeMagic pull tag) tag t ∧ Along R W (decodeMagic pull tag) t := by
    rcases decodeMagic_cases (R := R) pull hW tag t with hscalar | ⟨o, u, rfl, hfits, hsize⟩
    · exact hscalar
    · refine absurd ⟨o, u, hfits, ?_⟩ hopened
      rcases htag with ⟨-, htag⟩ | htag
      · exact .inl (delivers_cons_split.mpr ⟨t, htag, hsize⟩)
      · exact .inr (delivers_append_iff.mpr ⟨t, htag, hsize⟩)
  refine .inl ⟨?_, along_pullBody_of hW pull s fun tag t htag ↦ (hscalar htag).2⟩
  rcases pullBody_cases (R := R) pull s with
    ⟨t, hread, hrun⟩ | ⟨code, huntagged⟩ | ⟨tag, t, htag, hrun⟩
  · exact .empty t hread hrun
  · obtain ⟨t, hrun⟩ := huntagged.run_pullBody pull
    exact .fail code t (.untagged huntagged) hrun
  · rcases (hscalar htag).1 with
      ⟨w, d, u, hscalar⟩ | ⟨code, u, hfault, hrun'⟩ | ⟨rfl, u, hlong, hrun'⟩
    · obtain ⟨rfl, hunmarked, hleaf, hdenote, hbody, hrun'⟩ := hscalar
      rw [hrun'] at hrun
      rcases htag with ⟨-, htag⟩ | htag
      · refine .scalar w d u hdenote ?_ ?_ hrun
        · cases w <;> first | exact hleaf | simp [Wire.isMarked] at hunmarked
        · rw [Wire.chunks_eq]
          exact delivers_cons_split.mpr ⟨t, htag, hbody⟩
      · refine .scalar (.marked w) d u ?_ hleaf ?_ hrun
        · rw [Wire.denote_marked_of hunmarked, hdenote]
        · rw [Wire.chunks, Wire.chunks_eq]
          exact delivers_append_iff.mpr ⟨t, htag, hbody⟩
    · rw [hrun'] at hrun
      refine .fail code u (.fault htag hfault) ?_
      rw [hrun, Outcome.bind_done, pullResult_of_neg hfault.neg]
    · rw [hrun'] at hrun
      exact .overlong u htag hlong hrun

/-! ## Failing requests -/

theorem Breaks.field_cases {code : Code} {width n : ℕ} {chunks : List (List UInt8)}
    (h : Breaks R code s (bigEndian width n :: chunks)) :
    Fails R code s width ∨ ∃ u, Delivers R s [bigEndian width n] u ∧ Breaks R code u chunks := by
  cases h with
  | here hfails => exact .inl (by rwa [length_bigEndian] at hfails)
  | later hfield hbreaks => exact .inr ⟨_, hfield, hbreaks⟩

omit [Platform F] in
theorem run_text16_of_breaks (create : List UInt8 → Data F) {text : List UInt8} {code : Code}
    (hlength : text.length < 2 ^ 16)
    (h : Breaks R code s (bigEndian 2 text.length :: pieces text)) :
    ∃ t, run R (do
        match ← bertDecodeUint16 with
        | .error result => return (result, none)
        | .ok size => decodeText create size.toNat) s = .done ((code, none) : Result F) t := by
  rcases h.field_cases with hfails | ⟨u, hfield, hbreaks⟩
  · obtain ⟨t, hrun⟩ := run_decodeUint16_of_fails (F := F) hfails
    exact ⟨t, by simp [hrun]⟩
  · have hsize : (UInt16.ofNat text.length).toNat = text.length := by
      rw [UInt16.toNat_ofNat']
      exact Nat.mod_eq_of_lt hlength
    obtain ⟨t, hrun⟩ := run_decodeText_of_breaks create (by omega) hbreaks
    exact ⟨t, by simp [run_decodeUint16 hfield, hsize, hrun]⟩

/-- The decode function of a scalar returns the code of the request that fails. -/
theorem run_decodeMagic_of_breaks (pull : Decode F (Result F)) {w : Wire} {code : Code}
    (hsized : w.Sized) (h : Breaks R code s w.body) :
    ∃ t, run R (decodeMagic pull w.tag) s = .done ((code, none) : Result F) t := by
  cases w with
  | marked term => exact hsized.elim
  | tuple large announced elements => exact hsized.elim
  | list announced elements tail => exact hsized.elim
  | nil => cases h
  | smallInt i =>
      rcases (show Breaks R code s [[i]] from h) with hfails | ⟨-, ⟨⟩⟩
      obtain ⟨t, hrun⟩ := run_decodeUint8_of_fails (F := F) hfails
      exact ⟨t, by simp [Wire.tag, decodeMagic_smallInt, bertDecodeSmallInt, hrun]⟩
  | int i =>
      rcases Breaks.field_cases h with hfails | ⟨u, -, ⟨⟩⟩
      obtain ⟨t, hrun⟩ := run_decodeUint32_of_fails (F := F) hfails
      exact ⟨t, by simp [Wire.tag, decodeMagic_int, bertDecodeBigInt, hrun]⟩
  | float text =>
      have hlength : text.length = 31 := hsized
      have hbreaks : Breaks R code s (pieces text) := h
      obtain ⟨t, hrun⟩ := run_decodeBytes_of_breaks (F := F) (by omega) hbreaks
      rw [hlength] at hrun
      exact ⟨t, by simp [Wire.tag, decodeMagic_float, bertDecodeFloat, hrun]⟩
  | atom name => exact run_text16_of_breaks .atom hsized h
  | string text => exact run_text16_of_breaks .string hsized h
  | bin data =>
      rcases Breaks.field_cases h with hfails | ⟨u, hfield, hbreaks⟩
      · obtain ⟨t, hrun⟩ := run_decodeUint32_of_fails (F := F) hfails
        exact ⟨t, by simp [Wire.tag, decodeMagic_bin, bertDecodeBin, hrun]⟩
      · have hlength : data.length < 2 ^ 32 - 1 := hsized
        obtain ⟨t, hrun⟩ :=
          run_decodeText_of_breaks (.bin : List UInt8 → Data F) (by omega) hbreaks
        exact ⟨t, by rw [Wire.tag, decodeMagic_bin, run_decodeBin hlength hfield, hrun]⟩
  | bignum large sign magnitude =>
      have hlength : magnitude.length ≤ 8 := hsized
      rcases Breaks.field_cases h with hfails | ⟨u, hfield, hbreaks⟩
      · cases large
        · obtain ⟨t, hrun⟩ := run_decodeUint8_of_fails (F := F) hfails
          exact ⟨t, by simp [Wire.tag, Wire.bignumTag, decodeMagic_smallBignum,
            bertDecodeSmallBignum, hrun]⟩
        · obtain ⟨t, hrun⟩ := run_decodeUint32_of_fails (F := F) hfails
          exact ⟨t, by simp [Wire.tag, Wire.bignumTag, decodeMagic_largeBignum,
            bertDecodeBigBignum, hrun]⟩
      · have hfits : magnitude.length < if large then 2 ^ 32 else 2 ^ 8 := by
          split_ifs <;> omega
        obtain ⟨t, hrun⟩ := run_decodeBignum_of_breaks (F := F) hlength hbreaks
        exact ⟨t, by rw [Wire.tag, run_decodeMagic_bignum hfits hfield, hrun]⟩

/-- So does that of a binary whose block is too short. -/
theorem run_decodeMagic_overlong_of_breaks (pull : Decode F (Result F)) {chunk : List UInt8}
    {code : Code} (hlength : chunk.length = 256)
    (h : Breaks R code s [bigEndian 4 (2 ^ 32 - 1), chunk]) :
    ∃ t, run R (decodeMagic pull bertBin) s = .done ((code, none) : Result F) t := by
  rw [decodeMagic_bin]
  rcases Breaks.field_cases h with hfails | ⟨u, hfield, hbreaks⟩
  · obtain ⟨t, hrun⟩ := run_decodeUint32_of_fails (F := F) hfails
    exact ⟨t, by simp [bertDecodeBin, hrun]⟩
  · cases hbreaks with
    | here hfails =>
        obtain ⟨t, hrun⟩ := run_decodeField_of_fails (F := F) id (hlength ▸ hfails)
        exact ⟨t, by rw [run_decodeBin_max hfield, hrun]; rfl⟩
    | later _ hnone => cases hnone

theorem run_decodeMagic_header_of_breaks (pull : Decode F (Result F)) (o : Opening) {code : Code}
    (h : Breaks R code s [o.size]) :
    ∃ t, run R (decodeMagic pull o.tag) s = .done ((code, none) : Result F) t := by
  cases o with
  | list announced =>
      rcases Breaks.field_cases h with hfails | ⟨u, -, ⟨⟩⟩
      obtain ⟨t, hrun⟩ := run_decodeUint32_of_fails (F := F) hfails
      exact ⟨t, by simp [Opening.tag, decodeMagic_list, bertDecodeList, hrun]⟩
  | tuple large announced =>
      cases large
      · rcases Breaks.field_cases h with hfails | ⟨u, -, ⟨⟩⟩
        obtain ⟨t, hrun⟩ := run_decodeUint8_of_fails (F := F) hfails
        exact ⟨t, by simp [Opening.tag, Wire.tupleTag, decodeMagic_smallTuple,
          bertDecodeSmallTuple, hrun]⟩
      · rcases Breaks.field_cases h with hfails | ⟨u, -, ⟨⟩⟩
        obtain ⟨t, hrun⟩ := run_decodeUint32_of_fails (F := F) hfails
        exact ⟨t, by simp [Opening.tag, Wire.tupleTag, decodeMagic_largeTuple,
          bertDecodeLargeTuple, hrun]⟩

/-- A pull that is stopped by a short read returns it. -/
theorem Stops.run_pullBody (h : Stops R bertErrnoShortRead s) (pull : Decode F (Result F)) :
    ∃ t, run R (LibBert.pullBody pull) s = .done ((bertErrnoShortRead, none) : Result F) t := by
  have hneg : bertErrnoShortRead < 0 := by decide
  cases h with
  | untagged h => exact h.run_pullBody pull
  | @fault tag t htag h =>
      obtain ⟨u, hrun⟩ : ∃ u, run R (decodeMagic pull tag) t =
          .done ((bertErrnoShortRead, none) : Result F) u := by
        rcases h with ⟨w, rfl, hsized, hbreaks⟩ | ⟨chunk, rfl, hlength, hbreaks⟩ |
          ⟨o, rfl, hbreaks⟩ | hcode
        · exact run_decodeMagic_of_breaks pull hsized hbreaks
        · exact run_decodeMagic_overlong_of_breaks pull hlength hbreaks
        · exact run_decodeMagic_header_of_breaks pull o hbreaks
        · exact absurd hcode (by decide)
      refine ⟨u, ?_⟩
      rcases htag with ⟨htag, hdelivers⟩ | hdelivers
      · rw [run_pullBody_tag hdelivers htag, hrun, Outcome.bind_done, pullResult_of_neg hneg]
      · rw [run_pullBody_marked hdelivers, hrun, Outcome.bind_done, pullResult_of_neg hneg]

/-! ## Behind the last element -/

/-- Elements standing for `ds` followed by what closes the container stand for
`d`. -/
def Opening.Closes (R : BertReader σ) (o : Opening) (ds : List (Data F)) (s : σ) (d : Data F)
    (t : σ) : Prop :=
  match o with
  | .tuple _ announced => denoteTuple announced ds = some d ∧ s = t
  | .list announced =>
      ds.length = announced ∧ d = .list ds ∧ ∃ tail, Delivers R s [[tail]] t

/-- The header, the elements and what closes the container are a wire term. -/
theorem Opened.exists_wire {u v : σ} {o : Opening} {ws : List Wire} {ds : List (Data F)}
    {d : Data F}
    (h : Opened R s o t) (hws : Delivers R t (Wire.chunksList ws) u)
    (hds : Wire.denoteList ws = some ds) (hcloses : o.Closes R ds u d v) :
    ∃ w, Wire.denote w = some d ∧ Delivers R s w.chunks v := by
  obtain ⟨w, hunmarked, hdenote, hchunks⟩ : ∃ w, Wire.isMarked w = false ∧ w.denote = some d ∧
      ∀ s, Delivers R s [[o.tag], o.size] t → Delivers R s w.chunks v := by
    cases o with
    | tuple large announced =>
        obtain ⟨hdenote, rfl⟩ := hcloses
        refine ⟨.tuple large announced ws, rfl, ?_, fun s hopening ↦ ?_⟩
        · have hfits : announced < if large then 2 ^ 32 else 2 ^ 8 := h.1
          rw [Wire.denote, if_pos hfits, hds]
          exact hdenote
        · rw [Wire.chunks]
          exact delivers_append_iff.mpr ⟨t, hopening, hws⟩
    | list announced =>
        obtain ⟨hlength, rfl, tail, htail⟩ := hcloses
        refine ⟨.list announced ws tail, rfl, ?_, fun s hopening ↦ ?_⟩
        · rw [Wire.denote, if_pos ⟨(Wire.length_of_denoteList hds).trans hlength, h.1⟩, hds]
          rfl
        · rw [Wire.chunks]
          exact delivers_append_iff.mpr ⟨t, hopening, delivers_append_iff.mpr ⟨u, hws, htail⟩⟩
  obtain ⟨-, hopening | hopening⟩ := h
  · exact ⟨w, hdenote, hchunks s hopening⟩
  · obtain ⟨s', hmark, hopening⟩ := delivers_cons_split.mp hopening
    refine ⟨.marked w, (Wire.denote_marked_of hunmarked).trans hdenote, ?_⟩
    rw [Wire.chunks]
    exact delivers_cons_split.mpr ⟨s', hmark, hchunks s' hopening⟩

/-- Behind the last element a container is closed, fails, or follows a `NULL`
slot of a regex option. -/
theorem finish_cases (o : Opening) {ds : List (Data F)} (s : σ)
    (hlength : ∀ announced, o = .list announced → ds.length = announced) :
    (∃ d t, o.Closes R ds s d t ∧
      run R (o.finish ds) s = .done ((bertSuccess, some d) : Result F) t) ∨
    (∃ code t, code < 0 ∧ run R (o.finish ds) s = .done ((code, none) : Result F) t) ∨
    (run R (o.finish ds) s = .stuck s ∧ nullOption ds) := by
  cases o with
  | tuple large announced =>
      simp only [Opening.finish]
      cases hdenote : denoteTuple announced ds with
      | some d => exact .inl ⟨d, s, ⟨hdenote, rfl⟩, rfl⟩
      | none =>
          dsimp only
          split_ifs with hnull
          · exact .inr (.inr ⟨rfl, hnull⟩)
          · exact .inr (.inl ⟨bertErrnoInvalid, s, by decide, rfl⟩)
  | list announced =>
      rcases R.read_cases s 1 with ⟨s', hread⟩ | ⟨code, s', hcode, hread⟩
      · obtain ⟨tail, htail⟩ : ∃ tail, R.peek s' 1 = [tail] :=
          List.length_eq_one_iff.mp (R.peek_length s 1 s' hread)
        refine .inl ⟨.list ds, R.step s' 1, ⟨hlength announced rfl, rfl, tail, ?_⟩, ?_⟩
        · exact .cons hread htail (.nil _)
        · simp [Opening.finish, run_decoderRead_ok hread]
      · refine .inr (.inl ⟨readError code, s', readError_neg hcode, ?_⟩)
        simp [Opening.finish, run_decoderRead_error hread hcode]

theorem along_finish (hW : W.OnEvents) (o : Opening) {ds : List (Data F)} (hnull : ¬ nullOption ds)
    (s : σ) : Along R W (o.finish ds) s := by
  have hquiet : PullsOnly False (.ret (0, none)) 0 (o.finish ds) := by
    cases o with
    | tuple large announced =>
        simp only [Opening.finish]
        split
        · exact .ret _ _
        · rw [if_neg hnull]
          exact .ret _ _
    | list announced =>
        exact PullsOnly.decoderRead (by decide) (.step (Nat.le_refl 1) (.ret _ _)) fun _ ↦ .ret 0 _
  exact hquiet.along_scalar hW s

end Magic

end LibBert
