import LibBert.Wire.Grammar

/-!
# The decoder reads every wire term

Whenever a reader delivers the bytes of a term that stands for something, a
pull returns 1 and stores it.  The induction is on the term; nested pulls are
replaced by a program that is right about the elements.
-/

namespace LibBert

open Reading Bytes

variable {F σ : Type} [Platform F] {R : BertReader σ}

namespace Wire

/-- The magic byte of a term. -/
def tag : Wire → UInt8
  | .marked _ => bertMagic
  | .nil => bertNil
  | .smallInt _ => bertSmallInt
  | .int _ => bertInt
  | .bignum large _ _ => bignumTag large
  | .float _ => bertFloat
  | .atom _ => bertAtom
  | .string _ => bertString
  | .bin _ => bertBin
  | .tuple large _ _ => tupleTag large
  | .list _ _ _ => bertList

/-- The chunks behind the magic byte. -/
def body (w : Wire) : List (List UInt8) := w.chunks.tail

theorem chunks_eq (w : Wire) : w.chunks = [w.tag] :: w.body := by
  cases w <;> rfl

def isMarked : Wire → Bool
  | .marked _ => true
  | _ => false

theorem tag_ne_magic {w : Wire} (h : w.isMarked = false) : w.tag ≠ bertMagic := by
  cases w with
  | marked term => simp [isMarked] at h
  | bignum large _ _ => cases large <;> simp [tag, bignumTag] <;> decide
  | tuple large _ _ => cases large <;> simp [tag, tupleTag] <;> decide
  | _ => simp only [tag]; decide

theorem denote_marked {term : Wire} {d : Data F} (h : denote (.marked term) = some d) :
    term.isMarked = false ∧ denote term = some d := by
  cases term <;> simp_all [denote, isMarked]

theorem denote_marked_of {term : Wire} (h : term.isMarked = false) :
    (denote (.marked term) : Option (Data F)) = denote term := by
  cases term <;> first | rfl | simp [isMarked] at h

theorem denoteList_cons_eq_some_iff {w : Wire} {ws : List Wire} {ds : List (Data F)} :
    denoteList (w :: ws) = some ds ↔
      ∃ d ds', denote w = some d ∧ denoteList ws = some ds' ∧ ds = d :: ds' := by
  simp only [denoteList, Option.bind_eq_some_iff, Option.map_eq_some_iff]
  constructor
  · rintro ⟨d, hd, ds', hds, rfl⟩
    exact ⟨d, ds', hd, hds, rfl⟩
  · rintro ⟨d, ds', hd, hds, rfl⟩
    exact ⟨d, hd, ds', hds, rfl⟩

theorem denoteList_nil_eq_some_iff {ds : List (Data F)} : denoteList [] = some ds ↔ ds = [] := by
  simp [denoteList, eq_comm]

theorem denoteList_eq_cons {ws : List Wire} {d : Data F} {ds : List (Data F)}
    (h : denoteList ws = some (d :: ds)) :
    ∃ w vs, ws = w :: vs ∧ w.denote = some d ∧ denoteList vs = some ds := by
  cases ws with
  | nil => cases h
  | cons w vs =>
      obtain ⟨e, es, he, hes, ⟨⟩⟩ := denoteList_cons_eq_some_iff.mp h
      exact ⟨w, vs, rfl, he, hes⟩

theorem length_of_denoteList {ws : List Wire} {ds : List (Data F)}
    (h : denoteList ws = some ds) : ws.length = ds.length := by
  induction ws generalizing ds with
  | nil => rw [denoteList_nil_eq_some_iff.mp h]; rfl
  | cons w ws ih =>
      obtain ⟨d, ds', -, hds, rfl⟩ := denoteList_cons_eq_some_iff.mp h
      simp [ih hds]

theorem chunksList_append (ws vs : List Wire) :
    chunksList (ws ++ vs) = chunksList ws ++ chunksList vs := by
  induction ws with
  | nil => rfl
  | cons w ws ih => rw [List.cons_append, chunksList, chunksList, ih, List.append_assoc]

theorem delivers_chunksList_cons {w : Wire} {ws : List Wire} {s t : σ} :
    Delivers R s (chunksList (w :: ws)) t ↔
      ∃ u, Delivers R s w.chunks u ∧ Delivers R u (chunksList ws) t := by
  rw [chunksList, delivers_append_iff]

theorem delivers_denoteList_cons {w : Wire} {ws : List Wire} {d : Data F} {ds : List (Data F)}
    {s t u : σ} (hw : Delivers R s w.chunks u) (hdenote : w.denote = some d)
    (hws : Delivers R u (chunksList ws) t) (hds : denoteList ws = some ds) :
    Delivers R s (chunksList (w :: ws)) t ∧ denoteList (w :: ws) = some (d :: ds) :=
  ⟨delivers_chunksList_cons.mpr ⟨u, hw, hws⟩,
    denoteList_cons_eq_some_iff.mpr ⟨d, ds, hdenote, hds, rfl⟩⟩

end Wire

/-! ## The magic byte selects the decode function -/

section Magic

variable (pull : Decode F (Result F))

theorem decodeMagic_smallInt : decodeMagic pull bertSmallInt = bertDecodeSmallInt := rfl
theorem decodeMagic_int : decodeMagic pull bertInt = bertDecodeBigInt := rfl
theorem decodeMagic_smallBignum :
    decodeMagic pull bertSmallBignum = bertDecodeSmallBignum := rfl
theorem decodeMagic_largeBignum :
    decodeMagic pull bertLargeBignum = bertDecodeBigBignum := rfl
theorem decodeMagic_float : decodeMagic pull bertFloat = bertDecodeFloat := rfl
theorem decodeMagic_atom : decodeMagic pull bertAtom = bertDecodeAtom := rfl
theorem decodeMagic_string : decodeMagic pull bertString = bertDecodeString := rfl
theorem decodeMagic_bin : decodeMagic pull bertBin = bertDecodeBin := rfl
theorem decodeMagic_smallTuple :
    decodeMagic pull bertSmallTuple = bertDecodeSmallTuple pull := rfl
theorem decodeMagic_largeTuple :
    decodeMagic pull bertLargeTuple = bertDecodeLargeTuple pull := rfl
theorem decodeMagic_list : decodeMagic pull bertList = bertDecodeList pull := rfl

end Magic

/-- Behind either bignum tag and its size field the bignum is decoded. -/
theorem run_decodeMagic_bignum {pull : Decode F (Result F)} {large : Bool} {n : ℕ} {s t : σ}
    (hn : n < if large then 2 ^ 32 else 2 ^ 8) (h : Delivers R s [Wire.size large n] t) :
    run R (decodeMagic pull (Wire.bignumTag large)) s =
      run R (bertDecodeBignum n : Decode F _) t := by
  cases large
  · have hsize : (UInt8.ofNat n).toNat = n := by
      rw [UInt8.toNat_ofNat']
      exact Nat.mod_eq_of_lt hn
    simp [Wire.bignumTag, decodeMagic_smallBignum, bertDecodeSmallBignum, run_decodeUint8 h, hsize]
  · have hsize : (UInt32.ofNat n).toNat = n := by
      rw [UInt32.toNat_ofNat']
      exact Nat.mod_eq_of_lt hn
    simp [Wire.bignumTag, decodeMagic_largeBignum, bertDecodeBigBignum, run_decodeUint32 h, hsize]

/-! ## Successive pulls -/

/-- Successive runs of a program return 1 with these terms. -/
inductive Yields (R : BertReader σ) (pull : Decode F (Result F)) :
    σ → List (Data F) → σ → Prop
  | nil (s : σ) : Yields R pull s [] s
  | cons {s u t : σ} {d : Data F} {ds : List (Data F)}
      (hpull : run R pull s = .done (1, some d) u) (hrest : Yields R pull u ds t) :
      Yields R pull s (d :: ds) t

section Yields

omit [Platform F]

variable {pull : Decode F (Result F)} {s t u : σ} {d : Data F} {ds : List (Data F)}

theorem yields_nil_iff : Yields R pull s [] t ↔ s = t :=
  ⟨fun h ↦ by cases h; rfl, fun h ↦ h ▸ .nil s⟩

theorem yields_cons_iff :
    Yields R pull s (d :: ds) t ↔
      ∃ u, run R pull s = .done (1, some d) u ∧ Yields R pull u ds t := by
  constructor
  · rintro (_ | ⟨hpull, hrest⟩)
    exact ⟨_, hpull, hrest⟩
  · rintro ⟨u, hpull, hrest⟩
    exact .cons hpull hrest

theorem runs_of_yields (h : Yields R pull s ds t) (n : ℕ) :
    runs R (fun _ ↦ ()) pull (ds.length + n) s =
      ds.map (fun d ↦ .done (1, some d) ()) ++ runs R (fun _ ↦ ()) pull n t := by
  induction h with
  | nil s => simp
  | @cons s u t d ds hpull hrest ih =>
      rw [List.length_cons, Nat.add_right_comm, runs, hpull]
      exact congrArg _ ih

theorem run_pullPart (next : Data F → Decode F (Result F))
    (h : run R pull s = .done (1, some d) u) :
    run R (pullPart pull next) s = run R (next d) u := by
  simp [pullPart, h]

theorem run_pullTimePart (next : Data F → Decode F (Result F))
    (h : run R pull s = .done (1, some d) u) :
    run R (pullTimePart pull next) s = run R (next d) u := by
  simp [pullTimePart, h]

/-- The tuple loop fills as many slots as pulls return terms. -/
theorem run_decodeTupleLoop (h : Yields R pull s ds t) (n : ℕ)
    (slots : List (Option (Data F))) :
    run R (decodeTupleLoop pull (ds.length + n) slots) s =
      run R (decodeTupleLoop pull n (slots ++ ds.map some)) t := by
  induction h generalizing slots with
  | nil s => simp
  | @cons s u t d ds hpull hrest ih =>
      rw [List.length_cons, Nat.add_right_comm, decodeTupleLoop]
      simpa [hpull] using ih (slots ++ [some d])

/-- The list loop appends as many terms as pulls return, and remembers the
last. -/
theorem run_decodeListLoop (h : Yields R pull s ds t) (n : ℕ) (element : Option (Data F))
    (twice : Bool) (entries : List (Data F)) :
    run R (decodeListLoop pull (ds.length + n) element twice entries) s =
      run R (decodeListLoop pull n (ds.getLast?.or element) twice (entries ++ ds)) t := by
  induction h generalizing element entries with
  | nil s => simp
  | @cons s u t d ds hpull hrest ih =>
      rw [List.length_cons, Nat.add_right_comm, decodeListLoop]
      have hlast : ds.getLast?.or (some d) = (d :: ds).getLast?.or element := by
        cases ds <;> simp [List.getLast?_cons]
      simpa [hpull, hlast] using ih (some d) (entries ++ [d])

theorem run_decodeListTail (element : Option (Data F)) (twice : Bool) (entries : List (Data F))
    (tail : UInt8) (h : Delivers R s [[tail]] t) :
    run R (decodeListLoop pull 0 element twice entries) s =
      .done ((bertSuccess, some (.list entries)) : Result F) t := by
  obtain ⟨s', hread, -, hrest⟩ := delivers_cons_iff.mp h
  rw [delivers_nil_iff] at hrest
  have hread' : run R (decoderRead 1 : Decode F _) s = .done (.ok ()) s' :=
    run_decoderRead_ok hread
  simp only [decodeListLoop, run_bind, hread', Outcome.bind_done, run_step, run_pure]
  exact congrArg _ hrest

end Yields

/-! ## Complex terms -/

variable {pull : Decode F (Result F)} {s t : σ}

theorem run_decodeTime {m i u : Data F} (hm : m.isInt) (hi : i.isInt)
    (h : Yields R pull s [m, i, u] t) :
    run R (bertDecodeTime pull) s =
      .done ((bertSuccess, some (.time (timestamp m i u))) : Result F) t := by
  obtain ⟨s₁, hpull₁, h⟩ := yields_cons_iff.mp h
  obtain ⟨s₂, hpull₂, h⟩ := yields_cons_iff.mp h
  obtain ⟨s₃, hpull₃, h⟩ := yields_cons_iff.mp h
  obtain rfl := yields_nil_iff.mp h
  rw [bertDecodeTime, run_pullTimePart _ hpull₁, if_neg (by simpa using hm),
    run_pullTimePart _ hpull₂, if_neg (by simpa using hi),
    run_pullTimePart _ hpull₃, if_neg (by simpa using hi)]
  rfl

/-- The elements behind the atom `bert` decode to what they stand for. -/
theorem run_decodeComplex {ds : List (Data F)} {d : Data F}
    (hdenote : denoteComplex ds = some d) (h : Yields R pull s ds t) :
    run R (bertDecodeComplex pull) s = .done ((bertSuccess, some d) : Result F) t := by
  unfold denoteComplex at hdenote
  split at hdenote
  case h_1 keyword =>
      obtain ⟨u, hpull, h⟩ := yields_cons_iff.mp h
      obtain rfl := yields_nil_iff.mp h
      rw [bertDecodeComplex, run_pullPart _ hpull]
      split_ifs at hdenote with hnil htrue hfalse
      · cases hdenote; subst hnil; rfl
      · cases hdenote; subst htrue; rfl
      · cases hdenote; subst hfalse; rfl
  case h_2 keyword listData =>
      obtain ⟨u, hpull, h⟩ := yields_cons_iff.mp h
      obtain ⟨v, hpull', h⟩ := yields_cons_iff.mp h
      obtain rfl := yields_nil_iff.mp h
      split_ifs at hdenote with hdict
      subst hdict
      rw [bertDecodeComplex, run_pullPart _ hpull]
      change run R (bertDecodeDict pull) u = _
      rw [bertDecodeDict, run_pullPart _ hpull']
      split at hdenote
      · cases hdenote; rfl
      · obtain ⟨entries, hentries, rfl⟩ := Option.map_eq_some_iff.mp hdenote
        simp [hentries]
      · contradiction
  case h_3 keyword source optList =>
      obtain ⟨u, hpull, h⟩ := yields_cons_iff.mp h
      obtain ⟨v, hpull', h⟩ := yields_cons_iff.mp h
      obtain ⟨w, hpull'', h⟩ := yields_cons_iff.mp h
      obtain rfl := yields_nil_iff.mp h
      split_ifs at hdenote with hregex
      subst hregex
      rw [bertDecodeComplex, run_pullPart _ hpull]
      change run R (bertDecodeRegex pull) u = _
      rw [bertDecodeRegex, run_pullPart _ hpull']
      change run R (pullPart pull _) v = _
      rw [run_pullPart _ hpull'']
      split at hdenote
      next options hoptions => cases hdenote; simp [hoptions]
      · contradiction
  case h_4 keyword m i u =>
      obtain ⟨v, hpull, hrest⟩ := yields_cons_iff.mp h
      split_ifs at hdenote with htime
      obtain ⟨rfl, hm, hi⟩ := htime
      cases hdenote
      rw [bertDecodeComplex, run_pullPart _ hpull]
      exact run_decodeTime hm hi hrest
  case h_5 => contradiction

/-- The elements behind a tuple header decode to what they stand for. -/
theorem run_decodeTuple {announced : ℕ} {ds : List (Data F)} {d : Data F}
    (hdenote : denoteTuple announced ds = some d) (h : Yields R pull s ds t) :
    run R (bertDecodeTuple pull announced) s = .done ((bertSuccess, some d) : Result F) t := by
  unfold denoteTuple at hdenote
  split at hdenote
  next =>
      split_ifs at hdenote with hzero
      cases hdenote
      obtain rfl := yields_nil_iff.mp h
      simp [bertDecodeTuple, hzero]
  next first rest =>
      obtain ⟨u, hpull, h⟩ := yields_cons_iff.mp h
      split_ifs at hdenote with hbert hzero hlength
      · rw [bertDecodeTuple, if_neg hzero, run_pullPart _ hpull,
          if_pos (first.isAtom_and_strequal_iff.mpr hbert)]
        exact run_decodeComplex hdenote h
      · cases hdenote
        subst hlength
        rw [bertDecodeTuple, if_neg (by simp), run_pullPart _ hpull,
          if_neg (mt first.isAtom_and_strequal_iff.mp hbert)]
        have hloop := run_decodeTupleLoop h 0 [some first]
        simpa [decodeTupleLoop] using hloop

/-! ## Whole terms -/

/-- The magic byte of a term selects a function that decodes its body, given a
program that is right about the elements. -/
theorem run_decodeMagic_of_delivers {w : Wire} {d : Data F} (hmarked : w.isMarked = false)
    (hdenote : w.denote = some d) (h : Delivers R s w.body t)
    (hpull : ∀ {ds : List (Data F)} {u v : σ}, Wire.denoteList w.elements = some ds →
      Delivers R u (Wire.chunksList w.elements) v → Yields R pull u ds v) :
    run R (decodeMagic pull w.tag) s = .done ((bertSuccess, some d) : Result F) t := by
  cases w with
  | marked term => simp [Wire.isMarked] at hmarked
  | nil =>
      cases hdenote
      obtain rfl := delivers_nil_iff.mp h
      rfl
  | smallInt i =>
      cases hdenote
      have hfield := run_decodeField (F := F) bertReadUint8 (i := 1) rfl h
      simp only [Wire.tag, decodeMagic_smallInt, bertDecodeSmallInt, bertDecodeUint8, run_bind,
        hfield]
      rfl
  | int i =>
      cases hdenote
      simp only [Wire.tag, decodeMagic_int, bertDecodeBigInt, run_bind, run_decodeUint32 h]
      simp
  | bignum large sign magnitude =>
      simp only [Wire.denote, Option.ite_none_right_eq_some] at hdenote
      obtain ⟨hlength, ⟨⟩⟩ := hdenote
      obtain ⟨u, hsize, hrest⟩ := delivers_cons_split.mp h
      have hfits : magnitude.length < if large then 2 ^ 32 else 2 ^ 8 := by
        split_ifs <;> omega
      rw [Wire.tag, run_decodeMagic_bignum hfits hsize]
      exact run_decodeBignum hlength hrest
  | float text =>
      simp only [Wire.denote, Option.ite_none_right_eq_some, Option.map_eq_some_iff] at hdenote
      obtain ⟨hlength, f, hf, rfl⟩ := hdenote
      simp [Wire.tag, decodeMagic_float, bertDecodeFloat, run_decodeBytes hlength (by decide) h, hf]
  | atom name =>
      simp only [Wire.denote, Option.ite_none_right_eq_some] at hdenote
      obtain ⟨hlength, ⟨⟩⟩ := hdenote
      obtain ⟨u, hsize, hrest⟩ := delivers_cons_split.mp h
      have hsize' : (UInt16.ofNat name.length).toNat = name.length := by
        rw [UInt16.toNat_ofNat']
        omega
      simp [Wire.tag, decodeMagic_atom, bertDecodeAtom, run_decodeUint16 hsize, hsize',
        run_decodeText (by omega) hrest]
  | string text =>
      simp only [Wire.denote, Option.ite_none_right_eq_some] at hdenote
      obtain ⟨hlength, ⟨⟩⟩ := hdenote
      obtain ⟨u, hsize, hrest⟩ := delivers_cons_split.mp h
      have hsize' : (UInt16.ofNat text.length).toNat = text.length := by
        rw [UInt16.toNat_ofNat']
        omega
      simp [Wire.tag, decodeMagic_string, bertDecodeString, run_decodeUint16 hsize, hsize',
        run_decodeText (by omega) hrest]
  | bin data =>
      simp only [Wire.denote, Option.ite_none_right_eq_some] at hdenote
      obtain ⟨hlength, ⟨⟩⟩ := hdenote
      obtain ⟨u, hsize, hrest⟩ := delivers_cons_split.mp h
      rw [Wire.tag, decodeMagic_bin, run_decodeBin hlength hsize]
      exact run_decodeText (by omega) hrest
  | tuple large announced elements =>
      simp only [Wire.denote, Option.ite_none_right_eq_some, Option.bind_eq_some_iff] at hdenote
      obtain ⟨hlength, ds, hds, hdenote⟩ := hdenote
      obtain ⟨u, hsize, hrest⟩ := delivers_cons_split.mp h
      have htuple := run_decodeTuple hdenote (hpull hds hrest)
      cases large
      · have hsize' : (UInt8.ofNat announced).toNat = announced := by
          rw [UInt8.toNat_ofNat']
          exact Nat.mod_eq_of_lt hlength
        simp [Wire.tag, Wire.tupleTag, decodeMagic_smallTuple, bertDecodeSmallTuple,
          run_decodeUint8 hsize, hsize', htuple]
      · have hsize' : (UInt32.ofNat announced).toNat = announced := by
          rw [UInt32.toNat_ofNat']
          exact Nat.mod_eq_of_lt hlength
        simp [Wire.tag, Wire.tupleTag, decodeMagic_largeTuple, bertDecodeLargeTuple,
          run_decodeUint32 hsize, hsize', htuple]
  | list announced elements tail =>
      simp only [Wire.denote, Option.ite_none_right_eq_some, Option.map_eq_some_iff] at hdenote
      obtain ⟨⟨hlength, hbound⟩, ds, hds, rfl⟩ := hdenote
      obtain ⟨u, hsize, hrest⟩ := delivers_cons_split.mp h
      obtain ⟨v, helements, htail⟩ := delivers_append_iff.mp hrest
      have hsize' : (UInt32.ofNat announced).toNat = announced := by
        rw [UInt32.toNat_ofNat']
        exact Nat.mod_eq_of_lt hbound
      have hloop := run_decodeListLoop (hpull hds helements) 0 none false []
      rw [run_decodeListTail _ _ _ _ htail, Nat.add_zero, ← Wire.length_of_denoteList hds,
        hlength] at hloop
      simp [Wire.tag, decodeMagic_list, bertDecodeList, run_decodeUint32 hsize, hsize', hloop]

theorem run_pullBody_of_delivers {w : Wire} {d : Data F} (hdenote : w.denote = some d)
    (h : Delivers R s w.chunks t)
    (hpull : ∀ {ds : List (Data F)} {u v : σ}, Wire.denoteList w.unmark.elements = some ds →
      Delivers R u (Wire.chunksList w.unmark.elements) v → Yields R pull u ds v) :
    run R (pullBody pull) s = .done ((1, some d) : Result F) t := by
  by_cases hmarked : w.isMarked
  · cases w with
    | marked term =>
        obtain ⟨hterm, hdenote⟩ := Wire.denote_marked hdenote
        rw [Wire.chunks, Wire.chunks_eq] at h
        obtain ⟨u, htags, hbody⟩ := delivers_append_iff.mp (show Delivers R s
          ([[bertMagic], [term.tag]] ++ term.body) t from h)
        rw [run_pullBody_marked htags, run_decodeMagic_of_delivers hterm hdenote hbody hpull]
        rfl
    | _ => simp [Wire.isMarked] at hmarked
  · have hmarked' : w.isMarked = false := by simpa using hmarked
    rw [Wire.chunks_eq] at h
    obtain ⟨u, htag, hbody⟩ := delivers_cons_split.mp h
    rw [run_pullBody_tag htag (Wire.tag_ne_magic hmarked'),
      run_decodeMagic_of_delivers hmarked' hdenote hbody (by
        cases w <;> first | exact hpull | simp [Wire.isMarked] at hmarked)]
    rfl

/-- A program that pulls each of some wire terms pulls them one after the other. -/
theorem yields_of_runs {ws : List Wire} {ds : List (Data F)}
    (hruns : ∀ w ∈ ws, ∀ (d : Data F) (s t : σ), w.denote = some d → Delivers R s w.chunks t →
      run R pull s = .done (1, some d) t)
    (hds : Wire.denoteList ws = some ds) (h : Delivers R s (Wire.chunksList ws) t) :
    Yields R pull s ds t := by
  induction ws generalizing ds s with
  | nil =>
      rw [Wire.denoteList_nil_eq_some_iff.mp hds]
      exact yields_nil_iff.mpr (delivers_nil_iff.mp h)
  | cons w ws ih =>
      obtain ⟨d, ds, hd, hrest, rfl⟩ := Wire.denoteList_cons_eq_some_iff.mp hds
      obtain ⟨u, hw, hws⟩ := Wire.delivers_chunksList_cons.mp h
      exact .cons (hruns w List.mem_cons_self d s u hd hw)
        (ih (fun v hv ↦ hruns v (List.mem_cons_of_mem w hv)) hrest hws)

/-- A pull whose depth exceeds the height of a delivered wire term returns 1
with the term it stands for, and leaves the reader right behind it. -/
theorem run_bertDecoderPull_of_delivers {depth : ℕ} {w : Wire} {d : Data F} {s t : σ}
    (hheight : w.height < depth) (hdenote : w.denote = some d) (h : Delivers R s w.chunks t) :
    run R (bertDecoderPull depth) s = .done ((1, some d) : Result F) t := by
  induction depth generalizing w d s t with
  | zero => omega
  | succ depth ih =>
      rw [run_bertDecoderPull_succ]
      refine run_pullBody_of_delivers hdenote h fun hds hdelivers ↦ ?_
      refine yields_of_runs (fun v hv d s t ↦ ih ?_) hds hdelivers
      have helements := w.heightList_elements_lt (List.ne_nil_of_mem hv)
      have hv' := Wire.height_le_heightList hv
      omega

/-- So do wire terms that are delivered one after the other. -/
theorem yields_of_delivers {depth : ℕ} {ws : List Wire} {ds : List (Data F)} {s t : σ}
    (hheights : Wire.heightList ws < depth) (hds : Wire.denoteList ws = some ds)
    (h : Delivers R s (Wire.chunksList ws) t) : Yields R (bertDecoderPull depth) s ds t :=
  yields_of_runs (fun _ hw _ _ _ ↦
    run_bertDecoderPull_of_delivers ((Wire.height_le_heightList hw).trans_lt hheights)) hds h

end LibBert
