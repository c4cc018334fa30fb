import LibBert.Decoder.Overrun
import LibBert.Decoder.Pulls

/-!
# The reference meaning of wire terms

What a well-formed term stands for, in the terms of the format and not of the
decoder: integers and times are computed over the integers, every announced
length is a count and every list ends in `BERT_NIL`.  The decoder's own reading
extends it, so that a pull of such a term returns what it stands for.
-/

namespace LibBert

open Reading Bytes

variable {F ρ : Type}

namespace Wire

/-- A time is computed within 64 bits. -/
def timeValue (megaseconds seconds microseconds : ℤ) : Option (Data F) :=
  let scaled := megaseconds * 1000000
  let whole := scaled + seconds
  let time := whole + microseconds.tdiv 1000000
  if (-2 ^ 63 ≤ scaled ∧ scaled < 2 ^ 63) ∧ (-2 ^ 63 ≤ whole ∧ whole < 2 ^ 63) ∧
      (-2 ^ 63 ≤ time ∧ time < 2 ^ 63) then
    some (.time (Int64.ofInt time))
  else none

/-- The pairs of a dictionary, in order and with duplicates. -/
def pairsValue : List (Data F) → Option (List (Option (Data F) × Option (Data F)))
  | [] => some []
  | .tuple [some key, some value] :: rest =>
      (pairsValue rest).map ((some key, some value) :: ·)
  | _ :: _ => none

/-- What `{bert, ...}` stands for. -/
def complexValue : List (Data F) → Option (Data F)
  | [.atom keyword] =>
      if keyword = cString "nil" then some .nil
      else if keyword = cString "true" then some (.boolean 1)
      else if keyword = cString "false" then some (.boolean 0)
      else none
  | [.atom keyword, .nil] => if keyword = cString "dict" then some (.dict []) else none
  | [.atom keyword, .list entries] =>
      if keyword = cString "dict" then (pairsValue entries).map .dict else none
  | [.atom keyword, .int megaseconds, .int seconds, .int microseconds] =>
      if keyword = cString "time" then
        timeValue megaseconds.toInt seconds.toInt microseconds.toInt
      else none
  | _ => none

def tupleValue (elements : List (Data F)) : Option (Data F) :=
  match elements with
  | .atom name :: rest =>
      if name = cString "bert" then complexValue rest else some (.tuple (elements.map some))
  | _ => some (.tuple (elements.map some))

mutual

/-- The term a well-formed wire term stands for. -/
def value : Wire → Option (Data F)
  | .marked (.marked _) => none
  | .marked term => value term
  | .nil => some .nil
  | .smallInt i => some (.int (Int64.ofInt i.toNat))
  | .int i => if i.toNat < 2 ^ 31 then some (.int (Int64.ofInt i.toNat)) else none
  | .bignum _ sign magnitude =>
      if magnitude.length ≤ 8 ∧ ofLittleEndian magnitude < 2 ^ 63 then
        some (.int (Int64.ofInt
          (if sign = 0 then ofLittleEndian magnitude else -(ofLittleEndian magnitude : ℤ))))
      else none
  | .float _ => none
  | .atom name => if name.length < 2 ^ 16 then some (.atom name) else none
  | .string text => if text.length < 2 ^ 16 then some (.string text) else none
  | .bin data => if data.length < 2 ^ 32 then some (.bin data) else none
  | .tuple large announced elements =>
      if elements.length = announced ∧ announced < if large then 2 ^ 32 else 2 ^ 8 then
        (valueList elements).bind tupleValue
      else none
  | .list announced elements tail =>
      if elements.length = announced ∧ announced < 2 ^ 32 ∧ tail = bertNil then
        (valueList elements).map .list
      else none

def valueList : List Wire → Option (List (Data F))
  | [] => some []
  | w :: ws => (value w).bind fun d ↦ (valueList ws).map (d :: ·)

end

mutual

/-- The decoder's block has room for every binary of the term. -/
def Fits : Wire → Prop
  | .marked term => Fits term
  | .bin data => data.length < 2 ^ 32 - 1
  | .tuple _ _ elements => FitsList elements
  | .list _ elements _ => FitsList elements
  | _ => True

def FitsList : List Wire → Prop
  | [] => True
  | w :: ws => Fits w ∧ FitsList ws

end

theorem fitsList_iff {ws : List Wire} : FitsList ws ↔ ∀ w ∈ ws, w.Fits := by
  induction ws with
  | nil => simp [FitsList]
  | cons w ws ih => simp [FitsList, ih]

/-- Where a binary of some elements is too long, a first element has such a binary. -/
theorem exists_first_of_not_fitsList {ws : List Wire} (h : ¬ FitsList ws) :
    ∃ before v behind, ws = before ++ v :: behind ∧ FitsList before ∧ ¬ v.Fits := by
  classical
  rw [fitsList_iff] at h
  obtain ⟨v, hfirst⟩ : ∃ v, ws.find? (fun w ↦ ¬ w.Fits) = some v := by
    rw [← Option.isSome_iff_exists, List.find?_isSome]
    simpa using h
  obtain ⟨hv, before, behind, rfl, hbefore⟩ := List.find?_eq_some_iff_append.mp hfirst
  exact ⟨before, v, behind, rfl, fitsList_iff.mpr (by simpa using hbefore), by simpa using hv⟩

/-! ## The decoder reads the reference meaning -/

theorem dictEntries_of_pairsValue {ds : List (Data F)}
    {entries : List (Option (Data F) × Option (Data F))} (h : pairsValue ds = some entries) :
    dictEntries ds = some entries := by
  induction ds using pairsValue.induct generalizing entries with
  | case1 => exact h
  | case2 key value rest ih =>
      rw [pairsValue, Option.map_eq_some_iff] at h
      obtain ⟨entries, hrest, rfl⟩ := h
      rw [dictEntries, ih hrest]
      rfl
  | case3 d rest hother =>
      unfold pairsValue at h
      split at h
      · simp_all
      · simp_all
      · cases h

variable [Platform F]

/-- The 64-bit computation of a time is the exact one, up to wrapping. -/
theorem timestamp_eq_ofInt (m s u : Int64) :
    timestamp (.int m : Data F) (.int s) (.int u) =
      Int64.ofInt (m.toInt * 1000000 + s.toInt + u.toInt.tdiv 1000000) := by
  have hdiv : Int64.ofInt (u.toInt.tdiv 1000000) = u / 1000000 := by
    rw [Int64.ofInt_tdiv u.minValue_le_toInt u.toInt_le (by decide) (by decide), Int64.ofInt_toInt]
    rfl
  rw [Int64.ofInt_add, Int64.ofInt_add, Int64.ofInt_mul, hdiv, Int64.ofInt_toInt,
    Int64.ofInt_toInt]
  rfl

theorem timestamp_of_timeValue {m s u : Int64} {d : Data F}
    (h : timeValue m.toInt s.toInt u.toInt = some d) :
    d = .time (timestamp (.int m : Data F) (.int s) (.int u)) := by
  simp only [timeValue, Option.ite_none_right_eq_some] at h
  rw [timestamp_eq_ofInt, ← Option.some.inj h.2]

theorem denoteComplex_of_complexValue {ds : List (Data F)} {d : Data F}
    (h : complexValue ds = some d) : denoteComplex ds = some d := by
  unfold complexValue at h
  split at h
  · exact h
  · exact h
  · rw [denoteComplex]
    split_ifs at h ⊢
    obtain ⟨entries, hentries, rfl⟩ := Option.map_eq_some_iff.mp h
    simp [dictEntries_of_pairsValue hentries]
  · rw [denoteComplex]
    split_ifs at h with htime
    rw [if_pos ⟨htime, rfl, rfl⟩, timestamp_of_timeValue h]
  · cases h

theorem denoteTuple_of_tupleValue {ds : List (Data F)} {d : Data F}
    (h : tupleValue ds = some d) : denoteTuple ds.length ds = some d := by
  unfold tupleValue at h
  split at h
  next name rest =>
      split_ifs at h with hbert
      · simpa [denoteTuple, Data.isBert, hbert] using denoteComplex_of_complexValue h
      · simpa [denoteTuple, Data.isBert, hbert] using h
  next hother =>
      cases ds with
      | nil => simpa [denoteTuple] using h
      | cons first rest =>
          have hbert : first.isBert = false := by
            cases first <;> simp_all [Data.isBert]
          simpa [denoteTuple, hbert] using h

omit [Platform F] in
theorem valueList_cons_eq_some_iff {w : Wire} {ws : List Wire} {ds : List (Data F)} :
    valueList (w :: ws) = some ds ↔
      ∃ d ds', value w = some d ∧ valueList ws = some ds' ∧ ds = d :: ds' := by
  simp only [valueList, Option.bind_eq_some_iff, Option.map_eq_some_iff]
  constructor
  · rintro ⟨d, hd, ds', hds, rfl⟩
    exact ⟨d, ds', hd, hds, rfl⟩
  · rintro ⟨d, ds', hd, hds, rfl⟩
    exact ⟨d, hd, ds', hds, rfl⟩

theorem denoteList_of_valueList {ws : List Wire} {ds : List (Data F)}
    (h : ∀ w ∈ ws, ∀ d : Data F, w.value = some d → w.Fits → w.denote = some d)
    (hvalue : valueList ws = some ds) (hfits : FitsList ws) : denoteList ws = some ds := by
  induction ws generalizing ds with
  | nil => exact hvalue
  | cons w ws ih =>
      obtain ⟨d, ds', hd, hds, rfl⟩ := valueList_cons_eq_some_iff.mp hvalue
      have hrest := ih (fun v hv ↦ h v (List.mem_cons_of_mem w hv)) hds hfits.2
      exact denoteList_cons_eq_some_iff.mpr
        ⟨d, ds', h w List.mem_cons_self d hd hfits.1, hrest, rfl⟩

/-- The decoder's reading of a term whose binaries fit extends its reference meaning. -/
theorem denote_of_value (w : Wire) (d : Data F) (h : w.value = some d) (hfits : w.Fits) :
    w.denote = some d := by
  induction w using induct generalizing d with
  | marked term ih =>
      cases term with
      | marked term => cases h
      | _ => exact ih d h hfits
  | nil => exact h
  | smallInt i =>
      rw [value, Int64.ofInt_eq_ofNat] at h
      exact h
  | int i =>
      rw [value, Int64.ofInt_eq_ofNat] at h
      split_ifs at h
      exact h
  | bignum large sign magnitude =>
      simp only [value, Option.ite_none_right_eq_some] at h
      obtain ⟨⟨hlength, hmagnitude⟩, h⟩ := h
      rw [← bignumInteger_toInt hlength hmagnitude, Int64.ofInt_toInt] at h
      rw [denote, if_pos hlength, h]
  | float text => cases h
  | atom name => exact h
  | string text => exact h
  | bin data =>
      rw [value, Option.ite_none_right_eq_some] at h
      exact if_pos hfits |>.trans h.2
  | tuple large announced elements ih =>
      simp only [value, Option.ite_none_right_eq_some] at h
      obtain ⟨hframing, h⟩ := h
      obtain ⟨ds, hds, htuple⟩ := Option.bind_eq_some_iff.mp h
      have hdenote := denoteList_of_valueList ih hds hfits
      rw [denote, if_pos hframing.2, hdenote, ← hframing.1, length_of_denoteList hdenote]
      exact denoteTuple_of_tupleValue htuple
  | list announced elements tail ih =>
      rw [value] at h
      split_ifs at h with hframing
      obtain ⟨ds, hds, rfl⟩ := Option.map_eq_some_iff.mp h
      rw [denote, if_pos ⟨hframing.1, hframing.2.1⟩, denoteList_of_valueList ih hds hfits]
      rfl

omit [Platform F] in
theorem exists_of_valueList_append {before behind : List Wire} {v : Wire} {ds : List (Data F)}
    (h : valueList (before ++ v :: behind) = some ds) :
    ∃ ds₁ d ds₂, ds = ds₁ ++ d :: ds₂ ∧ valueList before = some ds₁ ∧ v.value = some d := by
  induction before generalizing ds with
  | nil =>
      obtain ⟨d, ds₂, hd, -, rfl⟩ := valueList_cons_eq_some_iff.mp h
      exact ⟨[], d, ds₂, rfl, rfl, hd⟩
  | cons w before ih =>
      obtain ⟨e, ds', he, hds', rfl⟩ := valueList_cons_eq_some_iff.mp h
      obtain ⟨ds₁, d, ds₂, rfl, hbefore, hd⟩ := ih hds'
      exact ⟨e :: ds₁, d, ds₂, rfl, valueList_cons_eq_some_iff.mpr ⟨e, ds₁, he, hbefore, rfl⟩, hd⟩

omit [Platform F] in
theorem length_of_valueList {ws : List Wire} {ds : List (Data F)} (h : valueList ws = some ds) :
    ws.length = ds.length := by
  induction ws generalizing ds with
  | nil =>
      cases h
      rfl
  | cons w ws ih =>
      obtain ⟨d, ds', -, hds, rfl⟩ := valueList_cons_eq_some_iff.mp h
      rw [List.length_cons, List.length_cons, ih hds]

/-- The first of some elements with a binary that does not fit stands behind elements the
decoder reads. -/
theorem exists_element_of_valueList {elements : List Wire} {ds : List (Data F)}
    (h : valueList elements = some ds) (hfits : ¬ FitsList elements) :
    ∃ before v behind ds₁ e ds₂, elements = before ++ v :: behind ∧ ds = ds₁ ++ e :: ds₂ ∧
      denoteList before = some ds₁ ∧ v.value = some e ∧ ¬ v.Fits := by
  obtain ⟨before, v, behind, rfl, hbefore, hv⟩ := exists_first_of_not_fitsList hfits
  obtain ⟨ds₁, e, ds₂, rfl, hds₁, he⟩ := exists_of_valueList_append h
  exact ⟨before, v, behind, ds₁, e, ds₂, rfl, rfl,
    denoteList_of_valueList (fun w _ ↦ denote_of_value w) hds₁ hbefore, he, hv⟩

/-- The decoder overruns the block of a binary within a well-formed term. -/
theorem overlong_of_value (w : Wire) (d : Data F) (h : w.value = some d) (hfits : ¬ w.Fits) :
    w.Overlong F := by
  induction w using induct generalizing d with
  | marked term ih =>
      cases term with
      | marked term => cases h
      | _ => exact .marked rfl (ih d h hfits)
  | bin data =>
      rw [value, Option.ite_none_right_eq_some] at h
      rw [Fits] at hfits
      exact .bin rfl (by omega)
  | tuple large announced elements ih =>
      rw [value, Option.ite_none_right_eq_some, Option.bind_eq_some_iff] at h
      obtain ⟨⟨hlength, hannounced⟩, ds, hds, htuple⟩ := h
      have hwhole := denoteTuple_of_tupleValue htuple
      rw [← length_of_valueList hds, hlength] at hwhole
      obtain ⟨before, v, behind, ds₁, e, ds₂, rfl, rfl, hbefore, he, hv⟩ :=
        exists_element_of_valueList hds hfits
      obtain ⟨timePart, hwants⟩ := tupleWants_of_denoteTuple hwhole
      exact .tuple rfl hbefore hannounced hwants (ih v (by simp) e he hv)
  | list announced elements tail ih =>
      rw [value, Option.ite_none_right_eq_some, Option.map_eq_some_iff] at h
      obtain ⟨⟨hlength, hannounced, -⟩, ds, hds, -⟩ := h
      obtain ⟨before, v, behind, ds₁, e, ds₂, rfl, rfl, hbefore, he, hv⟩ :=
        exists_element_of_valueList hds hfits
      have hless : ds₁.length < announced := by
        rw [length_of_valueList hds, List.length_append, List.length_cons] at hlength
        omega
      exact .list rfl hbefore hannounced (if_pos hless) (ih v (by simp) e he hv)
  | _ => exact absurd trivial hfits

end Wire

variable [Platform F]

/-- A pull of a well-formed term, wherever in the input it stands and whatever
follows it, returns 1 with what it stands for and consumes its bytes, exactly when
the blocks of its binaries hold them. -/
theorem pull_of_value_iff {source : PlainSource ρ} {total depth : ℕ} {decoder : Decoder ρ}
    {w : Wire} {d : Data F} {rest : List UInt8}
    (hdecoder : source.feeding.Refines total 0 decoder (w.bytes ++ rest))
    (hvalue : w.value = some d) (hdepth : w.height < depth) :
    (∃ decoder', run windowReader (bertDecoderPull depth) decoder =
        .done ((1, some d) : Result F) decoder' ∧
      source.feeding.Refines total 0 decoder' rest ∧
      decoder'.consumed = decoder.consumed + w.bytes.length) ↔ w.Fits := by
  have hdelivers : Delivers plainReader (w.bytes ++ rest) w.chunks rest :=
    plainReader_delivers_iff.mpr rfl
  constructor
  · rintro ⟨decoder', hrun, -⟩
    by_contra hfits
    obtain ⟨t, hfault⟩ := (w.overlong_of_value d hvalue hfits).run hdepth hdelivers
    obtain ⟨t', hplain, -⟩ := PlainSource.run_plain hdecoder hrun
    cases hplain.symm.trans hfault
  · intro hfits
    have hplain :=
      run_bertDecoderPull_of_delivers hdepth (w.denote_of_value d hvalue hfits) hdelivers
    obtain ⟨decoder', hrun, hdecoder'⟩ := PlainSource.run_window hdecoder hplain
    exact ⟨decoder', hrun, hdecoder', hdecoder.consumed_append hdecoder'⟩

/-- `{bert, dict, [{a, -1}]}` with a marked key, followed by two bytes. -/
def dictWire : Wire :=
  .tuple false 3 [.atom (cString "bert"), .atom (cString "dict"),
    .list 1 [.tuple true 2 [.marked (.atom (cString "a")), .bignum false 1 [1]]] bertNil]

theorem pull_of_dictWire :
    (∃ decoder', run windowReader (bertDecoderPull 5)
        (freshDecoder false PlainSource.ofList.toSource (dictWire.bytes ++ [97, 0])) =
      .done ((1, some (.dict [(some (.atom (cString "a")), some (.int (-1)))])) : Result Empty)
        decoder' ∧
      PlainSource.ofList.feeding.Refines (dictWire.bytes ++ [97, 0]).length 0 decoder' [97, 0] ∧
      decoder'.consumed = 0 + dictWire.bytes.length) ↔ dictWire.Fits :=
  pull_of_value_iff
    (refines_fresh false PlainSource.ofList.toSlicedSource (dictWire.bytes ++ [97, 0])) rfl
    (by decide)

/-- A binary of `2 ^ 32 - 1` bytes is a well-formed term and is not returned. -/
theorem longest_bin_not_pulled :
    ¬ ∀ (w : Wire) (d : Data Empty) (rest : List UInt8) (depth : ℕ), w.value = some d →
      w.height < depth → ∃ decoder', run windowReader (bertDecoderPull depth)
          (freshDecoder false PlainSource.ofList.toSource (w.bytes ++ rest)) =
        .done ((1, some d) : Result Empty) decoder' := by
  intro h
  obtain ⟨data, hmax⟩ : ∃ data : List UInt8, data.length = 2 ^ 32 - 1 :=
    ⟨List.replicate (2 ^ 32 - 1) 0, List.length_replicate⟩
  have hvalue : (Wire.bin data).value = some (.bin data : Data Empty) :=
    if_pos (by rw [hmax]; decide)
  obtain ⟨decoder', hrun⟩ := h (.bin data) (.bin data) [] 1 hvalue Nat.one_pos
  obtain ⟨t, hplain, -⟩ := PlainSource.run_plain
    (refines_fresh false PlainSource.ofList.toSlicedSource ((Wire.bin data).bytes ++ [])) hrun
  have hlong : (Wire.bin data).Overlong Empty := .bin rfl hmax
  obtain ⟨u, hfault⟩ := hlong.run (show 0 < 1 from Nat.one_pos) (plainReader_delivers_iff.mpr rfl :
    Delivers plainReader ((Wire.bin data).bytes ++ []) (Wire.bin data).chunks [])
  cases hplain.symm.trans hfault

end LibBert
