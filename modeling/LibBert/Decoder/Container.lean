import LibBert.Wire.Completeness

/-!
# Containers element by element

The tuple, list and complex-term decoders are one loop: whether another element
is pulled depends on the elements read so far, and so does what happens when the
pull stores nothing.  Behind the last element the container is finished without
a further pull.
-/

namespace LibBert

open Reading Bytes

variable {F σ : Type}

namespace Data

def isBin : Data F → Bool
  | .bin _ => true
  | _ => false

end Data

theorem keyword_ne :
    cString "time" ≠ cString "regex" ∧ cString "time" ≠ cString "dict" ∧
      cString "dict" ≠ cString "regex" ∧ cString "regex" ≠ cString "dict" ∧
      cString "dict" ≠ cString "time" ∧ cString "regex" ≠ cString "time" := by
  decide

/-- Whether `bert_decode_complex` pulls another element behind those read, and
whether that is a part of a time, whose pointer is used whatever the pull
returns. -/
def complexWants : List (Data F) → Option Bool
  | [] => some false
  | [.atom keyword] =>
      if keyword = cString "time" then some true
      else if keyword = cString "dict" ∨ keyword = cString "regex" then some false
      else none
  | [.atom keyword, second] =>
      if keyword = cString "time" ∧ second.isInt then some true
      else if keyword = cString "regex" ∧ second.isBin then some false
      else none
  | [.atom keyword, second, third] =>
      if keyword = cString "time" ∧ second.isInt ∧ third.isInt then some true else none
  | _ => none

def tupleWants (announced : ℕ) : List (Data F) → Option Bool
  | [] => if announced = 0 then none else some false
  | first :: rest =>
      if first.isBert then if announced = 0 then none else complexWants rest
      else if rest.length + 1 < announced then some false
      else none

/-- A regex whose options hold a tuple with a `NULL` slot. -/
def nullOption : List (Data F) → Bool
  | [_, _, .bin _, .list optList] =>
      match regexOptions optList 0 with
      | .null => true
      | _ => false
  | _ => false

/-- Behind some of the elements a complex term stands for, the next is pulled. -/
theorem complexWants_of_denoteComplex [Platform F] {ds rest : List (Data F)} {d e : Data F}
    (h : denoteComplex (ds ++ d :: rest) = some e) :
    ∃ timePart, complexWants ds = some timePart := by
  obtain ⟨hregex, -⟩ := keyword_ne
  match ds with
  | [] => exact ⟨false, rfl⟩
  | [keyword] =>
      have hkeyword : keyword = .atom (cString "time") ∨ keyword = .atom (cString "dict") ∨
          keyword = .atom (cString "regex") := by
        unfold denoteComplex at h
        split at h <;> simp_all
      rcases hkeyword with rfl | rfl | rfl
      · exact ⟨true, rfl⟩
      · exact ⟨false, rfl⟩
      · exact ⟨false, rfl⟩
  | [keyword, second] =>
      unfold denoteComplex at h
      split at h <;> simp_all [complexWants, Data.isBin, hregex.symm]
  | [keyword, second, third] =>
      unfold denoteComplex at h
      split at h <;> simp_all [complexWants]
  | _ :: _ :: _ :: _ :: _ =>
      unfold denoteComplex at h
      split at h <;> simp_all

theorem tupleWants_of_denoteTuple [Platform F] {announced : ℕ} {ds rest : List (Data F)}
    {d e : Data F} (h : denoteTuple announced (ds ++ d :: rest) = some e) :
    ∃ timePart, tupleWants announced ds = some timePart := by
  cases ds with
  | nil =>
      refine ⟨false, if_neg ?_⟩
      rintro rfl
      simp [denoteTuple] at h
  | cons first ds =>
      rw [List.cons_append, denoteTuple] at h
      rw [tupleWants]
      split_ifs at h with hbert hzero hlength
      · rw [if_pos hbert, if_neg hzero]
        exact complexWants_of_denoteComplex h
      · rw [if_neg hbert]
        rw [List.length_cons, List.length_append, List.length_cons] at hlength
        exact ⟨false, if_pos (by omega)⟩

/-- The header of a container. -/
inductive Opening : Type where
  | tuple (large : Bool) (announced : ℕ)
  | list (announced : ℕ)

namespace Opening

def announced : Opening → ℕ
  | .tuple _ announced => announced
  | .list announced => announced

/-- The announced number fits into the size field. -/
def Fits : Opening → Prop
  | .tuple large announced => announced < if large then 2 ^ 32 else 2 ^ 8
  | .list announced => announced < 2 ^ 32

def tag : Opening → UInt8
  | .tuple large _ => Wire.tupleTag large
  | .list _ => bertList

def size : Opening → List UInt8
  | .tuple large announced => Wire.size large announced
  | .list announced => bigEndian 4 announced

/-- Whether another element is pulled behind those read, and whether it is a
part of a time. -/
def wants : Opening → List (Data F) → Option Bool
  | .tuple _ announced, ds => tupleWants announced ds
  | .list announced, ds => if ds.length < announced then some false else none

/-- The element pulled behind `ds` returned 1 without storing anything. -/
def lost (pull : Decode F (Result F)) : Opening → List (Data F) → Decode F (Result F)
  | .tuple _ _, [] => .stuck
  | .tuple _ announced, first :: rest =>
      if first.isBert then .stuck
      else
        decodeTupleLoop pull (announced - (rest.length + 2)) ((first :: rest).map some ++ [none])
  | .list announced, ds => do
      let stale ← Program.assigned ds.getLast?
      .emit .stale
        (decodeListLoop pull (announced - (ds.length + 1)) ds.getLast? true (ds ++ [stale]))

variable [Platform F]

/-- No further element is pulled. -/
def finish : Opening → List (Data F) → Decode F (Result F)
  | .tuple _ announced, ds =>
      match denoteTuple announced ds with
      | some d => return (bertSuccess, some d)
      | none => if nullOption ds then .stuck else return (bertErrnoInvalid, none)
  | .list _, ds => do
      match ← decoderRead 1 with
      | .error result => return (result, none)
      | .ok () => .step 1 (pure (bertSuccess, some (.list ds)))

/-- Decoding behind the header. -/
def decode (pull : Decode F (Result F)) : Opening → Decode F (Result F)
  | .tuple _ announced => bertDecodeTuple pull announced
  | .list announced => decodeListLoop pull announced none false []

end Opening

/-! ## How many elements are pulled -/

theorem length_of_complexWants {ds : List (Data F)} {timePart : Bool}
    (h : complexWants ds = some timePart) : ds.length < 4 := by
  unfold complexWants at h
  split at h <;> simp_all

theorem complexWants_of_concat {ds : List (Data F)} {d : Data F} {timePart : Bool}
    (h : complexWants (ds ++ [d]) = some timePart) : ∃ b, complexWants ds = some b := by
  have hlength := length_of_complexWants h
  rw [List.length_append, List.length_singleton] at hlength
  match ds, hlength with
  | [], _ => exact ⟨false, rfl⟩
  | [first], _ =>
      simp only [List.singleton_append] at h
      unfold complexWants at h ⊢
      split at h <;> simp_all
      split_ifs <;> simp_all
  | [first, second], _ =>
      simp only [List.cons_append, List.nil_append] at h
      unfold complexWants at h ⊢
      split at h <;> simp_all

namespace Opening

theorem length_of_wants {o : Opening} {ds : List (Data F)} {timePart : Bool}
    (h : o.wants ds = some timePart) : ds.length < o.announced + 5 := by
  cases o with
  | list announced =>
      simp only [wants, Option.ite_none_right_eq_some] at h
      simp only [Opening.announced]
      omega
  | tuple large announced =>
      cases ds with
      | nil => simp
      | cons first rest =>
          simp only [wants, tupleWants] at h
          simp only [Opening.announced, List.length_cons]
          split_ifs at h
          · have := length_of_complexWants h
            omega
          · omega

theorem wants_of_concat {o : Opening} {ds : List (Data F)} {d : Data F} {timePart : Bool}
    (h : o.wants (ds ++ [d]) = some timePart) : ∃ b, o.wants ds = some b := by
  cases o with
  | list announced =>
      simp only [wants, Option.ite_none_right_eq_some, List.length_append,
        List.length_singleton] at h ⊢
      exact ⟨false, by omega, rfl⟩
  | tuple large announced =>
      cases ds with
      | nil =>
          simp only [wants, tupleWants, List.nil_append] at h ⊢
          split_ifs at h ⊢ <;> simp_all
      | cons first rest =>
          simp only [wants, tupleWants, List.cons_append, List.length_append,
            List.length_singleton] at h ⊢
          split_ifs at h ⊢
          · exact complexWants_of_concat h
          · exact ⟨false, rfl⟩
          · omega

theorem wants_of_append {o : Opening} {ds ds' : List (Data F)} {timePart : Bool}
    (h : o.wants (ds ++ ds') = some timePart) : ∃ b, o.wants ds = some b := by
  induction ds' generalizing ds timePart with
  | nil => exact ⟨timePart, by simpa using h⟩
  | cons d ds' ih =>
      have h' : o.wants ((ds ++ [d]) ++ ds') = some timePart := by simpa using h
      obtain ⟨b, hb⟩ := ih h'
      exact wants_of_concat hb

end Opening

/-! ## The loop -/

/-- One pull of an element: `next` continues with what it stored, `lost` after
a result of 1 without a stored term. -/
def pullElement (pull : Decode F (Result F)) (timePart : Bool) (lost : Decode F (Result F))
    (next : Data F → Decode F (Result F)) : Decode F (Result F) := do
  let (result, data) ← pull
  if result ≠ 1 then
    if timePart then do
      let _ ← Program.assigned data
      return (result, none)
    else
      return (result, none)
  else match data with
    | some d => next d
    | none => lost

theorem pullPart_eq_pullElement (pull : Decode F (Result F))
    (next : Data F → Decode F (Result F)) :
    pullPart pull next = pullElement pull false .stuck next := by
  refine congrArg (pull >>= ·) (funext fun ⟨result, data⟩ ↦ ?_)
  cases data <;> rfl

theorem pullTimePart_eq_pullElement (pull : Decode F (Result F))
    (next : Data F → Decode F (Result F)) :
    pullTimePart pull next = pullElement pull true .stuck next := by
  refine congrArg (pull >>= ·) (funext fun ⟨result, data⟩ ↦ ?_)
  cases data <;> rfl

variable [Platform F]

namespace Opening

/-- Decoding from the point where the elements `ds` have been read. -/
def gather (o : Opening) (pull : Decode F (Result F)) (ds : List (Data F)) :
    Decode F (Result F) :=
  match _h : o.wants ds with
  | none => o.finish ds
  | some timePart =>
      pullElement pull timePart (o.lost pull ds) fun d ↦ gather o pull (ds ++ [d])
termination_by o.announced + 5 - ds.length
decreasing_by
  have := length_of_wants _h
  rw [List.length_append, List.length_singleton]
  omega

variable {o : Opening} {pull : Decode F (Result F)} {ds : List (Data F)}

theorem gather_of_wants {timePart : Bool} (h : o.wants ds = some timePart) :
    o.gather pull ds =
      pullElement pull timePart (o.lost pull ds) fun d ↦ o.gather pull (ds ++ [d]) := by
  rw [gather]
  split
  · simp_all
  · simp_all

theorem gather_of_not_wants (h : o.wants ds = none) : o.gather pull ds = o.finish ds := by
  rw [gather]
  split
  · rfl
  · simp_all

/-! ## The decode functions run the loop -/

section Complex

variable {large : Bool} {announced : ℕ} {first : Data F} {rest : List (Data F)}

theorem gather_pullPart (hbert : first.isBert) (hpos : announced ≠ 0)
    (h : complexWants rest = some false) :
    (Opening.tuple large announced).gather pull (first :: rest) =
      pullPart pull fun d ↦
        (Opening.tuple large announced).gather pull (first :: (rest ++ [d])) := by
  have hwants : (Opening.tuple large announced).wants (first :: rest) = some false := by
    simp [wants, tupleWants, hbert, hpos, h]
  rw [gather_of_wants hwants, pullPart_eq_pullElement]
  simp [lost, hbert]

theorem gather_pullTimePart (hbert : first.isBert) (hpos : announced ≠ 0)
    (h : complexWants rest = some true) :
    (Opening.tuple large announced).gather pull (first :: rest) =
      pullTimePart pull fun d ↦
        (Opening.tuple large announced).gather pull (first :: (rest ++ [d])) := by
  have hwants : (Opening.tuple large announced).wants (first :: rest) = some true := by
    simp [wants, tupleWants, hbert, hpos, h]
  rw [gather_of_wants hwants, pullTimePart_eq_pullElement]
  simp [lost, hbert]

theorem gather_finish (hbert : first.isBert) (hpos : announced ≠ 0)
    (h : complexWants rest = none) :
    (Opening.tuple large announced).gather pull (first :: rest) =
      match denoteComplex rest with
      | some d => return (bertSuccess, some d)
      | none => if nullOption (first :: rest) then .stuck else return (bertErrnoInvalid, none) := by
  have hwants : (Opening.tuple large announced).wants (first :: rest) = none := by
    simp [wants, tupleWants, hbert, hpos, h]
  rw [gather_of_not_wants hwants]
  simp [finish, denoteTuple, hbert, hpos]

theorem gather_time (hbert : first.isBert) (hpos : announced ≠ 0) :
    (Opening.tuple large announced).gather pull [first, .atom (cString "time")] =
      bertDecodeTime pull := by
  obtain ⟨hregex, hdict, -⟩ := keyword_ne
  rw [gather_pullTimePart hbert hpos (by simp [complexWants])]
  refine congrArg (pullTimePart pull) (funext fun megaseconds ↦ ?_)
  by_cases hm : megaseconds.isInt
  swap
  · rw [gather_finish hbert hpos (by simp [complexWants, hm, hregex])]
    simp [hm, denoteComplex, nullOption, hdict]
  obtain ⟨m, rfl⟩ : ∃ m, megaseconds = .int m := by
    cases megaseconds <;> simp_all [Data.isInt]
  rw [if_neg (by simp [Data.isInt])]
  refine (gather_pullTimePart hbert hpos (by simp [complexWants, Data.isInt])).trans ?_
  refine congrArg (pullTimePart pull) (funext fun seconds ↦ ?_)
  by_cases hs : seconds.isInt
  swap
  · refine (gather_finish hbert hpos (by simp [complexWants, hs])).trans ?_
    simp [hs, denoteComplex, nullOption]
  rw [if_neg (by simpa using hs)]
  refine (gather_pullTimePart hbert hpos (by simp [complexWants, hm, hs])).trans ?_
  refine congrArg (pullTimePart pull) (funext fun microseconds ↦ ?_)
  refine (gather_finish hbert hpos (by simp [complexWants])).trans ?_
  simp [denoteComplex, hm, hs]

theorem gather_dict (hbert : first.isBert) (hpos : announced ≠ 0) :
    (Opening.tuple large announced).gather pull [first, .atom (cString "dict")] =
      bertDecodeDict pull := by
  obtain ⟨-, -, hregex, -, htime, -⟩ := keyword_ne
  rw [gather_pullPart hbert hpos (by simp [complexWants, htime])]
  refine congrArg (pullPart pull) (funext fun listData ↦ ?_)
  refine (gather_finish hbert hpos (by simp [complexWants, hregex, htime])).trans ?_
  cases listData with
  | list entries =>
      simp only [denoteComplex, nullOption, List.singleton_append]
      cases dictEntries entries <;> simp
  | _ => simp [denoteComplex, nullOption]

theorem gather_regex (hbert : first.isBert) (hpos : announced ≠ 0) :
    (Opening.tuple large announced).gather pull [first, .atom (cString "regex")] =
      bertDecodeRegex pull := by
  obtain ⟨-, -, -, hdict, -, htime⟩ := keyword_ne
  rw [gather_pullPart hbert hpos (by simp [complexWants, htime])]
  refine congrArg (pullPart pull) (funext fun source ↦ ?_)
  by_cases hbin : source.isBin
  swap
  · refine (gather_finish hbert hpos (by simp [complexWants, hbin, htime])).trans ?_
    cases source <;> simp_all [denoteComplex, nullOption, Data.isBin]
  obtain ⟨source, rfl⟩ : ∃ bytes, source = .bin bytes := by
    cases source <;> simp_all [Data.isBin]
  refine (gather_pullPart hbert hpos (by simp [complexWants, hbin, htime])).trans ?_
  refine congrArg (pullPart pull) (funext fun optList ↦ ?_)
  refine (gather_finish hbert hpos (by simp [complexWants, htime])).trans ?_
  cases optList with
  | list optList =>
      cases hoptions : regexOptions optList 0 <;>
        simp [denoteComplex, nullOption, hoptions]
  | _ => simp [denoteComplex, nullOption]

theorem gather_bert (hbert : first.isBert) (hpos : announced ≠ 0) :
    (Opening.tuple large announced).gather pull [first] = bertDecodeComplex pull := by
  rw [gather_pullPart hbert hpos rfl]
  refine congrArg (pullPart pull) (funext fun keyword ↦ ?_)
  by_cases hatom : keyword.isAtom
  swap
  · rw [if_pos (by simpa using hatom)]
    refine (gather_finish hbert hpos
      (by cases keyword <;> simp_all [complexWants, Data.isAtom])).trans ?_
    cases keyword <;> simp_all [denoteComplex, nullOption, Data.isAtom]
  obtain ⟨name, rfl⟩ : ∃ name, keyword = .atom name := by
    cases keyword <;> simp_all [Data.isAtom]
  simp only [Data.isAtom, Data.strequal_atom, beq_iff_eq, not_true_eq_false, if_false]
  by_cases htime : name = cString "time"
  · subst htime
    exact (gather_time hbert hpos).trans (by rfl)
  by_cases hdict : name = cString "dict"
  · subst hdict
    exact (gather_dict hbert hpos).trans (by rfl)
  by_cases hregex : name = cString "regex"
  · subst hregex
    exact (gather_regex hbert hpos).trans (by rfl)
  refine (gather_finish hbert hpos (by simp [complexWants, htime, hdict, hregex])).trans ?_
  simp only [denoteComplex, nullOption, List.nil_append, htime, hdict, hregex, if_false]
  split_ifs <;> simp_all

theorem gather_slots (hbert : ¬ first.isBert) (i : ℕ)
    (hi : rest.length + 1 + i = announced) :
    (Opening.tuple large announced).gather pull (first :: rest) =
      decodeTupleLoop pull i ((first :: rest).map some) := by
  induction i generalizing rest with
  | zero =>
      have hwants : (Opening.tuple large announced).wants (first :: rest) = none := by
        rw [wants, tupleWants, if_neg hbert, if_neg (by omega)]
      rw [gather_of_not_wants hwants]
      simp [finish, denoteTuple, hbert, ← hi, decodeTupleLoop]
  | succ i ih =>
      have hwants : (Opening.tuple large announced).wants (first :: rest) = some false := by
        rw [wants, tupleWants, if_neg hbert, if_pos (by omega)]
      have hleft : announced - (rest.length + 2) = i := by omega
      rw [gather_of_wants hwants, decodeTupleLoop]
      refine congrArg (pull >>= ·) (funext fun answer ↦ ?_)
      obtain ⟨result, slot⟩ := answer
      cases slot with
      | none => simp [lost, hbert, hleft]
      | some d =>
          have hnext := @ih (rest ++ [d])
            (by rw [List.length_append, List.length_singleton]; omega)
          rw [List.map_cons, List.map_append] at hnext
          simp [hnext]

end Complex

theorem gather_entries {announced : ℕ} (ds : List (Data F)) (i : ℕ)
    (hi : ds.length + i = announced) :
    (Opening.list announced).gather pull ds = decodeListLoop pull i ds.getLast? false ds := by
  induction i generalizing ds with
  | zero =>
      have hwants : (Opening.list announced).wants ds = none := if_neg (by omega)
      rw [gather_of_not_wants hwants]
      rfl
  | succ i ih =>
      have hwants : (Opening.list announced).wants ds = some false := if_pos (by omega)
      have hleft : announced - (ds.length + 1) = i := by omega
      rw [gather_of_wants hwants, decodeListLoop]
      refine congrArg (pull >>= ·) (funext fun answer ↦ ?_)
      obtain ⟨result, data⟩ := answer
      cases data with
      | none => simp [lost, hleft]
      | some d =>
          have hnext := ih (ds ++ [d])
            (by rw [List.length_append, List.length_singleton]; omega)
          rw [List.getLast?_concat] at hnext
          simp [hnext]

theorem decode_eq_gather (o : Opening) (pull : Decode F (Result F)) :
    o.decode pull = o.gather pull [] := by
  cases o with
  | list announced => exact (gather_entries [] announced (Nat.zero_add announced)).symm
  | tuple large announced =>
      by_cases hpos : announced = 0
      · have hwants : (Opening.tuple large announced).wants ([] : List (Data F)) = none :=
          if_pos hpos
        rw [gather_of_not_wants hwants]
        simp [decode, bertDecodeTuple, finish, denoteTuple, hpos]
      · have hwants : (Opening.tuple large announced).wants ([] : List (Data F)) = some false :=
          if_neg hpos
        rw [gather_of_wants hwants, decode, bertDecodeTuple, if_neg hpos, pullPart_eq_pullElement]
        refine congrArg (pullElement pull false .stuck) (funext fun first ↦ ?_)
        by_cases hbert : first.isBert
        · rw [if_pos (first.isAtom_and_strequal_iff.mpr hbert)]
          exact (gather_bert hbert hpos).symm
        · rw [if_neg (mt first.isAtom_and_strequal_iff.mp hbert)]
          have hrest : ([] : List (Data F)).length + 1 + (announced - 1) = announced := by
            rw [List.length_nil]
            omega
          exact (gather_slots hbert (announced - 1) hrest).symm

end Opening

/-! ## Running the loop -/

section Run

variable {R : BertReader σ} {W : Watch (Event F) σ} {pull : Decode F (Result F)} {s t : σ}
  {d : Data F} {timePart : Bool} {lost : Decode F (Result F)} {next : Data F → Decode F (Result F)}

omit [Platform F]

theorem run_pullElement_some (h : run R pull s = .done (1, some d) t) :
    run R (pullElement pull timePart lost next) s = run R (next d) t := by
  simp [pullElement, h]

theorem run_pullElement_lost (h : run R pull s = .done (1, none) t) :
    run R (pullElement pull timePart lost next) s = run R lost t := by
  simp [pullElement, h]

/-- A pull that stores nothing ends the decode function, and for a part of a
time it destroys the unassigned pointer first. -/
theorem run_pullElement_none {code : Code} (hcode : code ≠ 1)
    (h : run R pull s = .done (code, none) t) :
    run R (pullElement pull timePart lost next) s =
      if timePart then .stuck t else .done ((code, none) : Result F) t := by
  cases timePart <;> simp [pullElement, h, hcode]

theorem run_pullElement_fault (h : run R pull s = .fault t) :
    run R (pullElement pull timePart lost next) s = .fault t := by
  rw [pullElement, run_bind, h, Outcome.bind_fault]

theorem along_of_along_pullElement (h : Along R W (pullElement pull timePart lost next) s) :
    Along R W pull s := by
  rw [pullElement, along_bind] at h
  exact h.1

theorem along_pullElement_some (h : run R pull s = .done (1, some d) t) :
    Along R W (pullElement pull timePart lost next) s ↔
      Along R W pull s ∧ Along R W (next d) t := by
  simp [pullElement, h]

theorem along_pullElement_none {code : Code} (hcode : code ≠ 1)
    (h : run R pull s = .done (code, none) t) :
    Along R W (pullElement pull timePart lost next) s ↔
      Along R W pull s ∧ (timePart → W.onStuck t) := by
  cases timePart <;> simp [pullElement, h, hcode]

theorem along_pullElement_fault (h : run R pull s = .fault t) :
    Along R W (pullElement pull timePart lost next) s ↔ Along R W pull s := by
  simp [pullElement, h]

end Run

namespace Opening

variable {R : BertReader σ} {W : Watch (Event F) σ} {o : Opening} {pull : Decode F (Result F)}
  {s u : σ} {ds ds' : List (Data F)} {timePart : Bool}

/-- Elements that return terms take the loop to the point behind them. -/
theorem run_gather_of_yields (h : Yields R pull s ds' u)
    (hwants : o.wants (ds ++ ds') = some timePart) :
    run R (o.gather pull ds) s = run R (o.gather pull (ds ++ ds')) u := by
  induction h generalizing ds with
  | nil s => rw [List.append_nil]
  | @cons s v u d ds' hpull hrest ih =>
      obtain ⟨b, hb⟩ := wants_of_append hwants
      rw [List.append_cons] at hwants ⊢
      rw [gather_of_wants hb, run_pullElement_some hpull, ih hwants]

theorem along_gather_of_yields (h : Yields R pull s ds' u)
    (hwants : o.wants (ds ++ ds') = some timePart) (halong : Along R W (o.gather pull ds) s) :
    Along R W (o.gather pull (ds ++ ds')) u := by
  induction h generalizing ds with
  | nil s => rwa [List.append_nil]
  | @cons s v u d ds' hpull hrest ih =>
      obtain ⟨b, hb⟩ := wants_of_append hwants
      rw [List.append_cons] at hwants ⊢
      rw [gather_of_wants hb, along_pullElement_some hpull] at halong
      exact ih hwants halong.2

end Opening

/-! ## What a container returns -/

section Returns

variable {R : BertReader σ} {pull : Decode F (Result F)} {s t : σ} {code : Code} {d : Data F}

omit [Platform F] in
/-- The tuple loop fills as many slots as it was told. -/
theorem exists_tuple_of_run_decodeTupleLoop {i : ℕ} {elements : List (Option (Data F))}
    (h : run R (decodeTupleLoop pull i elements) s = .done (code, some d) t) :
    ∃ slots, d = .tuple (elements ++ slots) ∧ slots.length = i := by
  induction i generalizing elements s with
  | zero =>
      cases h
      exact ⟨[], by rw [List.append_nil], rfl⟩
  | succ i ih =>
      rw [decodeTupleLoop, run_bind, Outcome.bind_eq_done_iff] at h
      obtain ⟨⟨result, slot⟩, u, -, h⟩ := h
      dsimp only at h
      split_ifs at h
      · cases h
      · obtain ⟨slots, rfl, hlength⟩ := ih h
        exact ⟨slot :: slots, by rw [List.append_assoc]; rfl, by rw [List.length_cons, hlength]⟩

omit [Platform F] in
/-- The list loop appends as many terms as it was told. -/
theorem exists_list_of_run_decodeListLoop {i : ℕ} {element : Option (Data F)} {twice : Bool}
    {entries : List (Data F)}
    (h : run R (decodeListLoop pull i element twice entries) s = .done (code, some d) t) :
    ∃ more, d = .list (entries ++ more) ∧ more.length = i := by
  induction i generalizing element twice entries s with
  | zero =>
      rw [decodeListLoop, run_bind, Outcome.bind_eq_done_iff] at h
      obtain ⟨_ | _, u, -, h⟩ := h
      · cases h
      · cases h
        exact ⟨[], by rw [List.append_nil], rfl⟩
  | succ i ih =>
      rw [decodeListLoop, run_bind, Outcome.bind_eq_done_iff] at h
      obtain ⟨⟨result, data⟩, u, -, h⟩ := h
      dsimp only at h
      split_ifs at h
      · cases h
      · cases h
      · cases data with
        | some d =>
            obtain ⟨more, rfl, hlength⟩ := ih h
            exact ⟨d :: more, by rw [List.append_assoc]; rfl, by rw [List.length_cons, hlength]⟩
        | none =>
            cases element with
            | none => cases h
            | some stale =>
                obtain ⟨more, rfl, hlength⟩ := ih h
                exact ⟨stale :: more, by rw [List.append_assoc]; rfl,
                  by rw [List.length_cons, hlength]⟩

omit [Platform F] in
theorem Opening.of_run_lost {o : Opening} {ds : List (Data F)}
    (h : run R (o.lost pull ds) s = .done (code, some d) t) :
    (∃ slots, d = .tuple slots) ∨ ∃ entries, d = .list entries := by
  cases o with
  | list announced =>
      rw [lost, run_bind, Outcome.bind_eq_done_iff] at h
      obtain ⟨stale, u, -, h⟩ := h
      obtain ⟨more, rfl, -⟩ := exists_list_of_run_decodeListLoop h
      exact .inr ⟨_, rfl⟩
  | tuple large announced =>
      cases ds with
      | nil => cases h
      | cons first rest =>
          rw [lost] at h
          split_ifs at h
          · cases h
          · obtain ⟨slots, rfl, -⟩ := exists_tuple_of_run_decodeTupleLoop h
            exact .inl ⟨_, rfl⟩

/-- A container that returns a term finished it behind elements that returned
terms, or lost one. -/
theorem Opening.run_gather_cases (o : Opening) {ds : List (Data F)}
    (h : run R (o.gather pull ds) s = .done (code, some d) t) :
    (∃ ds' u, Yields R pull s ds' u ∧
      run R (o.finish (ds ++ ds')) u = .done (code, some d) t) ∨
    (∃ slots, d = .tuple slots) ∨ ∃ entries, d = .list entries := by
  induction ds using Opening.gather.induct (o := o) generalizing s with
  | case1 ds hwants =>
      rw [gather_of_not_wants hwants] at h
      exact .inl ⟨[], s, .nil s, by rwa [List.append_nil]⟩
  | case2 ds timePart hwants ih =>
      rw [gather_of_wants hwants, pullElement, run_bind, Outcome.bind_eq_done_iff] at h
      obtain ⟨⟨result, data⟩, u, hpull, h⟩ := h
      dsimp only at h
      by_cases hone : result = 1
      · subst hone
        rw [if_neg (by simp)] at h
        cases data with
        | none => exact .inr (of_run_lost h)
        | some e =>
            rcases ih e h with ⟨ds', v, hyields, hfinish⟩ | hlost
            · rw [List.append_assoc] at hfinish
              exact .inl ⟨e :: ds', v, .cons hpull hyields, hfinish⟩
            · exact .inr hlost
      · rw [if_pos hone] at h
        split_ifs at h
        · rw [run_bind, Outcome.bind_eq_done_iff] at h
          obtain ⟨part, v, -, h⟩ := h
          cases h
        · cases h

/-- A container that returns neither a tuple nor a list was a complex term. -/
theorem Opening.run_decode_cases (o : Opening)
    (h : run R (o.decode pull) s = .done (code, some d) t) :
    (∃ slots, d = .tuple slots) ∨ (∃ entries, d = .list entries) ∨
      ∃ announced ds, Yields R pull s ds t ∧ denoteTuple announced ds = some d := by
  rw [o.decode_eq_gather] at h
  rcases o.run_gather_cases h with ⟨ds, u, hyields, hfinish⟩ | htuple | hlist
  · cases o with
    | list announced =>
        rw [finish, run_bind, Outcome.bind_eq_done_iff] at hfinish
        obtain ⟨_ | _, v, -, hfinish⟩ := hfinish
        · cases hfinish
        · cases hfinish
          exact .inr (.inl ⟨ds, rfl⟩)
    | tuple large announced =>
        simp only [finish, List.nil_append] at hfinish
        split at hfinish
        next e hdenote =>
            cases hfinish
            exact .inr (.inr ⟨announced, ds, hyields, hdenote⟩)
        next =>
            split_ifs at hfinish
            · cases hfinish
            · cases hfinish
  · exact .inl htuple
  · exact .inr (.inl hlist)

omit [Platform F] in
theorem exists_next_of_run_pullPart {next : Data F → Decode F (Result F)}
    (h : run R (pullPart pull next) s = .done (code, some d) t) :
    ∃ part u, run R pull s = .done (1, some part) u ∧
      run R (next part) u = .done (code, some d) t := by
  rw [pullPart, run_bind, Outcome.bind_eq_done_iff] at h
  obtain ⟨⟨result, data⟩, u, hpull, h⟩ := h
  dsimp only at h
  split_ifs at h with hone
  · cases h
  · rw [not_not] at hone
    subst hone
    cases data with
    | none => cases h
    | some part => exact ⟨part, u, hpull, h⟩

omit [Platform F] in
theorem exists_next_of_run_pullTimePart {next : Data F → Decode F (Result F)}
    (h : run R (pullTimePart pull next) s = .done (code, some d) t) :
    ∃ part u, run R pull s = .done (1, some part) u ∧
      run R (next part) u = .done (code, some d) t := by
  rw [pullTimePart, run_bind, Outcome.bind_eq_done_iff] at h
  obtain ⟨⟨result, data⟩, u, hpull, h⟩ := h
  dsimp only at h
  split_ifs at h with hone
  · cases data <;> cases h
  · rw [not_not] at hone
    subst hone
    cases data with
    | none => cases h
    | some part => exact ⟨part, u, hpull, h⟩

/-- A complex term is neither a tuple nor a list. -/
theorem not_container_of_run_decodeComplex
    (h : run R (bertDecodeComplex pull) s = .done (code, some d) t) :
    (∀ slots, d ≠ .tuple slots) ∧ ∀ entries, d ≠ .list entries := by
  obtain ⟨keyword, u, -, h⟩ := exists_next_of_run_pullPart h
  split_ifs at h with hatom hnil htrue hfalse htime hdict hregex
  · cases h
    exact ⟨fun _ ↦ nofun, fun _ ↦ nofun⟩
  · cases h
    exact ⟨fun _ ↦ nofun, fun _ ↦ nofun⟩
  · cases h
    exact ⟨fun _ ↦ nofun, fun _ ↦ nofun⟩
  · obtain ⟨m, v, -, h⟩ := exists_next_of_run_pullTimePart h
    split_ifs at h
    · obtain ⟨i, v', -, h⟩ := exists_next_of_run_pullTimePart h
      split_ifs at h
      · obtain ⟨j, v'', -, h⟩ := exists_next_of_run_pullTimePart h
        cases h
        exact ⟨fun _ ↦ nofun, fun _ ↦ nofun⟩
      · cases h
    · cases h
  · obtain ⟨listData, v, -, h⟩ := exists_next_of_run_pullPart h
    split at h
    · cases h
      exact ⟨fun _ ↦ nofun, fun _ ↦ nofun⟩
    · split at h
      · cases h
        exact ⟨fun _ ↦ nofun, fun _ ↦ nofun⟩
      · cases h
    · cases h
  · obtain ⟨source, v, -, h⟩ := exists_next_of_run_pullPart h
    split at h
    · obtain ⟨optList, v', -, h⟩ := exists_next_of_run_pullPart h
      split at h
      · split at h
        · cases h
          exact ⟨fun _ ↦ nofun, fun _ ↦ nofun⟩
        · cases h
        · cases h
      · cases h
    · cases h
  · cases h
  · cases h

/-- A tuple has as many slots as its header announces, and the first is the term
pulled first. -/
theorem exists_first_of_run_decodeTuple {announced : ℕ}
    (h : run R (bertDecodeTuple pull announced) s = .done (code, some d) t) :
    ((∀ slots, d ≠ .tuple slots) ∧ ∀ entries, d ≠ .list entries) ∨
      d = .tuple [] ∧ announced = 0 ∨
      ∃ first rest u, d = .tuple (some first :: rest) ∧ announced = rest.length + 1 ∧
        run R pull s = .done (1, some first) u := by
  rw [bertDecodeTuple] at h
  split_ifs at h with hzero
  · cases h
    exact .inr (.inl ⟨rfl, hzero⟩)
  · obtain ⟨first, u, hpull, h⟩ := exists_next_of_run_pullPart h
    split_ifs at h
    · exact .inl (not_container_of_run_decodeComplex h)
    · obtain ⟨rest, rfl, hlength⟩ := exists_tuple_of_run_decodeTupleLoop h
      exact .inr (.inr ⟨first, rest, u, rfl, by omega, hpull⟩)

omit [Platform F] in
/-- A list has as many entries as its header announces, and the first is the term
pulled first. -/
theorem exists_first_of_run_decodeListLoop {announced : ℕ}
    (h : run R (decodeListLoop pull announced none false []) s = .done (code, some d) t) :
    d = .list [] ∧ announced = 0 ∨
      ∃ first rest u, d = .list (first :: rest) ∧ announced = rest.length + 1 ∧
        run R pull s = .done (1, some first) u := by
  cases announced with
  | zero =>
      obtain ⟨more, rfl, hlength⟩ := exists_list_of_run_decodeListLoop h
      rw [List.length_eq_zero_iff.mp hlength]
      exact .inl ⟨rfl, rfl⟩
  | succ n =>
      rw [decodeListLoop, run_bind, Outcome.bind_eq_done_iff] at h
      obtain ⟨⟨result, data⟩, u, hpull, h⟩ := h
      simp only [Bool.false_eq_true, if_false] at h
      split_ifs at h with hone
      · cases h
      · rw [not_not] at hone
        subst hone
        cases data with
        | none => cases h
        | some first =>
            obtain ⟨rest, rfl, hlength⟩ := exists_list_of_run_decodeListLoop h
            exact .inr ⟨first, rest, u, rfl, by omega, hpull⟩

end Returns

end LibBert
