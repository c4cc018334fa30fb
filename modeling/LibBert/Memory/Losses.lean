import LibBert.Memory.Leaks

/-!
# Pulls that lose nothing

On the way to a term that is stored, the functions of `private/decode.c` lose the source
of a regular expression at most: the microseconds of a time are destroyed without a look
at their type.  A pull of input without times, or without regular expressions, that
stores a term has abandoned nothing.
-/

namespace LibBert

open Reading

variable {F α β : Type} {plain : Prop}

/-- The terms behind which nothing is promised: regular expressions where the input is
to be without them, and times elsewhere. -/
def Data.Lossy (plain : Prop) : Data F → Prop
  | .regex _ _ => plain
  | .time _ => ¬ plain
  | _ => False

/-- Nothing is promised once a pull stores such a term, or returns 1 without a term. -/
def losing (plain : Prop) : Contract (HeapEvent (Event F)) where
  legal _ := True
  ends
    | .mark (.leave result none) => result = 1
    | .mark (.leave _ (some d)) => d.Lossy plain
    | _ => False

namespace Owned

/-- Where the input is to be without regular expressions there is no source below. -/
def Clear (plain : Prop) (d : Owned F) : Prop := plain → sources d = 0

theorem clear_of_sources {d : Owned F} (hd : sources d = 0) : Clear plain d := fun _ ↦ hd

theorem sources_of_isAtom {d : Owned F} (hd : d.erase.isAtom) : sources d = 0 := by
  cases d <;> first | rfl | cases hd

theorem sources_setText (d : Owned F) (bytes : List UInt8) :
    sources (d.setText bytes) = sources d := by
  cases d <;> rfl

end Owned

namespace Managed

open Storing
open Owned (sources sourcesSlot sourcesSlots sourcesNodes sourcesPairs Clear)

/-- The program abandons nothing, and its value satisfies `Q`. -/
def Spares (plain : Prop) (Q : α → Prop) (m : Managed F α) : Prop :=
  ∀ h, Meets (losing plain) (fun r ↦ r.2.abandoned = h.abandoned ∧ Q r.1) (m h)

/-- Where a term is stored that is none of those, nothing has been abandoned. -/
def Stores (plain : Prop) (m : Managed F (Result F)) : Prop :=
  ∀ h, Meets (losing plain) (fun r ↦ ∀ d, r.1.2 = some d →
    d.erase.Lossy plain ∨ r.2.abandoned = h.abandoned ∧ Clear plain d) (m h)

/-- A pull that returns 1 has stored a term, and then nothing has been abandoned. -/
def Pulls (plain : Prop) (m : Managed F (Result F)) : Prop :=
  ∀ h, Meets (losing plain) (fun r ↦ (r.1.1 = 1 → r.1.2 ≠ none) ∧
    ∀ d, r.1.2 = some d → r.2.abandoned = h.abandoned ∧ Clear plain d) (m h)

variable {P : α → Prop} {Q : β → Prop} {m : Managed F α}

theorem Spares.bind {f : α → Managed F β} (hm : Spares plain P m)
    (hf : ∀ a, P a → Spares plain Q (f a)) : Spares plain Q (m >>= f) := fun h ↦
  meets_bind (hm h) fun a h' hr ↦ (hf a hr.2 h').mono fun _ hr' ↦ ⟨hr'.1.trans hr.1, hr'.2⟩

theorem Spares.stores {f : α → Managed F (Result F)} (hm : Spares plain P m)
    (hf : ∀ a, P a → Stores plain (f a)) : Stores plain (m >>= f) := fun h ↦
  meets_bind (hm h) fun a h' hr ↦ (hf a hr.2 h').mono fun _ hr' d hd ↦
    (hr' d hd).imp_right fun hkept ↦ ⟨hkept.1.trans hr.1, hkept.2⟩

theorem Spares.mono {P' : α → Prop} (hm : Spares plain P m) (hP : ∀ a, P a → P' a) :
    Spares plain P' m := fun h ↦ (hm h).mono fun r hr ↦ ⟨hr.1, hP r.1 hr.2⟩

theorem spares_pure {a : α} (ha : P a) : Spares plain P (pure a : Managed F α) :=
  fun _ ↦ ⟨rfl, ha⟩

theorem spares_ite {c : Prop} [Decidable c] {m m' : Managed F α} (hm : Spares plain P m)
    (hm' : Spares plain P m') : Spares plain P (if c then m else m') := by
  split_ifs
  · exact hm
  · exact hm'

theorem spares_lift (p : Decode F α) : Spares plain (fun _ ↦ True) (lift p) := fun _ ↦
  (meets_lift (fun _ ↦ trivial) p).mono fun _ hr ↦ ⟨congrArg Heap.abandoned hr, trivial⟩

theorem spares_assigned (a : Option α) :
    Spares plain (fun x ↦ a = some x) (assigned a : Managed F α) := fun _ ↦
  meets_assigned fun _ hx ↦ ⟨rfl, hx⟩

theorem spares_malloc (size : ℕ) :
    Spares plain (fun _ ↦ True) (malloc size : Managed F _) := by
  intro h
  rw [malloc]
  split_ifs
  · exact ⟨rfl, trivial⟩
  · exact .inr ⟨trivial, rfl, trivial⟩

/-- What abandons nothing and only has events. -/
theorem Abandons.spares {m : Managed F Unit} (hm : Abandons 0 m) :
    Spares plain (fun _ ↦ True) m :=
  fun h ↦ ((hm h).meets (fun _ ↦ trivial) fun _ ↦ trivial).mono fun _ hr ↦
    ⟨hr.trans (zero_add _), trivial⟩

theorem spares_write (b : Block) (offset size length : ℕ) :
    Spares plain (fun _ ↦ True) (write b offset size length : Managed F Unit) := by
  intro h
  rw [write]
  split_ifs
  · exact .inr ⟨trivial, trivial⟩
  · exact ⟨rfl, trivial⟩
  · exact .inr ⟨trivial, trivial⟩

theorem spares_destroy {d : Owned F} (hd : sources d = 0) :
    Spares plain (fun _ ↦ True) (bertDataDestroy d) :=
  Abandons.spares (hd ▸ abandons_destroy d)

theorem spares_touchAll (bs : List Block) :
    Spares plain (fun _ ↦ True) (touchAll bs : Managed F Unit) := by
  induction bs with
  | nil => exact spares_pure trivial
  | cons b bs ih => exact (abandons_touch b).spares.bind fun _ _ ↦ ih

theorem spares_look (d : Owned F) : Spares plain (fun _ ↦ True) (look d) := spares_touchAll d.own

theorem spares_lookSlots (slots : List (Option (Owned F))) :
    Spares plain (fun _ ↦ True) (lookSlots slots) := by
  induction slots with
  | nil => exact spares_pure trivial
  | cons slot slots ih =>
      cases slot with
      | none => exact ih
      | some d => exact (spares_look d).bind fun _ _ ↦ ih

/-! ## Ways out without a term -/

def StoresNone (plain : Prop) (m : Managed F (Result F)) : Prop :=
  ∀ h, Meets (losing plain) (fun r ↦ r.1.2 = none) (m h)

theorem storesNone_return (result : Code) :
    StoresNone plain (pure (result, none) : Managed F (Result F)) := fun _ ↦ rfl

/-- Whatever comes before. -/
theorem storesNone_behind (m : Managed F α) {f : α → Managed F (Result F)}
    (hf : ∀ a, StoresNone plain (f a)) : StoresNone plain (m >>= f) := fun h ↦
  meets_bind (Meets.of_legal (fun _ ↦ trivial) (m h)) fun a h' _ ↦ hf a h'

theorem storesNone_cleanup (held : List (Owned F)) (result : Code) :
    StoresNone plain (cleanup held result) := storesNone_behind _ fun _ ↦ storesNone_return result

theorem StoresNone.stores {m : Managed F (Result F)} (hm : StoresNone plain m) :
    Stores plain m := fun h ↦
  (hm h).mono fun _ hr d hd ↦ absurd (hr.symm.trans hd) (Option.some_ne_none d).symm

theorem stores_return (result : Code) :
    Stores plain (pure (result, none) : Managed F (Result F)) := (storesNone_return result).stores

theorem stores_cleanup (held : List (Owned F)) (result : Code) :
    Stores plain (cleanup held result) := (storesNone_cleanup held result).stores

theorem stores_some {d : Owned F} (hd : Clear plain d) (result : Code) :
    Stores plain (pure (result, some d) : Managed F (Result F)) := by
  rintro h _ ⟨⟩
  exact .inr ⟨rfl, hd⟩

/-- Whatever comes before a term that is one of those. -/
theorem stores_lossy (m : Managed F α) {f : α → Managed F (Result F)}
    (hf : ∀ a h,
      Meets (losing plain) (fun r ↦ ∀ d, r.1.2 = some d → d.erase.Lossy plain) (f a h)) :
    Stores plain (m >>= f) := fun h ↦
  meets_bind (Meets.of_legal (fun _ ↦ trivial) (m h)) fun a h' _ ↦
    (hf a h').mono fun _ hr d hd ↦ .inl (hr d hd)

theorem stores_ite {c : Prop} [Decidable c] {m m' : Managed F (Result F)} (hm : Stores plain m)
    (hm' : Stores plain m') : Stores plain (if c then m else m') := by
  split_ifs
  · exact hm
  · exact hm'

/-! ## Creating -/

theorem spares_create {fields : Block → Owned F} :
    Spares plain (fun answer ↦ ∀ d, answer = some d → ∃ data, d = fields data)
      (bertDataCreate fields) := by
  refine (spares_malloc _).bind fun answer _ ↦ ?_
  cases answer with
  | none => exact spares_pure fun d hd ↦ by cases hd
  | some data => exact spares_pure fun d hd ↦ ⟨data, (Option.some_inj.mp hd).symm⟩

theorem spares_createWith {size : ℕ} {fields : Block → Block → Owned F} :
    Spares plain (fun answer ↦ ∀ d, answer = some d → ∃ data block, d = fields data block)
      (createWith size fields) := by
  refine (spares_malloc _).bind fun answer _ ↦ ?_
  cases answer with
  | none => exact spares_pure fun d hd ↦ by cases hd
  | some block =>
      refine spares_create.bind fun answer hanswer ↦ ?_
      cases answer with
      | none => exact (abandons_free block).spares.bind fun _ _ ↦ spares_pure fun d hd ↦ by cases hd
      | some d' =>
          refine spares_pure fun d hd ↦ ?_
          obtain ⟨data, hdata⟩ := hanswer d hd
          exact ⟨data, block, hdata⟩

theorem sourcesSlots_replicate (length : ℕ) :
    sourcesSlots (List.replicate length (none : Option (Owned F))) = 0 := by
  induction length with
  | zero => rfl
  | succ length ih =>
      rw [List.replicate_succ, sourcesSlots, ih]
      rfl

theorem spares_createTuple (length : ℕ) :
    Spares plain (fun answer ↦ ∀ d : Owned F, answer = some d → sources d = 0)
      (bertDataCreateTuple length) := by
  have hbody : Spares plain (fun _ ↦ True) (bertTupleCreate length : Managed F _) := by
    refine (spares_malloc _).bind fun answer _ ↦ ?_
    cases answer with
    | none => exact spares_pure trivial
    | some elements =>
        refine (spares_malloc _).bind fun answer _ ↦ ?_
        cases answer with
        | none => exact (abandons_free elements).spares.bind fun _ _ ↦ spares_pure trivial
        | some header => exact spares_pure trivial
  refine hbody.bind fun answer _ ↦ ?_
  cases answer with
  | none => exact spares_pure fun d hd ↦ by cases hd
  | some pair =>
      refine spares_create.bind fun answer hanswer ↦ ?_
      cases answer with
      | none =>
          exact (abandons_free _).spares.bind fun _ _ ↦ (abandons_free _).spares.bind fun _ _ ↦
            spares_pure fun d hd ↦ by cases hd
      | some d' =>
          refine spares_pure fun d hd ↦ ?_
          obtain ⟨data, rfl⟩ := hanswer d hd
          exact sourcesSlots_replicate length

/-! ## Scalars -/

theorem stores_behind {field : Managed F (Except Code α)} {next : α → Managed F (Result F)}
    (hfield : Spares plain (fun _ ↦ True) field) (hnext : ∀ a, Stores plain (next a)) :
    Stores plain (behind field next) := by
  refine hfield.stores fun answer _ ↦ ?_
  cases answer with
  | error result => exact stores_return result
  | ok a => exact hnext a

theorem stores_field {p : Decode F (Except Code α)} {next : α → Managed F (Result F)}
    (hnext : ∀ a, Stores plain (next a)) : Stores plain (behind (lift p) next) :=
  stores_behind (spares_lift p) hnext

theorem stores_allocated {shape : Owned F → Prop} {create : Managed F (Option (Owned F))}
    {failed : Managed F (Result F)} {next : Owned F → Managed F (Result F)}
    (hcreate : Spares plain (fun answer ↦ ∀ d, answer = some d → shape d) create)
    (hfailed : Stores plain failed) (hnext : ∀ d, shape d → Stores plain (next d)) :
    Stores plain (allocated create failed next) := by
  refine hcreate.stores fun answer hanswer ↦ ?_
  cases answer with
  | none => exact hfailed
  | some d => exact hnext d (hanswer d rfl)

theorem stores_finish {fields : Block → Owned F} (hfields : ∀ data, sources (fields data) = 0) :
    Stores plain (finish (bertDataCreate fields)) := by
  refine stores_allocated spares_create (stores_return _) ?_
  rintro _ ⟨data, rfl⟩
  exact stores_some (Owned.clear_of_sources (hfields data)) _

theorem spares_writeText (dest : Option Block) (offset size length : ℕ) :
    Spares plain (fun _ ↦ True) (writeText dest offset size length : Managed F Unit) := by
  cases dest with
  | none => exact spares_pure trivial
  | some b => exact spares_write b offset size length

theorem spares_decodeBytes (dest : Option Block) (length : ℕ) :
    Spares plain (fun _ ↦ True) (bertDecodeBytes dest length : Managed F _) := by
  have hloop (fuel index : ℕ) (bytes : List UInt8) : Spares plain (fun _ ↦ True)
      (decodeBytesLoop dest length fuel index bytes : Managed F _) := by
    induction fuel generalizing index bytes with
    | zero => exact fun _ ↦ trivial
    | succ fuel ih =>
        rw [decodeBytesLoop]
        refine spares_ite ?_ (spares_pure trivial)
        refine (spares_lift _).bind fun answer _ ↦ ?_
        cases answer with
        | error result => exact spares_pure trivial
        | ok chunk => exact (spares_writeText _ _ _ _).bind fun _ _ ↦ ih _ _
  exact hloop _ _ _

theorem stores_int (i : Int64) : Stores plain (finish (bertDataCreateInt i) : Managed F _) :=
  stores_finish fun _ ↦ rfl

theorem stores_float [Platform F] : Stores plain (bertDecodeFloat : Managed F _) := by
  refine stores_behind (spares_decodeBytes _ _) fun floatBuffer ↦ ?_
  cases (Platform.sscanf (floatBuffer ++ [0]) : Option F) with
  | none => exact stores_return _
  | some floatingPoint => exact stores_finish fun _ ↦ rfl

theorem stores_bignum (size : ℕ) : Stores plain (bertDecodeBignum size : Managed F _) :=
  stores_ite (stores_return _) (stores_field fun _ ↦
    stores_behind (spares_decodeBytes _ _) fun _ ↦ stores_int _)

theorem stores_text {size length : ℕ} {fields : Block → Block → Owned F}
    (hfields : ∀ data block, sources (fields data block) = 0) :
    Stores plain (decodeText (createWith size fields) length) := by
  refine stores_allocated spares_createWith (stores_return _) ?_
  rintro _ ⟨data, block, rfl⟩
  refine stores_ite (stores_some (Owned.clear_of_sources (hfields data block)) _) ?_
  refine (spares_decodeBytes _ _).stores fun answer _ ↦ ?_
  cases answer with
  | error result => exact (storesNone_behind _ fun _ ↦ storesNone_return _).stores
  | ok bytes =>
      refine stores_some (Owned.clear_of_sources ?_) _
      rw [Owned.sources_setText, hfields]

/-! ## Nested pulls -/

section Nested

variable {pull : Managed F (Result F)} {held : List (Owned F)}
  {next : Owned F → Managed F (Result F)}

/-- A function goes on with the term a pull has stored. -/
theorem Pulls.stores (hpull : Pulls plain pull) {f : Result F → Managed F (Result F)}
    (hfailed : ∀ result data, result ≠ 1 → StoresNone plain (f (result, data)))
    (hstored : ∀ d, Clear plain d → Stores plain (f (1, some d))) :
    Stores plain (pull >>= f) := by
  intro h
  refine meets_bind (hpull h) ?_
  rintro ⟨result, data⟩ h' ⟨hcode, hkept⟩
  dsimp only at hcode hkept
  by_cases hresult : result = 1
  · subst hresult
    obtain ⟨d, rfl⟩ := Option.ne_none_iff_exists'.mp (hcode rfl)
    obtain ⟨habandoned, hclear⟩ := hkept d rfl
    exact (hstored d hclear h').mono fun _ hr d hd ↦
      (hr d hd).imp_right fun hkept ↦ ⟨hkept.1.trans habandoned, hkept.2⟩
  · exact (hfailed result data hresult h').mono fun _ hr d hd ↦
      absurd (hr.symm.trans hd) (Option.some_ne_none d).symm

theorem stores_pullPart (hpull : Pulls plain pull)
    (hnext : ∀ part, Clear plain part → Stores plain (next part)) :
    Stores plain (pullPart pull held next) := by
  refine hpull.stores (fun result data hresult ↦ ?_) fun d hd ↦ ?_
  · dsimp only
    rw [if_pos hresult]
    exact storesNone_cleanup held result
  · exact (spares_look d).stores fun _ _ ↦ hnext d hd

theorem stores_pullTimePart (hpull : Pulls plain pull)
    (hnext : ∀ part, Clear plain part → Stores plain (next part)) :
    Stores plain (pullTimePart pull held next) := by
  refine hpull.stores (fun result data hresult ↦ ?_) fun d hd ↦ ?_
  · dsimp only
    rw [if_pos hresult]
    exact storesNone_behind _ fun _ ↦ storesNone_behind _ fun _ ↦ storesNone_cleanup held result
  · exact (spares_look d).stores fun _ _ ↦ hnext d hd

/-- The type of the microseconds is not checked. -/
theorem stores_time [Platform F] (hpull : Pulls plain pull) :
    Stores plain (bertDecodeTime pull) := by
  refine stores_pullTimePart hpull fun megaseconds hmegaseconds ↦ ?_
  refine stores_ite (stores_cleanup _ _) ?_
  refine stores_pullTimePart hpull fun seconds hseconds ↦ ?_
  refine stores_ite (stores_cleanup _ _) ?_
  refine stores_pullTimePart hpull fun microseconds hmicroseconds ↦ ?_
  refine stores_ite (stores_cleanup _ _) ?_
  refine (spares_look _).stores fun _ _ ↦ (spares_look _).stores fun _ _ ↦
    (spares_look _).stores fun _ _ ↦ ?_
  by_cases hplain : plain
  · refine ((spares_destroy (hmicroseconds hplain)).bind fun _ _ ↦ ?_ :
      Spares plain (fun _ ↦ True) (destroyAll _)).stores fun _ _ ↦ stores_finish fun _ ↦ rfl
    refine (spares_destroy (hseconds hplain)).bind fun _ _ ↦ ?_
    exact (spares_destroy (hmegaseconds hplain)).bind fun _ _ ↦ spares_pure trivial
  · refine stores_lossy _ fun _ h ↦ ?_
    refine meets_bind (spares_create h) fun answer h hanswer ↦ ?_
    cases answer with
    | none => exact fun d hd ↦ by cases hd
    | some newData =>
        rintro _ ⟨⟩
        obtain ⟨data, rfl⟩ := hanswer.2 _ rfl
        exact hplain

theorem sourcesNodes_append (xs ys : List (Block × Owned F)) :
    sourcesNodes (xs ++ ys) = sourcesNodes xs + sourcesNodes ys := by
  induction xs with
  | nil => exact (zero_add _).symm
  | cons node xs ih => rw [List.cons_append, sourcesNodes, sourcesNodes, ih, add_assoc]

theorem sourcesPairs_append (xs ys : List (Block × Option (Owned F) × Option (Owned F))) :
    sourcesPairs (xs ++ ys) = sourcesPairs xs + sourcesPairs ys := by
  induction xs with
  | nil => exact (zero_add _).symm
  | cons node xs ih =>
      rw [List.cons_append, sourcesPairs, sourcesPairs, ih]
      abel

theorem spares_dictAppend (dict : Owned F) (key value : Option (Owned F)) :
    Spares plain (fun answer ↦ answer.2 = dict ∧ answer.1 = bertErrnoMalloc ∨
        ∃ node, answer = (bertSuccess, dict.pushPair node key value))
      (bertDictAppend dict key value) := by
  refine (spares_malloc _).bind fun answer _ ↦ ?_
  cases answer with
  | none => exact spares_pure (.inl ⟨rfl, rfl⟩)
  | some node =>
      exact (spares_look dict).bind fun _ _ ↦ (spares_touchAll _).bind fun _ _ ↦
        spares_pure (.inr ⟨node, rfl⟩)

theorem spares_listAppend (list d : Owned F) :
    Spares plain (fun answer ↦ answer.2 = list ∧ answer.1 = bertErrnoMalloc ∨
        ∃ node, answer = (bertSuccess, list.pushNode node d))
      (bertListAppend list d) := by
  refine (spares_malloc _).bind fun answer _ ↦ ?_
  cases answer with
  | none => exact spares_pure (.inl ⟨rfl, rfl⟩)
  | some node =>
      exact (spares_look list).bind fun _ _ ↦ (spares_touchAll _).bind fun _ _ ↦
        spares_pure (.inr ⟨node, rfl⟩)

/-- The tuples that were passed are empty. -/
theorem stores_dictLoop {newData newHeader data header : Block}
    (pairs : List (Block × Option (Owned F) × Option (Owned F)))
    (passed rest : List (Block × Owned F)) (hpairs : plain → sourcesPairs pairs = 0)
    (hpassed : sourcesNodes passed = 0) (hrest : plain → sourcesNodes rest = 0) :
    Stores plain
      (decodeDictLoop (.dict newData newHeader pairs) (.list data header) passed rest) := by
  induction rest generalizing pairs passed with
  | nil =>
      have hlist : sources (Owned.list data header passed) = 0 := hpassed
      have hdict : Clear plain (.dict newData newHeader pairs) := hpairs
      exact (spares_destroy hlist).stores fun _ _ ↦ stores_some hdict _
  | cons entry rest ih =>
      obtain ⟨node, nextTuple⟩ := entry
      by_cases hpair : ∃ tupleData tupleHeader elements key value,
          nextTuple = .tuple tupleData tupleHeader elements [key, value]
      · obtain ⟨tupleData, tupleHeader, elements, key, value, rfl⟩ := hpair
        rw [decodeDictLoop]
        refine (abandons_touch node).spares.stores fun _ _ ↦ (spares_look _).stores fun _ _ ↦ ?_
        refine (spares_dictAppend _ _ _).stores ?_
        rintro answer (⟨-, hmalloc⟩ | ⟨entry, rfl⟩)
        · dsimp only
          rw [if_pos hmalloc]
          exact (storesNone_behind _ fun _ ↦ storesNone_behind _ fun _ ↦
            storesNone_cleanup _ _).stores
        · have hparts (hplain : plain) : sourcesSlot key = 0 ∧ sourcesSlot value = 0 ∧
              sourcesNodes rest = 0 := by
            have hzero := hrest hplain
            simpa only [sourcesNodes, sources, sourcesSlots, add_zero, add_eq_zero,
              and_assoc] using hzero
          refine ih _ _ (fun hplain ↦ ?_) ?_ fun hplain ↦ (hparts hplain).2.2
          · rw [sourcesPairs_append, hpairs hplain, sourcesPairs, (hparts hplain).1,
              (hparts hplain).2.1]
            rfl
          · rw [sourcesNodes_append, hpassed]
            rfl
      · rw [decodeDictLoop]
        swap
        · exact fun tupleData tupleHeader elements key value heq ↦
            hpair ⟨tupleData, tupleHeader, elements, key, value, heq⟩
        exact (storesNone_behind _ fun _ ↦ storesNone_behind _ fun _ ↦
          storesNone_cleanup _ _).stores

theorem stores_dict (hpull : Pulls plain pull) : Stores plain (bertDecodeDict pull) := by
  refine stores_pullPart hpull fun listData hclear ↦ ?_
  cases listData with
  | nil data =>
      refine stores_allocated spares_createWith (stores_cleanup _ _) ?_
      rintro _ ⟨newData, header, rfl⟩
      exact (abandons_destroyPlain data).spares.stores fun _ _ ↦ stores_some (fun _ ↦ rfl) _
  | list data header nodes =>
      refine stores_allocated spares_createWith (stores_cleanup _ _) ?_
      rintro _ ⟨newData, newHeader, rfl⟩
      exact stores_dictLoop [] [] nodes (fun _ ↦ rfl) rfl hclear
  | _ => exact stores_cleanup _ _

/-- An option is an atom or a tuple of two atoms. -/
theorem sources_of_regexOption {d : Owned F} {mask : UInt32}
    (hmask : regexOption d.erase = .mask mask) : sources d = 0 := by
  cases d with
  | atom data text name => rfl
  | tuple data header elements slots =>
      match slots with
      | [some tag, some name] =>
          simp only [Owned.erase, Owned.eraseSlots, Owned.eraseSlot, regexOption] at hmask
          split_ifs at hmask with htag hnewline hname
          simp only [sources, sourcesSlots, sourcesSlot, Owned.sources_of_isAtom htag,
            Owned.sources_of_isAtom hname, add_zero]
      | [some tag, none] =>
          simp only [Owned.erase, Owned.eraseSlots, Owned.eraseSlot, regexOption] at hmask
          split_ifs at hmask
      | [none, _] => cases hmask
      | [] => cases hmask
      | [_] => simp [Owned.erase, Owned.eraseSlots, regexOption] at hmask
      | _ :: _ :: _ :: _ => simp [Owned.erase, Owned.eraseSlots, regexOption] at hmask
  | _ => cases hmask

theorem spares_lookOption (nextOpt : Owned F) :
    Spares plain (fun _ ↦ True) (lookOption nextOpt) := by
  refine (spares_look nextOpt).bind fun _ _ ↦ ?_
  cases nextOpt with
  | tuple data header elements slots => exact spares_lookSlots slots
  | _ => exact spares_pure trivial

theorem spares_optionsLoop (nodes : List (Block × Owned F)) (options : UInt32) :
    Spares plain (fun answer ↦ answer ≠ none → sourcesNodes nodes = 0)
      (regexOptionsLoop nodes options) := by
  induction nodes generalizing options with
  | nil => exact spares_pure fun _ ↦ rfl
  | cons entry rest ih =>
      obtain ⟨node, nextOpt⟩ := entry
      rw [regexOptionsLoop]
      refine (abandons_touch node).spares.bind fun _ _ ↦ (spares_lookOption _).bind fun _ _ ↦ ?_
      cases hoption : regexOption nextOpt.erase with
      | mask mask =>
          refine (ih _).mono fun answer hrest hanswer ↦ ?_
          rw [sourcesNodes, sources_of_regexOption hoption, hrest hanswer, add_zero]
      | invalid => exact spares_pure fun hnone ↦ absurd rfl hnone
      | null => exact fun _ ↦ trivial

theorem spares_createRegex (source : List UInt8) (length options : UInt32) :
    Spares plain (fun answer ↦ ∀ d : Owned F, answer = some d →
        ∃ data text, d = .regex data text source options)
      (bertDataCreateRegex source length options) := by
  refine (spares_malloc _).bind fun answer _ ↦ ?_
  cases answer with
  | none => exact spares_pure fun d hd ↦ by cases hd
  | some text =>
      refine (spares_write _ _ _ _).bind fun _ _ ↦ (spares_write _ _ _ _).bind fun _ _ ↦ ?_
      refine spares_create.bind fun answer hanswer ↦ ?_
      cases answer with
      | none => exact (abandons_free text).spares.bind fun _ _ ↦ spares_pure fun d hd ↦ by cases hd
      | some d' =>
          refine spares_pure fun d hd ↦ ?_
          obtain ⟨data, hdata⟩ := hanswer d hd
          exact ⟨data, text, hdata⟩

theorem stores_regex (hpull : Pulls plain pull) : Stores plain (bertDecodeRegex pull) := by
  refine stores_pullPart hpull fun source _ ↦ ?_
  cases source with
  | bin sourceData text bytes =>
      refine stores_pullPart hpull fun optList _ ↦ ?_
      cases optList with
      | list data header nodes =>
          refine (spares_optionsLoop nodes 0).stores fun answer hanswer ↦ ?_
          cases answer with
          | none => exact stores_cleanup _ _
          | some options =>
              have hlist : sources (Owned.list data header nodes) = 0 :=
                hanswer (Option.some_ne_none options)
              refine (spares_destroy hlist).stores fun _ _ ↦ (spares_look _).stores fun _ _ ↦ ?_
              refine stores_allocated (spares_createRegex _ _ _) (stores_cleanup _ _) ?_
              rintro _ ⟨data, text, rfl⟩
              refine (spares_destroy rfl).stores fun _ _ h ↦ ?_
              rintro _ ⟨⟩
              by_cases hplain : plain
              · exact .inl hplain
              · exact .inr ⟨rfl, fun h ↦ absurd h hplain⟩
      | _ => exact stores_cleanup _ _
  | _ => exact stores_cleanup _ _

theorem stores_finishKeyword {keyword : Owned F} {fields : Block → Owned F}
    (hkeyword : sources keyword = 0) (hfields : ∀ data, sources (fields data) = 0) :
    Stores plain (finishKeyword keyword (bertDataCreate fields)) := by
  refine spares_create.stores fun answer hanswer ↦ (spares_destroy hkeyword).stores fun _ _ ↦ ?_
  cases answer with
  | none => exact stores_return _
  | some newData =>
      obtain ⟨data, rfl⟩ := hanswer newData rfl
      exact stores_some (Owned.clear_of_sources (hfields data)) _

theorem stores_complex [Platform F] (hpull : Pulls plain pull) :
    Stores plain (bertDecodeComplex pull) := by
  refine stores_pullPart hpull fun keyword _ ↦ ?_
  by_cases hatom : keyword.erase.isAtom
  swap
  · rw [if_pos hatom]
    exact (storesNone_behind _ fun _ ↦ storesNone_return _).stores
  rw [if_neg (not_not.mpr hatom)]
  have hkeyword := Owned.sources_of_isAtom hatom
  have hbehind {next : Managed F (Result F)} (hnext : Stores plain next) :
      Stores plain (behindKeyword keyword next) :=
    (spares_destroy hkeyword).stores fun _ _ ↦ hnext
  refine stores_ite (stores_finishKeyword hkeyword fun _ ↦ rfl) ?_
  refine stores_ite (stores_finishKeyword hkeyword fun _ ↦ rfl) ?_
  refine stores_ite (stores_finishKeyword hkeyword fun _ ↦ rfl) ?_
  refine stores_ite (hbehind (stores_time hpull)) ?_
  refine stores_ite (hbehind (stores_dict hpull)) ?_
  exact stores_ite (hbehind (stores_regex hpull)) (stores_cleanup _ _)

theorem sourcesSlots_set {slots : List (Option (Owned F))} {slot : Option (Owned F)}
    (hslots : sourcesSlots slots = 0) (hslot : sourcesSlot slot = 0) (i : ℕ) :
    sourcesSlots (slots.set i slot) = 0 := by
  induction slots generalizing i with
  | nil => rfl
  | cons first slots ih =>
      rw [sourcesSlots, add_eq_zero] at hslots
      cases i with
      | zero => rw [List.set_cons_zero, sourcesSlots, hslot, hslots.2, add_zero]
      | succ i => rw [List.set_cons_succ, sourcesSlots, hslots.1, ih hslots.2, add_zero]

theorem clear_setSlot {d part : Owned F} (hd : Clear plain d) (hpart : Clear plain part) (i : ℕ) :
    Clear plain (d.setSlot i (some part)) := by
  intro hplain
  cases d with
  | tuple data header elements slots =>
      have hslot : sourcesSlot (some part) = 0 := hpart hplain
      exact sourcesSlots_set (hd hplain) hslot i
  | _ => exact hd hplain

theorem clear_pushNode {d entry : Owned F} (hd : Clear plain d) (hentry : Clear plain entry)
    (node : Block) : Clear plain (d.pushNode node entry) := by
  intro hplain
  cases d with
  | list data header nodes =>
      have hnodes : sourcesNodes nodes = 0 := hd hplain
      change sourcesNodes (nodes ++ [(node, entry)]) = 0
      rw [sourcesNodes_append, hnodes, sourcesNodes, hentry hplain]
      rfl
  | _ => exact hd hplain

theorem stores_tupleLoop (hpull : Pulls plain pull) (remaining i : ℕ) {newData : Owned F}
    (hnew : Clear plain newData) : Stores plain (decodeTupleLoop pull remaining i newData) := by
  induction remaining generalizing i newData with
  | zero => exact stores_some hnew _
  | succ remaining ih =>
      rw [decodeTupleLoop]
      refine hpull.stores (fun result slot hresult ↦ ?_) fun d hd ↦ ?_
      · dsimp only
        rw [if_pos hresult]
        exact storesNone_cleanup _ _
      · exact ih _ (clear_setSlot hnew hd i)

theorem stores_tuple [Platform F] (hpull : Pulls plain pull) (size : ℕ) :
    Stores plain (bertDecodeTuple pull size) := by
  refine stores_allocated (spares_createTuple size) (stores_return _) fun newData hnew ↦ ?_
  refine stores_ite (stores_some (Owned.clear_of_sources hnew) _) ?_
  refine stores_pullPart hpull fun first hfirst ↦ ?_
  split_ifs with hbert
  · refine ((spares_destroy (Owned.sources_of_isAtom hbert.1)).bind fun _ _ ↦ ?_ :
      Spares plain (fun _ ↦ True) (destroyAll _)).stores fun _ _ ↦ stores_complex hpull
    exact (spares_destroy hnew).bind fun _ _ ↦ spares_pure trivial
  · exact stores_tupleLoop hpull _ _ (clear_setSlot (Owned.clear_of_sources hnew) hfirst 0)

theorem stores_listLoop (hpull : Pulls plain pull) (i : ℕ) (element : Option (Owned F))
    {newData : Owned F} (hnew : Clear plain newData) :
    Stores plain (decodeListLoop pull i element newData) := by
  induction i generalizing element newData with
  | zero =>
      rw [decodeListLoop]
      refine (spares_lift _).stores fun answer _ ↦ ?_
      cases answer with
      | error result => exact (storesNone_behind _ fun _ ↦ storesNone_return _).stores
      | ok _ => exact (spares_lift _).stores fun _ _ ↦ stores_some hnew _
  | succ i ih =>
      rw [decodeListLoop]
      refine hpull.stores (fun result data hresult ↦ ?_) fun d hd ↦ ?_
      · dsimp only
        rw [if_pos hresult]
        exact storesNone_cleanup _ _
      · dsimp only
        rw [if_neg (not_not.mpr rfl)]
        refine (spares_assigned _).stores ?_
        rintro _ ⟨⟩
        refine (spares_listAppend newData d).stores ?_
        rintro answer (⟨-, hmalloc⟩ | ⟨node, rfl⟩)
        · rw [if_pos hmalloc]
          exact stores_cleanup _ _
        · exact ih _ (clear_pushNode hnew hd node)

theorem stores_list (hpull : Pulls plain pull) : Stores plain (bertDecodeList pull) := by
  refine stores_field fun size ↦ stores_allocated spares_createWith (stores_return _) ?_
  rintro _ ⟨data, header, rfl⟩
  exact stores_listLoop hpull _ _ fun _ ↦ rfl

theorem stores_magic [Platform F] (hpull : Pulls plain pull) (magic : UInt8) :
    Stores plain (decodeMagic pull magic) := by
  rw [decodeMagic]
  refine stores_ite (stores_finish fun _ ↦ rfl) ?_
  refine stores_ite (stores_field fun _ ↦ stores_int _) ?_
  refine stores_ite (stores_field fun _ ↦ stores_int _) ?_
  refine stores_ite (stores_field fun _ ↦ stores_bignum _) ?_
  refine stores_ite (stores_field fun _ ↦ stores_bignum _) ?_
  refine stores_ite stores_float ?_
  refine stores_ite (stores_field fun _ ↦ stores_text fun _ _ ↦ rfl) ?_
  refine stores_ite (stores_field fun _ ↦ stores_text fun _ _ ↦ rfl) ?_
  refine stores_ite (stores_field fun _ ↦ stores_text fun _ _ ↦ rfl) ?_
  refine stores_ite (stores_field fun _ ↦ stores_tuple hpull _) ?_
  refine stores_ite (stores_field fun _ ↦ stores_tuple hpull _) ?_
  exact stores_ite (stores_list hpull) (stores_return _)

theorem stores_body [Platform F] (hpull : Pulls plain pull) : Stores plain (pullBody pull) := by
  have hmagic (magic : UInt8) :
      Stores plain (do return pullResult (← decodeMagic pull magic)) := fun h ↦
    meets_bind (stores_magic hpull magic h) fun result h' hr d hd ↦ hr d (by
      rw [pullResult] at hd
      split_ifs at hd <;> exact hd)
  refine (spares_lift _).stores fun result _ ↦ ?_
  refine stores_ite ?_ (stores_ite (stores_return _) (stores_return _))
  exact stores_field fun magic ↦ stores_ite (stores_field hmagic) (hmagic magic)

end Nested

/-- Unless the term is one of those, a pull that stores it has abandoned nothing. -/
theorem pulls_pull [Platform F] (depth : ℕ) :
    Pulls plain (bertDecoderPull depth : Managed F _) := by
  induction depth with
  | zero => exact fun _ ↦ trivial
  | succ depth ih =>
      intro h
      refine meets_bind (P := fun r ↦ r.2 = h) (.inr ⟨trivial, rfl⟩) ?_
      rintro _ h rfl
      refine meets_bind (stores_body ih h) ?_
      rintro ⟨result, data⟩ h' hstores
      cases data with
      | none =>
          by_cases hresult : result = 1
          · exact .inl hresult
          · exact .inr ⟨trivial, fun heq ↦ absurd heq hresult, fun d hd ↦ by cases hd⟩
      | some d =>
          rcases hstores d rfl with hlossy | hkept
          · exact .inl hlossy
          · refine .inr ⟨trivial, fun _ ↦ Option.some_ne_none d, ?_⟩
            rintro _ ⟨⟩
            exact hkept

/-! ## After a pull -/

variable {σ : Type}

/-- The sources below the term that is stored. -/
def sourcesStored : Outcome σ ((Code × Option (Owned F)) × Heap) →
    Option (Multiset Block)
  | .done ((_, some d), _) _ => some (sources d)
  | _ => none

theorem exists_done_of_sourcesStored {outcome : Outcome σ ((Code × Option (Owned F)) × Heap)}
    {blocks : Multiset Block} (hstored : sourcesStored outcome = some blocks) :
    ∃ result d h t, outcome = .done ((result, some d), h) t ∧ sources d = blocks := by
  cases outcome with
  | done a t =>
      obtain ⟨⟨result, data⟩, h⟩ := a
      cases data with
      | none => cases hstored
      | some d => exact ⟨result, d, h, t, rfl, Option.some_inj.mp hstored⟩
  | _ => cases hstored

variable [Platform F] {R : BertReader σ} {s t : σ} {h h₁ : Heap} {n depth : ℕ}
  {used : Multiset Block} {result : Code} {d : Owned F}

omit [Platform F] in
/-- Without times, or without regular expressions, there is nothing to be lost. -/
theorem exists_not_lossy {events : List (HeapEvent (Event F))}
    (hparts : (∀ code time, .mark (.leave code (some (.time time))) ∉ events) ∨
      ∀ code source options, .mark (.leave code (some (.regex source options))) ∉ events) :
    ∃ plain, ∀ code data, .mark (.leave code (some data)) ∈ events → ¬ data.Lossy plain := by
  rcases hparts with htimes | hregexes
  · refine ⟨False, fun code data hmem hlossy ↦ ?_⟩
    cases data with
    | time t => exact htimes code t hmem
    | _ => exact hlossy
  · refine ⟨True, fun code data hmem hlossy ↦ ?_⟩
    cases data with
    | time t => exact hlossy trivial
    | regex source options => exact hregexes code source options hmem
    | _ => exact hlossy

/-- Where nothing was lost a pull that stores a term has abandoned nothing. -/
theorem kept_of_clean
    (hclean : ∀ event, .mark event ∈ trace R ((bertDecoderPull depth : Managed F _) h) s →
      event.Clean)
    (hparts : ∀ code data, .mark (.leave code (some data)) ∈ trace R
      ((bertDecoderPull depth : Managed F _) h) s → ¬ data.Lossy plain)
    (hrun : run R (bertDecoderPull depth h) s = .done ((result, some d), h₁) t) :
    h₁.abandoned = h.abandoned := by
  have hpull : Pulls plain (bertDecoderPull depth : Managed F _) := pulls_pull depth
  refine (((hpull h).of_run (fun e he hends ↦ ?_) hrun).2 d rfl).1
  cases e with
  | mark e =>
      cases e with
      | leave code data =>
          cases data with
          | none =>
              obtain ⟨_, hdata, -⟩ := hclean _ he hends
              cases hdata
          | some d => exact hparts code d he hends
      | _ => exact hends
  | _ => exact hends

/-- While no time is pulled, or no regular expression, a pull that stores a term adds the
blocks of the term to what is allocated, and behind the destruction of the term nothing
of it is left but the sources of its regular expressions. -/
theorem decoder_leaks_sources (hends : Ends R n s) (hdepth : n < depth) (hwhole : ¬ Torn F R s)
    (hu : h.Uses used)
    (hparts : (∀ code time, .mark (.leave code (some (.time time))) ∉ trace R
        ((bertDecoderPull depth : Managed F _) h) s) ∨
      ∀ code source options, .mark (.leave code (some (.regex source options))) ∉ trace R
        ((bertDecoderPull depth : Managed F _) h) s)
    (hrun : run R (bertDecoderPull depth h) s = .done ((result, some d), h₁) t) :
    h₁.live = h.live + d.blocks ∧
      ∃ h₂, run R (bertDataDestroy d h₁) t = .done ((), h₂) t ∧
        h₂.live = h.live + sources d := by
  obtain ⟨plain, hparts⟩ := exists_not_lossy hparts
  have huses := (settled_of_untorn hends hdepth hwhole hu hrun).1.uses
  have hkept : h₁.abandoned = h.abandoned :=
    kept_of_clean (fun _ ↦ clean_of_untorn hends hdepth hwhole) hparts hrun
  constructor
  · rw [huses, hkept, hu, add_assoc, add_comm used]
    rfl
  · obtain ⟨h₂, hdestroyed, hleft, habandoned⟩ := exists_destroyed (R := R) (t := t) d huses
    refine ⟨h₂, hdestroyed, ?_⟩
    calc h₂.live = h₂.abandoned + used := hleft
      _ = sources d + (h.abandoned + used) := by rw [habandoned, hkept, add_assoc]
      _ = h.live + sources d := by rw [← hu, add_comm]

/-- The bytes of `{bert, regex, <<"a">>, []}`. -/
def regexBytes : List UInt8 :=
  [104, 4, 100, 0, 4, 98, 101, 114, 116, 100, 0, 5, 114, 101, 103, 101, 120,
    109, 0, 0, 0, 1, 97, 108, 0, 0, 0, 0, 106]

def regexDecoder : Decoder (List UInt8) :=
  freshDecoder false PlainSource.ofList.toSource regexBytes

theorem ends_regexDecoder : Ends windowReader 29 regexDecoder :=
  (refines_fresh false PlainSource.ofList.toSlicedSource _).ends

theorem not_torn_regexDecoder : ¬ Torn Empty windowReader regexDecoder := by
  refine (along_clean_iff ends_regexDecoder (by decide : 29 < 30)).mp ?_
  repeat' constructor
  all_goals exact fun _ ↦ ⟨_, rfl, trivial⟩

/-- One source is stored, in a block of two bytes. -/
theorem exists_pulled_regex :
    ∃ result d h₁ t, run windowReader (bertDecoderPull 30 (Heap.empty fun _ ↦ true))
        regexDecoder = .done ((result, some d), h₁) t ∧
      sources (d : Owned Empty) = {⟨11, 2⟩} := by
  apply exists_done_of_sourcesStored
  decide +kernel

/-- A time is stored. -/
def storesTime : HeapEvent (Event F) → Bool
  | .mark (.leave _ (some (.time _))) => true
  | _ => false

/-- No time is pulled, so that the source of the regular expression is all that is left. -/
theorem decoder_leaks_sources_regex :
    ∃ (result : Code) (d : Owned Empty) (h₁ : Heap) (t : Decoder (List UInt8)),
      run windowReader (bertDecoderPull 30 (Heap.empty fun _ ↦ true)) regexDecoder =
        .done ((result, some d), h₁) t ∧
      h₁.live = 0 + d.blocks ∧
        ∃ h₂, run windowReader (bertDataDestroy d h₁) t = .done ((), h₂) t ∧
          h₂.live = 0 + {⟨11, 2⟩} := by
  obtain ⟨result, d, h₁, t, hrun, hsources⟩ := exists_pulled_regex
  refine ⟨result, d, h₁, t, hrun, ?_⟩
  have htimes : (trace windowReader
      ((bertDecoderPull 30 : Managed Empty _) (Heap.empty fun _ ↦ true)) regexDecoder).all
        (fun event ↦ !storesTime event) = true := by decide +kernel
  rw [← hsources]
  refine decoder_leaks_sources ends_regexDecoder (by decide : 29 < 30)
    not_torn_regexDecoder (Heap.uses_empty fun _ ↦ true) (.inl fun code time hmem ↦ ?_) hrun
  cases List.all_eq_true.mp htimes _ hmem

/-- Where the microseconds of a time are a regular expression its source is lost. -/
example : (trace windowReader ((bertDecoderPull 60 : Managed Empty _) (Heap.empty fun _ ↦ true))
    (freshDecoder false PlainSource.ofList.toSource
      [104, 5, 100, 0, 4, 98, 101, 114, 116, 100, 0, 4, 116, 105, 109, 101, 97, 1, 97, 2,
        104, 4, 100, 0, 4, 98, 101, 114, 116, 100, 0, 5, 114, 101, 103, 101, 120,
        109, 0, 0, 0, 1, 97, 108, 0, 0, 0, 0, 106])).any
      (fun event ↦ match event with
        | .abandoned blocks => blocks = {⟨20, 2⟩}
        | _ => false) = true := by decide +kernel

end Managed

end LibBert
