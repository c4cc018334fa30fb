import LibBert.Memory.Accounts
import LibBert.Reading.Mirror

/-!
# The decoder with its memory and without

As long as every allocation is granted and the heap is not misused, a pull with its
memory reads what the pull without reads, returns the same and stores the same term, but
for times made of a container's pointer.  A refused allocation ends it: nothing more is
read, and `BERT_ERRNO_MALLOC` is returned without a term.
-/

namespace LibBert.Managed

open Reading Storing
open Owned (erase eraseSlot eraseSlots eraseNodes erasePairs)

variable {F α : Type}

/-- On the way out behind a refused allocation the pulls return `BERT_ERRNO_MALLOC`. -/
abbrev Quiet (event : Event F) : Prop := event = .leave bertErrnoMalloc none

/-- A refused allocation. -/
def NoMemory (r : Result F) : Prop := r = (bertErrnoMalloc, none)

/-- The same code and, without its blocks, the same term. -/
def Same (r : Result F) (r' : LibBert.Result F) : Prop := r' = (r.1, eraseSlot r.2)

def Refines (m : Managed F (Result F)) (q : Decode F (LibBert.Result F)) : Prop :=
  Tracks Quiet NoMemory Same m q

/-! ## Destroying and creating -/

theorem frees_destroyPlain (data : Block) : Frees [data] (destroyPlain data : Managed F _) :=
  Frees.bind (silent_touch data) fun _ ↦ frees_free data

theorem frees_destroyText (data text : Block) :
    Frees [data] (destroyText data text : Managed F _) :=
  Frees.bind (silent_touch data) fun _ ↦ Frees.bind (silent_free text) fun _ ↦ frees_free data

mutual

/-- A term that is destroyed is not allocated any more. -/
theorem frees_destroy : ∀ d : Owned F, Frees [d.data] (bertDataDestroy d)
  | .atom _ _ _ => frees_destroyText _ _
  | .string _ _ _ => frees_destroyText _ _
  | .bin _ _ _ => frees_destroyText _ _
  | .tuple data header elements slots => by
      rw [bertDataDestroy]
      exact Frees.bind (silent_touch data) fun _ ↦ Frees.bind (silent_touch header) fun _ ↦
        Frees.bind (silent_touch elements) fun _ ↦ Frees.bind (silent_destroySlots slots) fun _ ↦
        Frees.bind (silent_free elements) fun _ ↦ Frees.bind (silent_free header) fun _ ↦
        frees_free data
  | .list data header nodes => by
      rw [bertDataDestroy]
      exact Frees.bind (silent_touch data) fun _ ↦ Frees.bind (silent_touch header) fun _ ↦
        Frees.bind (silent_destroyNodes nodes) fun _ ↦ Frees.bind (silent_free header) fun _ ↦
        frees_free data
  | .dict data header nodes => by
      rw [bertDataDestroy]
      exact Frees.bind (silent_touch data) fun _ ↦ Frees.bind (silent_touch header) fun _ ↦
        Frees.bind (silent_destroyPairs nodes) fun _ ↦ Frees.bind (silent_free header) fun _ ↦
        frees_free data
  | .regex data text _ _ => by
      rw [bertDataDestroy]
      refine Frees.bind (silent_touch data) fun _ h ↦ ?_
      exact (frees_free data h).bind fun r hr ↦ hr
  | .none _ => frees_destroyPlain _
  | .boolean _ _ => frees_destroyPlain _
  | .int _ _ => frees_destroyPlain _
  | .float _ _ => frees_destroyPlain _
  | .time _ _ => frees_destroyPlain _
  | .nil _ => frees_destroyPlain _

theorem silent_destroySlot : ∀ slot : Option (Owned F), Silent (destroySlot slot)
  | none => silent_pure ()
  | some d => (frees_destroy d).silent

theorem silent_destroySlots : ∀ slots : List (Option (Owned F)), Silent (destroySlots slots)
  | [] => silent_pure ()
  | slot :: slots => Frees.bind (silent_destroySlot slot) fun _ ↦ silent_destroySlots slots

theorem silent_destroyNodes : ∀ nodes : List (Block × Owned F), Silent (destroyNodes nodes)
  | [] => silent_pure ()
  | (node, d) :: nodes => Frees.bind (silent_touch node) fun _ ↦
      Frees.bind (frees_destroy d).silent fun _ ↦ Frees.bind (silent_free node) fun _ ↦
      silent_destroyNodes nodes

theorem silent_destroyPairs : ∀ nodes : List (Block × Option (Owned F) × Option (Owned F)),
    Silent (destroyPairs nodes)
  | [] => silent_pure ()
  | (node, key, value) :: nodes => Frees.bind (silent_touch node) fun _ ↦
      Frees.bind (silent_destroySlot key) fun _ ↦ Frees.bind (silent_destroySlot value) fun _ ↦
      Frees.bind (silent_free node) fun _ ↦ silent_destroyPairs nodes

end

theorem silent_destroy (d : Owned F) : Silent (bertDataDestroy d) := (frees_destroy d).silent

theorem silent_destroyAll (ds : List (Owned F)) : Silent (destroyAll ds) := by
  induction ds with
  | nil => exact silent_pure ()
  | cons d ds ih => exact Frees.bind (silent_destroy d) fun _ ↦ ih

/-! ## Destroying a term twice -/

theorem quietly_touch_of_not_mem {b : Block} {h : Heap} (hb : b ∉ h.live) {P : α × Heap → Prop}
    (next : Unit → Managed F α) : Quietly P ((touch b >>= next) h) := by
  rw [bind_apply, touch, if_neg hb]
  exact rfl

/-- The first thing looked at of a term is its block. -/
theorem destroy_of_not_mem {d : Owned F} {h : Heap} (hd : d.data ∉ h.live)
    {P : Unit × Heap → Prop} : Quietly P (bertDataDestroy d h) := by
  cases d <;> rw [bertDataDestroy] <;> exact quietly_touch_of_not_mem hd _

theorem destroyNodes_of_not_mem {d : Owned F} {nodes : List (Block × Owned F)} {h : Heap}
    (hd : d.data ∉ h.live) (hmem : d ∈ nodes.map Prod.snd) :
    Quietly (fun _ ↦ False) (destroyNodes nodes h) := by
  induction nodes generalizing h with
  | nil => cases hmem
  | cons entry nodes ih =>
      obtain ⟨node, e⟩ := entry
      refine (silent_touch node h).bind fun r hr ↦ ?_
      have hd' : d.data ∉ r.2.live := fun hlive ↦ hd (hr _ hlive).1
      rcases List.mem_cons.mp hmem with rfl | hmem
      · exact (destroy_of_not_mem (P := fun _ ↦ False) hd').bind fun _ hfalse ↦ hfalse.elim
      · refine (silent_destroy e r.2).bind fun r' hr' ↦ ?_
        refine (silent_free node r'.2).bind fun r'' hr'' ↦ ih (fun hlive ↦ ?_) hmem
        exact hd' (hr' _ (hr'' _ hlive).1).1

/-- A list that holds a term twice cannot be destroyed. -/
theorem destroyNodes_of_twice {d : Owned F} {nodes : List (Block × Owned F)} (h : Heap)
    (htwice : [d, d].Sublist (nodes.map Prod.snd)) :
    Quietly (fun _ ↦ False) (destroyNodes nodes h) := by
  induction nodes generalizing h with
  | nil => cases htwice
  | cons entry nodes ih =>
      obtain ⟨node, e⟩ := entry
      refine (silent_touch node h).bind fun r hr ↦ ?_
      rw [List.map_cons] at htwice
      cases htwice with
      | cons _ hrest =>
          refine (silent_destroy e r.2).bind fun r' _ ↦ ?_
          exact (silent_free node r'.2).bind fun r'' _ ↦ ih r''.2 hrest
      | cons_cons _ hrest =>
          refine (frees_destroy e r.2).bind fun r' hr' ↦ ?_
          refine (silent_free node r'.2).bind fun r'' hr'' ↦ ?_
          refine destroyNodes_of_not_mem (fun hlive ↦ ?_) (List.singleton_sublist.mp hrest)
          exact (hr' _ (hr'' _ hlive).1).2 (List.mem_singleton_self _)

theorem refines_cleanup_of_twice {d : Owned F} {data header : Block}
    {nodes : List (Block × Owned F)} (htwice : [d, d].Sublist (nodes.map Prod.snd))
    (result : Code) (q : Decode F (LibBert.Result F)) :
    Refines (cleanup [.list data header nodes] result) q := by
  intro h
  refine Quietly.mirrors_of_false ?_
  refine Quietly.bind (P := fun _ ↦ False) ?_ fun _ hfalse ↦ hfalse.elim
  refine Quietly.bind (P := fun _ ↦ False) ?_ fun _ hfalse ↦ hfalse.elim
  rw [bertDataDestroy]
  refine (silent_touch data h).bind fun r _ ↦ (silent_touch header r.2).bind fun r' _ ↦ ?_
  exact (destroyNodes_of_twice r'.2 htwice).bind fun _ hfalse ↦ hfalse.elim

/-! ## Reading and creating -/

theorem silent_touchAll (bs : List Block) : Silent (touchAll bs : Managed F _) := by
  induction bs with
  | nil => exact silent_pure ()
  | cons b bs ih => exact Frees.bind (silent_touch b) fun _ ↦ ih

theorem silent_look (d : Owned F) : Silent (look d) := silent_touchAll d.own

theorem silent_lookSlots (slots : List (Option (Owned F))) : Silent (lookSlots slots) := by
  induction slots with
  | nil => exact silent_pure ()
  | cons slot slots ih =>
      cases slot with
      | none => exact ih
      | some d => exact Frees.bind (silent_look d) fun _ ↦ ih

theorem tracks_writeText (dest : Option Block) (offset size length : ℕ) :
    Tracks Quiet (fun _ ↦ False) (fun _ _ ↦ True)
      (writeText dest offset size length : Managed F _) (.ret ()) := by
  cases dest with
  | none => exact tracks_pure trivial
  | some text => exact tracks_write text offset size length

/-- What is created unless memory is refused. -/
def Makes (shape : Owned F → Prop) (create : Managed F (Option (Owned F))) : Prop :=
  Tracks Quiet (fun r ↦ r = none) (fun r _ ↦ ∃ d, r = some d ∧ shape d) create (.ret ())

theorem makes_data (fields : Block → Owned F) :
    Makes (fun d ↦ ∃ data, d = fields data) (bertDataCreate fields) := by
  refine Tracks.bind (g := fun _ ↦ .ret ()) (tracks_malloc _) ?_ ?_
  · rintro _ _ ⟨data, rfl, -⟩
    exact tracks_pure ⟨_, rfl, data, rfl⟩
  · rintro _ rfl
    exact givesUp_pure rfl

theorem makes_with (size : ℕ) (fields : Block → Block → Owned F) :
    Makes (fun d ↦ ∃ data block, block.size = size ∧ d = fields data block)
      (createWith size fields) := by
  refine Tracks.bind (g := fun _ ↦ .ret ()) (tracks_malloc _) ?_ ?_
  · rintro _ _ ⟨block, rfl, hsize⟩
    refine Tracks.bind (g := fun _ ↦ .ret ()) (makes_data _) ?_ ?_
    · rintro _ _ ⟨_, rfl, data, rfl⟩
      exact tracks_pure ⟨_, rfl, data, block, hsize, rfl⟩
    · rintro _ rfl
      exact (silent_free block).givesUp fun _ ↦ givesUp_pure rfl
  · rintro _ rfl
    exact givesUp_pure rfl

theorem makes_tuple (length : ℕ) :
    Makes (fun d : Owned F ↦ ∃ data header elements,
        d = .tuple data header elements (List.replicate length none))
      (bertDataCreateTuple length) := by
  have htuple : Tracks Quiet (fun r ↦ r = none) (fun r (_ : Unit) ↦ ∃ blocks, r = some blocks)
      (bertTupleCreate length : Managed F _) (.ret ()) := by
    refine Tracks.bind (g := fun _ ↦ .ret ()) (tracks_malloc _) ?_ ?_
    · rintro _ _ ⟨elements, rfl, -⟩
      refine Tracks.bind (g := fun _ ↦ .ret ()) (tracks_malloc _) ?_ ?_
      · rintro _ _ ⟨header, rfl, -⟩
        exact tracks_pure ⟨_, rfl⟩
      · rintro _ rfl
        exact (silent_free elements).givesUp fun _ ↦ givesUp_pure rfl
    · rintro _ rfl
      exact givesUp_pure rfl
  refine Tracks.bind (g := fun _ ↦ .ret ()) htuple ?_ ?_
  · rintro _ _ ⟨⟨header, elements⟩, rfl⟩
    refine Tracks.bind (g := fun _ ↦ .ret ()) (makes_data _) ?_ ?_
    · rintro _ _ ⟨_, rfl, data, rfl⟩
      exact tracks_pure ⟨_, rfl, data, header, elements, rfl⟩
    · rintro _ rfl
      exact (silent_free elements).givesUp fun _ ↦ (silent_free header).givesUp fun _ ↦
        givesUp_pure rfl
  · rintro _ rfl
    exact givesUp_pure rfl

theorem makes_regex (source : List UInt8) (length options : UInt32) :
    Makes (fun d : Owned F ↦ ∃ data text, d = .regex data text source options)
      (bertDataCreateRegex source length options) := by
  refine Tracks.bind (g := fun _ ↦ .ret ()) (tracks_malloc _) ?_ ?_
  · rintro _ _ ⟨text, rfl, -⟩
    refine Tracks.bind_of_never (g := fun _ ↦ .ret ()) (tracks_write _ _ _ _) fun _ _ _ ↦ ?_
    refine Tracks.bind_of_never (g := fun _ ↦ .ret ()) (tracks_write _ _ _ _) fun _ _ _ ↦ ?_
    refine Tracks.bind (g := fun _ ↦ .ret ()) (makes_data _) ?_ ?_
    · rintro _ _ ⟨_, rfl, data, rfl⟩
      exact tracks_pure ⟨_, rfl, data, text, rfl⟩
    · rintro _ rfl
      exact (silent_free text).givesUp fun _ ↦ givesUp_pure rfl
  · rintro _ rfl
    exact givesUp_pure rfl

/-! ## The ways out of a function -/

theorem refines_return (code : Code) :
    Refines (pure (code, none) : Managed F (Result F)) (.ret (code, none)) := tracks_pure rfl

theorem refines_cleanup (held : List (Owned F)) (code : Code) :
    Refines (cleanup held code) (.ret (code, none)) :=
  (silent_destroyAll held).tracks fun _ ↦ refines_return code

theorem givesUp_return :
    GivesUp Quiet NoMemory (pure (bertErrnoMalloc, none) : Managed F (Result F)) :=
  givesUp_pure rfl

theorem givesUp_cleanup (held : List (Owned F)) :
    GivesUp Quiet NoMemory (cleanup held bertErrnoMalloc) :=
  (silent_destroyAll held).givesUp fun _ ↦ givesUp_return

theorem Refines.ite {c : Prop} [Decidable c] {m m' : Managed F (Result F)}
    {q q' : Decode F (LibBert.Result F)} (hm : Refines m q) (hm' : Refines m' q') :
    Refines (if c then m else m') (if c then q else q') := by
  split_ifs
  · exact hm
  · exact hm'

theorem refines_behind {field : Managed F (Except Code α)} {next : α → Managed F (Result F)}
    {field' : Decode F (Except Code α)} {next' : Except Code α → Decode F (LibBert.Result F)}
    (hfield : Tracks Quiet (fun _ ↦ False) Eq field field')
    (herror : ∀ result, next' (.error result) = .ret (result, none))
    (hok : ∀ a, Refines (next a) (next' (.ok a))) :
    Refines (behind field next) (field' >>= next') := by
  refine Tracks.bind_of_never hfield ?_
  rintro (result | a) _ rfl
  · rw [herror]
    exact refines_return result
  · exact hok a

theorem refines_allocated {shape : Owned F → Prop} {create : Managed F (Option (Owned F))}
    {failed : Managed F (Result F)} {next : Owned F → Managed F (Result F)}
    {q : Decode F (LibBert.Result F)} (hcreate : Makes shape create)
    (hfailed : GivesUp Quiet NoMemory failed) (hnext : ∀ d, shape d → Refines (next d) q) :
    Refines (allocated create failed next) q := by
  refine Tracks.bind (g := fun _ ↦ q) hcreate ?_ ?_
  · rintro _ _ ⟨d, rfl, hd⟩
    exact hnext d hd
  · rintro _ rfl
    exact hfailed

theorem refines_finish {shape : Owned F → Prop} {create : Managed F (Option (Owned F))} {d : Data F}
    (hcreate : Makes shape create) (hshape : ∀ newData, shape newData → newData.erase = d) :
    Refines (finish create) (.ret (bertSuccess, some d)) :=
  refines_allocated hcreate givesUp_return fun newData hnew ↦
    tracks_pure (by rw [Same, eraseSlot, hshape newData hnew])

/-! ## Scalars -/

theorem tracks_decodeBytesLoop (dest : Option Block) (length fuel index : ℕ) (bytes : List UInt8) :
    Tracks Quiet (fun _ ↦ False) Eq (decodeBytesLoop dest length fuel index bytes : Managed F _)
      (LibBert.decodeBytesLoop length fuel index bytes) := by
  induction fuel generalizing index bytes with
  | zero => exact tracks_timeout
  | succ fuel ih =>
      rw [decodeBytesLoop, LibBert.decodeBytesLoop]
      split_ifs
      · refine Tracks.bind_of_never (tracks_lift (faultless_decodeField _ _)) ?_
        rintro (result | chunk) _ rfl
        · exact tracks_pure rfl
        · exact Tracks.bind_of_never (q := .ret ()) (g := fun _ ↦ _) (tracks_writeText _ _ _ _)
            fun _ _ _ ↦ ih _ _
      · exact tracks_pure rfl

theorem tracks_decodeBytes (dest : Option Block) (length : ℕ) :
    Tracks Quiet (fun _ ↦ False) Eq (bertDecodeBytes dest length : Managed F _)
      (LibBert.bertDecodeBytes length) := tracks_decodeBytesLoop _ _ _ _ _

theorem refines_data {d : Data F} {fields : Block → Owned F}
    (hfields : ∀ data, (fields data).erase = d) :
    Refines (finish (bertDataCreate fields)) (.ret (bertSuccess, some d)) :=
  refines_finish (makes_data fields) (by rintro _ ⟨data, rfl⟩; exact hfields data)

theorem refines_field {i : ℕ} {convert : List UInt8 → α} {next : α → Managed F (Result F)}
    {next' : Except Code α → Decode F (LibBert.Result F)}
    (herror : ∀ result, next' (.error result) = .ret (result, none))
    (hok : ∀ a, Refines (next a) (next' (.ok a))) :
    Refines (behind (lift (decodeField i convert)) next) (decodeField i convert >>= next') :=
  refines_behind (tracks_lift (faultless_decodeField i convert)) herror hok

theorem refines_nil : Refines (bertDecodeNil : Managed F _) LibBert.bertDecodeNil :=
  refines_data fun _ ↦ rfl

theorem refines_int (i : Int64) :
    Refines (finish (bertDataCreateInt i) : Managed F _) (.ret (bertSuccess, some (.int i))) :=
  refines_data fun _ ↦ rfl

theorem refines_smallInt : Refines (bertDecodeSmallInt : Managed F _) LibBert.bertDecodeSmallInt :=
  refines_field (fun _ ↦ rfl) fun _ ↦ refines_int _

theorem refines_bigInt : Refines (bertDecodeBigInt : Managed F _) LibBert.bertDecodeBigInt :=
  refines_field (fun _ ↦ rfl) fun _ ↦ refines_int _

theorem refines_float [Platform F] :
    Refines (bertDecodeFloat : Managed F _) LibBert.bertDecodeFloat := by
  refine refines_behind (tracks_decodeBytes _ _) (fun _ ↦ rfl) fun floatBuffer ↦ ?_
  dsimp only
  cases (Platform.sscanf (floatBuffer ++ [0]) : Option F) with
  | none => exact refines_return _
  | some floatingPoint => exact refines_data fun _ ↦ rfl

theorem refines_bignum (size : ℕ) :
    Refines (bertDecodeBignum size : Managed F _) (LibBert.bertDecodeBignum size) := by
  refine Refines.ite (refines_return _) ?_
  refine refines_field (fun _ ↦ rfl) fun sign ↦ ?_
  exact refines_behind (tracks_decodeBytes _ _) (fun _ ↦ rfl) fun bytes ↦ refines_int _

theorem refines_smallBignum :
    Refines (bertDecodeSmallBignum : Managed F _) LibBert.bertDecodeSmallBignum :=
  refines_field (fun _ ↦ rfl) fun _ ↦ refines_bignum _

theorem refines_bigBignum :
    Refines (bertDecodeBigBignum : Managed F _) LibBert.bertDecodeBigBignum :=
  refines_field (fun _ ↦ rfl) fun _ ↦ refines_bignum _

theorem refines_text {size length : ℕ} {fields : Block → Block → List UInt8 → Owned F}
    {create : List UInt8 → Data F} {bytes : List UInt8} (hempty : size = 0 → bytes = [])
    (hfields : ∀ data text bytes, (fields data text bytes).erase = create bytes)
    (hset : ∀ data text bytes bytes', (fields data text bytes).setText bytes' =
      fields data text bytes') :
    Refines (decodeText (createWith length (fields · · bytes)) size)
      (LibBert.decodeText create size) := by
  refine refines_allocated (makes_with _ _) givesUp_return ?_
  rintro _ ⟨data, text, -, rfl⟩
  rw [LibBert.decodeText]
  split_ifs with hsize
  · refine tracks_pure ?_
    rw [Same, eraseSlot, hfields, hempty hsize]
  · refine Tracks.bind_of_never (tracks_decodeBytes _ _) ?_
    rintro (result | read) _ rfl
    · exact (silent_destroy _).tracks fun _ ↦ refines_return result
    · refine tracks_pure ?_
      rw [Same, eraseSlot, hset, hfields]

theorem refines_string : Refines (bertDecodeString : Managed F _) LibBert.bertDecodeString :=
  refines_field (fun _ ↦ rfl) fun _ ↦ refines_text (by rintro h; rw [zeros, h]; rfl)
    (fun _ _ _ ↦ rfl) fun _ _ _ _ ↦ rfl

theorem refines_atom : Refines (bertDecodeAtom : Managed F _) LibBert.bertDecodeAtom :=
  refines_field (fun _ ↦ rfl) fun _ ↦ refines_text (by rintro h; rw [zeros, h]; rfl)
    (fun _ _ _ ↦ rfl) fun _ _ _ _ ↦ rfl

/-- The first chunk is written past a block without bytes. -/
theorem refines_decodeBytes_of_short {text : Block} {length : ℕ} (hsize : text.size = 0)
    (hlength : bertShortBuffer / 2 ≤ length)
    {next : Except Code (List UInt8) → Managed F (Result F)}
    (herror : ∀ result, Refines (next (.error result)) (.ret (result, none))) :
    Refines (bertDecodeBytes (some text) length >>= next) (do
      match ← decodeField (bertShortBuffer / 2) id with
      | .error result => return (result, none)
      | .ok _ => .fault) := by
  have hpos : 0 < length := Nat.lt_of_lt_of_le (by decide) hlength
  rw [bertDecodeBytes, decodeBytesLoop, if_pos hpos, Nat.sub_zero, Nat.min_eq_left hlength,
    Storing.bind_assoc]
  refine Tracks.bind_of_never (tracks_lift (faultless_decodeField _ _)) ?_
  rintro (result | chunk) _ rfl
  · exact herror result
  · rw [Storing.bind_assoc]
    refine tracks_write_of_short ?_ _ _ _
    rw [hsize, zero_add]
    decide

theorem refines_bin : Refines (bertDecodeBin : Managed F _) LibBert.bertDecodeBin := by
  refine refines_field (fun _ ↦ rfl) fun size ↦ ?_
  dsimp only
  split_ifs with hshort
  · have hmax := emptyBinSize_lt_iff.mp hshort
    refine refines_allocated (makes_with _ _) givesUp_return ?_
    rintro _ ⟨data, text, hsize, rfl⟩
    have hzero : text.size = 0 := by
      rw [hsize, emptyBinSize, UInt32.toNat_add, hmax]
      rfl
    have hpos : size.toNat ≠ 0 := by omega
    rw [if_neg hpos]
    refine refines_decodeBytes_of_short hzero (by rw [hmax]; decide) fun result ↦ ?_
    exact (silent_destroy _).tracks fun _ ↦ refines_return result
  · exact refines_text (by rintro h; rw [zeros, h]; rfl) (fun _ _ _ ↦ rfl) fun _ _ _ _ ↦ rfl

section Nested

/-! ## Functions with nested pulls -/

variable {pull : Managed F (Result F)} {pull' : Decode F (LibBert.Result F)}

theorem refines_pullPart (hpull : Refines pull pull') {held : List (Owned F)}
    {next : Owned F → Managed F (Result F)} {next' : Data F → Decode F (LibBert.Result F)}
    (hnext : ∀ part, Refines (next part) (next' part.erase)) :
    Refines (pullPart pull held next) (LibBert.pullPart pull' next') := by
  refine Tracks.bind hpull ?_ ?_
  · rintro ⟨result, data⟩ _ rfl
    dsimp only
    split_ifs with hresult
    · exact refines_cleanup held result
    · cases data with
      | none => exact fun _ ↦ rfl
      | some part => exact (silent_look part).tracks fun _ ↦ hnext part
  · rintro _ rfl
    exact givesUp_cleanup held

theorem refines_pullTimePart (hpull : Refines pull pull') {held : List (Owned F)}
    {next : Owned F → Managed F (Result F)} {next' : Data F → Decode F (LibBert.Result F)}
    (hnext : ∀ part, Refines (next part) (next' part.erase)) :
    Refines (pullTimePart pull held next) (LibBert.pullTimePart pull' next') := by
  refine Tracks.bind hpull ?_ ?_
  · rintro ⟨result, data⟩ _ rfl
    dsimp only
    split_ifs with hresult
    · cases data with
      | none => exact fun _ ↦ rfl
      | some part => exact (silent_destroy part).tracks fun _ ↦ refines_cleanup held result
    · cases data with
      | none => exact fun _ ↦ rfl
      | some part => exact (silent_look part).tracks fun _ ↦ hnext part
  · rintro _ rfl
    exact fun _ ↦ trivial

theorem refines_time [Platform F] (hpull : Refines pull pull') :
    Refines (bertDecodeTime pull) (LibBert.bertDecodeTime pull') := by
  refine refines_pullTimePart hpull fun megaseconds ↦ ?_
  refine Refines.ite (refines_cleanup _ _) (refines_pullTimePart hpull fun seconds ↦ ?_)
  refine Refines.ite (refines_cleanup _ _) (refines_pullTimePart hpull fun microseconds ↦ ?_)
  refine Refines.ite (refines_cleanup _ _) ?_
  exact (silent_look _).tracks fun _ ↦ (silent_look _).tracks fun _ ↦
    (silent_look _).tracks fun _ ↦ (silent_destroyAll _).tracks fun _ ↦ refines_data fun _ ↦ rfl

theorem eraseNodes_append (xs ys : List (Block × Owned F)) :
    eraseNodes (xs ++ ys) = eraseNodes xs ++ eraseNodes ys := by
  induction xs with
  | nil => rfl
  | cons node xs ih => rw [List.cons_append, eraseNodes, eraseNodes, ih, List.cons_append]

theorem erasePairs_append (xs ys : List (Block × Option (Owned F) × Option (Owned F))) :
    erasePairs (xs ++ ys) = erasePairs xs ++ erasePairs ys := by
  induction xs with
  | nil => rfl
  | cons node xs ih => rw [List.cons_append, erasePairs, erasePairs, ih, List.cons_append]

theorem eraseSlots_append (xs ys : List (Option (Owned F))) :
    eraseSlots (xs ++ ys) = eraseSlots xs ++ eraseSlots ys := by
  induction xs with
  | nil => rfl
  | cons slot xs ih => rw [List.cons_append, eraseSlots, eraseSlots, ih, List.cons_append]

theorem tracks_listAppend (data header : Block) (nodes : List (Block × Owned F)) (d : Owned F) :
    Tracks Quiet (fun r ↦ r = (bertErrnoMalloc, .list data header nodes))
      (fun r (_ : Unit) ↦ ∃ node, r = (bertSuccess, .list data header (nodes ++ [(node, d)])))
      (bertListAppend (.list data header nodes) d) (.ret ()) := by
  refine Tracks.bind (g := fun _ ↦ .ret ()) (tracks_malloc _) ?_ ?_
  · rintro _ _ ⟨node, rfl, -⟩
    exact (silent_look _).tracks fun _ ↦ (silent_touchAll _).tracks fun _ ↦
      tracks_pure ⟨node, rfl⟩
  · rintro _ rfl
    exact givesUp_pure rfl

theorem tracks_dictAppend (data header : Block)
    (nodes : List (Block × Option (Owned F) × Option (Owned F))) (key value : Option (Owned F)) :
    Tracks Quiet (fun r ↦ r = (bertErrnoMalloc, .dict data header nodes))
      (fun r (_ : Unit) ↦ ∃ node,
        r = (bertSuccess, .dict data header (nodes ++ [(node, key, value)])))
      (bertDictAppend (.dict data header nodes) key value) (.ret ()) := by
  refine Tracks.bind (g := fun _ ↦ .ret ()) (tracks_malloc _) ?_ ?_
  · rintro _ _ ⟨node, rfl, -⟩
    exact (silent_look _).tracks fun _ ↦ (silent_touchAll _).tracks fun _ ↦
      tracks_pure ⟨node, rfl⟩
  · rintro _ rfl
    exact givesUp_pure rfl

/-- What the walk of `bert_decode_dict` behind the pairs taken so far comes to. -/
def dictResult (pairs : List (Option (Data F) × Option (Data F))) (rest : List (Data F)) :
    LibBert.Result F :=
  match dictEntries rest with
  | some entries => (bertSuccess, some (.dict (pairs ++ entries)))
  | none => (bertErrnoInvalid, none)

theorem dictResult_pair (pairs : List (Option (Data F) × Option (Data F)))
    (key value : Option (Data F)) (rest : List (Data F)) :
    dictResult pairs (.tuple [key, value] :: rest) = dictResult (pairs ++ [(key, value)]) rest := by
  rw [dictResult, dictResult, dictEntries]
  cases dictEntries rest with
  | none => rfl
  | some entries => simp

theorem dictResult_other (pairs : List (Option (Data F) × Option (Data F))) {d : Data F}
    (h : ∀ key value, d ≠ .tuple [key, value]) (rest : List (Data F)) :
    dictResult pairs (d :: rest) = (bertErrnoInvalid, none) := by
  rw [dictResult, dictEntries]
  exact h

theorem exists_of_erase_eq_pair {d : Owned F} {key value : Option (Data F)}
    (h : d.erase = .tuple [key, value]) :
    ∃ data header elements key value, d = .tuple data header elements [key, value] := by
  cases d with
  | tuple data header elements slots =>
      match slots with
      | [key, value] => exact ⟨_, _, _, _, _, rfl⟩
      | [] | [_] | _ :: _ :: _ :: _ => simp [erase, eraseSlots] at h
  | _ => simp [erase] at h

theorem refines_dictLoop {newData newHeader : Block} {listData : List (Block × Owned F) → Owned F}
    (pairs : List (Block × Option (Owned F) × Option (Owned F)))
    (passed rest : List (Block × Owned F)) :
    Refines (decodeDictLoop (.dict newData newHeader pairs) listData passed rest)
      (.ret (dictResult (erasePairs pairs) (eraseNodes rest))) := by
  induction rest generalizing pairs passed with
  | nil =>
      refine (silent_destroy _).tracks fun _ ↦ tracks_pure ?_
      rw [Same, dictResult, eraseNodes, dictEntries]
      dsimp only
      rw [List.append_nil]
      rfl
  | cons entry rest ih =>
      obtain ⟨node, nextTuple⟩ := entry
      by_cases hpair : ∃ tupleData tupleHeader elements key value,
          nextTuple = .tuple tupleData tupleHeader elements [key, value]
      · obtain ⟨tupleData, tupleHeader, elements, key, value, rfl⟩ := hpair
        rw [decodeDictLoop]
        refine (silent_touch _).tracks fun _ ↦ (silent_look _).tracks fun _ ↦ ?_
        refine Tracks.bind (g := fun _ ↦ .ret _) (tracks_dictAppend _ _ _ _ _) ?_ ?_
        · rintro _ _ ⟨entry, rfl⟩
          have hpairs := ih (pairs ++ [(entry, key, value)])
            (passed ++ [(node, .tuple tupleData tupleHeader elements [none, none])])
          rw [erasePairs_append] at hpairs
          rwa [eraseNodes, erase, eraseSlots, eraseSlots, eraseSlots, dictResult_pair]
        · rintro _ rfl
          exact (silent_destroySlot _).givesUp fun _ ↦ (silent_destroySlot _).givesUp fun _ ↦
            givesUp_cleanup _
      · rw [decodeDictLoop]
        swap
        · exact fun tupleData tupleHeader elements key value heq ↦
            hpair ⟨tupleData, tupleHeader, elements, key, value, heq⟩
        refine (silent_touch _).tracks fun _ ↦ (silent_look _).tracks fun _ ↦ ?_
        rw [eraseNodes, dictResult_other _ fun key value heq ↦ hpair (exists_of_erase_eq_pair heq)]
        exact refines_cleanup _ _

theorem refines_dict (hpull : Refines pull pull') :
    Refines (bertDecodeDict pull) (LibBert.bertDecodeDict pull') := by
  refine refines_pullPart hpull fun listData ↦ ?_
  cases listData with
  | nil data =>
      refine refines_allocated (makes_with _ _) (givesUp_cleanup _) ?_
      rintro _ ⟨newData, newHeader, -, rfl⟩
      exact (silent_destroy _).tracks fun _ ↦ tracks_pure rfl
  | list data header nodes =>
      refine refines_allocated (makes_with _ _) (givesUp_cleanup _) ?_
      rintro _ ⟨newData, newHeader, -, rfl⟩
      have hloop : Refines
          (decodeDictLoop (.dict newData newHeader []) (.list data header) [] nodes)
          (.ret (dictResult [] (eraseNodes nodes))) := refines_dictLoop [] [] nodes
      rw [dictResult] at hloop
      dsimp only [erase]
      cases hentries : dictEntries (eraseNodes nodes) with
      | none => rwa [hentries] at hloop
      | some entries => rwa [hentries] at hloop
  | _ => exact refines_cleanup _ _

theorem silent_lookOption (nextOpt : Owned F) : Silent (lookOption nextOpt) := by
  refine Frees.bind (silent_look nextOpt) fun _ ↦ ?_
  cases nextOpt with
  | tuple data header elements slots => exact silent_lookSlots slots
  | _ => exact silent_pure ()

/-- A refused option leaves none. -/
def Masked (r : Option UInt32) (option : RegexOption) : Prop := option = r.elim .invalid .mask

/-- A `NULL` slot is followed. -/
def unlessNull : RegexOption → Decode F RegexOption
  | .null => .stuck
  | option => .ret option

theorem tracks_optionsLoop (nodes : List (Block × Owned F)) (options : UInt32) :
    Tracks Quiet (fun _ ↦ False) Masked (regexOptionsLoop nodes options)
      (unlessNull (regexOptions (eraseNodes nodes) options)) := by
  induction nodes generalizing options with
  | nil => exact tracks_pure rfl
  | cons entry rest ih =>
      obtain ⟨node, nextOpt⟩ := entry
      rw [eraseNodes, regexOptions, regexOptionsLoop]
      refine (silent_touch _).tracks fun _ ↦ (silent_lookOption _).tracks fun _ ↦ ?_
      cases regexOption nextOpt.erase with
      | mask mask => exact ih _
      | invalid => exact tracks_pure rfl
      | null => exact fun _ ↦ rfl

def regexResult (source : List UInt8) : RegexOption → Decode F (LibBert.Result F)
  | .mask options => .ret (bertSuccess, some (.regex source options))
  | .invalid => .ret (bertErrnoInvalid, none)
  | .null => .stuck

theorem refines_finishRegex (sourceData text : Block) (bytes : List UInt8) (optList : Owned F)
    {answer : Option UInt32} {option : RegexOption} (hmasked : Masked answer option) :
    Refines (finishRegex (.bin sourceData text bytes) optList bytes answer)
      (regexResult bytes option) := by
  obtain rfl : option = _ := hmasked
  cases answer with
  | none => exact refines_cleanup _ _
  | some options =>
      refine (silent_destroy _).tracks fun _ ↦ (silent_look _).tracks fun _ ↦ ?_
      refine refines_allocated (makes_regex _ _ _) (givesUp_cleanup _) ?_
      rintro _ ⟨newData, newText, rfl⟩
      exact (silent_destroy _).tracks fun _ ↦ tracks_pure rfl

theorem refines_regex (hpull : Refines pull pull') :
    Refines (bertDecodeRegex pull) (LibBert.bertDecodeRegex pull') := by
  refine refines_pullPart hpull fun source ↦ ?_
  cases source with
  | bin sourceData text bytes =>
      refine refines_pullPart hpull fun optList ↦ ?_
      cases optList with
      | list data header nodes =>
          have hloop := Tracks.bind_of_never (tracks_optionsLoop nodes 0) fun _ _ hmasked ↦
            refines_finishRegex sourceData text bytes (.list data header nodes) hmasked
          dsimp only [erase]
          cases hoptions : regexOptions (eraseNodes nodes) 0 with
          | _ => rwa [hoptions] at hloop
      | _ => exact refines_cleanup _ _
  | _ => exact refines_cleanup _ _

theorem refines_finishKeyword {keyword : Owned F} {fields : Block → Owned F} {d : Data F}
    (hfields : ∀ data, (fields data).erase = d) :
    Refines (finishKeyword keyword (bertDataCreate fields)) (.ret (bertSuccess, some d)) := by
  refine Tracks.bind (g := fun _ ↦ .ret _) (makes_data fields) ?_ ?_
  · rintro _ _ ⟨_, rfl, data, rfl⟩
    exact (silent_destroy _).tracks fun _ ↦ tracks_pure (by rw [Same, eraseSlot, hfields])
  · rintro _ rfl
    exact (silent_destroy _).givesUp fun _ ↦ givesUp_return

theorem refines_complex [Platform F] (hpull : Refines pull pull') :
    Refines (bertDecodeComplex pull) (LibBert.bertDecodeComplex pull') := by
  refine refines_pullPart hpull fun keyword ↦ ?_
  refine Refines.ite ((silent_abandon _).tracks fun _ ↦ refines_return _) ?_
  refine Refines.ite (refines_finishKeyword fun _ ↦ rfl) ?_
  refine Refines.ite (refines_finishKeyword fun _ ↦ rfl) ?_
  refine Refines.ite (refines_finishKeyword fun _ ↦ rfl) ?_
  refine Refines.ite ((silent_destroy _).tracks fun _ ↦ refines_time hpull) ?_
  refine Refines.ite ((silent_destroy _).tracks fun _ ↦ refines_dict hpull) ?_
  exact Refines.ite ((silent_destroy _).tracks fun _ ↦ refines_regex hpull) (refines_cleanup _ _)

theorem refines_tupleLoop (hpull : Refines pull pull') {data header elements : Block}
    (remaining : ℕ) (done : List (Option (Owned F))) :
    Refines (decodeTupleLoop pull remaining done.length
        (.tuple data header elements (done ++ List.replicate remaining none)))
      (LibBert.decodeTupleLoop pull' remaining (eraseSlots done)) := by
  induction remaining generalizing done with
  | zero =>
      refine tracks_pure ?_
      rw [Same, List.replicate_zero, List.append_nil]
      rfl
  | succ remaining ih =>
      refine Tracks.bind hpull ?_ ?_
      · rintro ⟨result, slot⟩ _ rfl
        dsimp only
        split_ifs
        · exact refines_cleanup _ _
        · have hset : (done ++ List.replicate (remaining + 1) none).set done.length slot =
              done ++ [slot] ++ List.replicate remaining none := by
            rw [List.replicate_succ, List.set_append_right _ _ le_rfl, Nat.sub_self,
              List.set_cons_zero, List.append_assoc, List.singleton_append]
          have hdone := ih (done ++ [slot])
          rwa [List.length_append, List.length_singleton, ← hset, eraseSlots_append] at hdone
      · rintro _ rfl
        exact givesUp_cleanup _

theorem refines_tuple [Platform F] (hpull : Refines pull pull') (size : ℕ) :
    Refines (bertDecodeTuple pull size) (LibBert.bertDecodeTuple pull' size) := by
  refine refines_allocated (makes_tuple size) givesUp_return ?_
  rintro _ ⟨data, header, elements, rfl⟩
  rw [LibBert.bertDecodeTuple]
  cases size with
  | zero =>
      rw [if_pos rfl, if_pos rfl]
      exact tracks_pure rfl
  | succ size =>
      rw [if_neg (Nat.succ_ne_zero size), if_neg (Nat.succ_ne_zero size)]
      refine refines_pullPart hpull fun first ↦ ?_
      refine Refines.ite ((silent_destroyAll _).tracks fun _ ↦ refines_complex hpull) ?_
      exact refines_tupleLoop hpull size [some first]

theorem refines_smallTuple [Platform F] (hpull : Refines pull pull') :
    Refines (bertDecodeSmallTuple pull) (LibBert.bertDecodeSmallTuple pull') :=
  refines_field (fun _ ↦ rfl) fun _ ↦ refines_tuple hpull _

theorem refines_largeTuple [Platform F] (hpull : Refines pull pull') :
    Refines (bertDecodeLargeTuple pull) (LibBert.bertDecodeLargeTuple pull') :=
  refines_field (fun _ ↦ rfl) fun _ ↦ refines_tuple hpull _

theorem refines_appended {data header : Block} {nodes : List (Block × Owned F)} {d : Owned F}
    {i : ℕ} {q : Decode F (LibBert.Result F)}
    (hloop : ∀ node, Refines
      (decodeListLoop pull i (some d) (.list data header (nodes ++ [(node, d)]))) q) :
    Refines (do
      let (result, newData) ← bertListAppend (.list data header nodes) d
      if result = bertErrnoMalloc then cleanup [d, newData] bertErrnoMalloc
      else decodeListLoop pull i (some d) newData) q := by
  refine Tracks.bind (g := fun _ ↦ q) (tracks_listAppend data header nodes d) ?_ ?_
  · rintro _ _ ⟨node, rfl⟩
    exact hloop node
  · rintro _ rfl
    exact givesUp_cleanup _

theorem refines_listLoop (hpull : Refines pull pull') {data header : Block} (i : ℕ)
    (element : Option (Owned F)) (twice : Bool) (nodes : List (Block × Owned F))
    (helement : ∀ d, element = some d → d ∈ nodes.map Prod.snd)
    (htwice : twice = true → ∃ d, [d, d].Sublist (nodes.map Prod.snd)) :
    Refines (decodeListLoop pull i element (.list data header nodes))
      (LibBert.decodeListLoop pull' i (eraseSlot element) twice (eraseNodes nodes)) := by
  induction i generalizing element twice nodes with
  | zero =>
      refine Tracks.bind_of_never (tracks_lift (faultless_decoderRead 1)) ?_
      rintro (result | u) _ rfl
      · exact (silent_abandon _).tracks fun _ ↦ refines_return _
      · cases u
        exact Tracks.bind_of_never (Q := Eq) (g := fun _ ↦ .ret _)
          (tracks_lift (p := .step 1 (.ret ())) trivial) fun _ _ _ ↦ tracks_pure rfl
  | succ i ih =>
      have happended (d : Owned F) (twice' : Bool)
          (htwice' : twice' = true → ∃ e, [e, e].Sublist (nodes.map Prod.snd ++ [d]))
          (node : Block) :
          Refines (decodeListLoop pull i (some d) (.list data header (nodes ++ [(node, d)])))
            (LibBert.decodeListLoop pull' i (some d.erase) twice'
              (eraseNodes nodes ++ [d.erase])) := by
        have hloop := ih (some d) twice' (nodes ++ [(node, d)]) (by simp)
          (by rwa [List.map_append])
        rwa [eraseNodes_append] at hloop
      refine Tracks.bind hpull ?_ ?_
      · rintro ⟨result, slot⟩ _ rfl
        dsimp only
        split_ifs with hresult htwice' hnone
        · obtain ⟨d, hd⟩ := htwice htwice'
          exact refines_cleanup_of_twice hd _ _
        · exact refines_cleanup _ _
        · obtain rfl := Option.isNone_iff_eq_none.mp hnone
          refine Tracks.bind_of_never (Q := fun x y ↦ element = some x ∧ y = x.erase)
            (tracks_assigned ?_ ?_) ?_
          · rintro rfl
            rfl
          · rintro x hx
            obtain rfl : element = some x := hx
            exact ⟨_, rfl, rfl, rfl⟩
          · rintro x _ ⟨rfl, rfl⟩
            -- the term is in the list already
            have hagain : [x, x].Sublist (nodes.map Prod.snd ++ [x]) :=
              (List.singleton_sublist.mpr (helement x rfl)).append (List.Sublist.refl [x])
            exact Tracks.bind_of_never (g := fun _ ↦ _) (tracks_mark Event.stale) fun _ _ _ ↦
              refines_appended (happended x true fun _ ↦ ⟨x, hagain⟩)
        · obtain ⟨d, rfl⟩ := Option.ne_none_iff_exists'.mp (Option.isNone_iff_eq_none.not.mp hnone)
          refine refines_appended (happended d twice fun htrue ↦ ?_)
          obtain ⟨e, he⟩ := htwice htrue
          exact ⟨e, he.trans (List.sublist_append_left _ _)⟩
      · rintro _ rfl
        exact givesUp_cleanup _

theorem refines_list (hpull : Refines pull pull') :
    Refines (bertDecodeList pull) (LibBert.bertDecodeList pull') := by
  refine refines_field (fun _ ↦ rfl) fun size ↦ ?_
  refine refines_allocated (makes_with _ _) givesUp_return ?_
  rintro _ ⟨data, header, -, rfl⟩
  exact refines_listLoop hpull _ none false [] (by simp) (by simp)

theorem refines_magic [Platform F] (hpull : Refines pull pull') (magic : UInt8) :
    Refines (decodeMagic pull magic) (LibBert.decodeMagic pull' magic) :=
  .ite refines_nil <| .ite refines_smallInt <| .ite refines_bigInt <| .ite refines_smallBignum <|
    .ite refines_bigBignum <| .ite refines_float <| .ite refines_atom <| .ite refines_string <|
    .ite refines_bin <| .ite (refines_smallTuple hpull) <| .ite (refines_largeTuple hpull) <|
    .ite (refines_list hpull) (refines_return _)

theorem refines_body [Platform F] (hpull : Refines pull pull') :
    Refines (pullBody pull) (LibBert.pullBody pull') := by
  have hresult (magic : UInt8) : Refines (do return pullResult (← decodeMagic pull magic))
      (LibBert.decodeMagic pull' magic >>= fun r ↦ .ret (LibBert.pullResult r)) := by
    refine Tracks.bind (refines_magic hpull magic) ?_ ?_
    · rintro ⟨result, data⟩ _ rfl
      refine tracks_pure ?_
      rw [Same, pullResult, LibBert.pullResult]
      split_ifs <;> rfl
    · rintro _ rfl
      exact givesUp_return
  refine Tracks.bind_of_never (q := .read 1 .ret) (tracks_lift fun _ ↦ trivial) ?_
  rintro result _ rfl
  refine Refines.ite ?_ (Refines.ite (refines_return _) (refines_return _))
  refine refines_field (fun _ ↦ rfl) fun magic ↦ Refines.ite ?_ (hresult _)
  exact refines_field (fun _ ↦ rfl) hresult

end Nested

theorem refines_pull [Platform F] (depth : ℕ) :
    Refines (bertDecoderPull depth : Managed F _) (LibBert.bertDecoderPull depth) := by
  induction depth with
  | zero => exact tracks_timeout
  | succ depth ih =>
      refine Tracks.bind_of_never (g := fun _ ↦ _) (tracks_mark Event.enter) fun _ _ _ ↦ ?_
      refine Tracks.bind (refines_body ih) ?_ ?_
      · rintro result _ rfl
        exact Tracks.bind_of_never (g := fun _ ↦ .ret _) (tracks_mark _) fun _ _ _ ↦ tracks_pure rfl
      · rintro _ rfl
        have hmark : Quiet (F := F) (.leave bertErrnoMalloc none) := rfl
        exact (givesUp_mark hmark).bind fun _ _ ↦ givesUp_return

end LibBert.Managed
