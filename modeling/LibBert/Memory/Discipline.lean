import LibBert.Memory.Accounts

/-!
# What the decode functions leave allocated

One lemma for each decode function: whatever it is given to read and whichever of its
allocations fail, on its way out everything it allocated is destroyed again, abandoned
or part of the term it stores.
-/

namespace LibBert.Managed

open Reading Storing
open Owned (blocks blocksSlot blocksSlots blocksNodes blocksPairs)

variable {F α : Type} {strict : Prop} {lost used : Multiset Block} {h : Heap} {code : Code}

/-- The term that was stored, if any, is allocated beside what is in use, and was stored
with the given code. -/
def Settled (strict : Prop) (lost used : Multiset Block) (code : Code)
    (r : Result F × Heap) : Prop :=
  r.2.Accounts strict lost (blocksSlot r.1.2 + used) ∧ (r.1.2 ≠ none → r.1.1 = code)

def Keeps (strict : Prop) (lost : Multiset Block) (code : Code) (m : Managed F (Result F)) : Prop :=
  ∀ used h, h.Accounts strict lost used →
    Meets (heapContract strict) (Settled strict lost used code) (m h)

theorem settled_none (ha : h.Accounts strict lost used) (code result : Code) :
    Settled strict lost used code ((result, (none : Option (Owned F))), h) :=
  ⟨ha.of_eq (zero_add _).symm, fun hnone ↦ absurd rfl hnone⟩

theorem settled_some {d : Owned F} (ha : h.Accounts strict lost (d.blocks + used)) (code : Code) :
    Settled strict lost used code ((code, some d), h) := ⟨ha, fun _ ↦ rfl⟩

theorem keeps_return (code result : Code) :
    Keeps strict lost code (pure (result, none) : Managed F (Result F)) :=
  fun _ _ ha ↦ settled_none ha code result

theorem Keeps.ite {c : Prop} [Decidable c] {m m' : Managed F (Result F)}
    (hm : Keeps strict lost code m) (hm' : Keeps strict lost code m') :
    Keeps strict lost code (if c then m else m') := by
  split_ifs
  · exact hm
  · exact hm'

theorem meets_ite {c : Prop} [Decidable c] {m m' : Managed F (Result F)}
    {Q : Result F × Heap → Prop}
    (hm : Meets (heapContract strict) Q (m h)) (hm' : Meets (heapContract strict) Q (m' h)) :
    Meets (heapContract strict) Q ((if c then m else m') h) := by
  split_ifs
  · exact hm
  · exact hm'

theorem keeps_behind {field : Managed F (Except Code α)} {next : α → Managed F (Result F)}
    (hfield : ∀ used h, h.Accounts strict lost used →
      Meets (heapContract strict) (fun r ↦ r.2.Accounts strict lost used) (field h))
    (hnext : ∀ a, Keeps strict lost code (next a)) :
    Keeps strict lost code (behind field next) := by
  intro used h ha
  refine meets_bind (hfield used h ha) fun answer h ha ↦ ?_
  cases answer with
  | error result => exact settled_none ha code result
  | ok a => exact hnext a used h ha

theorem keeps_field {p : Decode F (Except Code α)} {next : α → Managed F (Result F)}
    (hnext : ∀ a, Keeps strict lost code (next a)) :
    Keeps strict lost code (behind (lift p) next) :=
  keeps_behind (fun _ _ ha ↦ ha.meets_lift p) hnext

/-- Both ways out of an allocation. -/
theorem meets_allocated {shape : Owned F → Prop} {create : Managed F (Option (Owned F))}
    {failed : Managed F (Result F)} {next : Owned F → Managed F (Result F)}
    {Q : Result F × Heap → Prop} (hcreate : Creates strict lost shape create)
    (ha : h.Accounts strict lost used)
    (hfailed : ∀ h', h'.Accounts strict lost used → Meets (heapContract strict) Q (failed h'))
    (hnext : ∀ d h', shape d → h'.Accounts strict lost (d.blocks + used) →
      Meets (heapContract strict) Q (next d h')) :
    Meets (heapContract strict) Q (allocated create failed next h) := by
  refine meets_bind (hcreate used h ha) fun answer h hanswer ↦ ?_
  cases answer with
  | none => exact hfailed h (hanswer.1.of_eq (zero_add _))
  | some d => exact hnext d h (hanswer.2 d rfl) hanswer.1

/-! ## Scalars -/

theorem keeps_finish {shape : Owned F → Prop} {create : Managed F (Option (Owned F))}
    (hcreate : Creates strict lost shape create) :
    Keeps strict lost bertSuccess (finish create) := fun _ _ ha ↦
  meets_allocated hcreate ha (fun _ ha ↦ settled_none ha _ _) fun _ _ _ ha ↦ settled_some ha _

/-- A text can be copied to a place whose block is in use and long enough. -/
def Fits (used : Multiset Block) (dest : Option Block) (length : ℕ) : Prop :=
  ∀ b, dest = some b → b ∈ used ∧ (length < 2 ^ 32 - 1 → length ≤ b.size)

theorem fits_none (used : Multiset Block) (length : ℕ) : Fits used none length :=
  fun _ hb ↦ by cases hb

theorem meets_writeText {dest : Option Block} {offset size length : ℕ}
    (ha : h.Accounts strict lost used) (hfits : Fits used dest length)
    (hsize : offset + size ≤ length) :
    Meets (heapContract strict) (fun r ↦ r.2.Accounts strict lost used)
      ((writeText dest offset size length : Managed F _) h) := by
  cases dest with
  | none => exact ha
  | some b =>
      obtain ⟨hb, hlength⟩ := hfits b rfl
      exact ha.meets_write hb fun hshort ↦ hsize.trans (hlength hshort)

theorem meets_decodeBytesLoop {dest : Option Block} {length : ℕ} (fuel index : ℕ)
    (bytes : List UInt8) (ha : h.Accounts strict lost used) (hfits : Fits used dest length) :
    Meets (heapContract strict) (fun r ↦ r.2.Accounts strict lost used)
      ((decodeBytesLoop dest length fuel index bytes : Managed F _) h) := by
  induction fuel generalizing h index bytes with
  | zero => trivial
  | succ fuel ih =>
      rw [decodeBytesLoop]
      split_ifs with hindex
      · refine meets_bind (ha.meets_lift _) fun answer h ha ↦ ?_
        cases answer with
        | error result => exact ha
        | ok chunk =>
            have hchunk : index + min (bertShortBuffer / 2) (length - index) ≤ length := by omega
            exact meets_bind (meets_writeText ha hfits hchunk) fun _ _ ha ↦ ih _ _ ha
      · exact ha

theorem meets_decodeBytes {dest : Option Block} {length : ℕ} (ha : h.Accounts strict lost used)
    (hfits : Fits used dest length) :
    Meets (heapContract strict) (fun r ↦ r.2.Accounts strict lost used)
      ((bertDecodeBytes dest length : Managed F _) h) :=
  meets_decodeBytesLoop _ _ _ ha hfits

theorem keeps_nil : Keeps strict lost bertSuccess (bertDecodeNil : Managed F _) :=
  keeps_finish (creates_data fun _ ↦ rfl)

theorem keeps_int (i : Int64) :
    Keeps strict lost bertSuccess (finish (bertDataCreateInt i) : Managed F _) :=
  keeps_finish (creates_data fun _ ↦ rfl)

theorem keeps_smallInt : Keeps strict lost bertSuccess (bertDecodeSmallInt : Managed F _) :=
  keeps_field fun _ ↦ keeps_int _

theorem keeps_bigInt : Keeps strict lost bertSuccess (bertDecodeBigInt : Managed F _) :=
  keeps_field fun _ ↦ keeps_int _

theorem keeps_bytes {length : ℕ} {next : List UInt8 → Managed F (Result F)}
    (hnext : ∀ bytes, Keeps strict lost code (next bytes)) :
    Keeps strict lost code (behind (bertDecodeBytes none length) next) :=
  keeps_behind (fun _ _ ha ↦ meets_decodeBytes ha (fits_none _ _)) hnext

theorem keeps_float [Platform F] :
    Keeps strict lost bertSuccess (bertDecodeFloat : Managed F _) := by
  refine keeps_bytes fun floatBuffer ↦ ?_
  cases (Platform.sscanf (floatBuffer ++ [0]) : Option F) with
  | none => exact keeps_return _ _
  | some floatingPoint => exact keeps_finish (creates_data fun _ ↦ rfl)

theorem keeps_bignum (size : ℕ) :
    Keeps strict lost bertSuccess (bertDecodeBignum size : Managed F _) :=
  .ite (keeps_return _ _) (keeps_field fun _ ↦ keeps_bytes fun _ ↦ keeps_int _)

theorem keeps_smallBignum : Keeps strict lost bertSuccess (bertDecodeSmallBignum : Managed F _) :=
  keeps_field fun _ ↦ keeps_bignum _

theorem keeps_bigBignum : Keeps strict lost bertSuccess (bertDecodeBigBignum : Managed F _) :=
  keeps_field fun _ ↦ keeps_bignum _

theorem blocks_setText (d : Owned F) (bytes : List UInt8) :
    (d.setText bytes).blocks = d.blocks := by
  cases d <;> rfl

/-- A term whose text has room for so many bytes. -/
def Roomy (length : ℕ) (d : Owned F) : Prop := Fits d.blocks d.text length

theorem keeps_text {create : Managed F (Option (Owned F))} {size : ℕ}
    (hcreate : Creates strict lost (Roomy size) create) :
    Keeps strict lost bertSuccess (decodeText create size) := by
  intro used h ha
  refine meets_allocated hcreate ha (fun _ ha ↦ settled_none ha _ _) fun newData h hroomy ha ↦ ?_
  split_ifs with hsize
  · exact settled_some ha _
  · have hfits : Fits (newData.blocks + used) newData.text size := fun b hb ↦
      ⟨Multiset.mem_add.mpr (.inl (hroomy b hb).1), (hroomy b hb).2⟩
    refine meets_bind (meets_decodeBytes ha hfits) fun answer h ha ↦ ?_
    cases answer with
    | error result =>
        exact meets_bind (meets_destroy newData ha) fun _ _ ha ↦ settled_none ha _ _
    | ok bytes => exact settled_some (ha.of_eq (by rw [blocks_setText])) _

/-- A text created with a block that is long enough has room. -/
theorem creates_roomy {size length : ℕ} {fields : Block → Block → Owned F}
    (hfields : ∀ data block, (fields data block).blocks = {data} + {block})
    (htext : ∀ data block, (fields data block).text = some block)
    (hsize : length < 2 ^ 32 - 1 → length ≤ size) :
    Creates strict lost (Roomy length) (createWith size fields) := by
  intro used h ha
  refine (creates_with hfields used h ha).mono fun r hr ↦ ⟨hr.1, fun d hd ↦ ?_⟩
  obtain ⟨data, block, rfl, rfl⟩ := hr.2 d hd
  rw [Roomy, htext, hfields]
  rintro b ⟨⟩
  exact ⟨by simp, hsize⟩

theorem keeps_string : Keeps strict lost bertSuccess (bertDecodeString : Managed F _) :=
  keeps_field fun _ ↦ keeps_text
    (creates_roomy (fun _ _ ↦ rfl) (fun _ _ ↦ rfl) fun _ ↦ Nat.le_succ _)

theorem keeps_atom : Keeps strict lost bertSuccess (bertDecodeAtom : Managed F _) :=
  keeps_field fun _ ↦ keeps_text
    (creates_roomy (fun _ _ ↦ rfl) (fun _ _ ↦ rfl) fun _ ↦ Nat.le_succ _)

theorem keeps_bin : Keeps strict lost bertSuccess (bertDecodeBin : Managed F _) :=
  keeps_field fun _ ↦ keeps_text (creates_roomy (fun _ _ ↦ rfl) (fun _ _ ↦ rfl) fun hlength ↦
    (Nat.le_succ _).trans (emptyBinSize_of_lt hlength).ge)

/-! ## Reading and extending -/

theorem mem_blocks_of_own {d : Owned F} {b : Block} (hb : b ∈ d.own) : b ∈ d.blocks := by
  cases d <;> simp only [Owned.own, List.mem_cons, List.not_mem_nil, or_false] at hb <;>
    simp only [blocks, Multiset.mem_add, Multiset.mem_singleton] <;> tauto

theorem meets_touchAll {bs : List Block} (ha : h.Accounts strict lost used)
    (hbs : ∀ b ∈ bs, b ∈ used) :
    Meets (heapContract strict) (fun r ↦ r.2.Accounts strict lost used)
      ((touchAll bs : Managed F _) h) := by
  induction bs generalizing h with
  | nil => exact ha
  | cons b bs ih =>
      exact meets_bind (ha.meets_touch (hbs b List.mem_cons_self)) fun _ _ ha ↦
        ih ha fun c hc ↦ hbs c (List.mem_cons_of_mem b hc)

theorem meets_look {d : Owned F} (ha : h.Accounts strict lost used) (hd : d.blocks ≤ used) :
    Meets (heapContract strict) (fun r ↦ r.2.Accounts strict lost used) (look d h) :=
  meets_touchAll ha fun _ hb ↦ Multiset.mem_of_le hd (mem_blocks_of_own hb)

theorem blocksNodes_append (xs ys : List (Block × Owned F)) :
    blocksNodes (xs ++ ys) = blocksNodes xs + blocksNodes ys := by
  induction xs with
  | nil => exact (zero_add _).symm
  | cons node xs ih =>
      rw [List.cons_append, blocksNodes, blocksNodes, ih]
      abel

theorem blocksPairs_append (xs ys : List (Block × Option (Owned F) × Option (Owned F))) :
    blocksPairs (xs ++ ys) = blocksPairs xs + blocksPairs ys := by
  induction xs with
  | nil => exact (zero_add _).symm
  | cons node xs ih =>
      rw [List.cons_append, blocksPairs, blocksPairs, ih]
      abel

theorem mem_blocksNodes {node : Block × Owned F} {nodes : List (Block × Owned F)}
    (h : node ∈ nodes) : node.1 ∈ blocksNodes nodes := by
  obtain ⟨front, back, rfl⟩ := List.append_of_mem h
  simp [blocksNodes_append, blocksNodes]

theorem mem_blocksPairs {node : Block × Option (Owned F) × Option (Owned F)}
    {nodes : List (Block × Option (Owned F) × Option (Owned F))} (h : node ∈ nodes) :
    node.1 ∈ blocksPairs nodes := by
  obtain ⟨front, back, rfl⟩ := List.append_of_mem h
  simp [blocksPairs_append, blocksPairs]

/-- The last node of a container is one of its blocks. -/
theorem mem_blocks_of_tail {d : Owned F} {b : Block} (hb : b ∈ d.tail.toList) : b ∈ d.blocks := by
  cases d with
  | list data header nodes =>
      obtain ⟨node, hnode, rfl⟩ := Option.map_eq_some_iff.mp (Option.mem_toList.mp hb)
      exact Multiset.mem_add.mpr (.inr (mem_blocksNodes (List.mem_of_getLast? hnode)))
  | dict data header nodes =>
      obtain ⟨node, hnode, rfl⟩ := Option.map_eq_some_iff.mp (Option.mem_toList.mp hb)
      exact Multiset.mem_add.mpr (.inr (mem_blocksPairs (List.mem_of_getLast? hnode)))
  | _ => cases hb

theorem meets_tail {d : Owned F} (ha : h.Accounts strict lost used) (hd : d.blocks ≤ used) :
    Meets (heapContract strict) (fun r ↦ r.2.Accounts strict lost used)
      ((touchAll d.tail.toList : Managed F _) h) :=
  meets_touchAll ha fun _ hb ↦ Multiset.mem_of_le hd (mem_blocks_of_tail hb)

theorem meets_lookSlots {slots : List (Option (Owned F))} (ha : h.Accounts strict lost used)
    (hslots : blocksSlots slots ≤ used) :
    Meets (heapContract strict) (fun r ↦ r.2.Accounts strict lost used) (lookSlots slots h) := by
  induction slots generalizing h with
  | nil => exact ha
  | cons slot slots ih =>
      rw [blocksSlots] at hslots
      have hrest := (Multiset.le_add_left _ _).trans hslots
      cases slot with
      | none => exact ih ha hrest
      | some d =>
          exact meets_bind (meets_look ha ((Multiset.le_add_right _ _).trans hslots))
            fun _ _ ha ↦ ih ha hrest

theorem blocksSlots_append (xs ys : List (Option (Owned F))) :
    blocksSlots (xs ++ ys) = blocksSlots xs + blocksSlots ys := by
  induction xs with
  | nil => exact (zero_add _).symm
  | cons slot xs ih => rw [List.cons_append, blocksSlots, blocksSlots, ih, add_assoc]

/-- Appending to a list takes over the term, unless there is no node for it. -/
theorem meets_listAppend {data header : Block} {nodes : List (Block × Owned F)} {d : Owned F}
    (ha : h.Accounts strict lost (d.blocks + ((Owned.list data header nodes).blocks + used))) :
    Meets (heapContract strict)
      (fun r : (Code × Owned F) × Heap ↦
        (∃ node, r.1 = (bertSuccess, .list data header (nodes ++ [(node, d)])) ∧
          r.2.Accounts strict lost (r.1.2.blocks + used)) ∨
        r.1 = (bertErrnoMalloc, .list data header nodes) ∧
          r.2.Accounts strict lost (d.blocks + ((Owned.list data header nodes).blocks + used)))
      (bertListAppend (.list data header nodes) d h) := by
  refine meets_bind (ha.meets_malloc _) fun answer h hanswer ↦ ?_
  rcases hanswer with ⟨node, rfl, -, ha⟩ | ⟨rfl, ha⟩
  · have hlist : (Owned.list data header nodes).blocks ≤
        {node} + (d.blocks + ((Owned.list data header nodes).blocks + used)) :=
      (Multiset.le_add_right _ used).trans
        ((Multiset.le_add_left _ _).trans (Multiset.le_add_left _ _))
    refine meets_bind (meets_look ha hlist) fun _ h ha ↦ ?_
    refine meets_bind (meets_tail ha hlist) fun _ h ha ↦ .inl ⟨node, rfl, ha.of_eq ?_⟩
    simp only [Owned.pushNode, blocks, blocksNodes_append, blocksNodes]
    abel
  · exact .inr ⟨rfl, ha⟩

theorem meets_dictAppend {data header : Block}
    {nodes : List (Block × Option (Owned F) × Option (Owned F))} {key value : Option (Owned F)}
    (ha : h.Accounts strict lost
      (blocksSlot value + (blocksSlot key + ((Owned.dict data header nodes).blocks + used)))) :
    Meets (heapContract strict)
      (fun r : (Code × Owned F) × Heap ↦
        (∃ node, r.1 = (bertSuccess, .dict data header (nodes ++ [(node, key, value)])) ∧
          r.2.Accounts strict lost (r.1.2.blocks + used)) ∨
        r.1 = (bertErrnoMalloc, .dict data header nodes) ∧
          r.2.Accounts strict lost
            (blocksSlot value + (blocksSlot key + ((Owned.dict data header nodes).blocks + used))))
      (bertDictAppend (.dict data header nodes) key value h) := by
  refine meets_bind (ha.meets_malloc _) fun answer h hanswer ↦ ?_
  rcases hanswer with ⟨node, rfl, -, ha⟩ | ⟨rfl, ha⟩
  · have hdict : (Owned.dict data header nodes).blocks ≤ {node} +
        (blocksSlot value + (blocksSlot key + ((Owned.dict data header nodes).blocks + used))) :=
      (Multiset.le_add_right _ used).trans ((Multiset.le_add_left _ _).trans
        ((Multiset.le_add_left _ _).trans (Multiset.le_add_left _ _)))
    refine meets_bind (meets_look ha hdict) fun _ h ha ↦ ?_
    refine meets_bind (meets_tail ha hdict) fun _ h ha ↦ .inl ⟨node, rfl, ha.of_eq ?_⟩
    simp only [Owned.pushPair, blocks, blocksPairs_append, blocksPairs]
    abel
  · exact .inr ⟨rfl, ha⟩

/-! ## Nested pulls -/

/-- The blocks of the terms a function holds. -/
def blocksAll (ds : List (Owned F)) : Multiset Block := (ds.map blocks).sum

theorem blocksAll_cons (d : Owned F) (ds : List (Owned F)) :
    blocksAll (d :: ds) = d.blocks + blocksAll ds := rfl

theorem blocksAll_singleton (d : Owned F) : blocksAll [d] = d.blocks := add_zero _

theorem le_blocksAll {d : Owned F} {ds : List (Owned F)} (hd : d ∈ ds) (used : Multiset Block) :
    d.blocks ≤ blocksAll ds + used := by
  obtain ⟨front, back, rfl⟩ := List.append_of_mem hd
  refine Multiset.le_iff_exists_add.mpr ⟨blocksAll front + blocksAll back + used, ?_⟩
  simp only [blocksAll, List.map_append, List.map_cons, List.sum_append, List.sum_cons]
  abel

theorem meets_cleanup {held : List (Owned F)} (ha : h.Accounts strict lost (blocksAll held + used))
    (code result : Code) :
    Meets (heapContract strict) (Settled strict lost used code) (cleanup held result h) :=
  meets_bind (meets_destroyAll held ha) fun _ _ ha ↦ settled_none ha code result

section Nested

variable {pull : Managed F (Result F)} {held : List (Owned F)}
  {next : Owned F → Managed F (Result F)}

theorem meets_pullPart (hpull : Keeps strict lost 1 pull)
    (ha : h.Accounts strict lost (blocksAll held + used))
    (hnext : ∀ part h', h'.Accounts strict lost (blocksAll (part :: held) + used) →
      Meets (heapContract strict) (Settled strict lost used code) (next part h')) :
    Meets (heapContract strict) (Settled strict lost used code) (pullPart pull held next h) := by
  refine meets_bind (hpull _ h ha) ?_
  rintro ⟨result, data⟩ h ⟨ha, hcode⟩
  dsimp only at ha hcode ⊢
  split_ifs with hresult
  · obtain rfl : data = none := not_not.mp fun hdata ↦ hresult (hcode hdata)
    exact meets_cleanup (ha.of_eq (zero_add _)) _ _
  · refine meets_bind (P := fun r ↦ data = some r.1 ∧ r.2 = h)
      (meets_assigned fun part hpart ↦ ⟨hpart, rfl⟩) ?_
    rintro part h' ⟨rfl, rfl⟩
    exact meets_bind (meets_look ha (Multiset.le_add_right _ _)) fun _ _ ha ↦
      hnext part _ (ha.of_eq (add_assoc _ _ _).symm)

/-- The pointer a failed pull left unassigned is used on the way out. -/
theorem meets_pullTimePart (hpull : Keeps strict lost 1 pull)
    (ha : h.Accounts strict lost (blocksAll held + used))
    (hnext : ∀ part h', h'.Accounts strict lost (blocksAll (part :: held) + used) →
      Meets (heapContract strict) (Settled strict lost used code) (next part h')) :
    Meets (heapContract strict) (Settled strict lost used code)
      (pullTimePart pull held next h) := by
  refine meets_bind (hpull _ h ha) ?_
  rintro ⟨result, data⟩ h ⟨ha, hcode⟩
  dsimp only at ha hcode ⊢
  have hassigned : Meets (heapContract (F := F) strict) (fun r ↦ data = some r.1 ∧ r.2 = h)
      ((assigned data : Managed F _) h) := meets_assigned fun part hpart ↦ ⟨hpart, rfl⟩
  split_ifs with hresult
  · refine meets_bind hassigned ?_
    rintro part h' ⟨rfl, rfl⟩
    exact absurd (hcode (Option.some_ne_none part)) hresult
  · refine meets_bind hassigned ?_
    rintro part h' ⟨rfl, rfl⟩
    exact meets_bind (meets_look ha (Multiset.le_add_right _ _)) fun _ _ ha ↦
      hnext part _ (ha.of_eq (add_assoc _ _ _).symm)

theorem keeps_time [Platform F] (hpull : Keeps strict lost 1 pull) :
    Keeps strict lost bertSuccess (bertDecodeTime pull) := by
  intro used h ha
  refine meets_pullTimePart hpull (ha.of_eq (zero_add _).symm) fun megaseconds h ha ↦ ?_
  refine meets_ite (meets_cleanup ha _ _) ?_
  refine meets_pullTimePart hpull ha fun seconds h ha ↦ ?_
  refine meets_ite (meets_cleanup ha _ _) ?_
  refine meets_pullTimePart hpull ha fun microseconds h ha ↦ ?_
  refine meets_ite (meets_cleanup ha _ _) ?_
  refine meets_bind (meets_look ha (le_blocksAll (by simp) _)) fun _ h ha ↦ ?_
  refine meets_bind (meets_look ha (le_blocksAll (by simp) _)) fun _ h ha ↦ ?_
  refine meets_bind (meets_look ha (le_blocksAll (by simp) _)) fun _ h ha ↦ ?_
  refine meets_bind (meets_destroyAll _ ha) fun _ h ha ↦ ?_
  exact keeps_finish (creates_data fun _ ↦ rfl) used h ha

/-- The pairs that were appended are in the dictionary, and their tuples are empty. -/
theorem meets_dictLoop {newData newHeader data header : Block}
    (pairs : List (Block × Option (Owned F) × Option (Owned F)))
    (passed rest : List (Block × Owned F))
    (ha : h.Accounts strict lost (blocksAll [.dict newData newHeader pairs,
      .list data header (passed ++ rest)] + used)) :
    Meets (heapContract strict) (Settled strict lost used bertSuccess)
      (decodeDictLoop (.dict newData newHeader pairs) (.list data header) passed rest h) := by
  induction rest generalizing h pairs passed with
  | nil =>
      rw [List.append_nil] at ha
      have hlist : Heap.Accounts strict lost ((Owned.list data header passed).blocks +
          ((Owned.dict newData newHeader pairs).blocks + used)) h :=
        ha.of_eq (by simp only [blocksAll, List.map, List.sum_cons, List.sum_nil]; abel)
      exact meets_bind (meets_destroy _ hlist) fun _ _ ha ↦ settled_some ha _
  | cons entry rest ih =>
      obtain ⟨node, nextTuple⟩ := entry
      have hblocks : (Owned.list data header (passed ++ (node, nextTuple) :: rest)).blocks =
          nextTuple.blocks + ({node} + (Owned.list data header (passed ++ rest)).blocks) := by
        simp only [blocks, blocksNodes_append, blocksNodes]
        abel
      have hlist : nextTuple.blocks + ({node} + (Owned.list data header (passed ++ rest)).blocks) ≤
          blocksAll [.dict newData newHeader pairs,
            .list data header (passed ++ (node, nextTuple) :: rest)] + used :=
        hblocks.ge.trans (le_blocksAll (by simp) used)
      have hnode := Multiset.mem_of_le hlist (a := node) (by simp)
      have htuple := (Multiset.le_add_right _ _).trans hlist
      by_cases hpair : ∃ tupleData tupleHeader elements key value,
          nextTuple = .tuple tupleData tupleHeader elements [key, value]
      · obtain ⟨tupleData, tupleHeader, elements, key, value, rfl⟩ := hpair
        rw [decodeDictLoop]
        refine meets_bind (ha.meets_touch hnode) fun _ h ha ↦ ?_
        refine meets_bind (meets_look ha htuple) fun _ h ha ↦ ?_
        have hmoved : Heap.Accounts strict lost (blocksSlot value + (blocksSlot key +
            ((Owned.dict newData newHeader pairs).blocks + ((Owned.list data header (passed ++
              (node, .tuple tupleData tupleHeader elements [none, none]) :: rest)).blocks +
                used)))) h := ha.of_eq (by
          simp only [blocksAll, List.map, List.sum_cons, List.sum_nil, blocks,
            blocksNodes_append, blocksNodes, blocksSlots, blocksSlot]
          abel)
        refine meets_bind (meets_dictAppend hmoved) ?_
        rintro ⟨result, dict⟩ h (⟨entry, heq, ha⟩ | ⟨heq, ha⟩) <;> obtain ⟨rfl, rfl⟩ := heq
        · refine ih _ _ (ha.of_eq ?_)
          rw [blocksAll_cons, blocksAll_cons, List.append_assoc, List.singleton_append]
          simp only [blocksAll, List.map_nil, List.sum_nil, add_zero, add_assoc]
        · refine meets_bind (meets_destroySlot value ha) fun _ h ha ↦ ?_
          refine meets_bind (meets_destroySlot key ha) fun _ h ha ↦ ?_
          exact meets_cleanup (ha.of_eq (by simp [blocksAll, add_assoc])) _ _
      · rw [decodeDictLoop]
        swap
        · exact fun tupleData tupleHeader elements key value heq ↦
            hpair ⟨tupleData, tupleHeader, elements, key, value, heq⟩
        refine meets_bind (ha.meets_touch hnode) fun _ h ha ↦ ?_
        refine meets_bind (meets_look ha htuple) fun _ h ha ↦ ?_
        exact meets_cleanup ha _ _

theorem keeps_dict (hpull : Keeps strict lost 1 pull) :
    Keeps strict lost bertSuccess (bertDecodeDict pull) := by
  intro used h ha
  refine meets_pullPart hpull (ha.of_eq (zero_add _).symm) fun listData h ha ↦ ?_
  cases listData with
  | nil data =>
      refine meets_allocated (creates_with fun _ _ ↦ rfl) ha (fun _ ha ↦ meets_cleanup ha _ _)
        fun newData h hdict ha ↦ ?_
      have hlist : Heap.Accounts strict lost
          ((Owned.nil data : Owned F).blocks + (newData.blocks + used)) h :=
        ha.of_eq (by simp only [blocksAll, List.map, List.sum_cons, List.sum_nil]; abel)
      exact meets_bind (meets_destroy _ hlist) fun _ _ ha ↦ settled_some ha _
  | list data header nodes =>
      refine meets_allocated (creates_with fun _ _ ↦ rfl) ha (fun _ ha ↦ meets_cleanup ha _ _)
        fun newData h hdict ha ↦ ?_
      obtain ⟨newBlock, newHeader, -, rfl⟩ := hdict
      exact meets_dictLoop [] [] nodes (ha.of_eq (add_assoc _ _ _).symm)
  | _ => exact meets_cleanup ha _ _

theorem meets_lookOption {nextOpt : Owned F} (ha : h.Accounts strict lost used)
    (hopt : nextOpt.blocks ≤ used) :
    Meets (heapContract strict) (fun r ↦ r.2.Accounts strict lost used) (lookOption nextOpt h) := by
  refine meets_bind (meets_look ha hopt) fun _ h ha ↦ ?_
  cases nextOpt with
  | tuple data header elements slots =>
      exact meets_lookSlots ha ((Multiset.le_add_left _ _).trans hopt)
  | _ => exact ha

theorem meets_optionsLoop (nodes : List (Block × Owned F)) (options : UInt32)
    (ha : h.Accounts strict lost used) (hnodes : blocksNodes nodes ≤ used) :
    Meets (heapContract strict) (fun r ↦ r.2.Accounts strict lost used)
      (regexOptionsLoop nodes options h) := by
  induction nodes generalizing h options with
  | nil => exact ha
  | cons entry rest ih =>
      obtain ⟨node, nextOpt⟩ := entry
      rw [blocksNodes] at hnodes
      have hnode := Multiset.mem_of_le hnodes (a := node) (by simp)
      have hopt : nextOpt.blocks ≤ used :=
        ((Multiset.le_add_left _ _).trans (Multiset.le_add_right _ _)).trans hnodes
      have hrest := (Multiset.le_add_left _ _).trans hnodes
      rw [regexOptionsLoop]
      refine meets_bind (ha.meets_touch hnode) fun _ h ha ↦ ?_
      refine meets_bind (meets_lookOption ha hopt) fun _ h ha ↦ ?_
      cases regexOption nextOpt.erase with
      | mask mask => exact ih _ ha hrest
      | invalid => exact ha
      | null => trivial

theorem keeps_regex (hpull : Keeps strict lost 1 pull) :
    Keeps strict lost bertSuccess (bertDecodeRegex pull) := by
  intro used h ha
  refine meets_pullPart hpull (ha.of_eq (zero_add _).symm) fun source h ha ↦ ?_
  cases source with
  | bin sourceData text bytes =>
      refine meets_pullPart hpull ha fun optList h ha ↦ ?_
      cases optList with
      | list data header nodes =>
          have hnodes : blocksNodes nodes ≤ blocksAll [.list data header nodes,
              .bin sourceData text bytes] + used :=
            (Multiset.le_add_left _ _).trans (le_blocksAll List.mem_cons_self used)
          refine meets_bind (meets_optionsLoop nodes 0 ha hnodes) fun answer h ha ↦ ?_
          cases answer with
          | none => exact meets_cleanup ha _ _
          | some options =>
              have hlist : Heap.Accounts strict lost ((Owned.list data header nodes).blocks +
                  (blocksAll [.bin sourceData text bytes] + used)) h := ha.of_eq (add_assoc _ _ _)
              refine meets_bind (meets_destroy _ hlist) fun _ h ha ↦ ?_
              refine meets_bind (meets_look ha (le_blocksAll List.mem_cons_self used))
                fun _ h ha ↦ ?_
              refine meets_allocated (creates_regex _ _ _) ha (fun _ ha ↦ meets_cleanup ha _ _)
                fun newData h _ ha ↦ ?_
              have hsource : Heap.Accounts strict lost
                  ((Owned.bin sourceData text bytes).blocks + (newData.blocks + used)) h :=
                ha.of_eq (by rw [blocksAll_singleton, add_left_comm])
              exact meets_bind (meets_destroy _ hsource) fun _ _ ha ↦ settled_some ha _
      | _ => exact meets_cleanup ha _ _
  | _ => exact meets_cleanup ha _ _

theorem keeps_finishKeyword {keyword : Owned F} {create : Managed F (Option (Owned F))}
    {shape : Owned F → Prop} (hcreate : Creates strict lost shape create)
    (ha : h.Accounts strict lost (keyword.blocks + used)) :
    Meets (heapContract strict) (Settled strict lost used bertSuccess)
      (finishKeyword keyword create h) := by
  refine meets_bind (hcreate _ h ha) fun answer h hanswer ↦ ?_
  have hkeyword : Heap.Accounts strict lost (keyword.blocks + (blocksSlot answer + used)) h :=
    hanswer.1.of_eq (add_left_comm _ _ _)
  refine meets_bind (meets_destroy keyword hkeyword) fun _ h ha ↦ ?_
  cases answer with
  | none => exact settled_none (ha.of_eq (zero_add _)) _ _
  | some newData => exact settled_some ha _

theorem keeps_behindKeyword {keyword : Owned F} {next : Managed F (Result F)}
    (hnext : Keeps strict lost code next)
    (ha : h.Accounts strict lost (keyword.blocks + used)) :
    Meets (heapContract strict) (Settled strict lost used code) (behindKeyword keyword next h) :=
  meets_bind (meets_destroy keyword ha) fun _ _ ha ↦ hnext used _ ha

theorem keeps_complex [Platform F] (hpull : Keeps strict lost 1 pull) :
    Keeps strict lost bertSuccess (bertDecodeComplex pull) := by
  intro used h ha
  refine meets_pullPart hpull (ha.of_eq (zero_add _).symm) fun keyword h ha ↦ ?_
  rw [blocksAll_singleton] at ha
  refine meets_ite ?_ ?_
  · exact meets_bind (P := fun r ↦ r.2.Accounts strict lost used) ha.meets_abandon
      fun _ _ ha ↦ settled_none ha _ _
  refine meets_ite (keeps_finishKeyword (creates_data fun _ ↦ rfl) ha) ?_
  refine meets_ite (keeps_finishKeyword (creates_data fun _ ↦ rfl) ha) ?_
  refine meets_ite (keeps_finishKeyword (creates_data fun _ ↦ rfl) ha) ?_
  refine meets_ite (keeps_behindKeyword (keeps_time hpull) ha) ?_
  refine meets_ite (keeps_behindKeyword (keeps_dict hpull) ha) ?_
  refine meets_ite (keeps_behindKeyword (keeps_regex hpull) ha) ?_
  exact meets_cleanup (ha.of_eq (by rw [blocksAll_singleton])) _ _

/-- The slots filled so far stand before the empty ones. -/
theorem meets_tupleLoop (hpull : Keeps strict lost 1 pull) {data header elements : Block}
    (remaining : ℕ) (done : List (Option (Owned F)))
    (ha : h.Accounts strict lost
      ((Owned.tuple data header elements (done ++ List.replicate remaining none)).blocks + used)) :
    Meets (heapContract strict) (Settled strict lost used bertSuccess)
      (decodeTupleLoop pull remaining done.length
        (.tuple data header elements (done ++ List.replicate remaining none)) h) := by
  induction remaining generalizing h done with
  | zero => exact settled_some ha _
  | succ remaining ih =>
      rw [decodeTupleLoop]
      refine meets_bind (hpull _ h ha) ?_
      rintro ⟨result, slot⟩ h ⟨ha, hcode⟩
      dsimp only at ha hcode ⊢
      split_ifs with hresult
      · obtain rfl : slot = none := not_not.mp fun hslot ↦ hresult (hcode hslot)
        exact meets_cleanup (ha.of_eq (by rw [blocksAll_singleton]; exact zero_add _)) _ _
      · have hset : (done ++ List.replicate (remaining + 1) none).set done.length slot =
            done ++ [slot] ++ List.replicate remaining none := by
          rw [List.replicate_succ, List.set_append_right _ _ le_rfl, Nat.sub_self,
            List.set_cons_zero, List.append_assoc, List.singleton_append]
        have hdone := ih (done ++ [slot]) (ha.of_eq (by
          simp only [blocks, blocksSlots_append, blocksSlots, List.replicate_succ, blocksSlot]
          abel))
        rwa [List.length_append, List.length_singleton, ← hset] at hdone

theorem keeps_tuple [Platform F] (hpull : Keeps strict lost 1 pull) (size : ℕ) :
    Keeps strict lost bertSuccess (bertDecodeTuple pull size) := by
  intro used h ha
  refine meets_allocated (creates_tuple size) ha (fun _ ha ↦ settled_none ha _ _)
    fun newData h htuple ha ↦ ?_
  obtain ⟨data, header, elements, rfl⟩ := htuple
  cases size with
  | zero => exact settled_some ha _
  | succ size =>
      refine meets_ite (settled_some ha _) ?_
      refine meets_pullPart hpull (ha.of_eq (by rw [blocksAll_singleton])) fun first h ha ↦ ?_
      refine meets_ite ?_ ?_
      · exact meets_bind (meets_destroyAll _ ha) fun _ h ha ↦ keeps_complex hpull used h ha
      · refine meets_tupleLoop hpull size [some first] (ha.of_eq ?_)
        simp only [blocksAll, List.map, List.sum_cons, List.sum_nil, blocks, blocksSlots_append,
          blocksSlots, blocksSlot, List.replicate_succ]
        abel

theorem keeps_smallTuple [Platform F] (hpull : Keeps strict lost 1 pull) :
    Keeps strict lost bertSuccess (bertDecodeSmallTuple pull) :=
  keeps_field fun _ ↦ keeps_tuple hpull _

theorem keeps_largeTuple [Platform F] (hpull : Keeps strict lost 1 pull) :
    Keeps strict lost bertSuccess (bertDecodeLargeTuple pull) :=
  keeps_field fun _ ↦ keeps_tuple hpull _

/-- The element a pull did not store is the one before, which is in the list already. -/
theorem meets_listLoop (hpull : Keeps strict lost 1 pull) {data header : Block} (i : ℕ)
    (element : Option (Owned F)) (nodes : List (Block × Owned F))
    (ha : h.Accounts strict lost ((Owned.list data header nodes).blocks + used)) :
    Meets (heapContract strict) (Settled strict lost used bertSuccess)
      (decodeListLoop pull i element (.list data header nodes) h) := by
  induction i generalizing h element nodes with
  | zero =>
      rw [decodeListLoop]
      refine meets_bind (ha.meets_lift _) fun answer h ha ↦ ?_
      cases answer with
      | error result =>
          exact meets_bind (P := fun r ↦ r.2.Accounts strict lost used) ha.meets_abandon
            fun _ _ ha ↦ settled_none ha _ _
      | ok _ => exact meets_bind (ha.meets_lift _) fun _ _ ha ↦ settled_some ha _
  | succ i ih =>
      rw [decodeListLoop]
      refine meets_bind (hpull _ h ha) ?_
      rintro ⟨result, data⟩ h ⟨ha, hcode⟩
      dsimp only at ha hcode ⊢
      split_ifs with hresult
      · obtain rfl : data = none := not_not.mp fun hdata ↦ hresult (hcode hdata)
        exact meets_cleanup (ha.of_eq (by rw [blocksAll_singleton]; exact zero_add _)) _ _
      · refine meets_bind (P := fun r ↦ r.2.Accounts strict lost _)
          (meets_assigned fun _ _ ↦ ha) fun _ _ ha ↦ ?_
        exact meets_bind (ha.meets_mark _) fun _ _ hmark ↦ absurd trivial hmark.1
      · obtain ⟨d, rfl⟩ := Option.ne_none_iff_exists'.mp (Option.isNone_iff_eq_none.not.mp ‹_›)
        refine meets_bind (P := fun r ↦ r = (d, h)) rfl ?_
        rintro _ _ ⟨⟩
        refine meets_bind (meets_listAppend ha) ?_
        rintro ⟨result, list⟩ h (⟨node, heq, ha⟩ | ⟨heq, ha⟩) <;> obtain ⟨rfl, rfl⟩ := heq
        · exact ih _ _ ha
        · exact meets_cleanup (ha.of_eq (by
            rw [blocksAll_cons, blocksAll_singleton, add_assoc])) _ _

theorem keeps_list (hpull : Keeps strict lost 1 pull) :
    Keeps strict lost bertSuccess (bertDecodeList pull) := by
  refine keeps_field fun size used h ha ↦ ?_
  refine meets_allocated (creates_with fun _ _ ↦ rfl) ha (fun _ ha ↦ settled_none ha _ _)
    fun newData h hlist ha ↦ ?_
  obtain ⟨data, header, -, rfl⟩ := hlist
  exact meets_listLoop hpull _ _ _ ha

theorem keeps_magic [Platform F] (hpull : Keeps strict lost 1 pull) (magic : UInt8) :
    Keeps strict lost bertSuccess (decodeMagic pull magic) :=
  .ite keeps_nil <| .ite keeps_smallInt <| .ite keeps_bigInt <| .ite keeps_smallBignum <|
    .ite keeps_bigBignum <| .ite keeps_float <| .ite keeps_atom <| .ite keeps_string <|
    .ite keeps_bin <| .ite (keeps_smallTuple hpull) <| .ite (keeps_largeTuple hpull) <|
    .ite (keeps_list hpull) (keeps_return _ _)

theorem settled_pullResult {r : Result F × Heap} (hr : Settled strict lost used bertSuccess r) :
    Settled strict lost used 1 (pullResult r.1, r.2) := by
  obtain ⟨⟨result, data⟩, h⟩ := r
  rw [pullResult]
  split_ifs with hresult
  · obtain rfl : data = none := not_not.mp fun hdata ↦ hresult (hr.2 hdata)
    exact settled_none (hr.1.of_eq (zero_add _)) _ _
  · exact ⟨hr.1, fun _ ↦ rfl⟩

theorem keeps_body [Platform F] (hpull : Keeps strict lost 1 pull) :
    Keeps strict lost 1 (pullBody pull) := by
  have hmagic (magic : UInt8) :
      Keeps strict lost 1 (do return pullResult (← decodeMagic pull magic)) := fun used h ha ↦
    meets_bind (keeps_magic hpull magic used h ha) fun _ _ hr ↦ settled_pullResult hr
  intro used h ha
  refine meets_bind (ha.meets_lift _) fun result h ha ↦ ?_
  refine meets_ite ?_ (meets_ite (settled_none ha _ _) (settled_none ha _ _))
  exact keeps_field (fun magic ↦ .ite (keeps_field hmagic) (hmagic magic)) used h ha

end Nested

/-- A pull leaves allocated, beside what is in use, the term it stores. -/
theorem keeps_pull [Platform F] (strict : Prop) (lost : Multiset Block) (depth : ℕ) :
    Keeps strict lost 1 (bertDecoderPull depth : Managed F _) := by
  induction depth with
  | zero => exact fun _ _ _ ↦ trivial
  | succ depth ih =>
      intro used h ha
      refine meets_bind (ha.meets_mark _) fun _ h ha ↦ ?_
      refine meets_bind (keeps_body ih used h ha.2) fun result h hresult ↦ ?_
      exact meets_bind (hresult.1.meets_mark _) fun _ _ ha ↦ ⟨ha.2, hresult.2⟩

end LibBert.Managed
