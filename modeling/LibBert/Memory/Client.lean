import LibBert.Memory.Safety
import LibBert.Text

/-!
# Clients

What a client does with the library: it pulls, creates and destroys terms, looks at
them and at the terms inside, and gives terms away to lists, dictionaries and tuples,
which destroy what they held in that place.  Over all such histories the allocated
blocks are those of the terms the client holds, beside the abandoned ones.
-/

namespace LibBert.Managed

open Reading Storing
open Owned (blocks blocksSlot blocksSlots blocksNodes blocksPairs)

variable {F σ : Type}

/-! ## Terms of a text -/

/-- The shared body of `bert_data_create_atom` and `bert_data_create_string`. -/
def createText (create : UInt16 → Managed F (Option (Owned F))) (text : List UInt8) :
    Managed F (Option (Owned F)) := do
  let length : UInt16 := UInt16.ofNat (strlen text)
  match ← create length with
  | none => return none
  | some newData => do
      writeText newData.text 0 length.toNat length.toNat
      return some (newData.setText
        ((strncpy (zeros (length.toNat + 1)) text length.toNat).take length.toNat))

def bertDataCreateAtom (name : List UInt8) : Managed F (Option (Owned F)) :=
  createText bertDataCreateEmptyAtom name

def bertDataCreateString (text : List UInt8) : Managed F (Option (Owned F)) :=
  createText bertDataCreateEmptyString text

def bertDataCreateBin (binaryData : List UInt8) (length : UInt32) :
    Managed F (Option (Owned F)) := do
  match ← bertDataCreateEmptyBin length with
  | none => return none
  | some newData => do
      writeText newData.text 0 length.toNat length.toNat
      return some (newData.setText (binaryData.take length.toNat))

/-! ## Elements -/

def bertTupleGet (tuple : Owned F) (index : UInt32) : Managed F (Option (Owned F)) := do
  look tuple
  match tuple with
  | .tuple _ _ _ slots => return slots[index.toNat]?.join
  | _ => return none

/-- An element that is replaced is destroyed. -/
def bertTupleSet (tuple : Owned F) (index : UInt32) (data : Owned F) :
    Managed F (Code × Owned F) := do
  look tuple
  match tuple with
  | .tuple _ _ _ slots =>
      match slots[index.toNat]? with
      | none => return (0, tuple)
      | some slot => do
          destroySlot slot
          return (1, tuple.setSlot index.toNat (some data))
  | _ => return (0, tuple)

/-- The walk to a node. -/
def touchNodes (nodes : List (Block × Owned F)) (index : UInt32) : Managed F Unit :=
  touchAll ((nodes.take (index.toNat + 1)).map Prod.fst)

def bertListGet (list : Owned F) (index : UInt32) : Managed F (Option (Owned F)) := do
  look list
  match list with
  | .list _ _ nodes => do
      touchNodes nodes index
      return nodes[index.toNat]?.map Prod.snd
  | _ => return none

/-- The data of the node is destroyed. -/
def bertListSet (list : Owned F) (index : UInt32) (data : Owned F) :
    Managed F (Code × Owned F) := do
  look list
  match list with
  | .list block header nodes => do
      touchNodes nodes index
      match nodes[index.toNat]? with
      | none => return (0, list)
      | some (node, entry) => do
          bertDataDestroy entry
          touch node
          return (1, .list block header (nodes.set index.toNat (node, data)))
  | _ => return (0, list)

/-! ## Calls -/

inductive Creation (F : Type) : Type where
  | nil
  | true
  | false
  | int (i : Int64)
  | float (f : F)
  | atom (name : List UInt8)
  | string (text : List UInt8)
  | tuple (length : UInt32)
  | list
  | dict
  | bin (binaryData : List UInt8) (length : UInt32)
  | time (timestamp : Int64)
  | regex (source : List UInt8) (length options : UInt32)

def Creation.run : Creation F → Managed F (Option (Owned F))
  | .nil => bertDataCreateNil
  | .true => bertDataCreateTrue
  | .false => bertDataCreateFalse
  | .int i => bertDataCreateInt i
  | .float f => bertDataCreateFloat f
  | .atom name => bertDataCreateAtom name
  | .string text => bertDataCreateString text
  | .tuple length => bertDataCreateTuple length.toNat
  | .list => bertDataCreateList
  | .dict => bertDataCreateDict
  | .bin binaryData length => bertDataCreateBin binaryData length
  | .time timestamp => bertDataCreateTime timestamp
  | .regex source length options => bertDataCreateRegex source length options

/-- A step from a term to one inside, by `bert_tuple_get` or `bert_list_get`. -/
inductive Step : Type where
  | element (index : UInt32)
  | entry (index : UInt32)

/-- The functions that take terms over; `look` stands for those that only read. -/
inductive Taking : Type where
  | look
  | listAppend
  | dictAppend
  | tupleSet (index : UInt32)
  | listSet (index : UInt32)

/-- Whether the terms were taken over; a function is only called on its own type of
container. -/
def Taking.run : Taking → List (Owned F) → Owned F → Managed F (Bool × Owned F)
  | .look, [], d => do
      Managed.look d
      return (false, d)
  | .listAppend, [data], .list block header nodes => do
      let (result, list) ← bertListAppend (.list block header nodes) data
      return (result = bertSuccess, list)
  | .dictAppend, [key, value], .dict block header nodes => do
      let (result, dict) ← bertDictAppend (.dict block header nodes) (some key) (some value)
      return (result = bertSuccess, dict)
  | .tupleSet index, [data], container => do
      let (result, tuple) ← bertTupleSet container index data
      return (result = 1, tuple)
  | .listSet index, [data], container => do
      let (result, list) ← bertListSet container index data
      return (result = 1, list)
  | _, _, container => return (false, container)

/-- A call on the term at the end of a path. -/
def within (call : Owned F → Managed F (Bool × Owned F)) :
    List Step → Owned F → Managed F (Bool × Owned F)
  | [], d => call d
  | .element index :: path, .tuple data header elements slots => do
      match ← bertTupleGet (.tuple data header elements slots) index with
      | none => return (false, .tuple data header elements slots)
      | some d => do
          let (taken, d) ← within call path d
          return (taken, .tuple data header elements (slots.set index.toNat (some d)))
  | .entry index :: path, .list data header nodes => do
      match ← bertListGet (.list data header nodes) index with
      | none => return (false, .list data header nodes)
      | some d => do
          let (taken, d) ← within call path d
          return (taken, .list data header
            (nodes.modify index.toNat fun node ↦ (node.1, d)))
  | _, d => return (false, d)

/-- The terms a client holds are known by their position. -/
inductive Call (F : Type) : Type where
  | pull (depth : ℕ)
  | create (creation : Creation F)
  | destroy (root : ℕ)
  | give (given : List ℕ) (root : ℕ) (path : List Step) (taking : Taking)

/-- The terms at these positions, each counted among those left by the ones before,
and the terms that are left. -/
def takeOut : List ℕ → List (Owned F) → List (Owned F) × List (Owned F)
  | [], roots => ([], roots)
  | i :: is, roots =>
      let (given, rest) := takeOut is (roots.eraseIdx i)
      (roots[i]?.toList ++ given, rest)

def Call.run [Platform F] : Call F → List (Owned F) → Managed F (List (Owned F))
  | .pull depth, roots => do
      let (_, data) ← bertDecoderPull depth
      return roots ++ data.toList
  | .create creation, roots => do
      let data ← creation.run
      return roots ++ data.toList
  | .destroy root, roots => do
      destroyAll roots[root]?.toList
      return roots.eraseIdx root
  | .give given root path taking, roots => do
      let (given, rest) := takeOut given roots
      match rest[root]? with
      | none => return roots
      | some d => do
          let (taken, d) ← within (taking.run given) path d
          return (if taken then [] else given) ++ rest.set root d

/-- A history of calls. -/
def runCalls [Platform F] : List (Call F) → List (Owned F) → Managed F (List (Owned F))
  | [], roots => return roots
  | call :: calls, roots => do runCalls calls (← call.run roots)

/-! ## What creating does to the heap -/

variable {strict : Prop} {lost used : Multiset Block} {h : Heap}

theorem Creates.mono {shape shape' : Owned F → Prop} {create : Managed F (Option (Owned F))}
    (hcreate : Creates strict lost shape create) (hshape : ∀ d, shape d → shape' d) :
    Creates strict lost shape' create := fun used h ha ↦
  (hcreate used h ha).mono fun _ hr ↦ ⟨hr.1, fun d hd ↦ hshape d (hr.2 d hd)⟩

/-- The bytes are copied to a term that has room for them. -/
theorem creates_filled {create : Managed F (Option (Owned F))} {length : ℕ}
    (hcreate : Creates strict lost (Roomy length) create) (bytes : List UInt8) :
    Creates strict lost (fun _ ↦ True) (do
      match ← create with
      | none => return none
      | some newData => do
          writeText newData.text 0 length length
          return some (newData.setText bytes)) := by
  intro used h ha
  refine meets_bind (hcreate used h ha) fun answer h hanswer ↦ ?_
  cases answer with
  | none => exact creates_none (hanswer.1.of_eq (zero_add _)) _
  | some newData =>
      have hroomy := hanswer.2 newData rfl
      have hfits : Fits (newData.blocks + used) newData.text length := fun b hb ↦
        ⟨Multiset.mem_add.mpr (.inl (hroomy b hb).1), (hroomy b hb).2⟩
      refine meets_bind (meets_writeText hanswer.1 hfits (zero_add _).le) fun _ h ha ↦ ?_
      exact ⟨ha.of_eq (congrArg (· + used) (blocks_setText newData bytes).symm), fun _ _ ↦ trivial⟩

theorem creates_creation (creation : Creation F) :
    Creates strict lost (fun _ ↦ True) creation.run := by
  cases creation with
  | atom name =>
      exact creates_filled (creates_roomy (fun _ _ ↦ rfl) (fun _ _ ↦ rfl) fun _ ↦ Nat.le_succ _) _
  | string text =>
      exact creates_filled (creates_roomy (fun _ _ ↦ rfl) (fun _ _ ↦ rfl) fun _ ↦ Nat.le_succ _) _
  | bin binaryData length =>
      exact creates_filled (creates_roomy (fun _ _ ↦ rfl) (fun _ _ ↦ rfl) fun hlength ↦ by
        rw [emptyBinSize_of_lt hlength]
        exact Nat.le_succ _) _
  | tuple length => exact (creates_tuple _).mono fun _ _ ↦ trivial
  | list => exact (creates_with fun _ _ ↦ rfl).mono fun _ _ ↦ trivial
  | dict => exact (creates_with fun _ _ ↦ rfl).mono fun _ _ ↦ trivial
  | regex source length options => exact (creates_regex _ _ _).mono fun _ _ ↦ trivial
  | _ => exact (creates_data fun _ ↦ rfl).mono fun _ _ ↦ trivial

/-! ## What taking over does to the heap -/

/-- A call takes over the blocks it is given, or leaves them with the client. -/
def TakesOver (strict : Prop) (lost given : Multiset Block)
    (call : Owned F → Managed F (Bool × Owned F)) : Prop :=
  ∀ d used h, h.Accounts strict lost (given + (d.blocks + used)) →
    Meets (heapContract strict)
      (fun r ↦ r.2.Accounts strict lost ((if r.1.1 then 0 else given) + (r.1.2.blocks + used)))
      (call d h)

theorem blocksSlots_set {slots : List (Option (Owned F))} {i : ℕ} (hi : i < slots.length)
    (slot : Option (Owned F)) :
    blocksSlots (slots.set i slot) = blocksSlot slot + blocksSlots (slots.eraseIdx i) := by
  induction slots generalizing i with
  | nil => cases hi
  | cons first slots ih =>
      cases i with
      | zero => rfl
      | succ i =>
          rw [List.set_cons_succ, List.eraseIdx_cons_succ, blocksSlots, blocksSlots,
            ih (Nat.lt_of_succ_lt_succ hi)]
          abel

theorem blocksSlots_getElem {slots : List (Option (Owned F))} {i : ℕ} {slot : Option (Owned F)}
    (hslot : slots[i]? = some slot) :
    blocksSlots slots = blocksSlot slot + blocksSlots (slots.eraseIdx i) := by
  obtain ⟨hi, rfl⟩ := List.getElem?_eq_some_iff.mp hslot
  rw [← blocksSlots_set hi, List.set_getElem_self]

theorem blocksNodes_set {nodes : List (Block × Owned F)} {i : ℕ} (hi : i < nodes.length)
    (node : Block) (d : Owned F) :
    blocksNodes (nodes.set i (node, d)) = {node} + d.blocks + blocksNodes (nodes.eraseIdx i) := by
  induction nodes generalizing i with
  | nil => cases hi
  | cons first nodes ih =>
      cases i with
      | zero => rfl
      | succ i =>
          rw [List.set_cons_succ, List.eraseIdx_cons_succ, blocksNodes, blocksNodes,
            ih (Nat.lt_of_succ_lt_succ hi)]
          abel

theorem blocksNodes_getElem {nodes : List (Block × Owned F)} {i : ℕ} {node : Block} {d : Owned F}
    (hnode : nodes[i]? = some (node, d)) :
    blocksNodes nodes = {node} + d.blocks + blocksNodes (nodes.eraseIdx i) := by
  obtain ⟨hi, heq⟩ := List.getElem?_eq_some_iff.mp hnode
  rw [← blocksNodes_set hi, ← heq, List.set_getElem_self]

theorem meets_touchNodes {nodes : List (Block × Owned F)} (ha : h.Accounts strict lost used)
    (hnodes : blocksNodes nodes ≤ used) (index : UInt32) :
    Meets (heapContract strict) (fun r ↦ r.2.Accounts strict lost used)
      ((touchNodes nodes index : Managed F _) h) := by
  refine meets_touchAll ha fun b hb ↦ Multiset.mem_of_le hnodes ?_
  obtain ⟨node, hnode, rfl⟩ := List.mem_map.mp hb
  exact mem_blocksNodes (List.mem_of_mem_take hnode)

theorem meets_tupleSet {tuple data : Owned F} {index : UInt32}
    (ha : h.Accounts strict lost (data.blocks + (tuple.blocks + used))) :
    Meets (heapContract strict)
      (fun r : (Code × Owned F) × Heap ↦
        r.1.1 = 1 ∧ r.2.Accounts strict lost (r.1.2.blocks + used) ∨
        r.1 = (0, tuple) ∧ r.2.Accounts strict lost (data.blocks + (tuple.blocks + used)))
      (bertTupleSet tuple index data h) := by
  have htuple : tuple.blocks ≤ data.blocks + (tuple.blocks + used) :=
    (Multiset.le_add_right _ used).trans (Multiset.le_add_left _ _)
  refine meets_bind (meets_look ha htuple) fun _ h ha ↦ ?_
  cases tuple with
  | tuple block header elements slots =>
      dsimp only
      cases hslot : slots[index.toNat]? with
      | none => exact .inr ⟨rfl, ha⟩
      | some slot =>
          have hi := (List.getElem?_eq_some_iff.mp hslot).1
          have hold : Heap.Accounts strict lost (blocksSlot slot +
              ((Owned.tuple block header elements (slots.set index.toNat (some data))).blocks +
                used)) h := ha.of_eq (by
            rw [blocks, blocks, blocksSlots_getElem hslot, blocksSlots_set hi, blocksSlot]
            abel)
          exact meets_bind (meets_destroySlot slot hold) fun _ _ ha ↦ .inl ⟨rfl, ha⟩
  | _ => exact .inr ⟨rfl, ha⟩

theorem meets_listSet {list data : Owned F} {index : UInt32}
    (ha : h.Accounts strict lost (data.blocks + (list.blocks + used))) :
    Meets (heapContract strict)
      (fun r : (Code × Owned F) × Heap ↦
        r.1.1 = 1 ∧ r.2.Accounts strict lost (r.1.2.blocks + used) ∨
        r.1 = (0, list) ∧ r.2.Accounts strict lost (data.blocks + (list.blocks + used)))
      (bertListSet list index data h) := by
  have hlist : list.blocks ≤ data.blocks + (list.blocks + used) :=
    (Multiset.le_add_right _ used).trans (Multiset.le_add_left _ _)
  refine meets_bind (meets_look ha hlist) fun _ h ha ↦ ?_
  cases list with
  | list block header nodes =>
      refine meets_bind (meets_touchNodes ha ((Multiset.le_add_left _ _).trans hlist) index)
        fun _ h ha ↦ ?_
      cases hnode : nodes[index.toNat]? with
      | none => exact .inr ⟨rfl, ha⟩
      | some entry =>
          obtain ⟨node, entry⟩ := entry
          have hi := (List.getElem?_eq_some_iff.mp hnode).1
          have hold : Heap.Accounts strict lost (entry.blocks +
              ((Owned.list block header (nodes.set index.toNat (node, data))).blocks + used)) h :=
            ha.of_eq (by
              rw [blocks, blocks, blocksNodes_getElem hnode, blocksNodes_set hi]
              abel)
          refine meets_bind (meets_destroy entry hold) fun _ h ha ↦ ?_
          refine meets_bind (ha.meets_touch ?_) fun _ _ ha ↦ .inl ⟨rfl, ha⟩
          simp [blocks, blocksNodes_set hi]
  | _ => exact .inr ⟨rfl, ha⟩

/-- Nothing is taken over. -/
theorem leaves {given : Multiset Block} {d : Owned F}
    (ha : h.Accounts strict lost (given + (d.blocks + used))) :
    Meets (heapContract strict)
      (fun r ↦ r.2.Accounts strict lost ((if r.1.1 then 0 else given) + (r.1.2.blocks + used)))
      ((pure (false, d) : Managed F _) h) := ha

theorem takesOver_run (taking : Taking) (given : List (Owned F)) :
    TakesOver strict lost (blocksAll given) (taking.run given) := by
  intro d used h ha
  match taking, given with
  | .look, _ :: _ => exact leaves ha
  | .look, [] =>
      have hd : d.blocks ≤ blocksAll ([] : List (Owned F)) + (d.blocks + used) :=
        (Multiset.le_add_right _ used).trans (Multiset.le_add_left _ _)
      exact meets_bind (meets_look ha hd) fun _ _ ha ↦ leaves ha
  | .listAppend, [] | .listAppend, _ :: _ :: _ => exact leaves ha
  | .listAppend, [data] =>
      cases d with
      | list block header nodes =>
          rw [blocksAll_singleton] at ha
          refine meets_bind (meets_listAppend ha) ?_
          rintro ⟨result, list⟩ h (⟨node, heq, ha⟩ | ⟨heq, ha⟩) <;> obtain ⟨rfl, rfl⟩ := heq
          · exact ha.of_eq (zero_add _).symm
          · exact ha.of_eq (by rw [blocksAll_singleton]; rfl)
      | _ => exact leaves ha
  | .dictAppend, [] | .dictAppend, [_] | .dictAppend, _ :: _ :: _ :: _ => exact leaves ha
  | .dictAppend, [key, value] =>
      cases d with
      | dict block header nodes =>
          have hpair : Heap.Accounts strict lost (blocksSlot (some value) + (blocksSlot (some key) +
              ((Owned.dict block header nodes).blocks + used))) h := ha.of_eq (by
            rw [blocksAll_cons, blocksAll_singleton, blocksSlot, blocksSlot]
            abel)
          refine meets_bind (meets_dictAppend hpair) ?_
          rintro ⟨result, dict⟩ h (⟨node, heq, ha⟩ | ⟨heq, ha⟩) <;> obtain ⟨rfl, rfl⟩ := heq
          · exact ha.of_eq (zero_add _).symm
          · change Heap.Accounts strict lost (blocksAll [key, value] + _) h
            refine ha.of_eq ?_
            rw [blocksAll_cons, blocksAll_singleton, blocksSlot, blocksSlot]
            abel
      | _ => exact leaves ha
  | .tupleSet index, [] | .tupleSet index, _ :: _ :: _ => exact leaves ha
  | .tupleSet index, [data] =>
      rw [blocksAll_singleton] at ha
      refine meets_bind (meets_tupleSet ha) ?_
      rintro ⟨result, tuple⟩ h (⟨rfl, ha⟩ | ⟨heq, ha⟩)
      · exact ha.of_eq (zero_add _).symm
      · obtain ⟨rfl, rfl⟩ := heq
        exact ha.of_eq (by rw [blocksAll_singleton]; rfl)
  | .listSet index, [] | .listSet index, _ :: _ :: _ => exact leaves ha
  | .listSet index, [data] =>
      rw [blocksAll_singleton] at ha
      refine meets_bind (meets_listSet ha) ?_
      rintro ⟨result, list⟩ h (⟨rfl, ha⟩ | ⟨heq, ha⟩)
      · exact ha.of_eq (zero_add _).symm
      · obtain ⟨rfl, rfl⟩ := heq
        exact ha.of_eq (by rw [blocksAll_singleton]; rfl)

theorem modify_eq_set {nodes : List (Block × Owned F)} {i : ℕ} {node : Block} {d d' : Owned F}
    (hnode : nodes[i]? = some (node, d)) :
    nodes.modify i (fun entry ↦ (entry.1, d')) = nodes.set i (node, d') := by
  rw [List.modify_eq_set_getElem?, hnode]
  rfl

/-- A call on a term inside changes the blocks of that term alone. -/
theorem TakesOver.within {given : Multiset Block} {call : Owned F → Managed F (Bool × Owned F)}
    (hcall : TakesOver strict lost given call) (path : List Step) :
    TakesOver strict lost given (within call path) := by
  induction path with
  | nil => exact hcall
  | cons step path ih =>
      intro d used h ha
      have hd : d.blocks ≤ given + (d.blocks + used) :=
        (Multiset.le_add_right _ used).trans (Multiset.le_add_left _ _)
      cases step with
      | element index =>
          cases d with
          | tuple data header elements slots =>
              refine meets_bind (P := fun r ↦ r.1 = slots[index.toNat]?.join ∧
                  r.2.Accounts strict lost
                    (given + ((Owned.tuple data header elements slots).blocks + used)))
                (meets_bind (meets_look ha hd) fun _ h ha ↦ ⟨rfl, ha⟩) ?_
              rintro answer h ⟨hanswer, ha⟩
              cases answer with
              | none => exact leaves ha
              | some d =>
                  have hslot := Option.join_eq_some_iff.mp hanswer.symm
                  have hi := (List.getElem?_eq_some_iff.mp hslot).1
                  have hinner : Heap.Accounts strict lost (given + (d.blocks +
                      ({data} + {header} + {elements} + blocksSlots (slots.eraseIdx index.toNat) +
                        used))) h := ha.of_eq (by
                    rw [blocks, blocksSlots_getElem hslot, blocksSlot]
                    abel)
                  refine meets_bind (ih d _ h hinner) fun r h ha ↦ ha.of_eq ?_
                  change _ = (if r.1 then 0 else given) + ((Owned.tuple data header elements
                    (slots.set index.toNat (some r.2))).blocks + used)
                  rw [blocks, blocksSlots_set hi, blocksSlot]
                  abel
          | _ => exact leaves ha
      | entry index =>
          cases d with
          | list data header nodes =>
              have hnodes : blocksNodes nodes ≤
                  given + ((Owned.list data header nodes).blocks + used) :=
                (Multiset.le_add_left _ _).trans hd
              refine meets_bind (P := fun r ↦ r.1 = nodes[index.toNat]?.map Prod.snd ∧
                  r.2.Accounts strict lost
                    (given + ((Owned.list data header nodes).blocks + used)))
                (meets_bind (meets_look ha hd) fun _ h ha ↦
                  meets_bind (meets_touchNodes ha hnodes index) fun _ h ha ↦ ⟨rfl, ha⟩) ?_
              rintro answer h ⟨hanswer, ha⟩
              cases answer with
              | none => exact leaves ha
              | some d =>
                  obtain ⟨⟨node, entry⟩, hnode, rfl⟩ := Option.map_eq_some_iff.mp hanswer.symm
                  have hi := (List.getElem?_eq_some_iff.mp hnode).1
                  have hinner : Heap.Accounts strict lost (given + (entry.blocks +
                      ({data} + {header} + ({node} + blocksNodes (nodes.eraseIdx index.toNat)) +
                        used))) h := ha.of_eq (by
                    rw [blocks, blocksNodes_getElem hnode]
                    abel)
                  refine meets_bind (ih entry _ h hinner) fun r h ha ↦ ha.of_eq ?_
                  change _ = (if r.1 then 0 else given) + ((Owned.list data header
                    (nodes.modify index.toNat fun entry ↦ (entry.1, r.2))).blocks + used)
                  rw [modify_eq_set hnode, blocks, blocksNodes_set hi]
                  abel
          | _ => exact leaves ha

theorem blocksAll_append (xs ys : List (Owned F)) :
    blocksAll (xs ++ ys) = blocksAll xs + blocksAll ys := by
  rw [blocksAll, List.map_append, List.sum_append]
  rfl

theorem blocksAll_toList (d : Option (Owned F)) : blocksAll d.toList = blocksSlot d := by
  cases d with
  | none => rfl
  | some d => exact blocksAll_singleton d

/-- A term is one of its list and the rest. -/
theorem blocksAll_eraseIdx (roots : List (Owned F)) (i : ℕ) :
    blocksAll roots = blocksAll roots[i]?.toList + blocksAll (roots.eraseIdx i) := by
  induction roots generalizing i with
  | nil => rfl
  | cons d roots ih =>
      cases i with
      | zero =>
          rw [List.eraseIdx_cons_zero, List.getElem?_cons_zero, blocksAll_toList]
          rfl
      | succ i =>
          rw [List.eraseIdx_cons_succ, List.getElem?_cons_succ, blocksAll_cons, blocksAll_cons,
            ih i]
          abel

theorem blocksAll_takeOut (is : List ℕ) (roots : List (Owned F)) :
    blocksAll roots = blocksAll (takeOut is roots).1 + blocksAll (takeOut is roots).2 := by
  induction is generalizing roots with
  | nil => exact (zero_add _).symm
  | cons i is ih =>
      rw [takeOut, blocksAll_append, blocksAll_eraseIdx roots i, ih (roots.eraseIdx i), add_assoc]

theorem blocksAll_set {roots : List (Owned F)} {i : ℕ} (hi : i < roots.length) (d : Owned F) :
    blocksAll (roots.set i d) = d.blocks + blocksAll (roots.eraseIdx i) := by
  rw [blocksAll_eraseIdx (roots.set i d) i, List.getElem?_set_self hi, List.eraseIdx_set_eq,
    blocksAll_toList]
  rfl

/-! ## What a history does to the heap -/

variable [Platform F]

/-- A call keeps the accounts of the terms the client holds. -/
theorem meets_call (call : Call F) {roots : List (Owned F)}
    (ha : h.Accounts strict lost (blocksAll roots)) :
    Meets (heapContract strict) (fun r ↦ r.2.Accounts strict lost (blocksAll r.1))
      (call.run roots h) := by
  cases call with
  | pull depth =>
      refine meets_bind (keeps_pull strict lost depth _ h ha) fun r h hr ↦ ?_
      exact hr.1.of_eq (by rw [blocksAll_append, blocksAll_toList, add_comm])
  | create creation =>
      refine meets_bind (creates_creation creation _ h ha) fun r h hr ↦ ?_
      exact hr.1.of_eq (by rw [blocksAll_append, blocksAll_toList, add_comm])
  | destroy root =>
      refine meets_bind (meets_destroyAll _ (ha.of_eq (blocksAll_eraseIdx roots root)))
        fun _ _ ha ↦ ha
  | give given root path taking =>
      rw [Call.run]
      have hout := blocksAll_takeOut given roots
      generalize takeOut given roots = out at hout ⊢
      obtain ⟨terms, rest⟩ := out
      cases hroot : rest[root]? with
      | none =>
          simp only [hroot]
          exact meets_pure ha
      | some d =>
          have hi := (List.getElem?_eq_some_iff.mp hroot).1
          have hrest := blocksAll_eraseIdx rest root
          rw [hroot, blocksAll_toList] at hrest
          have hinner := ha.of_eq (hout.trans (congrArg (blocksAll terms + ·) hrest))
          simp only [hroot]
          refine meets_bind ((takesOver_run taking _).within path d _ h hinner) ?_
          rintro ⟨taken, d'⟩ h ha
          refine ha.of_eq ?_
          cases taken <;> rw [blocksAll_append, blocksAll_set hi] <;> rfl

/-- So does every history of calls. -/
theorem meets_runCalls (calls : List (Call F)) {roots : List (Owned F)}
    (ha : h.Accounts strict lost (blocksAll roots)) :
    Meets (heapContract strict) (fun r ↦ r.2.Accounts strict lost (blocksAll r.1))
      (runCalls calls roots h) := by
  induction calls generalizing roots h with
  | nil => exact ha
  | cons call calls ih => exact meets_bind (meets_call call ha) fun _ _ ha ↦ ih ha

variable {R : BertReader σ} {s t : σ} {h' : Heap} {roots roots' : List (Owned F)}

/-- In no history is memory misused, whatever is read and whichever allocations fail,
before a pull makes a list take up a term twice. -/
theorem client_memory_safe (calls : List (Call F)) (hu : h.Uses (blocksAll roots))
    {front back : List (HeapEvent (Event F))} {event : HeapEvent (Event F)}
    (htrace : trace R (runCalls calls roots h) s = front ++ event :: back)
    (hfresh : .mark .stale ∉ front) : event.Legal (2 ^ 32 - 1) :=
  (legal_or_stale (meets_runCalls calls (accounts_of_uses False hu)) htrace).resolve_right hfresh

/-- Behind a history without such a pull, what is allocated is what the terms the client
holds are made of and what was abandoned. -/
theorem client_memory_accounted (calls : List (Call F)) (hu : h.Uses (blocksAll roots))
    (hfresh : .mark .stale ∉ trace R (runCalls calls roots h) s)
    (hrun : run R (runCalls calls roots h) s = .done (roots', h') t) :
    h'.Uses (blocksAll roots') :=
  ((meets_runCalls calls (accounts_of_uses False hu)).of_run
    (fun _ he hends ↦ hfresh (eq_stale_of_ends hends ▸ he)) hrun).uses

/-- A client that puts what it pulled into a list and destroys the list. -/
def smallHistory : List (Call Empty) :=
  [.pull 8, .create .list, .give [0] 0 [] .listAppend, .destroy 0]

/-- The decoder of the bytes `97 5`, a small integer. -/
def smallIntDecoder : Decoder (List UInt8) :=
  freshDecoder false PlainSource.ofList.toSource [bertSmallInt, 5]

theorem trace_smallHistory :
    trace windowReader (runCalls smallHistory [] (Heap.empty fun _ ↦ true)) smallIntDecoder =
      [.mark .enter, .mark (.leave 1 (some (.int 5)))] := rfl

theorem client_memory_safe_small :
    (.mark (.leave 1 (some (.int 5))) : HeapEvent (Event Empty)).Legal (2 ^ 32 - 1) := by
  have htrace : trace windowReader (runCalls smallHistory [] (Heap.empty fun _ ↦ true))
      smallIntDecoder = [.mark .enter] ++ .mark (.leave 1 (some (.int 5))) :: [] :=
    trace_smallHistory
  exact client_memory_safe smallHistory (Heap.uses_empty _) htrace (by simp)

theorem client_memory_accounted_small :
    ∃ h' t, run windowReader (runCalls smallHistory [] (Heap.empty fun _ ↦ true))
        smallIntDecoder = .done ([], h') t ∧ h'.Uses (blocksAll ([] : List (Owned Empty))) := by
  have hfresh : .mark .stale ∉ trace windowReader
      (runCalls smallHistory [] (Heap.empty fun _ ↦ true)) smallIntDecoder := by
    rw [trace_smallHistory]
    simp
  have hrun : ∃ h' t, run windowReader (runCalls smallHistory [] (Heap.empty fun _ ↦ true))
      smallIntDecoder = .done ([], h') t := ⟨_, _, rfl⟩
  obtain ⟨h', t, hrun⟩ := hrun
  exact ⟨h', t, hrun, client_memory_accounted smallHistory (Heap.uses_empty _) hfresh hrun⟩

end LibBert.Managed
