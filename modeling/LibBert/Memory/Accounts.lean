import LibBert.Memory.Decode

/-!
# Accounts of the decoder's memory

What every function does to the heap, whatever the reader answers and whichever
allocations fail: a term that is destroyed gives back its blocks, and a decode
function leaves allocated, beside what was in use before, the blocks of the term it
stores.
-/

namespace LibBert

open Reading

variable {F α : Type} {strict : Prop} {lost used : Multiset Block} {h : Heap}

def Event.IsStale : Event F → Prop
  | .stale => True
  | _ => False

/-- Nothing is promised once a list holds a term twice. -/
abbrev heapContract (strict : Prop) : Contract (HeapEvent (Event F)) :=
  accounting Event.IsStale (2 ^ 32 - 1) strict

namespace Managed

open Storing
open Owned (blocks blocksSlot blocksSlots blocksNodes blocksPairs)

/-! ## Destroying -/

theorem meets_destroyPlain {data : Block} (ha : h.Accounts strict lost ({data} + used)) :
    Meets (heapContract strict) (fun r ↦ r.2.Accounts strict lost used)
      ((destroyPlain data : Managed F _) h) :=
  meets_bind (ha.meets_touch (by simp)) fun _ _ ha ↦ ha.meets_free

theorem meets_destroyText {data text : Block}
    (ha : h.Accounts strict lost ({data} + {text} + used)) :
    Meets (heapContract strict) (fun r ↦ r.2.Accounts strict lost used)
      ((destroyText data text : Managed F _) h) := by
  refine meets_bind (ha.meets_touch (by simp)) fun _ _ ha ↦ ?_
  have htext : Heap.Accounts strict lost ({text} + ({data} + used)) _ := ha.of_eq (by abel)
  exact meets_bind htext.meets_free fun _ _ ha ↦ ha.meets_free

mutual

theorem meets_destroy : ∀ (d : Owned F) {used : Multiset Block} {h : Heap},
    h.Accounts strict lost (d.blocks + used) →
      Meets (heapContract strict) (fun r ↦ r.2.Accounts strict lost used) (bertDataDestroy d h)
  | .atom _ _ _, _, _, ha => meets_destroyText ha
  | .string _ _ _, _, _, ha => meets_destroyText ha
  | .bin _ _ _, _, _, ha => meets_destroyText ha
  | .tuple data header elements slots, used, h, ha => by
      rw [bertDataDestroy]
      refine meets_bind (ha.meets_touch (by simp [blocks])) fun _ _ ha ↦ ?_
      refine meets_bind (ha.meets_touch (by simp [blocks])) fun _ _ ha ↦ ?_
      refine meets_bind (ha.meets_touch (by simp [blocks])) fun _ _ ha ↦ ?_
      have hslots : Heap.Accounts strict lost
          (blocksSlots slots + ({elements} + ({header} + ({data} + used)))) _ :=
        ha.of_eq (by rw [blocks]; abel)
      refine meets_bind (meets_destroySlots slots hslots) fun _ _ ha ↦ ?_
      exact meets_bind ha.meets_free fun _ _ ha ↦
        meets_bind ha.meets_free fun _ _ ha ↦ ha.meets_free
  | .list data header nodes, used, h, ha => by
      rw [bertDataDestroy]
      refine meets_bind (ha.meets_touch (by simp [blocks])) fun _ _ ha ↦ ?_
      refine meets_bind (ha.meets_touch (by simp [blocks])) fun _ _ ha ↦ ?_
      have hnodes : Heap.Accounts strict lost
          (blocksNodes nodes + ({header} + ({data} + used))) _ :=
        ha.of_eq (by rw [blocks]; abel)
      refine meets_bind (meets_destroyNodes nodes hnodes) fun _ _ ha ↦ ?_
      exact meets_bind ha.meets_free fun _ _ ha ↦ ha.meets_free
  | .dict data header nodes, used, h, ha => by
      rw [bertDataDestroy]
      refine meets_bind (ha.meets_touch (by simp [blocks])) fun _ _ ha ↦ ?_
      refine meets_bind (ha.meets_touch (by simp [blocks])) fun _ _ ha ↦ ?_
      have hnodes : Heap.Accounts strict lost
          (blocksPairs nodes + ({header} + ({data} + used))) _ :=
        ha.of_eq (by rw [blocks]; abel)
      refine meets_bind (meets_destroyPairs nodes hnodes) fun _ _ ha ↦ ?_
      exact meets_bind ha.meets_free fun _ _ ha ↦ ha.meets_free
  | .regex data text _ _, used, h, ha => by
      rw [bertDataDestroy]
      refine meets_bind (ha.meets_touch (by simp [blocks])) fun _ _ ha ↦ ?_
      have hdata : Heap.Accounts strict lost ({data} + ({text} + used)) _ :=
        ha.of_eq (by rw [blocks, add_assoc])
      exact meets_bind hdata.meets_free fun _ _ ha ↦ ha.meets_abandon
  | .none _, _, _, ha => meets_destroyPlain ha
  | .boolean _ _, _, _, ha => meets_destroyPlain ha
  | .int _ _, _, _, ha => meets_destroyPlain ha
  | .float _ _, _, _, ha => meets_destroyPlain ha
  | .time _ _, _, _, ha => meets_destroyPlain ha
  | .nil _, _, _, ha => meets_destroyPlain ha

theorem meets_destroySlot : ∀ (slot : Option (Owned F)) {used : Multiset Block} {h : Heap},
    h.Accounts strict lost (blocksSlot slot + used) →
      Meets (heapContract strict) (fun r ↦ r.2.Accounts strict lost used) (destroySlot slot h)
  | none, _, _, ha => meets_pure (ha.of_eq (zero_add _))
  | some d, _, _, ha => meets_destroy d ha

theorem meets_destroySlots : ∀ (slots : List (Option (Owned F))) {used : Multiset Block} {h : Heap},
    h.Accounts strict lost (blocksSlots slots + used) →
      Meets (heapContract strict) (fun r ↦ r.2.Accounts strict lost used) (destroySlots slots h)
  | [], _, _, ha => meets_pure (ha.of_eq (zero_add _))
  | slot :: slots, _, _, ha =>
      meets_bind (meets_destroySlot slot (ha.of_eq (add_assoc _ _ _))) fun _ _ ha ↦
        meets_destroySlots slots ha

theorem meets_destroyNodes : ∀ (nodes : List (Block × Owned F)) {used : Multiset Block} {h : Heap},
    h.Accounts strict lost (blocksNodes nodes + used) →
      Meets (heapContract strict) (fun r ↦ r.2.Accounts strict lost used) (destroyNodes nodes h)
  | [], _, _, ha => meets_pure (ha.of_eq (zero_add _))
  | (node, d) :: nodes, used, h, ha => by
      rw [destroyNodes]
      refine meets_bind (ha.meets_touch (by simp [blocksNodes])) fun _ _ ha ↦ ?_
      have hd : Heap.Accounts strict lost (d.blocks + ({node} + (blocksNodes nodes + used))) _ :=
        ha.of_eq (by rw [blocksNodes]; abel)
      refine meets_bind (meets_destroy d hd) fun _ _ ha ↦ ?_
      exact meets_bind ha.meets_free fun _ _ ha ↦ meets_destroyNodes nodes ha

theorem meets_destroyPairs : ∀ (nodes : List (Block × Option (Owned F) × Option (Owned F)))
    {used : Multiset Block} {h : Heap},
    h.Accounts strict lost (blocksPairs nodes + used) →
      Meets (heapContract strict) (fun r ↦ r.2.Accounts strict lost used) (destroyPairs nodes h)
  | [], _, _, ha => meets_pure (ha.of_eq (zero_add _))
  | (node, key, value) :: nodes, used, h, ha => by
      rw [destroyPairs]
      refine meets_bind (ha.meets_touch (by simp [blocksPairs])) fun _ _ ha ↦ ?_
      have hkey : Heap.Accounts strict lost
          (blocksSlot key + (blocksSlot value + ({node} + (blocksPairs nodes + used)))) _ :=
        ha.of_eq (by rw [blocksPairs]; abel)
      refine meets_bind (meets_destroySlot key hkey) fun _ _ ha ↦ ?_
      refine meets_bind (meets_destroySlot value ha) fun _ _ ha ↦ ?_
      exact meets_bind ha.meets_free fun _ _ ha ↦ meets_destroyPairs nodes ha

end

theorem meets_destroyAll (ds : List (Owned F))
    (ha : h.Accounts strict lost ((ds.map blocks).sum + used)) :
    Meets (heapContract strict) (fun r ↦ r.2.Accounts strict lost used) (destroyAll ds h) := by
  induction ds generalizing h with
  | nil => exact meets_pure (ha.of_eq (zero_add _))
  | cons d ds ih =>
      rw [List.map_cons, List.sum_cons, add_assoc] at ha
      exact meets_bind (meets_destroy d ha) fun _ _ ha ↦ ih ha

/-! ## Creating -/

/-- What is created takes its blocks from the heap. -/
def Creates (strict : Prop) (lost : Multiset Block) (shape : Owned F → Prop)
    (create : Managed F (Option (Owned F))) : Prop :=
  ∀ used h, h.Accounts strict lost used →
    Meets (heapContract strict)
      (fun r ↦ r.2.Accounts strict lost (blocksSlot r.1 + used) ∧ ∀ d, r.1 = some d → shape d)
      (create h)

theorem creates_none (ha : h.Accounts strict lost used) (shape : Owned F → Prop) :
    h.Accounts strict lost (blocksSlot (none : Option (Owned F)) + used) ∧
      ∀ d, (none : Option (Owned F)) = some d → shape d :=
  ⟨ha.of_eq (zero_add _).symm, fun _ hd ↦ by cases hd⟩

/-- A term takes over the blocks its fields point to. -/
theorem meets_dataCreate {fields : Block → Owned F} {extra : Multiset Block}
    (hfields : ∀ data, (fields data).blocks = {data} + extra)
    (ha : h.Accounts strict lost (extra + used)) :
    Meets (heapContract strict)
      (fun r : Option (Owned F) × Heap ↦ (∃ data, r.1 = some (fields data) ∧
          r.2.Accounts strict lost ((fields data).blocks + used)) ∨
        r.1 = none ∧ r.2.Accounts strict lost (extra + used))
      (bertDataCreate fields h) := by
  refine meets_bind (ha.meets_malloc _) fun answer h hanswer ↦ ?_
  rcases hanswer with ⟨data, rfl, -, ha⟩ | ⟨rfl, ha⟩
  · exact .inl ⟨data, rfl, ha.of_eq (by rw [hfields, add_assoc])⟩
  · exact .inr ⟨rfl, ha⟩

theorem creates_data {fields : Block → Owned F} (hfields : ∀ data, (fields data).blocks = {data}) :
    Creates strict lost (fun d ↦ ∃ data, d = fields data) (bertDataCreate fields) := by
  intro used h ha
  refine (meets_dataCreate (fun data ↦ (hfields data).trans (add_zero _).symm)
    (ha.of_eq (zero_add _).symm)).mono ?_
  rintro ⟨answer, h⟩ (⟨data, rfl, ha⟩ | ⟨rfl, ha⟩)
  · refine ⟨ha, ?_⟩
    rintro d ⟨⟩
    exact ⟨data, rfl⟩
  · exact creates_none (ha.of_eq (zero_add _)) _

theorem creates_with {size : ℕ} {fields : Block → Block → Owned F}
    (hfields : ∀ data block, (fields data block).blocks = {data} + {block}) :
    Creates strict lost (fun d ↦ ∃ data block, block.size = size ∧ d = fields data block)
      (createWith size fields) := by
  intro used h ha
  refine meets_bind (ha.meets_malloc _) fun answer h hanswer ↦ ?_
  rcases hanswer with ⟨block, rfl, hsize, ha⟩ | ⟨rfl, ha⟩
  · refine meets_bind (meets_dataCreate (hfields · block) ha) fun answer h hanswer ↦ ?_
    rcases hanswer with ⟨data, rfl, ha⟩ | ⟨rfl, ha⟩
    · refine ⟨ha, ?_⟩
      rintro d ⟨⟩
      exact ⟨data, block, hsize, rfl⟩
    · exact meets_bind ha.meets_free fun _ _ ha ↦ creates_none ha _
  · exact creates_none ha _

theorem blocksSlots_replicate (n : ℕ) :
    blocksSlots (List.replicate n (none : Option (Owned F))) = 0 := by
  induction n with
  | zero => rfl
  | succ n ih => rw [List.replicate_succ, blocksSlots, ih, blocksSlot, add_zero]

theorem creates_tuple (length : ℕ) :
    Creates strict lost
      (fun d : Owned F ↦ ∃ data header elements,
        d = .tuple data header elements (List.replicate length none))
      (bertDataCreateTuple length) := by
  intro used h ha
  -- the two blocks of the tuple, if there are such
  have htuple : Meets (heapContract (F := F) strict)
      (fun r : Option (Block × Block) × Heap ↦ (∃ header elements, r.1 = some (header, elements) ∧
          r.2.Accounts strict lost ({header} + {elements} + used)) ∨
        r.1 = none ∧ r.2.Accounts strict lost used)
      (bertTupleCreate length h) := by
    refine meets_bind (ha.meets_malloc _) fun answer h hanswer ↦ ?_
    rcases hanswer with ⟨elements, rfl, -, ha⟩ | ⟨rfl, ha⟩
    · refine meets_bind (ha.meets_malloc _) fun answer h hanswer ↦ ?_
      rcases hanswer with ⟨header, rfl, -, ha⟩ | ⟨rfl, ha⟩
      · exact .inl ⟨header, elements, rfl, ha.of_eq (add_assoc _ _ _).symm⟩
      · exact meets_bind ha.meets_free fun _ _ ha ↦ .inr ⟨rfl, ha⟩
    · exact .inr ⟨rfl, ha⟩
  refine meets_bind htuple fun answer h hanswer ↦ ?_
  rcases hanswer with ⟨header, elements, rfl, ha⟩ | ⟨rfl, ha⟩
  · have hfields (data : Block) :
        (Owned.tuple data header elements
          (List.replicate length (none : Option (Owned F)))).blocks =
            {data} + ({header} + {elements}) := by
      rw [blocks, blocksSlots_replicate, add_zero, add_assoc]
    refine meets_bind (meets_dataCreate hfields ha) fun answer h hanswer ↦ ?_
    rcases hanswer with ⟨data, rfl, ha⟩ | ⟨rfl, ha⟩
    · refine ⟨ha, ?_⟩
      rintro d ⟨⟩
      exact ⟨data, header, elements, rfl⟩
    · have helements : Heap.Accounts strict lost ({elements} + ({header} + used)) _ :=
        ha.of_eq (by abel)
      exact meets_bind helements.meets_free fun _ _ ha ↦
        meets_bind ha.meets_free fun _ _ ha ↦ creates_none ha _
  · exact creates_none ha _

theorem creates_regex (source : List UInt8) (length options : UInt32) :
    Creates strict lost (fun d : Owned F ↦ ∃ data text, d = .regex data text source options)
      (bertDataCreateRegex source length options) := by
  intro used h ha
  refine meets_bind (ha.meets_malloc _) fun answer h hanswer ↦ ?_
  rcases hanswer with ⟨text, rfl, hsize, ha⟩ | ⟨rfl, ha⟩
  · have hfits (hlength : length.toNat < 2 ^ 32 - 1) : length.toNat + 1 ≤ text.size := by
      exact (hsize.trans (emptyBinSize_of_lt hlength)).ge
    refine meets_bind (ha.meets_write (by simp) fun hlength ↦ ?_) fun _ _ ha ↦ ?_
    · rw [zero_add]
      exact Nat.le_of_succ_le (hfits hlength)
    refine meets_bind (ha.meets_write (by simp) hfits) fun _ _ ha ↦ ?_
    refine meets_bind (meets_dataCreate (fun _ ↦ rfl) ha) fun answer h hanswer ↦ ?_
    rcases hanswer with ⟨data, rfl, ha⟩ | ⟨rfl, ha⟩
    · refine ⟨ha, ?_⟩
      rintro d ⟨⟩
      exact ⟨data, text, rfl⟩
    · exact meets_bind ha.meets_free fun _ _ ha ↦ creates_none ha _
  · exact creates_none ha _

end Managed

end LibBert
