import LibBert.Memory.Safety

/-!
# What destroying a term leaves allocated

`bert_data_destroy` frees every block of a term but the source of each regular
expression below it.
-/

namespace LibBert

open Reading

variable {F : Type}

mutual

/-- The number of regular expressions in a term. -/
def regexes : Data F → ℕ
  | .regex _ _ => 1
  | .tuple elements => regexesSlots elements
  | .list entries => regexesList entries
  | .dict entries => regexesPairs entries
  | _ => 0

def regexesSlot : Option (Data F) → ℕ
  | none => 0
  | some d => regexes d

def regexesSlots : List (Option (Data F)) → ℕ
  | [] => 0
  | slot :: slots => regexesSlot slot + regexesSlots slots

def regexesList : List (Data F) → ℕ
  | [] => 0
  | d :: entries => regexes d + regexesList entries

def regexesPairs : List (Option (Data F) × Option (Data F)) → ℕ
  | [] => 0
  | (key, value) :: entries => regexesSlot key + (regexesSlot value + regexesPairs entries)

end

namespace Owned

mutual

/-- The sources of the regular expressions below a term. -/
def sources : Owned F → Multiset Block
  | .regex _ text _ _ => {text}
  | .tuple _ _ _ slots => sourcesSlots slots
  | .list _ _ nodes => sourcesNodes nodes
  | .dict _ _ nodes => sourcesPairs nodes
  | _ => 0

def sourcesSlot : Option (Owned F) → Multiset Block
  | Option.none => 0
  | some d => sources d

def sourcesSlots : List (Option (Owned F)) → Multiset Block
  | [] => 0
  | slot :: slots => sourcesSlot slot + sourcesSlots slots

def sourcesNodes : List (Block × Owned F) → Multiset Block
  | [] => 0
  | (_, d) :: nodes => sources d + sourcesNodes nodes

def sourcesPairs : List (Block × Option (Owned F) × Option (Owned F)) → Multiset Block
  | [] => 0
  | (_, key, value) :: nodes => sourcesSlot key + (sourcesSlot value + sourcesPairs nodes)

end

/-! ## Counting them -/

mutual

theorem card_sources : ∀ d : Owned F, (sources d).card = regexes d.erase
  | .regex _ _ _ _ => rfl
  | .tuple _ _ _ slots => card_sourcesSlots slots
  | .list _ _ nodes => card_sourcesNodes nodes
  | .dict _ _ nodes => card_sourcesPairs nodes
  | .none _ | .boolean _ _ | .int _ _ | .float _ _ | .atom _ _ _ | .string _ _ _ | .bin _ _ _ |
    .time _ _ | .nil _ => rfl

theorem card_sourcesSlot :
    ∀ slot : Option (Owned F), (sourcesSlot slot).card = regexesSlot (eraseSlot slot)
  | Option.none => rfl
  | some d => card_sources d

theorem card_sourcesSlots :
    ∀ slots : List (Option (Owned F)), (sourcesSlots slots).card = regexesSlots (eraseSlots slots)
  | [] => rfl
  | slot :: slots => by
      rw [sourcesSlots, Multiset.card_add, card_sourcesSlot slot, card_sourcesSlots slots]
      rfl

theorem card_sourcesNodes :
    ∀ nodes : List (Block × Owned F), (sourcesNodes nodes).card = regexesList (eraseNodes nodes)
  | [] => rfl
  | (_, d) :: nodes => by
      rw [sourcesNodes, Multiset.card_add, card_sources d, card_sourcesNodes nodes]
      rfl

theorem card_sourcesPairs : ∀ nodes : List (Block × Option (Owned F) × Option (Owned F)),
    (sourcesPairs nodes).card = regexesPairs (erasePairs nodes)
  | [] => rfl
  | (_, key, value) :: nodes => by
      rw [sourcesPairs, Multiset.card_add, Multiset.card_add, card_sourcesSlot key,
        card_sourcesSlot value, card_sourcesPairs nodes]
      rfl

end

theorem card_sources_sum (ds : List (Owned F)) :
    (ds.map sources).sum.card = ((ds.map erase).map regexes).sum := by
  induction ds with
  | nil => rfl
  | cons d ds ih =>
      rw [List.map_cons, List.sum_cons, Multiset.card_add, card_sources, ih]
      rfl

end Owned

namespace Managed

open Storing
open Owned (sources sourcesSlot sourcesSlots sourcesNodes sourcesPairs blocksSlot)

/-- Nothing is done but to the heap, and these blocks are abandoned. -/
def Abandons (blocks : Multiset Block) (m : Managed F Unit) : Prop :=
  ∀ h, Quietly (fun r ↦ r.2.abandoned = blocks + h.abandoned) (m h)

variable {blocks blocks' : Multiset Block} {m m' : Managed F Unit}

theorem abandons_pure : Abandons 0 (pure () : Managed F Unit) := fun _ ↦ (zero_add _).symm

theorem Abandons.bind (hm : Abandons blocks m) (hm' : Abandons blocks' m') :
    Abandons (blocks + blocks') (do m; m') := fun h ↦
  (hm h).bind fun r hr ↦ (hm' r.2).mono fun r' hr' ↦ by
    rw [hr', hr]
    abel

/-- Nothing is abandoned by the first step. -/
theorem Abandons.after (hm : Abandons 0 m) (hm' : Abandons blocks m') :
    Abandons blocks (do m; m') := by
  have hboth := hm.bind hm'
  rwa [zero_add] at hboth

theorem abandons_touch (b : Block) : Abandons 0 (touch b : Managed F Unit) := by
  intro h
  rw [touch]
  split_ifs
  · exact abandons_pure h
  · exact rfl

theorem abandons_free (b : Block) : Abandons 0 (free b : Managed F Unit) := by
  intro h
  rw [free]
  split_ifs
  · exact (zero_add _).symm
  · exact rfl

theorem abandons_abandon (blocks : Multiset Block) :
    Abandons blocks (abandon blocks : Managed F Unit) := fun _ ↦ rfl

theorem abandons_destroyPlain (data : Block) : Abandons 0 (destroyPlain data : Managed F Unit) :=
  (abandons_touch data).after (abandons_free data)

theorem abandons_destroyText (data text : Block) :
    Abandons 0 (destroyText data text : Managed F Unit) :=
  (abandons_touch data).after ((abandons_free text).after (abandons_free data))

/-- The header and the term are freed last. -/
theorem Abandons.closed (hm : Abandons blocks m) (header data : Block) :
    Abandons blocks (do m; free header; free data) := by
  have hall := hm.bind ((abandons_free header).after (abandons_free data))
  rwa [add_zero] at hall

mutual

/-- A destroyed term abandons the sources below it. -/
theorem abandons_destroy : ∀ d : Owned F, Abandons (sources d) (bertDataDestroy d)
  | .atom data text _ | .string data text _ | .bin data text _ => abandons_destroyText data text
  | .tuple data header elements slots => by
      have hslots := (abandons_destroySlots slots).bind
        ((abandons_free elements).after ((abandons_free header).after (abandons_free data)))
      rw [add_zero] at hslots
      exact (abandons_touch data).after ((abandons_touch header).after
        ((abandons_touch elements).after hslots))
  | .list data header nodes => (abandons_touch data).after
      ((abandons_touch header).after ((abandons_destroyNodes nodes).closed header data))
  | .dict data header nodes => (abandons_touch data).after
      ((abandons_touch header).after ((abandons_destroyPairs nodes).closed header data))
  | .regex data text _ _ =>
      (abandons_touch data).after ((abandons_free data).after (abandons_abandon {text}))
  | .none data | .boolean data _ | .int data _ | .float data _ | .time data _ | .nil data =>
      abandons_destroyPlain data

theorem abandons_destroySlot :
    ∀ slot : Option (Owned F), Abandons (sourcesSlot slot) (destroySlot slot)
  | none => abandons_pure
  | some d => abandons_destroy d

theorem abandons_destroySlots :
    ∀ slots : List (Option (Owned F)), Abandons (sourcesSlots slots) (destroySlots slots)
  | [] => abandons_pure
  | slot :: slots => (abandons_destroySlot slot).bind (abandons_destroySlots slots)

theorem abandons_destroyNodes :
    ∀ nodes : List (Block × Owned F), Abandons (sourcesNodes nodes) (destroyNodes nodes)
  | [] => abandons_pure
  | (node, d) :: nodes => (abandons_touch node).after
      ((abandons_destroy d).bind ((abandons_free node).after (abandons_destroyNodes nodes)))

theorem abandons_destroyPairs :
    ∀ nodes : List (Block × Option (Owned F) × Option (Owned F)),
      Abandons (sourcesPairs nodes) (destroyPairs nodes)
  | [] => abandons_pure
  | (node, key, value) :: nodes => (abandons_touch node).after
      ((abandons_destroySlot key).bind ((abandons_destroySlot value).bind
        ((abandons_free node).after (abandons_destroyPairs nodes))))

end

variable {h : Heap} {used : Multiset Block}

/-- A destroyed term gives back its blocks but the sources below it. -/
theorem exists_destroying (d : Owned F) (hu : h.Uses (d.blocks + used)) :
    ∃ events h', bertDataDestroy d h = Program.emitting events (.ret ((), h')) ∧
      (∀ event, .mark event ∉ events) ∧ h'.Uses used ∧ h'.abandoned = sources d + h.abandoned := by
  obtain ⟨events, hunmarked, hreturns⟩ := (abandons_destroy d h).exists_emitting
  have hmeets := meets_destroy d (accounts_of_uses False hu)
  have hends (event : HeapEvent (Event F)) (hmem : event ∈ events) :
      ¬ (heapContract False).ends event := fun hends ↦ by
    rw [eq_stale_of_ends hends] at hmem
    exact hunmarked .stale hmem
  rcases hreturns with ⟨⟨_, h'⟩, heq, habandoned⟩ | ⟨b, heq⟩
  · rw [heq] at hmeets
    exact ⟨events, h', heq, hunmarked, Heap.Accounts.uses (hmeets.of_emitting hends).2, habandoned⟩
  · rw [heq] at hmeets
    exact ((hmeets.of_emitting hends).2.resolve_left id).1.elim

variable {σ : Type} {R : BertReader σ} {t : σ}

theorem exists_destroyed (d : Owned F) (hu : h.Uses (d.blocks + used)) :
    ∃ h', run R (bertDataDestroy d h) t = .done ((), h') t ∧ h'.Uses used ∧
      h'.abandoned = sources d + h.abandoned := by
  obtain ⟨events, h', heq, -, huses, habandoned⟩ := exists_destroying d hu
  refine ⟨h', ?_, huses, habandoned⟩
  rw [heq, run_emitting]
  rfl

end Managed

end LibBert
