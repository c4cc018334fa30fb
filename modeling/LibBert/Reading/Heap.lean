import LibBert.Reading.Contract
import Mathlib.Data.Multiset.OrderedMonoid
import Mathlib.Tactic.Abel

/-!
# Programs with a heap

A heap gives out blocks of memory, each one once, and takes them back.  A program
with a heap can be refused a block at any request; freeing or touching a block
that is not allocated and writing past the end of a block are events, behind which
there is nothing but a fault.  A block that no pointer leads to any more is abandoned,
so that what is allocated splits into the abandoned blocks and those in use.
-/

namespace Reading

/-- A block, known by its address. -/
structure Block : Type where
  address : ℕ
  size : ℕ
deriving DecidableEq

/-- The allocated blocks; `grants` tells which requests are granted. -/
structure Heap : Type where
  live : Multiset Block
  abandoned : Multiset Block
  next : ℕ
  grants : ℕ → Bool
  fresh : ∀ b ∈ live, b.address < next
  nodup : live.Nodup

namespace Heap

def empty (grants : ℕ → Bool) : Heap where
  live := 0
  abandoned := 0
  next := 0
  grants := grants
  fresh := by simp
  nodup := Multiset.nodup_zero

/-- A block for a request that is granted. -/
def grant (h : Heap) (size : ℕ) : Heap :=
  { h with
    live := ⟨h.next, size⟩ ::ₘ h.live
    next := h.next + 1
    fresh := by
      intro b hb
      rcases Multiset.mem_cons.mp hb with rfl | hb
      · exact Nat.lt_succ_self _
      · exact Nat.lt_succ_of_lt (h.fresh b hb)
    nodup := Multiset.nodup_cons.mpr
      ⟨fun hagain ↦ Nat.lt_irrefl _ (h.fresh _ hagain), h.nodup⟩ }

def refuse (h : Heap) : Heap :=
  { h with
    next := h.next + 1
    fresh := fun b hb ↦ Nat.lt_succ_of_lt (h.fresh b hb) }

def free (h : Heap) (b : Block) : Heap :=
  { h with
    live := h.live.erase b
    fresh := fun c hc ↦ h.fresh c (Multiset.mem_of_mem_erase hc)
    nodup := h.nodup.erase b }

def abandon (h : Heap) (blocks : Multiset Block) : Heap :=
  { h with abandoned := blocks + h.abandoned }

/-- Besides the abandoned blocks exactly those in use are allocated. -/
def Uses (h : Heap) (used : Multiset Block) : Prop := h.live = h.abandoned + used

theorem uses_empty (grants : ℕ → Bool) : (empty grants).Uses 0 := rfl

variable {h : Heap} {b : Block} {blocks used : Multiset Block}

theorem Uses.mem (hu : h.Uses used) (hb : b ∈ used) : b ∈ h.live := by
  rw [hu, Multiset.mem_add]
  exact .inr hb

theorem Uses.grant (hu : h.Uses used) (size : ℕ) :
    (h.grant size).Uses ({⟨h.next, size⟩} + used) := by
  change _ ::ₘ h.live = h.abandoned + ({_} + used)
  rw [hu, Multiset.singleton_add, Multiset.add_cons]

theorem Uses.free (hu : h.Uses ({b} + used)) : (h.free b).Uses used := by
  rw [Uses] at hu ⊢
  change h.live.erase b = h.abandoned + used
  rw [hu, Multiset.singleton_add, Multiset.add_cons, Multiset.erase_cons_head]

theorem Uses.abandon (hu : h.Uses (blocks + used)) : (h.abandon blocks).Uses used := by
  rw [Uses] at hu ⊢
  change h.live = blocks + h.abandoned + used
  rw [hu]
  abel

end Heap

/-- What happens to a heap, beside the events `ε` of a program. -/
inductive HeapEvent (ε : Type) : Type where
  /-- a block that is not allocated is freed or touched -/
  | invalid (b : Block)
  /-- `length` bytes are written to a block that is shorter -/
  | overrun (b : Block) (length : ℕ)
  | abandoned (blocks : Multiset Block)
  /-- there is no memory for a request -/
  | refused
  | mark (event : ε)

/-- The heap is used as it should be, but for texts of `bound` bytes and more, which may
overrun their block. -/
def HeapEvent.Legal {ε : Type} (bound : ℕ) : HeapEvent ε → Prop
  | .invalid _ => False
  | .overrun _ length => bound ≤ length
  | _ => True

/-- Behind these events there is a fault. -/
def HeapEvent.Misuse {ε : Type} : HeapEvent ε → Prop
  | .invalid _ => True
  | .overrun _ _ => True
  | _ => False

/-- A program that uses a heap. -/
def Storing (β κ ε α : Type) : Type := Heap → Program β κ (HeapEvent ε) (α × Heap)

namespace Storing

variable {β κ ε α γ : Type}

instance : Monad (Storing β κ ε) where
  pure a := fun h ↦ .ret (a, h)
  bind m f := fun h ↦ m h >>= fun r ↦ f r.1 r.2

def malloc (size : ℕ) : Storing β κ ε (Option Block) := fun h ↦
  if h.grants h.next then .ret (some ⟨h.next, size⟩, h.grant size)
  else .emit .refused (.ret (none, h.refuse))

def free (b : Block) : Storing β κ ε Unit := fun h ↦
  if b ∈ h.live then .ret ((), h.free b) else .emit (.invalid b) .fault

def touch (b : Block) : Storing β κ ε Unit := fun h ↦
  if b ∈ h.live then .ret ((), h) else .emit (.invalid b) .fault

/-- `size` bytes are written to a block from an offset on, where `length` are meant
to be written in all. -/
def write (b : Block) (offset size length : ℕ) : Storing β κ ε Unit := fun h ↦
  if b ∉ h.live then .emit (.invalid b) .fault
  else if b.size < offset + size then .emit (.overrun b length) .fault
  else .ret ((), h)

/-- The last pointer to these blocks is dropped. -/
def abandon (blocks : Multiset Block) : Storing β κ ε Unit := fun h ↦
  .emit (.abandoned blocks) (.ret ((), h.abandon blocks))

def mark (event : ε) : Storing β κ ε Unit := fun h ↦ .emit (.mark event) (.ret ((), h))

/-- A program that does not use the heap. -/
def lift (p : Program β κ ε α) : Storing β κ ε α := fun h ↦
  p.relabel .mark >>= fun a ↦ .ret (a, h)

/-- The value of a pointer variable. -/
def assigned (a : Option α) : Storing β κ ε α := fun h ↦
  Program.assigned a >>= fun a ↦ .ret (a, h)

def timeout : Storing β κ ε α := fun _ ↦ .timeout

/-! ## What the operations keep -/

variable {C : Contract (HeapEvent ε)} {h : Heap}

theorem bind_apply (m : Storing β κ ε α) (f : α → Storing β κ ε γ) (h : Heap) :
    (m >>= f) h = m h >>= fun r ↦ f r.1 r.2 := rfl

theorem bind_assoc {δ : Type} (m : Storing β κ ε α) (f : α → Storing β κ ε γ)
    (g : γ → Storing β κ ε δ) : m >>= f >>= g = m >>= fun a ↦ f a >>= g :=
  funext fun h ↦ Program.bind_assoc (m h) _ _

theorem meets_bind {P : α × Heap → Prop} {Q : γ × Heap → Prop} {m : Storing β κ ε α}
    {f : α → Storing β κ ε γ} (hm : Meets C P (m h)) (hf : ∀ a h', P (a, h') → Meets C Q (f a h')) :
    Meets C Q ((m >>= f) h) :=
  hm.bind fun r hr ↦ hf r.1 r.2 hr

theorem meets_pure {Q : α × Heap → Prop} {a : α} (hQ : Q (a, h)) :
    Meets C Q ((pure a : Storing β κ ε α) h) := hQ

theorem meets_assigned {Q : α × Heap → Prop} {a : Option α} (hQ : ∀ x, a = some x → Q (x, h)) :
    Meets C Q ((assigned a : Storing β κ ε α) h) := by
  cases a with
  | none => trivial
  | some x => exact hQ x rfl

theorem meets_lift (hlegal : ∀ e, C.legal (.mark e)) (p : Program β κ ε α) :
    Meets C (fun r ↦ r.2 = h) (lift p h) :=
  (meets_relabel hlegal p).bind fun _ _ ↦ rfl

end Storing

/-! ## Accounts -/

/-- The blocks in use, and the abandoned ones where no more may be abandoned. -/
structure Heap.Accounts (strict : Prop) (abandoned used : Multiset Block) (h : Heap) : Prop where
  uses : h.Uses used
  kept : strict → h.abandoned = abandoned

/-- Only allocated blocks are freed and touched, and no text shorter than `bound` is
written past the end of its block.  Behind a mark that `stops` nothing is promised, and
behind an abandoned block neither where the contract is `strict`. -/
def accounting {ε : Type} (stops : ε → Prop) (bound : ℕ) (strict : Prop) :
    Contract (HeapEvent ε) where
  legal := HeapEvent.Legal bound
  ends
    | .abandoned _ => strict
    | .mark event => stops event
    | _ => False

namespace Heap.Accounts

variable {β κ ε α : Type} {stops : ε → Prop} {bound : ℕ} {strict : Prop}
  {lost blocks used : Multiset Block} {b : Block} {h : Heap}

theorem of_eq (ha : h.Accounts strict lost used) {used' : Multiset Block} (heq : used = used') :
    h.Accounts strict lost used' := heq ▸ ha

theorem meets_malloc (ha : h.Accounts strict lost used) (size : ℕ) :
    Meets (accounting stops bound strict)
      (fun r ↦ (∃ b, r.1 = some b ∧ b.size = size ∧ r.2.Accounts strict lost ({b} + used)) ∨
        r.1 = none ∧ r.2.Accounts strict lost used)
      ((Storing.malloc size : Storing β κ ε _) h) := by
  rw [Storing.malloc]
  split_ifs with hgrants
  · exact .inl ⟨_, rfl, rfl, ha.uses.grant size, ha.kept⟩
  · exact .inr ⟨trivial, .inr ⟨rfl, ha.uses, ha.kept⟩⟩

theorem meets_free (ha : h.Accounts strict lost ({b} + used)) :
    Meets (accounting stops bound strict) (fun r ↦ r.2.Accounts strict lost used)
      ((Storing.free b : Storing β κ ε _) h) := by
  rw [Storing.free, if_pos (ha.uses.mem (by simp))]
  exact ⟨ha.uses.free, ha.kept⟩

theorem meets_touch (ha : h.Accounts strict lost used) (hb : b ∈ used) :
    Meets (accounting stops bound strict) (fun r ↦ r.2.Accounts strict lost used)
      ((Storing.touch b : Storing β κ ε _) h) := by
  rw [Storing.touch, if_pos (ha.uses.mem hb)]
  exact ha

theorem meets_write (ha : h.Accounts strict lost used) (hb : b ∈ used) {offset size length : ℕ}
    (hsize : length < bound → offset + size ≤ b.size) :
    Meets (accounting stops bound strict) (fun r ↦ r.2.Accounts strict lost used)
      ((Storing.write b offset size length : Storing β κ ε _) h) := by
  rw [Storing.write, if_neg (not_not_intro (ha.uses.mem hb))]
  split_ifs with hshort
  · refine .inr ⟨Nat.le_of_not_lt fun hlength ↦ ?_, trivial⟩
    exact absurd (hsize hlength) (Nat.not_le_of_lt hshort)
  · exact ha

theorem meets_abandon (ha : h.Accounts strict lost (blocks + used)) :
    Meets (accounting stops bound strict) (fun r ↦ r.2.Accounts strict lost used)
      ((Storing.abandon blocks : Storing β κ ε _) h) := by
  by_cases hstrict : strict
  · exact .inl hstrict
  · exact .inr ⟨trivial, ha.uses.abandon, fun h ↦ absurd h hstrict⟩

theorem meets_mark (ha : h.Accounts strict lost used) (event : ε) :
    Meets (accounting stops bound strict) (fun r ↦ ¬ stops event ∧ r.2.Accounts strict lost used)
      ((Storing.mark event : Storing β κ ε _) h) := by
  by_cases hstops : stops event
  · exact .inl hstops
  · exact .inr ⟨trivial, hstops, ha⟩

theorem meets_lift (ha : h.Accounts strict lost used) (p : Program β κ ε α) :
    Meets (accounting stops bound strict) (fun r ↦ r.2.Accounts strict lost used)
      (Storing.lift p h) := by
  refine (Storing.meets_lift (fun _ ↦ trivial) p).mono ?_
  rintro ⟨a, h'⟩ rfl
  exact ha

end Heap.Accounts

end Reading
