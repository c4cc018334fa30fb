import Mathlib.Data.List.Nodup
import Mathlib.Logic.Function.Basic
import Mathlib.Tactic.Common

/-!
# Chains of nodes on a heap

A heap holds nodes, each of which points to the next.  The nodes between the two
ends of a container are read off the heap by following the pointers; what
appending a node and replacing a value do to the heap is said in terms of the
list of these nodes.
-/

namespace Linked

variable {P ν : Type}

/-- A node: what it holds and a pointer to the next node. -/
structure Node (P ν : Type) : Type where
  value : ν
  next : P

abbrev Heap (P ν : Type) := P → Option (Node P ν)

/-! ## Following the pointers -/

/-- From `first` the pointers lead through exactly these nodes to `last`. -/
def Leads (heap : Heap P ν) : P → List (P × ν) → P → Prop
  | first, [], last => first = last
  | first, (p, value) :: nodes, last =>
      first = p ∧ ∃ next, heap p = some ⟨value, next⟩ ∧ Leads heap next nodes last

variable {heap heap' : Heap P ν} {first last p null : P} {nodes xs ys : List (P × ν)}

@[simp] theorem leads_nil : Leads heap first [] last ↔ first = last := Iff.rfl

@[simp] theorem leads_cons {value : ν} : Leads heap first ((p, value) :: nodes) last ↔
    first = p ∧ ∃ next, heap p = some ⟨value, next⟩ ∧ Leads heap next nodes last := Iff.rfl

theorem leads_append_iff : Leads heap first (xs ++ ys) last ↔
    ∃ middle, Leads heap first xs middle ∧ Leads heap middle ys last := by
  induction xs generalizing first with
  | nil => simp
  | cons node xs ih =>
      obtain ⟨p, value⟩ := node
      simp only [List.cons_append, leads_cons, ih]
      constructor
      · rintro ⟨rfl, next, hnode, middle, hxs, hys⟩
        exact ⟨middle, ⟨rfl, next, hnode, hxs⟩, hys⟩
      · rintro ⟨middle, ⟨rfl, next, hnode, hxs⟩, hys⟩
        exact ⟨rfl, next, hnode, middle, hxs, hys⟩

/-- A node lies elsewhere than at an address without one. -/
theorem ne_of_node {q : P} {node : Node P ν} (hnode : heap p = some node) (hq : heap q = none) :
    p ≠ q := by
  rintro rfl
  rw [hq] at hnode
  cases hnode

theorem Leads.allocated (h : Leads heap first nodes last) (hp : p ∈ nodes.map Prod.fst) :
    heap p ≠ none := by
  induction nodes generalizing first with
  | nil => cases hp
  | cons node nodes ih =>
      obtain ⟨q, value⟩ := node
      obtain ⟨-, next, hnode, hrest⟩ := h
      rcases List.mem_cons.mp hp with rfl | hp
      · simp [hnode]
      · exact ih hrest hp

/-- Only the nodes on the way matter. -/
theorem Leads.congr (h : Leads heap first nodes last)
    (hsame : ∀ p ∈ nodes.map Prod.fst, heap' p = heap p) : Leads heap' first nodes last := by
  induction nodes generalizing first with
  | nil => exact h
  | cons node nodes ih =>
      obtain ⟨q, value⟩ := node
      obtain ⟨rfl, next, hnode, hrest⟩ := h
      refine ⟨rfl, next, (hsame first List.mem_cons_self).trans hnode, ih hrest fun p hp ↦ ?_⟩
      exact hsame p (List.mem_cons_of_mem first hp)

/-- A way that ends at an address without a node is the only one. -/
theorem Leads.unique (hxs : Leads heap first xs null) (hys : Leads heap first ys null)
    (hnull : heap null = none) : xs = ys := by
  induction xs generalizing first ys with
  | nil =>
      cases ys with
      | nil => rfl
      | cons node ys =>
          obtain ⟨rfl, next, hnode, -⟩ := hys
          exact absurd hxs (ne_of_node hnode hnull)
  | cons node xs ih =>
      obtain ⟨rfl, next, hnode, hrest⟩ := hxs
      cases ys with
      | nil =>
          exact absurd hys (ne_of_node hnode hnull)
      | cons node' ys =>
          obtain ⟨hp, next', hnode', hrest'⟩ := hys
          obtain ⟨p, value⟩ := node
          obtain ⟨p', value'⟩ := node'
          obtain rfl : p = p' := hp
          rw [hnode] at hnode'
          cases hnode'
          rw [ih hrest hrest']

/-- A way that ends at an address without a node meets no node twice. -/
theorem Leads.nodup (h : Leads heap first nodes null) (hnull : heap null = none) :
    (nodes.map Prod.fst).Nodup := by
  induction nodes generalizing first with
  | nil => exact List.nodup_nil
  | cons node nodes ih =>
      obtain ⟨p, value⟩ := node
      have hwhole := h
      obtain ⟨rfl, next, -, hrest⟩ := h
      refine List.nodup_cons.mpr ⟨fun hagain ↦ ?_, ih hrest⟩
      obtain ⟨⟨p, value'⟩, hmem, rfl⟩ := List.mem_map.mp hagain
      obtain ⟨xs, ys, rfl⟩ := List.append_of_mem hmem
      -- from the second visit the same nodes would have to follow as from the first
      obtain ⟨middle, -, hsecond⟩ := leads_append_iff.mp hrest
      obtain rfl : middle = p := hsecond.1
      have hlength := congrArg List.length (hwhole.unique hsecond hnull)
      simp only [List.length_cons, List.length_append] at hlength
      omega

/-! ## Containers -/

/-- The pointers of a container. -/
structure Ends (P : Type) : Type where
  head : P
  tail : P

/-- The nodes of a container: the pointers lead through them from its head, and its
tail is the last of them. -/
structure Chain (null : P) (heap : Heap P ν) (ends : Ends P) (nodes : List (P × ν)) : Prop where
  unallocated : heap null = none
  leads : Leads heap ends.head nodes null
  last : ends.tail = (nodes.getLast?.map Prod.fst).getD null

namespace Chain

variable {ends : Ends P}

theorem ne_null (h : Chain null heap ends nodes) (hp : p ∈ nodes.map Prod.fst) : p ≠ null := by
  rintro rfl
  exact h.leads.allocated hp h.unallocated

theorem nodup (h : Chain null heap ends nodes) : (nodes.map Prod.fst).Nodup :=
  h.leads.nodup h.unallocated

theorem head_eq_null_iff (h : Chain null heap ends nodes) : ends.head = null ↔ nodes = [] := by
  have hleads := h.leads
  cases nodes with
  | nil => exact iff_of_true hleads rfl
  | cons node nodes =>
      rw [hleads.1]
      exact iff_of_false (h.ne_null List.mem_cons_self) (List.cons_ne_nil node nodes)

theorem tail_eq_null_iff (h : Chain null heap ends nodes) : ends.tail = null ↔ nodes = [] := by
  rw [h.last]
  rcases List.eq_nil_or_concat nodes with rfl | ⟨front, node, rfl⟩
  · simp
  · have hnode : node.1 ≠ null := h.ne_null (by simp)
    simp [hnode]

theorem tail_eq {front : List (P × ν)} {value : ν}
    (h : Chain null heap ends (front ++ [(p, value)])) :
    ends.tail = p ∧ heap p = some ⟨value, null⟩ := by
  obtain ⟨middle, -, hlast⟩ := leads_append_iff.mp h.leads
  obtain ⟨rfl, next, hnode, rfl⟩ := hlast
  exact ⟨by simp [h.last], hnode⟩

variable [DecidableEq P]

theorem single (h : Chain null heap ends []) (hp : p ≠ null) (value : ν) :
    Chain null (Function.update heap p (some ⟨value, null⟩)) ⟨p, p⟩ [(p, value)] where
  unallocated := by rw [Function.update_of_ne hp.symm, h.unallocated]
  leads := ⟨rfl, null, Function.update_self .., rfl⟩
  last := rfl

/-- Appending through the tail leaves the way to it alone. -/
theorem push {front : List (P × ν)} {t : P} {v : ν}
    (h : Chain null heap ends (front ++ [(t, v)])) (hp : p ≠ null) (hfresh : heap p = none)
    (value : ν) :
    Chain null (Function.update (Function.update heap p (some ⟨value, null⟩)) t (some ⟨v, p⟩))
      { ends with tail := p } (front ++ [(t, v)] ++ [(p, value)]) := by
  have ht : t ≠ null := h.ne_null (by simp)
  have hpt : p ≠ t := by
    rintro rfl
    exact h.leads.allocated (by simp) hfresh
  obtain ⟨middle, hfront, rfl, -, -, -⟩ := leads_append_iff.mp h.leads
  refine ⟨?_, ?_, by simp⟩
  · rw [Function.update_of_ne ht.symm, Function.update_of_ne hp.symm, h.unallocated]
  · have hnodup := h.nodup
    rw [List.map_append, List.nodup_append] at hnodup
    rw [List.append_assoc, leads_append_iff]
    refine ⟨middle, hfront.congr fun q hq ↦ ?_, rfl, p, Function.update_self .., rfl, null, ?_, rfl⟩
    · have hqm : q ≠ middle := hnodup.2.2 q hq middle (by simp)
      have hqp : q ≠ p := by
        rintro rfl
        exact hfront.allocated hq hfresh
      rw [Function.update_of_ne hqm, Function.update_of_ne hqp]
    · rw [Function.update_of_ne hpt, Function.update_self]

/-- Replacing the value of a node changes nothing else. -/
theorem set {v : ν} (h : Chain null heap ends (xs ++ (p, v) :: ys)) (w : ν) :
    ∃ next, heap p = some ⟨v, next⟩ ∧
      Chain null (Function.update heap p (some ⟨w, next⟩)) ends (xs ++ (p, w) :: ys) := by
  have hp : p ≠ null := h.ne_null (by simp)
  have hnodup := h.nodup
  rw [List.map_append, List.map_cons, List.nodup_append, List.nodup_cons] at hnodup
  obtain ⟨-, ⟨hys, -⟩, hxs⟩ := hnodup
  obtain ⟨middle, hfront, rfl, next, hnode, hback⟩ := leads_append_iff.mp h.leads
  refine ⟨next, hnode, ?_, ?_, ?_⟩
  · rw [Function.update_of_ne hp.symm, h.unallocated]
  · refine leads_append_iff.mpr ⟨middle, ?_, rfl, next, Function.update_self .., ?_⟩
    · exact hfront.congr fun q hq ↦
        Function.update_of_ne (hxs q hq middle List.mem_cons_self) ..
    · refine hback.congr fun q hq ↦ Function.update_of_ne ?_ ..
      rintro rfl
      exact hys hq
  · rw [h.last]
    rcases List.eq_nil_or_concat ys with rfl | ⟨ys, node, rfl⟩
    · simp
    · simp [List.getLast?_append, List.getLast?_cons]

/-- The same for the node at an index. -/
theorem setAt {k : ℕ} {v : ν} (h : Chain null heap ends nodes) (hk : nodes[k]? = some (p, v))
    (w : ν) :
    ∃ next, heap p = some ⟨v, next⟩ ∧
      Chain null (Function.update heap p (some ⟨w, next⟩)) ends (nodes.set k (p, w)) := by
  obtain ⟨hlt, hnode⟩ := List.getElem?_eq_some_iff.mp hk
  have hsplit : nodes = nodes.take k ++ (p, v) :: nodes.drop (k + 1) := by
    rw [← hnode, List.getElem_cons_drop, List.take_append_drop]
  have hset : nodes.set k (p, w) = nodes.take k ++ (p, w) :: nodes.drop (k + 1) := by
    rw [List.set_eq_take_append_cons_drop, if_pos hlt]
  rw [hset]
  exact (hsplit ▸ h).set w

end Chain

theorem map_fst_set {k : ℕ} {v : ν} (hk : nodes[k]? = some (p, v)) (w : ν) :
    (nodes.set k (p, w)).map Prod.fst = nodes.map Prod.fst := by
  obtain ⟨hlt, hnode⟩ := List.getElem?_eq_some_iff.mp hk
  refine List.ext_getElem (by simp) fun i hi _ ↦ ?_
  simp only [List.getElem_map, List.getElem_set]
  split_ifs with hik
  · subst hik
    rw [hnode]
  · rfl

/-! ## What else is on the heap -/

/-- The nodes of an earlier heap are as they were, and none of them is one of these. -/
def Frame (before heap : Heap P ν) (nodes : List (P × ν)) : Prop :=
  ∀ p, before p ≠ none → heap p = before p ∧ p ∉ nodes.map Prod.fst

namespace Frame

variable [DecidableEq P] {before : Heap P ν} {value : ν}

omit [DecidableEq P] in
theorem ne_of_fresh (h : Frame before heap nodes) (hfresh : heap p = none) {q : P}
    (hq : before q ≠ none) : q ≠ p := by
  rintro rfl
  exact hq ((h q hq).1.symm.trans hfresh)

theorem write (h : Frame before heap nodes) (hp : p ∈ nodes.map Prod.fst)
    (node : Option (Node P ν)) : Frame before (Function.update heap p node) nodes := by
  intro q hq
  obtain ⟨hsame, hother⟩ := h q hq
  have hqp : q ≠ p := by
    rintro rfl
    exact hother hp
  exact ⟨by rw [Function.update_of_ne hqp, hsame], hother⟩

theorem push (h : Frame before heap nodes) (hfresh : heap p = none) (node : Option (Node P ν)) :
    Frame before (Function.update heap p node) (nodes ++ [(p, value)]) := by
  intro q hq
  obtain ⟨hsame, hother⟩ := h q hq
  have hqp := h.ne_of_fresh hfresh hq
  refine ⟨by rw [Function.update_of_ne hqp, hsame], ?_⟩
  rw [List.map_append, List.mem_append, not_or]
  exact ⟨hother, by simpa using hqp⟩

end Frame

end Linked
