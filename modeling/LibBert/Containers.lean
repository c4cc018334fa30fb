import LibBert.Linked.Chain
import LibBert.Types
import Mathlib.Data.Fintype.Card

/-!
# Lists and dictionaries as linked nodes

`list.c` and the append function of `dict.c` on a heap of nodes.  A function
answers nothing where it would follow a pointer to no node.  Whatever calls are
made on a list, it is the sequence of the data appended to it.
-/

namespace LibBert

open Linked

variable {ν δ : Type}

/-! ## The functions -/

/-- A pointer to a node; 0 is `NULL`. -/
abbrev Ptr := UInt64

/-- The code that the append functions share, behind a `malloc` that answered
`newNode`. -/
def appendNode (newNode : Ptr) (value : ν) (heap : Heap Ptr ν) (ends : Ends Ptr) :
    Option (Code × Heap Ptr ν × Ends Ptr) :=
  if newNode = 0 then
    some (bertErrnoMalloc, heap, ends)
  else do
    let heap := Function.update heap newNode (some ⟨value, 0⟩)
    if ends.tail ≠ 0 then
      let last ← heap ends.tail
      return (bertSuccess, Function.update heap ends.tail (some { last with next := newNode }),
        { ends with tail := newNode })
    else
      return (bertSuccess, heap, ⟨newNode, newNode⟩)

/-- A `bert_list_t` with the heap of its nodes, and the data that were given to
`bert_data_destroy`.  A datum that is `NULL` is none. -/
structure BertList (δ : Type) : Type where
  heap : Heap Ptr (Option δ)
  list : Ends Ptr
  destroyed : List (Option δ)

def bertListCreate (heap : Heap Ptr (Option δ)) : BertList δ where
  heap := heap
  list := ⟨0, 0⟩
  destroyed := []

def bertListAppend (newNode : Ptr) (data : Option δ) (l : BertList δ) :
    Option (Code × BertList δ) := do
  let (result, heap, list) ← appendNode newNode data l.heap l.list
  return (result, { l with heap := heap, list := list })

/-- A counter below an index does not wrap. -/
theorem toNat_succ_of_lt {i index : UInt32} (h : i < index) : (i + 1).toNat = i.toNat + 1 := by
  have hi := UInt32.lt_iff_toNat_lt.mp h
  have hindex := index.toNat_lt
  rw [UInt32.toNat_add]
  exact Nat.mod_eq_of_lt (by simp; omega)

/-- The loop of `bert_list_get` and `bert_list_set`. -/
def seekNode (heap : Heap Ptr ν) (index : UInt32) (nextNode : Ptr) (i : UInt32) : Option Ptr :=
  if _h : nextNode ≠ 0 ∧ i < index then
    match heap nextNode with
    | none => none
    | some node => seekNode heap index node.next (i + 1)
  else
    some nextNode
termination_by index.toNat - i.toNat
decreasing_by
  have hi := UInt32.lt_iff_toNat_lt.mp _h.2
  rw [toNat_succ_of_lt _h.2]
  omega

def bertListGet (l : BertList δ) (index : UInt32) : Option (Option δ) := do
  let nextNode ← seekNode l.heap index l.list.head 0
  if nextNode = 0 then
    return none
  else
    let node ← l.heap nextNode
    return node.value

def bertListSet (index : UInt32) (data : Option δ) (l : BertList δ) :
    Option (Code × BertList δ) := do
  let nextNode ← seekNode l.heap index l.list.head 0
  if nextNode = 0 then
    return (0, l)
  else
    let node ← l.heap nextNode
    return (1, { l with
      heap := Function.update l.heap nextNode (some { node with value := data })
      destroyed := l.destroyed ++ [node.value] })

/-- The loop of `bert_list_length`; `fuel` bounds the number of iterations. -/
def listLengthLoop (heap : Heap Ptr ν) : ℕ → Ptr → ℕ → Option ℕ
  | 0, _, _ => none
  | fuel + 1, nextNode, length =>
      if nextNode = 0 then
        some length
      else do
        let node ← heap nextNode
        listLengthLoop heap fuel node.next ((length + 1) % 2 ^ 64)

def bertListLength (fuel : ℕ) (l : BertList δ) : Option ℕ :=
  listLengthLoop l.heap fuel l.list.head 0

/-- What a node of a dictionary holds. -/
structure DictEntry (δ : Type) : Type where
  key : Option δ
  value : Option δ

/-- A `bert_dict_t` with the heap of its nodes. -/
structure BertDict (δ : Type) : Type where
  heap : Heap Ptr (DictEntry δ)
  dict : Ends Ptr

def bertDictCreate (heap : Heap Ptr (DictEntry δ)) : BertDict δ where
  heap := heap
  dict := ⟨0, 0⟩

def bertDictAppend (newNode : Ptr) (key value : Option δ) (d : BertDict δ) :
    Option (Code × BertDict δ) := do
  let (result, heap, dict) ← appendNode newNode ⟨key, value⟩ d.heap d.dict
  return (result, ⟨heap, dict⟩)

/-! ## The loops -/

section Loops

variable {heap : Heap Ptr ν} {first : Ptr} {nodes : List (Ptr × ν)} {index i : UInt32}

/-- The loop stops at the node of the index, or behind the last one. -/
theorem seekNode_eq (hnull : heap 0 = none) (h : Leads heap first nodes 0) (hi : i ≤ index) :
    seekNode heap index first i =
      some ((nodes[index.toNat - i.toNat]?.map Prod.fst).getD 0) := by
  induction nodes generalizing first i with
  | nil =>
      obtain rfl : first = 0 := h
      rw [seekNode, dif_neg (by simp)]
      simp
  | cons node nodes ih =>
      obtain ⟨p, value⟩ := node
      obtain ⟨rfl, next, hnode, hrest⟩ := h
      have hfirst : first ≠ 0 := ne_of_node hnode hnull
      have hle := UInt32.le_iff_toNat_le.mp hi
      by_cases hlt : i < index
      · have hsucc := toNat_succ_of_lt hlt
        have hlt' := UInt32.lt_iff_toNat_lt.mp hlt
        have hgap : index.toNat - i.toNat = index.toNat - (i + 1).toNat + 1 := by omega
        rw [seekNode, dif_pos ⟨hfirst, hlt⟩, hnode]
        dsimp only
        rw [ih hrest (UInt32.le_iff_toNat_le.mpr (by omega)), hgap, List.getElem?_cons_succ]
      · have hgap : index.toNat - i.toNat = 0 := by
          rw [UInt32.lt_iff_toNat_lt] at hlt
          omega
        rw [seekNode, dif_neg (fun hboth ↦ hlt hboth.2), hgap]
        rfl

/-- Fewer nodes than addresses are counted without a wrap. -/
theorem listLengthLoop_eq (hnull : heap 0 = none) (h : Leads heap first nodes 0) {fuel length : ℕ}
    (hfuel : nodes.length < fuel) (hlength : length + nodes.length < 2 ^ 64) :
    listLengthLoop heap fuel first length = some (length + nodes.length) := by
  induction nodes generalizing first fuel length with
  | nil =>
      obtain ⟨fuel, rfl⟩ : ∃ k, fuel = k + 1 := ⟨fuel - 1, by omega⟩
      exact if_pos h
  | cons node nodes ih =>
      obtain ⟨fuel, rfl⟩ : ∃ k, fuel = k + 1 := ⟨fuel - 1, by omega⟩
      obtain ⟨p, value⟩ := node
      obtain ⟨rfl, next, hnode, hrest⟩ := h
      have hfirst : first ≠ 0 := ne_of_node hnode hnull
      rw [List.length_cons] at hfuel hlength
      rw [listLengthLoop, if_neg hfirst, hnode, Option.bind_eq_bind, Option.bind_some,
        Nat.mod_eq_of_lt (by omega), ih hrest (by omega) (by omega), List.length_cons]
      congr 1
      omega

end Loops

/-! ## One call -/

section Call

variable {before heap : Heap Ptr ν} {ends : Ends Ptr} {nodes : List (Ptr × ν)} {newNode : Ptr}

/-- A node that `malloc` provides goes behind the last one. -/
theorem appendNode_eq (h : Chain 0 heap ends nodes) (hframe : Frame before heap nodes)
    (hp : newNode ≠ 0) (hfresh : heap newNode = none) (value : ν) :
    ∃ heap' ends', appendNode newNode value heap ends = some (bertSuccess, heap', ends') ∧
      Chain 0 heap' ends' (nodes ++ [(newNode, value)]) ∧
      Frame before heap' (nodes ++ [(newNode, value)]) := by
  have hpush : Frame before (Function.update heap newNode (some ⟨value, 0⟩))
      (nodes ++ [(newNode, value)]) := hframe.push hfresh _
  rw [appendNode, if_neg hp]
  rcases List.eq_nil_or_concat' nodes with rfl | ⟨front, ⟨t, v⟩, rfl⟩
  · rw [if_neg (not_not_intro (h.tail_eq_null_iff.mpr rfl))]
    exact ⟨_, _, rfl, h.single hp value, hpush⟩
  · obtain ⟨rfl, hlast⟩ := h.tail_eq
    rw [if_pos (h.ne_null (by simp)), Function.update_of_ne (ne_of_node hlast hfresh), hlast]
    have hmem : ends.tail ∈ (front ++ [(ends.tail, v)] ++ [(newNode, value)]).map Prod.fst := by
      simp
    exact ⟨_, _, rfl, h.push hp hfresh value, hpush.write hmem _⟩

theorem chain_empty (hnull : heap 0 = none) : Chain 0 heap ⟨0, 0⟩ [] := ⟨hnull, rfl, rfl⟩

theorem frame_empty (heap : Heap Ptr ν) : Frame heap heap [] :=
  fun _ _ ↦ ⟨rfl, List.not_mem_nil⟩

/-- There are fewer nodes than addresses. -/
theorem length_lt_of_chain (h : Chain 0 heap ends nodes) : nodes.length < 2 ^ 64 := by
  have hnodup : (0 :: nodes.map Prod.fst).Nodup :=
    List.nodup_cons.mpr ⟨fun hzero ↦ h.ne_null hzero rfl, h.nodup⟩
  have hcard := (hnodup.map (f := UInt64.toFin) fun _ _ hp ↦ UInt64.toFin_inj.mp hp).length_le_card
  simp only [List.length_map, List.length_cons, Fintype.card_fin,
    UInt64.size] at hcard
  omega

end Call

/-! ## Lists -/

/-- What a list is to its callers: its data, and those it gave up. -/
structure Elements (δ : Type) : Type where
  data : List (Option δ)
  destroyed : List (Option δ)

/-- The list stands for the elements; the nodes of the heap it was created on are as
they were. -/
structure BertList.Holds (before : Heap Ptr (Option δ)) (l : BertList δ) (s : Elements δ) :
    Prop where
  destroyed : l.destroyed = s.destroyed
  nodes : ∃ nodes, Chain 0 l.heap l.list nodes ∧ Frame before l.heap nodes ∧
    nodes.map Prod.snd = s.data

/-- The calls on a list; with an append comes what `malloc` answers. -/
inductive ListCall (δ : Type) : Type where
  | append (newNode : Ptr) (data : Option δ)
  | set (index : UInt32) (data : Option δ)
  | get (index : UInt32)
  | length

inductive ListAnswer (δ : Type) : Type where
  | code (code : Code)
  | data (data : Option δ)
  | length (length : ℕ)

namespace ListCall

def run (fuel : ℕ) (l : BertList δ) : ListCall δ → Option (ListAnswer δ × BertList δ)
  | append newNode data => do
      let (code, l) ← bertListAppend newNode data l
      return (.code code, l)
  | set index data => do
      let (code, l) ← bertListSet index data l
      return (.code code, l)
  | get index => do
      let data ← bertListGet l index
      return (.data data, l)
  | length => do
      let length ← bertListLength fuel l
      return (.length length, l)

/-- What the call means for the elements. -/
def apply (s : Elements δ) : ListCall δ → ListAnswer δ × Elements δ
  | append newNode data =>
      if newNode = 0 then (.code bertErrnoMalloc, s)
      else (.code bertSuccess, { s with data := s.data ++ [data] })
  | set index data =>
      match s.data[index.toNat]? with
      | none => (.code 0, s)
      | some old => (.code 1, ⟨s.data.set index.toNat data, s.destroyed ++ [old]⟩)
  | get index => (.data s.data[index.toNat]?.join, s)
  | length => (.length s.data.length, s)

/-- What `malloc` answers is no node in use. -/
def Fresh (heap : Heap Ptr (Option δ)) : ListCall δ → Prop
  | append newNode _ => heap newNode = none
  | _ => True

end ListCall

namespace BertList.Holds

variable {before : Heap Ptr (Option δ)} {l : BertList δ} {s : Elements δ} {index : UInt32}

theorem append (h : l.Holds before s) {newNode : Ptr} (hp : newNode ≠ 0)
    (hfresh : l.heap newNode = none) (data : Option δ) :
    ∃ l', bertListAppend newNode data l = some (bertSuccess, l') ∧
      l'.Holds before { s with data := s.data ++ [data] } := by
  obtain ⟨nodes, hchain, hframe, hdata⟩ := h.nodes
  obtain ⟨heap', list', happend, hchain', hframe'⟩ := appendNode_eq hchain hframe hp hfresh data
  refine ⟨{ l with heap := heap', list := list' }, ?_, h.destroyed, _, hchain', hframe', ?_⟩
  · rw [bertListAppend, happend]
    rfl
  · rw [List.map_append, hdata]
    rfl

theorem seek {nodes : List (Ptr × Option δ)} (hchain : Chain 0 l.heap l.list nodes)
    (index : UInt32) : seekNode l.heap index l.list.head 0 =
      some ((nodes[index.toNat]?.map Prod.fst).getD 0) :=
  seekNode_eq hchain.unallocated hchain.leads (UInt32.le_iff_toNat_le.mpr (Nat.zero_le _))

theorem get (h : l.Holds before s) (index : UInt32) :
    bertListGet l index = some s.data[index.toNat]?.join := by
  obtain ⟨nodes, hchain, -, hdata⟩ := h.nodes
  rw [bertListGet, seek hchain, ← hdata, List.getElem?_map]
  cases hnode : nodes[index.toNat]? with
  | none => rfl
  | some node =>
      obtain ⟨p, v⟩ := node
      have hp : p ≠ 0 := hchain.ne_null (List.mem_map_of_mem (List.mem_of_getElem? hnode))
      obtain ⟨next, hheap, -⟩ := hchain.setAt hnode v
      simp [hp, hheap]

/-- Out of range nothing changes. -/
theorem set_of_le (h : l.Holds before s) (hindex : s.data[index.toNat]? = none)
    (data : Option δ) : bertListSet index data l = some (0, l) := by
  obtain ⟨nodes, hchain, -, hdata⟩ := h.nodes
  rw [← hdata, List.getElem?_map, Option.map_eq_none_iff] at hindex
  rw [bertListSet, seek hchain, hindex]
  rfl

theorem set (h : l.Holds before s) {old : Option δ} (hold : s.data[index.toNat]? = some old)
    (data : Option δ) :
    ∃ l', bertListSet index data l = some (1, l') ∧
      l'.Holds before ⟨s.data.set index.toNat data, s.destroyed ++ [old]⟩ := by
  obtain ⟨nodes, hchain, hframe, hdata⟩ := h.nodes
  rw [← hdata, List.getElem?_map, Option.map_eq_some_iff] at hold
  obtain ⟨⟨p, v⟩, hnode, rfl⟩ := hold
  have hmem : p ∈ nodes.map Prod.fst := List.mem_map_of_mem (List.mem_of_getElem? hnode)
  obtain ⟨next, hheap, hchain'⟩ := hchain.setAt hnode data
  refine ⟨{ l with
      heap := Function.update l.heap p (some ⟨data, next⟩)
      destroyed := l.destroyed ++ [v] }, ?_, ?_, _, hchain', ?_, ?_⟩
  · rw [bertListSet, seek hchain, hnode]
    simp [hchain.ne_null hmem, hheap]
  · rw [h.destroyed]
  · rw [Frame, map_fst_set hnode]
    exact hframe.write hmem _
  · rw [List.map_set, hdata]

theorem length (h : l.Holds before s) {fuel : ℕ} (hfuel : s.data.length < fuel) :
    bertListLength fuel l = some s.data.length := by
  obtain ⟨nodes, hchain, -, hdata⟩ := h.nodes
  rw [← hdata, List.length_map] at hfuel ⊢
  have hlt := length_lt_of_chain hchain
  have hloop := listLengthLoop_eq hchain.unallocated hchain.leads hfuel
    (by omega : 0 + nodes.length < 2 ^ 64)
  rwa [Nat.zero_add] at hloop

/-- A call answers what it means, and the list goes on standing for the elements. -/
theorem run (h : l.Holds before s) {fuel : ℕ} (hfuel : s.data.length < fuel) {call : ListCall δ}
    (hfresh : call.Fresh l.heap) :
    ∃ l', call.run fuel l = some ((call.apply s).1, l') ∧ l'.Holds before (call.apply s).2 := by
  cases call with
  | append newNode data =>
      by_cases hp : newNode = 0
      · subst hp
        exact ⟨l, rfl, h⟩
      · obtain ⟨l', happend, hl'⟩ := h.append hp hfresh data
        refine ⟨l', ?_, ?_⟩
        · rw [ListCall.run, happend, ListCall.apply, if_neg hp]
          rfl
        · rwa [ListCall.apply, if_neg hp]
  | set index data =>
      cases hold : s.data[index.toNat]? with
      | none =>
          refine ⟨l, ?_, ?_⟩
          · rw [ListCall.run, h.set_of_le hold, ListCall.apply, hold]
            rfl
          · rwa [ListCall.apply, hold]
      | some old =>
          obtain ⟨l', hset, hl'⟩ := h.set hold data
          refine ⟨l', ?_, ?_⟩
          · rw [ListCall.run, hset, ListCall.apply, hold]
            rfl
          · rwa [ListCall.apply, hold]
  | get index => exact ⟨l, by rw [ListCall.run, h.get]; rfl, h⟩
  | length => exact ⟨l, by rw [ListCall.run, h.length hfuel]; rfl, h⟩

end BertList.Holds

/-! ## Runs of calls -/

namespace ListCall

/-- The calls one after the other, with what they answer. -/
def runAll (fuel : ℕ) : List (ListCall δ) → BertList δ → Option (List (ListAnswer δ) × BertList δ)
  | [], l => some ([], l)
  | call :: calls, l => do
      let (answer, l) ← call.run fuel l
      let (answers, l) ← runAll fuel calls l
      return (answer :: answers, l)

def applyAll : List (ListCall δ) → Elements δ → List (ListAnswer δ) × Elements δ
  | [], s => ([], s)
  | call :: calls, s =>
      ((call.apply s).1 :: (applyAll calls (call.apply s).2).1, (applyAll calls (call.apply s).2).2)

/-- Whenever `malloc` is called it answers no node in use. -/
def FreshAll (fuel : ℕ) : List (ListCall δ) → BertList δ → Prop
  | [], _ => True
  | call :: calls, l =>
      call.Fresh l.heap ∧ ∀ answer l', call.run fuel l = some (answer, l') → FreshAll fuel calls l'

/-- The data of the appends that got a node, in order. -/
def appended : List (ListCall δ) → List (Option δ)
  | [] => []
  | append newNode data :: calls =>
      if newNode = 0 then appended calls else data :: appended calls
  | set _ _ :: calls => appended calls
  | get _ :: calls => appended calls
  | length :: calls => appended calls

theorem length_apply_le (call : ListCall δ) (s : Elements δ) :
    (call.apply s).2.data.length ≤ s.data.length + 1 := by
  cases call with
  | append newNode data =>
      rw [apply]
      split_ifs <;> simp
  | set index data =>
      rw [apply]
      cases s.data[index.toNat]? <;> simp
  | get index => exact Nat.le_succ _
  | length => exact Nat.le_succ _

theorem length_applyAll (calls : List (ListCall δ)) (s : Elements δ) :
    (applyAll calls s).2.data.length = s.data.length + (appended calls).length := by
  induction calls generalizing s with
  | nil => rfl
  | cons call calls ih =>
      rw [applyAll, ih]
      cases call with
      | append newNode data =>
          rw [apply, appended]
          split_ifs
          · rfl
          · rw [List.length_append, List.length_singleton, List.length_cons]
            omega
      | set index data =>
          rw [apply, appended]
          cases s.data[index.toNat]? <;> simp
      | get index => rfl
      | length => rfl

theorem runAll_eq {before : Heap Ptr (Option δ)} {fuel : ℕ} {calls : List (ListCall δ)}
    {l : BertList δ} {s : Elements δ} (h : l.Holds before s)
    (hfuel : s.data.length + calls.length < fuel) (hfresh : FreshAll fuel calls l) :
    ∃ l', runAll fuel calls l = some ((applyAll calls s).1, l') ∧
      l'.Holds before (applyAll calls s).2 := by
  induction calls generalizing l s with
  | nil => exact ⟨l, rfl, h⟩
  | cons call calls ih =>
      rw [List.length_cons] at hfuel
      have hgrows := length_apply_le call s
      obtain ⟨l', hrun, hl'⟩ := h.run (by omega : s.data.length < fuel) hfresh.1
      obtain ⟨l'', hrest, hl''⟩ := ih hl' (by omega) (hfresh.2 _ _ hrun)
      refine ⟨l'', ?_, hl''⟩
      rw [runAll, hrun, Option.bind_eq_bind, Option.bind_some]
      dsimp only
      rw [hrest]
      rfl

end ListCall

/-- A list is a sequence: its nodes are a finite chain without repetition between its
ends, and the functions that read it, or are out of its range, see the data. -/
structure BertList.IsSequence (l : BertList δ) (data : List (Option δ)) : Prop where
  ends : l.list.head = 0 ↔ l.list.tail = 0
  chain : ∃ nodes, Chain 0 l.heap l.list nodes ∧ (nodes.map Prod.fst).Nodup ∧
    nodes.map Prod.snd = data
  get : ∀ index, bertListGet l index = some data[index.toNat]?.join
  set : ∀ index d, data.length ≤ index.toNat → bertListSet index d l = some (0, l)
  length : ∀ fuel, data.length < fuel → bertListLength fuel l = some data.length

theorem BertList.Holds.isSequence {before : Heap Ptr (Option δ)} {l : BertList δ} {s : Elements δ}
    (h : l.Holds before s) : l.IsSequence s.data where
  ends := by
    obtain ⟨nodes, hchain, -⟩ := h.nodes
    rw [hchain.head_eq_null_iff, hchain.tail_eq_null_iff]
  chain := by
    obtain ⟨nodes, hchain, -, hdata⟩ := h.nodes
    exact ⟨nodes, hchain, hchain.nodup, hdata⟩
  get := h.get
  set _ d hindex := h.set_of_le (List.getElem?_eq_none hindex) d
  length _ hfuel := h.length hfuel

theorem bertListCreate_holds {heap : Heap Ptr (Option δ)} (hnull : heap 0 = none) :
    (bertListCreate heap).Holds heap ⟨[], []⟩ :=
  ⟨rfl, [], chain_empty hnull, frame_empty heap, rfl⟩

/-! ## Dictionaries -/

/-- A call of `bert_dict_append` with what `malloc` answers. -/
structure DictAppend (δ : Type) : Type where
  newNode : Ptr
  key : Option δ
  value : Option δ

namespace DictAppend

def runAll : List (DictAppend δ) → BertDict δ → Option (List Code × BertDict δ)
  | [], d => some ([], d)
  | call :: calls, d => do
      let (code, d) ← bertDictAppend call.newNode call.key call.value d
      let (codes, d) ← runAll calls d
      return (code :: codes, d)

def FreshAll : List (DictAppend δ) → BertDict δ → Prop
  | [], _ => True
  | call :: calls, d =>
      d.heap call.newNode = none ∧ ∀ code d',
        bertDictAppend call.newNode call.key call.value d = some (code, d') → FreshAll calls d'

/-- What the append returns. -/
def code (call : DictAppend δ) : Code :=
  if call.newNode = 0 then bertErrnoMalloc else bertSuccess

/-- The pairs of the appends that got a node, in order. -/
def entries : List (DictAppend δ) → List (DictEntry δ)
  | [] => []
  | call :: calls =>
      if call.newNode = 0 then entries calls else ⟨call.key, call.value⟩ :: entries calls

theorem entries_cons (call : DictAppend δ) (calls : List (DictAppend δ)) :
    entries (call :: calls) = entries [call] ++ entries calls := by
  rw [entries, entries]
  split_ifs <;> rfl

/-- One append adds its pair, or nothing. -/
theorem run {before : Heap Ptr (DictEntry δ)} {d : BertDict δ} {nodes : List (Ptr × DictEntry δ)}
    (hchain : Chain 0 d.heap d.dict nodes) (hframe : Frame before d.heap nodes)
    {call : DictAppend δ} (hfresh : d.heap call.newNode = none) :
    ∃ d' nodes', bertDictAppend call.newNode call.key call.value d = some (call.code, d') ∧
      Chain 0 d'.heap d'.dict nodes' ∧ Frame before d'.heap nodes' ∧
      nodes'.map Prod.snd = nodes.map Prod.snd ++ entries [call] := by
  by_cases hp : call.newNode = 0
  · refine ⟨d, nodes, ?_, hchain, hframe, ?_⟩
    · rw [bertDictAppend, appendNode, if_pos hp, code, if_pos hp]
      rfl
    · rw [entries, if_pos hp]
      exact (List.append_nil _).symm
  · obtain ⟨heap', dict', hnode, hchain', hframe'⟩ :=
      appendNode_eq hchain hframe hp hfresh ⟨call.key, call.value⟩
    refine ⟨⟨heap', dict'⟩, _, ?_, hchain', hframe', ?_⟩
    · rw [bertDictAppend, hnode, code, if_neg hp]
      rfl
    · rw [entries, if_neg hp, List.map_append]
      rfl

theorem runAll_eq {before : Heap Ptr (DictEntry δ)} {calls : List (DictAppend δ)} {d : BertDict δ}
    {nodes : List (Ptr × DictEntry δ)} (hchain : Chain 0 d.heap d.dict nodes)
    (hframe : Frame before d.heap nodes) (hfresh : FreshAll calls d) :
    ∃ d' nodes', runAll calls d = some (calls.map code, d') ∧ Chain 0 d'.heap d'.dict nodes' ∧
      Frame before d'.heap nodes' ∧ nodes'.map Prod.snd = nodes.map Prod.snd ++ entries calls := by
  induction calls generalizing d nodes with
  | nil => exact ⟨d, nodes, rfl, hchain, hframe, (List.append_nil _).symm⟩
  | cons call calls ih =>
      obtain ⟨d', nodes', happend, hchain', hframe', hentry⟩ := run hchain hframe hfresh.1
      obtain ⟨d'', nodes'', hrun, hchain'', hframe'', hentries⟩ :=
        ih hchain' hframe' (hfresh.2 _ _ happend)
      refine ⟨d'', nodes'', ?_, hchain'', hframe'', ?_⟩
      · rw [runAll, happend, Option.bind_eq_bind, Option.bind_some]
        dsimp only
        rw [hrun]
        rfl
      · rw [hentries, hentry, List.append_assoc, ← entries_cons]

end DictAppend

/-! ## Both -/

/-- Whatever calls are made on a new list they answer as on the sequence of the data
appended, which the list is afterwards, and however many pairs are appended to a new
dictionary, its nodes are those pairs in order.  Other nodes stay as they are. -/
theorem containers_are_sequences {heap : Heap Ptr (Option δ)} (hnull : heap 0 = none) {fuel : ℕ}
    {calls : List (ListCall δ)} (hfuel : calls.length < fuel)
    (hfresh : ListCall.FreshAll fuel calls (bertListCreate heap))
    {dictHeap : Heap Ptr (DictEntry δ)} (hdictNull : dictHeap 0 = none)
    {appends : List (DictAppend δ)}
    (hdictFresh : DictAppend.FreshAll appends (bertDictCreate dictHeap)) :
    (∃ l, ListCall.runAll fuel calls (bertListCreate heap) =
        some ((ListCall.applyAll calls ⟨[], []⟩).1, l) ∧
      l.IsSequence (ListCall.applyAll calls ⟨[], []⟩).2.data ∧
      l.destroyed = (ListCall.applyAll calls ⟨[], []⟩).2.destroyed ∧
      (ListCall.applyAll calls ⟨[], []⟩).2.data.length = (ListCall.appended calls).length ∧
      ∀ p, heap p ≠ none → l.heap p = heap p) ∧
    ∃ d, DictAppend.runAll appends (bertDictCreate dictHeap) =
        some (appends.map DictAppend.code, d) ∧
      (d.dict.head = 0 ↔ d.dict.tail = 0) ∧
      (∃ nodes, Chain 0 d.heap d.dict nodes ∧ (nodes.map Prod.fst).Nodup ∧
        nodes.map Prod.snd = DictAppend.entries appends) ∧
      ∀ p, dictHeap p ≠ none → d.heap p = dictHeap p := by
  constructor
  · obtain ⟨l, hrun, hl⟩ :=
      ListCall.runAll_eq (bertListCreate_holds hnull) (by simpa using hfuel) hfresh
    obtain ⟨nodes, -, hframe, -⟩ := hl.nodes
    exact ⟨l, hrun, hl.isSequence, hl.destroyed, by simp [ListCall.length_applyAll],
      fun p hp ↦ (hframe p hp).1⟩
  · obtain ⟨d, nodes, hrun, hchain, hframe, hentries⟩ := DictAppend.runAll_eq
      (d := bertDictCreate dictHeap) (chain_empty hdictNull) (frame_empty dictHeap) hdictFresh
    refine ⟨d, hrun, ?_, ⟨nodes, hchain, hchain.nodup, hentries⟩, fun p hp ↦ (hframe p hp).1⟩
    rw [hchain.head_eq_null_iff, hchain.tail_eq_null_iff]

/-- Two data are appended, the second is replaced and the first read; one index is out
of range.  A pair is appended twice. -/
theorem containers_are_sequences_two :
    (∃ l, ListCall.runAll 7 [.append 16 (some 1), .append 32 (some 2), .set 1 (some 3), .get 0,
          .get 2, .length] (bertListCreate fun _ ↦ none) =
        some ([.code 0, .code 0, .code 1, .data (some 1), .data none, .length 2], l) ∧
      l.IsSequence [some 1, some 3] ∧ l.destroyed = [some 2]) ∧
    ∃ d, DictAppend.runAll [⟨16, some 1, some 2⟩, ⟨48, some 1, some 2⟩]
        (bertDictCreate fun _ ↦ none) = some ([0, 0], d) ∧
      ∃ nodes, Chain 0 d.heap d.dict nodes ∧
        nodes.map Prod.snd = [⟨some 1, some 2⟩, ⟨some 1, some 2⟩] := by
  have hfresh : ListCall.FreshAll 7 [.append 16 (some 1), .append 32 (some 2), .set 1 (some 3),
      .get 0, .get 2, .length] (bertListCreate fun _ ↦ none : BertList ℕ) := by
    refine ⟨rfl, ?_⟩
    rintro _ _ ⟨⟩
    refine ⟨rfl, ?_⟩
    rintro _ _ ⟨⟩
    simp [ListCall.FreshAll, ListCall.Fresh]
  have hdictFresh : DictAppend.FreshAll [⟨16, some 1, some 2⟩, ⟨48, some 1, some 2⟩]
      (bertDictCreate fun _ ↦ none : BertDict ℕ) := by
    refine ⟨rfl, ?_⟩
    rintro _ _ ⟨⟩
    exact ⟨rfl, fun _ _ _ ↦ trivial⟩
  obtain ⟨⟨l, hrun, hl, hdestroyed, -⟩, d, hdict, -, ⟨nodes, hchain, -, hentries⟩, -⟩ :=
    containers_are_sequences rfl (by decide) hfresh rfl hdictFresh
  exact ⟨⟨l, hrun, hl, hdestroyed⟩, d, hdict, nodes, hchain, hentries⟩

end LibBert
