import LibBert.Dump.Print
import LibBert.Memory.Discipline

/-!
# Printing terms from their blocks

The `bert_print` functions with the blocks they read.  Over a heap in which the blocks of
the term are allocated they do nothing but print what they print without one.
-/

namespace LibBert

open Reading Storing

/-! ## Printing as a program -/

namespace Print

variable {β κ ε σ : Type} {ok : κ} {fails : κ → Prop}

/-- A print function asks the reader of a program for nothing. -/
def program (print : Print) (console : Console) : Program β κ ε (Code × Console) :=
  match print console with
  | .done result console => .ret (result, console)
  | .stuck _ => .stuck
  | .fault _ => .fault
  | .timeout _ => .timeout

theorem program_of_done {print : Print} {console console' : Console} {result : Code}
    (h : print console = .done result console') :
    (print.program console : Program β κ ε _) = .ret (result, console') := by
  rw [program, h]

theorem program_andThen (first next : Print) (console : Console) :
    ((first.andThen next).program console : Program β κ ε _) =
      first.program console >>= fun r ↦
        if r.1 = -1 then .ret (-1, r.2) else next.program r.2 := by
  rw [program, andThen, program]
  cases first console with
  | done result console' =>
      rw [Outcome.bind_done]
      by_cases hstops : result = -1
      · simp only [hstops, if_true]
        rfl
      · simp only [hstops, if_false]
        exact (if_neg hstops).symm
  | stuck _ => rfl
  | fault _ => rfl
  | timeout _ => rfl

theorem relabel_program {ε' : Type} (g : ε → ε') (print : Print) (console : Console) :
    (print.program console : Program β κ ε _).relabel g = print.program console := by
  rw [program, program]
  cases print console <;> rfl

end Print

namespace Managed

variable {F σ : Type}

/-! ## Printing a term in memory -/

/-- A function that prints beside the heap it reads. -/
abbrev Print (F : Type) := Console → Managed F (Code × Console)

namespace Print

/-- What is printed without a look at the heap. -/
def plain (print : LibBert.Print) : Print F := fun console ↦ lift (print.program console)

/-- The blocks of the term itself are read first. -/
def reading (d : Owned F) (print : Print F) : Print F := fun console ↦ do
  look d
  print console

/-- A node is read first. -/
def behind (node : Block) (print : Print F) : Print F := fun console ↦ do
  touch node
  print console

/-- `if (first == -1) { return -1; }`, then the rest. -/
def andThen (first next : Print F) : Print F := fun console ↦ do
  let (result, console) ← first console
  if result = -1 then return (-1, console) else next console

end Print

/-- A constant text. -/
def printed (text : List UInt8) : Print F := .plain (.text text)

variable [Printf F]

mutual

def bertPrint : Owned F → Print F
  | .tuple data header elements slots => .reading (.tuple data header elements slots) <|
      (printed (cString "\x7b")).andThen
        ((printElements slots).andThen (printed (cString "\x7d")))
  | .list data header nodes => .reading (.list data header nodes) <|
      (printed (cString "[")).andThen ((printNodes nodes).andThen (printed (cString "]")))
  | .dict data header nodes => .reading (.dict data header nodes) <|
      (printed (cString "\x7bbert, dict, [")).andThen
        ((printPairs nodes).andThen (printed (cString "]\x7d")))
  | d => .reading d (.plain (LibBert.bertPrint d.erase))

/-- `bert_print` of a pointer. -/
def printPointer : Option (Owned F) → Print F
  | none => .plain .stuck
  | some d => bertPrint d

/-- The elements of a tuple. -/
def printElements : List (Option (Owned F)) → Print F
  | [] => printed []
  | [slot] => printPointer slot
  | slot :: next :: rest =>
      (printPointer slot).andThen
        ((printed (cString ", ")).andThen (printElements (next :: rest)))

/-- The nodes of a list. -/
def printNodes : List (Block × Owned F) → Print F
  | [] => printed []
  | [(node, d)] => .behind node (bertPrint d)
  | (node, d) :: next :: rest =>
      .behind node ((bertPrint d).andThen
        ((printed (cString ", ")).andThen (printNodes (next :: rest))))

/-- The nodes of a dictionary. -/
def printPairs : List (Block × Option (Owned F) × Option (Owned F)) → Print F
  | [] => printed []
  | (node, key, value) :: rest =>
      .behind node <| (printed (cString "\x7b")).andThen ((printPointer key).andThen
        ((printed (cString ", ")).andThen ((printPointer value).andThen
          ((printed (cString "\x7d")).andThen
            ((printed (if rest.isEmpty then [] else cString ", ")).andThen
              (printPairs rest))))))

end

/-! ## Printing leaves the heap alone -/

open Owned (blocks blocksSlot blocksSlots blocksNodes blocksPairs erase eraseSlot eraseSlots
  eraseNodes erasePairs)

/-- Over this heap nothing happens but what the function without a heap does. -/
def Print.Reads (h : Heap) (print : Print F) (print' : LibBert.Print) : Prop :=
  ∀ console, print console h = print'.program console >>= fun r ↦ .ret (r, h)

section Reads

omit [Printf F]

variable {h : Heap} {print next : Print F} {print' next' : LibBert.Print}

theorem Print.reads_plain (print : LibBert.Print) : Print.Reads h (.plain print : Print F) print :=
  fun console ↦ by
    rw [Print.plain, lift, Print.relabel_program]

theorem reads_printed (text : List UInt8) :
    Print.Reads h (printed text : Print F) (.text text) := Print.reads_plain _

theorem Print.Reads.andThen (hfirst : print.Reads h print') (hnext : next.Reads h next') :
    (print.andThen next).Reads h (print'.andThen next') := by
  intro console
  rw [Print.andThen, bind_apply, hfirst, Print.program_andThen, Program.bind_assoc,
    Program.bind_assoc]
  refine congrArg _ (funext fun ⟨result, console'⟩ ↦ ?_)
  change (if result = -1 then pure (-1, console') else next console' : Managed F _) h =
    (if result = -1 then .ret (-1, console') else next'.program console') >>= fun r ↦ .ret (r, h)
  split_ifs
  · rfl
  · exact hnext console'

theorem touch_of_mem {b : Block} (hb : b ∈ h.live) :
    (touch b : Managed F Unit) h = .ret ((), h) := if_pos hb

theorem touchAll_of_subset {bs : List Block} (hbs : ∀ b ∈ bs, b ∈ h.live) :
    (touchAll bs : Managed F Unit) h = .ret ((), h) := by
  induction bs with
  | nil => rfl
  | cons b bs ih =>
      obtain ⟨hb, hbs⟩ := List.forall_mem_cons.mp hbs
      rw [touchAll, bind_apply, touch_of_mem hb]
      exact ih hbs

theorem Print.Reads.behind {node : Block} (hnode : node ∈ h.live) (hprint : print.Reads h print') :
    (Print.behind node print).Reads h print' := by
  intro console
  rw [Print.behind, bind_apply, touch_of_mem hnode]
  exact hprint console

theorem Print.Reads.reading {d : Owned F} (hd : d.blocks ≤ h.live) (hprint : print.Reads h print') :
    (Print.reading d print).Reads h print' := by
  intro console
  have hown : (look d : Managed F Unit) h = .ret ((), h) :=
    touchAll_of_subset fun b hb ↦ Multiset.mem_of_le hd (mem_blocks_of_own hb)
  rw [Print.reading, bind_apply, hown]
  exact hprint console

end Reads

section Blocks

variable {h : Heap}

theorem le_of_add_left {blocks blocks' : Multiset Block} (hle : blocks + blocks' ≤ h.live) :
    blocks ≤ h.live := (Multiset.le_add_right _ _).trans hle

theorem le_of_add_right {blocks blocks' : Multiset Block} (hle : blocks + blocks' ≤ h.live) :
    blocks' ≤ h.live := (Multiset.le_add_left _ _).trans hle

theorem le_of_uses {blocks used : Multiset Block} (hu : h.Uses (blocks + used)) :
    blocks ≤ h.live := by
  rw [hu]
  exact (Multiset.le_add_right _ _).trans (Multiset.le_add_left _ _)

mutual

/-- A term whose blocks are allocated is printed from them. -/
theorem reads_print : ∀ d : Owned F, d.blocks ≤ h.live →
    (bertPrint d).Reads h (LibBert.bertPrint d.erase)
  | .tuple data header elements slots, hd => by
      rw [bertPrint, erase, LibBert.bertPrint]
      exact .reading hd ((reads_printed _).andThen
        ((reads_elements slots (le_of_add_right hd)).andThen (reads_printed _)))
  | .list data header nodes, hd => by
      rw [bertPrint, erase, LibBert.bertPrint]
      exact .reading hd ((reads_printed _).andThen
        ((reads_nodes nodes (le_of_add_right hd)).andThen (reads_printed _)))
  | .dict data header nodes, hd => by
      rw [bertPrint, erase, LibBert.bertPrint]
      exact .reading hd ((reads_printed _).andThen
        ((reads_pairs nodes (le_of_add_right hd)).andThen (reads_printed _)))
  | .none _, hd | .boolean _ _, hd | .int _ _, hd | .float _ _, hd | .atom _ _ _, hd
  | .string _ _ _, hd | .bin _ _ _, hd | .time _ _, hd | .regex _ _ _ _, hd | .nil _, hd =>
      .reading hd (Print.reads_plain _)

theorem reads_pointer : ∀ slot : Option (Owned F), blocksSlot slot ≤ h.live →
    (printPointer slot).Reads h (LibBert.printPointer (eraseSlot slot))
  | none, _ => Print.reads_plain _
  | some d, hd => reads_print d hd

theorem reads_elements : ∀ slots : List (Option (Owned F)), blocksSlots slots ≤ h.live →
    (printElements slots).Reads h (LibBert.printElements (eraseSlots slots))
  | [], _ => reads_printed _
  | [slot], hslots => reads_pointer slot (le_of_add_left hslots)
  | slot :: next :: rest, hslots =>
      (reads_pointer slot (le_of_add_left hslots)).andThen
        ((reads_printed _).andThen (reads_elements (next :: rest) (le_of_add_right hslots)))

theorem reads_nodes : ∀ nodes : List (Block × Owned F), blocksNodes nodes ≤ h.live →
    (printNodes nodes).Reads h (LibBert.printNodes (eraseNodes nodes))
  | [], _ => reads_printed _
  | [(node, d)], hnodes =>
      have hnode : {node} + d.blocks ≤ h.live := le_of_add_left hnodes
      .behind (Multiset.singleton_le.mp (le_of_add_left hnode))
        (reads_print d (le_of_add_right hnode))
  | (node, d) :: next :: rest, hnodes =>
      have hnode : {node} + d.blocks ≤ h.live := le_of_add_left hnodes
      .behind (Multiset.singleton_le.mp (le_of_add_left hnode))
        ((reads_print d (le_of_add_right hnode)).andThen
          ((reads_printed _).andThen (reads_nodes (next :: rest) (le_of_add_right hnodes))))

theorem reads_pairs : ∀ nodes : List (Block × Option (Owned F) × Option (Owned F)),
    blocksPairs nodes ≤ h.live →
      (printPairs nodes).Reads h (LibBert.printPairs (erasePairs nodes))
  | [], _ => reads_printed _
  | (node, key, value) :: rest, hnodes => by
      have hpair : {node} + blocksSlot key + blocksSlot value ≤ h.live := le_of_add_left hnodes
      have hkey : {node} + blocksSlot key ≤ h.live := le_of_add_left hpair
      have hempty : (erasePairs rest).isEmpty = rest.isEmpty := by cases rest <;> rfl
      rw [printPairs, erasePairs, LibBert.printPairs, hempty]
      exact .behind (Multiset.singleton_le.mp (le_of_add_left hkey)) <|
        (reads_printed _).andThen <| (reads_pointer key (le_of_add_right hkey)).andThen <|
          (reads_printed _).andThen <| (reads_pointer value (le_of_add_right hpair)).andThen <|
            (reads_printed _).andThen <| (reads_printed _).andThen <|
              reads_pairs rest (le_of_add_right hnodes)

end

end Blocks

end Managed

end LibBert
