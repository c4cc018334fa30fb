import LibBert.Dump.Dump
import LibBert.Printing.Layout
import Mathlib.Data.List.TakeWhile

/-!
# What the printed text tells

The printed text of a term as a layout of tokens, quoted bodies and bracketed groups.  Where
no string holds a quotation mark, no binary an angle bracket and neither of them a
backslash, and no atom could be taken for something else, terms are told apart by what is
printed, and so are files.
-/

namespace LibBert

open Reading Bytes Printing

variable {F ρ ρ' : Type}

/-! ## Marks -/

inductive Bracket : Type where
  | brace
  | square

inductive Quote : Type where
  | string
  | binary

def printMarks : Marks UInt8 Bracket Quote where
  token c := c ∉ cString "\n\",<[]\x7b\x7d"
  opening
    | .brace => 123
    | .square => 91
  closing
    | .brace => 125
    | .square => 93
  comma := 44
  space := [32]
  left
    | .string => 34
    | .binary => 60
  leftRest
    | .string => []
    | .binary => [60]
  right
    | .string => 34
    | .binary => 62
  rightRest
    | .string => []
    | .binary => [62]
  opening_inj := by rintro (_ | _) (_ | _) h <;> first | rfl | cases h
  left_inj := by rintro (_ | _) (_ | _) h <;> first | rfl | cases h
  left_ne_opening := by rintro (_ | _) (_ | _) <;> decide
  not_token_opening := by rintro (_ | _) <;> decide
  not_token_closing := by rintro (_ | _) <;> decide
  not_token_comma := by decide
  not_token_left := by rintro (_ | _) <;> decide
  closing_ne_comma := by rintro (_ | _) <;> decide
  closing_ne_opening := by rintro (_ | _) (_ | _) <;> decide
  closing_ne_left := by rintro (_ | _) (_ | _) <;> decide

/-! ## Characters -/

/-- An escape begins with a backslash; where the character is negative it has eight digits,
of which the first is an `f`. -/
theorem length_stringChar {c : UInt8} (h : c ≠ 92) :
    (stringChar c).length =
      if (stringChar c).head? = some 92 then
        if (stringChar c)[2]? = some 102 then 10 else 4
      else 1 := by
  revert h
  exact forall_byte (p := fun c ↦ c ≠ 92 → (stringChar c).length =
    if (stringChar c).head? = some 92 then if (stringChar c)[2]? = some 102 then 10 else 4
    else 1) (by decide +kernel) c

theorem length_binaryChar {b : UInt8} (h : b ≠ 92) :
    (binaryChar b).length = if (binaryChar b).head? = some 92 then 4 else 1 := by
  revert h
  exact forall_byte (p := fun b ↦ b ≠ 92 → (binaryChar b).length =
    if (binaryChar b).head? = some 92 then 4 else 1) (by decide +kernel) b

/-- The value of a hexadecimal digit. -/
def hexValue (c : UInt8) : UInt8 := if c < 58 then c - 48 else c - 87

/-- The character that was printed, read from the last two digits. -/
def printedChar : List UInt8 → UInt8
  | [c] => c
  | text => hexValue (text.getD (text.length - 2) 0) * 16 + hexValue (text.getD (text.length - 1) 0)

theorem printedChar_stringChar (c : UInt8) : printedChar (stringChar c) = c :=
  forall_byte (p := fun c ↦ printedChar (stringChar c) = c) (by decide +kernel) c

theorem printedChar_binaryChar (b : UInt8) : printedChar (binaryChar b) = b :=
  forall_byte (p := fun b ↦ printedChar (binaryChar b) = b) (by decide +kernel) b

theorem quote_notMem_stringChar {c : UInt8} (h : c ≠ 34) : 34 ∉ stringChar c := by
  revert h
  exact forall_byte (p := fun c ↦ c ≠ 34 → 34 ∉ stringChar c) (by decide +kernel) c

theorem angle_notMem_binaryChar {b : UInt8} (h : b ≠ 62) : 62 ∉ binaryChar b := by
  revert h
  exact forall_byte (p := fun b ↦ b ≠ 62 → 62 ∉ binaryChar b) (by decide +kernel) b

theorem head?_eq_of_append {s s' rest rest' : List UInt8} (hs : s ≠ []) (hs' : s' ≠ [])
    (h : s ++ rest = s' ++ rest') : s.head? = s'.head? := by
  rw [← List.head?_append_of_ne_nil s hs, h, List.head?_append_of_ne_nil s' hs']

theorem stringChar_append_inj {c c' : UInt8} {rest rest' : List UInt8} (hc : c ≠ 92)
    (hc' : c' ≠ 92) (h : stringChar c ++ rest = stringChar c' ++ rest') : c = c' := by
  have hlength := length_stringChar hc
  have hlength' := length_stringChar hc'
  have hpos : 0 < (stringChar c).length := by split_ifs at hlength <;> omega
  have hpos' : 0 < (stringChar c').length := by split_ifs at hlength' <;> omega
  have hhead := head?_eq_of_append (List.ne_nil_of_length_pos hpos)
    (List.ne_nil_of_length_pos hpos') h
  have hsame : (stringChar c).length = (stringChar c').length := by
    rw [← hhead] at hlength'
    by_cases hescape : (stringChar c).head? = some 92
    · rw [if_pos hescape] at hlength hlength'
      have hthird : (stringChar c)[2]? = (stringChar c')[2]? := by
        have hthirds := congrArg (fun text ↦ text[2]?) h
        rwa [List.getElem?_append_left (by split_ifs at hlength <;> omega),
          List.getElem?_append_left (by split_ifs at hlength' <;> omega)] at hthirds
      rw [hlength, hlength', hthird]
    · rw [hlength, hlength', if_neg hescape, if_neg hescape]
  rw [← printedChar_stringChar c, (List.append_inj h hsame).1, printedChar_stringChar]

theorem binaryChar_append_inj {b b' : UInt8} {rest rest' : List UInt8} (hb : b ≠ 92)
    (hb' : b' ≠ 92) (h : binaryChar b ++ rest = binaryChar b' ++ rest') : b = b' := by
  have hlength := length_binaryChar hb
  have hlength' := length_binaryChar hb'
  have hpos : 0 < (binaryChar b).length := by split_ifs at hlength <;> omega
  have hpos' : 0 < (binaryChar b').length := by split_ifs at hlength' <;> omega
  have hhead := head?_eq_of_append (List.ne_nil_of_length_pos hpos)
    (List.ne_nil_of_length_pos hpos') h
  have hsame : (binaryChar b).length = (binaryChar b').length := by rw [hlength, hlength', hhead]
  rw [← printedChar_binaryChar b, (List.append_inj h hsame).1, printedChar_binaryChar]

/-! ## Terms as layouts -/

mutual

def printed : Data F → Layout UInt8 Bracket Quote
  | .nil => .token (cString "nil")
  | .boolean boolean => .token (if boolean ≠ 0 then cString "true" else cString "false")
  | .int integer => .token (signedDigits integer.toInt)
  | .atom name => .token name
  | .string text => .quoted .string (text.flatMap stringChar)
  | .bin data => .quoted .binary (data.flatMap binaryChar)
  | .time time => .group .brace [.token (cString "bert"), .token (cString "time"),
      .token (unsignedDigits (printedTime time / 1000000)),
      .token (unsignedDigits (printedTime time)), .token (cString "0")]
  | .tuple elements => .group .brace (printedSlots elements)
  | .list entries => .group .square (printedList entries)
  | .dict entries => .group .brace [.token (cString "bert"), .token (cString "dict"),
      .group .square (printedPairs entries)]
  | .none | .float _ | .regex _ _ => .token []

def printedPointer : Option (Data F) → Layout UInt8 Bracket Quote
  | none => .token []
  | some d => printed d

def printedSlots : List (Option (Data F)) → List (Layout UInt8 Bracket Quote)
  | [] => []
  | slot :: rest => printedPointer slot :: printedSlots rest

def printedList : List (Data F) → List (Layout UInt8 Bracket Quote)
  | [] => []
  | d :: rest => printed d :: printedList rest

def printedPairs : List (Option (Data F) × Option (Data F)) → List (Layout UInt8 Bracket Quote)
  | [] => []
  | (key, value) :: rest =>
      .group .brace [printedPointer key, printedPointer value] :: printedPairs rest

end

/-- A name that is printed as no other term is. -/
structure EvidentName (name : List UInt8) : Prop where
  ne_nil : name ≠ []
  token : ∀ c ∈ name, printMarks.token c ∧ c ≠ 0
  not_reserved : name ∉ [cString "nil", cString "true", cString "false"]
  not_signedDigits : ∀ i, name ≠ signedDigits i

mutual

/-- The term is printed as no other is: there are no floats and no regular expressions,
names and bodies do not hold what ends them, and times fit the 32 bits of which they are
printed. -/
def Evident : Data F → Prop
  | .nil | .int _ => True
  | .boolean boolean => boolean = 0 ∨ boolean = 1
  | .atom name => EvidentName name
  | .string text => 34 ∉ text ∧ 92 ∉ text
  | .bin data => 62 ∉ data ∧ 92 ∉ data
  | .time time => 0 ≤ time.toInt ∧ time.toInt < 2 ^ 32
  | .tuple elements =>
      (∀ d, elements.head? = some (some d) → d.isBert = false) ∧ EvidentSlots elements
  | .list entries => EvidentList entries
  | .dict entries => EvidentPairs entries
  | .none | .float _ | .regex _ _ => False

def EvidentPointer : Option (Data F) → Prop
  | none => False
  | some d => Evident d

def EvidentSlots : List (Option (Data F)) → Prop
  | [] => True
  | slot :: rest => EvidentPointer slot ∧ EvidentSlots rest

def EvidentList : List (Data F) → Prop
  | [] => True
  | d :: rest => Evident d ∧ EvidentList rest

def EvidentPairs : List (Option (Data F) × Option (Data F)) → Prop
  | [] => True
  | (key, value) :: rest => EvidentPointer key ∧ EvidentPointer value ∧ EvidentPairs rest

end

/-! ## Layouts of evident terms -/

theorem token_of_digit {c : UInt8} (h : c = 45 ∨ 48 ≤ c.toNat ∧ c.toNat < 58) :
    printMarks.token c := by
  revert h
  refine forall_byte (p := fun c ↦ (c = 45 ∨ 48 ≤ c.toNat ∧ c.toNat < 58) →
    c ∉ cString "\n\",<[]\x7b\x7d") ?_ c
  decide +kernel

theorem wellFormed_literal {name : List UInt8} (hne : name ≠ [])
    (h : ∀ c ∈ name, c ∉ cString "\n\",<[]\x7b\x7d") :
    printMarks.WellFormed (.token name) := ⟨hne, h⟩

theorem wellFormed_unsignedDigits (n : ℕ) :
    printMarks.WellFormed (.token (unsignedDigits n)) :=
  ⟨unsignedDigits_ne_nil n, fun _ hc ↦ token_of_digit (.inr (digit_of_mem_unsignedDigits hc))⟩

mutual

theorem wellFormed_printed : ∀ d : Data F, Evident d → printMarks.WellFormed (printed d)
  | .nil, _ => wellFormed_literal (by decide) (by decide +kernel)
  | .boolean boolean, _ => by
      rw [printed]
      split_ifs
      · exact wellFormed_literal (by decide) (by decide +kernel)
      · exact wellFormed_literal (by decide) (by decide +kernel)
  | .int integer, _ =>
      ⟨signedDigits_ne_nil _, fun _ hc ↦ token_of_digit (signed_of_mem_signedDigits hc)⟩
  | .atom name, h => ⟨h.ne_nil, fun c hc ↦ (h.token c hc).1⟩
  | .string text, h => by
      change 34 ∉ text.flatMap stringChar
      intro hmem
      obtain ⟨c, hc, hmem⟩ := List.mem_flatMap.mp hmem
      exact quote_notMem_stringChar (ne_of_mem_of_not_mem hc h.1) hmem
  | .bin data, h => by
      change 62 ∉ data.flatMap binaryChar
      intro hmem
      obtain ⟨b, hb, hmem⟩ := List.mem_flatMap.mp hmem
      exact angle_notMem_binaryChar (ne_of_mem_of_not_mem hb h.1) hmem
  | .time time, _ => ⟨wellFormed_literal (by decide) (by decide +kernel),
      wellFormed_literal (by decide) (by decide +kernel), wellFormed_unsignedDigits _,
      wellFormed_unsignedDigits _, wellFormed_literal (by decide) (by decide +kernel), trivial⟩
  | .tuple elements, h => wellFormed_printedSlots elements h.2
  | .list entries, h => wellFormed_printedList entries h
  | .dict entries, h => ⟨wellFormed_literal (by decide) (by decide +kernel),
      wellFormed_literal (by decide) (by decide +kernel), wellFormed_printedPairs entries h,
      trivial⟩

theorem wellFormed_printedPointer :
    ∀ slot : Option (Data F), EvidentPointer slot → printMarks.WellFormed (printedPointer slot)
  | none, h => h.elim
  | some d, h => wellFormed_printed d h

theorem wellFormed_printedSlots :
    ∀ elements : List (Option (Data F)), EvidentSlots elements →
      printMarks.AllWellFormed (printedSlots elements)
  | [], _ => trivial
  | slot :: rest, h => ⟨wellFormed_printedPointer slot h.1, wellFormed_printedSlots rest h.2⟩

theorem wellFormed_printedList :
    ∀ entries : List (Data F), EvidentList entries →
      printMarks.AllWellFormed (printedList entries)
  | [], _ => trivial
  | d :: rest, h => ⟨wellFormed_printed d h.1, wellFormed_printedList rest h.2⟩

theorem wellFormed_printedPairs :
    ∀ entries : List (Option (Data F) × Option (Data F)), EvidentPairs entries →
      printMarks.AllWellFormed (printedPairs entries)
  | [], _ => trivial
  | (key, value) :: rest, h =>
      ⟨⟨wellFormed_printedPointer key h.1, wellFormed_printedPointer value h.2.1, trivial⟩,
        wellFormed_printedPairs rest h.2.2⟩

end

/-! ## Evident terms are told apart -/

theorem printedTime_inj {time time' : Int64} (h : 0 ≤ time.toInt ∧ time.toInt < 2 ^ 32)
    (h' : 0 ≤ time'.toInt ∧ time'.toInt < 2 ^ 32) (heq : printedTime time = printedTime time') :
    time = time' := by
  rw [printedTime, printedTime, low32_eq, low32_eq, low32, low32] at heq
  apply Int64.toInt_inj.mp
  omega

theorem flatMap_stringChar_inj {text text' : List UInt8} (h : 92 ∉ text) (h' : 92 ∉ text')
    (heq : text.flatMap stringChar = text'.flatMap stringChar) : text = text' := by
  refine flatMap_injOn (p := (· ≠ 92)) ?_ stringChar_append_inj
    (fun c hc ↦ ne_of_mem_of_not_mem hc h) (fun c hc ↦ ne_of_mem_of_not_mem hc h') heq
  intro c
  rw [stringChar]
  split_ifs
  · exact List.cons_ne_nil _ _
  · exact List.cons_ne_nil _ _

theorem flatMap_binaryChar_inj {data data' : List UInt8} (h : 92 ∉ data) (h' : 92 ∉ data')
    (heq : data.flatMap binaryChar = data'.flatMap binaryChar) : data = data' := by
  refine flatMap_injOn (p := (· ≠ 92)) ?_ binaryChar_append_inj
    (fun b hb ↦ ne_of_mem_of_not_mem hb h) (fun b hb ↦ ne_of_mem_of_not_mem hb h') heq
  intro b
  rw [binaryChar]
  split_ifs
  · exact List.cons_ne_nil _ _
  · exact List.cons_ne_nil _ _

/-- No word is a number. -/
theorem word_ne_signedDigits {c : UInt8} (hc : ¬ (c = 45 ∨ 48 ≤ c.toNat ∧ c.toNat < 58))
    (cs : List UInt8) (i : ℤ) : c :: cs ≠ signedDigits i := fun h ↦
  hc (signed_of_mem_signedDigits (h ▸ List.mem_cons_self))

/-- What is printed as one token, and how. -/
inductive Printed : Data F → List UInt8 → Prop
  | nil : Printed .nil (cString "nil")
  | yes : Printed (.boolean 1) (cString "true")
  | no : Printed (.boolean 0) (cString "false")
  | int (i : Int64) : Printed (.int i) (signedDigits i.toInt)
  | atom {name : List UInt8} (h : EvidentName name) : Printed (.atom name) name

theorem Printed.of_token {d : Data F} {symbols : List UInt8} (hd : Evident d)
    (h : printed d = .token symbols) : Printed d symbols := by
  cases d with
  | nil => cases h; exact .nil
  | int i => cases h; exact .int i
  | boolean boolean =>
      rcases hd with rfl | rfl
      · cases h; exact .no
      · cases h; exact .yes
  | atom name => cases h; exact .atom hd
  | none | float _ | regex _ _ => exact hd.elim
  | _ => cases h

theorem EvidentName.ne_reserved {name word : List UInt8} (h : EvidentName name)
    (hword : word ∈ [cString "nil", cString "true", cString "false"]) : name ≠ word :=
  (ne_of_mem_of_not_mem hword h.not_reserved).symm

theorem Printed.inj {d d' : Data F} {symbols symbols' : List UInt8} (h : Printed d symbols)
    (h' : Printed d' symbols') (heq : symbols = symbols') : d = d' := by
  cases h with
  | nil | yes | no =>
      cases h' with
      | nil | yes | no => first | rfl | exact absurd heq (by decide)
      | int j => exact absurd heq (word_ne_signedDigits (by decide) _ _)
      | atom hname => exact absurd heq.symm (hname.ne_reserved (by decide))
  | int i =>
      cases h' with
      | nil | yes | no => exact absurd heq.symm (word_ne_signedDigits (by decide) _ _)
      | int j => rw [Int64.toInt_inj.mp (signedDigits_inj.mp heq)]
      | atom hname => exact absurd heq.symm (hname.not_signedDigits _)
  | atom hname =>
      cases h' with
      | nil | yes | no => exact absurd heq (hname.ne_reserved (by decide))
      | int j => exact absurd heq (hname.not_signedDigits _)
      | atom hname' => rw [heq]

/-- Only the atom is printed as `bert`. -/
theorem isBert_of_printed {d : Data F} (hd : Evident d) (h : printed d = .token (cString "bert")) :
    d.isBert = true := by
  have hprinted := Printed.of_token hd h
  generalize hsymbols : cString "bert" = symbols at hprinted
  cases hprinted with
  | nil | yes | no => exact absurd hsymbols (by decide)
  | int i => exact absurd hsymbols (word_ne_signedDigits (by decide) _ _)
  | atom hname => simp [Data.isBert, hsymbols]

/-- A tuple that is printed like a complex term opens with the atom `bert`. -/
theorem not_bert_first {elements : List (Option (Data F))} (h : Evident (.tuple elements))
    {items : List (Layout UInt8 Bracket Quote)} :
    printedSlots elements ≠ .token (cString "bert") :: items := by
  intro heq
  cases elements with
  | nil => cases heq
  | cons slot rest =>
      cases slot with
      | none => exact h.2.1.elim
      | some first =>
          have hfirst := isBert_of_printed h.2.1 (List.cons.inj heq).1
          rw [h.1 first rfl] at hfirst
          cases hfirst

mutual

theorem printed_inj :
    ∀ d d' : Data F, Evident d → Evident d' → printed d = printed d' → d = d'
  | .nil, d', hd, hd', heq | .boolean _, d', hd, hd', heq | .int _, d', hd, hd', heq |
    .atom _, d', hd, hd', heq =>
      (Printed.of_token hd rfl).inj (Printed.of_token hd' heq.symm) rfl
  | .string text, d', hd, hd', heq => by
      cases d' with
      | string text' =>
          rw [flatMap_stringChar_inj hd.2 hd'.2 (Layout.quoted.inj heq).2]
      | _ => cases heq
  | .bin data, d', hd, hd', heq => by
      cases d' with
      | bin data' => rw [flatMap_binaryChar_inj hd.2 hd'.2 (Layout.quoted.inj heq).2]
      | _ => cases heq
  | .time time, d', hd, hd', heq => by
      cases d' with
      | time time' =>
          simp only [printed, Layout.group.injEq, List.cons.injEq, Layout.token.injEq] at heq
          rw [printedTime_inj hd hd' (unsignedDigits_inj.mp heq.2.2.2.2.1)]
      | tuple elements => exact (not_bert_first hd' (Layout.group.inj heq).2.symm).elim
      | dict entries => exact absurd heq (by simp [printed])
      | _ => cases heq
  | .tuple elements, d', hd, hd', heq => by
      cases d' with
      | tuple elements' =>
          rw [printedSlots_inj elements elements' hd.2 hd'.2 (Layout.group.inj heq).2]
      | time time => exact (not_bert_first hd (Layout.group.inj heq).2).elim
      | dict entries => exact (not_bert_first hd (Layout.group.inj heq).2).elim
      | _ => cases heq
  | .list entries, d', hd, hd', heq => by
      cases d' with
      | list entries' => rw [printedList_inj entries entries' hd hd' (Layout.group.inj heq).2]
      | _ => cases heq
  | .dict entries, d', hd, hd', heq => by
      cases d' with
      | dict entries' =>
          simp only [printed, Layout.group.injEq, List.cons.injEq, true_and, and_true] at heq
          rw [printedPairs_inj entries entries' hd hd' heq]
      | tuple elements => exact (not_bert_first hd' (Layout.group.inj heq).2.symm).elim
      | time time => exact absurd heq (by simp [printed])
      | _ => cases heq
  | .none, _, hd, _, _ | .float _, _, hd, _, _ | .regex _ _, _, hd, _, _ => hd.elim

theorem printedPointer_inj :
    ∀ slot slot' : Option (Data F), EvidentPointer slot → EvidentPointer slot' →
      printedPointer slot = printedPointer slot' → slot = slot'
  | none, _, h, _, _ => h.elim
  | some _, none, _, h, _ => h.elim
  | some d, some d', h, h', heq => congrArg some (printed_inj d d' h h' heq)

theorem printedSlots_inj :
    ∀ elements elements' : List (Option (Data F)), EvidentSlots elements →
      EvidentSlots elements' → printedSlots elements = printedSlots elements' →
        elements = elements'
  | [], [], _, _, _ => rfl
  | [], _ :: _, _, _, heq => by cases heq
  | _ :: _, [], _, _, heq => by cases heq
  | slot :: rest, slot' :: rest', h, h', heq => by
      obtain ⟨hslot, hrest⟩ := List.cons.inj heq
      rw [printedPointer_inj slot slot' h.1 h'.1 hslot, printedSlots_inj rest rest' h.2 h'.2 hrest]

theorem printedList_inj :
    ∀ entries entries' : List (Data F), EvidentList entries → EvidentList entries' →
      printedList entries = printedList entries' → entries = entries'
  | [], [], _, _, _ => rfl
  | [], _ :: _, _, _, heq => by cases heq
  | _ :: _, [], _, _, heq => by cases heq
  | d :: rest, d' :: rest', h, h', heq => by
      obtain ⟨hd, hrest⟩ := List.cons.inj heq
      rw [printed_inj d d' h.1 h'.1 hd, printedList_inj rest rest' h.2 h'.2 hrest]

theorem printedPairs_inj :
    ∀ entries entries' : List (Option (Data F) × Option (Data F)), EvidentPairs entries →
      EvidentPairs entries' → printedPairs entries = printedPairs entries' → entries = entries'
  | [], [], _, _, _ => rfl
  | [], _ :: _, _, _, heq => by cases heq
  | _ :: _, [], _, _, heq => by cases heq
  | (key, value) :: rest, (key', value') :: rest', h, h', heq => by
      simp only [printedPairs, List.cons.injEq, Layout.group.injEq, true_and, and_true] at heq
      obtain ⟨⟨hkey, hvalue⟩, hrest⟩ := heq
      rw [printedPointer_inj key key' h.1 h'.1 hkey,
        printedPointer_inj value value' h.2.1 h'.2.1 hvalue,
        printedPairs_inj rest rest' h.2.2 h'.2.2 hrest]

end

/-! ## The text is that of the layout -/

theorem commas_append_closing (bracket : Bracket) (items : List (Layout UInt8 Bracket Quote)) :
    commas (items.map printMarks.text) ++ [printMarks.closing bracket] =
      printMarks.itemsText bracket items := by
  have htail (item : Layout UInt8 Bracket Quote) (items : List (Layout UInt8 Bracket Quote)) :
      commas ((item :: items).map printMarks.text) ++ [printMarks.closing bracket] =
        printMarks.text item ++ printMarks.tailText bracket items := by
    induction items generalizing item with
    | nil => simp [Marks.tailText]
    | cons next items ih =>
        have hrest := ih next
        rw [List.map_cons] at hrest
        rw [List.map_cons, List.map_cons, commas_cons_cons, List.append_assoc, List.append_assoc,
          hrest, Marks.tailText]
        rfl
  cases items with
  | nil => simp [Marks.itemsText]
  | cons item items => exact htail item items

variable [Printf F]

mutual

theorem text_printed : ∀ d : Data F, Evident d → termText d = printMarks.text (printed d)
  | .nil, _ | .boolean _, _ | .int _, _ | .string _, _ | .bin _, _ => rfl
  | .time time, _ => by
      rw [termText, List.append_assoc, List.append_assoc, List.append_assoc]
      rfl
  | .atom name, h => by
      have hname : ∀ c ∈ name, decide (c ≠ 0) = true := fun c hc ↦ decide_eq_true (h.token c hc).2
      rw [termText, cName, List.takeWhile_eq_self_iff.mpr hname, printed, Marks.text]
  | .tuple elements, h => by
      rw [termText, texts_printedSlots elements h.2, printed, Marks.text,
        ← commas_append_closing]
      rfl
  | .list entries, h => by
      rw [termText, texts_printedList entries h, printed, Marks.text, ← commas_append_closing]
      rfl
  | .dict entries, h => by
      have hclosing : commas (pairTexts entries) ++ cString "]\x7d" =
          printMarks.itemsText .square (printedPairs entries) ++ [printMarks.closing .brace] := by
        rw [texts_printedPairs entries h, ← commas_append_closing, List.append_assoc]
        rfl
      rw [termText, hclosing]
      rfl

theorem text_printedPointer :
    ∀ slot : Option (Data F), EvidentPointer slot →
      pointerText slot = printMarks.text (printedPointer slot)
  | none, h => h.elim
  | some d, h => text_printed d h

theorem texts_printedSlots :
    ∀ elements : List (Option (Data F)), EvidentSlots elements →
      slotTexts elements = (printedSlots elements).map printMarks.text
  | [], _ => rfl
  | slot :: rest, h => by
      rw [slotTexts, text_printedPointer slot h.1, texts_printedSlots rest h.2, printedSlots,
        List.map_cons]

theorem texts_printedList :
    ∀ entries : List (Data F), EvidentList entries →
      listTexts entries = (printedList entries).map printMarks.text
  | [], _ => rfl
  | d :: rest, h => by
      rw [listTexts, text_printed d h.1, texts_printedList rest h.2, printedList, List.map_cons]

theorem texts_printedPairs :
    ∀ entries : List (Option (Data F) × Option (Data F)), EvidentPairs entries →
      pairTexts entries = (printedPairs entries).map printMarks.text
  | [], _ => rfl
  | (key, value) :: rest, h => by
      rw [pairTexts, text_printedPointer key h.1, text_printedPointer value h.2.1,
        texts_printedPairs rest h.2.2, printedPairs, List.map_cons]
      rfl

end

/-! ## What is dumped tells what was pulled -/

variable [Platform F]

/-- A binary that holds the text between two others is printed like them. -/
example : termText (.list [.bin (cString ">>, <<")] : Data Empty) =
    termText (.list [.bin [], .bin []] : Data Empty) := by decide

end LibBert
