import LibBert.Bytes.Format
import LibBert.Encoder.Encoding
import LibBert.Reading.Program
import LibBert.Util

/-!
# Printing terms

The `bert_print` functions of `programs/dump.c` as functions of what has been written to
the two streams.  A run is stuck where the code follows a `NULL` pointer.
-/

namespace LibBert

open Reading Bytes

variable {F : Type}

/-! ## The console -/

/-- What has been written to `stdout` and `stderr`. -/
structure Console : Type where
  stdout : List UInt8
  stderr : List UInt8

namespace Console

def print (console : Console) (text : List UInt8) : Console :=
  { console with stdout := console.stdout ++ text }

def complain (console : Console) (text : List UInt8) : Console :=
  { console with stderr := console.stderr ++ text }

@[simp] theorem print_nil (console : Console) : console.print [] = console := by
  rw [print, List.append_nil]

@[simp] theorem print_print (console : Console) (text text' : List UInt8) :
    (console.print text).print text' = console.print (text ++ text') := by
  rw [print, print, print, List.append_assoc]

end Console

/-- A function that prints and returns an `int`. -/
abbrev Print := Console → Outcome Console Code

namespace Print

def text (text : List UInt8) : Print := fun console ↦ .done 0 (console.print text)

/-- `if (first == -1) { return -1; }`, then the rest. -/
def andThen (first next : Print) : Print := fun console ↦
  (first console).bind fun result console ↦
    if result = -1 then .done (-1) console else next console

theorem text_andThen (text : List UInt8) (next : Print) (console : Console) :
    (Print.text text).andThen next console = next (console.print text) := rfl

theorem exists_of_andThen {first next : Print} {console console' : Console} {result : Code}
    (h : first.andThen next console = .done result console') (hresult : result ≠ -1) :
    ∃ result₁ console₁, first console = .done result₁ console₁ ∧ result₁ ≠ -1 ∧
      next console₁ = .done result console' := by
  obtain ⟨result₁, console₁, hfirst, hnext⟩ := Outcome.bind_eq_done_iff.mp h
  split_ifs at hnext with hstops
  · cases hnext
    exact absurd rfl hresult
  · exact ⟨result₁, console₁, hfirst, hstops, hnext⟩

theorem andThen_of_done {first : Print} {console console' : Console}
    (h : first console = .done 0 console') (next : Print) :
    first.andThen next console = next console' := by
  rw [andThen, h]
  rfl

end Print

/-! ## Characters -/

/-- `isprint` in the C locale, which is false for a negative `char`. -/
def isprint (c : UInt8) : Bool := 32 ≤ c && c ≤ 126

/-- A character of a string; a `char` is signed and extended to the `unsigned int` that
`%.2x` takes. -/
def stringChar (c : UInt8) : List UInt8 :=
  if isprint c then [c] else cString "\\x" ++ hexDigits c.toInt8.toInt32.toUInt32.toNat

/-- A byte of a binary, an `unsigned char`. -/
def binaryChar (b : UInt8) : List UInt8 :=
  if isprint b then [b] else cString "\\x" ++ hexDigits b.toNat

example : stringChar 200 = cString "\\xffffffc8" := by decide

/-! ## Terms -/

/-- What the code uses of `printf("%15.15lf",d)`: the characters written. -/
class Printf (F : Type) where
  printf : F → List UInt8

instance : Printf Empty where
  printf := Empty.elim

def bertPrintString (text : List UInt8) : Print :=
  .text (cString "\"" ++ text.flatMap stringChar ++ cString "\"")

def bertPrintBinary (data : List UInt8) : Print :=
  .text (cString "<<" ++ data.flatMap binaryChar ++ cString ">>")

/-- `(unsigned int)data->time`. -/
def printedTime (time : Int64) : ℕ := time.toUInt64.toUInt32.toNat

/-- The cast binds closer than the division. -/
def bertPrintTime (time : Int64) : Print :=
  .text (cString "\x7bbert, time, " ++ unsignedDigits (printedTime time / 1000000) ++
    cString ", " ++ unsignedDigits (printedTime time) ++ cString ", 0\x7d")

/-- The loop of `bert_print_regex` over the bits of `options`; a bit is followed by a
comma where bits are left, whether or not they have names. -/
def optionsText : ℕ → UInt32 → UInt32 → List UInt8
  | 0, _, _ => []
  | fuel + 1, options, bitIndex =>
      if options = 0 then []
      else
        let mask := (options &&& 0x01) <<< bitIndex
        let rest := optionsText fuel (options >>> 1) (bitIndex + 1)
        match if mask ≠ 0 then bertRegexOptname mask else none with
        | some name => name ++ (if options >>> 1 ≠ 0 then cString ", " else []) ++ rest
        | none => rest

/-- The walk over the bits ends before the 32nd. -/
theorem optionsText_fuel {fuel : ℕ} {options : UInt32} (h : options.toNat < 2 ^ fuel)
    (bitIndex : UInt32) :
    optionsText (fuel + 1) options bitIndex = optionsText fuel options bitIndex := by
  induction fuel generalizing options bitIndex with
  | zero =>
      have hzero : options = 0 := by
        rw [← UInt32.toNat_inj]
        simpa using h
      simp [optionsText, hzero]
  | succ fuel ih =>
      have hshift : (options >>> 1).toNat < 2 ^ fuel := by
        rw [UInt32.toNat_shiftRight, show UInt32.toNat 1 % 32 = 1 from rfl, Nat.shiftRight_succ,
          Nat.shiftRight_zero]
        omega
      rw [optionsText, ih hshift, optionsText]

/-- `%s` ends at the first zero byte of the source. -/
def bertPrintRegex (source : List UInt8) (options : UInt32) : Print :=
  .text (cString "\x7bbert, regex, <<" ++ cName source ++ cString ">>, [" ++
    optionsText 32 options 0 ++ cString "]\x7d")

/-- `bert_data_none` is type 0. -/
def unknownType : List UInt8 := cString "bert_dump: unknown bert data type 0\n"

/-! ## What can be printed -/

mutual

/-- No part of the term is of no type and no pointer below it is `NULL`. -/
def Printable : Data F → Prop
  | .none => False
  | .tuple elements => PrintableSlots elements
  | .list entries => PrintableList entries
  | .dict entries => PrintablePairs entries
  | _ => True

def PrintablePointer : Option (Data F) → Prop
  | none => False
  | some d => Printable d

def PrintableSlots : List (Option (Data F)) → Prop
  | [] => True
  | slot :: rest => PrintablePointer slot ∧ PrintableSlots rest

def PrintableList : List (Data F) → Prop
  | [] => True
  | d :: rest => Printable d ∧ PrintableList rest

def PrintablePairs : List (Option (Data F) × Option (Data F)) → Prop
  | [] => True
  | (key, value) :: rest => PrintablePointer key ∧ PrintablePointer value ∧ PrintablePairs rest

end

mutual

/-- What can be pushed can be printed. -/
theorem printable_of_encodable : ∀ d : Data F, Encodable d → Printable d
  | .none, h => h.elim
  | .tuple elements, h => printableSlots_of_encodable elements h.2
  | .list entries, h => printableList_of_encodable entries h
  | .dict entries, h => printablePairs_of_encodable entries h
  | .nil, _ | .boolean _, _ | .int _, _ | .float _, _ | .atom _, _ | .string _, _ | .bin _, _ |
    .time _, _ | .regex _ _, _ => trivial

theorem printableSlots_of_encodable :
    ∀ elements : List (Option (Data F)), EncodableSlots elements → PrintableSlots elements
  | [], _ => trivial
  | none :: _, h => h.elim
  | some d :: rest, h => ⟨printable_of_encodable d h.1, printableSlots_of_encodable rest h.2⟩

theorem printableList_of_encodable :
    ∀ entries : List (Data F), EncodableList entries → PrintableList entries
  | [], _ => trivial
  | d :: rest, h => ⟨printable_of_encodable d h.1, printableList_of_encodable rest h.2⟩

theorem printablePairs_of_encodable :
    ∀ entries : List (Option (Data F) × Option (Data F)), EncodablePairs entries →
      PrintablePairs entries
  | [], _ => trivial
  | (none, _) :: _, h => h.elim
  | (some _, none) :: _, h => h.elim
  | (some key, some value) :: rest, h =>
      ⟨printable_of_encodable key h.1, printable_of_encodable value h.2.1,
        printablePairs_of_encodable rest h.2.2⟩

end

/-! ## The print functions -/

variable [Printf F]

mutual

def bertPrint : Data F → Print
  | .none => fun console ↦ .done (-1) (console.complain unknownType)
  | .nil => .text (cString "nil")
  | .boolean boolean => .text (if boolean ≠ 0 then cString "true" else cString "false")
  | .int integer => .text (signedDigits integer.toInt)
  | .float floatingPoint => .text (Printf.printf floatingPoint)
  | .atom name => .text (cName name)
  | .string text => bertPrintString text
  | .bin data => bertPrintBinary data
  | .time time => bertPrintTime time
  | .regex source options => bertPrintRegex source options
  | .tuple elements =>
      (Print.text (cString "\x7b")).andThen
        ((printElements elements).andThen (.text (cString "\x7d")))
  | .list entries =>
      (Print.text (cString "[")).andThen ((printNodes entries).andThen (.text (cString "]")))
  | .dict entries =>
      (Print.text (cString "\x7bbert, dict, [")).andThen
        ((printPairs entries).andThen (.text (cString "]\x7d")))

/-- `bert_print` of a pointer; of `NULL` it reads the type. -/
def printPointer : Option (Data F) → Print
  | none => .stuck
  | some d => bertPrint d

/-- The elements of a tuple, all but the last with a comma behind them. -/
def printElements : List (Option (Data F)) → Print
  | [] => .text []
  | [slot] => printPointer slot
  | slot :: next :: rest =>
      (printPointer slot).andThen
        ((Print.text (cString ", ")).andThen (printElements (next :: rest)))

/-- The nodes of a list, with a comma behind those that have a next one. -/
def printNodes : List (Data F) → Print
  | [] => .text []
  | [d] => bertPrint d
  | d :: next :: rest =>
      (bertPrint d).andThen ((Print.text (cString ", ")).andThen (printNodes (next :: rest)))

/-- The nodes of a dictionary. -/
def printPairs : List (Option (Data F) × Option (Data F)) → Print
  | [] => .text []
  | (key, value) :: rest =>
      (Print.text (cString "\x7b")).andThen ((printPointer key).andThen
        ((Print.text (cString ", ")).andThen ((printPointer value).andThen
          ((Print.text (cString "\x7d")).andThen
            ((Print.text (if rest.isEmpty then [] else cString ", ")).andThen
              (printPairs rest))))))

end

/-! ## What is printed -/

/-- With a comma between any two. -/
def commas (texts : List (List UInt8)) : List UInt8 := (cString ", ").intercalate texts

@[simp] theorem commas_nil : commas [] = [] := rfl

@[simp] theorem commas_singleton (text : List UInt8) : commas [text] = text := by
  simp [commas, List.intercalate]

@[simp] theorem commas_cons_cons (text text' : List UInt8) (texts : List (List UInt8)) :
    commas (text :: text' :: texts) = text ++ (cString ", " ++ commas (text' :: texts)) := by
  simp [commas, List.intercalate]

mutual

/-- The text of a term. -/
def termText : Data F → List UInt8
  | .none => []
  | .nil => cString "nil"
  | .boolean boolean => if boolean ≠ 0 then cString "true" else cString "false"
  | .int integer => signedDigits integer.toInt
  | .float floatingPoint => Printf.printf floatingPoint
  | .atom name => cName name
  | .string text => cString "\"" ++ text.flatMap stringChar ++ cString "\""
  | .bin data => cString "<<" ++ data.flatMap binaryChar ++ cString ">>"
  | .time time => cString "\x7bbert, time, " ++ unsignedDigits (printedTime time / 1000000) ++
      cString ", " ++ unsignedDigits (printedTime time) ++ cString ", 0\x7d"
  | .regex source options => cString "\x7bbert, regex, <<" ++ cName source ++ cString ">>, [" ++
      optionsText 32 options 0 ++ cString "]\x7d"
  | .tuple elements => cString "\x7b" ++ (commas (slotTexts elements) ++ cString "\x7d")
  | .list entries => cString "[" ++ (commas (listTexts entries) ++ cString "]")
  | .dict entries => cString "\x7bbert, dict, [" ++ (commas (pairTexts entries) ++ cString "]\x7d")

def pointerText : Option (Data F) → List UInt8
  | none => []
  | some d => termText d

def slotTexts : List (Option (Data F)) → List (List UInt8)
  | [] => []
  | slot :: rest => pointerText slot :: slotTexts rest

def listTexts : List (Data F) → List (List UInt8)
  | [] => []
  | d :: rest => termText d :: listTexts rest

def pairTexts : List (Option (Data F) × Option (Data F)) → List (List UInt8)
  | [] => []
  | (key, value) :: rest =>
      (cString "\x7b" ++ (pointerText key ++ (cString ", " ++
        (pointerText value ++ cString "\x7d")))) :: pairTexts rest

end

mutual

theorem bertPrint_of_printable :
    ∀ (d : Data F), Printable d → ∀ console : Console,
      bertPrint d console = .done 0 (console.print (termText d))
  | .none, h, _ => h.elim
  | .tuple elements, h, console => by
      rw [bertPrint, Print.text_andThen,
        Print.andThen_of_done (printElements_of_printable elements h _), Print.text,
        Console.print_print, Console.print_print, termText]
  | .list entries, h, console => by
      rw [bertPrint, Print.text_andThen,
        Print.andThen_of_done (printNodes_of_printable entries h _), Print.text,
        Console.print_print, Console.print_print, termText]
  | .dict entries, h, console => by
      rw [bertPrint, Print.text_andThen,
        Print.andThen_of_done (printPairs_of_printable entries h _), Print.text,
        Console.print_print, Console.print_print, termText]
  | .nil, _, _ | .boolean _, _, _ | .int _, _, _ | .float _, _, _ | .atom _, _, _ |
    .string _, _, _ | .bin _, _, _ | .time _, _, _ | .regex _ _, _, _ => rfl

theorem printPointer_of_printable :
    ∀ (slot : Option (Data F)), PrintablePointer slot → ∀ console : Console,
      printPointer slot console = .done 0 (console.print (pointerText slot))
  | none, h, _ => h.elim
  | some d, h, console => bertPrint_of_printable d h console

theorem printElements_of_printable :
    ∀ (elements : List (Option (Data F))), PrintableSlots elements → ∀ console : Console,
      printElements elements console = .done 0 (console.print (commas (slotTexts elements)))
  | [], _, console => by rw [printElements, Print.text, slotTexts, commas_nil]
  | [slot], h, console => by
      rw [printElements, printPointer_of_printable slot h.1, slotTexts, slotTexts, commas_singleton]
  | slot :: next :: rest, h, console => by
      rw [printElements, Print.andThen_of_done (printPointer_of_printable slot h.1 _),
        Print.text_andThen, printElements_of_printable (next :: rest) h.2]
      simp [slotTexts]

theorem printNodes_of_printable :
    ∀ (entries : List (Data F)), PrintableList entries → ∀ console : Console,
      printNodes entries console = .done 0 (console.print (commas (listTexts entries)))
  | [], _, console => by rw [printNodes, Print.text, listTexts, commas_nil]
  | [d], h, console => by
      rw [printNodes, bertPrint_of_printable d h.1, listTexts, listTexts, commas_singleton]
  | d :: next :: rest, h, console => by
      rw [printNodes, Print.andThen_of_done (bertPrint_of_printable d h.1 _),
        Print.text_andThen, printNodes_of_printable (next :: rest) h.2]
      simp [listTexts]

theorem printPairs_of_printable :
    ∀ (entries : List (Option (Data F) × Option (Data F))), PrintablePairs entries →
      ∀ console : Console,
        printPairs entries console = .done 0 (console.print (commas (pairTexts entries)))
  | [], _, console => by rw [printPairs, Print.text, pairTexts, commas_nil]
  | (key, value) :: rest, h, console => by
      rw [printPairs, Print.text_andThen,
        Print.andThen_of_done (printPointer_of_printable key h.1 _), Print.text_andThen,
        Print.andThen_of_done (printPointer_of_printable value h.2.1 _), Print.text_andThen,
        Print.text_andThen, printPairs_of_printable rest h.2.2]
      cases rest with
      | nil => simp [pairTexts]
      | cons next rest => simp [pairTexts]

end

mutual

/-- A term is printed to its end only where every part of it can be. -/
theorem printable_of_bertPrint :
    ∀ (d : Data F) {console console' : Console} {result : Code},
      bertPrint d console = .done result console' → result ≠ -1 → Printable d
  | .none, _, _, _, h, hresult => by
      cases h
      exact absurd rfl hresult
  | .tuple elements, _, _, _, h, hresult => by
      obtain ⟨_, _, -, -, hrest⟩ := Print.exists_of_andThen h hresult
      obtain ⟨_, _, helements, hresult, -⟩ := Print.exists_of_andThen hrest hresult
      exact printableSlots_of_printElements elements helements hresult
  | .list entries, _, _, _, h, hresult => by
      obtain ⟨_, _, -, -, hrest⟩ := Print.exists_of_andThen h hresult
      obtain ⟨_, _, hentries, hresult, -⟩ := Print.exists_of_andThen hrest hresult
      exact printableList_of_printNodes entries hentries hresult
  | .dict entries, _, _, _, h, hresult => by
      obtain ⟨_, _, -, -, hrest⟩ := Print.exists_of_andThen h hresult
      obtain ⟨_, _, hentries, hresult, -⟩ := Print.exists_of_andThen hrest hresult
      exact printablePairs_of_printPairs entries hentries hresult
  | .nil, _, _, _, _, _ | .boolean _, _, _, _, _, _ | .int _, _, _, _, _, _ |
    .float _, _, _, _, _, _ | .atom _, _, _, _, _, _ | .string _, _, _, _, _, _ |
    .bin _, _, _, _, _, _ | .time _, _, _, _, _, _ | .regex _ _, _, _, _, _, _ => trivial

theorem printablePointer_of_printPointer :
    ∀ (slot : Option (Data F)) {console console' : Console} {result : Code},
      printPointer slot console = .done result console' → result ≠ -1 → PrintablePointer slot
  | none, _, _, _, h, _ => by cases h
  | some d, _, _, _, h, hresult => printable_of_bertPrint d h hresult

theorem printableSlots_of_printElements :
    ∀ (elements : List (Option (Data F))) {console console' : Console} {result : Code},
      printElements elements console = .done result console' → result ≠ -1 →
        PrintableSlots elements
  | [], _, _, _, _, _ => trivial
  | [slot], _, _, _, h, hresult => ⟨printablePointer_of_printPointer slot h hresult, trivial⟩
  | slot :: next :: rest, _, _, _, h, hresult => by
      obtain ⟨_, _, hslot, hstops, hcomma⟩ := Print.exists_of_andThen h hresult
      obtain ⟨_, _, -, -, hrest⟩ := Print.exists_of_andThen hcomma hresult
      exact ⟨printablePointer_of_printPointer slot hslot hstops,
        printableSlots_of_printElements (next :: rest) hrest hresult⟩

theorem printableList_of_printNodes :
    ∀ (entries : List (Data F)) {console console' : Console} {result : Code},
      printNodes entries console = .done result console' → result ≠ -1 → PrintableList entries
  | [], _, _, _, _, _ => trivial
  | [d], _, _, _, h, hresult => ⟨printable_of_bertPrint d h hresult, trivial⟩
  | d :: next :: rest, _, _, _, h, hresult => by
      obtain ⟨_, _, hd, hstops, hcomma⟩ := Print.exists_of_andThen h hresult
      obtain ⟨_, _, -, -, hrest⟩ := Print.exists_of_andThen hcomma hresult
      exact ⟨printable_of_bertPrint d hd hstops,
        printableList_of_printNodes (next :: rest) hrest hresult⟩

theorem printablePairs_of_printPairs :
    ∀ (entries : List (Option (Data F) × Option (Data F))) {console console' : Console}
      {result : Code}, printPairs entries console = .done result console' → result ≠ -1 →
        PrintablePairs entries
  | [], _, _, _, _, _ => trivial
  | (key, value) :: rest, _, _, _, h, hresult => by
      obtain ⟨_, _, -, -, h⟩ := Print.exists_of_andThen h hresult
      obtain ⟨_, _, hkey, hkeyStops, h⟩ := Print.exists_of_andThen h hresult
      obtain ⟨_, _, -, -, h⟩ := Print.exists_of_andThen h hresult
      obtain ⟨_, _, hvalue, hvalueStops, h⟩ := Print.exists_of_andThen h hresult
      obtain ⟨_, _, -, -, h⟩ := Print.exists_of_andThen h hresult
      obtain ⟨_, _, -, -, h⟩ := Print.exists_of_andThen h hresult
      exact ⟨printablePointer_of_printPointer key hkey hkeyStops,
        printablePointer_of_printPointer value hvalue hvalueStops,
        printablePairs_of_printPairs rest h hresult⟩

end

/-- A term is printed to its end exactly when every part of it can be, whatever has been
written before. -/
theorem bertPrint_done_iff (d : Data F) (console console' : Console) :
    bertPrint d console = .done 0 console' ↔
      Printable d ∧ console' = console.print (termText d) := by
  constructor
  · intro h
    have hprintable := printable_of_bertPrint d h (by decide)
    have hprinted := bertPrint_of_printable d hprintable console
    rw [h] at hprinted
    cases hprinted
    exact ⟨hprintable, rfl⟩
  · rintro ⟨hprintable, rfl⟩
    exact bertPrint_of_printable d hprintable console

end LibBert
