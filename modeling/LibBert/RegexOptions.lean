import LibBert.Decoder.Overrun
import LibBert.Decoder.Refinement
import LibBert.Wire.Encoded
import Mathlib.Data.List.TakeWhile

/-!
# The options of a regular expression

What `bert_decode_regex` makes of a list of options, beside the word that the
names of the options stand for.  The two differ where the list is empty, for the
options whose table entry or comparison has a slip, and for atoms that only start
like an option name.
-/

namespace LibBert

open Reading Bytes

variable {F σ : Type}

/-! ## Words as unions of masks -/

/-- Words are equal when they meet the same masks. -/
theorem eq_of_forall_and_ne_zero {x y : UInt32} (h : ∀ b, x &&& b ≠ 0 ↔ y &&& b ≠ 0) : x = y := by
  have hx : x &&& ~~~y = 0 := by
    by_contra hne
    exact (h _).mp hne (by simp)
  have hy : y &&& ~~~x = 0 := by
    by_contra hne
    exact (h _).mpr hne (by simp)
  rw [← UInt32.toBitVec_inj] at hx hy ⊢
  apply BitVec.eq_of_getLsbD_eq
  intro i hi
  have hxi := congrArg (fun v ↦ v.getLsbD i) hx
  have hyi := congrArg (fun v ↦ v.getLsbD i) hy
  simp [hi] at hxi hyi
  cases hbx : x.toBitVec.getLsbD i <;> cases hby : y.toBitVec.getLsbD i <;> simp_all

theorem ne_zero_of_and_ne_zero {x b : UInt32} (h : x &&& b ≠ 0) : x ≠ 0 := by
  rintro rfl
  exact h UInt32.zero_and

theorem or_and_ne_zero_iff (x y b : UInt32) : (x ||| y) &&& b ≠ 0 ↔ x &&& b ≠ 0 ∨ y &&& b ≠ 0 := by
  have hsplit : (x ||| y) &&& b = 0 ↔ x &&& b = 0 ∧ y &&& b = 0 := by
    simp only [← UInt32.toBitVec_inj, UInt32.toBitVec_and, UInt32.toBitVec_or, UInt32.toBitVec_zero,
      BitVec.and_or_distrib_right]
    exact BitVec.or_eq_zero_iff
  rw [Ne, hsplit, not_and_or]

/-- A union of masks meets what one of them meets. -/
theorem foldl_or_and_ne_zero_iff {α : Type} (mask : α → UInt32) (as : List α) (x b : UInt32) :
    (as.foldl (fun word a ↦ word ||| mask a) x) &&& b ≠ 0 ↔
      x &&& b ≠ 0 ∨ ∃ a ∈ as, mask a &&& b ≠ 0 := by
  induction as generalizing x with
  | nil => simp
  | cons a as ih =>
      rw [List.foldl_cons, ih, or_and_ne_zero_iff]
      simp [or_assoc]

/-! ## Options and what they name -/

/-- The second atom of a `newline` tuple. -/
inductive Newline : Type where
  | cr
  | lf
  | crlf
  | anycrlf
  | any
  deriving DecidableEq

namespace Newline

def name : Newline → List UInt8
  | cr => cString "cr"
  | lf => cString "lf"
  | crlf => cString "crlf"
  | anycrlf => cString "anycrlf"
  | any => cString "any"

/-- The constant of the same name. -/
def constant : Newline → UInt32
  | cr => bertRegexNewlineCr
  | lf => bertRegexNewlineLf
  | crlf => bertRegexNewlineCrlf
  | anycrlf => bertRegexNewlineAnycrlf
  | any => bertRegexNewlineAny

end Newline

/-- The option names, each with the constant of the same name. -/
def optionConstants : List (List UInt8 × UInt32) :=
  [(cString "unicode", bertRegexUnicode),
    (cString "anchored", bertRegexAnchored),
    (cString "caseless", bertRegexCaseless),
    (cString "dollar_endonly", bertRegexDollarEndonly),
    (cString "dotall", bertRegexDotall),
    (cString "extended", bertRegexExtended),
    (cString "firstline", bertRegexFirstline),
    (cString "multiline", bertRegexMultiline),
    (cString "no_auto_capture", bertRegexNoAutoCapture),
    (cString "dupnames", bertRegexDupnames),
    (cString "ungreedy", bertRegexUngreedy),
    (cString "bsr_any_crlf", bertRegexBsrAnycrlf),
    (cString "bsr_unicode", bertRegexBsrUnicode)]

/-- The entry of a table for a name, or zero. -/
def maskIn (table : List (List UInt8 × UInt32)) (name : List UInt8) : UInt32 :=
  match table.find? fun option ↦ name == option.1 with
  | some option => option.2
  | none => 0

/-- An option of a regular expression: an atom or a `newline` tuple. -/
inductive RegexTerm : Type where
  | atom (name : List UInt8)
  | newline (x : Newline)
  deriving DecidableEq

namespace RegexTerm

def data : RegexTerm → Data F
  | atom name => .atom name
  | newline x => .tuple [some (.atom (cString "newline")), some (.atom x.name)]

def wire : RegexTerm → Wire
  | atom name => .atom name
  | newline x => .tuple false 2 [.atom (cString "newline"), .atom x.name]

/-- The length field of an atom can say its length. -/
def Fits : RegexTerm → Prop
  | atom name => name.length < 2 ^ 16
  | newline _ => True

/-- The constant an option names, or zero. -/
def constant : RegexTerm → UInt32
  | atom name => maskIn optionConstants name
  | newline x => x.constant

/-- The mask the decoder adds for an option other than `{newline,lf}`. -/
def mask : RegexTerm → UInt32
  | atom name => bertRegexOptmask name
  | newline x => x.constant

end RegexTerm

/-! ## The table and the names -/

theorem mem_of_maskIn_ne_zero {table : List (List UInt8 × UInt32)} {name : List UInt8}
    (h : maskIn table name ≠ 0) : (name, maskIn table name) ∈ table := by
  unfold maskIn at h ⊢
  split at h
  next option hfind =>
    have hmem := List.mem_of_find?_eq_some hfind
    have hname := List.find?_some hfind
    rw [beq_iff_eq] at hname
    rwa [hname]
  · exact absurd rfl h

theorem bertRegexOptmask_eq (name : List UInt8) :
    bertRegexOptmask name = maskIn bertRegexOptions (cName name) := rfl

/-- The option whose mask the table has for a name. -/
def entryName (name : List UInt8) : List UInt8 :=
  if name = cString "dupnames" then cString "no_auto_capture" else name

theorem maskIn_bertRegexOptions :
    ∀ option ∈ optionConstants, option.1 ≠ cString "dupnames" →
      maskIn bertRegexOptions option.1 = option.2 := by
  decide

theorem maskIn_optionConstants :
    ∀ option ∈ bertRegexOptions, maskIn optionConstants (entryName option.1) = option.2 := by
  decide

/-- Masks of the table meet no constants but the one of their own entry. -/
theorem entryName_of_and_ne_zero :
    ∀ option ∈ bertRegexOptions, ∀ option' ∈ optionConstants,
      option'.2 &&& option.2 ≠ 0 → option'.1 = entryName option.1 := by
  decide

theorem newline_and_option :
    ∀ option ∈ bertRegexOptions, ∀ x : Newline, x.constant &&& option.2 = 0 := by
  intro option h x
  revert option
  cases x <;> decide

theorem newline_and_dupnames (x : Newline) : x.constant &&& bertRegexDupnames = 0 := by
  cases x <;> decide

theorem option_and_dupnames : ∀ option ∈ bertRegexOptions, option.2 &&& bertRegexDupnames = 0 := by
  decide

theorem zero_notMem_of_constant : ∀ option ∈ optionConstants, 0 ∉ option.1 := by
  decide

theorem maskIn_ne_zero :
    ∀ name ∈ optionConstants.map Prod.fst, maskIn bertRegexOptions name ≠ 0 := by
  decide

theorem mem_names_of_mem_options :
    ∀ option ∈ bertRegexOptions, option.1 ∈ optionConstants.map Prod.fst := by
  decide

theorem cName_of_notMem {name : List UInt8} (h : 0 ∉ name) : cName name = name := by
  rw [cName, List.takeWhile_eq_self_iff]
  intro byte hbyte
  exact decide_eq_true fun hzero ↦ h (hzero ▸ hbyte)

/-! ## The word of a list of options -/

/-- The union of the constants the options name. -/
def namedWord (opts : List RegexTerm) : UInt32 := opts.foldl (fun word o ↦ word ||| o.constant) 0

/-- An atom that is an option name up to a zero byte comes with the option that the
table has for this name. -/
def NamesCovered (opts : List RegexTerm) : Prop :=
  ∀ name, .atom name ∈ opts → 0 ∈ name → cName name ∈ optionConstants.map Prod.fst →
    .atom (entryName (cName name)) ∈ opts

namespace RegexTerm

/-- An option other than `dupnames` that names a constant adds just this. -/
theorem mask_of_constant_ne_zero {o : RegexTerm} (h : o.constant ≠ 0)
    (hdupnames : o ≠ .atom (cString "dupnames")) : o.mask = o.constant := by
  cases o with
  | atom name =>
      have hmem := mem_of_maskIn_ne_zero h
      have hname : name ≠ cString "dupnames" := fun hname ↦ hdupnames (hname ▸ rfl)
      have hzero := zero_notMem_of_constant _ hmem
      rw [mask, bertRegexOptmask_eq, cName_of_notMem hzero]
      exact maskIn_bertRegexOptions _ hmem hname
  | newline x => rfl

/-- The option a mask of the table belongs to. -/
theorem eq_atom_of_constant_and_ne_zero {o : RegexTerm} {name : List UInt8} {m : UInt32}
    (hm : (name, m) ∈ bertRegexOptions) (h : o.constant &&& m ≠ 0) :
    o = .atom (entryName name) := by
  cases o with
  | atom name' =>
      have hne : maskIn optionConstants name' ≠ 0 := ne_zero_of_and_ne_zero h
      exact congrArg atom (entryName_of_and_ne_zero _ hm _ (mem_of_maskIn_ne_zero hne) h)
  | newline x => exact absurd (newline_and_option _ hm x) h

theorem mask_and_dupnames (o : RegexTerm) : o.mask &&& bertRegexDupnames = 0 := by
  cases o with
  | atom name =>
      by_cases hzero : bertRegexOptmask name = 0
      · rw [mask, hzero, UInt32.zero_and]
      · exact option_and_dupnames _ (mem_of_maskIn_ne_zero hzero)
  | newline x => exact newline_and_dupnames x

end RegexTerm

theorem dupnames_notMem_of_words_eq {opts : List RegexTerm}
    (h : opts.foldl (fun word o ↦ word ||| o.mask) 0 = namedWord opts) :
    .atom (cString "dupnames") ∉ opts := by
  intro hmem
  have hmeets : namedWord opts &&& bertRegexDupnames ≠ 0 :=
    (foldl_or_and_ne_zero_iff _ _ _ _).mpr (.inr ⟨_, hmem, by decide⟩)
  rw [← h] at hmeets
  rcases (foldl_or_and_ne_zero_iff _ _ _ _).mp hmeets with hzero | ⟨o, -, ho⟩
  · exact ne_zero_of_and_ne_zero hzero rfl
  · exact ho o.mask_and_dupnames

theorem namesCovered_of_words_eq {opts : List RegexTerm}
    (h : opts.foldl (fun word o ↦ word ||| o.mask) 0 = namedWord opts) : NamesCovered opts := by
  intro name hmem _ hname
  have hne : bertRegexOptmask name ≠ 0 := maskIn_ne_zero _ hname
  have hmeets : namedWord opts &&& bertRegexOptmask name ≠ 0 := by
    rw [← h]
    refine (foldl_or_and_ne_zero_iff _ _ _ _).mpr (.inr ⟨_, hmem, ?_⟩)
    rwa [RegexTerm.mask, UInt32.and_self]
  rcases (foldl_or_and_ne_zero_iff _ _ _ _).mp hmeets with hzero | ⟨o, ho, hmeets⟩
  · exact absurd rfl (ne_zero_of_and_ne_zero hzero)
  · rwa [RegexTerm.eq_atom_of_constant_and_ne_zero (mem_of_maskIn_ne_zero hne) hmeets] at ho

/-- The masks of the options make up the word they name exactly when `dupnames` is
not among them and atoms that go on behind an option name are covered. -/
theorem words_eq_iff (opts : List RegexTerm) :
    opts.foldl (fun word o ↦ word ||| o.mask) 0 = namedWord opts ↔
      .atom (cString "dupnames") ∉ opts ∧ NamesCovered opts := by
  constructor
  · intro h
    exact ⟨dupnames_notMem_of_words_eq h, namesCovered_of_words_eq h⟩
  · rintro ⟨hdupnames, hcovered⟩
    apply eq_of_forall_and_ne_zero
    intro b
    rw [namedWord, foldl_or_and_ne_zero_iff, foldl_or_and_ne_zero_iff]
    refine or_congr_right ⟨?_, ?_⟩
    · rintro ⟨o, ho, hb⟩
      cases o with
      | newline x => exact ⟨_, ho, hb⟩
      | atom name =>
          have hne : bertRegexOptmask name ≠ 0 := ne_zero_of_and_ne_zero hb
          have hoption := mem_of_maskIn_ne_zero hne
          have hentry : .atom (entryName (cName name)) ∈ opts := by
            by_cases hzero : 0 ∈ name
            · exact hcovered name ho hzero (mem_names_of_mem_options _ hoption)
            · have hname : name ≠ cString "dupnames" := fun hname ↦ hdupnames (hname ▸ ho)
              rwa [cName_of_notMem hzero, entryName, if_neg hname]
          refine ⟨_, hentry, ?_⟩
          rwa [RegexTerm.constant, maskIn_optionConstants _ hoption]
    · rintro ⟨o, ho, hb⟩
      refine ⟨o, ho, ?_⟩
      have hne : o ≠ .atom (cString "dupnames") := fun heq ↦ hdupnames (heq ▸ ho)
      rwa [RegexTerm.mask_of_constant_ne_zero (ne_zero_of_and_ne_zero hb) hne]

/-! ## Decoding the options -/

/-- A list of options in its wire form. -/
def optionsWire (opts : List RegexTerm) : Wire :=
  if opts = [] then .nil else .list opts.length (opts.map RegexTerm.wire) bertNil

/-- The term that is pulled for it. -/
def optionsData (opts : List RegexTerm) : Data F :=
  if opts = [] then .nil else .list (opts.map RegexTerm.data)

theorem regexOption_data {o : RegexTerm} (h : o ≠ .newline .lf) :
    regexOption (o.data : Data F) = .mask o.mask := by
  cases o with
  | atom name => rfl
  | newline x => cases x <;> first | rfl | exact absurd rfl h

theorem regexOption_lf : regexOption (RegexTerm.data (.newline .lf) : Data F) = .invalid := rfl

/-- The loop adds all the masks, or gives up at the first `{newline,lf}`. -/
theorem regexOptions_data (opts : List RegexTerm) (word : UInt32) :
    regexOptions (opts.map RegexTerm.data : List (Data F)) word =
      if .newline .lf ∈ opts then .invalid
      else .mask (opts.foldl (fun word o ↦ word ||| o.mask) word) := by
  induction opts generalizing word with
  | nil => rfl
  | cons o opts ih =>
      rw [List.map_cons, regexOptions]
      by_cases hlf : o = .newline .lf
      · rw [hlf, regexOption_lf, if_pos List.mem_cons_self]
      · have hmem : .newline .lf ∈ o :: opts ↔ .newline .lf ∈ opts := by
          rw [List.mem_cons, or_iff_right (Ne.symm hlf)]
        simp only [regexOption_data hlf, ih, hmem, List.foldl_cons]

variable [Platform F]

theorem denote_regexTerm_wire {o : RegexTerm} (h : o.Fits) :
    o.wire.denote = some (o.data : Data F) := by
  cases o with
  | atom name => exact if_pos h
  | newline x => cases x <;> rfl

theorem denoteList_wires {opts : List RegexTerm} (h : ∀ o ∈ opts, o.Fits) :
    Wire.denoteList (opts.map RegexTerm.wire) = some (opts.map RegexTerm.data : List (Data F)) := by
  induction opts with
  | nil => rfl
  | cons o opts ih =>
      obtain ⟨ho, hrest⟩ := List.forall_mem_cons.mp h
      exact Wire.denoteList_cons_eq_some_iff.mpr ⟨_, _, denote_regexTerm_wire ho, ih hrest, rfl⟩

theorem denote_optionsWire {opts : List RegexTerm} (hlength : opts.length < 2 ^ 32)
    (h : ∀ o ∈ opts, o.Fits) : (optionsWire opts).denote = some (optionsData opts : Data F) := by
  unfold optionsWire optionsData
  split_ifs with hnil
  · rfl
  · rw [Wire.denote, if_pos ⟨List.length_map _, hlength⟩, denoteList_wires h]
    rfl

theorem heightList_wires (opts : List RegexTerm) :
    Wire.heightList (opts.map RegexTerm.wire) ≤ 1 := by
  induction opts with
  | nil => exact Nat.zero_le 1
  | cons o opts ih =>
      rw [List.map_cons, Wire.heightList]
      refine max_le ?_ ih
      cases o with
      | atom name => exact Nat.zero_le 1
      | newline x => exact Nat.le_refl 1

theorem height_optionsWire (opts : List RegexTerm) : (optionsWire opts).height ≤ 2 := by
  unfold optionsWire
  split_ifs
  · exact Nat.zero_le 2
  · exact Nat.succ_le_succ (heightList_wires opts)

section Decode

variable {R : BertReader σ} {pull : Decode F (Result F)} {s t : σ} {source : List UInt8}
  {opts : List RegexTerm}

omit [Platform F] in
/-- What the function returns for a binary and a list of options. -/
theorem run_decodeRegex (h : Yields R pull s [.bin source, optionsData opts] t) :
    run R (bertDecodeRegex pull) s =
      .done (if opts = [] ∨ .newline .lf ∈ opts then (bertErrnoInvalid, none)
        else (bertSuccess,
          some (.regex source (opts.foldl (fun word o ↦ word ||| o.mask) 0)))) t := by
  obtain ⟨u, hsource, h⟩ := yields_cons_iff.mp h
  obtain ⟨v, hopts, h⟩ := yields_cons_iff.mp h
  obtain rfl := yields_nil_iff.mp h
  rw [bertDecodeRegex, run_pullPart _ hsource]
  change run R (pullPart pull _) u = _
  rw [run_pullPart _ hopts]
  by_cases hnil : opts = []
  · rw [if_pos (.inl hnil), optionsData, if_pos hnil]
    rfl
  · have hlist : (optionsData opts : Data F) = .list (opts.map RegexTerm.data) := if_neg hnil
    simp only [hlist, regexOptions_data, hnil, false_or]
    by_cases hlf : .newline .lf ∈ opts
    · simp only [if_pos hlf]
      rfl
    · simp only [if_neg hlf]
      rfl

theorem yields_source_options {depth : ℕ} (hsource : source.length < 2 ^ 32 - 1)
    (hlength : opts.length < 2 ^ 32) (hfits : ∀ o ∈ opts, o.Fits) (hdepth : 3 ≤ depth)
    (h : Delivers R s ((Wire.bin source).chunks ++ (optionsWire opts).chunks) t) :
    Yields R (bertDecoderPull depth : Decode F _) s [.bin source, optionsData opts] t := by
  obtain ⟨u, hbin, hopts⟩ := delivers_append_iff.mp h
  have hheight := height_optionsWire opts
  have hbinHeight : (Wire.bin source).height < depth :=
    Nat.lt_of_lt_of_le (by decide : 0 < 3) hdepth
  exact .cons (run_bertDecoderPull_of_delivers hbinHeight (if_pos hsource) hbin)
    (.cons (run_bertDecoderPull_of_delivers (by omega) (denote_optionsWire hlength hfits) hopts)
      (.nil t))

/-- Nothing is wrong with the options. -/
def DecodesAsNamed (opts : List RegexTerm) : Prop :=
  opts ≠ [] ∧ .newline .lf ∉ opts ∧ .atom (cString "dupnames") ∉ opts ∧ NamesCovered opts

/-- The bytes of a binary and of a list of options are decoded to the regular
expression with the constants the options name exactly when the block of the binary
holds it, there are options, neither `{newline,lf}` nor `dupnames` is one of them, and
each atom that is an option name only up to a zero byte is covered by another one. -/
theorem regex_options_iff {depth : ℕ} (hsource : source.length < 2 ^ 32)
    (hlength : opts.length < 2 ^ 32) (hfits : ∀ o ∈ opts, o.Fits) (hdepth : 3 ≤ depth)
    (h : Delivers R s ((Wire.bin source).chunks ++ (optionsWire opts).chunks) t) :
    run R (bertDecodeRegex (bertDecoderPull depth)) s =
        .done ((bertSuccess, some (.regex source (namedWord opts))) : Result F) t ↔
      source.length < 2 ^ 32 - 1 ∧ DecodesAsNamed opts := by
  by_cases hroom : source.length < 2 ^ 32 - 1
  swap
  · refine iff_of_false (fun hdone ↦ ?_) fun hnamed ↦ hroom hnamed.1
    obtain ⟨u, hbin, -⟩ := delivers_append_iff.mp h
    have hlong : (Wire.bin source).Overlong F := .bin rfl (by omega)
    obtain ⟨v, hfault⟩ := hlong.run (Nat.zero_lt_of_lt hdepth) hbin
    rw [bertDecodeRegex, pullPart, run_bind, hfault] at hdone
    cases hdone
  rw [run_decodeRegex (yields_source_options hroom hlength hfits hdepth h), DecodesAsNamed,
    ← words_eq_iff, and_iff_right hroom]
  by_cases hinvalid : opts = [] ∨ .newline .lf ∈ opts
  · rw [if_pos hinvalid]
    refine iff_of_false ?_ ?_
    · intro hdone
      injection hdone with hresult
      exact absurd (Prod.ext_iff.mp hresult).1 (show bertErrnoInvalid ≠ bertSuccess by decide)
    · rintro ⟨hnil, hlf, -⟩
      exact hinvalid.elim hnil hlf
  · rw [if_neg hinvalid]
    rw [not_or] at hinvalid
    simp [hinvalid]

end Decode

theorem delivers_source_options (source : List UInt8) (opts : List RegexTerm) :
    Delivers plainReader ((Wire.bin source).bytes ++ (optionsWire opts).bytes)
      ((Wire.bin source).chunks ++ (optionsWire opts).chunks) [] :=
  plainReader_delivers_iff.mpr (by rw [List.append_nil, List.flatten_append]; rfl)

/-- The source `a` with the options `caseless` and `{newline,any}`. -/
theorem regex_options_iff_caseless :
    run plainReader (bertDecodeRegex (bertDecoderPull 3) : Decode Empty _)
        ((Wire.bin [97]).bytes ++
          (optionsWire [.atom (cString "caseless"), .newline .any]).bytes) =
        .done ((bertSuccess, some (.regex [97]
          (namedWord [.atom (cString "caseless"), .newline .any]))) : Result Empty) [] ↔
      List.length [(97 : UInt8)] < 2 ^ 32 - 1 ∧
        DecodesAsNamed [.atom (cString "caseless"), .newline .any] := by
  refine regex_options_iff (F := Empty) (show List.length [(97 : UInt8)] < 2 ^ 32 by decide)
    (show [RegexTerm.atom (cString "caseless"), .newline .any].length < 2 ^ 32 by decide) ?_
    (Nat.le_refl 3) (delivers_source_options _ _)
  intro o ho
  simp only [List.mem_cons, List.not_mem_nil, or_false] at ho
  rcases ho with rfl | rfl
  · exact (by decide : 8 < 2 ^ 16)
  · trivial

/-- The option `{newline,lf}` is refused. -/
theorem newline_lf_refused :
    ¬ ∀ (source : List UInt8) (opts : List RegexTerm), source.length < 2 ^ 32 →
      opts.length < 2 ^ 32 → (∀ o ∈ opts, o.Fits) →
        run plainReader (bertDecodeRegex (bertDecoderPull 3) : Decode Empty _)
            ((Wire.bin source).bytes ++ (optionsWire opts).bytes) =
          .done ((bertSuccess, some (.regex source (namedWord opts))) : Result Empty) [] := by
  intro h
  have hfits : ∀ o ∈ [RegexTerm.newline .lf], o.Fits :=
    fun o ho ↦ by rw [List.mem_singleton.mp ho]; trivial
  have hdone := h [97] [.newline .lf] (by decide) (by decide) hfits
  rw [run_decodeRegex (yields_source_options (by decide) (by decide) hfits (Nat.le_refl 3)
    (delivers_source_options _ _)), if_pos (by decide)] at hdone
  injection hdone with hresult
  exact absurd (Prod.ext_iff.mp hresult).1 (show bertErrnoInvalid ≠ bertSuccess by decide)

end LibBert
