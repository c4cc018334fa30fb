import LibBert.Dump.Print
import LibBert.Relay
import LibBert.Wire.Cut
import LibBert.Decoder.Leftover

/-!
# Dumping a file

`bert_strerror`, and `bert_dump` and `main` of `programs/dump.c`.  A file whose bytes are
not torn is dumped as one line for each term that stands at its front, and without an
error exactly when nothing else stands behind them.  A text that is written past its
block ends the dump in a fault.
-/

namespace LibBert

open Reading

variable {F σ ρ ω : Type}

/-! ## Error texts -/

def bertErrors : List (List UInt8) :=
  [cString "unknown libBERT error code",
    cString "invalid BERT data",
    cString "no more data left",
    cString "not enough data available",
    cString "no more space to write data",
    cString "read error",
    cString "write error",
    cString "malloc failed",
    cString "BERT large bignums are not fully supported yet"]

def bertErrnoMax : Code := -9

/-- `bert_strerror`, where `strerror` is the text of `errno`; there is no text where the
index is beyond the table. -/
def bertStrerror (strerror : List UInt8) (code : Code) : Option (List UInt8) :=
  if 0 ≤ code ∨ code ≤ bertErrnoMax then bertErrors[0]?
  else if code = bertErrnoRead ∨ code = bertErrnoWrite then some strerror
  else bertErrors[(-code).toNat]?

/-- The index is never beyond the table. -/
theorem exists_bertStrerror (strerror : List UInt8) (code : Code) :
    ∃ text, bertStrerror strerror code = some text := by
  rw [bertStrerror]
  split_ifs with hunknown herrno
  · exact ⟨_, rfl⟩
  · exact ⟨_, rfl⟩
  · have hmax : (-9 : ℤ) < code := not_le.mp fun h ↦ hunknown (.inr h)
    have hindex : (-code).toNat < bertErrors.length := by
      change (-code).toNat < 9
      omega
    exact ⟨_, List.getElem?_eq_getElem hindex⟩

/-! ## Files of terms -/

section Holds

variable [Platform F]

/-- The bytes are those of wire terms, one behind the other, which stand for the terms. -/
def Holds (bytes : List UInt8) (ds : List (Data F)) : Prop :=
  ∃ ws, Wire.denoteList ws = some ds ∧ bytes = (Wire.chunksList ws).flatten

theorem Holds.nil : Holds [] ([] : List (Data F)) := ⟨[], rfl, rfl⟩

theorem Holds.cons {w : Wire} {d : Data F} {bytes : List UInt8} {ds : List (Data F)}
    (hdenote : w.denote = some d) (h : Holds bytes ds) : Holds (w.bytes ++ bytes) (d :: ds) := by
  obtain ⟨ws, hws, rfl⟩ := h
  refine ⟨w :: ws, Wire.denoteList_cons_eq_some_iff.mpr ⟨d, ds, hdenote, hws, rfl⟩, ?_⟩
  rw [Wire.chunksList, List.flatten_append, Wire.bytes]

/-- What an encoder writes, behind the magic byte or not. -/
theorem holds_output {ints : Int64 → Prop} {ds : List (Data F)}
    (hds : ∀ d ∈ ds, Portable ints d) (wroteMagic : Bool) :
    Holds (output wroteMagic ds) (ds.map image) := by
  induction ds generalizing wroteMagic with
  | nil => exact .nil
  | cons d ds ih =>
      obtain ⟨hd, hds⟩ := List.forall_mem_cons.mp hds
      rw [output_cons hd]
      exact .cons (denote_pushedWire hd wroteMagic) (ih hds true)

theorem length_le_of_denoteList {ws : List Wire} {ds : List (Data F)}
    (h : Wire.denoteList ws = some ds) : ds.length ≤ (Wire.chunksList ws).flatten.length := by
  rw [← Wire.length_of_denoteList h]
  clear h
  induction ws with
  | nil => exact Nat.zero_le _
  | cons w ws ih =>
      have hbytes : 0 < w.bytes.length := Nat.zero_lt_of_lt w.height_lt_length_bytes
      rw [Wire.bytes] at hbytes
      rw [Wire.chunksList, List.flatten_append, List.length_append, List.length_cons]
      omega

end Holds

/-! ## The loop of `bert_dump` -/

/-- What is written to `stderr`. -/
def complaint (text : List UInt8) : List UInt8 := cString "bert_dump: " ++ text ++ cString "\n"

/-- The last two cases of the `switch`. -/
def dumpEnd (strerror : List UInt8) (result : Code) : Print := fun console ↦
  if result = 0 then .done 0 console
  else match bertStrerror strerror result with
    | some text => .done (-1) (console.complain (complaint text))
    | none => .stuck console

variable [Printf F]

/-- At most `fuel` rounds of `while (1)`.  What `bert_print` returns is ignored, and the
pointer it is given was never assigned where the pull stored no term. -/
def dumpLoop (R : BertReader σ) (pull : Decode F (Result F)) (strerror : List UInt8) :
    ℕ → σ → Print
  | 0, _ => .timeout
  | fuel + 1, s => fun console ↦
      match run R pull s with
      | .done (result, data) t =>
          if result = 1 then
            match data with
            | some d => (bertPrint d console).bind fun _ console ↦
                dumpLoop R pull strerror fuel t (console.print (cString "\n"))
            | none => .stuck console
          else dumpEnd strerror result console
      | .stuck _ => .stuck console
      | .fault _ => .fault console
      | .timeout _ => .timeout console

/-- `bert_dump` over a file, with memory for the decoder or without. -/
def bertDump (F : Type) [Platform F] [Printf F] (created : Bool) (strerror : List UInt8)
    (depth fuel : ℕ) (file : Source ρ) (fd : ρ) : Print := fun console ↦
  if created then
    dumpLoop windowReader (bertDecoderPull depth : Decode F _) strerror fuel
      (bertDecoderStream bertDecoderCreate file fd) console
  else .done (-1) (console.complain (complaint (cString "malloc failed")))

/-- One line for each term. -/
def lines (ds : List (Data F)) : List UInt8 := ds.flatMap fun d ↦ termText d ++ cString "\n"

@[simp] theorem lines_nil : lines ([] : List (Data F)) = [] := rfl

theorem lines_cons (d : Data F) (ds : List (Data F)) :
    lines (d :: ds) = termText d ++ (cString "\n" ++ lines ds) := by
  rw [lines, List.flatMap_cons, List.append_assoc]
  rfl

theorem lines_append (ds ds' : List (Data F)) : lines (ds ++ ds') = lines ds ++ lines ds' :=
  List.flatMap_append

section Loop

variable {R : BertReader σ} {pull : Decode F (Result F)} {strerror : List UInt8} {s t u : σ}
  {console : Console} {ds : List (Data F)}

theorem dumpLoop_of_term {d : Data F} (hrun : run R pull s = .done (1, some d) t)
    (hd : Printable d) (fuel : ℕ) :
    dumpLoop R pull strerror (fuel + 1) s console =
      dumpLoop R pull strerror fuel t (console.print (termText d ++ cString "\n")) := by
  rw [dumpLoop, hrun]
  simp only [if_true, bertPrint_of_printable d hd console, Outcome.bind_done, Console.print_print]

theorem dumpLoop_of_end {code : Code} (hrun : run R pull s = .done (code, none) t)
    (hcode : code ≠ 1) (fuel : ℕ) :
    dumpLoop R pull strerror (fuel + 1) s console = dumpEnd strerror code console := by
  rw [dumpLoop, hrun]
  simp only [if_neg hcode]

/-- Terms that are pulled are printed one after the other. -/
theorem dumpLoop_of_yields (hyields : Yields R pull s ds t) (hds : ∀ d ∈ ds, Printable d)
    (fuel : ℕ) :
    dumpLoop R pull strerror (ds.length + fuel) s console =
      dumpLoop R pull strerror fuel t (console.print (lines ds)) := by
  induction hyields generalizing console with
  | nil s => simp
  | @cons s u t d ds hpull hrest ih =>
      obtain ⟨hd, hds⟩ := List.forall_mem_cons.mp hds
      rw [List.length_cons, Nat.add_right_comm, dumpLoop_of_term hpull hd, ih hds,
        Console.print_print, lines_cons, List.append_assoc]

theorem result_of_dumpLoop {fuel : ℕ} {console' : Console} {result : Code}
    (h : dumpLoop R pull strerror fuel s console = .done result console') :
    result = 0 ∨ result = -1 := by
  induction fuel generalizing s console with
  | zero => cases h
  | succ fuel ih =>
      rw [dumpLoop] at h
      split at h
      · split_ifs at h
        · split at h
          · obtain ⟨_, _, -, hrest⟩ := Outcome.bind_eq_done_iff.mp h
            exact ih hrest
          · cases h
        · unfold dumpEnd at h
          split_ifs at h
          · cases h
            exact .inl rfl
          · split at h <;> cases h
            exact .inr rfl
      · cases h
      · cases h
      · cases h

end Loop

/-! ## What is dumped -/

variable [Platform F]

omit [Printf F] in
theorem printable_of_denote {w : Wire} {d : Data F} (h : w.denote = some d) : Printable d :=
  printable_of_encodable d (encodable_of_denote h)

/-- The terms of a file and the code behind them. -/
def Ended (R : BertReader σ) (pull : Decode F (Result F)) (s : σ) (ds : List (Data F))
    (code : Code) : Prop :=
  ∃ t u, Yields R pull s ds t ∧ run R pull t = .done (code, none) u

/-- The terms of a file in front of a text that is written past its block. -/
def Overran (R : BertReader σ) (pull : Decode F (Result F)) (s : σ) (ds : List (Data F)) : Prop :=
  ∃ t, Yields R pull s ds t ∧ Overruns F R t

omit [Printf F] [Platform F] in
/-- A term uses up some of the bytes that are left. -/
theorem Ends.behind {R : BertReader σ} {n : ℕ} {s t : σ} {w : Wire} (hends : Ends R n s)
    (hdelivers : Delivers R s w.chunks t) :
    0 < w.bytes.length ∧ w.bytes.length ≤ n ∧ Ends R (n - w.bytes.length) t := by
  refine ⟨Nat.zero_lt_of_lt w.height_lt_length_bytes, hends _ _ hdelivers, ?_⟩
  intro chunks u hdelivers'
  have hboth := hends _ u (delivers_append_iff.mpr ⟨t, hdelivers, hdelivers'⟩)
  rw [List.flatten_append, List.length_append, ← Wire.bytes] at hboth
  omega

/-- While bytes are left a clean pull stores a term and uses some of them up, so that the
loop reaches its end, or a text without room, within as many rounds as there are bytes. -/
theorem exists_ended {R : BertReader σ} (strerror : List UInt8) {n depth fuel : ℕ} {s : σ}
    (hends : Ends R n s) (hdepth : n < depth) (hfuel : n < fuel)
    (hclean : AlongRuns R clean (bertDecoderPull depth : Decode F _) fuel s) :
    ∃ ds, ds.length ≤ fuel ∧
      ((∃ code, code ≤ 0 ∧ Ended R (bertDecoderPull depth : Decode F _) s ds code ∧ ∀ console,
          dumpLoop R (bertDecoderPull depth : Decode F _) strerror fuel s console =
            dumpEnd strerror code (console.print (lines ds))) ∨
        Overran R (bertDecoderPull depth : Decode F _) s ds ∧ ∀ console,
          dumpLoop R (bertDecoderPull depth : Decode F _) strerror fuel s console =
            .fault (console.print (lines ds))) := by
  induction fuel generalizing n s with
  | zero => omega
  | succ fuel ih =>
      rcases pull_fate (F := F) hends hdepth with
        ⟨t, -, hrun, -⟩ | ⟨code, t, hcode, hrun, -⟩ | ⟨w, d, t, hdenote, hdelivers, hrun, -⟩ |
        ⟨t, hoverruns, hrun, -⟩ | ⟨-, hdirty⟩
      · refine ⟨[], Nat.zero_le _, .inl ⟨0, le_rfl, ⟨s, t, .nil s, hrun⟩, fun console ↦ ?_⟩⟩
        rw [dumpLoop_of_end hrun (by decide), lines_nil, Console.print_nil]
      · refine ⟨[], Nat.zero_le _,
          .inl ⟨code, hcode.le, ⟨s, t, .nil s, hrun⟩, fun console ↦ ?_⟩⟩
        have hone : code ≠ 1 := (hcode.trans (by decide)).ne
        rw [dumpLoop_of_end hrun hone, lines_nil, Console.print_nil]
      · obtain ⟨hbytes, hw, hleft⟩ := hends.behind hdelivers
        have hterm (console : Console) :
            dumpLoop R (bertDecoderPull depth : Decode F _) strerror (fuel + 1) s console =
              dumpLoop R (bertDecoderPull depth : Decode F _) strerror fuel t
                (console.print (termText d ++ cString "\n")) :=
          dumpLoop_of_term hrun (printable_of_denote hdenote) fuel
        have hlines (ds : List (Data F)) (console : Console) :
            (console.print (termText d ++ cString "\n")).print (lines ds) =
              console.print (lines (d :: ds)) := by
          rw [Console.print_print, lines_cons, List.append_assoc]
        obtain ⟨ds, hlength, ⟨code, hcode, ⟨u, v, hyields, hlast⟩, hloop⟩ |
          ⟨⟨u, hyields, hoverruns⟩, hloop⟩⟩ := ih hleft (by omega) (by omega) (hclean.2 _ _ hrun)
        · refine ⟨d :: ds, Nat.succ_le_succ hlength,
            .inl ⟨code, hcode, ⟨u, v, .cons hrun hyields, hlast⟩, fun console ↦ ?_⟩⟩
          rw [hterm, hloop, hlines]
        · refine ⟨d :: ds, Nat.succ_le_succ hlength,
            .inr ⟨⟨u, .cons hrun hyields, hoverruns⟩, fun console ↦ ?_⟩⟩
          rw [hterm, hloop, hlines]
      · refine ⟨[], Nat.zero_le _, .inr ⟨⟨s, .nil s, hoverruns⟩, fun console ↦ ?_⟩⟩
        rw [dumpLoop, hrun, lines_nil, Console.print_nil]
      · exact absurd hclean.1 hdirty

/-- Over whatever source, as long as it ends somewhere and is not torn, the terms that are
pulled are printed, one on each line, and behind them the text of a code that is not 0,
unless a text among them is written past its block. -/
theorem bertDump_prints {file : Source ρ} {fd : ρ} {n depth fuel : ℕ} (strerror : List UInt8)
    (hends : Ends windowReader n (bertDecoderStream bertDecoderCreate file fd)) (hdepth : n < depth)
    (hfuel : n < fuel)
    (hclean : AlongRuns windowReader clean (bertDecoderPull depth : Decode F _) fuel
      (bertDecoderStream bertDecoderCreate file fd)) :
    ∃ ds, (∃ code text, Ended windowReader (bertDecoderPull depth : Decode F _)
          (bertDecoderStream bertDecoderCreate file fd) ds code ∧
        code ≤ 0 ∧ bertStrerror strerror code = some text ∧
        ∀ console, bertDump F true strerror depth fuel file fd console =
          if code = 0 then .done 0 (console.print (lines ds))
          else .done (-1) ((console.print (lines ds)).complain (complaint text))) ∨
      Overran windowReader (bertDecoderPull depth : Decode F _)
          (bertDecoderStream bertDecoderCreate file fd) ds ∧
        ∀ console, bertDump F true strerror depth fuel file fd console =
          .fault (console.print (lines ds)) := by
  obtain ⟨ds, -, ⟨code, hcode, hended, hloop⟩ | ⟨hoverran, hloop⟩⟩ :=
    exists_ended strerror hends hdepth hfuel hclean
  · obtain ⟨text, htext⟩ := exists_bertStrerror strerror code
    refine ⟨ds, .inl ⟨code, text, hended, hcode, htext, fun console ↦ ?_⟩⟩
    rw [bertDump, if_pos rfl, hloop, dumpEnd, htext]
  · refine ⟨ds, .inr ⟨hoverran, fun console ↦ ?_⟩⟩
    rw [bertDump, if_pos rfl, hloop]

omit [Printf F] in
/-- Where no byte is left every further pull is clean. -/
theorem alongRuns_clean_of_empty {source : PlainSource ρ} {total depth : ℕ} {d : Decoder ρ}
    (hdecoder : source.feeding.Refines total 0 d []) (count : ℕ) :
    AlongRuns windowReader clean (bertDecoderPull (depth + 1) : Decode F _) count d := by
  induction count generalizing d with
  | zero => trivial
  | succ count ih =>
      have hplain : run plainReader (bertDecoderPull (depth + 1) : Decode F _) [] =
          .done (0, none) [] := rfl
      obtain ⟨d', hrun, hdecoder'⟩ := PlainSource.run_window hdecoder hplain
      have hclean : Along windowReader clean (bertDecoderPull (depth + 1) : Decode F _) d :=
        (along_clean_iff hdecoder.ends (Nat.succ_pos depth)).mpr fun htorn ↦
          absurd (htorn.two_le hdecoder.ends) (by decide)
      refine ⟨hclean, fun a t hrun' ↦ ?_⟩
      rw [hrun] at hrun'
      cases hrun'
      exact ih hdecoder'

/-- The tuple `{5, nil}`. -/
def pairFile : List UInt8 := [bertSmallTuple, 2, bertSmallInt, 5, bertNil]

/-- The decoder that a dump has of it. -/
def pairStream : Decoder (List UInt8) :=
  bertDecoderStream bertDecoderCreate PlainSource.ofList.toSource pairFile

theorem refines_pairStream : PlainSource.ofList.feeding.Refines 5 0 pairStream pairFile :=
  refines_fresh true PlainSource.ofList.toSlicedSource pairFile

theorem clean_pairStream :
    AlongRuns windowReader clean (bertDecoderPull 6 : Decode Empty _) 6 pairStream := by
  have hplain : run plainReader (bertDecoderPull 6 : Decode Empty _) pairFile =
      .done (1, some (.tuple [some (.int 5), some .nil])) [] := rfl
  obtain ⟨d, hrun, hdecoder⟩ := PlainSource.run_window refines_pairStream hplain
  refine ⟨?_, fun a t hrun' ↦ ?_⟩
  · repeat' constructor
    · exact fun _ ↦ ⟨_, rfl, trivial⟩
    · exact fun _ ↦ ⟨_, rfl, trivial⟩
    · exact fun _ ↦ ⟨_, rfl, trivial, trivial, trivial⟩
  · rw [hrun] at hrun'
    cases hrun'
    exact alongRuns_clean_of_empty hdecoder 5

theorem bertDump_prints_pair :
    ∃ ds, (∃ code text, Ended windowReader (bertDecoderPull 6 : Decode Empty _) pairStream ds code ∧
        code ≤ 0 ∧ bertStrerror [] code = some text ∧
        ∀ console, bertDump Empty true [] 6 6 PlainSource.ofList.toSource pairFile console =
          if code = 0 then .done 0 (console.print (lines ds))
          else .done (-1) ((console.print (lines ds)).complain (complaint text))) ∨
      Overran windowReader (bertDecoderPull 6 : Decode Empty _) pairStream ds ∧
        ∀ console, bertDump Empty true [] 6 6 PlainSource.ofList.toSource pairFile console =
          .fault (console.print (lines ds)) :=
  bertDump_prints [] refines_pairStream.ends (by decide : 5 < 6) (by decide) clean_pairStream

/-- The loop depends on the source only through its bytes. -/
theorem dumpLoop_eq_plain {source : PlainSource ρ} {total depth : ℕ} {strerror : List UInt8}
    (fuel : ℕ) {d : Decoder ρ} {rest : List UInt8}
    (hdecoder : source.feeding.Refines total 0 d rest) (console : Console) :
    dumpLoop windowReader (bertDecoderPull depth : Decode F _) strerror fuel d console =
      dumpLoop plainReader (bertDecoderPull depth : Decode F _) strerror fuel rest console := by
  induction fuel generalizing d rest console with
  | zero => rfl
  | succ fuel ih =>
      have hrelated := PlainSource.related (F := F) source hdecoder depth
      rw [dumpLoop, dumpLoop]
      generalize run windowReader (bertDecoderPull depth : Decode F _) d = o at hrelated
      generalize run plainReader (bertDecoderPull depth : Decode F _) rest = o' at hrelated
      cases hrelated with
      | done r hrel => simp only [ih hrel]
      | stuck hrel => rfl
      | fault hrel => rfl
      | timeout hrel => rfl

section File

variable {source : PlainSource ρ} {depth fuel : ℕ} {strerror : List UInt8}

theorem bertDump_eq_plain (fd : ρ) (console : Console) :
    bertDump F true strerror depth fuel source.toSource fd console =
      dumpLoop plainReader (bertDecoderPull depth : Decode F _) strerror fuel
        (source.contents fd) console :=
  dumpLoop_eq_plain fuel (refines_fresh true source.toSlicedSource fd) console

theorem dumpLoop_of_holds {bytes : List UInt8} {ds : List (Data F)} (hholds : Holds bytes ds)
    (hdepth : bytes.length < depth) (hfuel : bytes.length < fuel) (console : Console) :
    dumpLoop plainReader (bertDecoderPull depth : Decode F _) strerror fuel bytes console =
      .done 0 (console.print (lines ds)) := by
  obtain ⟨ws, hws, rfl⟩ := hholds
  have hends := plainReader_ends (Wire.chunksList ws).flatten
  have hyields : Yields plainReader (bertDecoderPull depth)
      (Wire.chunksList ws).flatten ds [] :=
    hends.yields_of_delivers hdepth hws (plainReader_delivers_iff.mpr (List.append_nil _).symm)
  have hprintable : ∀ d ∈ ds, Printable d := fun d hd ↦ by
    obtain ⟨w, -, hw⟩ := exists_of_mem_denoteList hws d hd
    exact printable_of_denote hw
  have hlength := length_le_of_denoteList hws
  obtain ⟨rounds, rfl⟩ : ∃ rounds, fuel = ds.length + (rounds + 1) :=
    ⟨fuel - ds.length - 1, by omega⟩
  obtain ⟨depth, rfl⟩ : ∃ k, depth = k + 1 := ⟨depth - 1, by omega⟩
  have hend : run plainReader (bertDecoderPull (depth + 1) : Decode F _) [] =
      .done (0, none) [] := rfl
  rw [dumpLoop_of_yields hyields hprintable, dumpLoop_of_end hend (by decide)]
  rfl

/-- A file that is not torn is dumped without an error exactly when its bytes are those of
wire terms, and then what these stand for is printed. -/
theorem bertDump_done_iff {fd : ρ} (hdepth : (source.contents fd).length < depth)
    (hfuel : (source.contents fd).length < fuel)
    (hclean : AlongRuns plainReader clean (bertDecoderPull depth : Decode F _) fuel
      (source.contents fd)) (console console' : Console) :
    bertDump F true strerror depth fuel source.toSource fd console = .done 0 console' ↔
      ∃ ds : List (Data F), Holds (source.contents fd) ds ∧
        console' = console.print (lines ds) := by
  rw [bertDump_eq_plain]
  constructor
  · intro h
    obtain ⟨ds, hlength, ⟨code, hcode, ⟨t, u, hyields, hrun⟩, hloop⟩ | ⟨-, hloop⟩⟩ :=
      exists_ended strerror (plainReader_ends (source.contents fd)) hdepth hfuel hclean
    · rw [hloop, dumpEnd] at h
      split_ifs at h with hzero
      · cases h
        subst hzero
        obtain rfl := eq_nil_of_pull_eq_zero hrun
        obtain ⟨ws, hws, hdelivers⟩ := exists_wires_of_yields
          (plainReader_ends (source.contents fd)) hdepth hyields (hclean.mono hlength)
        refine ⟨ds, ⟨ws, hws, ?_⟩, rfl⟩
        rw [plainReader_delivers_iff.mp hdelivers, List.append_nil]
      · obtain ⟨text, htext⟩ := exists_bertStrerror strerror code
        rw [htext] at h
        cases h
    · rw [hloop] at h
      cases h
  · rintro ⟨ds, hholds, rfl⟩
    exact dumpLoop_of_holds hholds hdepth hfuel console

/-- What the encoder wrote is dumped as the terms that are read back. -/
theorem bertDump_of_pushed {ints : Int64 → Prop} {ds : List (Data F)}
    (hds : ∀ d ∈ ds, Portable ints d) (receiving : Receiving ω) {e : Encoder ω} {room : ℕ}
    (hempty : receiving.stored e.mode = []) (htakes : receiving.Takes e.mode room)
    (hroom : (output e.wroteMagic ds).length ≤ room) :
    ∃ e', pushAll ds e = some (bertSuccess, e') ∧
      ∀ (ρ : Type) (source : PlainSource ρ) (fd : ρ) (depth fuel : ℕ) (strerror : List UInt8)
        (console : Console), source.contents fd = receiving.stored e'.mode →
        (source.contents fd).length < depth → (source.contents fd).length < fuel →
          bertDump F true strerror depth fuel source.toSource fd console =
            .done 0 (console.print (lines (ds.map image))) := by
  obtain ⟨e', hpush, hstored⟩ :=
    receiving.pushAll (fun d hd ↦ encodable_of_fragment d (hds d hd)) htakes hroom
  rw [hempty, List.nil_append] at hstored
  refine ⟨e', hpush, fun ρ source fd depth fuel strerror console hcontents hdepth hfuel ↦ ?_⟩
  rw [hstored] at hcontents
  rw [hcontents] at hdepth hfuel
  rw [bertDump_eq_plain, hcontents]
  exact dumpLoop_of_holds (holds_output hds _) hdepth hfuel console

theorem bertDump_of_pushed_atom :
    ∃ e', pushAll [(.atom [97] : Data Empty)]
        (bertEncoderCallback bertEncoderCreate AcceptingSink.recording.toSink []) =
          some (bertSuccess, e') ∧
      ∀ (ρ : Type) (source : PlainSource ρ) (fd : ρ) (depth fuel : ℕ) (strerror : List UInt8)
        (console : Console),
        source.contents fd = AcceptingSink.recording.receiving.stored e'.mode →
        (source.contents fd).length < depth → (source.contents fd).length < fuel →
          bertDump Empty true strerror depth fuel source.toSource fd console =
            .done 0 (console.print (lines [(.atom [97] : Data Empty)])) := by
  have hatom : ∀ d ∈ [(.atom [97] : Data Empty)], Portable (fun _ ↦ True) d := by
    simp [Portable, Fragment]
  exact bertDump_of_pushed hatom AcceptingSink.recording.receiving rfl ⟨[], .inr rfl⟩
    (Nat.le_refl _)

end File

/-! ## The program -/

/-- `BERT_VERSION`. -/
def bertVersion : List UInt8 := cString "0.1.0"

/-- What the program finds: files that can be opened by name or not, with the text of
`errno`, and memory for each decoder or not. -/
structure Files (ρ : Type) where
  file : PlainSource ρ
  openFile : List UInt8 → Except (List UInt8) ρ
  stdin : ρ
  created : ρ → Bool
  strerror : ρ → List UInt8

namespace Files

variable (files : Files ρ) (F) (depth fuel : ℕ)

def dump (fd : ρ) : Print :=
  bertDump F (files.created fd) (files.strerror fd) depth fuel files.file.toSource fd

/-- The loop of `main` over the names. -/
def dumpAll : List (List UInt8) → Print
  | [] => .text []
  | name :: names =>
      match files.openFile name with
      | .error text => fun console ↦ .done (-1) (console.complain (complaint text))
      | .ok fd => (files.dump F depth fuel fd).andThen (dumpAll names)

/-- Only the first argument is taken for an option. -/
def main (argv : List (List UInt8)) : Print :=
  match argv with
  | _ :: first :: rest =>
      if first = cString "-h" ∨ first = cString "--help" then
        .text (cString "usage: bert_dump [FILES ...]\n")
      else if first = cString "-V" ∨ first = cString "--version" then
        .text (cString "bert_dump " ++ bertVersion ++ cString "\n")
      else files.dumpAll F depth fuel (first :: rest)
  | _ => files.dump F depth fuel files.stdin

/-- A file that is dumped with memory and is not torn. -/
structure Whole (fd : ρ) : Prop where
  created : files.created fd = true
  lt_depth : (files.file.contents fd).length < depth
  lt_fuel : (files.file.contents fd).length < fuel
  untorn : AlongRuns plainReader clean (bertDecoderPull depth : Decode F _) fuel
    (files.file.contents fd)

/-- The name is that of a file of these terms. -/
def Named (name : List UInt8) (ds : List (Data F)) : Prop :=
  ∃ fd, files.openFile name = .ok fd ∧ Holds (files.file.contents fd) ds

variable {files F depth fuel}

theorem dump_done_iff {fd : ρ} (h : files.Whole F depth fuel fd) (console console' : Console) :
    files.dump F depth fuel fd console = .done 0 console' ↔
      ∃ ds : List (Data F), Holds (files.file.contents fd) ds ∧
        console' = console.print (lines ds) := by
  rw [dump, h.created]
  exact bertDump_done_iff h.lt_depth h.lt_fuel h.untorn console console'

theorem result_of_dump {fd : ρ} {console console' : Console} {result : Code}
    (h : files.dump F depth fuel fd console = .done result console') :
    result = 0 ∨ result = -1 := by
  rw [dump, bertDump] at h
  split_ifs at h
  · exact result_of_dumpLoop h
  · cases h
    exact .inr rfl

theorem dumpAll_done_iff {names : List (List UInt8)}
    (h : ∀ name ∈ names, ∀ fd, files.openFile name = .ok fd → files.Whole F depth fuel fd)
    (console console' : Console) :
    files.dumpAll F depth fuel names console = .done 0 console' ↔
      ∃ dss : List (List (Data F)), List.Forall₂ (files.Named F) names dss ∧
        console' = console.print (lines dss.flatten) := by
  induction names generalizing console console' with
  | nil =>
      constructor
      · intro hrun
        cases hrun
        exact ⟨[], .nil, rfl⟩
      · rintro ⟨_, ⟨⟩, rfl⟩
        rfl
  | cons name names ih =>
      obtain ⟨hname, hnames⟩ := List.forall_mem_cons.mp h
      rw [dumpAll]
      cases hopen : files.openFile name with
      | error text =>
          constructor
          · intro hrun
            cases hrun
          · rintro ⟨_, hdss, -⟩
            cases hdss with
            | cons hds hdss =>
                obtain ⟨fd, hfd, -⟩ := hds
                rw [hopen] at hfd
                cases hfd
      | ok fd =>
          have hdump := dump_done_iff (hname fd hopen) console
          constructor
          · intro hrun
            obtain ⟨result, console₁, hfirst, hresult, hrest⟩ :=
              Print.exists_of_andThen hrun (by decide)
            obtain rfl : result = 0 := (result_of_dump hfirst).resolve_right hresult
            obtain ⟨ds, hds, rfl⟩ := (hdump console₁).mp hfirst
            obtain ⟨dss, hdss, rfl⟩ := (ih hnames _ _).mp hrest
            refine ⟨ds :: dss, .cons ⟨fd, hopen, hds⟩ hdss, ?_⟩
            rw [List.flatten_cons, lines_append, Console.print_print]
          · rintro ⟨_, hdss, rfl⟩
            cases hdss with
            | @cons _ ds _ dss hds hdss =>
                obtain ⟨fd', hfd', hds⟩ := hds
                rw [hopen] at hfd'
                cases hfd'
                have hfirst := (hdump _).mpr ⟨ds, hds, rfl⟩
                refine (Print.andThen_of_done hfirst _).trans ((ih hnames _ _).mpr ⟨dss, hdss, ?_⟩)
                rw [List.flatten_cons, lines_append, Console.print_print]

/-- Called with names the program returns 0 exactly when each is that of a file of terms,
and then it has printed them all, file by file. -/
theorem main_done_iff {program first : List UInt8} {rest : List (List UInt8)}
    (hoption : first ∉ [cString "-h", cString "--help", cString "-V", cString "--version"])
    (h : ∀ name ∈ first :: rest, ∀ fd, files.openFile name = .ok fd →
      files.Whole F depth fuel fd) (console console' : Console) :
    files.main F depth fuel (program :: first :: rest) console = .done 0 console' ↔
      ∃ dss : List (List (Data F)), List.Forall₂ (files.Named F) (first :: rest) dss ∧
        console' = console.print (lines dss.flatten) := by
  simp only [List.mem_cons, List.not_mem_nil, or_false, not_or] at hoption
  rw [main, if_neg (by tauto), if_neg (by tauto)]
  exact dumpAll_done_iff h console console'

/-- A nil and the integer 5. -/
def twoTerms : List UInt8 := [bertNil, bertSmallInt, 5]

theorem clean_twoTerms :
    AlongRuns plainReader clean (bertDecoderPull 4 : Decode Empty _) 4 twoTerms := by
  have hnil : run plainReader (bertDecoderPull 4 : Decode Empty _) twoTerms =
      .done (1, some .nil) [bertSmallInt, 5] := rfl
  have hint : run plainReader (bertDecoderPull 4 : Decode Empty _) [bertSmallInt, 5] =
      .done (1, some (.int 5)) [] := rfl
  have hempty : run plainReader (bertDecoderPull 4 : Decode Empty _) [] =
      .done (0, none) [] := rfl
  have hlast : Along plainReader clean (bertDecoderPull 4 : Decode Empty _) [] := by
    repeat' constructor
    exact fun h ↦ absurd h (by decide)
  refine ⟨?_, fun a t hrun ↦ ?_⟩
  · repeat' constructor
    exact fun _ ↦ ⟨_, rfl, trivial⟩
  · rw [hnil] at hrun
    cases hrun
    refine ⟨?_, fun a t hrun ↦ ?_⟩
    · repeat' constructor
      exact fun _ ↦ ⟨_, rfl, trivial⟩
    · rw [hint] at hrun
      cases hrun
      refine ⟨hlast, fun a t hrun ↦ ?_⟩
      rw [hempty] at hrun
      cases hrun
      exact ⟨hlast, fun _ _ _ ↦ trivial⟩

/-- Every name is that of the same file. -/
def twoTermFiles : Files (List UInt8) where
  file := PlainSource.ofList
  openFile _ := .ok twoTerms
  stdin := []
  created _ := true
  strerror _ := []

theorem main_done_iff_two :
    twoTermFiles.main Empty 4 4 [cString "bert_dump", [97], [98]] ⟨[], []⟩ =
        .done 0 ⟨cString "nil\n5\nnil\n5\n", []⟩ ↔
      ∃ dss : List (List (Data Empty)),
        List.Forall₂ (twoTermFiles.Named Empty) [[97], [98]] dss ∧
          ⟨cString "nil\n5\nnil\n5\n", []⟩ = Console.print ⟨[], []⟩ (lines dss.flatten) :=
  main_done_iff (by decide)
    (fun _ _ fd hfd ↦ Except.ok.inj hfd ▸ ⟨rfl, by decide, by decide, clean_twoTerms⟩) _ _

end Files

end LibBert
