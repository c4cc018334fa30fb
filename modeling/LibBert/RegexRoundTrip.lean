import LibBert.RegexOptions
import LibBert.RoundTrip
import LibBert.Wire.Swallowed

/-!
# Regular expressions on the wire

The encoder ends the list of options behind its last atom, the decoder reads one
byte more: the first of the term that follows, which then is not pulled.
-/

namespace LibBert

open Reading Bytes

variable {F ω ρ : Type} [Platform F]

/-- The wire term the decoder finds where a regular expression was written, with the
first byte of what follows for the tail of its list. -/
def regexWire (source : List UInt8) (options : UInt32) (tail : UInt8) : Wire :=
  .tuple false 4 [.atom (cString "bert"), .atom (cString "regex"), .bin source,
    .list (optionNames options).length ((optionNames options).map .atom) tail]

omit [Platform F] in
theorem chunksList_atoms (names : List (List UInt8)) :
    (Wire.chunksList (names.map .atom)).flatten = (names.map atomField).flatten := by
  induction names with
  | nil => rfl
  | cons name names ih =>
      have hname := bytes_atom name
      rw [Wire.bytes] at hname
      rw [List.map_cons, Wire.chunksList, List.flatten_append, ih, List.map_cons, List.flatten_cons,
        hname]

theorem encoding_regex (source : List UInt8) (options : UInt32) :
    encoding (.regex source options : Data F) = (complexHeader (cString "regex") 2).flatten ++
      (binField source ++ (listHeader (optionNames options).length ++
        ((optionNames options).map atomField).flatten)) := by
  rw [← countP_regexBits, encoding, writes, List.flatten_append, List.flatten_cons,
    List.flatten_cons, optionNames]

theorem bytes_regexWire (source : List UInt8) (options : UInt32) (tail : UInt8) :
    (regexWire source options tail).bytes =
      encoding (.regex source options : Data F) ++ [tail] := by
  have hbytes := bytes_tuple 4 [.atom (cString "bert"), .atom (cString "regex"), .bin source,
    .list (optionNames options).length ((optionNames options).map .atom) tail]
  have hatom := bytes_atom
  have hbin := bytes_bin source
  have hlist := Wire.bytes_list_eq (optionNames options).length ((optionNames options).map .atom)
    tail
  simp only [Wire.bytes] at hatom hbin hlist
  rw [encoding_regex]
  apply hbytes.trans
  simp only [Wire.chunksList, List.flatten_append, hatom, hbin, hlist, chunksList_atoms,
    complexHeader, listHeader, List.flatten_cons, List.flatten_nil, List.append_nil,
    List.append_assoc, List.cons_append]

theorem denote_regexWire {source : List UInt8} (hsource : source.length < 2 ^ 32 - 1)
    (options : UInt32) (tail : UInt8) :
    ∃ word, (regexWire source options tail).denote = some (.regex source word : Data F) := by
  obtain ⟨hlength, hnames⟩ := optionNames_fit options
  have hatoms : Wire.denoteList ((optionNames options).map .atom) =
      some ((optionNames options).map .atom : List (Data F)) := by
    have hfits : ∀ o ∈ (optionNames options).map RegexTerm.atom, o.Fits := by
      simpa [RegexTerm.Fits] using hnames
    have hlist := denoteList_wires (F := F) hfits
    rwa [List.map_map, List.map_map] at hlist
  have hword : regexOptions ((optionNames options).map .atom : List (Data F)) 0 =
      .mask (((optionNames options).map RegexTerm.atom).foldl
        (fun word o ↦ word ||| o.mask) 0) := by
    have hlf : .newline .lf ∉ (optionNames options).map RegexTerm.atom := by simp
    have hmasks := regexOptions_data (F := F) ((optionNames options).map .atom) 0
    rwa [if_neg hlf, List.map_map] at hmasks
  have hlist : (Wire.list (optionNames options).length ((optionNames options).map .atom)
      tail).denote = some (.list ((optionNames options).map .atom) : Data F) := by
    rw [Wire.denote, if_pos ⟨List.length_map _, hlength⟩, hatoms]
    rfl
  have hbin : (Wire.bin source).denote = some (.bin source : Data F) := if_pos hsource
  have hterms : Wire.denoteList [.atom (cString "bert"), .atom (cString "regex"), .bin source,
      .list (optionNames options).length ((optionNames options).map .atom) tail] =
        some [(.atom (cString "bert") : Data F), .atom (cString "regex"), .bin source,
          .list ((optionNames options).map .atom)] := by
    simp only [Wire.denoteList, hbin, hlist]
    rfl
  refine ⟨((optionNames options).map RegexTerm.atom).foldl (fun word o ↦ word ||| o.mask) 0, ?_⟩
  rw [regexWire, Wire.denote, hterms]
  change denoteComplex [(.atom (cString "regex") : Data F), .bin source,
    .list ((optionNames options).map .atom)] = _
  rw [denoteComplex, if_pos rfl, hword]

/-- The decoder overruns the block of a source that is too long. -/
theorem overlong_regexWire {source : List UInt8} (hmax : source.length = 2 ^ 32 - 1)
    (options : UInt32) (tail : UInt8) : (regexWire source options tail).Overlong F := by
  have hbefore : Wire.denoteList [.atom (cString "bert"), .atom (cString "regex")] =
      some [(.atom (cString "bert") : Data F), .atom (cString "regex")] := rfl
  have hfits : (Opening.tuple false 4).Fits := (by decide : 4 < 2 ^ 8)
  have hwants : (Opening.tuple false 4).wants
      [(.atom (cString "bert") : Data F), .atom (cString "regex")] = some false := rfl
  exact .tuple rfl hbefore hfits hwants (.bin rfl hmax)

/-- The list of options takes the first byte of what follows. -/
theorem output_regex (source : List UInt8) (options : UInt32) {d : Data F} {c : UInt8}
    {r : List UInt8} (hbytes : encoding d = c :: r) :
    output false [.regex source options, d] =
      (Wire.marked (regexWire source options c)).bytes ++ r := by
  rw [Wire.bytes_marked, bytes_regexWire (F := F), List.cons_append, List.append_assoc,
    List.singleton_append, ← hbytes]
  simp [output]

/-- Behind a regular expression a pull starts at the second byte of what follows. -/
theorem run_output_regex {source : List UInt8} (hsource : source.length < 2 ^ 32 - 1)
    (options : UInt32) {d : Data F} {c : UInt8} {r : List UInt8} (hbytes : encoding d = c :: r)
    {depth : ℕ} (hdepth : (output false [.regex source options, d]).length ≤ depth) :
    ∃ word, run plainReader (bertDecoderPull depth) (output false [.regex source options, d]) =
      .done ((1, some (.regex source word)) : Result F) r := by
  obtain ⟨word, hdenote⟩ := denote_regexWire (F := F) hsource options c
  have hmarked : (Wire.marked (regexWire source options c)).denote =
      some (.regex source word : Data F) := by
    rw [Wire.denote_marked_of rfl, hdenote]
  refine ⟨word, ?_⟩
  rw [output_regex source options hbytes, List.length_append] at hdepth
  rw [output_regex source options hbytes]
  exact run_plain_of_denote (by omega) hmarked

theorem run_output_overlong {source : List UInt8} (hmax : source.length = 2 ^ 32 - 1)
    (options : UInt32) {d : Data F} {c : UInt8} {r : List UInt8} (hbytes : encoding d = c :: r)
    {depth : ℕ} (hdepth : (output false [.regex source options, d]).length ≤ depth) :
    ∃ t, run plainReader (bertDecoderPull depth : Decode F _)
      (output false [.regex source options, d]) = .fault t := by
  rw [output_regex source options hbytes, List.length_append] at hdepth
  rw [output_regex source options hbytes]
  exact run_plain_of_overlong r (by omega) (.marked rfl (overlong_regexWire hmax options c))

/-- The term behind a regular expression is not pulled back. -/
theorem pulls_regex_ne {source : List UInt8} (hsource : source.length < 2 ^ 32)
    {options : UInt32} {d : Data F} (hd : Encodable d) (stream : Bool) (source' : PlainSource ρ)
    (s : ρ) {depth : ℕ} (hcontents : source'.contents s = output false [.regex source options, d])
    (hdepth : (source'.contents s).length ≤ depth) :
    pulls (F := F) windowReader (fun _ ↦ ()) depth 2
        (freshDecoder stream source'.toSource s) ≠
      [.done (1, some (.regex source options)) (), .done (1, some d) ()] := by
  intro hpulls
  obtain ⟨c, r, hbytes⟩ := exists_encoding_cons hd
  rw [pulls_results_eq_plain, hcontents, pulls, runs] at hpulls
  by_cases hmax : source.length = 2 ^ 32 - 1
  · obtain ⟨t, hfault⟩ := run_output_overlong hmax options hbytes (hcontents ▸ hdepth)
    rw [hfault] at hpulls
    cases hpulls
  obtain ⟨word, hrun⟩ := run_output_regex (by omega) options hbytes (hcontents ▸ hdepth)
  rw [hrun] at hpulls
  obtain ⟨-, hnext⟩ := List.cons.inj hpulls
  rw [runs] at hnext
  cases hrest : run plainReader (bertDecoderPull depth : Decode F _) r with
  | done result u =>
      rw [hrest] at hnext
      obtain ⟨hresult, -⟩ := List.cons.inj hnext
      rw [Outcome.done.injEq] at hresult
      rw [hresult.1] at hrest
      exact rest_not_pulled hd hbytes hrest
  | stuck u | fault u | timeout u => simp [hrest] at hnext

/-- No regular expression survives the wire in front of another term: the term that
follows is never pulled back behind it, whatever the source and the options are. -/
theorem regexes_never_survive (receiving : Receiving ω) {e : Encoder ω} {room : ℕ}
    {source : List UInt8} {options : UInt32} {d : Data F} (hsource : source.length < 2 ^ 32)
    (hd : Encodable d) (hfresh : e.wroteMagic = false) (hempty : receiving.stored e.mode = [])
    (htakes : receiving.Takes e.mode room)
    (hroom : (output false [.regex source options, d]).length ≤ room) :
    ∃ e', pushAll [.regex source options, d] e = some (bertSuccess, e') ∧
      ∀ (ρ : Type) (stream : Bool) (source' : PlainSource ρ) (s : ρ) (depth : ℕ),
        source'.contents s = receiving.stored e'.mode → (source'.contents s).length < depth →
          pulls (F := F) windowReader (fun _ ↦ ()) depth 2
              (freshDecoder stream source'.toSource s) ≠
            [.done (1, some (.regex source options)) (), .done (1, some d) ()] := by
  have hds : ∀ d' ∈ [.regex source options, d], Encodable d' := by
    intro d' hd'
    simp only [List.mem_cons, List.not_mem_nil, or_false] at hd'
    rcases hd' with rfl | rfl
    · trivial
    · exact hd
  obtain ⟨e', hpush, hstored⟩ := receiving.pushAll hds htakes (by rwa [hfresh])
  refine ⟨e', hpush, fun ρ stream source' s depth hcontents hdepth ↦ ?_⟩
  rw [hempty, List.nil_append, hfresh] at hstored
  rw [hstored] at hcontents
  exact pulls_regex_ne hsource hd stream source' s hcontents hdepth.le

/-- A caseless regular expression and an integer. -/
theorem regexes_never_survive_caseless :
    ∃ e', pushAll [(.regex [97] 1 : Data Empty), .int 5]
        (bertEncoderCallback bertEncoderCreate AcceptingSink.recording.toSink []) =
          some (bertSuccess, e') ∧
      ∀ (ρ : Type) (stream : Bool) (source : PlainSource ρ) (s : ρ) (depth : ℕ),
        source.contents s = AcceptingSink.recording.receiving.stored e'.mode →
        (source.contents s).length < depth →
          pulls (F := Empty) windowReader (fun _ ↦ ()) depth 2
              (freshDecoder stream source.toSource s) ≠
            [.done (1, some (.regex [97] 1)) (), .done (1, some (.int 5)) ()] :=
  regexes_never_survive AcceptingSink.recording.receiving (by decide) trivial rfl rfl
    ⟨[], .inr rfl⟩ (Nat.le_refl _)

/-- The integer behind an empty list of options loses its tag to the tail of the list. -/
theorem integer_behind_regex_not_pulled :
    ¬ ∀ (source : List UInt8) (options : UInt32) (d : Data Empty) (e' : Encoder (List UInt8)),
      source.length < 2 ^ 32 → Encodable d →
      pushAll [.regex source options, d]
          (bertEncoderCallback bertEncoderCreate AcceptingSink.recording.toSink []) =
        some (bertSuccess, e') →
      ∀ depth, (AcceptingSink.recording.receiving.stored e'.mode).length < depth →
        pulls (F := Empty) windowReader (fun _ ↦ ()) depth 2
            (freshDecoder false PlainSource.ofList.toSource
              (AcceptingSink.recording.receiving.stored e'.mode)) =
          [.done (1, some (.regex source options)) (), .done (1, some d) ()] := by
  intro h
  have hboth := h [97] 0 (.int 5) _ (by decide) trivial rfl 40 (by decide)
  have hlength : (output false [(.regex [97] 0 : Data Empty), .int 5]).length ≤ 40 := by decide
  have hint : Encodable (.int 5 : Data Empty) := trivial
  exact pulls_regex_ne (by decide) hint false PlainSource.ofList _ rfl hlength hboth

end LibBert
