import LibBert.Encoder.Sinks
import LibBert.Wire.Encoded
import LibBert.Wire.Reference

/-!
# Pushing and pulling scalars and tuples

The encoding of a term built from scalars and tuples is a wire term; what the
decoder reads there is the term again but for the integers that
`bert_encode_int` takes for unsigned ones.  A binary of `2 ^ 32 - 1` bytes is
written and cannot be read.
-/

namespace LibBert

open Reading Bytes

variable {F ω ρ : Type}

/-! ## The fragment -/

mutual

/-- Terms built from nil, booleans, atoms, binaries of fewer than `bound` bytes, integers
of a kind and tuples of such terms that do not open like a complex term. -/
def Fragment (ints : Int64 → Prop) (bound : ℕ) : Data F → Prop
  | .nil => True
  | .boolean boolean => boolean = 0 ∨ boolean = 1
  | .int i => ints i
  | .atom name => name.length < 2 ^ 16
  | .bin data => data.length < bound
  | .tuple elements =>
      elements.length < 2 ^ 32 ∧ (∀ d, elements.head? = some (some d) → d.isBert = false) ∧
        FragmentSlots ints bound elements
  | _ => False

def FragmentSlots (ints : Int64 → Prop) (bound : ℕ) : List (Option (Data F)) → Prop
  | [] => True
  | none :: _ => False
  | some d :: rest => Fragment ints bound d ∧ FragmentSlots ints bound rest

end

/-- Terms whose binaries have room in the decoder's blocks. -/
abbrev Portable (ints : Int64 → Prop) : Data F → Prop := Fragment ints (2 ^ 32 - 1)

abbrev PortableSlots (ints : Int64 → Prop) : List (Option (Data F)) → Prop :=
  FragmentSlots ints (2 ^ 32 - 1)

mutual

/-- What becomes of a term. -/
def image : Data F → Data F
  | .int i => .int (readBack i)
  | .tuple elements => .tuple (imageSlots elements)
  | d => d

def imageSlots : List (Option (Data F)) → List (Option (Data F))
  | [] => []
  | none :: rest => none :: imageSlots rest
  | some d :: rest => some (image d) :: imageSlots rest

end

theorem length_imageSlots (elements : List (Option (Data F))) :
    (imageSlots elements).length = elements.length := by
  induction elements with
  | nil => rfl
  | cons slot rest ih => cases slot <;> simp [imageSlots, ih]

theorem isBert_image (d : Data F) : (image d).isBert = d.isBert := by
  cases d <;> simp [image, Data.isBert]

mutual

/-- Terms whose integers survive come back as they were. -/
theorem image_eq_self {bound : ℕ} : ∀ d : Data F, Fragment Survives bound d → image d = d
  | .nil, _ => rfl
  | .boolean _, _ => rfl
  | .int i, h => congrArg Data.int ((readBack_eq_self_iff i).mpr h)
  | .atom _, _ => rfl
  | .bin _, _ => rfl
  | .tuple elements, h => congrArg Data.tuple (imageSlots_eq_self elements h.2.2)

theorem imageSlots_eq_self {bound : ℕ} :
    ∀ elements : List (Option (Data F)), FragmentSlots Survives bound elements →
      imageSlots elements = elements
  | [], _ => rfl
  | none :: _, h => h.elim
  | some d :: rest, h => by
      rw [imageSlots, image_eq_self d h.1, imageSlots_eq_self rest h.2]

end

mutual

theorem encodable_of_fragment {ints : Int64 → Prop} {bound : ℕ} :
    ∀ d : Data F, Fragment ints bound d → Encodable d
  | .nil, _ => trivial
  | .boolean _, h => h
  | .int _, _ => trivial
  | .atom _, _ => trivial
  | .bin _, _ => trivial
  | .tuple elements, h => ⟨h.1, encodableSlots_of_fragment elements h.2.2⟩

theorem encodableSlots_of_fragment {ints : Int64 → Prop} {bound : ℕ} :
    ∀ elements : List (Option (Data F)), FragmentSlots ints bound elements →
      EncodableSlots elements
  | [], _ => trivial
  | none :: _, h => h.elim
  | some d :: rest, h => ⟨encodable_of_fragment d h.1, encodableSlots_of_fragment rest h.2⟩

end

/-! ## The encoding as a wire term -/

mutual

/-- The wire term the encoder writes for a term of the fragment. -/
def wireOf : Data F → Wire
  | .boolean boolean => complexWire (if boolean = 1 then cString "true" else cString "false")
  | .int i => intWire i
  | .atom name => .atom name
  | .bin data => .bin data
  | .tuple elements => .tuple (255 < elements.length) elements.length (wiresOf elements)
  | _ => complexWire (cString "nil")

def wiresOf : List (Option (Data F)) → List Wire
  | [] => []
  | none :: rest => wiresOf rest
  | some d :: rest => wireOf d :: wiresOf rest

end

theorem isMarked_wireOf (d : Data F) : (wireOf d).isMarked = false := by
  cases d with
  | int i =>
      rw [wireOf, intWire, uintWire]
      split_ifs <;> rfl
  | _ => rfl

variable [Platform F]

mutual

theorem bytes_wireOf {ints : Int64 → Prop} {bound : ℕ} :
    ∀ d : Data F, Fragment ints bound d → (wireOf d).bytes = encoding d
  | .nil, _ => bytes_complexWire _
  | .boolean boolean, _ => bytes_complexWire _
  | .int i, _ => by
      rw [wireOf, bytes_intWire, encoding, writes, List.flatten_singleton]
  | .atom name, _ => by
      rw [wireOf, bytes_atom, encoding, writes, List.flatten_singleton]
  | .bin data, _ => by
      rw [wireOf, bytes_bin, encoding, writes, List.flatten_singleton]
  | .tuple elements, h => by
      rw [wireOf, bytes_tuple, bytes_wiresOf elements h.2.2, encoding, writes, List.flatten_cons]

theorem bytes_wiresOf {ints : Int64 → Prop} {bound : ℕ} :
    ∀ elements : List (Option (Data F)), FragmentSlots ints bound elements →
      (Wire.chunksList (wiresOf elements)).flatten = (writesSlots elements).flatten
  | [], _ => rfl
  | none :: _, h => h.elim
  | some d :: rest, h => by
      have hd := bytes_wireOf d h.1
      have hrest := bytes_wiresOf rest h.2
      rw [Wire.bytes, encoding] at hd
      rw [wiresOf, Wire.chunksList, writesSlots, List.flatten_append, List.flatten_append, hd,
        hrest]

end

theorem denoteTuple_of_not_bert {ds : List (Data F)}
    (h : ∀ d, ds.head? = some d → d.isBert = false) :
    denoteTuple ds.length ds = some (.tuple (ds.map some)) := by
  cases ds with
  | nil => rfl
  | cons first rest =>
      simp [denoteTuple, h first rfl]

mutual

theorem denote_wireOf {ints : Int64 → Prop} :
    ∀ d : Data F, Portable ints d → (wireOf d).denote = some (image d)
  | .nil, _ => rfl
  | .boolean boolean, h => by
      rcases h with rfl | rfl <;> rfl
  | .int i, _ => denote_intWire i
  | .atom name, h => by
      rw [wireOf, Wire.denote]
      exact if_pos h
  | .bin data, h => by
      rw [wireOf, Wire.denote]
      exact if_pos h
  | .tuple elements, h => by
      obtain ⟨ds, hds, hslots⟩ := denoteList_wiresOf elements h.2.2
      have hlength : ds.length = elements.length := by
        rw [← length_imageSlots elements, ← hslots, List.length_map]
      have hbound : elements.length < if (255 < elements.length : Bool) then 2 ^ 32 else 2 ^ 8 := by
        have := h.1
        split_ifs with hlarge
        · exact this
        · simp only [decide_eq_true_eq] at hlarge
          omega
      rw [wireOf, Wire.denote, if_pos hbound, hds, image, ← hslots, ← hlength]
      apply denoteTuple_of_not_bert
      intro d hd
      have hhead : (imageSlots elements).head? = some (some d) := by
        rw [← hslots, List.head?_map, hd]
        rfl
      match elements, h with
      | some first :: rest, h =>
          obtain rfl : image first = d := by simpa [imageSlots] using hhead
          rw [isBert_image]
          exact h.2.1 first rfl

theorem denoteList_wiresOf {ints : Int64 → Prop} :
    ∀ elements : List (Option (Data F)), PortableSlots ints elements →
      ∃ ds, Wire.denoteList (wiresOf elements) = some ds ∧ ds.map some = imageSlots elements
  | [], _ => ⟨[], rfl, rfl⟩
  | none :: _, h => h.elim
  | some d :: rest, h => by
      obtain ⟨ds, hds, hslots⟩ := denoteList_wiresOf rest h.2
      refine ⟨image d :: ds, ?_, by rw [imageSlots, ← hslots, List.map_cons]⟩
      exact Wire.denoteList_cons_eq_some_iff.mpr ⟨_, _, denote_wireOf d h.1, hds, rfl⟩

end

/-! ## Binaries without room -/

omit [Platform F] in
theorem tupleWants_of_not_bert {announced : ℕ} {ds : List (Data F)}
    (h : ∀ d, ds.head? = some d → d.isBert = false) (hless : ds.length < announced) :
    tupleWants announced ds = some false := by
  cases ds with
  | nil => exact if_neg (Nat.ne_of_gt hless)
  | cons first rest =>
      rw [tupleWants, h first rfl]
      exact if_pos hless

mutual

/-- The decoder overruns the block of a binary within the encoding. -/
theorem overlong_wireOf {ints : Int64 → Prop} :
    ∀ d : Data F, Fragment ints (2 ^ 32) d → ¬ Portable ints d → (wireOf d).Overlong F
  | .nil, _, hlong => absurd trivial hlong
  | .boolean _, h, hlong => absurd h hlong
  | .int _, h, hlong => absurd h hlong
  | .atom _, h, hlong => absurd h hlong
  | .bin data, h, hlong => by
      rw [Fragment] at h
      rw [Portable, Fragment] at hlong
      exact .bin rfl (by omega)
  | .tuple elements, h, hlong => by
      obtain ⟨before, v, behind, ds, hwires, hds, hv, hless, hhead⟩ :=
        overlong_wiresOf elements h.2.2 fun hslots ↦ hlong ⟨h.1, h.2.1, hslots⟩
      have hfits : (Opening.tuple (255 < elements.length : Bool) elements.length).Fits := by
        have hlength := h.1
        rw [Opening.Fits]
        split_ifs with hlarge
        · exact hlength
        · simp only [decide_eq_true_eq] at hlarge
          omega
      refine .tuple (congrArg (Wire.tuple _ _) hwires) hds hfits
        (tupleWants_of_not_bert (fun d hd ↦ ?_) hless) hv
      obtain ⟨first, hfirst, rfl⟩ := hhead d hd
      rw [isBert_image]
      exact h.2.1 first hfirst

theorem overlong_wiresOf {ints : Int64 → Prop} :
    ∀ elements : List (Option (Data F)), FragmentSlots ints (2 ^ 32) elements →
      ¬ PortableSlots ints elements →
        ∃ before v behind ds, wiresOf elements = before ++ v :: behind ∧
          Wire.denoteList before = some ds ∧ v.Overlong F ∧ ds.length < elements.length ∧
          ∀ d, ds.head? = some d → ∃ first, elements.head? = some (some first) ∧ image first = d
  | [], _, hlong => absurd trivial hlong
  | none :: _, h, _ => h.elim
  | some d :: rest, h, hlong => by
      by_cases hd : Portable ints d
      · obtain ⟨before, v, behind, ds, hwires, hds, hv, hless, -⟩ :=
          overlong_wiresOf rest h.2 fun hrest ↦ hlong ⟨hd, hrest⟩
        refine ⟨wireOf d :: before, v, behind, image d :: ds, congrArg _ hwires, ?_, hv,
          Nat.succ_lt_succ hless, ?_⟩
        · exact Wire.denoteList_cons_eq_some_iff.mpr ⟨_, _, denote_wireOf d hd, hds, rfl⟩
        · rintro _ ⟨⟩
          exact ⟨d, rfl, rfl⟩
      · exact ⟨[], wireOf d, wiresOf rest, [], rfl, rfl, overlong_wireOf d h.1 hd,
          Nat.succ_pos _, fun d hd ↦ by cases hd⟩

end

/-! ## Pulling what was pushed -/

/-- The wire term of the next term that is pushed. -/
def pushedWire (wroteMagic : Bool) (d : Data F) : Wire :=
  if wroteMagic then wireOf d else .marked (wireOf d)

theorem output_cons {ints : Int64 → Prop} {bound : ℕ} {d : Data F} (hd : Fragment ints bound d)
    (wroteMagic : Bool) (ds : List (Data F)) :
    output wroteMagic (d :: ds) = (pushedWire wroteMagic d).bytes ++ output true ds := by
  rw [output_true, output, ← bytes_wireOf d hd]
  cases wroteMagic <;> rfl

theorem denote_pushedWire {ints : Int64 → Prop} {d : Data F} (hd : Portable ints d)
    (wroteMagic : Bool) : (pushedWire wroteMagic d).denote = some (image d) := by
  cases wroteMagic with
  | true => exact denote_wireOf d hd
  | false => exact (Wire.denote_marked_of (isMarked_wireOf d)).trans (denote_wireOf d hd)

theorem overlong_pushedWire {ints : Int64 → Prop} {d : Data F} (hd : Fragment ints (2 ^ 32) d)
    (hlong : ¬ Portable ints d) (wroteMagic : Bool) : (pushedWire wroteMagic d).Overlong F := by
  have hwire := overlong_wireOf d hd hlong
  cases wroteMagic with
  | true => exact hwire
  | false => exact .marked (isMarked_wireOf d) hwire

theorem run_plain_of_denote {depth : ℕ} {w : Wire} {d : Data F} {rest : List UInt8}
    (hdepth : w.bytes.length ≤ depth) (hdenote : w.denote = some d) :
    run plainReader (bertDecoderPull depth) (w.bytes ++ rest) =
      .done ((1, some d) : Result F) rest :=
  run_bertDecoderPull_of_delivers (w.height_lt_length_bytes.trans_le hdepth) hdenote
    (plainReader_delivers_iff.mpr rfl)

theorem run_plain_of_overlong {depth : ℕ} {w : Wire} (rest : List UInt8)
    (hdepth : w.bytes.length ≤ depth) (hlong : w.Overlong F) :
    ∃ t, run plainReader (bertDecoderPull depth : Decode F _) (w.bytes ++ rest) = .fault t :=
  hlong.run (w.height_lt_length_bytes.trans_le hdepth) (plainReader_delivers_iff.mpr rfl)

/-- A pull of the output of an encoder returns the image of the first term. -/
theorem run_output_of_portable {ints : Int64 → Prop} {d : Data F} {ds : List (Data F)}
    {wroteMagic : Bool} (hd : Portable ints d) {depth : ℕ}
    (hdepth : (output wroteMagic (d :: ds)).length ≤ depth) (rest : List UInt8) :
    run plainReader (bertDecoderPull depth) (output wroteMagic (d :: ds) ++ rest) =
      .done ((1, some (image d)) : Result F) (output true ds ++ rest) := by
  rw [output_cons hd, List.length_append] at hdepth
  rw [output_cons hd, List.append_assoc]
  exact run_plain_of_denote (by omega) (denote_pushedWire hd wroteMagic)

/-- A term with a binary that is too long is not pulled back. -/
theorem run_output_of_not_portable {ints : Int64 → Prop} {d : Data F} {ds : List (Data F)}
    {wroteMagic : Bool} (hd : Fragment ints (2 ^ 32) d) (hlong : ¬ Portable ints d) {depth : ℕ}
    (hdepth : (output wroteMagic (d :: ds)).length ≤ depth) (rest : List UInt8) :
    ∃ t, run plainReader (bertDecoderPull depth : Decode F _)
        (output wroteMagic (d :: ds) ++ rest) = .fault t := by
  rw [output_cons hd, List.length_append] at hdepth
  rw [output_cons hd, List.append_assoc]
  exact run_plain_of_overlong _ (by omega) (overlong_pushedWire hd hlong wroteMagic)

theorem length_output_true_le {ints : Int64 → Prop} {bound : ℕ} {d : Data F} (wroteMagic : Bool)
    (hd : Fragment ints bound d) (ds : List (Data F)) :
    (output true ds).length ≤ (output wroteMagic (d :: ds)).length := by
  rw [output_cons hd, List.length_append]
  exact Nat.le_add_left _ _

/-- The output of an encoder, with the magic byte or without, is pulled as the images of
the terms. -/
theorem yields_output {ints : Int64 → Prop} {ds : List (Data F)} {wroteMagic : Bool}
    (hds : ∀ d ∈ ds, Portable ints d) {depth : ℕ} (hdepth : (output wroteMagic ds).length ≤ depth)
    (rest : List UInt8) :
    Yields plainReader (bertDecoderPull depth) (output wroteMagic ds ++ rest) (ds.map image)
      rest := by
  induction ds generalizing wroteMagic with
  | nil => exact .nil rest
  | cons d ds ih =>
      obtain ⟨hd, hds⟩ := List.forall_mem_cons.mp hds
      exact .cons (run_output_of_portable hd hdepth rest)
        (ih hds ((length_output_true_le wroteMagic hd ds).trans hdepth))

/-- Where a binary is too long, one of the pulls writes past its block. -/
theorem fault_mem_runs_output {ints : Int64 → Prop} {ds : List (Data F)} {wroteMagic : Bool}
    (hds : ∀ d ∈ ds, Fragment ints (2 ^ 32) d) (hlong : ¬ ∀ d ∈ ds, Portable ints d)
    {depth : ℕ} (hdepth : (output wroteMagic ds).length ≤ depth) (rest : List UInt8) (n : ℕ) :
    .fault () ∈ runs plainReader (fun _ ↦ ()) (bertDecoderPull depth : Decode F _)
      (ds.length + n) (output wroteMagic ds ++ rest) := by
  induction ds generalizing wroteMagic with
  | nil => exact absurd (by simp) hlong
  | cons d ds ih =>
      obtain ⟨hd, hds⟩ := List.forall_mem_cons.mp hds
      rw [List.length_cons, Nat.add_right_comm, runs]
      by_cases hportable : Portable ints d
      · have hrest : ¬ ∀ d ∈ ds, Portable ints d :=
          fun hrest ↦ hlong (List.forall_mem_cons.mpr ⟨hportable, hrest⟩)
        rw [run_output_of_portable hportable hdepth rest]
        exact List.mem_cons_of_mem _
          (ih hds hrest ((length_output_true_le wroteMagic hd ds).trans hdepth))
      · obtain ⟨t, hfault⟩ := run_output_of_not_portable hd hportable hdepth rest
        rw [hfault]
        exact List.mem_singleton_self _

/-- On a decoder over what an encoder stored, successive pulls return the images of
the terms pushed and then 0. -/
theorem pulls_output {ints : Int64 → Prop} {ds : List (Data F)} {wroteMagic : Bool}
    (hds : ∀ d ∈ ds, Portable ints d) (stream : Bool) (source : PlainSource ρ) (s : ρ)
    (hcontents : source.contents s = output wroteMagic ds) {depth : ℕ}
    (hdepth : (output wroteMagic ds).length < depth) :
    pulls windowReader (fun _ ↦ ()) depth (ds.length + 1)
        (freshDecoder stream source.toSource s) =
      (ds.map image).map (fun d ↦ .done (1, some d) ()) ++ [.done (0, none) ()] := by
  obtain ⟨depth, rfl⟩ : ∃ k, depth = k + 1 := ⟨depth - 1, by omega⟩
  have hyields := yields_output hds hdepth.le []
  rw [List.append_nil] at hyields
  have hruns := runs_of_yields hyields 1
  rw [pulls_results_eq_plain, hcontents, pulls, ← List.length_map image, hruns]
  rfl

theorem pulls_output_ne {ints : Int64 → Prop} {ds : List (Data F)}
    (hds : ∀ d ∈ ds, Fragment ints (2 ^ 32) d) (hlong : ¬ ∀ d ∈ ds, Portable ints d)
    (stream : Bool) (source : PlainSource ρ) (s : ρ)
    (hcontents : source.contents s = output false ds) {depth : ℕ}
    (hdepth : (output false ds).length < depth) (ds' : List (Data F)) :
    pulls windowReader (fun _ ↦ ()) depth (ds.length + 1)
        (freshDecoder stream source.toSource s) ≠
      ds'.map (fun d ↦ .done (1, some d) ()) ++ [.done (0, none) ()] := by
  intro hpulls
  have hfault := fault_mem_runs_output hds hlong hdepth.le [] 1
  rw [pulls_results_eq_plain, hcontents, pulls] at hpulls
  rw [List.append_nil, hpulls] at hfault
  simp at hfault

/-- Round trip over scalars and tuples: what is pushed into a sink that takes
every write and pulled from a source that delivers what the sink stored comes
back, term by term, and then the source is at its end, exactly when every binary has
fewer than `2 ^ 32 - 1` bytes. -/
theorem round_trip_iff (receiving : Receiving ω) {e : Encoder ω} {room : ℕ} {ds : List (Data F)}
    (hds : ∀ d ∈ ds, Fragment Survives (2 ^ 32) d) (hfresh : e.wroteMagic = false)
    (hempty : receiving.stored e.mode = []) (htakes : receiving.Takes e.mode room)
    (hroom : (output false ds).length ≤ room) :
    ∃ e', pushAll ds e = some (bertSuccess, e') ∧
      ∀ (ρ : Type) (stream : Bool) (source : PlainSource ρ) (s : ρ) (depth : ℕ),
        source.contents s = receiving.stored e'.mode → (source.contents s).length < depth →
          (pulls (F := F) windowReader (fun _ ↦ ()) depth (ds.length + 1)
              (freshDecoder stream source.toSource s) =
            ds.map (fun d ↦ .done (1, some d) ()) ++ [.done (0, none) ()] ↔
              ∀ d ∈ ds, Fragment Survives (2 ^ 32 - 1) d) := by
  obtain ⟨e', hpush, hstored⟩ := receiving.pushAll
    (fun d hd ↦ encodable_of_fragment d (hds d hd)) htakes (by rwa [hfresh])
  refine ⟨e', hpush, fun ρ stream source s depth hcontents hdepth ↦ ?_⟩
  rw [hempty, List.nil_append, hfresh] at hstored
  rw [hstored] at hcontents
  constructor
  · intro hpulls
    by_contra hlong
    exact pulls_output_ne hds hlong stream source s hcontents (hcontents ▸ hdepth) ds hpulls
  · intro hportable
    have himages : ds.map image = ds :=
      (List.map_congr_left fun d hd ↦ image_eq_self d (hds d hd)).trans (List.map_id ds)
    rw [pulls_output hportable stream source s hcontents (hcontents ▸ hdepth), himages]

/-- `{nil, {INT64_MIN, atom}, 300}` and a binary, through a callback. -/
theorem round_trip_iff_nested :
    ∃ e', pushAll (F := Empty) [.tuple [some .nil, some (.tuple
          [some (.int (-9223372036854775808)), some (.atom (cString "bert"))]), some (.int 300)],
            .bin [1, 2, 3]]
        (bertEncoderCallback bertEncoderCreate AcceptingSink.recording.toSink []) =
          some (bertSuccess, e') ∧
      ∀ (ρ : Type) (stream : Bool) (source : PlainSource ρ) (s : ρ) (depth : ℕ),
        source.contents s = AcceptingSink.recording.receiving.stored e'.mode →
        (source.contents s).length < depth →
          (pulls (F := Empty) windowReader (fun _ ↦ ()) depth 3
              (freshDecoder stream source.toSource s) =
            [.done (1, some (.tuple [some .nil, some (.tuple [some (.int (-9223372036854775808)),
                some (.atom (cString "bert"))]), some (.int 300)])) (),
              .done (1, some (.bin [1, 2, 3])) (), .done (0, none) ()] ↔
            ∀ d ∈ ([.tuple [some .nil, some (.tuple [some (.int (-9223372036854775808)),
                some (.atom (cString "bert"))]), some (.int 300)], .bin [1, 2, 3]] :
                  List (Data Empty)), Fragment Survives (2 ^ 32 - 1) d) := by
  refine round_trip_iff (F := Empty) AcceptingSink.recording.receiving ?_ rfl rfl ⟨[], .inr rfl⟩
    (Nat.le_refl _)
  intro d hd
  simp only [List.mem_cons, List.not_mem_nil, or_false] at hd
  rcases hd with rfl | rfl
  · have hinner : FragmentSlots Survives (2 ^ 32)
        [some (.int (-9223372036854775808)), some (.atom (cString "bert") : Data Empty)] :=
      ⟨.inr (by decide), (by decide : 4 < 2 ^ 16), trivial⟩
    have htuple : Fragment Survives (2 ^ 32) (.tuple [some (.int (-9223372036854775808)),
        some (.atom (cString "bert") : Data Empty)]) :=
      ⟨by decide, fun d hd ↦ by cases hd; rfl, hinner⟩
    exact ⟨by decide, fun d hd ↦ by cases hd; rfl, trivial, htuple, .inl (by decide), trivial⟩
  · exact (by decide : 3 < 2 ^ 32)

/-- A binary of `2 ^ 32 - 1` bytes is pushed with success and not pulled back. -/
theorem longest_bin_not_pulled_back :
    ¬ ∀ (ds : List (Data Empty)) (e' : Encoder (List UInt8)),
      (∀ d ∈ ds, Fragment Survives (2 ^ 32) d) →
      pushAll ds (bertEncoderCallback bertEncoderCreate AcceptingSink.recording.toSink []) =
        some (bertSuccess, e') →
      ∀ depth, (AcceptingSink.recording.receiving.stored e'.mode).length < depth →
        pulls (F := Empty) windowReader (fun _ ↦ ()) depth (ds.length + 1)
            (freshDecoder false PlainSource.ofList.toSource
              (AcceptingSink.recording.receiving.stored e'.mode)) =
          ds.map (fun d ↦ .done (1, some d) ()) ++ [.done (0, none) ()] := by
  intro h
  obtain ⟨data, hmax⟩ : ∃ data : List UInt8, data.length = 2 ^ 32 - 1 :=
    ⟨List.replicate (2 ^ 32 - 1) 0, List.length_replicate⟩
  have hds : ∀ d ∈ [(.bin data : Data Empty)], Fragment Survives (2 ^ 32) d := by
    intro d hd
    obtain rfl := List.mem_singleton.mp hd
    rw [Fragment]
    omega
  have hlong : ¬ ∀ d ∈ [(.bin data : Data Empty)], Portable Survives d := by
    intro hportable
    have hbin := hportable _ (List.mem_singleton_self _)
    rw [Portable, Fragment] at hbin
    omega
  obtain ⟨e', hpush, hstored⟩ := AcceptingSink.recording.receiving.pushAll
    (e := bertEncoderCallback bertEncoderCreate AcceptingSink.recording.toSink [])
    (fun d hd ↦ encodable_of_fragment d (hds d hd)) ⟨[], .inr rfl⟩ (Nat.le_refl _)
  have hpulls := h _ e' hds hpush _ (Nat.lt_succ_self _)
  exact pulls_output_ne hds hlong false PlainSource.ofList _ hstored
    (hstored ▸ Nat.lt_succ_self _) _ hpulls

/-! ## Integers at any position -/

/-- The term at a position, a path of element numbers through nested tuples. -/
def Data.position : List ℕ → Data F → Option (Data F)
  | [], d => some d
  | k :: path, .tuple elements => elements[k]?.join.bind (position path)
  | _ :: _, _ => Option.none

omit [Platform F] in
theorem imageSlots_eq_map (elements : List (Option (Data F))) :
    imageSlots elements = elements.map (Option.map image) := by
  induction elements with
  | nil => rfl
  | cons slot rest ih => cases slot <;> simp [imageSlots, ih]

omit [Platform F] in
theorem position_image {path : List ℕ} {d d' : Data F} (h : d.position path = some d') :
    (image d).position path = some (image d') := by
  induction path generalizing d with
  | nil =>
      cases h
      rfl
  | cons k path ih =>
      cases d with
      | tuple elements =>
          rw [Data.position, Option.bind_eq_some_iff] at h
          obtain ⟨c, hc, hpath⟩ := h
          rw [Option.join_eq_some_iff] at hc
          rw [image, Data.position, imageSlots_eq_map, List.getElem?_map, hc]
          exact ih hpath
      | _ => cases h

/-- An integer at any position inside nested tuples comes back with its value
exactly when it is not negative or below the range of `BERT_INT`. -/
theorem integer_survives_iff (receiving : Receiving ω) {e : Encoder ω} {room : ℕ} {d : Data F}
    {path : List ℕ} {i : Int64} (hd : Portable (fun _ ↦ True) d)
    (hposition : d.position path = some (.int i)) (hfresh : e.wroteMagic = false)
    (hempty : receiving.stored e.mode = []) (htakes : receiving.Takes e.mode room)
    (hroom : (output false [d]).length ≤ room) :
    ∃ e', pushAll [d] e = some (bertSuccess, e') ∧
      ∀ (ρ : Type) (stream : Bool) (source : PlainSource ρ) (s : ρ) (depth : ℕ),
        source.contents s = receiving.stored e'.mode → (source.contents s).length < depth →
          ((∃ d', pulls (F := F) windowReader (fun _ ↦ ()) depth 1
                (freshDecoder stream source.toSource s) = [.done (1, some d') ()] ∧
              d'.position path = some (.int i)) ↔
            0 ≤ i ∨ i < bertMinInt) := by
  have hds : ∀ d' ∈ [d], Portable (fun _ ↦ True) d' := by simpa using hd
  obtain ⟨e', hpush, hstored⟩ := receiving.pushAll
    (fun d' hd' ↦ encodable_of_fragment d' (hds d' hd')) htakes (by rwa [hfresh])
  refine ⟨e', hpush, fun ρ stream source s depth hcontents hdepth ↦ ?_⟩
  rw [hempty, List.nil_append, hfresh] at hstored
  rw [hstored] at hcontents
  have hyields := yields_output hds (hcontents ▸ hdepth.le) []
  rw [List.append_nil] at hyields
  have hruns := runs_of_yields hyields 0
  have hpulls : pulls (F := F) windowReader (fun _ ↦ ()) depth 1
      (freshDecoder stream source.toSource s) = [.done (1, some (image d)) ()] := by
    rw [pulls_results_eq_plain, hcontents]
    exact hruns
  have hread := position_image hposition
  rw [hpulls]
  constructor
  · rintro ⟨d', hd', hposition'⟩
    obtain rfl : image d = d' := by simpa using hd'
    rw [hread, image] at hposition'
    exact (readBack_eq_self_iff i).mp (by simpa using hposition')
  · intro hsurvives
    refine ⟨image d, rfl, ?_⟩
    rw [hread, image, (readBack_eq_self_iff i).mpr hsurvives]

/-- The second element of the first of `{{nil, 5}, -1}` and the second of the
whole. -/
theorem integer_survives_iff_nested :
    ∃ e', pushAll (F := Empty) [.tuple [some (.tuple [some .nil, some (.int 5)]), some (.int (-1))]]
        (bertEncoderCallback bertEncoderCreate AcceptingSink.recording.toSink []) =
          some (bertSuccess, e') ∧
      ∀ (ρ : Type) (stream : Bool) (source : PlainSource ρ) (s : ρ) (depth : ℕ),
        source.contents s = AcceptingSink.recording.receiving.stored e'.mode →
        (source.contents s).length < depth →
          ((∃ d', pulls (F := Empty) windowReader (fun _ ↦ ()) depth 1
                (freshDecoder stream source.toSource s) = [.done (1, some d') ()] ∧
              d'.position [0, 1] = some (.int 5)) ↔
            (0 : Int64) ≤ 5 ∨ (5 : Int64) < bertMinInt) := by
  have hinner : Portable (fun _ ↦ True) (.tuple [some .nil, some (.int 5 : Data Empty)]) :=
    ⟨by decide, fun d hd ↦ by cases hd; rfl, trivial, trivial, trivial⟩
  exact integer_survives_iff AcceptingSink.recording.receiving
    ⟨by decide, fun d hd ↦ by cases hd; rfl, hinner, trivial, trivial⟩ rfl rfl rfl ⟨[], .inr rfl⟩
    (Nat.le_refl _)

/-- The integer -1 comes back as 4294967295. -/
theorem minus_one_does_not_survive :
    ¬ ∀ (i : Int64) (e' : Encoder (List UInt8)),
      bertEncoderPush (.int i : Data Empty)
          (bertEncoderCallback bertEncoderCreate AcceptingSink.recording.toSink []) =
        some (bertSuccess, e') →
      ∀ depth, (AcceptingSink.recording.receiving.stored e'.mode).length < depth →
        pulls (F := Empty) windowReader (fun _ ↦ ()) depth 1
            (freshDecoder false PlainSource.ofList.toSource
              (AcceptingSink.recording.receiving.stored e'.mode)) =
          [.done (1, some (.int i)) ()] := by
  intro h
  have hsame := h (-1) _ rfl 7 (by decide)
  have hpull : pulls (F := Empty) windowReader (fun _ ↦ ()) 7 1
      (freshDecoder false PlainSource.ofList.toSource [131, 98, 255, 255, 255, 255]) =
        [.done (1, some (.int 4294967295)) ()] := rfl
  have hvalue : (4294967295 : Int64) = -1 := by
    simpa using hpull.symm.trans hsame
  exact absurd hvalue (by decide)

end LibBert
