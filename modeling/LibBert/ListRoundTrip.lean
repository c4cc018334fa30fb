import LibBert.Framing
import LibBert.RoundTrip
import LibBert.Wire.Outruns

/-!
# Lists and dictionaries on the wire

What the encoder writes for a term that holds a list or dictionary is never
pulled back as that term with the decoder at the first byte of what follows.
-/

namespace LibBert

open Reading Bytes

variable {F ω ρ : Type}

mutual

theorem encodable_of_listable : ∀ d : Data F, Listable d → Encodable d
  | .nil, _ => trivial
  | .boolean _, h => h
  | .int _, _ => trivial
  | .atom _, _ => trivial
  | .bin _, _ => trivial
  | .tuple elements, h => ⟨h.1, encodableSlots_of_listable elements h.2⟩
  | .list entries, h => encodableList_of_listable entries h.2
  | .dict entries, h => encodablePairs_of_listable entries h.2

theorem encodableSlots_of_listable :
    ∀ elements : List (Option (Data F)), ListableSlots elements → EncodableSlots elements
  | [], _ => trivial
  | none :: _, h => h.elim
  | some d :: rest, h => ⟨encodable_of_listable d h.1, encodableSlots_of_listable rest h.2⟩

theorem encodableList_of_listable :
    ∀ entries : List (Data F), ListableList entries → EncodableList entries
  | [], _ => trivial
  | d :: rest, h => ⟨encodable_of_listable d h.1, encodableList_of_listable rest h.2⟩

theorem encodablePairs_of_listable :
    ∀ entries : List (Option (Data F) × Option (Data F)), ListablePairs entries →
      EncodablePairs entries
  | [], _ => trivial
  | (none, _) :: _, h => h.elim
  | (some _, none) :: _, h => h.elim
  | (some key, some value) :: rest, h =>
      ⟨encodable_of_listable key h.1, encodable_of_listable value h.2.1,
        encodablePairs_of_listable rest h.2.2⟩

end

/-- A term of the fragment is none that is left over from an input that ends
too early. -/
theorem Data.Held.not_listable {d : Data F} (h : d.Held) : ¬ Listable d := by
  have hslots {slot : Option (Data F)} {slots : List (Option (Data F))}
      (hslots : ListableSlots (slots ++ [slot])) : ∃ d, slot = some d ∧ Listable d := by
    induction slots with
    | nil =>
        cases slot with
        | none => exact hslots.elim
        | some d => exact ⟨d, rfl, hslots.1⟩
    | cons first rest ih =>
        cases first with
        | none => exact hslots.elim
        | some d => exact ih hslots.2
  induction h with
  | time time => exact id
  | unset slots =>
      rintro ⟨-, hlistable⟩
      obtain ⟨d, hd, -⟩ := hslots hlistable
      cases hd
  | last slots hheld ih =>
      rintro ⟨-, hlistable⟩
      obtain ⟨d, ⟨⟩, hd⟩ := hslots hlistable
      exact ih hd

/-! ## Pulling a list that was pushed -/

variable [Platform F]

omit [Platform F] in
/-- What a decoder over a source still delivers is fixed by its state. -/
theorem PlainSource.rest_unique (source : PlainSource ρ) {total : ℕ} {d : Decoder ρ}
    {rest rest' : List UInt8} (h : source.feeding.Refines total 0 d rest)
    (h' : source.feeding.Refines total 0 d rest') : rest = rest' := by
  obtain ⟨upcoming, ⟨s, hmode, rfl⟩, rfl, -⟩ := h.upcoming
  obtain ⟨upcoming', ⟨s', hmode', rfl⟩, rfl, -⟩ := h'.upcoming
  rcases hmode with hmode | hmode <;> rcases hmode' with hmode' | hmode' <;>
    rw [hmode] at hmode' <;> cases hmode' <;> rfl

/-- A term that holds a list or dictionary is not pulled back with the decoder
at the first byte of what was pushed behind it. -/
theorem run_output_ne {wroteMagic : Bool} {d : Data F} {ds : List (Data F)} {depth : ℕ}
    (hd : Listable d) (hlist : holdsList d = true)
    (hdepth : (output wroteMagic (d :: ds)).length < depth) :
    run plainReader (bertDecoderPull depth : Decode F _) (output wroteMagic (d :: ds)) ≠
      .done (1, some d) (ds.map encoding).flatten := by
  intro hrun
  rcases one_cases (plainReader_ends _) (plainReader_drains _) hdepth hrun with
    ⟨w, e, hdenote, ⟨⟩, hdelivers⟩ | ⟨-, ⟨⟩, -⟩ | ⟨-, -, e, hheld, ⟨⟩⟩
  · have hb := plainReader_delivers_iff.mp hdelivers
    have hbytes : (if wroteMagic then [] else [bertMagic]) ++ encoding d = w.bytes :=
      List.append_cancel_right hb
    cases wroteMagic with
    | true => exact Wire.denote_ne_of_encoding hd hlist hbytes.symm hdenote
    | false =>
        rw [Wire.bytes_eq] at hbytes
        obtain ⟨term, rfl⟩ := Wire.eq_marked_of_tag (List.cons.inj hbytes).1.symm
        exact Wire.denote_ne_of_encoding hd hlist (List.cons.inj hbytes).2.symm
          (Wire.denote_marked hdenote).2
  · exact hheld.not_listable hd

/-- No list and no dictionary survives the wire: whatever is pushed behind it,
and also where it is an element of tuples, it is never pulled back as it was
with the decoder left at the first byte of what follows. -/
theorem lists_never_survive (receiving : Receiving ω) {e : Encoder ω} {room : ℕ} {d : Data F}
    {ds : List (Data F)} (hd : Listable d) (hlist : holdsList d = true)
    (hds : ∀ d' ∈ ds, Encodable d') (htakes : receiving.Takes e.mode room)
    (hroom : (output e.wroteMagic (d :: ds)).length ≤ room) :
    ∃ e' written, pushAll (d :: ds) e = some (bertSuccess, e') ∧
      receiving.stored e'.mode = receiving.stored e.mode ++ written ∧
      ∀ (ρ : Type) (source : PlainSource ρ) (total depth : ℕ) (decoder : Decoder ρ),
        source.feeding.Refines total 0 decoder written → written.length < depth →
          ¬ ∃ decoder', run windowReader (bertDecoderPull depth) decoder =
              .done ((1, some d) : Result F) decoder' ∧
            source.feeding.Refines total 0 decoder' (ds.map encoding).flatten := by
  have hencodable : ∀ d' ∈ d :: ds, Encodable d' := by
    intro d' hd'
    rcases List.mem_cons.mp hd' with rfl | hd'
    · exact encodable_of_listable d' hd
    · exact hds d' hd'
  obtain ⟨e', hpush, hstored⟩ := receiving.pushAll hencodable htakes hroom
  refine ⟨e', _, hpush, hstored, ?_⟩
  rintro ρ source total depth decoder hdecoder hdepth ⟨decoder', hrun, hdecoder'⟩
  obtain ⟨rest, hplain, hrest⟩ := PlainSource.run_plain hdecoder hrun
  rw [source.rest_unique hrest hdecoder'] at hplain
  exact run_output_ne hd hlist hdepth hplain

/-- `{[{bert,dict,[{1,nil}]}]}` and then a binary. -/
theorem lists_never_survive_nested :
    ∃ e' written, pushAll (F := Empty) [.tuple [some (.list [.dict [(some (.int 1), some .nil)]])],
          .bin [1, 2]] (bertEncoderCallback bertEncoderCreate AcceptingSink.recording.toSink []) =
        some (bertSuccess, e') ∧
      AcceptingSink.recording.receiving.stored e'.mode = [] ++ written ∧
      ∀ (ρ : Type) (source : PlainSource ρ) (total depth : ℕ) (decoder : Decoder ρ),
        source.feeding.Refines total 0 decoder written → written.length < depth →
          ¬ ∃ decoder', run windowReader (bertDecoderPull depth) decoder =
              .done ((1, some (.tuple [some (.list [.dict [(some (.int 1), some .nil)]])])) :
                Result Empty) decoder' ∧
            source.feeding.Refines total 0 decoder' [109, 0, 0, 0, 2, 1, 2] := by
  have hpairs : Listable (.dict [(some (.int 1), some (.nil : Data Empty))]) :=
    ⟨by decide, (by decide : (0 : Int64) ≤ 1), trivial, trivial⟩
  exact lists_never_survive AcceptingSink.recording.receiving
    ⟨by decide, ⟨by decide, hpairs, trivial⟩, trivial⟩ rfl (by simp [Encodable]) ⟨[], .inr rfl⟩
    (Nat.le_refl _)

/-- An empty list comes back, but the decoder has consumed the first byte of the
integer behind it. -/
theorem empty_list_consumes_more :
    ¬ ∀ (d : Data Empty) (ds : List (Data Empty)) (e' : Encoder (List UInt8)),
      Listable d → (∀ d' ∈ ds, Listable d') →
      pushAll (d :: ds) (bertEncoderCallback bertEncoderCreate AcceptingSink.recording.toSink []) =
        some (bertSuccess, e') →
      ∀ depth, (AcceptingSink.recording.receiving.stored e'.mode).length < depth →
        ∃ decoder', run windowReader (bertDecoderPull depth)
            (freshDecoder false PlainSource.ofList.toSource
              (AcceptingSink.recording.receiving.stored e'.mode)) =
              .done ((1, some d) : Result Empty) decoder' ∧
          decoder'.consumed = 1 + (encoding d).length := by
  intro h
  have hint : Listable (.int 7 : Data Empty) := (by decide : (0 : Int64) ≤ 7)
  obtain ⟨decoder', hrun, hconsumed⟩ := h (.list []) [.int 7] _ ⟨by decide, trivial⟩
    (fun d hd ↦ List.mem_singleton.mp hd ▸ hint) rfl 9 (by decide)
  have hseven : ∃ decoder'', run windowReader (bertDecoderPull 9) (freshDecoder false
      PlainSource.ofList.toSource [131, 108, 0, 0, 0, 0, 97, 7]) =
        .done ((1, some (.list [])) : Result Empty) decoder'' ∧ decoder''.consumed = 7 :=
    ⟨_, rfl, rfl⟩
  obtain ⟨decoder'', hrun', hconsumed'⟩ := hseven
  cases hrun.symm.trans hrun'
  rw [hconsumed] at hconsumed'
  exact absurd hconsumed' (by decide)

end LibBert
