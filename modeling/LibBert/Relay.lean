import LibBert.Encoder.Sessions
import LibBert.Decoder.Assignment

/-!
# Pushing what was pulled

Every term that a pull of input that is not torn stores can be pushed.  Where no part
of it is a float, a string, a list, a dictionary, a time or a regular expression, its
encoding is read back with the small negative integers changed, and what is read back
is pushed and pulled without a further change.
-/

namespace LibBert

open Reading

variable {F σ ω ω' : Type}

/-! ## What can be pushed -/

theorem encodableSlots_map {ds : List (Data F)} (h : ∀ d ∈ ds, Encodable d) :
    EncodableSlots (ds.map some) := by
  induction ds with
  | nil => trivial
  | cons d ds ih =>
      obtain ⟨hd, hds⟩ := List.forall_mem_cons.mp h
      exact ⟨hd, ih hds⟩

theorem encodableList_iff {ds : List (Data F)} : EncodableList ds ↔ ∀ d ∈ ds, Encodable d := by
  induction ds with
  | nil => simp [EncodableList]
  | cons d ds ih => rw [EncodableList, ih, List.forall_mem_cons]

theorem encodablePairs_of_dictEntries {ds : List (Data F)}
    {entries : List (Option (Data F) × Option (Data F))} (hds : ∀ d ∈ ds, Encodable d)
    (h : dictEntries ds = some entries) : EncodablePairs entries := by
  induction ds using dictEntries.induct generalizing entries with
  | case1 =>
      cases h
      trivial
  | case2 key value rest ih =>
      obtain ⟨entries, hrest, rfl⟩ := Option.map_eq_some_iff.mp h
      obtain ⟨hpair, hds⟩ := List.forall_mem_cons.mp hds
      have hentries := ih hds hrest
      rw [Encodable] at hpair
      cases key with
      | none => exact hpair.2.elim
      | some key =>
          cases value with
          | none => exact hpair.2.2.elim
          | some value => exact ⟨hpair.2.1, hpair.2.2.1, hentries⟩
  | case3 d rest hother =>
      unfold dictEntries at h
      split at h
      · simp_all
      · simp_all
      · cases h

/-! ## What is read back -/

mutual

/-- No part of the term is of a kind whose encoding is not read back. -/
def Relayed : Data F → Prop
  | .nil | .boolean _ | .int _ | .atom _ | .bin _ => True
  | .tuple elements => RelayedSlots elements
  | _ => False

def RelayedSlots : List (Option (Data F)) → Prop
  | [] => True
  | none :: rest => RelayedSlots rest
  | some d :: rest => Relayed d ∧ RelayedSlots rest

end

theorem portableSlots_map {ints : Int64 → Prop} {ds : List (Data F)}
    (h : ∀ d ∈ ds, Relayed d → Portable ints d) (hplain : RelayedSlots (ds.map some)) :
    PortableSlots ints (ds.map some) := by
  induction ds with
  | nil => trivial
  | cons d ds ih =>
      obtain ⟨hd, hds⟩ := List.forall_mem_cons.mp h
      exact ⟨hd hplain.1, ih hds hplain.2⟩

mutual

/-- An integer that was read back survives. -/
theorem portable_image {ints : Int64 → Prop} :
    ∀ d : Data F, Portable ints d → Portable Survives (image d)
  | .nil, _ => trivial
  | .boolean _, h => h
  | .int i, _ => by
      rw [image, Portable, Fragment, survives_iff, readBack_toInt]
      split_ifs <;> omega
  | .atom _, h => h
  | .bin _, h => h
  | .tuple elements, h => by
      refine ⟨?_, ?_, portableSlots_image elements h.2.2⟩
      · rw [length_imageSlots]
        exact h.1
      · intro d hhead
        cases elements with
        | nil => cases hhead
        | cons slot rest =>
            cases slot with
            | none => cases hhead
            | some first =>
                obtain rfl : image first = d := Option.some.inj (Option.some.inj hhead)
                rw [isBert_image]
                exact h.2.1 first rfl

theorem portableSlots_image {ints : Int64 → Prop} :
    ∀ elements : List (Option (Data F)), PortableSlots ints elements →
      PortableSlots Survives (imageSlots elements)
  | [], _ => trivial
  | none :: _, h => h.elim
  | some d :: rest, h => ⟨portable_image d h.1, portableSlots_image rest h.2⟩

end

/-! ## What is pulled -/

variable [Platform F]

theorem encodable_of_denoteComplex {ds : List (Data F)} {d : Data F}
    (hds : ∀ d ∈ ds, Encodable d) (h : denoteComplex ds = some d) : Encodable d := by
  unfold denoteComplex at h
  split at h
  · split_ifs at h <;> cases h <;> simp [Encodable]
  next keyword listData =>
      split_ifs at h
      split at h
      · cases h
        trivial
      next entries =>
          obtain ⟨pairs, hpairs, rfl⟩ := Option.map_eq_some_iff.mp h
          have hentries : Encodable (.list entries) := hds _ (by simp)
          rw [Encodable, encodableList_iff] at hentries
          exact encodablePairs_of_dictEntries hentries hpairs
      · cases h
  · split_ifs at h
    split at h
    · cases h
      trivial
    · cases h
  · split_ifs at h
    cases h
    trivial
  · cases h

/-- What a wire term stands for can be pushed. -/
theorem encodable_of_denote {w : Wire} {d : Data F} (h : w.denote = some d) : Encodable d := by
  induction w using Wire.induct generalizing d with
  | marked term ih => exact ih (Wire.denote_marked h).2
  | nil => cases h; trivial
  | smallInt i => cases h; trivial
  | int i => cases h; trivial
  | bignum large sign magnitude =>
      rw [Wire.denote, Option.ite_none_right_eq_some] at h
      cases h.2
      trivial
  | float text =>
      rw [Wire.denote, Option.ite_none_right_eq_some] at h
      obtain ⟨f, -, rfl⟩ := Option.map_eq_some_iff.mp h.2
      trivial
  | atom name | string text | bin data =>
      rw [Wire.denote, Option.ite_none_right_eq_some] at h
      cases h.2
      trivial
  | tuple large announced elements ih =>
      rw [Wire.denote, Option.ite_none_right_eq_some] at h
      obtain ⟨hannounced, h⟩ := h
      obtain ⟨ds, hds, hdenote⟩ := Option.bind_eq_some_iff.mp h
      have helements : ∀ d ∈ ds, Encodable d := by
        intro d' hd'
        obtain ⟨w, hw, hw'⟩ := exists_of_mem_denoteList hds d' hd'
        exact ih w hw hw'
      rcases denoteTuple_cases hdenote with ⟨rfl, hlength⟩ | ⟨rest, rfl, hcomplex⟩
      · refine ⟨?_, encodableSlots_map helements⟩
        rw [List.length_map, hlength]
        split_ifs at hannounced <;> omega
      · exact encodable_of_denoteComplex (List.forall_mem_cons.mp helements).2 hcomplex
  | list announced elements tail ih =>
      rw [Wire.denote, Option.ite_none_right_eq_some] at h
      obtain ⟨ds, hds, rfl⟩ := Option.map_eq_some_iff.mp h.2
      refine encodableList_iff.mpr fun d' hd' ↦ ?_
      obtain ⟨w, hw, hw'⟩ := exists_of_mem_denoteList hds d' hd'
      exact ih w hw hw'

/-- The lengths of what a wire term stands for fit their fields, and a tuple that opens
with the atom `bert` stands for something else. -/
theorem portable_of_denote {w : Wire} {d : Data F} (h : w.denote = some d) (hd : Relayed d) :
    Portable (fun _ ↦ True) d := by
  induction w using Wire.induct generalizing d with
  | marked term ih => exact ih (Wire.denote_marked h).2 hd
  | nil => cases h; trivial
  | smallInt i => cases h; trivial
  | int i => cases h; trivial
  | bignum large sign magnitude =>
      rw [Wire.denote, Option.ite_none_right_eq_some] at h
      cases h.2
      trivial
  | float text =>
      rw [Wire.denote, Option.ite_none_right_eq_some] at h
      obtain ⟨f, -, rfl⟩ := Option.map_eq_some_iff.mp h.2
      exact hd.elim
  | atom name | bin data =>
      rw [Wire.denote, Option.ite_none_right_eq_some] at h
      cases h.2
      exact h.1
  | string text =>
      rw [Wire.denote, Option.ite_none_right_eq_some] at h
      cases h.2
      exact hd.elim
  | tuple large announced elements ih =>
      have hencodable := encodable_of_denote h
      rw [Wire.denote, Option.ite_none_right_eq_some] at h
      obtain ⟨ds, hds, hdenote⟩ := Option.bind_eq_some_iff.mp h.2
      rcases denoteTuple_cases hdenote with ⟨rfl, hlength⟩ | ⟨rest, rfl, hcomplex⟩
      · refine ⟨hencodable.1, ?_, portableSlots_map (fun d' hd' hplain ↦ ?_) hd⟩
        · intro d' hhead
          cases ds with
          | nil => cases hhead
          | cons first rest =>
              obtain rfl : first = d' := Option.some.inj (Option.some.inj hhead)
              by_contra hbert
              rw [denoteTuple, if_pos (by simpa using hbert)] at hdenote
              split_ifs at hdenote
              rcases denoteComplex_kinds hdenote with
                ⟨h, -⟩ | ⟨_, h⟩ | ⟨_, h⟩ | ⟨_, _, h⟩ | ⟨_, h⟩ <;> cases h
        · obtain ⟨w, hw, hw'⟩ := exists_of_mem_denoteList hds d' hd'
          exact ih w hw hw' hplain
      · rcases denoteComplex_kinds hcomplex with
          ⟨rfl, -⟩ | ⟨boolean, rfl⟩ | ⟨_, rfl⟩ | ⟨_, _, rfl⟩ | ⟨_, rfl⟩
        · trivial
        · exact hencodable
        · exact hd.elim
        · exact hd.elim
        · exact hd.elim
  | list announced elements tail ih =>
      rw [Wire.denote, Option.ite_none_right_eq_some] at h
      obtain ⟨ds, hds, rfl⟩ := Option.map_eq_some_iff.mp h.2
      exact hd.elim

/-! ## Pulls followed by pushes -/

section Pulled

variable {R : BertReader σ} {n depth : ℕ} {s t : σ} {ds : List (Data F)}

/-- Terms that are pulled cleanly are what delivered wire terms stand for. -/
theorem exists_wires_of_yields (hends : Ends R n s) (hdepth : n < depth)
    (hyields : Yields R (bertDecoderPull depth) s ds t)
    (hclean : AlongRuns R clean (bertDecoderPull depth : Decode F _) ds.length s) :
    ∃ ws, Wire.denoteList ws = some ds ∧ Delivers R s (Wire.chunksList ws) t := by
  induction hyields with
  | nil s => exact ⟨[], rfl, delivers_nil_iff.mpr rfl⟩
  | @cons s u t d ds hpull hrest ih =>
      rcases pull_fate (F := F) hends hdepth with
        ⟨v, -, hrun, -⟩ | ⟨code, v, hcode, hrun, -⟩ | ⟨w, d', v, hdenote, hdelivers, hrun, -⟩ |
        ⟨v, -, hrun, -⟩ | ⟨-, hdirty⟩
      · rw [hpull] at hrun
        cases hrun
      · rw [hpull] at hrun
        cases hrun
      · rw [hpull] at hrun
        cases hrun
        obtain ⟨ws, hws, hdelivers'⟩ := ih (hends.after hdelivers) (hclean.2 _ _ hpull)
        exact ⟨w :: ws, Wire.denoteList_cons_eq_some_iff.mpr ⟨d, ds, hdenote, hws, rfl⟩,
          Wire.delivers_chunksList_cons.mpr ⟨u, hdelivers, hdelivers'⟩⟩
      · rw [hpull] at hrun
        cases hrun
      · exact absurd hclean.1 hdirty

theorem exists_denote_of_yields (hends : Ends R n s) (hdepth : n < depth)
    (hyields : Yields R (bertDecoderPull depth) s ds t)
    (hclean : AlongRuns R clean (bertDecoderPull depth : Decode F _) ds.length s) :
    ∀ d ∈ ds, ∃ w : Wire, w.denote = some d := by
  intro d hd
  obtain ⟨ws, hws, -⟩ := exists_wires_of_yields hends hdepth hyields hclean
  obtain ⟨w, -, hw⟩ := exists_of_mem_denoteList hws d hd
  exact ⟨w, hw⟩

/-- Terms that are pulled cleanly are all pushed, to whatever sink has room for them. -/
theorem pulled_pushed (hends : Ends R n s) (hdepth : n < depth)
    (hyields : Yields R (bertDecoderPull depth) s ds t)
    (hclean : AlongRuns R clean (bertDecoderPull depth : Decode F _) ds.length s)
    (receiving : Receiving ω) {e : Encoder ω} {room : ℕ} (htakes : receiving.Takes e.mode room)
    (hroom : (output e.wroteMagic ds).length ≤ room) :
    ∃ e', pushAll ds e = some (bertSuccess, e') ∧
      receiving.stored e'.mode = receiving.stored e.mode ++ output e.wroteMagic ds := by
  refine receiving.pushAll (fun d hd ↦ ?_) htakes hroom
  obtain ⟨w, hw⟩ := exists_denote_of_yields hends hdepth hyields hclean d hd
  exact encodable_of_denote hw

/-- The integer -1, as a bignum. -/
def minusOneDecoder : Decoder (List UInt8) :=
  freshDecoder false PlainSource.ofList.toSource [bertSmallBignum, 1, 1, 1]

theorem ends_minusOneDecoder : Ends windowReader 4 minusOneDecoder :=
  (refines_fresh false PlainSource.ofList.toSlicedSource [bertSmallBignum, 1, 1, 1]).ends

theorem clean_minusOneDecoder :
    AlongRuns windowReader clean (bertDecoderPull 5 : Decode Empty _) 1 minusOneDecoder := by
  refine ⟨?_, fun _ _ _ ↦ trivial⟩
  repeat' constructor
  exact fun _ ↦ ⟨_, rfl, trivial⟩

theorem pulled_pushed_minusOne :
    ∃ e', pushAll [(.int (-1) : Data Empty)]
        (bertEncoderCallback bertEncoderCreate AcceptingSink.recording.toSink []) =
          some (bertSuccess, e') ∧
      AcceptingSink.recording.receiving.stored e'.mode =
        [] ++ output false [(.int (-1) : Data Empty)] :=
  pulled_pushed ends_minusOneDecoder (by decide) (.cons rfl (.nil _)) clean_minusOneDecoder
    AcceptingSink.recording.receiving ⟨[], .inr rfl⟩ (Nat.le_refl _)

/-- Terms that are pulled cleanly and are read back come back from a first sink with the
small negative integers changed, and from then on as they are. -/
theorem relay_settles (hends : Ends R n s) (hdepth : n < depth)
    (hyields : Yields R (bertDecoderPull depth) s ds t)
    (hclean : AlongRuns R clean (bertDecoderPull depth : Decode F _) ds.length s)
    (hkinds : ∀ d ∈ ds, Relayed d) (receiving : Receiving ω) (receiving' : Receiving ω')
    {e : Encoder ω} {e' : Encoder ω'} {room room' : ℕ} (htakes : receiving.Takes e.mode room)
    (htakes' : receiving'.Takes e'.mode room') (hempty : receiving.stored e.mode = [])
    (hempty' : receiving'.stored e'.mode = []) (hroom : (output e.wroteMagic ds).length ≤ room)
    (hroom' : (output e'.wroteMagic (ds.map image)).length ≤ room') :
    (∃ e₁, pushAll ds e = some (bertSuccess, e₁) ∧
        Decodes F (ds.map image) (receiving.stored e₁.mode)) ∧
      ∃ e₂, pushAll (ds.map image) e' = some (bertSuccess, e₂) ∧
        Decodes F (ds.map image) (receiving'.stored e₂.mode) := by
  have hportable : ∀ d ∈ ds, Portable (fun _ ↦ True) d := by
    intro d hd
    obtain ⟨w, hw⟩ := exists_denote_of_yields hends hdepth hyields hclean d hd
    exact portable_of_denote hw (hkinds d hd)
  have himages : ∀ d ∈ ds.map image, Portable Survives d := by
    intro d hd
    obtain ⟨d', hd', rfl⟩ := List.mem_map.mp hd
    exact portable_image d' (hportable d' hd')
  have hsame : (ds.map image).map image = ds.map image :=
    (List.map_congr_left fun d hd ↦ image_eq_self d (himages d hd)).trans (List.map_id _)
  obtain ⟨e₁, hpush, hstored⟩ :=
    receiving.pushAll (fun d hd ↦ encodable_of_fragment d (hportable d hd)) htakes hroom
  obtain ⟨e₂, hpush', hstored'⟩ :=
    receiving'.pushAll (fun d hd ↦ encodable_of_fragment d (himages d hd)) htakes' hroom'
  refine ⟨⟨e₁, hpush, ?_⟩, e₂, hpush', ?_⟩
  · rw [hstored, hempty, List.nil_append]
    exact decodes_part hportable _
  · have hdecodes := decodes_part himages e'.wroteMagic
    rw [hsame] at hdecodes
    rwa [hstored', hempty', List.nil_append]

theorem relay_settles_minusOne :
    (∃ e₁, pushAll [(.int (-1) : Data Empty)]
        (bertEncoderCallback bertEncoderCreate AcceptingSink.recording.toSink []) =
          some (bertSuccess, e₁) ∧
        Decodes Empty [.int 4294967295] (AcceptingSink.recording.receiving.stored e₁.mode)) ∧
      ∃ e₂, pushAll [(.int 4294967295 : Data Empty)]
          (bertEncoderCallback bertEncoderCreate AcceptingSink.recording.toSink []) =
            some (bertSuccess, e₂) ∧
        Decodes Empty [.int 4294967295] (AcceptingSink.recording.receiving.stored e₂.mode) :=
  relay_settles ends_minusOneDecoder (by decide) (.cons rfl (.nil _)) clean_minusOneDecoder
    (by simp [Relayed]) AcceptingSink.recording.receiving AcceptingSink.recording.receiving
    ⟨[], .inr rfl⟩ ⟨[], .inr rfl⟩ rfl rfl (Nat.le_refl _) (Nat.le_refl _)

end Pulled

end LibBert
