import LibBert.Wire.Cut
import LibBert.Wire.Unique

/-!
# Which input is answered with 1

Over a source that answers in full, a result of 1 stands for exactly one wire
term, framed as the format asks for, unless the input starts with a term that is
framed loosely, or ends within a container in one of the ways that are answered
with 1 all the same.
-/

namespace LibBert

open Reading Bytes

variable {F ρ : Type} [Platform F]

/-! ## A torn input holds no whole term -/

section Torn

variable {b rest t : List UInt8} {o : Opening} {ds : List (Data F)} {timePart : Bool}
  {w : Wire} {d : Data F}

/-- A container that starts the input where a wire term does has that term's
elements, so the term has one more where another is wanted. -/
theorem exists_next_of_elements {ws vs : List Wire} {ds' : List (Data F)}
    (hds : Wire.denoteList ws = some ds) (hvs : Wire.denoteList vs = some ds')
    (hbytes : (Wire.chunksList ws).flatten ++ rest = (Wire.chunksList vs).flatten ++ t)
    (hwants : o.wants ds = some timePart) (hlast : o.wants ds' = none) :
    ∃ v e t', Wire.denote v = some (e : Data F) ∧ rest = v.bytes ++ t' := by
  rcases Wire.prefix_of_bytes (fun w _ ↦ w.unique) hds hvs hbytes with ⟨more, rfl⟩ | ⟨more, rfl⟩
  · obtain ⟨ds₁, ds₂, h₁, h₂, rfl⟩ := Wire.denoteList_append_eq_some hvs
    obtain rfl : ds = ds₁ := Option.some.inj (hds.symm.trans h₁)
    cases more with
    | nil =>
        cases h₂
        rw [List.append_nil, hwants] at hlast
        cases hlast
    | cons v more =>
        obtain ⟨e, es, he, -, rfl⟩ := Wire.denoteList_cons_eq_some_iff.mp h₂
        refine ⟨v, e, (Wire.chunksList more).flatten ++ t, he, ?_⟩
        rw [Wire.chunksList_append, List.flatten_append, List.append_assoc] at hbytes
        rw [List.append_cancel_left hbytes, Wire.chunksList, List.flatten_append, List.append_assoc]
        rfl
  · obtain ⟨ds₁, ds₂, h₁, h₂, rfl⟩ := Wire.denoteList_append_eq_some hds
    obtain rfl : ds' = ds₁ := Option.some.inj (hvs.symm.trans h₁)
    obtain ⟨b, hb⟩ := Opening.wants_of_append hwants
    rw [hlast] at hb
    cases hb

/-- Where a wire term starts the input and a container wants an element, the
input goes on with one of the term's elements. -/
theorem exists_next_of_within (hwithin : Within plainReader b o ds rest)
    (hwants : o.wants ds = some timePart) (hdenote : w.denote = some d) (hb : b = w.bytes ++ t) :
    ∃ v e t', Wire.denote v = some (e : Data F) ∧ rest = v.bytes ++ t' := by
  obtain ⟨start, ws, ⟨hfits, hopening⟩, hws, hds⟩ := hwithin
  obtain rfl := plainReader_delivers_iff.mp hws
  -- the term without its mark starts with the header
  obtain ⟨term, hterm, hbytes⟩ : ∃ term, Wire.denote term = some d ∧
      o.tag :: (o.size ++ ((Wire.chunksList ws).flatten ++ rest)) = term.bytes ++ t := by
    rcases hopening with hopening | hopening
    · exact ⟨w, hdenote, by rw [← hb, plainReader_delivers_iff.mp hopening]; simp⟩
    · have hmarked : bertMagic :: o.tag :: (o.size ++ ((Wire.chunksList ws).flatten ++ rest)) =
          w.bytes ++ t := by rw [← hb, plainReader_delivers_iff.mp hopening]; simp
      rw [Wire.bytes_eq, List.cons_append, List.cons.injEq] at hmarked
      obtain ⟨term, rfl⟩ := Wire.eq_marked_of_tag hmarked.1.symm
      exact ⟨term, (Wire.denote_marked hdenote).2, hmarked.2⟩
  rw [Wire.bytes_eq, List.cons_append, List.cons.injEq] at hbytes
  obtain ⟨htag, hbytes⟩ := hbytes
  cases o with
  | tuple large announced =>
      obtain ⟨announced', elements, rfl⟩ := Wire.eq_tuple_of_tag htag.symm
      simp only [Wire.denote, Option.ite_none_right_eq_some, Option.bind_eq_some_iff] at hterm
      obtain ⟨hfits', ds', hds', hdenote'⟩ := hterm
      have hfield : Wire.size large announced ++ ((Wire.chunksList ws).flatten ++ rest) =
          Wire.size large announced' ++ ((Wire.chunksList elements).flatten ++ t) := by
        simpa [Opening.size, Wire.body, Wire.chunks] using hbytes
      obtain ⟨rfl, helements⟩ := Wire.size_eq hfits hfits' hfield
      exact exists_next_of_elements hds hds' helements hwants (tupleWants_of_denote hdenote')
  | list announced =>
      obtain ⟨announced', elements, tail, rfl⟩ := Wire.eq_list_of_tag htag.symm
      simp only [Wire.denote, Option.ite_none_right_eq_some, Option.map_eq_some_iff] at hterm
      obtain ⟨⟨hlength, hfits'⟩, ds', hds', -⟩ := hterm
      have hfield : bigEndian 4 announced ++ ((Wire.chunksList ws).flatten ++ rest) =
          bigEndian 4 announced' ++ ((Wire.chunksList elements).flatten ++ (tail :: t)) := by
        simpa [Opening.size, Wire.body, Wire.chunks] using hbytes
      obtain ⟨rfl, helements⟩ := Bytes.field_eq hfits hfits' hfield
      refine exists_next_of_elements hds hds' helements hwants (if_neg ?_)
      rw [← Wire.length_of_denoteList hds', hlength]
      exact Nat.lt_irrefl _

/-- An input that ends within its term and is answered with a term all the same
does not start with a wire term. -/
theorem Cuts.not_wire (h : Cuts F plainReader b .held) (hdenote : w.denote = some d) :
    b ≠ w.bytes ++ t := by
  generalize hverdict : Verdict.held = verdict at h
  induction h generalizing w d t with
  | @nested b rest o ds timePart verdict hwithin hwants hcut ih =>
      intro hb
      obtain ⟨v, e, t', he, hrest⟩ := exists_next_of_within hwithin hwants hdenote hb
      have hends := plainReader_ends rest
      have hrun := hends.run_of_delivers (Nat.lt_succ_self rest.length) he
        (plainReader_delivers_iff.mpr hrest)
      have hanswers := hcut.answers hends (Nat.lt_succ_self rest.length)
      rw [hrun] at hanswers
      rcases hanswers.of_one with ⟨-, ⟨⟩, -⟩ | ⟨hheld, -⟩
      exact ih he hheld.symm hrest
  | @missing b rest o ds timePart => cases timePart <;> cases hverdict
  | _ => cases hverdict

end Torn

/-! ## Exact framing -/

/-- The input starts with no term that is framed loosely, and does not end
within a container in a way that is answered with 1. -/
def ExactlyFramed (F : Type) [Platform F] (b : List UInt8) : Prop :=
  (∀ w rest, ∀ d : Data F, Wire.denote w = some d → b = w.bytes ++ rest → w.Exact) ∧
    ¬ Cuts F plainReader b .unset ∧ ¬ Cuts F plainReader b .held

/-- A result of 1 always stands for one exactly framed wire term at the start of
the input, whose bytes and no others were consumed, exactly when the input is
exactly framed. -/
theorem exact_framing_iff {source : PlainSource ρ} {total depth : ℕ} {decoder : Decoder ρ}
    {b : List UInt8} (hdecoder : source.feeding.Refines total 0 decoder b)
    (hdepth : b.length < depth) :
    (∀ data decoder', run windowReader (bertDecoderPull depth) decoder =
        .done ((1, data) : Result F) decoder' →
      ∃ w d rest, w.Exact ∧ Wire.denote w = some d ∧ data = some d ∧ b = w.bytes ++ rest ∧
        source.feeding.Refines total 0 decoder' rest ∧
        decoder'.consumed = decoder.consumed + w.bytes.length) ↔
      ExactlyFramed F b := by
  constructor
  · intro hexact
    refine ⟨fun w rest d hdenote hb ↦ ?_, fun hcut ↦ ?_, fun hcut ↦ ?_⟩
    · have hplain := (plainReader_ends b).run_of_delivers hdepth hdenote
        (plainReader_delivers_iff.mpr hb)
      obtain ⟨decoder', hrun, -⟩ := PlainSource.run_window hdecoder hplain
      obtain ⟨w', d', rest', hw', hdenote', -, hb', -⟩ := hexact _ _ hrun
      rwa [w.unique w' d d' rest rest' hdenote hdenote' (hb.symm.trans hb')]
    · obtain ⟨t, -, hplain⟩ := hcut.answers (plainReader_ends b) hdepth
      obtain ⟨decoder', hrun, -⟩ := PlainSource.run_window hdecoder hplain
      obtain ⟨w, d, rest, -, -, hdata, -⟩ := hexact _ _ hrun
      cases hdata
    · obtain ⟨d, t, -, -, hplain⟩ := hcut.answers (plainReader_ends b) hdepth
      obtain ⟨decoder', hrun, -⟩ := PlainSource.run_window hdecoder hplain
      obtain ⟨w, d', rest, -, hdenote, -, hb, -⟩ := hexact _ _ hrun
      exact hcut.not_wire hdenote hb
  · rintro ⟨hframed, hunset, hheld⟩ data decoder' hrun
    obtain ⟨rest, hplain, hdecoder'⟩ := PlainSource.run_plain hdecoder hrun
    rcases one_cases (plainReader_ends b) (plainReader_drains b) hdepth hplain with
      ⟨w, d, hdenote, rfl, hdelivers⟩ | ⟨hcut, -⟩ | ⟨hcut, -⟩
    · obtain rfl : b = w.bytes ++ rest := plainReader_delivers_iff.mp hdelivers
      exact ⟨w, d, rest, hframed w rest d hdenote rfl, hdenote, rfl, rfl, hdecoder',
        hdecoder.consumed_append hdecoder'⟩
    · exact absurd hcut hunset
    · exact absurd hcut hheld

theorem exact_framing_iff_fresh :
    (∀ data decoder', run windowReader (bertDecoderPull 8)
        (freshDecoder false PlainSource.ofList.toSource [104, 2, 97, 5, 104, 0, 106]) =
        .done ((1, data) : Result Empty) decoder' →
      ∃ w d rest, w.Exact ∧ Wire.denote w = some d ∧ data = some d ∧
        [104, 2, 97, 5, 104, 0, 106] = w.bytes ++ rest ∧
        PlainSource.ofList.feeding.Refines 7 0 decoder' rest ∧
        decoder'.consumed = 0 + w.bytes.length) ↔
      ExactlyFramed Empty [104, 2, 97, 5, 104, 0, 106] :=
  exact_framing_iff (refines_fresh false PlainSource.ofList.toSlicedSource
    [104, 2, 97, 5, 104, 0, 106]) (by decide)

/-- An empty list whose tail byte is 7 is answered with a list. -/
theorem list_with_another_tail :
    ¬ ∀ (decoder : Decoder (List UInt8)) (b : List UInt8) (total depth : ℕ),
      PlainSource.ofList.feeding.Refines total 0 decoder b → b.length < depth →
      ∀ data decoder', run windowReader (bertDecoderPull depth) decoder =
          .done ((1, data) : Result Empty) decoder' →
        ∃ w d rest, w.Exact ∧ Wire.denote w = some d ∧ data = some d ∧ b = w.bytes ++ rest ∧
          PlainSource.ofList.feeding.Refines total 0 decoder' rest ∧
          decoder'.consumed = decoder.consumed + w.bytes.length := by
  intro h
  have hfresh := refines_fresh false PlainSource.ofList.toSlicedSource [bertList, 0, 0, 0, 0, 7]
  obtain ⟨w, d, rest, hexact, hdenote, -, hb, -⟩ := h _ _ _ 7 hfresh (by decide) _ _ rfl
  have hloose : (Wire.list 0 [] 7).denote = some (.list [] : Data Empty) := rfl
  obtain rfl := w.unique _ d _ rest [] hdenote hloose hb.symm
  exact absurd hexact.2.1 (by decide)

end LibBert
