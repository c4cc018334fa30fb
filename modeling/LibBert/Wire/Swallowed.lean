import LibBert.Decoder.Answers
import LibBert.Decoder.Refinement
import LibBert.Encoder.Encoding
import LibBert.Wire.Unique

/-!
# Terms without their first byte

A decoder that has swallowed the first byte of a term does not pull that term from
what is left of it.
-/

namespace LibBert

open Reading Bytes

variable {F : Type} [Platform F]

/-! ## How encodings start -/

/-- The term is neither built from others nor complex. -/
def Data.Scalar : Data F → Prop
  | .int _ | .float _ | .atom _ | .string _ | .bin _ => True
  | _ => False

/-- A magic byte that opens neither a tuple nor a list. -/
def ScalarTag (tag : UInt8) : Prop :=
  97 ≤ tag.toNat ∧ tag.toNat ≤ 111 ∧ tag ≠ bertSmallTuple ∧ tag ≠ bertLargeTuple ∧ tag ≠ bertList

theorem ScalarTag.ne_opening {tag : UInt8} (h : ScalarTag tag) (o : Opening) : o.tag ≠ tag := by
  rintro rfl
  obtain ⟨-, -, hsmall, hlarge, hlist⟩ := h
  cases o with
  | tuple large announced => cases large <;> contradiction
  | list announced => contradiction

namespace Opening

variable {o : Opening} {first : Option (Data F)} {e d : Data F}

/-- The header is one the encoder writes. -/
def Least : Opening → Prop
  | .tuple large announced => large = decide (255 < announced) ∧ announced < 2 ^ 32
  | .list _ => True

omit [Platform F] in
theorem Holds.announced_eq_zero (h : o.Holds none d) : o.announced = 0 := by
  cases d with
  | tuple slots =>
      obtain ⟨⟨large, rfl⟩, hfirst⟩ := h
      exact List.length_eq_zero_iff.mpr (List.head?_eq_none_iff.mp hfirst)
  | list entries =>
      obtain ⟨rfl, hfirst⟩ := h
      exact List.length_eq_zero_iff.mpr (List.head?_eq_none_iff.mp hfirst)
  | _ => exact h.elim

omit [Platform F] in
theorem Holds.announced_pos (h : o.Holds (some e) d) : 0 < o.announced := by
  cases d with
  | tuple slots =>
      obtain ⟨⟨large, rfl⟩, hfirst⟩ := h
      cases slots with
      | nil => cases hfirst
      | cons slot rest => exact Nat.succ_pos _
  | list entries =>
      obtain ⟨rfl, hfirst⟩ := h
      cases entries with
      | nil => cases hfirst
      | cons entry rest => exact Nat.succ_pos _
  | _ => exact h.elim

end Opening

theorem tupleHeader_eq (n : ℕ) :
    tupleHeader n = Opening.tag (.tuple (255 < n) n) :: Opening.size (.tuple (255 < n) n) := by
  by_cases hn : n ≤ 255
  · simp [tupleHeader, hn, Nat.not_lt.mpr hn, Opening.tag, Opening.size, Wire.tupleTag, Wire.size,
      bigEndian]
  · simp [tupleHeader, hn, Nat.lt_of_not_le hn, Opening.tag, Opening.size, Wire.tupleTag, Wire.size]

theorem exists_scalarTag_int (i : Int64) :
    ∃ tag rest, ScalarTag tag ∧ encoding (.int i : Data F) = tag :: rest := by
  rw [encoding_int]
  split_ifs
  · unfold intBytes
    split_ifs
    · exact ⟨_, _, by unfold ScalarTag; decide, rfl⟩
    · exact ⟨_, _, by unfold ScalarTag; decide, rfl⟩
  · exact ⟨_, _, by unfold ScalarTag; decide, rfl⟩

omit [Platform F] in
theorem exists_complexHeader (name : List UInt8) {n : ℕ} (hn : n ≤ 3) (rest : List (List UInt8)) :
    ∃ k rest', UInt8.toNat k ≤ 5 ∧ (complexHeader name n ++ rest).flatten =
      bertSmallTuple :: k :: (atomField (cString "bert") ++ rest') := by
  refine ⟨UInt8.ofNat (n + 2), atomField name ++ rest.flatten, ?_, ?_⟩
  · rw [UInt8.toNat_ofNat']
    omega
  · rw [complexHeader, tupleHeader, if_pos (by omega)]
    simp

theorem exists_opening_tuple {elements : List (Option (Data F))}
    (hd : Encodable (.tuple elements)) :
    ∃ first rest, Opening.Holds (.tuple (255 < elements.length) elements.length) first
        (.tuple elements : Data F) ∧ (∀ e, first = some e → Encodable e) ∧
      encoding (.tuple elements : Data F) =
        tupleHeader elements.length ++ (first.elim [] encoding ++ rest) := by
  have hencoding : encoding (.tuple elements : Data F) =
      tupleHeader elements.length ++ (writesSlots elements).flatten := by
    rw [encoding, writes, List.flatten_cons]
  cases elements with
  | nil => exact ⟨none, [], ⟨⟨_, rfl⟩, rfl⟩, by rintro _ ⟨⟩, hencoding⟩
  | cons slot more =>
      cases slot with
      | none => exact hd.2.elim
      | some e =>
          refine ⟨some e, (writesSlots more).flatten, ⟨⟨_, rfl⟩, rfl⟩, ?_, ?_⟩
          · rintro _ ⟨⟩
            exact hd.2.1
          · rw [hencoding, writesSlots, List.flatten_append]
            rfl

theorem exists_opening_list {entries : List (Data F)} (hd : Encodable (.list entries)) :
    ∃ first rest, Opening.Holds (.list entries.length) first (.list entries : Data F) ∧
      (∀ e, first = some e → Encodable e) ∧
      encoding (.list entries : Data F) =
        listHeader entries.length ++ (first.elim [] encoding ++ rest) := by
  have hencoding : encoding (.list entries : Data F) =
      listHeader entries.length ++ (writesList entries).flatten := by
    rw [encoding, writes, List.flatten_cons]
  cases entries with
  | nil => exact ⟨none, [], ⟨rfl, rfl⟩, by rintro _ ⟨⟩, hencoding⟩
  | cons e more =>
      refine ⟨some e, (writesList more).flatten, ⟨rfl, rfl⟩, ?_, ?_⟩
      · rintro _ ⟨⟩
        exact hd.1
      · rw [hencoding, writesList, List.flatten_append]
        rfl

/-- The encoding of a term starts with the magic byte of a scalar, with the header
of a complex term, or with that of a tuple or list and then its first element. -/
theorem encoding_cases {d : Data F} (hd : Encodable d) :
    (∃ tag rest, d.Scalar ∧ ScalarTag tag ∧ encoding d = tag :: rest) ∨
    (∃ k rest, UInt8.toNat k ≤ 5 ∧ (∀ name, d ≠ .atom name) ∧
      encoding d = bertSmallTuple :: k :: (atomField (cString "bert") ++ rest)) ∨
    ∃ o first rest, Opening.Holds o first d ∧ o.Least ∧ (∀ e, first = some e → Encodable e) ∧
      encoding d = o.tag :: (o.size ++ (first.elim [] encoding ++ rest)) := by
  cases d with
  | none => exact hd.elim
  | int i =>
      obtain ⟨tag, rest, htag, hbytes⟩ := exists_scalarTag_int (F := F) i
      exact .inl ⟨tag, rest, trivial, htag, hbytes⟩
  | float f => exact .inl ⟨bertFloat, _, trivial, by unfold ScalarTag; decide, List.append_nil _⟩
  | atom name => exact .inl ⟨bertAtom, _, trivial, by unfold ScalarTag; decide, List.append_nil _⟩
  | string text =>
      exact .inl ⟨bertString, _, trivial, by unfold ScalarTag; decide, List.append_nil _⟩
  | bin data => exact .inl ⟨bertBin, _, trivial, by unfold ScalarTag; decide, List.append_nil _⟩
  | nil =>
      obtain ⟨k, rest, hk, hbytes⟩ :=
        exists_complexHeader (cString "nil") (by decide : 0 ≤ 3) []
      exact .inr (.inl ⟨k, rest, hk, by rintro _ ⟨⟩, by rw [← hbytes, List.append_nil]; rfl⟩)
  | boolean boolean =>
      obtain ⟨k, rest, hk, hbytes⟩ := exists_complexHeader
        (if boolean = 1 then cString "true" else cString "false") (by decide : 0 ≤ 3) []
      exact .inr (.inl ⟨k, rest, hk, by rintro _ ⟨⟩, by rw [← hbytes, List.append_nil]; rfl⟩)
  | dict entries =>
      obtain ⟨k, rest, hk, hbytes⟩ := exists_complexHeader (cString "dict") (by decide : 1 ≤ 3) _
      exact .inr (.inl ⟨k, rest, hk, by rintro _ ⟨⟩, hbytes⟩)
  | time time =>
      obtain ⟨k, rest, hk, hbytes⟩ := exists_complexHeader (cString "time") le_rfl _
      exact .inr (.inl ⟨k, rest, hk, by rintro _ ⟨⟩, hbytes⟩)
  | regex source options =>
      obtain ⟨k, rest, hk, hbytes⟩ := exists_complexHeader (cString "regex") (by decide : 2 ≤ 3) _
      exact .inr (.inl ⟨k, rest, hk, by rintro _ ⟨⟩, hbytes⟩)
  | tuple elements =>
      obtain ⟨first, rest, hholds, hfirst, hbytes⟩ := exists_opening_tuple hd
      refine .inr (.inr ⟨_, first, rest, hholds, ⟨rfl, hd.1⟩, hfirst, ?_⟩)
      rw [hbytes, tupleHeader_eq]
      rfl
  | list entries =>
      obtain ⟨first, rest, hholds, hfirst, hbytes⟩ := exists_opening_list hd
      exact .inr (.inr ⟨_, first, rest, hholds, trivial, hfirst, hbytes⟩)

/-- No encoding starts with a byte that is not a magic byte. -/
theorem encoding_head_bounds {d : Data F} (hd : Encodable d) {c : UInt8} {rest : List UInt8}
    (h : encoding d = c :: rest) : 97 ≤ c.toNat ∧ c.toNat ≤ 111 := by
  rcases encoding_cases hd with
    ⟨tag, rest', -, htag, h'⟩ | ⟨k, rest', -, -, h'⟩ | ⟨o, first, rest', -, -, -, h'⟩ <;>
    rw [h, List.cons.injEq] at h'
  · rw [h'.1]
    exact ⟨htag.1, htag.2.1⟩
  · rw [h'.1]
    decide
  · rw [h'.1]
    exact o.tag_bounds

theorem exists_encoding_cons {d : Data F} (hd : Encodable d) :
    ∃ c rest, encoding d = c :: rest := by
  rcases encoding_cases hd with
    ⟨tag, rest', -, -, h⟩ | ⟨k, rest', -, -, h⟩ | ⟨o, first, rest', -, -, -, h⟩ <;>
    exact ⟨_, _, h⟩

/-! ## Magic bytes of an input -/

theorem tagged_plain_iff {b t : List UInt8} {tag : UInt8} :
    Tagged plainReader b tag t ↔ tag ≠ bertMagic ∧ b = tag :: t ∨ b = bertMagic :: tag :: t := by
  rw [Tagged, plainReader_delivers_iff, plainReader_delivers_iff]
  rfl

section Pulled

variable {depth : ℕ} {b rest u : List UInt8} {c : UInt8} {d x : Data F}

/-- A pull that returns a term found its magic byte. -/
theorem exists_tag_of_pulled
    (hrun : run plainReader (bertDecoderPull (depth + 1)) b = .done (1, some x) u) :
    ∃ tag t, Tagged plainReader b tag t ∧ 97 ≤ tag.toNat ∧ tag.toNat ≤ 111 := by
  obtain ⟨tag, t, htag⟩ := exists_tagged_of_pull hrun
  exact ⟨tag, t, htag, htag.bounds hrun⟩

theorem eq_head_of_tagged {tag : UInt8} {t : List UInt8}
    (h : Tagged plainReader (c :: b) tag t) (hc : c.toNat ≤ 111) : c = tag ∧ b = t := by
  rcases tagged_plain_iff.mp h with ⟨-, heq⟩ | heq
  · exact List.cons.inj heq
  · rw [(List.cons.inj heq).1] at hc
    exact absurd hc (by decide)

/-- Equal sizes behind one magic byte. -/
theorem announced_eq_zero_of_size_eq {o o' : Opening} (htag : o.tag = o'.tag) (hfits : o'.Fits)
    {v v' : List UInt8} (h : o.size ++ v = o'.size ++ v') :
    v = v' ∧ (o.announced = 0 → o'.announced = 0) := by
  have hfield (width m n : ℕ) (hn : n < 256 ^ width)
      (h : bigEndian width m ++ v = bigEndian width n ++ v') : v = v' ∧ (m = 0 → n = 0) := by
    obtain ⟨hsize, hrest⟩ := List.append_inj h (by simp)
    refine ⟨hrest, ?_⟩
    rintro rfl
    exact (bigEndian_injOn (Nat.pow_pos (by decide)) hn hsize).symm
  cases o with
  | tuple large n =>
      cases o' with
      | tuple large' n' =>
          obtain rfl : large = large' := by
            cases large <;> cases large' <;> first | rfl | cases htag
          refine hfield _ n n' ?_ h
          cases large <;> exact hfits
      | list n' => cases large <;> cases htag
  | list n =>
      cases o' with
      | tuple large n' => cases large <;> cases htag
      | list n' => exact hfield 4 n n' hfits h

/-- What starts like a term is not pulled as a tuple or list that holds this term
first. -/
theorem head_not_pulled {g : Data F} {o : Opening} (hg : Encodable g) (hx : o.Holds (some g) x) :
    run plainReader (bertDecoderPull depth) (encoding g ++ rest) ≠ .done (1, some x) u := by
  induction depth generalizing g x o rest u with
  | zero => nofun
  | succ depth ih =>
      intro hrun
      obtain ⟨tag, t, htag, -⟩ := exists_tag_of_pulled hrun
      obtain ⟨o', v, rfl, hfits, hsize, hholds, hpulled⟩ := htag.of_container hrun hx
      obtain ⟨v', hpull⟩ := hpulled g rfl
      obtain rfl := plainReader_delivers_iff.mp hsize
      rcases encoding_cases hg with
        ⟨c, r, -, hc, hbytes⟩ | ⟨k, r, hk, hatom, hbytes⟩ |
        ⟨og, first, r, hog, -, hfirst, hbytes⟩
      · rw [hbytes, List.cons_append] at htag
        exact hc.ne_opening o' (eq_head_of_tagged htag hc.2.1).1.symm
      · -- behind the header of a complex term an atom is pulled
        rw [hbytes, List.cons_append] at htag
        obtain ⟨htags, ht⟩ := eq_head_of_tagged htag (by decide)
        cases o' with
        | list n => cases htags
        | tuple large n =>
            cases large with
            | true => cases htags
            | false =>
                obtain rfl : _ = v := (List.cons.inj ht).2
                cases depth with
                | zero => cases hpull
                | succ depth =>
                    obtain ⟨tag', t', htag', -⟩ := exists_tag_of_pulled hpull
                    obtain ⟨rfl, -⟩ := eq_head_of_tagged htag' (by decide)
                    obtain ⟨name, hname⟩ := htag'.of_atom hpull
                    exact hatom name hname
      · rw [hbytes, List.cons_append] at htag
        obtain ⟨htags, ht⟩ := eq_head_of_tagged htag og.tag_bounds.2
        rw [List.append_assoc, List.append_assoc, List.flatten_singleton] at ht
        obtain ⟨hv, hzero⟩ := announced_eq_zero_of_size_eq htags hfits ht
        cases first with
        | none =>
            have hpos := hholds.announced_pos
            rw [hzero hog.announced_eq_zero] at hpos
            exact absurd hpos (Nat.lt_irrefl 0)
        | some e =>
            rw [← hv] at hpull
            exact ih (hfirst e rfl) hog hpull

/-! ## Pulling behind the first byte -/

/-- A header that stands one byte further along shifts what is behind it. -/
theorem eq_cons_of_append_eq_cons_append {F x v : List UInt8} (h : F ++ x = c :: (F ++ v)) :
    x = c :: v := by
  induction F with
  | nil => exact h
  | cons f F ih =>
      obtain ⟨rfl, htail⟩ := List.cons.inj h
      exact ih htail

omit [Platform F] in
theorem Opening.Holds.size_head {o : Opening} (h : o.Holds (none : Option (Data F)) d) :
    ∃ r, o.size = 0 :: r := by
  have hzero := h.announced_eq_zero
  cases o with
  | tuple large n =>
      obtain rfl : n = 0 := hzero
      cases large <;> exact ⟨_, rfl⟩
  | list n =>
      obtain rfl : n = 0 := hzero
      exact ⟨_, rfl⟩

omit [Platform F] in
/-- A tuple of up to 255 elements can stand behind either header. -/
theorem Opening.Least.eq_or {o o' : Opening} {first : Option (Data F)} (h : o.Least)
    (hx : o.Holds first d) (hx' : o'.Holds first d) (hfits : o'.Fits) :
    o' = o ∨ ∃ n ≤ 255, o = .tuple false n ∧ o' = .tuple true n := by
  cases d with
  | tuple slots =>
      obtain ⟨⟨large, rfl⟩, -⟩ := hx
      obtain ⟨⟨large', rfl⟩, -⟩ := hx'
      obtain ⟨rfl, -⟩ := h
      by_cases hlarge : 255 < slots.length
      · cases large' with
        | true => exact .inl (by rw [decide_eq_true hlarge])
        | false =>
            have hless : slots.length < 2 ^ 8 := hfits
            omega
      · rw [decide_eq_false hlarge]
        cases large' with
        | true => exact .inr ⟨_, Nat.not_lt.mp hlarge, rfl, rfl⟩
        | false => exact .inl rfl
  | list entries =>
      obtain ⟨rfl, -⟩ := hx
      obtain ⟨rfl, -⟩ := hx'
      exact .inl rfl
  | _ => exact hx.elim

section First

variable {o : Opening} {first : Option (Data F)} {r v : List UInt8}

/-- Where a byte other than zero is behind the header of a tuple or list, it is the
first of its first element. -/
theorem exists_first_of_cons (h : o.Holds first d) (hfirst : ∀ e, first = some e → Encodable e)
    {size : List UInt8} (hsize : o.size = c :: size) (hc : c ≠ 0) {c' : UInt8}
    (heq : first.elim [] encoding ++ r = c' :: v) :
    ∃ e re, first = some e ∧ encoding e = c' :: re ∧ re ++ r = v := by
  cases first with
  | none =>
      obtain ⟨size', hzero⟩ := h.size_head
      rw [hsize] at hzero
      exact absurd (List.cons.inj hzero).1 hc
  | some e =>
      obtain ⟨ce, re, hbytes⟩ := exists_encoding_cons (hfirst e rfl)
      rw [Option.elim, hbytes, List.cons_append, List.cons.injEq] at heq
      exact ⟨e, re, rfl, by rw [hbytes, heq.1], heq.2⟩

end First

theorem length_size_cases (o : Opening) :
    (∃ n, o = .tuple false n ∧ o.size = [UInt8.ofNat n]) ∨ ∃ a b c d, o.size = [a, b, c, d] := by
  cases o with
  | tuple large n =>
      cases large with
      | false => exact .inl ⟨n, rfl, by simp [Opening.size, Wire.size, bigEndian]⟩
      | true => exact .inr ⟨_, _, _, _, rfl⟩
  | list n => exact .inr ⟨_, _, _, _, rfl⟩

/-- A tuple of 131 elements is not pulled from among its elements. -/
theorem elements_not_pulled {r v : List UInt8} (hd : Encodable d)
    (hbytes : encoding d = bertSmallTuple :: r) (hr : r ++ rest = bertMagic :: v) :
    run plainReader (bertDecoderPull depth) v ≠ .done (1, some d) u := by
  intro hpull
  rcases encoding_cases hd with
    ⟨c, r', -, hc, hd'⟩ | ⟨k, r', hk, -, hd'⟩ | ⟨o, first, r', ho, -, hfirst, hd'⟩ <;>
    rw [hbytes, List.cons.injEq] at hd'
  · exact hc.2.2.1 hd'.1.symm
  · rw [hd'.2, List.cons_append, List.cons.injEq] at hr
    rw [hr.1] at hk
    exact absurd hk (by decide)
  · obtain ⟨htag, rfl⟩ := hd'
    rcases length_size_cases o with ⟨n, rfl, hsize⟩ | ⟨a, b, c, e, hsize⟩
    · rw [hsize, List.append_assoc, List.singleton_append, List.cons.injEq] at hr
      obtain ⟨hn, rfl⟩ := hr
      cases first with
      | none =>
          obtain ⟨size, hzero⟩ := ho.size_head
          rw [hsize, hn] at hzero
          cases hzero
      | some f =>
          rw [Option.elim, List.append_assoc] at hpull
          exact head_not_pulled (hfirst f rfl) ho hpull
    · cases o with
      | tuple large n =>
          cases large with
          | false => cases hsize
          | true => cases htag
      | list n => cases htag

section Swallowed

variable {o : Opening} {first : Option (Data F)} {r v : List UInt8}

/-- The header stands one byte further along. -/
theorem exists_first_of_shift (h : o.Holds first d) (hfirst : ∀ e, first = some e → Encodable e)
    (hb : o.size ++ (first.elim [] encoding ++ r) = o.tag :: (o.size ++ v)) :
    ∃ e re, first = some e ∧ encoding e = o.tag :: re ∧ re ++ r = v := by
  have htag : o.tag ≠ 0 := by
    intro hzero
    have hlow := o.tag_bounds.1
    rw [hzero] at hlow
    exact absurd hlow (by decide)
  have hrest := eq_cons_of_append_eq_cons_append hb
  obtain ⟨c, size, hsize⟩ : ∃ c size, o.size = c :: size := by
    rcases length_size_cases o with ⟨n, -, hsize⟩ | ⟨a, b, c, e, hsize⟩ <;> exact ⟨_, _, hsize⟩
  have hc : c = o.tag := by
    rw [hsize] at hb
    exact (List.cons.inj hb).1
  exact exists_first_of_cons h hfirst hsize (hc ▸ htag) hrest

/-- The header stands two bytes further along, behind the magic byte: only a tuple of
131 elements can do so. -/
theorem exists_first_of_mark (h : o.Holds first d) (hfirst : ∀ e, first = some e → Encodable e)
    (hb : o.size ++ (first.elim [] encoding ++ r) = bertMagic :: o.tag :: (o.size ++ v)) :
    ∃ e re, first = some e ∧ encoding e = bertSmallTuple :: re ∧ re ++ r = bertMagic :: v := by
  rcases length_size_cases o with ⟨n, rfl, hsize⟩ | ⟨a, b, c, e, hsize⟩
  · rw [hsize, List.singleton_append, List.singleton_append, List.cons.injEq] at hb
    rw [hb.1] at hsize hb
    exact exists_first_of_cons h hfirst hsize (by decide) hb.2
  · rw [hsize] at hb
    simp only [List.cons_append, List.nil_append, List.cons.injEq] at hb
    obtain ⟨rfl, -, rfl, -, hrest⟩ := hb
    obtain ⟨f, rf, hf, hbytes, -⟩ := exists_first_of_cons h hfirst hsize (by decide) hrest
    have hhigh := (encoding_head_bounds (hfirst f hf) hbytes).2
    exact absurd hhigh (by decide)

/-- A tuple of up to 255 elements is not pulled as one with a large header. -/
theorem large_not_tagged {n : ℕ} (hn : n ≤ 255) (h : (Opening.tuple false n).Holds first d)
    (hfirst : ∀ e, first = some e → Encodable e)
    (htag : Tagged plainReader ((Opening.tuple false n).size ++ (first.elim [] encoding ++ r))
      bertLargeTuple ((Opening.tuple true n).size ++ v)) : False := by
  have hsmall : (Opening.tuple false n).size = [UInt8.ofNat n] := by
    simp [Opening.size, Wire.size, bigEndian]
  have hlarge : (Opening.tuple true n).size = [0, 0, 0, UInt8.ofNat n] := by
    have hzero (m : ℕ) (hm : 256 ≤ m) : UInt8.ofNat (n / m) = 0 := by
      rw [Nat.div_eq_of_lt (by omega)]
      rfl
    simp [Opening.size, Wire.size, bigEndian, hzero]
  rw [tagged_plain_iff, hsmall, hlarge, List.singleton_append] at htag
  rcases htag with ⟨-, hb⟩ | hb
  · rw [List.cons.injEq] at hb
    rw [hb.1] at hsmall
    obtain ⟨e, re, he, hbytes, -⟩ := exists_first_of_cons h hfirst hsmall (by decide) hb.2
    exact absurd (encoding_head_bounds (hfirst e he) hbytes).1 (by decide)
  · rw [List.cons.injEq] at hb
    rw [hb.1] at hsmall
    obtain ⟨e, re, he, hbytes, hre⟩ := exists_first_of_cons h hfirst hsmall (by decide) hb.2
    rcases encoding_cases (hfirst e he) with
      ⟨c, r', -, hc, he'⟩ | ⟨k, r', -, -, he'⟩ | ⟨o, first', r', -, hleast, -, he'⟩ <;>
      rw [hbytes, List.cons.injEq] at he'
    · exact hc.2.2.2.1 he'.1.symm
    · exact absurd he'.1 (by decide)
    · obtain ⟨htag, rfl⟩ := he'
      cases o with
      | list m => cases htag
      | tuple large m =>
          cases large with
          | false => cases htag
          | true =>
              rw [← hlarge, List.append_assoc] at hre
              have hm4 : m < 256 ^ 4 := hleast.2
              have hmn := (field_eq hm4 (by omega) hre).1
              have hm := of_decide_eq_true hleast.1.symm
              omega

end Swallowed

/-- A tuple or list is not pulled behind its magic byte, whatever follows it. -/
theorem tail_not_pulled {o : Opening} {r : List UInt8} (hd : Encodable d)
    (hbytes : encoding d = o.tag :: r) :
    run plainReader (bertDecoderPull depth) (r ++ rest) ≠ .done (1, some d) u := by
  induction depth generalizing d o r rest u with
  | zero => nofun
  | succ depth ih =>
      intro hrun
      obtain ⟨tag, t, htag, hlow, hhigh⟩ := exists_tag_of_pulled hrun
      rcases encoding_cases hd with
        ⟨c, r', -, hc, hd'⟩ | ⟨k, r', hk, -, hd'⟩ | ⟨og, first, r', hog, hleast, hfirst, hd'⟩ <;>
        rw [hbytes, List.cons.injEq] at hd'
      · exact hc.ne_opening o hd'.1
      · rw [hd'.2, List.cons_append] at htag
        obtain ⟨rfl, -⟩ := eq_head_of_tagged htag (by omega)
        omega
      · obtain ⟨-, rfl⟩ := hd'
        obtain ⟨o', v, rfl, hfits, hsize, hholds, hpulled⟩ := htag.of_container hrun hog
        obtain rfl := plainReader_delivers_iff.mp hsize
        rw [List.flatten_singleton, List.append_assoc, List.append_assoc] at htag
        rcases hleast.eq_or hog hholds hfits with rfl | ⟨n, hn, rfl, rfl⟩
        · rcases tagged_plain_iff.mp htag with ⟨-, hb⟩ | hb
          · obtain ⟨e, re, he, hre, rfl⟩ := exists_first_of_shift hog hfirst hb
            obtain ⟨v', hpull⟩ := hpulled e he
            exact ih (hfirst e he) hre hpull
          · obtain ⟨e, re, he, hre, hv⟩ := exists_first_of_mark hog hfirst hb
            obtain ⟨v', hpull⟩ := hpulled e he
            exact elements_not_pulled (hfirst e he) hre hv hpull
        · exact large_not_tagged hn hog hfirst htag

/-! ## Scalars behind their magic byte -/

/-- A scalar that is pulled stood in the input as a wire term. -/
theorem exists_wire_of_scalar (hx : x.Scalar)
    (hrun : run plainReader (bertDecoderPull depth) b = .done (1, some x) u) :
    ∃ w : Wire, w.denote = some x ∧ w.isMarked = false ∧ w.elements = [] ∧
      w.bytes.length ≤ b.length := by
  cases depth with
  | zero => cases hrun
  | succ depth =>
      obtain ⟨tag, t, htag, -⟩ := exists_tag_of_pulled hrun
      rcases htag.result hrun with
        ⟨w, rfl, hunmarked, hleaf, hdenote, hbody⟩ |
        ⟨o, v, -, -, ⟨slots, rfl⟩ | ⟨entries, rfl⟩ | ⟨announced, ds, -, hdenote⟩⟩
      · obtain rfl := plainReader_delivers_iff.mp hbody
        refine ⟨w, hdenote, hunmarked, hleaf, ?_⟩
        rw [w.bytes_eq]
        rcases tagged_plain_iff.mp htag with ⟨-, rfl⟩ | rfl <;>
          simp only [List.length_cons, List.length_append] <;> omega
      · exact hx.elim
      · exact hx.elim
      · rcases denoteTuple_cases hdenote with ⟨rfl, -⟩ | ⟨rest, -, hcomplex⟩
        · exact hx.elim
        · rcases denoteComplex_kinds hcomplex with
            ⟨rfl, -⟩ | ⟨_, rfl⟩ | ⟨_, rfl⟩ | ⟨_, _, rfl⟩ | ⟨_, rfl⟩ <;>
            exact hx.elim

/-- An input whose first byte is no magic byte is not answered with a term. -/
theorem head_bounds_of_pulled
    (hrun : run plainReader (bertDecoderPull depth) (c :: b) = .done (1, some x) u) :
    97 ≤ c.toNat ∧ c.toNat ≤ 131 := by
  cases depth with
  | zero => cases hrun
  | succ depth =>
      obtain ⟨tag, t, htag, hlow, hhigh⟩ := exists_tag_of_pulled hrun
      rcases tagged_plain_iff.mp htag with ⟨-, heq⟩ | heq
      · rw [(List.cons.inj heq).1]
        omega
      · rw [(List.cons.inj heq).1]
        decide

/-- The least number of bytes a scalar is read from. -/
def leastLength : Data F → ℕ
  | .int _ => 2
  | .float _ => 32
  | .atom name => 3 + name.length
  | .bin data => 5 + data.length
  | _ => 0

theorem leastLength_le {w : Wire} (h : w.denote = some d) (hunmarked : w.isMarked = false)
    (hleaf : w.elements = []) : leastLength d ≤ w.bytes.length := by
  cases w with
  | marked term => cases hunmarked
  | nil => cases h; exact Nat.zero_le _
  | smallInt i => cases h; exact Nat.le_refl 2
  | int i =>
      cases h
      exact (by decide : 2 ≤ 5).trans_eq (by simp [Wire.bytes, Wire.chunks])
  | bignum large sign magnitude =>
      simp only [Wire.denote, Option.ite_none_right_eq_some, Option.some.injEq] at h
      obtain ⟨-, rfl⟩ := h
      simp only [leastLength, Wire.bytes_bignum, List.length_append, List.length_cons]
      omega
  | float text =>
      simp only [Wire.denote, Option.ite_none_right_eq_some, Option.map_eq_some_iff] at h
      obtain ⟨hlength, f, -, rfl⟩ := h
      simp [leastLength, Wire.bytes, Wire.chunks, hlength]
  | atom name =>
      simp only [Wire.denote, Option.ite_none_right_eq_some, Option.some.injEq] at h
      obtain ⟨-, rfl⟩ := h
      simp only [leastLength, Wire.bytes, Wire.chunks, List.flatten_cons, List.length_append,
        length_bigEndian, pieces_flatten, List.length_singleton]
      omega
  | string text =>
      simp only [Wire.denote, Option.ite_none_right_eq_some, Option.some.injEq] at h
      obtain ⟨-, rfl⟩ := h
      exact Nat.zero_le _
  | bin data =>
      simp only [Wire.denote, Option.ite_none_right_eq_some, Option.some.injEq] at h
      obtain ⟨-, rfl⟩ := h
      simp only [leastLength, Wire.bytes, Wire.chunks, List.flatten_cons, List.length_append,
        length_bigEndian, pieces_flatten, List.length_singleton]
      omega
  | tuple large announced ws =>
      obtain rfl : ws = [] := hleaf
      simp only [Wire.denote, Option.ite_none_right_eq_some, Wire.denoteList, Option.bind_some,
        denoteTuple, Option.some.injEq] at h
      obtain ⟨-, -, rfl⟩ := h
      exact Nat.zero_le _
  | list announced ws tail =>
      simp only [Wire.denote, Option.ite_none_right_eq_some, Option.map_eq_some_iff] at h
      obtain ⟨-, ds, -, rfl⟩ := h
      exact Nat.zero_le _

theorem lt_of_denote_string {w : Wire} {text : List UInt8}
    (h : w.denote = some (.string text : Data F)) (hunmarked : w.isMarked = false)
    (hleaf : w.elements = []) : text.length < 2 ^ 16 := by
  cases w with
  | string text' =>
      simp only [Wire.denote, Option.ite_none_right_eq_some, Option.some.injEq,
        Data.string.injEq] at h
      exact h.2 ▸ h.1
  | marked term => cases hunmarked
  | tuple large announced ws =>
      obtain rfl : ws = [] := hleaf
      simp [Wire.denote, Wire.denoteList, denoteTuple] at h
  | _ => simp [Wire.denote] at h

theorem int_rest_not_pulled {i : Int64} {r : List UInt8}
    (hbytes : encoding (.int i : Data F) = c :: r)
    (hrun : run plainReader (bertDecoderPull depth) r = .done (1, some (.int i : Data F)) u)
    (hlength : 2 ≤ r.length) : False := by
  rw [encoding_int] at hbytes
  split_ifs at hbytes with hsmall
  · rw [small_iff] at hsmall
    unfold intBytes at hbytes
    split_ifs at hbytes
    · obtain ⟨-, rfl⟩ := List.cons.inj hbytes
      exact absurd hlength (by simp)
    · rw [bigEndian, List.cons.injEq] at hbytes
      rw [← hbytes.2] at hrun
      have hbounds := head_bounds_of_pulled hrun
      rw [UInt8.toNat_ofNat', low32] at hbounds
      omega
  · rw [bignumField, List.cons.injEq] at hbytes
    rw [← hbytes.2] at hrun
    have hbounds := head_bounds_of_pulled hrun
    have hfew := magnitudeLength_le i
    rw [UInt8.toNat_ofNat'] at hbounds
    omega

/-- No term is pulled from its encoding without the first byte. -/
theorem rest_not_pulled {r : List UInt8} (hd : Encodable d) (hbytes : encoding d = c :: r) :
    run plainReader (bertDecoderPull depth) r ≠ .done (1, some d) u := by
  intro hrun
  have hcontainer (o : Opening) {t : List UInt8} (hcons : encoding d = o.tag :: t) :
      run plainReader (bertDecoderPull depth) r ≠ .done (1, some d) u := by
    rw [hbytes, List.cons.injEq] at hcons
    rw [← List.append_nil r]
    exact tail_not_pulled hd (hcons.1 ▸ hbytes)
  rcases encoding_cases hd with
    ⟨tag, r', hscalar, htag, hd'⟩ | ⟨k, r', -, -, hd'⟩ | ⟨o, first, r', -, -, -, hd'⟩
  · obtain ⟨w, hdenote, hunmarked, hleaf, hlength⟩ := exists_wire_of_scalar hscalar hrun
    have hleast := leastLength_le hdenote hunmarked hleaf
    have htotal : (encoding d).length = r.length + 1 := by rw [hbytes, List.length_cons]
    cases d with
    | int i => exact int_rest_not_pulled hbytes hrun (hleast.trans hlength)
    | float f =>
        rw [encoding, writes, List.flatten_singleton, length_floatField] at htotal
        rw [leastLength] at hleast
        omega
    | atom name =>
        rw [encoding, writes, List.flatten_singleton, length_atomField] at htotal
        rw [leastLength] at hleast
        omega
    | string text =>
        have hfits := lt_of_denote_string hdenote hunmarked hleaf
        rw [encoding, writes, List.flatten_singleton, stringField, bigEndian, List.cons_append,
          List.cons_append, List.cons.injEq] at hbytes
        rw [← hbytes.2, Nat.div_eq_of_lt (by omega)] at hrun
        exact absurd (head_bounds_of_pulled hrun).1 (by decide)
    | bin data =>
        simp only [encoding, writes, List.flatten_singleton, binField, List.length_append,
          List.length_cons, length_bigEndian, List.cons_append] at htotal
        rw [leastLength] at hleast
        omega
    | _ => exact hscalar.elim
  · exact hcontainer (.tuple false 0) hd' hrun
  · exact hcontainer o hd' hrun

end Pulled

end LibBert
