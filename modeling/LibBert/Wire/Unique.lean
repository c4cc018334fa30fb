import LibBert.Decoder.Container

/-!
# Wire terms are uniquely decodable

No wire term that stands for something is a proper prefix of another, and no two
have the same bytes: the elements read so far decide whether another follows.
-/

namespace LibBert

open Bytes

variable {F : Type} [Platform F]

/-! ## Whether another element follows -/

theorem complexWants_of_denote {ds : List (Data F)} {d : Data F} (h : denoteComplex ds = some d) :
    complexWants ds = none := by
  unfold denoteComplex at h
  split at h
  next keyword =>
      simp only [complexWants]
      split_ifs at h with hnil htrue hfalse
      · subst hnil; decide
      · subst htrue; decide
      · subst hfalse; decide
  next keyword listData =>
      split_ifs at h with hkeyword
      subst hkeyword
      simp [complexWants, keyword_ne]
  next keyword source optList =>
      split_ifs at h with hkeyword
      subst hkeyword
      simp [complexWants, keyword_ne]
  next keyword m s u => simp [complexWants]
  · cases h

theorem complexWants_of_denote_append {ds es : List (Data F)} {e d : Data F}
    (h : denoteComplex (ds ++ e :: es) = some d) : ∃ b, complexWants ds = some b := by
  match ds with
  | [] => exact ⟨false, rfl⟩
  | [first] =>
      unfold denoteComplex at h
      split at h <;> simp_all [complexWants, keyword_ne]
  | [first, second] =>
      unfold denoteComplex at h
      split at h <;> simp_all [complexWants, keyword_ne, Data.isBin]
  | [first, second, third] =>
      unfold denoteComplex at h
      split at h <;> simp_all [complexWants]
  | first :: second :: third :: fourth :: rest =>
      unfold denoteComplex at h
      split at h <;> simp_all

theorem tupleWants_of_denote {announced : ℕ} {ds : List (Data F)} {d : Data F}
    (h : denoteTuple announced ds = some d) : tupleWants announced ds = none := by
  cases ds with
  | nil =>
      simp only [denoteTuple, Option.ite_none_right_eq_some] at h
      simp [tupleWants, h.1]
  | cons first rest =>
      simp only [denoteTuple, List.length_cons] at h
      simp only [tupleWants]
      split_ifs at h ⊢
      · exact complexWants_of_denote h
      · omega
      · rfl

theorem tupleWants_of_denote_append {announced : ℕ} {ds es : List (Data F)} {e d : Data F}
    (h : denoteTuple announced (ds ++ e :: es) = some d) :
    ∃ b, tupleWants announced ds = some b := by
  cases ds with
  | nil =>
      by_cases hzero : announced = 0
      · simp [denoteTuple, hzero] at h
      · exact ⟨false, if_neg hzero⟩
  | cons first rest =>
      rw [List.cons_append, denoteTuple] at h
      simp only [List.length_cons, List.length_append] at h
      simp only [tupleWants]
      split_ifs at h ⊢
      · exact complexWants_of_denote_append h
      · exact ⟨false, rfl⟩
      · omega

/-- Of two element lists of one tuple none extends the other. -/
theorem denoteTuple_append_ne {announced : ℕ} {ds es : List (Data F)} {d d' e : Data F}
    (h : denoteTuple announced ds = some d) : denoteTuple announced (ds ++ e :: es) ≠ some d' := by
  intro h'
  obtain ⟨b, hb⟩ := tupleWants_of_denote_append h'
  rw [tupleWants_of_denote h] at hb
  cases hb

/-! ## Unique decoding -/

namespace Wire

theorem bytes_eq (w : Wire) : w.bytes = w.tag :: w.body.flatten := by
  rw [bytes, chunks_eq]
  rfl

omit [Platform F] in
theorem tag_eq_of_bytes {w w' : Wire} {t t' : List UInt8} (h : w.bytes ++ t = w'.bytes ++ t') :
    w.tag = w'.tag ∧ w.body.flatten ++ t = w'.body.flatten ++ t' := by
  rw [bytes_eq, bytes_eq] at h
  exact List.cons.inj h

/-- Element lists with a common continuation: one starts with the other. -/
theorem prefix_of_bytes {ws ws' : List Wire} {ds ds' : List (Data F)} {t t' : List UInt8}
    (ih : ∀ w ∈ ws, ∀ (w' : Wire) (d d' : Data F) (t t' : List UInt8), w.denote = some d →
      w'.denote = some d' → w.bytes ++ t = w'.bytes ++ t' → w = w')
    (hds : denoteList ws = some ds) (hds' : denoteList ws' = some ds')
    (h : (chunksList ws).flatten ++ t = (chunksList ws').flatten ++ t') :
    (∃ vs, ws' = ws ++ vs) ∨ ∃ vs, ws = ws' ++ vs := by
  induction ws generalizing ws' ds ds' with
  | nil => exact .inl ⟨ws', rfl⟩
  | cons w ws ihws =>
      cases ws' with
      | nil => exact .inr ⟨w :: ws, rfl⟩
      | cons w' ws' =>
          obtain ⟨d, ds, hd, hrest, rfl⟩ := denoteList_cons_eq_some_iff.mp hds
          obtain ⟨d', ds', hd', hrest', rfl⟩ := denoteList_cons_eq_some_iff.mp hds'
          simp only [chunksList, List.flatten_append, List.append_assoc] at h
          obtain rfl := ih w List.mem_cons_self w' d d' _ _ hd hd' h
          have hlater := List.append_cancel_left h
          rcases ihws (fun v hv ↦ ih v (List.mem_cons_of_mem w hv)) hrest hrest' hlater with
            ⟨vs, rfl⟩ | ⟨vs, rfl⟩
          · exact .inl ⟨vs, rfl⟩
          · exact .inr ⟨vs, rfl⟩

end Wire

/-! ## Magic bytes -/

attribute [grind] Wire.tag Wire.bignumTag Wire.tupleTag

namespace Wire

section Tags

variable {w : Wire}

theorem eq_marked_of_tag (h : w.tag = bertMagic) : ∃ term, w = .marked term := by
  cases w <;> grind

theorem eq_nil_of_tag (h : w.tag = bertNil) : w = .nil := by
  cases w <;> grind

theorem eq_smallInt_of_tag (h : w.tag = bertSmallInt) : ∃ i, w = .smallInt i := by
  cases w <;> grind

theorem eq_int_of_tag (h : w.tag = bertInt) : ∃ i, w = .int i := by
  cases w <;> grind

theorem eq_bignum_of_tag {large : Bool} (h : w.tag = bignumTag large) :
    ∃ sign magnitude, w = .bignum large sign magnitude := by
  cases w <;> grind

theorem eq_float_of_tag (h : w.tag = bertFloat) : ∃ text, w = .float text := by
  cases w <;> grind

theorem eq_atom_of_tag (h : w.tag = bertAtom) : ∃ name, w = .atom name := by
  cases w <;> grind

theorem eq_string_of_tag (h : w.tag = bertString) : ∃ text, w = .string text := by
  cases w <;> grind

theorem eq_bin_of_tag (h : w.tag = bertBin) : ∃ data, w = .bin data := by
  cases w <;> grind

theorem eq_tuple_of_tag {large : Bool} (h : w.tag = tupleTag large) :
    ∃ announced elements, w = .tuple large announced elements := by
  cases w <;> grind

theorem eq_list_of_tag (h : w.tag = bertList) :
    ∃ announced elements tail, w = .list announced elements tail := by
  cases w <;> grind

end Tags

/-! ## Length fields -/

theorem size_eq {large : Bool} {m n : ℕ} {t t' : List UInt8}
    (hm : m < if large then 2 ^ 32 else 2 ^ 8) (hn : n < if large then 2 ^ 32 else 2 ^ 8)
    (h : size large m ++ t = size large n ++ t') : m = n ∧ t = t' := by
  cases large
  · exact field_eq hm hn h
  · exact field_eq hm hn h

theorem denoteList_append_eq_some {ws vs : List Wire} {ds : List (Data F)}
    (h : denoteList (ws ++ vs) = some ds) :
    ∃ ds₁ ds₂, denoteList ws = some ds₁ ∧ denoteList vs = some ds₂ ∧ ds = ds₁ ++ ds₂ := by
  induction ws generalizing ds with
  | nil => exact ⟨[], ds, rfl, h, rfl⟩
  | cons w ws ih =>
      obtain ⟨d, ds, hd, hrest, rfl⟩ := denoteList_cons_eq_some_iff.mp h
      obtain ⟨ds₁, ds₂, h₁, h₂, rfl⟩ := ih hrest
      exact ⟨d :: ds₁, ds₂, denoteList_cons_eq_some_iff.mpr ⟨d, ds₁, hd, h₁, rfl⟩, h₂, rfl⟩

theorem eq_nil_of_denoteTuple {announced : ℕ} {ws vs : List Wire} {ds ds' : List (Data F)}
    {d d' : Data F} (hds : denoteList ws = some ds) (hds' : denoteList (ws ++ vs) = some ds')
    (h : denoteTuple announced ds = some d) (h' : denoteTuple announced ds' = some d') :
    vs = [] := by
  obtain ⟨ds₁, ds₂, h₁, h₂, rfl⟩ := denoteList_append_eq_some hds'
  obtain rfl : ds = ds₁ := Option.some.inj (hds.symm.trans h₁)
  cases vs with
  | nil => rfl
  | cons v vs =>
      obtain ⟨e, es, -, -, rfl⟩ := denoteList_cons_eq_some_iff.mp h₂
      exact absurd h' (denoteTuple_append_ne h)

/-- Two wire terms at the start of one input are the same. -/
theorem unique (w w' : Wire) (d d' : Data F) (t t' : List UInt8) (hd : w.denote = some d)
    (hd' : w'.denote = some d') (h : w.bytes ++ t = w'.bytes ++ t') : w = w' := by
  induction w using induct generalizing w' d d' t t' with
  | marked term ih =>
      obtain ⟨htag, hbody⟩ := tag_eq_of_bytes h
      obtain ⟨term', rfl⟩ := eq_marked_of_tag htag.symm
      obtain ⟨-, hd⟩ := denote_marked hd
      obtain ⟨-, hd'⟩ := denote_marked hd'
      have hterm : term.bytes ++ t = term'.bytes ++ t' := hbody
      rw [ih term' d d' t t' hd hd' hterm]
  | nil => rw [eq_nil_of_tag (tag_eq_of_bytes h).1.symm]
  | smallInt i =>
      obtain ⟨htag, hbody⟩ := tag_eq_of_bytes h
      obtain ⟨i', rfl⟩ := eq_smallInt_of_tag htag.symm
      obtain ⟨rfl, -⟩ := List.cons.inj (show i :: t = i' :: t' from hbody)
      rfl
  | int i =>
      obtain ⟨htag, hbody⟩ := tag_eq_of_bytes h
      obtain ⟨i', rfl⟩ := eq_int_of_tag htag.symm
      have hfield : bigEndian 4 i.toNat ++ t = bigEndian 4 i'.toNat ++ t' := by
        simpa [body, chunks] using hbody
      rw [UInt32.toNat_inj.mp (field_eq i.toNat_lt i'.toNat_lt hfield).1]
  | bignum large sign magnitude =>
      obtain ⟨htag, hbody⟩ := tag_eq_of_bytes h
      obtain ⟨sign', magnitude', rfl⟩ := eq_bignum_of_tag htag.symm
      simp only [denote, Option.ite_none_right_eq_some] at hd hd'
      have hfield : size large magnitude.length ++ (sign :: magnitude ++ t) =
          size large magnitude'.length ++ (sign' :: magnitude' ++ t') := by
        simpa [body, chunks] using hbody
      obtain ⟨hlength, hrest⟩ := size_eq (by split <;> omega) (by split <;> omega) hfield
      rw [List.cons_append, List.cons_append, List.cons.injEq] at hrest
      obtain ⟨rfl, hrest⟩ := hrest
      rw [(List.append_inj hrest hlength).1]
  | float text =>
      obtain ⟨htag, hbody⟩ := tag_eq_of_bytes h
      obtain ⟨text', rfl⟩ := eq_float_of_tag htag.symm
      simp only [denote, Option.ite_none_right_eq_some] at hd hd'
      have htext : text ++ t = text' ++ t' := by simpa [body, chunks] using hbody
      rw [(List.append_inj htext (by omega)).1]
  | atom name =>
      obtain ⟨htag, hbody⟩ := tag_eq_of_bytes h
      obtain ⟨name', rfl⟩ := eq_atom_of_tag htag.symm
      simp only [denote, Option.ite_none_right_eq_some] at hd hd'
      have htext : bigEndian 2 name.length ++ name ++ t =
          bigEndian 2 name'.length ++ name' ++ t' := by simpa [body, chunks] using hbody
      rw [(text_eq hd.1 hd'.1 htext).1]
  | string text =>
      obtain ⟨htag, hbody⟩ := tag_eq_of_bytes h
      obtain ⟨text', rfl⟩ := eq_string_of_tag htag.symm
      simp only [denote, Option.ite_none_right_eq_some] at hd hd'
      have htext : bigEndian 2 text.length ++ text ++ t =
          bigEndian 2 text'.length ++ text' ++ t' := by simpa [body, chunks] using hbody
      rw [(text_eq hd.1 hd'.1 htext).1]
  | bin data =>
      obtain ⟨htag, hbody⟩ := tag_eq_of_bytes h
      obtain ⟨data', rfl⟩ := eq_bin_of_tag htag.symm
      simp only [denote, Option.ite_none_right_eq_some] at hd hd'
      have htext : bigEndian 4 data.length ++ data ++ t =
          bigEndian 4 data'.length ++ data' ++ t' := by simpa [body, chunks] using hbody
      have hmax : 2 ^ 32 - 1 < 256 ^ 4 := by decide
      rw [(text_eq (hd.1.trans hmax) (hd'.1.trans hmax) htext).1]
  | tuple large announced elements ih =>
      obtain ⟨htag, hbody⟩ := tag_eq_of_bytes h
      obtain ⟨announced', elements', rfl⟩ := eq_tuple_of_tag htag.symm
      simp only [denote, Option.ite_none_right_eq_some, Option.bind_eq_some_iff] at hd hd'
      obtain ⟨hfits, ds, hds, hdenote⟩ := hd
      obtain ⟨hfits', ds', hds', hdenote'⟩ := hd'
      have hfield : size large announced ++ ((chunksList elements).flatten ++ t) =
          size large announced' ++ ((chunksList elements').flatten ++ t') := by
        simpa [body, chunks] using hbody
      obtain ⟨rfl, hrest⟩ := size_eq hfits hfits' hfield
      rcases prefix_of_bytes ih hds hds' hrest with ⟨vs, rfl⟩ | ⟨vs, rfl⟩
      · rw [eq_nil_of_denoteTuple hds hds' hdenote hdenote', List.append_nil]
      · rw [eq_nil_of_denoteTuple hds' hds hdenote' hdenote, List.append_nil]
  | list announced elements tail ih =>
      obtain ⟨htag, hbody⟩ := tag_eq_of_bytes h
      obtain ⟨announced', elements', tail', rfl⟩ := eq_list_of_tag htag.symm
      simp only [denote, Option.ite_none_right_eq_some, Option.map_eq_some_iff] at hd hd'
      obtain ⟨⟨hlength, hfits⟩, ds, hds, -⟩ := hd
      obtain ⟨⟨hlength', hfits'⟩, ds', hds', -⟩ := hd'
      have hfield : bigEndian 4 announced ++ ((chunksList elements).flatten ++ (tail :: t)) =
          bigEndian 4 announced' ++ ((chunksList elements').flatten ++ (tail' :: t')) := by
        simpa [body, chunks] using hbody
      obtain ⟨rfl, hrest⟩ := field_eq hfits hfits' hfield
      rcases prefix_of_bytes ih hds hds' hrest with ⟨vs, rfl⟩ | ⟨vs, rfl⟩
      all_goals
        rw [List.length_append] at *
        obtain rfl : vs = [] := List.length_eq_zero_iff.mp (by omega)
        rw [List.append_nil] at hrest
        obtain ⟨rfl, -⟩ := List.cons.inj (List.append_cancel_left hrest)
        rw [List.append_nil]

end Wire

end LibBert
