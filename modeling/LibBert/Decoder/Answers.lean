import LibBert.Wire.Soundness

/-!
# What a returned term was

A pull that returns a term found a magic byte first.  Behind it was a scalar, a
tuple or a list, or the elements of a complex term; an integer, an atom and
`nil` tell which.
-/

namespace LibBert

open Reading Bytes

variable {F σ : Type} [Platform F] {R : BertReader σ} {s t u : σ} {tag : UInt8} {depth : ℕ}
  {x : Data F}

theorem run_pull_of_read (h : R.read s 1 = (bertSuccess, t)) (depth : ℕ) :
    run R (bertDecoderPull (depth + 1) : Decode F _) s = run R (bertDecoderPull (depth + 1)) t := by
  rw [run_bertDecoderPull_succ, run_bertDecoderPull_succ, pullBody, run_read, run_read, h,
    R.read_again s 1 t h]

theorem runs_of_read (h : R.read s 1 = (bertSuccess, t)) (depth count : ℕ) :
    runs R (fun _ ↦ ()) (bertDecoderPull (depth + 1) : Decode F _) count s =
      runs R (fun _ ↦ ()) (bertDecoderPull (depth + 1)) count t := by
  cases count with
  | zero => rfl
  | succ count => rw [runs, runs, run_pull_of_read h]

/-- Only a pull that finds nothing left returns 0. -/
theorem read_eq_empty_of_pull {data : Option (Data F)}
    (hrun : run R (bertDecoderPull depth) s = .done (0, data) t) :
    (R.read s 1).1 = bertErrnoEmpty := by
  cases depth with
  | zero => cases hrun
  | succ depth =>
      rw [run_bertDecoderPull_succ] at hrun
      rcases pullBody_cases (R := R) (bertDecoderPull depth : Decode F _) s with
        ⟨v, hread, -⟩ | ⟨code, huntagged⟩ | ⟨tag, v, -, hrun'⟩
      · exact congrArg Prod.fst hread
      · obtain ⟨v, hrun'⟩ := huntagged.run_pullBody (bertDecoderPull depth : Decode F _)
        have hneg := huntagged.neg
        obtain ⟨⟨rfl, -⟩, -⟩ : (code = 0 ∧ none = data) ∧ v = t := by
          simpa using hrun'.symm.trans hrun
        exact absurd hneg (by decide)
      · rw [hrun', Outcome.bind_eq_done_iff] at hrun
        obtain ⟨⟨code, data⟩, v, -, hresult⟩ := hrun
        rw [pullResult] at hresult
        split_ifs at hresult with hcode
        · cases hresult
          exact absurd rfl hcode
        · cases hresult

theorem Tagged.run_pull (h : Tagged R s tag t) (depth : ℕ) :
    run R (bertDecoderPull (depth + 1) : Decode F _) s =
      (run R (decodeMagic (bertDecoderPull depth) tag) t).bind
        fun r u ↦ .done (pullResult r) u := by
  rw [run_bertDecoderPull_succ]
  rcases h with ⟨htag, hdelivers⟩ | hdelivers
  · exact run_pullBody_tag hdelivers htag
  · exact run_pullBody_marked hdelivers

theorem exists_tagged_of_pull (hrun : run R (bertDecoderPull depth) s = .done (1, some x) u) :
    ∃ tag t, Tagged R s tag t := by
  cases depth with
  | zero => cases hrun
  | succ depth =>
      rw [run_bertDecoderPull_succ] at hrun
      rcases pullBody_cases (R := R) (bertDecoderPull depth : Decode F _) s with
        ⟨v, -, hrun'⟩ | ⟨code, huntagged⟩ | ⟨tag, v, htag, -⟩
      · cases hrun'.symm.trans hrun
      · obtain ⟨v, hrun'⟩ := huntagged.run_pullBody (bertDecoderPull depth : Decode F _)
        cases hrun'.symm.trans hrun
      · exact ⟨tag, v, htag⟩

/-- Behind its magic byte a returned term was a scalar, a tuple or list, or a
complex term. -/
theorem Tagged.result (h : Tagged R s tag t)
    (hrun : run R (bertDecoderPull (depth + 1)) s = .done (1, some x) u) :
    (∃ w : Wire, w.tag = tag ∧ w.isMarked = false ∧ w.elements = [] ∧ w.denote = some x ∧
      Delivers R t w.body u) ∨
    ∃ o v, Opening.tag o = tag ∧ Delivers R t [o.size] v ∧
      ((∃ slots, x = .tuple slots) ∨ (∃ entries, x = .list entries) ∨
        ∃ announced ds, Yields R (bertDecoderPull depth) v ds u ∧
          denoteTuple announced ds = some x) := by
  rw [h.run_pull, Outcome.bind_eq_done_iff] at hrun
  obtain ⟨⟨code, data⟩, v, hmagic, hresult⟩ := hrun
  obtain ⟨rfl, rfl⟩ : data = some x ∧ v = u := by
    rw [pullResult] at hresult
    split_ifs at hresult <;> cases hresult <;> exact ⟨rfl, rfl⟩
  rcases decodeMagic_cases (R := R) (W := {}) (bertDecoderPull depth : Decode F _)
      onEvents_default tag t with
    ⟨⟨w, y, v', hscalar⟩ | ⟨code', v', -, hrun'⟩ | ⟨-, v', -, hrun'⟩, -⟩ |
    ⟨o, v', rfl, hfits, hsize⟩
  · cases hscalar.run.symm.trans hmagic
    exact .inl ⟨w, hscalar.tag, hscalar.unmarked, hscalar.leaf, hscalar.denote, hscalar.delivers⟩
  · cases hrun'.symm.trans hmagic
  · cases hrun'.symm.trans hmagic
  · rw [run_decodeMagic_opening hfits hsize] at hmagic
    exact .inr ⟨o, v', rfl, hsize, o.run_decode_cases hmagic⟩

/-- A pulled `nil` is a `BERT_NIL` or the complex term. -/
theorem Tagged.of_nil (h : Tagged R s tag t)
    (hrun : run R (bertDecoderPull (depth + 1)) s = .done (1, some (.nil : Data F)) u) :
    (tag = bertNil ∧ t = u) ∨
      ∃ o v, Opening.tag o = tag ∧ Delivers R t [o.size] v ∧
        Yields R (bertDecoderPull depth) v
          [(.atom (cString "bert") : Data F), .atom (cString "nil")] u := by
  rcases h.result hrun with
    ⟨w, htag, hunmarked, hleaf, hdenote, hbody⟩ |
    ⟨o, v, htag, hsize, ⟨_, ⟨⟩⟩ | ⟨_, ⟨⟩⟩ | ⟨announced, ds, hyields, hdenote⟩⟩
  · cases w with
    | nil => exact .inl ⟨htag.symm, delivers_nil_iff.mp hbody⟩
    | marked term => cases hunmarked
    | tuple large announced elements =>
        obtain rfl : elements = [] := hleaf
        simp [Wire.denote, Wire.denoteList, denoteTuple] at hdenote
    | _ => simp [Wire.denote] at hdenote
  · rcases denoteTuple_cases hdenote with ⟨⟨⟩, -⟩ | ⟨rest, rfl, hcomplex⟩
    rcases denoteComplex_kinds hcomplex with
      ⟨-, rfl⟩ | ⟨_, ⟨⟩⟩ | ⟨_, ⟨⟩⟩ | ⟨_, _, ⟨⟩⟩ | ⟨_, ⟨⟩⟩
    exact .inr ⟨o, v, htag, hsize, hyields⟩

theorem Tagged.not_int {i : Int64} {o : Opening} (h : Tagged R s o.tag t) :
    run R (bertDecoderPull (depth + 1)) s ≠ .done (1, some (.int i : Data F)) u := by
  intro hrun
  rcases h.result hrun with
    ⟨w, htag, hunmarked, hleaf, hdenote, -⟩ |
    ⟨-, v, -, -, ⟨_, ⟨⟩⟩ | ⟨_, ⟨⟩⟩ | ⟨announced, ds, -, hdenote⟩⟩
  · cases w with
    | marked term => cases hunmarked
    | tuple large announced elements =>
        obtain rfl : elements = [] := hleaf
        simp [Wire.denote, Wire.denoteList, denoteTuple] at hdenote
    | smallInt j => cases o <;> grind [Wire.tag, Opening.tag, Wire.tupleTag]
    | int j => cases o <;> grind [Wire.tag, Opening.tag, Wire.tupleTag]
    | bignum large sign magnitude =>
        cases o <;> grind [Wire.tag, Opening.tag, Wire.tupleTag, Wire.bignumTag]
    | _ => simp [Wire.denote] at hdenote
  · rcases denoteTuple_cases hdenote with ⟨⟨⟩, -⟩ | ⟨rest, -, hcomplex⟩
    rcases denoteComplex_kinds hcomplex with
      ⟨⟨⟩, -⟩ | ⟨_, ⟨⟩⟩ | ⟨_, ⟨⟩⟩ | ⟨_, _, ⟨⟩⟩ | ⟨_, ⟨⟩⟩

/-- What is delivered to a pull of an atom ends in its name. -/
theorem exists_delivers_of_atom {name : List UInt8}
    (hrun : run R (bertDecoderPull depth) s = .done (1, some (.atom name : Data F)) u) :
    ∃ chunks front, Delivers R s chunks u ∧ chunks.flatten = front ++ name := by
  obtain ⟨tag, t, htag⟩ := exists_tagged_of_pull hrun
  obtain ⟨depth, rfl⟩ : ∃ k, depth = k + 1 := by
    cases depth with
    | zero => cases hrun
    | succ depth => exact ⟨depth, rfl⟩
  rcases htag.result hrun with
    ⟨w, -, hunmarked, hleaf, hdenote, hbody⟩ |
    ⟨-, v, -, -, ⟨_, ⟨⟩⟩ | ⟨_, ⟨⟩⟩ | ⟨announced, ds, -, hdenote⟩⟩
  · cases w with
    | marked term => cases hunmarked
    | atom text =>
        simp only [Wire.denote, Option.ite_none_right_eq_some, Option.some.injEq,
          Data.atom.injEq] at hdenote
        obtain ⟨-, rfl⟩ := hdenote
        have hflatten : (Wire.atom text).body.flatten = bigEndian 2 text.length ++ text := by
          simp [Wire.body, Wire.chunks]
        rcases htag with ⟨-, hdelivers⟩ | hdelivers
        · refine ⟨_, tag :: bigEndian 2 text.length,
            delivers_append_iff.mpr ⟨t, hdelivers, hbody⟩, ?_⟩
          rw [List.flatten_append, hflatten]
          rfl
        · refine ⟨_, bertMagic :: tag :: bigEndian 2 text.length,
            delivers_append_iff.mpr ⟨t, hdelivers, hbody⟩, ?_⟩
          rw [List.flatten_append, hflatten]
          rfl
    | tuple large announced elements =>
        obtain rfl : elements = [] := hleaf
        simp [Wire.denote, Wire.denoteList, denoteTuple] at hdenote
    | _ => simp [Wire.denote] at hdenote
  · rcases denoteTuple_cases hdenote with ⟨⟨⟩, -⟩ | ⟨rest, -, hcomplex⟩
    exact absurd hcomplex denoteComplex_ne_atom

/-! ## Tuples and lists -/

theorem Wire.tag_bounds {w : Wire} (h : w.isMarked = false) :
    97 ≤ w.tag.toNat ∧ w.tag.toNat ≤ 111 := by
  cases w with
  | marked term => cases h
  | bignum large sign magnitude => cases large <;> simp only [tag, bignumTag] <;> decide
  | tuple large announced elements => cases large <;> simp only [tag, tupleTag] <;> decide
  | _ => simp only [tag]; decide

theorem Opening.tag_bounds (o : Opening) : 97 ≤ o.tag.toNat ∧ o.tag.toNat ≤ 111 := by
  cases o with
  | tuple large announced => cases large <;> simp only [tag, Wire.tupleTag] <;> decide
  | list announced => simp only [tag]; decide

theorem Tagged.bounds (h : Tagged R s tag t)
    (hrun : run R (bertDecoderPull (depth + 1)) s = .done (1, some x) u) :
    97 ≤ tag.toNat ∧ tag.toNat ≤ 111 := by
  rcases h.result hrun with ⟨w, rfl, hunmarked, -⟩ | ⟨o, v, rfl, -⟩
  · exact Wire.tag_bounds hunmarked
  · exact o.tag_bounds

/-- What starts with the magic byte of an atom is pulled as one. -/
theorem Tagged.of_atom (h : Tagged R s bertAtom t)
    (hrun : run R (bertDecoderPull (depth + 1)) s = .done (1, some x) u) :
    ∃ name, x = .atom name := by
  rcases h.result hrun with ⟨w, htag, hunmarked, -, hdenote, -⟩ | ⟨o, v, htag, -⟩
  · cases w with
    | marked term => cases hunmarked
    | atom name =>
        simp only [Wire.denote, Option.ite_none_right_eq_some, Option.some.injEq] at hdenote
        exact ⟨name, hdenote.2.symm⟩
    | bignum large sign magnitude => cases large <;> cases htag
    | tuple large announced elements => cases large <;> cases htag
    | _ => cases htag
  · cases o with
    | tuple large announced => cases large <;> cases htag
    | list announced => cases htag

/-- The term is a tuple or list behind such a header, with this element first. -/
def Opening.Holds (o : Opening) (first : Option (Data F)) : Data F → Prop
  | .tuple slots => (∃ large, o = .tuple large slots.length) ∧ slots.head? = first.map some
  | .list entries => o = .list entries.length ∧ entries.head? = first
  | _ => False

/-- An empty tuple or list that was read whole stood behind its header. -/
theorem ReadsScalar.exists_opening {p : Decode F (Result F)} {w : Wire} {o : Opening}
    {first : Option (Data F)} (h : ReadsScalar R p tag t w x u) (hx : o.Holds first x) :
    ∃ o' v, Opening.tag o' = tag ∧ o'.Fits ∧ Delivers R t [o'.size] v ∧ o'.Holds first x ∧
      first = none := by
  obtain ⟨rfl, hunmarked, hleaf, hdenote, hbody, -⟩ := h
  cases w with
  | marked term => cases hunmarked
  | tuple large announced elements =>
      obtain rfl : elements = [] := hleaf
      simp only [Wire.denote, Option.ite_none_right_eq_some, Wire.denoteList, Option.bind_some,
        denoteTuple] at hdenote
      obtain ⟨hfits, rfl, ⟨⟩⟩ := hdenote
      cases first with
      | none => exact ⟨.tuple large 0, _, rfl, hfits, hbody, ⟨⟨large, rfl⟩, rfl⟩, rfl⟩
      | some e => cases hx.2
  | list announced elements tail =>
      obtain rfl : elements = [] := hleaf
      simp only [Wire.denote, Option.ite_none_right_eq_some, Wire.denoteList] at hdenote
      obtain ⟨⟨rfl, hfits⟩, ⟨⟩⟩ := hdenote
      obtain rfl : none = first := hx.2
      obtain ⟨v', hsize, -⟩ := delivers_cons_split.mp hbody
      exact ⟨.list 0, v', rfl, hfits, hsize, ⟨rfl, rfl⟩, rfl⟩
  | nil => cases hdenote; exact hx.elim
  | smallInt i => cases hdenote; exact hx.elim
  | int i => cases hdenote; exact hx.elim
  | _ =>
      simp only [Wire.denote, Option.ite_none_right_eq_some, Option.some.injEq,
        Option.map_eq_some_iff] at hdenote
      first
        | obtain ⟨-, rfl⟩ := hdenote
          exact hx.elim
        | obtain ⟨-, f, -, rfl⟩ := hdenote
          exact hx.elim

/-- What is decoded behind a header as a tuple or list is the one the header opens. -/
theorem Opening.holds_of_run {o o' : Opening} {first : Option (Data F)} {code : Code}
    (hrun : run R (o'.decode (bertDecoderPull depth)) s = .done (code, some x) u)
    (hx : o.Holds first x) :
    o'.Holds first x ∧
      ∀ e, first = some e → ∃ v, run R (bertDecoderPull depth) s = .done (1, some e) v := by
  cases o' with
  | tuple large announced =>
      rcases exists_first_of_run_decodeTuple hrun with
        ⟨htuple, hlist⟩ | ⟨rfl, rfl⟩ | ⟨e, rest, w, rfl, rfl, hpull⟩
      · cases x with
        | tuple slots => exact absurd rfl (htuple slots)
        | list entries => exact absurd rfl (hlist entries)
        | _ => exact hx.elim
      · cases first with
        | none => exact ⟨⟨⟨large, rfl⟩, rfl⟩, by rintro _ ⟨⟩⟩
        | some e => cases hx.2
      · cases first with
        | none => cases hx.2
        | some e' =>
            obtain rfl : e = e' := by simpa using hx.2
            exact ⟨⟨⟨large, rfl⟩, rfl⟩, fun d hd ↦ ⟨w, Option.some.inj hd ▸ hpull⟩⟩
  | list announced =>
      rcases exists_first_of_run_decodeListLoop hrun with
        ⟨rfl, rfl⟩ | ⟨e, rest, w, rfl, rfl, hpull⟩
      · obtain rfl : none = first := hx.2
        exact ⟨⟨rfl, rfl⟩, by rintro _ ⟨⟩⟩
      · obtain rfl : some e = first := hx.2
        exact ⟨⟨rfl, rfl⟩, fun d hd ↦ ⟨w, Option.some.inj hd ▸ hpull⟩⟩

/-- A tuple or list that is returned stood behind its header, and what is behind
the header is pulled as its first element. -/
theorem Tagged.of_container {o : Opening} {first : Option (Data F)} (h : Tagged R s tag t)
    (hrun : run R (bertDecoderPull (depth + 1)) s = .done (1, some x) u) (hx : o.Holds first x) :
    ∃ o' v, Opening.tag o' = tag ∧ o'.Fits ∧ Delivers R t [o'.size] v ∧ o'.Holds first x ∧
      ∀ e, first = some e → ∃ v', run R (bertDecoderPull depth) v = .done (1, some e) v' := by
  rw [h.run_pull, Outcome.bind_eq_done_iff] at hrun
  obtain ⟨⟨code, data⟩, v, hmagic, hresult⟩ := hrun
  obtain ⟨rfl, rfl⟩ : data = some x ∧ v = u := by
    rw [pullResult] at hresult
    split_ifs at hresult <;> cases hresult <;> exact ⟨rfl, rfl⟩
  rcases decodeMagic_cases (R := R) (W := {}) (bertDecoderPull depth : Decode F _)
      onEvents_default tag t with
    ⟨⟨w, y, v', hscalar⟩ | ⟨code', v', -, hrun'⟩ | ⟨-, v', -, hrun'⟩, -⟩ |
    ⟨o', v', rfl, hfits, hsize⟩
  · cases hscalar.run.symm.trans hmagic
    obtain ⟨o', v', htag, hfits, hsize, hholds, rfl⟩ := hscalar.exists_opening hx
    exact ⟨o', v', htag, hfits, hsize, hholds, by rintro _ ⟨⟩⟩
  · cases hrun'.symm.trans hmagic
  · cases hrun'.symm.trans hmagic
  · rw [run_decodeMagic_opening hfits hsize] at hmagic
    exact ⟨o', v', rfl, hfits, hsize, Opening.holds_of_run hmagic hx⟩

end LibBert
