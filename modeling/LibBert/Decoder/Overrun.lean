import LibBert.Wire.Soundness

/-!
# Input that overruns a block

The block of a binary of `2 ^ 32 - 1` bytes is too short.  A pull writes past its end
wherever such a binary stands behind elements the decoder has read, at any depth, as
soon as the first chunk of its bytes is delivered.
-/

namespace LibBert

open Reading Bytes

variable {F σ : Type} [Platform F] {R : BertReader σ}

/-- Behind the header of a container and elements that stand for `ds`. -/
def Within (R : BertReader σ) (s : σ) (o : Opening) (ds : List (Data F)) (u : σ) : Prop :=
  ∃ t ws, Opened R s o t ∧ Delivers R t (Wire.chunksList ws) u ∧ Wire.denoteList ws = some ds

/-- The input starts with a binary whose block is too short, or with a container that
holds one behind complete elements. -/
inductive Overruns (F : Type) [Platform F] (R : BertReader σ) : σ → Prop
  | bin {s t u : σ} (htag : Tagged R s bertBin t) (hlong : Overlong R t u) : Overruns F R s
  | nested {s u : σ} {o : Opening} {ds : List (Data F)} {timePart : Bool}
      (hwithin : Within R s o ds u) (hwants : o.wants ds = some timePart)
      (hoverruns : Overruns F R u) : Overruns F R s

/-! ## Input that ends -/

/-- At most `n` more bytes are delivered. -/
def Ends (R : BertReader σ) (n : ℕ) (s : σ) : Prop :=
  ∀ chunks t, Delivers R s chunks t → chunks.flatten.length ≤ n

section Ends

variable {n depth : ℕ} {s t u : σ} {o : Opening} {ds : List (Data F)}

omit [Platform F] in
theorem Ends.after (h : Ends R n s) {chunks : List (List UInt8)}
    (hdelivers : Delivers R s chunks t) :
    Ends R n t := fun chunks' u hdelivers' ↦ by
  have hboth := h _ u (delivers_append_iff.mpr ⟨t, hdelivers, hdelivers'⟩)
  rw [List.flatten_append, List.length_append] at hboth
  omega

omit [Platform F] in
theorem Ends.opened (h : Ends R n s) (hopened : Opened R s o t) : 2 ≤ n ∧ Ends R (n - 2) t := by
  have hsize : 1 ≤ o.size.length := by
    cases o with
    | tuple large announced => cases large <;> simp [Opening.size]
    | list announced => simp [Opening.size]
  obtain ⟨chunks, hchunks, hlength⟩ :
      ∃ chunks, Delivers R s chunks t ∧ 2 ≤ chunks.flatten.length := by
    rcases hopened.2 with hopened | hopened
    all_goals
      refine ⟨_, hopened, ?_⟩
      simp only [List.flatten_cons, List.flatten_nil, List.length_append, List.length_cons,
        List.length_nil]
      omega
  refine ⟨hlength.trans (h _ _ hchunks), fun chunks' u hdelivers ↦ ?_⟩
  have hboth := h _ u (delivers_append_iff.mpr ⟨t, hchunks, hdelivers⟩)
  rw [List.flatten_append, List.length_append] at hboth
  omega

theorem Within.ends (h : Within R s o ds u) (hends : Ends R n s) : 2 ≤ n ∧ Ends R (n - 2) u := by
  obtain ⟨t, ws, hopened, hws, -⟩ := h
  obtain ⟨hn, hends'⟩ := hends.opened hopened
  exact ⟨hn, hends'.after hws⟩

/-- With depth for all that is delivered, a delivered wire term is pulled. -/
theorem Ends.run_of_delivers (h : Ends R n s) (hdepth : n < depth) {w : Wire} {d : Data F}
    (hdenote : w.denote = some d) (hdelivers : Delivers R s w.chunks t) :
    run R (bertDecoderPull depth) s = .done ((1, some d) : Result F) t := by
  have hheight := w.height_lt_length_bytes
  have hlength := h _ _ hdelivers
  rw [← Wire.bytes] at hlength
  exact run_bertDecoderPull_of_delivers (by omega) hdenote hdelivers

theorem Ends.yields_of_delivers (h : Ends R n s) (hdepth : n < depth) {ws : List Wire}
    (hds : Wire.denoteList ws = some ds) (hdelivers : Delivers R s (Wire.chunksList ws) t) :
    Yields R (bertDecoderPull depth) s ds t := by
  have hheights := Wire.heightList_le_length fun w (_ : w ∈ ws) ↦ w.height_lt_length_bytes
  have hlength := h _ _ hdelivers
  exact LibBert.yields_of_delivers (by omega) hds hdelivers

end Ends

/-! ## The run of a pull -/

section Run

variable {n depth : ℕ} {s t u v : σ} {o : Opening} {ds : List (Data F)} {timePart : Bool}

/-- A fault of an element is a fault of its container. -/
theorem Opened.run_of_fault (h : Opened R s o t) (hyields : Yields R (bertDecoderPull depth) t ds u)
    (hwants : o.wants ds = some timePart)
    (hrun : run R (bertDecoderPull depth : Decode F _) u = .fault v) :
    run R (bertDecoderPull (depth + 1) : Decode F _) s = .fault v := by
  have hskip : run R (o.gather (bertDecoderPull depth) []) t =
      run R (o.gather (bertDecoderPull depth) ds) u :=
    Opening.run_gather_of_yields hyields hwants
  have hgather : run R (o.gather (bertDecoderPull depth) ds) u = .fault v := by
    rw [Opening.gather_of_wants hwants, run_pullElement_fault hrun]
  rw [run_bertDecoderPull_succ, h.run_pullBody, o.decode_eq_gather, hskip, hgather,
    Outcome.bind_fault]

theorem run_of_overlong (htag : Tagged R s bertBin t) (hlong : Overlong R t u) (depth : ℕ) :
    run R (bertDecoderPull (depth + 1) : Decode F _) s = .fault u := by
  rw [run_bertDecoderPull_succ, run_pullBody_overlong htag hlong]

/-- With depth for all that is delivered, a pull of input that overruns a block ends
in a fault. -/
theorem Overruns.run (h : Overruns F R s) (hends : Ends R n s) (hdepth : n < depth) :
    ∃ t, Reading.run R (bertDecoderPull depth : Decode F _) s = .fault t := by
  obtain ⟨depth, rfl⟩ : ∃ k, depth = k + 1 := ⟨depth - 1, by omega⟩
  induction h generalizing n depth with
  | @bin s t u htag hlong => exact ⟨u, run_of_overlong htag hlong depth⟩
  | @nested s u o ds timePart hwithin hwants hoverruns ih =>
      obtain ⟨hn, hends'⟩ := hwithin.ends hends
      obtain ⟨t, ws, hopened, hws, hds⟩ := hwithin
      obtain ⟨depth, rfl⟩ : ∃ k, depth = k + 1 := ⟨depth - 1, by omega⟩
      obtain ⟨v, hrun⟩ := ih hends' depth (by omega)
      have hyields := (hends.opened hopened).2.yields_of_delivers
        (show n - 2 < depth + 1 by omega) hds hws
      exact ⟨v, hopened.run_of_fault hyields hwants hrun⟩

end Run

/-! ## Wire terms -/

namespace Wire

/-- A wire term that holds, behind elements that stand for something, a binary whose
block is too short. -/
inductive Overlong (F : Type) [Platform F] : Wire → Prop
  | bin {w : Wire} {data : List UInt8} (hw : w.unmark = .bin data)
      (hmax : data.length = 2 ^ 32 - 1) : Overlong F w
  | tuple {w v : Wire} {large : Bool} {announced : ℕ} {before behind : List Wire}
      {ds : List (Data F)} {timePart : Bool}
      (hw : w.unmark = .tuple large announced (before ++ v :: behind))
      (hds : denoteList before = some ds) (hfits : (Opening.tuple large announced).Fits)
      (hwants : (Opening.tuple large announced).wants ds = some timePart)
      (hlong : Overlong F v) : Overlong F w
  | list {w v : Wire} {announced : ℕ} {before behind : List Wire} {tail : UInt8}
      {ds : List (Data F)} {timePart : Bool}
      (hw : w.unmark = .list announced (before ++ v :: behind) tail)
      (hds : denoteList before = some ds) (hfits : (Opening.list announced).Fits)
      (hwants : (Opening.list announced).wants ds = some timePart)
      (hlong : Overlong F v) : Overlong F w

variable {s t : σ}

omit [Platform F] in
/-- The magic byte of a delivered wire term, marked or not. -/
theorem exists_tagged {w : Wire} (hw : w.unmark.isMarked = false) (h : Delivers R s w.chunks t) :
    ∃ u, Tagged R s w.unmark.tag u ∧ Delivers R u w.unmark.body t := by
  by_cases hmarked : w.isMarked
  · cases w with
    | marked term =>
        rw [chunks, chunks_eq] at h
        obtain ⟨u, htags, hbody⟩ := delivers_append_iff.mp
          (show Delivers R s ([[bertMagic], [term.tag]] ++ term.body) t from h)
        exact ⟨u, .inr htags, hbody⟩
    | _ => simp [isMarked] at hmarked
  · have hunmark : w.unmark = w := by
      cases w with
      | marked term => simp [isMarked] at hmarked
      | _ => rfl
    rw [hunmark] at hw ⊢
    rw [chunks_eq] at h
    obtain ⟨u, htag, hbody⟩ := delivers_cons_split.mp h
    exact ⟨u, .inl ⟨tag_ne_magic hw, htag⟩, hbody⟩

end Wire

section Wire

variable {s t u : σ} {o : Opening}

omit [Platform F] in
theorem Tagged.opened (h : Tagged R s o.tag u) (hfits : o.Fits) (hsize : Delivers R u [o.size] t) :
    Opened R s o t := by
  refine ⟨hfits, ?_⟩
  rcases h with ⟨-, htag⟩ | htags
  · exact .inl (delivers_cons_split.mpr ⟨u, htag, hsize⟩)
  · exact .inr (delivers_append_iff.mpr ⟨u, htags, hsize⟩)

namespace Wire

theorem Overlong.marked {term : Wire} (hterm : term.isMarked = false) (h : term.Overlong F) :
    (Wire.marked term).Overlong F := by
  have hunmark : (Wire.marked term).unmark = term.unmark := by
    cases term with
    | marked term => cases hterm
    | _ => rfl
  cases h with
  | bin hw hmax => exact .bin (hunmark.trans hw) hmax
  | tuple hw hds hfits hwants hlong => exact .tuple (hunmark.trans hw) hds hfits hwants hlong
  | list hw hds hfits hwants hlong => exact .list (hunmark.trans hw) hds hfits hwants hlong

/-- Elements up to one whose pull ends in a fault. -/
theorem run_of_element {w : Wire} {depth : ℕ} {before behind : List Wire} {v : Wire}
    {ds : List (Data F)} {timePart : Bool} (hopened : Opened R s o u)
    (helements : w.unmark.elements = before ++ v :: behind) (hdepth : w.height < depth + 1)
    (h : Delivers R u (chunksList (before ++ v :: behind)) t) (hds : denoteList before = some ds)
    (hwants : o.wants ds = some timePart)
    (hrun : ∀ s t, v.height < depth → Delivers R s v.chunks t →
      ∃ x, run R (bertDecoderPull depth : Decode F _) s = .fault x) :
    ∃ x, run R (bertDecoderPull (depth + 1) : Decode F _) s = .fault x := by
  have hheight : heightList (before ++ v :: behind) < depth := by
    have hless := w.heightList_elements_lt (by simp [helements])
    rw [helements] at hless
    omega
  rw [chunksList_append] at h
  obtain ⟨u', hbefore, hrest⟩ := delivers_append_iff.mp h
  obtain ⟨v', hv, -⟩ := delivers_chunksList_cons.mp hrest
  rw [heightList_append, max_lt_iff, heightList, max_lt_iff] at hheight
  obtain ⟨x, hfault⟩ := hrun u' v' hheight.2.1 hv
  exact ⟨x, hopened.run_of_fault (yields_of_delivers hheight.1 hds hbefore) hwants hfault⟩

/-- A pull of such a wire term ends in a fault. -/
theorem Overlong.run {w : Wire} {depth : ℕ} (hlong : w.Overlong F) (hdepth : w.height < depth)
    (h : Delivers R s w.chunks t) :
    ∃ v, Reading.run R (bertDecoderPull depth : Decode F _) s = .fault v := by
  obtain ⟨depth, rfl⟩ : ∃ k, depth = k + 1 := ⟨depth - 1, by omega⟩
  induction hlong generalizing depth s t with
  | @bin w data hw hmax =>
      obtain ⟨u, htag, hbody⟩ := exists_tagged (by rw [hw]; rfl) h
      rw [hw] at htag hbody
      obtain ⟨v, hlong⟩ := exists_overlong hmax hbody
      exact ⟨v, run_of_overlong htag hlong depth⟩
  | @tuple w v large announced before behind ds timePart hw hds hfits hwants hlong ih =>
      obtain ⟨u, htag, hbody⟩ := exists_tagged (by rw [hw]; rfl) h
      rw [hw] at htag hbody
      obtain ⟨u', hsize, helements⟩ := delivers_cons_split.mp hbody
      refine run_of_element (htag.opened hfits hsize) (by rw [hw]; rfl) hdepth helements hds hwants
        fun s t hheight hdelivers ↦ ?_
      obtain ⟨depth, rfl⟩ : ∃ k, depth = k + 1 := ⟨depth - 1, by omega⟩
      exact ih hdelivers depth hheight
  | @list w v announced before behind tail ds timePart hw hds hfits hwants hlong ih =>
      obtain ⟨u, htag, hbody⟩ := exists_tagged (by rw [hw]; rfl) h
      rw [hw] at htag hbody
      obtain ⟨u', hsize, hrest⟩ := delivers_cons_split.mp hbody
      obtain ⟨v', helements, -⟩ := delivers_append_iff.mp hrest
      refine run_of_element (htag.opened hfits hsize) (by rw [hw]; rfl) hdepth helements hds hwants
        fun s t hheight hdelivers ↦ ?_
      obtain ⟨depth, rfl⟩ : ∃ k, depth = k + 1 := ⟨depth - 1, by omega⟩
      exact ih hdelivers depth hheight

end Wire

end Wire

end LibBert
