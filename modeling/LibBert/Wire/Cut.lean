import LibBert.Decoder.Assignment

/-!
# Input that ends too early

What a pull answers when its input ends within a term.  A cut inside a token is
reported as a short read; a cut between two elements of a container is not, and
the answer then depends on the containers around it.
-/

namespace LibBert

open Reading Bytes

variable {F σ : Type} {R : BertReader σ}

/-! ## The end of the input -/

/-- The reader has nothing left and stays so. -/
def Drained (R : BertReader σ) (s : σ) : Prop :=
  ∃ inv : σ → Prop, inv s ∧
    ∀ u, inv u → ∀ size, 0 < size → ∃ v, R.read u size = (bertErrnoEmpty, v) ∧ inv v

theorem Drained.read {s : σ} (h : Drained R s) {size : ℕ} (hsize : 0 < size) :
    ∃ t, R.read s size = (bertErrnoEmpty, t) ∧ Drained R t := by
  obtain ⟨inv, hs, hread⟩ := h
  obtain ⟨t, ht, hinv⟩ := hread s hs size hsize
  exact ⟨t, ht, inv, hinv, hread⟩

/-- Wherever the reader finds nothing left, it stays so. -/
def Drains (R : BertReader σ) (s : σ) : Prop :=
  ∀ chunks t, Delivers R s chunks t → (R.read t 1).1 = bertErrnoEmpty → Drained R t

theorem Drains.after {s t : σ} {chunks : List (List UInt8)} (h : Drains R s)
    (hdelivers : Delivers R s chunks t) : Drains R t := fun _ u hdelivers' ↦
  h _ u (delivers_append_iff.mpr ⟨t, hdelivers, hdelivers'⟩)

/-! ## Verdicts -/

/-- What becomes of a term the input ends in. -/
inductive Verdict : Type where
  /-- `BERT_ERRNO_SHORT_READ` -/
  | short
  /-- 1 without a term -/
  | unset
  /-- 1 with a term -/
  | held
  /-- another error, a term is freed twice, or an unassigned pointer is used -/
  | lost
  deriving DecidableEq

/-- A term returned for an input that ends within it: a tuple whose last slot is
`NULL` or such a term again, or a time. -/
inductive Data.Held : Data F → Prop
  | time (time : Int64) : Held (.time time)
  | unset (slots : List (Option (Data F))) : Held (.tuple (slots ++ [.none]))
  | last (slots : List (Option (Data F))) {d : Data F} (h : Held d) :
      Held (.tuple (slots ++ [.some d]))

/-- The outcome of a decode function, whose result for success is `one`, on an
input that ends within a term. -/
def Verdict.Answers (R : BertReader σ) (one : Code) : Verdict → Outcome σ (Result F) → Prop
  | .short, outcome => ∃ t, outcome = .done (bertErrnoShortRead, none) t
  | .unset, outcome => ∃ t, Drained R t ∧ outcome = .done (one, none) t
  | .held, outcome => ∃ (d : Data F) (t : σ), d.Held ∧ Drained R t ∧ outcome = .done (one, some d) t
  | .lost, outcome => (∃ t, outcome = .stuck t) ∨ (∃ t, outcome = .fault t) ∨
      ∃ code t, code < 0 ∧ code ≠ bertErrnoShortRead ∧ outcome = .done (code, none) t

namespace Opening

/-- The elements read so far open a complex term. -/
def complex : Opening → List (Data F) → Bool
  | .tuple _ _, first :: _ => first.isBert
  | _, _ => false

/-- A container whose element behind `ds` was answered with 1 at the end of the
input: the next element is missing, or the container is closed.  A list that took its
last element `twice` frees it twice where the next is missing. -/
def atEnd (ds : List (Data F)) (twice : Bool) : Opening → Verdict
  | .tuple _ announced => if ds.length + 1 < announced then .unset else .held
  | .list announced =>
      if ds.length + 1 < announced then if twice then .lost else .unset else .short

/-- What becomes of a container when the input ends in its element behind
`ds`. -/
def carry (o : Opening) (ds : List (Data F)) (timePart : Bool) : Verdict → Verdict
  | .short => if timePart then .lost else .short
  | .lost => .lost
  | .unset => if ds.isEmpty || o.complex ds then .lost else o.atEnd ds true
  | .held =>
      if o.complex ds then if timePart && ds.length == 4 then .held else .lost
      else o.atEnd ds false

end Opening

/-! ## Decode functions at the end of the input -/

section AtEnd

variable [Platform F]

variable {pull : Decode F (Result F)} {o : Opening} {ds : List (Data F)} {timePart : Bool} {s : σ}

omit [Platform F] in
theorem Drained.run_decoderRead (h : Drained R s) :
    ∃ t, run R (decoderRead 1 : Decode F _) s = .done (.error bertErrnoShortRead) t := by
  obtain ⟨t, hread, -⟩ := h.read Nat.one_pos
  exact ⟨t, run_decoderRead_error hread (.inl rfl)⟩

/-- A pull at the end of the input returns 0 and leaves it there. -/
def Idle (R : BertReader σ) (pull : Decode F (Result F)) : Prop :=
  ∀ s, Drained R s → ∃ t, Drained R t ∧ run R pull s = .done (0, none) t

theorem idle_bertDecoderPull (depth : ℕ) : Idle R (bertDecoderPull (depth + 1) : Decode F _) := by
  intro s h
  obtain ⟨t, hread, ht⟩ := h.read Nat.one_pos
  refine ⟨t, ht, ?_⟩
  rw [run_bertDecoderPull_succ, pullBody, run_read, hread]
  rfl

omit [Platform F] in
/-- A plain container only wants as many elements as it announces. -/
theorem Opening.length_lt_of_plain (hplain : o.complex ds = false)
    (hwants : o.wants ds = some timePart) : ds.length < o.announced ∧ timePart = false := by
  cases o with
  | list announced =>
      simp only [wants, Option.ite_none_right_eq_some, Option.some.injEq] at hwants
      exact ⟨hwants.1, hwants.2.symm⟩
  | tuple large announced =>
      cases ds with
      | nil =>
          simp only [wants, tupleWants, Option.ite_none_left_eq_some, Option.some.injEq] at hwants
          exact ⟨Nat.pos_of_ne_zero hwants.1, hwants.2.symm⟩
      | cons first rest =>
          have hbert : ¬ first.isBert := by simpa [complex] using hplain
          simp only [wants, tupleWants, if_neg hbert, Option.ite_none_right_eq_some,
            Option.some.injEq] at hwants
          exact ⟨hwants.1, hwants.2.symm⟩

omit [Platform F] in
theorem Data.Held.not_bert {d : Data F} (h : d.Held) : ¬ d.isBert := by
  cases h <;> simp [Data.isBert]

omit [Platform F] in
/-- A tuple loop that is entered at the end of the input with a torn element as
its last slot. -/
theorem answers_tupleLoop (hidle : Idle R pull) (hs : Drained R s) {large : Bool} {announced : ℕ}
    {slots : List (Option (Data F))} (hheld : (Data.tuple slots).Held) (twice : Bool) :
    ((Opening.tuple large announced).atEnd ds twice).Answers R bertSuccess
      (run R (decodeTupleLoop pull (announced - (ds.length + 1)) slots) s) := by
  rw [Opening.atEnd]
  by_cases hmore : ds.length + 1 < announced
  · obtain ⟨left, hleft⟩ : ∃ left, announced - (ds.length + 1) = left + 1 :=
      ⟨announced - (ds.length + 1) - 1, by omega⟩
    obtain ⟨t, ht, hrun⟩ := hidle s hs
    have hloop : run R (decodeTupleLoop pull (left + 1) slots) s = .done (0, none) t := by
      simp [decodeTupleLoop, hrun]
    rw [if_pos hmore, hleft]
    exact ⟨t, ht, hloop⟩
  · rw [if_neg hmore, show announced - (ds.length + 1) = 0 by omega]
    exact ⟨_, s, hheld, hs, rfl⟩

omit [Platform F] in
theorem answers_listLoop (hidle : Idle R pull) (hs : Drained R s) {announced : ℕ}
    (element : Option (Data F)) (twice : Bool) (entries : List (Data F)) :
    ((Opening.list announced).atEnd ds twice).Answers R bertSuccess
      (run R (decodeListLoop pull (announced - (ds.length + 1)) element twice entries) s) := by
  rw [Opening.atEnd]
  by_cases hmore : ds.length + 1 < announced
  · obtain ⟨left, hleft⟩ : ∃ left, announced - (ds.length + 1) = left + 1 :=
      ⟨announced - (ds.length + 1) - 1, by omega⟩
    obtain ⟨t, ht, hrun⟩ := hidle s hs
    have hloop : run R (decodeListLoop pull (left + 1) element twice entries) s =
        if twice then .fault t else .done (0, none) t := by
      cases twice <;> simp [decodeListLoop, hrun]
    rw [if_pos hmore, hleft, hloop]
    cases twice with
    | true => exact .inr (.inl ⟨t, rfl⟩)
    | false => exact ⟨t, ht, rfl⟩
  · obtain ⟨t, hrun⟩ := hs.run_decoderRead (F := F)
    rw [if_neg hmore, show announced - (ds.length + 1) = 0 by omega]
    exact ⟨t, by simp [decodeListLoop, hrun]⟩

/-- Behind a torn element of a plain container the input is at its end. -/
theorem answers_gather_held (hidle : Idle R pull) (hs : Drained R s) (hplain : o.complex ds = false)
    {d : Data F} (hheld : d.Held) (hwants : o.wants ds = some timePart) :
    (o.atEnd ds false).Answers R bertSuccess (run R (o.gather pull (ds ++ [d])) s) := by
  have hless := (Opening.length_lt_of_plain hplain hwants).1
  cases o with
  | list announced =>
      have hleft : (ds ++ [d]).length + (announced - (ds.length + 1)) = announced := by
        simp only [Opening.announced] at hless
        rw [List.length_append, List.length_singleton]
        omega
      rw [Opening.gather_entries _ _ hleft]
      exact answers_listLoop hidle hs _ _ _
  | tuple large announced =>
      simp only [Opening.announced] at hless
      have hloop : (Opening.tuple large announced).gather pull (ds ++ [d]) =
          decodeTupleLoop pull (announced - (ds.length + 1)) (ds.map some ++ [some d]) := by
        cases ds with
        | nil =>
            have hleft : ([] : List (Data F)).length + 1 + (announced - (0 + 1)) = announced := by
              rw [List.length_nil] at hless ⊢
              omega
            exact Opening.gather_slots hheld.not_bert _ hleft
        | cons first rest =>
            have hbert : ¬ first.isBert := by simpa [Opening.complex] using hplain
            have hleft :
                (rest ++ [d]).length + 1 + (announced - (rest.length + 1 + 1)) = announced := by
              rw [List.length_cons] at hless
              rw [List.length_append, List.length_singleton]
              omega
            have hslots : (Opening.tuple large announced).gather pull (first :: (rest ++ [d])) =
                decodeTupleLoop pull _ ((first :: (rest ++ [d])).map some) :=
              Opening.gather_slots hbert _ hleft
            rw [List.map_cons, List.map_append] at hslots
            exact hslots
      rw [hloop]
      exact answers_tupleLoop hidle hs (.last _ hheld) _

omit [Platform F] in
/-- Behind an element of a plain container that stored nothing the input is at
its end. -/
theorem answers_lost (hidle : Idle R pull) (hs : Drained R s) (hplain : o.complex ds = false)
    (hsome : ds ≠ []) :
    (o.atEnd ds true).Answers R bertSuccess (run R (o.lost pull ds) s) := by
  cases o with
  | list announced =>
      obtain ⟨stale, hstale⟩ : ∃ stale, ds.getLast? = some stale :=
        ⟨_, List.getLast?_eq_some_getLast hsome⟩
      simp only [Opening.lost, hstale, run_bind, run_assigned_some, Outcome.bind_done, run_emit]
      exact answers_listLoop hidle hs _ _ _
  | tuple large announced =>
      cases ds with
      | nil => exact absurd rfl hsome
      | cons first rest =>
          have hbert : ¬ first.isBert := by simpa [Opening.complex] using hplain
          rw [Opening.lost, if_neg hbert]
          exact answers_tupleLoop hidle hs (.unset _) _

/-- No form but a time takes a torn element, and that as its last part. -/
theorem answers_complex_held (hs : Drained R s) {large : Bool} {announced : ℕ} {first : Data F}
    {rest : List (Data F)} (hbert : first.isBert) (hpos : announced ≠ 0) {d : Data F}
    (hheld : d.Held) (hwants : complexWants rest = some timePart) :
    (if timePart && (first :: rest).length == 4 then Verdict.held else .lost).Answers R bertSuccess
      (run R ((Opening.tuple large announced).gather pull (first :: (rest ++ [d]))) s) := by
  have hinvalid : complexWants (rest ++ [d]) = none → denoteComplex (rest ++ [d]) = none →
      nullOption (first :: (rest ++ [d])) = false →
      Verdict.lost.Answers R bertSuccess
        (run R ((Opening.tuple large announced).gather pull (first :: (rest ++ [d]))) s) := by
    intro hlast hdenote hnull
    rw [Opening.gather_finish hbert hpos hlast, hdenote]
    simp only [hnull]
    exact .inr (.inr ⟨bertErrnoInvalid, s, by decide, by decide, rfl⟩)
  have hint : d.isInt = false := by cases hheld <;> rfl
  have hbin : d.isBin = false := by cases hheld <;> rfl
  unfold complexWants at hwants
  split at hwants
  · cases hwants
    exact hinvalid (by cases hheld <;> rfl) (by cases hheld <;> rfl) (by cases hheld <;> rfl)
  next keyword =>
      have hlost := hinvalid (by simp [complexWants, hint, hbin])
        (by cases hheld <;> simp [denoteComplex]) (by cases hheld <;> simp [nullOption])
      simpa using hlost
  next keyword second =>
      have hlost := hinvalid (by simp [complexWants, hint])
        (by cases hheld <;> simp [denoteComplex]) (by cases hheld <;> simp [nullOption])
      simpa using hlost
  next keyword second third =>
      rw [Option.ite_none_right_eq_some] at hwants
      obtain ⟨⟨rfl, hsecond, hthird⟩, ⟨⟩⟩ := hwants
      rw [if_pos (by simp), Opening.gather_finish hbert hpos (by simp [complexWants])]
      simp only [List.cons_append, List.nil_append, denoteComplex, hsecond, hthird, and_self,
        if_true]
      exact ⟨_, s, .time _, hs, rfl⟩
  · cases hwants

omit [Platform F] in
theorem Opening.exists_bert_of_complex (h : o.complex ds) :
    ∃ large announced first tail,
      o = .tuple large announced ∧ ds = first :: tail ∧ first.isBert := by
  cases o <;> cases ds <;> simp_all [Opening.complex]

/-- What the element behind `ds` comes to decides what the container comes to. -/
theorem answers_carry (hidle : Idle R pull) (hwants : o.wants ds = some timePart)
    {verdict : Verdict} (h : verdict.Answers R 1 (run R pull s)) :
    (o.carry ds timePart verdict).Answers R bertSuccess (run R (o.gather pull ds) s) := by
  rw [Opening.gather_of_wants hwants]
  cases verdict with
  | short =>
      obtain ⟨t, hrun⟩ := h
      rw [run_pullElement_none (by decide) hrun]
      cases timePart with
      | true => exact .inl ⟨t, rfl⟩
      | false => exact ⟨t, rfl⟩
  | lost =>
      rcases h with ⟨t, hrun⟩ | ⟨t, hrun⟩ | ⟨code, t, hneg, hcode, hrun⟩
      · exact .inl ⟨t, by simp [pullElement, hrun]⟩
      · exact .inr (.inl ⟨t, run_pullElement_fault hrun⟩)
      · rw [run_pullElement_none (hneg.trans (by decide)).ne hrun]
        cases timePart with
        | true => exact .inl ⟨t, rfl⟩
        | false => exact .inr (.inr ⟨code, t, hneg, hcode, rfl⟩)
  | unset =>
      obtain ⟨t, ht, hrun⟩ := h
      rw [run_pullElement_lost hrun, Opening.carry]
      cases hcomplex : o.complex ds with
      | true =>
          obtain ⟨large, announced, first, tail, rfl, rfl, hbert⟩ :=
            Opening.exists_bert_of_complex hcomplex
          simp only [Opening.lost, hbert, Bool.or_true, if_true]
          exact .inl ⟨t, rfl⟩
      | false =>
          cases ds with
          | nil => cases o <;> exact .inl ⟨t, rfl⟩
          | cons first tail => exact answers_lost hidle ht hcomplex (by simp)
  | held =>
      obtain ⟨d, t, hheld, ht, hrun⟩ := h
      rw [run_pullElement_some hrun, Opening.carry]
      cases hcomplex : o.complex ds with
      | true =>
          obtain ⟨large, announced, first, tail, rfl, rfl, hbert⟩ :=
            Opening.exists_bert_of_complex hcomplex
          simp only [Opening.wants, tupleWants, if_pos hbert,
            Option.ite_none_left_eq_some] at hwants
          exact answers_complex_held ht hbert hwants.1 hheld hwants.2
      | false => exact answers_gather_held hidle ht hcomplex hheld hwants

end AtEnd

/-! ## Input that ends within a term -/

/-- The input ends within the term it starts with, and what becomes of it. -/
inductive Cuts (F : Type) [Platform F] (R : BertReader σ) : σ → Verdict → Prop
  /-- within a scalar or the header of a container -/
  | token {s : σ} (h : Stops R bertErrnoShortRead s) : Cuts F R s .short
  /-- where an element is due -/
  | missing {s u : σ} {o : Opening} {ds : List (Data F)} {timePart : Bool}
      (hwithin : Within R s o ds u) (hwants : o.wants ds = some timePart) (hend : Drained R u) :
      Cuts F R s (if timePart then .lost else .unset)
  /-- within an element -/
  | nested {s u : σ} {o : Opening} {ds : List (Data F)} {timePart : Bool} {verdict : Verdict}
      (hwithin : Within R s o ds u) (hwants : o.wants ds = some timePart)
      (hcut : Cuts F R u verdict) : Cuts F R s (o.carry ds timePart verdict)
  /-- before the tail byte of a list -/
  | tail {s u : σ} {announced : ℕ} {ds : List (Data F)}
      (hwithin : Within R s (.list announced) ds u) (hlength : ds.length = announced)
      (hfails : Fails R bertErrnoShortRead u 1) : Cuts F R s .short
  /-- behind anything that is no term where a part of a time is due -/
  | time {s u : σ} {o : Opening} {ds : List (Data F)}
      (hwithin : Within R s o ds u) (hwants : o.wants ds = some true)
      (hnone : ∀ w v, ∀ d : Data F, Wire.denote w = some d → ¬ Delivers R u w.chunks v)
      (htorn : ¬ Torn F R u) : Cuts F R s .lost

section Answers

variable [Platform F] {n depth : ℕ} {s t u : σ} {o : Opening} {ds : List (Data F)} {timePart : Bool}
  {verdict : Verdict}

omit [Platform F] in
/-- A pull answers as its decode function does. -/
theorem Verdict.Answers.pull {outcome : Outcome σ (Result F)}
    (h : verdict.Answers R bertSuccess outcome) :
    verdict.Answers R 1 (outcome.bind fun result t ↦ .done (pullResult result) t) := by
  cases verdict with
  | short =>
      obtain ⟨t, rfl⟩ := h
      exact ⟨t, rfl⟩
  | unset =>
      obtain ⟨t, ht, rfl⟩ := h
      exact ⟨t, ht, rfl⟩
  | held =>
      obtain ⟨d, t, hheld, ht, rfl⟩ := h
      exact ⟨d, t, hheld, ht, rfl⟩
  | lost =>
      rcases h with ⟨t, rfl⟩ | ⟨t, rfl⟩ | ⟨code, t, hneg, hcode, rfl⟩
      · exact .inl ⟨t, rfl⟩
      · exact .inr (.inl ⟨t, rfl⟩)
      · refine .inr (.inr ⟨code, t, hneg, hcode, ?_⟩)
        rw [Outcome.bind_done, pullResult_of_neg hneg]

omit [Platform F] in
/-- Only two verdicts are answered with 1. -/
theorem Verdict.Answers.of_one {data : Option (Data F)}
    (h : verdict.Answers R 1 (.done (1, data) t)) :
    verdict = .unset ∧ data = none ∧ Drained R t ∨
      verdict = .held ∧ Drained R t ∧ ∃ d : Data F, d.Held ∧ data = some d := by
  cases verdict with
  | short => obtain ⟨u, ⟨⟩⟩ := h
  | unset =>
      obtain ⟨u, hu, ⟨⟩⟩ := h
      exact .inl ⟨rfl, rfl, hu⟩
  | held =>
      obtain ⟨d, u, hheld, hu, ⟨⟩⟩ := h
      exact .inr ⟨rfl, hu, d, hheld, rfl⟩
  | lost =>
      rcases h with ⟨u, ⟨⟩⟩ | ⟨u, ⟨⟩⟩ | ⟨code, u, hneg, -, ⟨⟩⟩
      exact absurd hneg (by decide)

/-- A container answers as it does behind the elements that were read. -/
theorem Within.answers (h : Within R s o ds u) (hends : Ends R n s) (hdepth : n < depth + 1)
    (hwants : o.wants ds = some timePart)
    (hgather : verdict.Answers R bertSuccess
      (run R (o.gather (bertDecoderPull depth : Decode F _) ds) u)) :
    verdict.Answers R 1 (run R (bertDecoderPull (depth + 1) : Decode F _) s) := by
  obtain ⟨t, ws, hopened, hws, hds⟩ := h
  obtain ⟨hn, hends'⟩ := hends.opened hopened
  have hyields := hends'.yields_of_delivers (show n - 2 < depth by omega) hds hws
  have hskip : run R (o.gather (bertDecoderPull depth) []) t =
      run R (o.gather (bertDecoderPull depth) ds) u :=
    Opening.run_gather_of_yields hyields hwants
  rw [run_bertDecoderPull_succ, hopened.run_pullBody, o.decode_eq_gather, hskip]
  exact hgather.pull

/-- What an input that ends within a term is answered with. -/
theorem Cuts.answers (h : Cuts F R s verdict) (hends : Ends R n s) (hdepth : n < depth) :
    verdict.Answers R 1 (run R (bertDecoderPull depth : Decode F _) s) := by
  obtain ⟨depth, rfl⟩ : ∃ k, depth = k + 1 := ⟨depth - 1, by omega⟩
  induction h generalizing n depth with
  | token h =>
      obtain ⟨t, hrun⟩ := h.run_pullBody (bertDecoderPull depth : Decode F _)
      exact ⟨t, by rw [run_bertDecoderPull_succ, hrun]⟩
  | @missing s u o ds timePart hwithin hwants hend =>
      obtain ⟨hn, -⟩ := hwithin.ends hends
      apply hwithin.answers hends hdepth hwants
      obtain ⟨depth, rfl⟩ : ∃ k, depth = k + 1 := ⟨depth - 1, by omega⟩
      obtain ⟨t, ht, hrun⟩ := idle_bertDecoderPull (F := F) depth u hend
      rw [Opening.gather_of_wants hwants, run_pullElement_none (by decide) hrun]
      cases timePart with
      | true => exact .inl ⟨t, rfl⟩
      | false => exact ⟨t, ht, rfl⟩
  | @nested s u o ds timePart verdict hwithin hwants hcut ih =>
      obtain ⟨hn, hends'⟩ := hwithin.ends hends
      apply hwithin.answers hends hdepth hwants
      obtain ⟨depth, rfl⟩ : ∃ k, depth = k + 1 := ⟨depth - 1, by omega⟩
      exact answers_carry (idle_bertDecoderPull depth) hwants (ih hends' depth (by omega))
  | @tail s u announced ds hwithin hlength hfails =>
      obtain ⟨t, ws, hopened, hws, hds⟩ := hwithin
      obtain ⟨hn, hends'⟩ := hends.opened hopened
      have hyields := hends'.yields_of_delivers (show n - 2 < depth by omega) hds hws
      obtain ⟨hcode, hshort⟩ := hfails
      have hread := run_decoderRead_error (F := F) (Prod.mk.eta.symm : R.read u 1 = _) hcode
      rw [← hshort] at hread
      have hloop := run_decodeListLoop hyields 0 none false []
      rw [Nat.add_zero, decodeListLoop, run_bind, hread] at hloop
      refine ⟨(R.read u 1).2, ?_⟩
      rw [run_bertDecoderPull_succ, hopened.run_pullBody, Opening.decode, ← hlength, hloop]
      rfl
  | @time s u o ds hwithin hwants hnone htorn =>
      obtain ⟨hn, hends'⟩ := hwithin.ends hends
      apply hwithin.answers hends hdepth hwants
      rw [Opening.gather_of_wants hwants]
      rcases pull_fate (F := F) hends' (show n - 2 < depth by omega) with
        ⟨t, -, hrun, -⟩ | ⟨code, t, hcode, hrun, -⟩ | ⟨w, d, v, hdenote, hdelivers, -, -⟩ |
        ⟨t, -, hrun, -⟩ | ⟨htorn', -⟩
      · rw [run_pullElement_none (by decide) hrun]
        exact .inl ⟨t, rfl⟩
      · rw [run_pullElement_none (hcode.trans (by decide)).ne hrun]
        exact .inl ⟨t, rfl⟩
      · exact absurd hdelivers (hnone w v d hdenote)
      · exact .inr (.inl ⟨t, run_pullElement_fault hrun⟩)
      · exact absurd htorn' htorn

omit [Platform F] in
theorem Drains.opened (h : Drains R s) (hopened : Opened R s o t) : Drains R t := by
  rcases hopened.2 with hdelivers | hdelivers
  · exact h.after hdelivers
  · exact h.after hdelivers

theorem Drains.within (h : Drains R s) (hwithin : Within R s o ds u) : Drains R u := by
  obtain ⟨t, ws, hopened, hws, -⟩ := hwithin
  exact (h.opened hopened).after hws

/-- Torn input ends within its term. -/
theorem Torn.cuts (h : Torn F R s) (hends : Ends R n s) (hdrains : Drains R s) :
    ∃ verdict, Cuts F R s verdict := by
  induction n using Nat.strongRecOn generalizing s with
  | ind n ih =>
      have helement {o : Opening} {ds : List (Data F)} {u : σ} (hwithin : Within R s o ds u)
          (htorn : Torn F R u) : ∃ verdict, Cuts F R u verdict := by
        obtain ⟨hn, hends'⟩ := hwithin.ends hends
        exact ih (n - 2) (by omega) htorn hends' (hdrains.within hwithin)
      cases h with
      | @missing _ u o ds timePart hwithin hwants hempty =>
          exact ⟨_, .missing hwithin hwants (hdrains.within hwithin [] u (.nil u) hempty)⟩
      | @nested _ u o ds timePart hwithin hwants htorn =>
          obtain ⟨verdict, hcut⟩ := helement hwithin htorn
          exact ⟨_, .nested hwithin hwants hcut⟩
      | @time _ u o ds hwithin hwants hnone =>
          by_cases htorn : Torn F R u
          · obtain ⟨verdict, hcut⟩ := helement hwithin htorn
            exact ⟨_, .nested hwithin hwants hcut⟩
          · exact ⟨_, .time hwithin hwants hnone htorn⟩

/-- A result of 1 comes from a wire term at the start of the input, or from an
input that ends within its term. -/
theorem one_cases {data : Option (Data F)} (hends : Ends R n s) (hdrains : Drains R s)
    (hdepth : n < depth) (hrun : run R (bertDecoderPull depth : Decode F _) s = .done (1, data) t) :
    (∃ w d, Wire.denote w = some d ∧ data = some d ∧ Delivers R s w.chunks t) ∨
    (Cuts F R s .unset ∧ data = none ∧ Drained R t) ∨
    (Cuts F R s .held ∧ Drained R t ∧ ∃ d : Data F, d.Held ∧ data = some d) := by
  rcases pull_fate (F := F) hends hdepth with
    ⟨u, -, hrun', -⟩ | ⟨code, u, hcode, hrun', -⟩ | ⟨w, d, u, hdenote, hdelivers, hrun', -⟩ |
    ⟨u, -, hrun', -⟩ | ⟨htorn, -⟩
  · rw [hrun] at hrun'
    cases hrun'
  · rw [hrun] at hrun'
    cases hrun'
    exact absurd hcode (by decide)
  · rw [hrun] at hrun'
    cases hrun'
    exact .inl ⟨w, d, hdenote, rfl, hdelivers⟩
  · cases hrun.symm.trans hrun'
  · obtain ⟨verdict, hcut⟩ := htorn.cuts hends hdrains
    have hanswers := hcut.answers hends hdepth
    rw [hrun] at hanswers
    rcases hanswers.of_one with ⟨rfl, hnone, ht⟩ | ⟨rfl, ht, hheld⟩
    · exact .inr (.inl ⟨hcut, hnone, ht⟩)
    · exact .inr (.inr ⟨hcut, ht, hheld⟩)

end Answers

/-! ## Over a list -/

theorem plainReader_ends (b : List UInt8) : Ends plainReader b.length b := by
  intro chunks t hdelivers
  rw [plainReader_delivers_iff.mp hdelivers, List.length_append]
  exact Nat.le_add_right _ _

theorem plainReader_read_empty_iff {b : List UInt8} :
    (plainReader.read b 1).1 = bertErrnoEmpty ↔ b = [] := by
  rw [plainReader_read, ← List.length_eq_zero_iff]
  dsimp only
  split_ifs with hlength hnone
  · exact ⟨fun h ↦ absurd h (by decide), fun h ↦ by omega⟩
  · exact ⟨fun _ ↦ hnone, fun _ ↦ rfl⟩
  · exact ⟨fun h ↦ absurd h (by decide), fun h ↦ absurd h hnone⟩

theorem plainReader_drained_iff {b : List UInt8} : Drained plainReader b ↔ b = [] := by
  constructor
  · intro h
    obtain ⟨t, hread, -⟩ := h.read Nat.one_pos
    exact plainReader_read_empty_iff.mp (congrArg Prod.fst hread)
  · rintro rfl
    refine ⟨(· = []), rfl, ?_⟩
    rintro _ rfl size hsize
    refine ⟨[], ?_, rfl⟩
    rw [plainReader_read, if_neg (by rw [List.length_nil]; omega)]
    rfl

theorem plainReader_drains (b : List UInt8) : Drains plainReader b := fun _ _ _ hempty ↦
  plainReader_drained_iff.mpr (plainReader_read_empty_iff.mp hempty)

end LibBert
