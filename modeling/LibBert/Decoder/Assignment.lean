import LibBert.Decoder.Overrun
import LibBert.Decoder.Pulls

/-!
# Unassigned results

A nested pull returns 0 when nothing is left to read, and the decode functions
take 0 for success.  This module says for which inputs that goes wrong: a
container is torn where the input ends before one of its elements, where one of
its elements is torn, or where no term follows for a part of a time.
-/

namespace LibBert

open Reading

variable {F σ : Type} {R : BertReader σ}

/-! ## Complete terms -/

namespace Data

theorem completeSlots_map {ds : List (Data F)} (h : ∀ d ∈ ds, d.Complete) :
    CompleteSlots (ds.map some) := by
  induction ds with
  | nil => simp [CompleteSlots]
  | cons d ds ih =>
      rw [List.map_cons, CompleteSlots]
      exact ⟨h d List.mem_cons_self, ih fun d' hd' ↦ h d' (List.mem_cons_of_mem d hd')⟩

theorem completeList_iff {ds : List (Data F)} : CompleteList ds ↔ ∀ d ∈ ds, d.Complete := by
  induction ds with
  | nil => simp [CompleteList]
  | cons d ds ih => simp [CompleteList, ih]

end Data

theorem completePairs_of_dictEntries {ds : List (Data F)}
    {entries : List (Option (Data F) × Option (Data F))} (hcomplete : ∀ d ∈ ds, d.Complete)
    (h : dictEntries ds = some entries) : Data.CompletePairs entries := by
  induction ds using dictEntries.induct generalizing entries with
  | case1 =>
      cases h
      simp [Data.CompletePairs]
  | case2 key value rest ih =>
      rw [dictEntries, Option.map_eq_some_iff] at h
      obtain ⟨entries, hrest, rfl⟩ := h
      have hpair := hcomplete _ List.mem_cons_self
      have hentries := ih (fun d hd ↦ hcomplete d (List.mem_cons_of_mem _ hd)) hrest
      cases key <;> cases value <;>
        simp_all [Data.Complete, Data.CompleteSlots, Data.CompletePairs]
  | case3 d rest hother =>
      unfold dictEntries at h
      split at h
      · simp_all
      · simp_all
      · cases h

/-- Options without `NULL` slots are never followed through one. -/
theorem regexOptions_ne_null {ds : List (Data F)} (hcomplete : ∀ d ∈ ds, d.Complete)
    (options : UInt32) : regexOptions ds options ≠ .null := by
  induction ds generalizing options with
  | nil => simp [regexOptions]
  | cons d ds ih =>
      have hrest := fun options ↦
        ih (fun d' hd' ↦ hcomplete d' (List.mem_cons_of_mem d hd')) options
      have hoption : regexOption d ≠ .null := by
        have hd := hcomplete d List.mem_cons_self
        intro hnull
        unfold regexOption at hnull
        split at hnull
        · cases hnull
        · simp [Data.Complete, Data.CompleteSlots] at hd
        next tag name =>
            cases name with
            | none => simp [Data.Complete, Data.CompleteSlots] at hd
            | some name =>
                dsimp only at hnull
                split_ifs at hnull
                split at hnull <;> cases hnull
        · cases hnull
      rw [regexOptions]
      split
      · exact hrest _
      · simp
      · simp_all

section Denote

variable [Platform F]

theorem complete_of_denoteComplex {ds : List (Data F)} {d : Data F}
    (hcomplete : ∀ d ∈ ds, d.Complete) (h : denoteComplex ds = some d) : d.Complete := by
  unfold denoteComplex at h
  split at h
  · split_ifs at h <;> cases h <;> simp [Data.Complete]
  next keyword listData =>
      split_ifs at h
      split at h
      · cases h
        simp [Data.Complete, Data.CompletePairs]
      next entries =>
          obtain ⟨pairs, hpairs, rfl⟩ := Option.map_eq_some_iff.mp h
          have hentries : (Data.list entries).Complete := hcomplete _ (by simp)
          rw [Data.Complete, Data.completeList_iff] at hentries
          rw [Data.Complete]
          exact completePairs_of_dictEntries hentries hpairs
      · cases h
  · split_ifs at h
    split at h
    · cases h
      simp [Data.Complete]
    · cases h
  · split_ifs at h
    cases h
    simp [Data.Complete]
  · cases h

theorem complete_of_denoteTuple {announced : ℕ} {ds : List (Data F)} {d : Data F}
    (hcomplete : ∀ d ∈ ds, d.Complete) (h : denoteTuple announced ds = some d) : d.Complete := by
  unfold denoteTuple at h
  split at h
  · split_ifs at h
    cases h
    simp [Data.Complete, Data.CompleteSlots]
  next first rest =>
      split_ifs at h
      · exact complete_of_denoteComplex (fun d hd ↦ hcomplete d (List.mem_cons_of_mem first hd)) h
      · cases h
        rw [Data.Complete]
        exact Data.completeSlots_map hcomplete

theorem exists_of_mem_denoteList {ws : List Wire} {ds : List (Data F)}
    (h : Wire.denoteList ws = some ds) : ∀ d ∈ ds, ∃ w ∈ ws, w.denote = some d := by
  induction ws generalizing ds with
  | nil => simp [Wire.denoteList_nil_eq_some_iff.mp h]
  | cons w ws ih =>
      obtain ⟨d, ds, hd, hds, rfl⟩ := Wire.denoteList_cons_eq_some_iff.mp h
      rintro d' (_ | ⟨_, hd'⟩)
      · exact ⟨w, List.mem_cons_self, hd⟩
      · obtain ⟨w', hw', hdenote⟩ := ih hds d' hd'
        exact ⟨w', List.mem_cons_of_mem w hw', hdenote⟩

theorem complete_of_denote {w : Wire} {d : Data F} (h : w.denote = some d) : d.Complete := by
  induction w using Wire.induct generalizing d with
  | marked term ih => exact ih (Wire.denote_marked h).2
  | nil => cases h; simp [Data.Complete]
  | smallInt i => cases h; simp [Data.Complete]
  | int i => cases h; simp [Data.Complete]
  | bignum large sign magnitude =>
      rw [Wire.denote, Option.ite_none_right_eq_some] at h
      cases h.2
      simp [Data.Complete]
  | float text =>
      rw [Wire.denote, Option.ite_none_right_eq_some] at h
      obtain ⟨f, -, rfl⟩ := Option.map_eq_some_iff.mp h.2
      simp [Data.Complete]
  | atom name =>
      rw [Wire.denote, Option.ite_none_right_eq_some] at h
      cases h.2
      simp [Data.Complete]
  | string text =>
      rw [Wire.denote, Option.ite_none_right_eq_some] at h
      cases h.2
      simp [Data.Complete]
  | bin data =>
      rw [Wire.denote, Option.ite_none_right_eq_some] at h
      cases h.2
      simp [Data.Complete]
  | tuple large announced elements ih =>
      rw [Wire.denote, Option.ite_none_right_eq_some] at h
      obtain ⟨ds, hds, hdenote⟩ := Option.bind_eq_some_iff.mp h.2
      refine complete_of_denoteTuple (fun d' hd' ↦ ?_) hdenote
      obtain ⟨w, hw, hw'⟩ := exists_of_mem_denoteList hds d' hd'
      exact ih w hw hw'
  | list announced elements tail ih =>
      rw [Wire.denote, Option.ite_none_right_eq_some] at h
      obtain ⟨ds, hds, rfl⟩ := Option.map_eq_some_iff.mp h.2
      rw [Data.Complete, Data.completeList_iff]
      intro d' hd'
      obtain ⟨w, hw, hw'⟩ := exists_of_mem_denoteList hds d' hd'
      exact ih w hw hw'

theorem complete_of_denoteList {ws : List Wire} {ds : List (Data F)}
    (h : Wire.denoteList ws = some ds) : ∀ d ∈ ds, d.Complete := fun d hd ↦ by
  obtain ⟨w, -, hw⟩ := exists_of_mem_denoteList h d hd
  exact complete_of_denote hw

end Denote

/-! ## Clean runs -/

/-- What leaves a pull with 1 is complete, and a list never appends a pointer a
second time. -/
def Event.Clean : Event F → Prop
  | .enter => True
  | .leave result data => result = 1 → ∃ d, data = some d ∧ d.Complete
  | .stale => False

/-- No result pointer is used before it is assigned. -/
def clean : Watch (Event F) σ where
  onEmit event _ := event.Clean
  onStuck _ := False

theorem clean_onEvents : (clean : Watch (Event F) σ).OnEvents :=
  ⟨fun _ _ ↦ trivial, fun _ _ ↦ trivial, fun _ _ ↦ trivial, fun _ ↦ trivial⟩

variable [Platform F]

theorem along_clean_succ (depth : ℕ) (s : σ) :
    Along R clean (bertDecoderPull (depth + 1) : Decode F _) s ↔
      Along R clean (pullBody (bertDecoderPull depth) : Decode F _) s ∧
        ∀ result data t, run R (pullBody (bertDecoderPull depth) : Decode F _) s =
          .done (result, data) t → result = 1 → ∃ d, data = some d ∧ d.Complete := by
  rw [bertDecoderPull, along_emit, along_bind]
  constructor
  · rintro ⟨-, hbody, hleave⟩
    exact ⟨hbody, fun result data t hrun ↦ (hleave (result, data) t hrun).1⟩
  · rintro ⟨hbody, hleave⟩
    exact ⟨trivial, hbody, fun result t hrun ↦ ⟨hleave _ _ t hrun, trivial⟩⟩

theorem along_clean_of_run {depth : ℕ} {s t : σ} {result : Code} {data : Option (Data F)}
    (hbody : Along R clean (pullBody (bertDecoderPull depth) : Decode F _) s)
    (hrun : run R (pullBody (bertDecoderPull depth)) s = .done (result, data) t)
    (hresult : result = 1 → ∃ d, data = some d ∧ d.Complete) :
    Along R clean (bertDecoderPull (depth + 1) : Decode F _) s := by
  refine (along_clean_succ depth s).mpr ⟨hbody, fun result' data' t' hrun' ↦ ?_⟩
  rw [hrun] at hrun'
  cases hrun'
  exact hresult

theorem along_clean_of_fault {depth : ℕ} {s t : σ}
    (hbody : Along R clean (pullBody (bertDecoderPull depth) : Decode F _) s)
    (hrun : run R (pullBody (bertDecoderPull depth) : Decode F _) s = .fault t) :
    Along R clean (bertDecoderPull (depth + 1) : Decode F _) s := by
  refine (along_clean_succ depth s).mpr ⟨hbody, fun result data t' hrun' ↦ ?_⟩
  rw [hrun] at hrun'
  cases hrun'

/-! ## Torn input -/

/-- The input starts with a container that is torn. -/
inductive Torn (F : Type) [Platform F] (R : BertReader σ) : σ → Prop
  /-- nothing is left where an element is due -/
  | missing {s u : σ} {o : Opening} {ds : List (Data F)} {timePart : Bool}
      (hwithin : Within R s o ds u) (hwants : o.wants ds = some timePart)
      (hempty : (R.read u 1).1 = bertErrnoEmpty) : Torn F R s
  /-- an element is torn -/
  | nested {s u : σ} {o : Opening} {ds : List (Data F)} {timePart : Bool}
      (hwithin : Within R s o ds u) (hwants : o.wants ds = some timePart)
      (htorn : Torn F R u) : Torn F R s
  /-- no term follows where a part of a time is due, and its pull returns -/
  | time {s u : σ} {o : Opening} {ds : List (Data F)} (hwithin : Within R s o ds u)
      (hwants : o.wants ds = some true)
      (hnone : ∀ w v, ∀ d : Data F, Wire.denote w = some d → ¬ Delivers R u w.chunks v)
      (hfits : ¬ Overruns F R u) : Torn F R s

/-- Only a container is torn. -/
theorem Torn.two_le {n : ℕ} {s : σ} (h : Torn F R s) (hends : Ends R n s) : 2 ≤ n := by
  cases h with
  | missing hwithin => exact (hwithin.ends hends).1
  | nested hwithin => exact (hwithin.ends hends).1
  | time hwithin => exact (hwithin.ends hends).1

/-! ## The fate of a pull -/

/-- Unless the input is torn a pull is clean and finds nothing left, fails, returns the
term a delivered wire term stands for, or overruns a block. -/
inductive Fate (R : BertReader σ) (pull : Decode F (Result F)) (s : σ) : Prop
  | missing (t : σ) (hread : (R.read s 1).1 = bertErrnoEmpty)
      (hrun : run R pull s = .done (0, none) t) (halong : Along R clean pull s)
  | fail (code : Code) (t : σ) (hcode : code < 0) (hrun : run R pull s = .done (code, none) t)
      (halong : Along R clean pull s)
  | term (w : Wire) (d : Data F) (t : σ) (hdenote : w.denote = some d)
      (hdelivers : Delivers R s w.chunks t) (hrun : run R pull s = .done (1, some d) t)
      (halong : Along R clean pull s)
  | overrun (t : σ) (hoverruns : Overruns F R s) (hrun : run R pull s = .fault t)
      (halong : Along R clean pull s)
  | torn (htorn : Torn F R s) (hdirty : ¬ Along R clean pull s)

section Fate

variable {n depth : ℕ} {o : Opening} {pull : Decode F (Result F)} {s t u : σ} {ds : List (Data F)}

/-- What a container comes to behind the elements `ds`. -/
inductive GatherFate (R : BertReader σ) (o : Opening) (pull : Decode F (Result F))
    (ds : List (Data F)) (s : σ) : Prop
  | last (ws : List Wire) (ds' : List (Data F)) (u : σ)
      (hdelivers : Delivers R s (Wire.chunksList ws) u) (hds' : Wire.denoteList ws = some ds')
      (hwants : o.wants (ds ++ ds') = none)
      (hlength : ∀ announced, o = .list announced → ds.length ≤ announced →
        (ds ++ ds').length = announced)
      (hrun : run R (o.gather pull ds) s = run R (o.finish (ds ++ ds')) u)
      (halong : Along R clean (o.finish (ds ++ ds')) u → Along R clean (o.gather pull ds) s)
  | fail (code : Code) (t : σ) (hcode : code < 0)
      (hrun : run R (o.gather pull ds) s = .done (code, none) t)
      (halong : Along R clean (o.gather pull ds) s)
  | overrun (ws : List Wire) (ds' : List (Data F)) (u t : σ) (timePart : Bool)
      (hdelivers : Delivers R s (Wire.chunksList ws) u) (hds' : Wire.denoteList ws = some ds')
      (hwants : o.wants (ds ++ ds') = some timePart) (hoverruns : Overruns F R u)
      (hrun : run R (o.gather pull ds) s = .fault t)
      (halong : Along R clean (o.gather pull ds) s)
  | torn (ws : List Wire) (ds' : List (Data F)) (u : σ) (timePart : Bool)
      (hdelivers : Delivers R s (Wire.chunksList ws) u) (hds' : Wire.denoteList ws = some ds')
      (hwants : o.wants (ds ++ ds') = some timePart)
      (htorn : (R.read u 1).1 = bertErrnoEmpty ∨ Torn F R u ∨
        timePart = true ∧ ¬ Overruns F R u ∧
          ∀ w v, ∀ d : Data F, Wire.denote w = some d → ¬ Delivers R u w.chunks v)
      (hresult : Along R clean (o.gather pull ds) s →
        ∃ t, run R (o.gather pull ds) s = .done (0, none) t)

theorem GatherFate.of_not_wants (hwants : o.wants ds = none) : GatherFate R o pull ds s := by
  refine .last [] [] s (.nil s) rfl (by simpa using hwants) ?_ ?_ ?_
  · rintro announced rfl hle
    simp only [Opening.wants, ite_eq_right_iff, reduceCtorEq, imp_false, not_lt] at hwants
    simpa using Nat.le_antisymm hle hwants
  · rw [Opening.gather_of_not_wants hwants, List.append_nil]
  · rw [Opening.gather_of_not_wants hwants, List.append_nil]
    exact id

theorem GatherFate.of_missing {timePart : Bool} (hwants : o.wants ds = some timePart)
    (hread : (R.read s 1).1 = bertErrnoEmpty) (hrun : run R pull s = .done (0, none) t) :
    GatherFate R o pull ds s := by
  refine .torn [] [] s timePart (.nil s) rfl (by simpa using hwants) (.inl hread) ?_
  rw [Opening.gather_of_wants hwants, along_pullElement_none (by decide) hrun,
    run_pullElement_none (by decide) hrun]
  rintro ⟨-, hstuck⟩
  cases timePart with
  | true => exact (hstuck rfl).elim
  | false => exact ⟨t, rfl⟩

theorem GatherFate.of_fail {timePart : Bool} {code : Code} (hwants : o.wants ds = some timePart)
    (hcode : code < 0) (hrun : run R pull s = .done (code, none) t) (halong : Along R clean pull s)
    (hnone : ∀ w v, ∀ d : Data F, Wire.denote w = some d → ¬ Delivers R s w.chunks v)
    (hfits : ¬ Overruns F R s) : GatherFate R o pull ds s := by
  have hone : code ≠ 1 := by
    rintro rfl
    exact absurd hcode (by decide)
  cases timePart with
  | false =>
      refine .fail code t hcode ?_ ?_
      · rw [Opening.gather_of_wants hwants, run_pullElement_none hone hrun]
        rfl
      · rw [Opening.gather_of_wants hwants, along_pullElement_none hone hrun]
        exact ⟨halong, by simp⟩
  | true =>
      refine .torn [] [] s true (.nil s) rfl (by simpa using hwants)
        (.inr (.inr ⟨rfl, hfits, hnone⟩)) ?_
      rw [Opening.gather_of_wants hwants, along_pullElement_none hone hrun]
      rintro ⟨-, hstuck⟩
      exact (hstuck rfl).elim

theorem GatherFate.of_overrun {timePart : Bool} (hwants : o.wants ds = some timePart)
    (hoverruns : Overruns F R s) (hrun : run R pull s = .fault t) (halong : Along R clean pull s) :
    GatherFate R o pull ds s := by
  refine .overrun [] [] s t timePart (.nil s) rfl (by simpa using hwants) hoverruns ?_ ?_
  · rw [Opening.gather_of_wants hwants, run_pullElement_fault hrun]
  · rw [Opening.gather_of_wants hwants, along_pullElement_fault hrun]
    exact halong

theorem GatherFate.of_term {timePart : Bool} {w : Wire} {d : Data F}
    (hwants : o.wants ds = some timePart) (hdenote : w.denote = some d)
    (hdelivers : Delivers R s w.chunks t) (hrun : run R pull s = .done (1, some d) t)
    (halong : Along R clean pull s) (hrest : GatherFate R o pull (ds ++ [d]) t) :
    GatherFate R o pull ds s := by
  have hnext : run R (o.gather pull ds) s = run R (o.gather pull (ds ++ [d])) t := by
    rw [Opening.gather_of_wants hwants, run_pullElement_some hrun]
  have halong' : Along R clean (o.gather pull ds) s ↔
      Along R clean (o.gather pull (ds ++ [d])) t := by
    rw [Opening.gather_of_wants hwants, along_pullElement_some hrun]
    exact and_iff_right halong
  rcases hrest with ⟨ws, ds', u, hws, hds', hwants', hlength, hrun', halong''⟩ |
    ⟨code, u, hcode, hrun', halong''⟩ |
    ⟨ws, ds', u, v, timePart', hws, hds', hwants', hoverruns, hrun', halong''⟩ |
    ⟨ws, ds', u, timePart', hws, hds', hwants', htorn, hresult⟩
  · obtain ⟨hcons, hcons'⟩ := Wire.delivers_denoteList_cons hdelivers hdenote hws hds'
    rw [← List.append_cons] at hwants' hrun' halong''
    refine .last (w :: ws) (d :: ds') u hcons hcons' hwants' ?_
      (hnext.trans hrun') (fun h ↦ halong'.mpr (halong'' h))
    rintro announced rfl -
    simp only [Opening.wants, Option.ite_none_right_eq_some] at hwants
    rw [List.append_cons]
    exact hlength announced rfl (by rw [List.length_append]; exact hwants.1)
  · exact .fail code u hcode (hnext.trans hrun') (halong'.mpr halong'')
  · obtain ⟨hcons, hcons'⟩ := Wire.delivers_denoteList_cons hdelivers hdenote hws hds'
    rw [← List.append_cons] at hwants'
    exact .overrun (w :: ws) (d :: ds') u v timePart' hcons hcons' hwants' hoverruns
      (hnext.trans hrun') (halong'.mpr halong'')
  · obtain ⟨hcons, hcons'⟩ := Wire.delivers_denoteList_cons hdelivers hdenote hws hds'
    rw [← List.append_cons] at hwants'
    refine .torn (w :: ws) (d :: ds') u timePart' hcons hcons' hwants' htorn fun h ↦ ?_
    rw [hnext]
    exact hresult (halong'.mp h)

theorem gather_fate (hdepth : n < depth)
    (hpull : ∀ v, Ends R n v → Fate R (bertDecoderPull depth : Decode F _) v)
    (o : Opening) (ds : List (Data F)) (s : σ) (hends : Ends R n s) :
    GatherFate R o (bertDecoderPull depth) ds s := by
  induction ds using Opening.gather.induct o generalizing s with
  | case1 ds hwants => exact .of_not_wants hwants
  | case2 ds timePart hwants ih =>
      rcases hpull s hends with ⟨t, hread, hrun, -⟩ | ⟨code, t, hcode, hrun, halong⟩ |
        ⟨w, d, t, hdenote, hdelivers, hrun, halong⟩ | ⟨t, hoverruns, hrun, halong⟩ |
        ⟨htorn, hdirty⟩
      · exact .of_missing hwants hread hrun
      · refine .of_fail hwants hcode hrun halong (fun w v d hdenote hdelivers ↦ ?_)
          fun hoverruns ↦ ?_
        · rw [hends.run_of_delivers hdepth hdenote hdelivers] at hrun
          cases hrun
        · obtain ⟨u, hfault⟩ := hoverruns.run hends hdepth
          cases hrun.symm.trans hfault
      · exact .of_term hwants hdenote hdelivers hrun halong (ih d t (hends.after hdelivers))
      · exact .of_overrun hwants hoverruns hrun halong
      · refine .torn [] [] s timePart (.nil s) rfl (by simpa using hwants) (.inr (.inl htorn)) ?_
        rw [Opening.gather_of_wants hwants]
        exact fun h ↦ absurd (along_of_along_pullElement h) hdirty

omit [Platform F] in
theorem not_nullOption {ds : List (Data F)} (hcomplete : ∀ d ∈ ds, d.Complete) :
    ¬ nullOption ds := by
  unfold nullOption
  split
  next first keyword source optList =>
      have hoptions : (Data.list optList).Complete := hcomplete _ (by simp)
      rw [Data.Complete, Data.completeList_iff] at hoptions
      have hnull := regexOptions_ne_null hoptions 0
      split
      · contradiction
      · simp
  · simp

theorem pull_fate (hends : Ends R n s) (hdepth : n < depth) :
    Fate R (bertDecoderPull depth : Decode F _) s := by
  induction depth generalizing n s with
  | zero => omega
  | succ depth ih =>
      have hrun := run_bertDecoderPull_succ (F := F) (R := R) depth s
      rcases pullBody_classes (R := R) (bertDecoderPull depth : Decode F _) clean_onEvents s with
        ⟨hplain, halong⟩ | ⟨o, t, hopened⟩
      · rcases hplain with ⟨t, hread, hbody⟩ | ⟨code, t, hstops, hbody⟩ |
          ⟨w, d, t, hdenote, -, hdelivers, hbody⟩ | ⟨u, htag, hlong, hbody⟩
        · have hquiet := along_clean_of_run halong hbody fun hone ↦ absurd hone (by decide)
          exact .missing t (congrArg Prod.fst hread) (hrun.trans hbody) hquiet
        · have hone : code ≠ 1 := hstops.neg.trans (by decide) |>.ne
          have hquiet := along_clean_of_run halong hbody fun h ↦ absurd h hone
          exact .fail code t hstops.neg (hrun.trans hbody) hquiet
        · have hquiet := along_clean_of_run halong hbody fun _ ↦
            ⟨d, rfl, complete_of_denote hdenote⟩
          exact .term w d t hdenote hdelivers (hrun.trans hbody) hquiet
        · exact .overrun u (.bin htag hlong) (hrun.trans hbody) (along_clean_of_fault halong hbody)
      · obtain ⟨hn, hends'⟩ := hends.opened hopened
        have hbody := hopened.run_pullBody (bertDecoderPull depth : Decode F _)
        have halong := hopened.along_pullBody clean_onEvents (bertDecoderPull depth : Decode F _)
        rw [o.decode_eq_gather] at hbody halong
        have hfail {code : Code} {u : σ} (hcode : code < 0)
            (hgather : run R (o.gather (bertDecoderPull depth : Decode F _) []) t =
              .done (code, none) u)
            (hquiet : Along R clean (o.gather (bertDecoderPull depth : Decode F _) []) t) :
            Fate R (bertDecoderPull (depth + 1) : Decode F _) s := by
          have hone : code ≠ 1 := hcode.trans (by decide) |>.ne
          rw [hgather, Outcome.bind_done, pullResult_of_neg hcode] at hbody
          exact .fail code u hcode (hrun.trans hbody)
            (along_clean_of_run (halong.mpr hquiet) hbody fun h ↦ absurd h hone)
        rcases gather_fate (by omega) (fun v hv ↦ ih hv (by omega)) o [] t hends' with
          ⟨ws, ds, u, hws, hds, hwants, hlength, hgather, hquiet⟩ |
          ⟨code, u, hcode, hgather, hquiet⟩ |
          ⟨ws, ds, u, v, timePart, hws, hds, hwants, hoverruns, hgather, hquiet⟩ |
          ⟨ws, ds, u, timePart, hws, hds, hwants, htorn, hresult⟩
        · have hcomplete := complete_of_denoteList hds
          have hquiet' := hquiet (along_finish clean_onEvents o (not_nullOption hcomplete) u)
          have hlength' (announced : ℕ) (ho : o = .list announced) :
              ([] ++ ds).length = announced := hlength announced ho (Nat.zero_le _)
          rcases finish_cases o u hlength' with
            ⟨d, v, hcloses, hfinish⟩ | ⟨code, v, hcode, hfinish⟩ | ⟨-, hnull⟩
          · obtain ⟨w, hdenote, hdelivers⟩ := hopened.exists_wire hws hds hcloses
            rw [hgather, hfinish, Outcome.bind_done, pullResult_success] at hbody
            exact .term w d v hdenote hdelivers (hrun.trans hbody)
              (along_clean_of_run (halong.mpr hquiet') hbody
                fun _ ↦ ⟨d, rfl, complete_of_denote hdenote⟩)
          · exact hfail hcode (hgather.trans hfinish) hquiet'
          · exact absurd hnull (not_nullOption hcomplete)
        · exact hfail hcode hgather hquiet
        · rw [hgather, Outcome.bind_fault] at hbody
          exact .overrun v (.nested ⟨t, ws, hopened, hws, hds⟩ hwants hoverruns)
            (hrun.trans hbody) (along_clean_of_fault (halong.mpr hquiet) hbody)
        · have hwithin : Within R s o ds u := ⟨t, ws, hopened, hws, hds⟩
          refine .torn ?_ fun hclean ↦ ?_
          · rcases htorn with hempty | htorn | ⟨rfl, hfits, hnone⟩
            · exact .missing hwithin hwants hempty
            · exact .nested hwithin hwants htorn
            · exact .time hwithin hwants hnone hfits
          · obtain ⟨hbody', hleave⟩ := (along_clean_succ depth s).mp hclean
            obtain ⟨v, hgather⟩ := hresult (halong.mp hbody')
            rw [hgather] at hbody
            obtain ⟨d, hd, -⟩ := hleave 1 none v hbody rfl
            cases hd

/-! ## Torn input is not decoded cleanly -/

/-- A clean pull is clean behind the elements of a container, and the container
does not return 0 without a term. -/
theorem Within.clean_gather {timePart : Bool} (h : Within R s o ds u) (hends : Ends R n s)
    (hdepth : n < depth + 1) (hwants : o.wants ds = some timePart)
    (hclean : Along R clean (bertDecoderPull (depth + 1) : Decode F _) s) :
    Along R clean (o.gather (bertDecoderPull depth) ds) u ∧
      ∀ v, run R (o.gather (bertDecoderPull depth) ds) u ≠ .done (0, none) v := by
  obtain ⟨t, ws, hopened, hws, hds⟩ := h
  obtain ⟨hn, hends'⟩ := hends.opened hopened
  have hyields := hends'.yields_of_delivers (show n - 2 < depth by omega) hds hws
  obtain ⟨hbody, hleave⟩ := (along_clean_succ depth s).mp hclean
  rw [hopened.along_pullBody clean_onEvents, o.decode_eq_gather] at hbody
  refine ⟨Opening.along_gather_of_yields hyields hwants hbody, fun v hrun ↦ ?_⟩
  have hgather : run R (o.gather (bertDecoderPull depth) []) t =
      run R (o.gather (bertDecoderPull depth) ds) u := Opening.run_gather_of_yields hyields hwants
  rw [hrun] at hgather
  have hpull := hopened.run_pullBody (bertDecoderPull depth : Decode F _)
  rw [o.decode_eq_gather, hgather] at hpull
  obtain ⟨d, hd, -⟩ := hleave 1 none v hpull rfl
  cases hd

theorem run_bertDecoderPull_of_empty (depth : ℕ) (hempty : (R.read u 1).1 = bertErrnoEmpty) :
    ∃ v, run R (bertDecoderPull (depth + 1) : Decode F _) u = .done (0, none) v := by
  refine ⟨(R.read u 1).2, ?_⟩
  rw [run_bertDecoderPull_succ, pullBody, run_read, hempty]
  rfl

theorem Torn.not_clean (h : Torn F R s) (hends : Ends R n s) (hdepth : n < depth) :
    ¬ Along R clean (bertDecoderPull depth : Decode F _) s := by
  obtain ⟨depth, rfl⟩ : ∃ k, depth = k + 1 := ⟨depth - 1, by omega⟩
  induction h generalizing n depth with
  | @missing s u o ds timePart hwithin hwants hempty =>
      intro hclean
      obtain ⟨hn, hends'⟩ := hwithin.ends hends
      obtain ⟨hgather, hresult⟩ := hwithin.clean_gather hends hdepth hwants hclean
      obtain ⟨depth, rfl⟩ : ∃ k, depth = k + 1 := ⟨depth - 1, by omega⟩
      obtain ⟨v, hrun⟩ := run_bertDecoderPull_of_empty (F := F) depth hempty
      rw [Opening.gather_of_wants hwants, along_pullElement_none (by decide) hrun] at hgather
      cases timePart with
      | true => exact hgather.2 rfl
      | false =>
          apply hresult v
          rw [Opening.gather_of_wants hwants, run_pullElement_none (by decide) hrun]
          rfl
  | @nested s u o ds timePart hwithin hwants htorn ih =>
      intro hclean
      obtain ⟨hn, hends'⟩ := hwithin.ends hends
      obtain ⟨hgather, -⟩ := hwithin.clean_gather hends hdepth hwants hclean
      rw [Opening.gather_of_wants hwants] at hgather
      obtain ⟨depth, rfl⟩ : ∃ k, depth = k + 1 := ⟨depth - 1, by omega⟩
      exact ih hends' depth (by omega) (along_of_along_pullElement hgather)
  | @time s u o ds hwithin hwants hnone hfits =>
      intro hclean
      obtain ⟨hn, hends'⟩ := hwithin.ends hends
      obtain ⟨hgather, -⟩ := hwithin.clean_gather hends hdepth hwants hclean
      rw [Opening.gather_of_wants hwants] at hgather
      have hstuck {code : Code} {v : σ} (hcode : code ≠ 1)
          (hrun : run R (bertDecoderPull depth : Decode F _) u = .done (code, none) v) : False :=
        ((along_pullElement_none hcode hrun).mp hgather).2 rfl
      rcases pull_fate (F := F) hends' (show n - 2 < depth by omega) with
        ⟨v, -, hrun, -⟩ | ⟨code, v, hcode, hrun, -⟩ | ⟨w, d, v, hdenote, hdelivers, -, -⟩ |
        ⟨v, hoverruns, -, -⟩ | ⟨-, hdirty⟩
      · exact hstuck (by decide) hrun
      · exact hstuck (hcode.trans (by decide)).ne hrun
      · exact hnone w v d hdenote hdelivers
      · exact hfits hoverruns
      · exact hdirty (along_of_along_pullElement hgather)

/-- With depth for all that is still delivered, the run of a pull uses no
unassigned result and returns no incomplete term exactly when its input is not
torn. -/
theorem along_clean_iff (hends : Ends R n s) (hdepth : n < depth) :
    Along R clean (bertDecoderPull depth : Decode F _) s ↔ ¬ Torn F R s := by
  constructor
  · exact fun hclean htorn ↦ htorn.not_clean hends hdepth hclean
  · intro htorn
    rcases pull_fate (F := F) hends hdepth with
      ⟨-, -, -, halong⟩ | ⟨-, -, -, -, halong⟩ | ⟨-, -, -, -, -, -, halong⟩ |
      ⟨-, -, -, halong⟩ | ⟨htorn', -⟩
    · exact halong
    · exact halong
    · exact halong
    · exact halong
    · exact absurd htorn' htorn

end Fate

/-! ## Over the window -/

/-- A decoder delivers no more than what is unread and what its source holds. -/
theorem Feeding.Refines.ends {ρ : Type} {feeding : Feeding ρ} {total avail : ℕ} {d : Decoder ρ}
    {rest : List UInt8} (h : feeding.Refines total avail d rest) :
    Ends windowReader rest.length d := by
  intro chunks t hdelivers
  obtain ⟨rest', rfl, -⟩ := h.delivers hdelivers
  rw [List.length_append]
  exact Nat.le_add_right _ _

/-- From every state of the decoder, whatever its source answers while it ends
somewhere, a pull uses only assigned results and returns only complete terms
exactly when its input is not torn. -/
theorem results_assigned_iff {ρ : Type} {d : Decoder ρ} {n depth : ℕ}
    (hends : Ends windowReader n d) (hdepth : n < depth) :
    Along windowReader clean (bertDecoderPull depth : Decode F _) d ↔ ¬ Torn F windowReader d :=
  along_clean_iff hends hdepth

theorem results_assigned_iff_fresh :
    Along windowReader clean (bertDecoderPull 8 : Decode Empty _)
        (freshDecoder false PlainSource.ofList.toSource [104, 2, 97, 5, 104, 0]) ↔
      ¬ Torn Empty windowReader
        (freshDecoder false PlainSource.ofList.toSource [104, 2, 97, 5, 104, 0]) :=
  results_assigned_iff (refines_fresh false PlainSource.ofList.toSlicedSource _).ends (by decide)

/-- The header of a tuple of one element with nothing behind it is answered with
1 and no term. -/
theorem one_without_term :
    ¬ ∀ (d : Decoder (List UInt8)) (n depth : ℕ), Ends windowReader n d → n < depth →
      Along windowReader clean (bertDecoderPull depth : Decode Empty _) d := by
  intro h
  have hends := (refines_fresh false PlainSource.ofList.toSlicedSource [bertSmallTuple, 1]).ends
  have hclean := (along_clean_succ _ _).mp (h _ 2 3 hends (by decide))
  obtain ⟨d, hd, -⟩ := hclean.2 1 none _ rfl rfl
  cases hd

end LibBert
