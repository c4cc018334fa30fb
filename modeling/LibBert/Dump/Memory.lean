import LibBert.Dump.Blocks
import LibBert.Dump.Dump
import LibBert.Memory.Losses

/-!
# Dumping a file with the memory it takes

`bert_dump` destroys each term behind its line.  What a dump leaves allocated are its
decoder, which is never destroyed, and the sources of the regular expressions.  It prints
what the dump without memory prints, but for times made of a container's pointer.
-/

namespace LibBert.Managed

open Reading Storing
open Owned (blocksSlot sources)

variable {F σ : Type} [Printf F]

/-! ## The loop of `bert_dump` -/

/-- What a round does behind its pull. -/
def dumpRound (strerror : List UInt8) (next : Print F) (result : Code)
    (data : Option (Owned F)) : Print F := fun console ↦
  if result = 1 then do
    let nextData ← assigned data
    let (_, console) ← bertPrint nextData console
    bertDataDestroy nextData
    next (console.print (cString "\n"))
  else Print.plain (dumpEnd strerror result) console

/-- At most `fuel` rounds of `while (1)`. -/
def dumpLoop (pull : Managed F (Result F)) (strerror : List UInt8) : ℕ → Print F
  | 0 => fun _ ↦ timeout
  | fuel + 1 => fun console ↦ do
      let (result, data) ← pull
      dumpRound strerror (dumpLoop pull strerror fuel) result data console

/-- `sizeof(bert_decoder_t)`, with a window of 512 bytes. -/
def sizeofDecoder : ℕ := 568

/-- `bert_dump`, which returns without destroying its decoder. -/
def bertDump [Platform F] (strerror : List UInt8) (depth fuel : ℕ) : Print F := fun console ↦ do
  match ← malloc sizeofDecoder with
  | none => return (-1, console.complain (complaint (cString "malloc failed")))
  | some decoder => do
      let result ← dumpLoop (bertDecoderPull depth) strerror fuel console
      abandon {decoder}
      return result

/-! ## One round -/

section Round

variable {R : BertReader σ} {h : Heap} {used : Multiset Block} {strerror : List UInt8} {t : σ}

theorem dumpRound_of_term (next : Print F) (d : Owned F) (console : Console) :
    dumpRound strerror next 1 (some d) console h = bertPrint d console h >>= fun r ↦
      bertDataDestroy d r.2 >>= fun r' ↦ next (r.1.2.print (cString "\n")) r'.2 := rfl

/-- A term that is destroyed behind its line leaves its sources. -/
theorem exists_dumpRound (d : Owned F) (hd : Printable d.erase) (hu : h.Uses (d.blocks + used)) :
    ∃ events h', (∀ event, .mark event ∉ events) ∧ h'.Uses used ∧
      h'.abandoned = sources d + h.abandoned ∧ ∀ strerror next console,
        dumpRound strerror next 1 (some d) console h =
          (next (console.print (termText d.erase ++ cString "\n")) h').emitting events := by
  obtain ⟨events, h', hdestroy, hunmarked, huses, habandoned⟩ := exists_destroying d hu
  refine ⟨events, h', hunmarked, huses, habandoned, fun strerror next console ↦ ?_⟩
  have hprint : bertPrint d console h =
      .ret ((0, console.print (termText d.erase)), h) := by
    rw [reads_print d (le_of_uses hu), Print.program_of_done (bertPrint_of_printable _ hd console)]
    rfl
  rw [dumpRound_of_term, hprint]
  change bertDataDestroy d h >>= _ = _
  rw [hdestroy, bind_emitting, Console.print_print]
  rfl

omit [Printf F] in
/-- The switch always ends the dump with a code. -/
theorem exists_dumpEnd (strerror : List UInt8) (code : Code) (console : Console) :
    ∃ result console', dumpEnd strerror code console = .done result console' := by
  obtain ⟨text, htext⟩ := exists_bertStrerror strerror code
  rw [dumpEnd, htext]
  split_ifs
  · exact ⟨_, _, rfl⟩
  · exact ⟨_, _, rfl⟩

theorem dumpRound_of_end {code result : Code} {data : Option (Owned F)}
    {console console' : Console} (hcode : code ≠ 1) (next : Print F)
    (hend : dumpEnd strerror code console = .done result console') :
    dumpRound strerror next code data console h = .ret ((result, console'), h) := by
  rw [dumpRound, if_neg hcode, Print.reads_plain, Print.program_of_done hend]
  rfl

end Round

/-! ## All rounds -/

variable [Platform F]

/-- A pull that ends a dump: it returns a code that is not 1, it was refused memory and
returns `BERT_ERRNO_MALLOC` if anything, or it writes a text past its block. -/
inductive Last (F : Type) [Platform F] (R : BertReader σ) (depth : ℕ) (used : Multiset Block)
    (h : Heap) (s : σ) : Prop
  | ended (code : Code) (h' : Heap) (t : σ) (hcode : code ≤ 0)
      (hrun : run R ((bertDecoderPull depth : Managed F _) h) s = .done ((code, none), h') t)
      (hplain : run R (LibBert.bertDecoderPull depth : Decode F _) s = .done (code, none) t)
      (huses : h'.Uses used) (hkept : code = 0 → h' = h)
  | refused (hrefused : .refused ∈ trace R ((bertDecoderPull depth : Managed F _) h) s) (t : σ)
      (hrun : (∃ h', run R ((bertDecoderPull depth : Managed F _) h) s =
          .done ((bertErrnoMalloc, none), h') t ∧ h'.Uses used) ∨
        run R ((bertDecoderPull depth : Managed F _) h) s = .stuck t)
  | overran (block : Block) (length : ℕ) (hlength : 2 ^ 32 - 1 ≤ length) (t : σ)
      (hoverrun : .overrun block length ∈ trace R ((bertDecoderPull depth : Managed F _) h) s)
      (hrun : run R ((bertDecoderPull depth : Managed F _) h) s = .fault t)

/-- Rounds of a dump: each term is pulled, printed and destroyed, and leaves its sources. -/
inductive Rounds (R : BertReader σ) (depth : ℕ) : Heap → σ → List (Owned F) → Heap → σ → Prop
  | nil (h : Heap) (s : σ) : Rounds R depth h s [] h s
  | cons {h h₁ h₂ h' : Heap} {s t u : σ} {d : Owned F} {ds : List (Owned F)}
      {events : List (HeapEvent (Event F))}
      (hrun : run R (bertDecoderPull depth h) s = .done ((1, some d), h₁) t)
      (hplain : run R (LibBert.bertDecoderPull depth) s = .done (1, some d.erase) t)
      (hclean : ∀ event, .mark event ∈ trace R ((bertDecoderPull depth : Managed F _) h) s →
        event.Clean)
      (hprintable : Printable d.erase)
      (hround : ∀ strerror next console, dumpRound strerror next 1 (some d) console h₁ =
        (next (console.print (termText d.erase ++ cString "\n")) h₂).emitting events)
      (hunmarked : ∀ event, .mark event ∉ events)
      (habandoned : h₂.abandoned = sources d + h₁.abandoned)
      (hrest : Rounds R depth h₂ t ds h' u) : Rounds R depth h s (d :: ds) h' u

section Rounds

variable {R : BertReader σ} {s t u : σ} {h h₁ h₂ h' : Heap} {n depth fuel : ℕ}
  {used : Multiset Block} {strerror : List UInt8}

omit [Printf F] in
/-- Where nothing is left the heap is not used. -/
theorem exists_run_of_empty (hread : (R.read s 1).1 = bertErrnoEmpty) (depth : ℕ) :
    ∃ t, run R ((bertDecoderPull (depth + 1) : Managed F _) h) s = .done ((0, none), h) t := by
  have hbody : run R ((pullBody (bertDecoderPull depth) : Managed F _) h) s =
      .done ((0, none), h) (R.read s 1).2 := by
    have hlift : run R ((lift (.read 1 .ret) : Managed F Code) h) s =
        .done ((R.read s 1).1, h) (R.read s 1).2 := rfl
    rw [pullBody, bind_apply, run_bind, hlift, Outcome.bind_done, hread]
    rfl
  refine ⟨(R.read s 1).2, ?_⟩
  rw [bertDecoderPull, bind_apply, mark]
  change run R ((pullBody (bertDecoderPull depth) : Managed F _) h >>= _) s = _
  rw [run_bind, hbody]
  rfl

omit [Printf F] in
/-- Where the pull with its memory ends like the one without, it stores the same term. -/
theorem exists_run_of_plain
    (hagree : Outcome.Agree (fun (r : Result F × Heap) c ↦ Same r.1 c)
      (run R (bertDecoderPull depth h) s) (run R (LibBert.bertDecoderPull depth) s)) {code : Code}
    {data : Option (Data F)}
    (hplain : run R (LibBert.bertDecoderPull depth) s = .done (code, data) t) :
    ∃ data' h', run R (bertDecoderPull depth h) s = .done ((code, data'), h') t ∧
      Owned.eraseSlot data' = data := by
  rw [hplain] at hagree
  obtain ⟨⟨⟨code', data'⟩, h'⟩, hrun, hsame⟩ := hagree.exists_left
  obtain ⟨rfl, rfl⟩ := Prod.mk.inj hsame
  exact ⟨data', h', hrun, rfl⟩

omit [Printf F] in
/-- A pull of input that is not torn stores a term with its blocks, or it is the last. -/
theorem pulled_or_last (hends : Ends R n s) (hdepth : n < depth) (hwhole : ¬ Torn F R s)
    (hu : h.Uses used) :
    (∃ (w : Wire) (d : Owned F) (h₁ : Heap) (t : σ), w.denote = some d.erase ∧
        Delivers R s w.chunks t ∧
        run R (bertDecoderPull depth h) s = .done ((1, some d), h₁) t ∧
        run R (LibBert.bertDecoderPull depth) s = .done (1, some d.erase) t ∧
        h₁.Uses (d.blocks + used)) ∨
      Last F R depth used h s := by
  have huses {result : Code} {data : Option (Owned F)} {h' : Heap} {t : σ}
      (hrun : run R (bertDecoderPull depth h) s = .done ((result, data), h') t) :
      h'.Uses (blocksSlot data + used) :=
    (settled_of_untorn hends hdepth hwhole hu hrun).1.uses
  have hnothing : blocksSlot (none : Option (Owned F)) + used = used := zero_add used
  have hoverran {t : σ} (hfault : run R ((bertDecoderPull depth : Managed F _) h) s = .fault t) :
      Last F R depth used h s := by
    obtain ⟨block, length, hlength, hmem⟩ := exists_overrun_of_fault hends hdepth hwhole hu hfault
    exact .overran block length hlength t hmem hfault
  by_cases hrefused : .refused ∈ trace R ((bertDecoderPull depth : Managed F _) h) s
  · right
    have hvalid (b : Block) :
        .invalid b ∉ trace R ((bertDecoderPull depth : Managed F _) h) s :=
      fun hmem ↦ legal_of_untorn hends hdepth hwhole hu hmem
    obtain ⟨t, ⟨⟨r, h'⟩, hrun, hr⟩ | hstuck⟩ :=
      (refines_pull (F := F) depth h).run_of_refused R s hrefused hvalid
    · obtain rfl : r = (bertErrnoMalloc, none) := hr
      exact .refused hrefused t (.inl ⟨h', hrun, hnothing ▸ huses hrun⟩)
    · exact .refused hrefused t (.inr hstuck)
  · rcases (refines_pull (F := F) depth h).run R s hrefused with ⟨t, hfault⟩ | hagree
    · exact .inr (hoverran hfault)
    rcases pull_fate (F := F) hends hdepth with
      ⟨t, hread, hplain, -⟩ | ⟨code, t, hcode, hplain, -⟩ |
      ⟨w, d, t, hdenote, hdelivers, hplain, -⟩ | ⟨t, -, hplain, -⟩ | ⟨htorn, -⟩
    · right
      obtain ⟨depth, rfl⟩ : ∃ k, depth = k + 1 := ⟨depth - 1, by omega⟩
      obtain ⟨_, _, hrun, -⟩ := exists_run_of_plain hagree hplain
      obtain ⟨t', hempty⟩ := exists_run_of_empty (F := F) (h := h) hread depth
      rw [hempty] at hrun
      cases hrun
      exact .ended 0 h t le_rfl hempty hplain hu fun _ ↦ rfl
    · right
      obtain ⟨data, h', hrun, hdata⟩ := exists_run_of_plain hagree hplain
      cases data with
      | some d => cases hdata
      | none =>
          have hzero : code ≠ 0 := hcode.ne
          exact .ended code h' t hcode.le hrun hplain (hnothing ▸ huses hrun) fun h ↦ absurd h hzero
    · left
      obtain ⟨data, h', hrun, hdata⟩ := exists_run_of_plain hagree hplain
      cases data with
      | none => cases hdata
      | some d' =>
          obtain rfl := Option.some_inj.mp hdata
          exact ⟨w, d', h', t, hdenote, hdelivers, hrun, hplain, huses hrun⟩
    · rw [hplain] at hagree
      exact .inr (hoverran hagree.eq_fault)
    · exact absurd htorn hwhole

omit [Platform F] in
theorem dumpLoop_succ (pull : Managed F (Result F)) (fuel : ℕ) (console : Console) :
    dumpLoop pull strerror (fuel + 1) console h = pull h >>= fun r ↦
      dumpRound strerror (dumpLoop pull strerror fuel) r.1.1 r.1.2 console r.2 := rfl

/-- While bytes are left that are not torn a dump goes on, up to its last pull. -/
theorem exists_rounds (hends : Ends R n s) (hdepth : n < depth) (hfuel : n < fuel)
    (hclean : AlongRuns R clean (LibBert.bertDecoderPull depth : Decode F _) fuel s)
    (hu : h.Uses used) :
    ∃ (ds : List (Owned F)) (rest : ℕ) (h' : Heap) (u : σ), fuel = ds.length + (rest + 1) ∧
      Rounds R depth h s ds h' u ∧
      (∀ event, .mark event ∈ trace R ((bertDecoderPull depth : Managed F _) h') u →
        event.Clean) ∧
      Last F R depth used h' u := by
  induction fuel generalizing n h s with
  | zero => omega
  | succ fuel ih =>
      have hwhole : ¬ Torn F R s := (along_clean_iff hends hdepth).mp hclean.1
      have hmarks : ∀ event, .mark event ∈ trace R ((bertDecoderPull depth : Managed F _) h) s →
          event.Clean := fun _ ↦ clean_of_untorn hends hdepth hwhole
      rcases pulled_or_last hends hdepth hwhole hu with
        ⟨w, d, h₁, t, hdenote, hdelivers, hrun, hplain, huses⟩ | hlast
      · obtain ⟨hbytes, hw, hleft⟩ := hends.behind hdelivers
        obtain ⟨events, h₂, hunmarked, huses₂, habandoned, hround⟩ :=
          exists_dumpRound d (printable_of_denote hdenote) huses
        obtain ⟨ds, rest, h', u, hlength, hrounds, hlast⟩ :=
          ih hleft (by omega) (by omega) (hclean.2 _ _ hplain) huses₂
        exact ⟨d :: ds, rest, h', u, by rw [List.length_cons]; omega,
          .cons hrun hplain hmarks (printable_of_denote hdenote) hround hunmarked habandoned
            hrounds, hlast⟩
      · exact ⟨[], fuel, h, s, (Nat.zero_add _).symm, .nil h s, hmarks, hlast⟩

variable {ds : List (Owned F)}

theorem Rounds.yields (hrounds : Rounds R depth h s ds h' u) :
    Yields R (LibBert.bertDecoderPull depth) s (ds.map Owned.erase) u := by
  induction hrounds with
  | nil h s => exact .nil s
  | cons _ hplain _ _ _ _ _ _ ih => exact .cons hplain ih

theorem Rounds.printable (hrounds : Rounds R depth h s ds h' u) :
    ∀ d ∈ ds.map Owned.erase, Printable d := by
  induction hrounds with
  | nil h s => exact fun _ hd ↦ (List.not_mem_nil hd).elim
  | cons _ _ _ hprintable _ _ _ _ ih => exact List.forall_mem_cons.mpr ⟨hprintable, ih⟩

/-- Over the rounds the lines of the terms are printed. -/
theorem Rounds.run (hrounds : Rounds R depth h s ds h' u) (fuel : ℕ) (console : Console) :
    Reading.run R (dumpLoop (bertDecoderPull depth : Managed F _) strerror (ds.length + fuel)
        console h) s =
      Reading.run R (dumpLoop (bertDecoderPull depth : Managed F _) strerror fuel
        (console.print (lines (ds.map Owned.erase))) h') u := by
  induction hrounds generalizing console with
  | nil h s => simp
  | cons hrun _ _ _ hround _ _ _ ih =>
      rw [List.length_cons, Nat.add_right_comm, dumpLoop_succ, run_bind, hrun, Outcome.bind_done,
        hround, run_emitting, ih, List.map_cons, lines_cons, Console.print_print, List.append_assoc]

/-- What happens behind the rounds happens in the dump. -/
theorem Rounds.mem_trace (hrounds : Rounds R depth h s ds h' u) (fuel : ℕ) (console : Console)
    {event : HeapEvent (Event F)} (hmem : event ∈ trace R
      (dumpLoop (bertDecoderPull depth : Managed F _) strerror fuel
        (console.print (lines (ds.map Owned.erase))) h') u) :
    event ∈ trace R
      (dumpLoop (bertDecoderPull depth : Managed F _) strerror (ds.length + fuel) console h) s := by
  induction hrounds generalizing console with
  | nil h s => simpa using hmem
  | cons hrun _ _ _ hround _ _ _ ih =>
      rw [List.length_cons, Nat.add_right_comm, dumpLoop_succ, mem_trace_bind]
      refine .inr ⟨_, _, hrun, ?_⟩
      rw [hround, trace_emitting]
      refine List.mem_append_right _ (ih _ ?_)
      rwa [List.map_cons, lines_cons, ← List.append_assoc, ← Console.print_print] at hmem

/-- The marks of the rounds are clean. -/
theorem Rounds.clean (hrounds : Rounds R depth h s ds h' u) (fuel : ℕ) (console : Console)
    {event : Event F} (hmem : .mark event ∈ trace R
      (dumpLoop (bertDecoderPull depth : Managed F _) strerror (ds.length + fuel) console h) s) :
    event.Clean ∨ ∃ console', .mark event ∈ trace R
      (dumpLoop (bertDecoderPull depth : Managed F _) strerror fuel console' h') u := by
  induction hrounds generalizing console with
  | nil h s =>
      rw [List.length_nil, Nat.zero_add] at hmem
      exact .inr ⟨console, hmem⟩
  | cons hrun _ hclean _ hround hunmarked _ _ ih =>
      rw [List.length_cons, Nat.add_right_comm, dumpLoop_succ, mem_trace_bind] at hmem
      rcases hmem with hmem | ⟨r, t, hrun', hmem⟩
      · exact .inl (hclean _ hmem)
      · rw [hrun] at hrun'
        cases hrun'
        rw [hround, trace_emitting, List.mem_append] at hmem
        exact ih _ (hmem.resolve_left (hunmarked _))

/-- Rounds that lose nothing abandon the sources of their terms. -/
theorem Rounds.abandoned {plain : Prop} (hrounds : Rounds R depth h s ds h' u) (fuel : ℕ)
    (console : Console) (hparts : ∀ code data, .mark (.leave code (some data)) ∈ trace R
      (dumpLoop (bertDecoderPull depth : Managed F _) strerror (ds.length + fuel) console h) s →
        ¬ data.Lossy plain) :
    h'.abandoned = (ds.map sources).sum + h.abandoned := by
  induction hrounds generalizing console with
  | nil h s => exact (zero_add _).symm
  | @cons h h₁ h₂ h' s t u d ds events hrun _ hclean _ hround _ habandoned _ ih =>
      have hkept : h₁.abandoned = h.abandoned := by
        refine kept_of_clean hclean (fun code data hmem ↦ hparts code data ?_) hrun
        rw [List.length_cons, Nat.add_right_comm, dumpLoop_succ, mem_trace_bind]
        exact .inl hmem
      have hrest := ih _ fun code data hmem ↦ hparts code data <| by
        rw [List.length_cons, Nat.add_right_comm, dumpLoop_succ, mem_trace_bind]
        refine .inr ⟨_, _, hrun, ?_⟩
        rw [hround, trace_emitting]
        exact List.mem_append_right _ hmem
      rw [hrest, habandoned, hkept, List.map_cons, List.sum_cons]
      abel

/-- The marks of the last round are clean. -/
theorem Last.clean (hlast : Last F R depth used h s)
    (hclean : ∀ event, .mark event ∈ trace R ((bertDecoderPull depth : Managed F _) h) s →
      event.Clean) (fuel : ℕ) (console : Console) {event : Event F}
    (hmem : .mark event ∈ trace R
      (dumpLoop (bertDecoderPull depth : Managed F _) strerror (fuel + 1) console h) s) :
    event.Clean := by
  rw [dumpLoop_succ, mem_trace_bind] at hmem
  rcases hmem with hmem | ⟨r, t, hrun, hmem⟩
  · exact hclean _ hmem
  · obtain ⟨code, h', hcode, rfl⟩ : ∃ code h', code ≠ 1 ∧ r = ((code, none), h') := by
      cases hlast with
      | ended code h' t' hcode hrun' =>
          rw [hrun'] at hrun
          cases hrun
          exact ⟨code, h', (hcode.trans_lt (by decide)).ne, rfl⟩
      | refused _ t' hrun' =>
          obtain ⟨h', hrun', -⟩ | hstuck := hrun'
          · rw [hrun'] at hrun
            cases hrun
            exact ⟨_, h', by decide, rfl⟩
          · rw [hstuck] at hrun
            cases hrun
      | overran _ _ _ _ _ hfault =>
          rw [hfault] at hrun
          cases hrun
    obtain ⟨result, console', hend⟩ := exists_dumpEnd strerror code console
    rw [dumpRound_of_end hcode _ hend] at hmem
    cases hmem

end Rounds

/-! ## What a dump does to the heap -/

section Accounts

variable {strict : Prop} {lost used : Multiset Block} {h : Heap} {strerror : List UInt8}

omit [Platform F] in
theorem meets_dumpRound {next : Print F} {result : Code} {data : Option (Owned F)}
    (ha : h.Accounts strict lost (blocksSlot data + used)) (hdata : data ≠ none → result = 1)
    (hnext : ∀ console h, h.Accounts strict lost used →
      Meets (heapContract strict) (fun r ↦ r.2.Accounts strict lost used) (next console h))
    (console : Console) :
    Meets (heapContract strict) (fun r ↦ r.2.Accounts strict lost used)
      (dumpRound strerror next result data console h) := by
  by_cases hresult : result = 1
  · subst hresult
    cases data with
    | none => trivial
    | some d =>
        have hprint : Meets (heapContract strict)
            (fun r ↦ r.2.Accounts strict lost (d.blocks + used)) (bertPrint d console h) := by
          rw [reads_print d (le_of_uses ha.uses), Print.program]
          cases LibBert.bertPrint d.erase console with
          | done result console' => exact ha
          | stuck _ => trivial
          | fault _ => trivial
          | timeout _ => trivial
        rw [dumpRound_of_term]
        exact hprint.bind fun r ha ↦ (meets_destroy d ha).bind fun _ ha ↦ hnext _ _ ha
  · obtain rfl : data = none := not_not.mp fun hsome ↦ hresult (hdata hsome)
    obtain ⟨code, console', hend⟩ := exists_dumpEnd strerror result console
    rw [dumpRound_of_end hresult next hend]
    exact ha.of_eq (zero_add _)

theorem meets_dumpLoop (depth fuel : ℕ) (console : Console) (ha : h.Accounts strict lost used) :
    Meets (heapContract strict) (fun r ↦ r.2.Accounts strict lost used)
      (dumpLoop (bertDecoderPull depth : Managed F _) strerror fuel console h) := by
  induction fuel generalizing console h with
  | zero => trivial
  | succ fuel ih =>
      rw [dumpLoop_succ]
      refine (keeps_pull strict lost depth used h ha).bind fun r hr ↦ ?_
      exact meets_dumpRound hr.1 hr.2 (fun console h ha ↦ ih console ha) console

/-- Where the decoder is granted, its block is abandoned at the end. -/
theorem bertDump_of_granted (hgrants : h.grants h.next = true) (depth fuel : ℕ)
    (console : Console) :
    (bertDump strerror depth fuel : Print F) console h =
      dumpLoop (bertDecoderPull depth) strerror fuel console (h.grant sizeofDecoder) >>= fun r ↦
        .emit (.abandoned {⟨h.next, sizeofDecoder⟩})
          (.ret (r.1, r.2.abandon {⟨h.next, sizeofDecoder⟩})) := by
  rw [bertDump, bind_apply, malloc, if_pos hgrants]
  rfl

theorem bertDump_of_refused (hgrants : h.grants h.next = false) (depth fuel : ℕ)
    (console : Console) :
    (bertDump strerror depth fuel : Print F) console h = .emit .refused
      (.ret ((-1, console.complain (complaint (cString "malloc failed"))), h.refuse)) := by
  rw [bertDump, bind_apply, malloc, if_neg (by simp [hgrants])]
  rfl

/-- What a dump allocated it has given back or abandoned where it returns. -/
theorem meets_dump (depth fuel : ℕ) (console : Console) (ha : h.Accounts False lost used) :
    Meets (heapContract False) (fun r ↦ r.2.Accounts False lost used)
      ((bertDump strerror depth fuel : Print F) console h) := by
  cases hgrants : h.grants h.next with
  | false =>
      rw [bertDump_of_refused hgrants]
      exact .inr ⟨trivial, ha.uses, ha.kept⟩
  | true =>
      rw [bertDump_of_granted hgrants]
      have hgranted : Heap.Accounts False lost ({⟨h.next, sizeofDecoder⟩} + used)
          (h.grant sizeofDecoder) := ⟨ha.uses.grant _, ha.kept⟩
      refine (meets_dumpLoop depth fuel console hgranted).bind fun r ha ↦ ?_
      exact .inr ⟨trivial, ha.uses.abandon, False.elim⟩

end Accounts

/-! ## A whole dump -/

/-- How a dump ends that was refused memory: it complains behind the lines of some terms,
or it uses a part of a time that was not assigned. -/
inductive RanOut (F : Type) [Platform F] [Printf F] (R : BertReader σ) (depth : ℕ)
    (used : Multiset Block) (s : σ) (console : Console) :
    Outcome σ ((Code × Console) × Heap) → Prop
  | complains {ds : List (Data F)} {u t : σ} {h : Heap}
      (hyields : Yields R (LibBert.bertDecoderPull depth) s ds u) (huses : h.Uses used) :
      RanOut F R depth used s console (.done ((-1, (console.print (lines ds)).complain
        (complaint (cString "malloc failed"))), h) t)
  | stuck (t : σ) : RanOut F R depth used s console (.stuck t)

section Whole

variable {R : BertReader σ} {s t : σ} {h h' : Heap} {n depth fuel : ℕ} {used : Multiset Block}
  {strerror : List UInt8} {console console' : Console}

theorem legal_of_mem_dump (hends : Ends R n s) (hdepth : n < depth) (hfuel : n < fuel)
    (hclean : AlongRuns R clean (LibBert.bertDecoderPull depth : Decode F _) fuel s)
    (hu : h.Uses used) {event : HeapEvent (Event F)}
    (hmem : event ∈ trace R ((bertDump strerror depth fuel : Print F) console h) s) :
    event.Legal (2 ^ 32 - 1) := by
  obtain ⟨front, back, htrace⟩ := List.append_of_mem hmem
  refine (legal_or_stale (meets_dump depth fuel console (accounts_of_uses False hu))
    htrace).resolve_right fun hstale ↦ ?_
  have hstale : .mark .stale ∈ trace R ((bertDump strerror depth fuel : Print F) console h) s :=
    htrace ▸ List.mem_append_left _ hstale
  cases hgrants : h.grants h.next with
  | false =>
      rw [bertDump_of_refused hgrants] at hstale
      simp at hstale
  | true =>
      rw [bertDump_of_granted hgrants, mem_trace_bind] at hstale
      rcases hstale with hstale | ⟨r, t, -, hstale⟩
      · obtain ⟨ds, rest, h', u, rfl, hrounds, hmarks, hlast⟩ :=
          exists_rounds hends hdepth hfuel hclean (hu.grant sizeofDecoder)
        rcases hrounds.clean (rest + 1) console hstale with hclean | ⟨console', hstale⟩
        · exact hclean
        · exact hlast.clean hmarks rest console' hstale
      · simp at hstale

/-- Behind its rounds the dump is what it makes of the last pull. -/
theorem Rounds.run_dump {ds : List (Owned F)} {u : σ}
    (hrounds : Rounds R depth (h.grant sizeofDecoder) s ds h' u)
    (hgrants : h.grants h.next = true) (rest : ℕ) :
    Reading.run R ((bertDump strerror depth (ds.length + (rest + 1)) : Print F) console h) s =
      ((Reading.run R ((bertDecoderPull depth : Managed F _) h') u).bind fun r t ↦
        Reading.run R (dumpRound strerror (dumpLoop (bertDecoderPull depth) strerror rest) r.1.1
          r.1.2 (console.print (lines (ds.map Owned.erase))) r.2) t).bind fun r t ↦
            .done (r.1, r.2.abandon {⟨h.next, sizeofDecoder⟩}) t := by
  rw [bertDump_of_granted hgrants, run_bind, hrounds.run, dumpLoop_succ, run_bind]
  rfl

/-- What happens in the last pull happens in the dump. -/
theorem Rounds.mem_trace_dump {ds : List (Owned F)} {u : σ} {event : HeapEvent (Event F)}
    (hrounds : Rounds R depth (h.grant sizeofDecoder) s ds h' u)
    (hgrants : h.grants h.next = true) (rest : ℕ)
    (hevent : event ∈ trace R ((bertDecoderPull depth : Managed F _) h') u) :
    event ∈ trace R ((bertDump strerror depth (ds.length + (rest + 1)) : Print F) console h)
      s := by
  rw [bertDump_of_granted hgrants, mem_trace_bind]
  refine .inl (hrounds.mem_trace (rest + 1) console ?_)
  rw [dumpLoop_succ, mem_trace_bind]
  exact .inl hevent

/-- How a dump ends over a file that is not torn: as the one without a heap, without
memory, or at a text that is written past its block. -/
inductive Dumped (F : Type) [Platform F] [Printf F] (R : BertReader σ) (depth fuel : ℕ)
    (strerror : List UInt8) (used : Multiset Block) (h : Heap) (s : σ) (console : Console) : Prop
  | whole {result : Code} {console' : Console} {h' : Heap} {t : σ}
      (hplain : LibBert.dumpLoop R (LibBert.bertDecoderPull depth : Decode F _) strerror fuel s
        console = .done result console')
      (hrun : run R ((bertDump strerror depth fuel : Print F) console h) s =
        .done ((result, console'), h') t) (huses : h'.Uses used)
  | ranOut (hrefused : .refused ∈ trace R ((bertDump strerror depth fuel : Print F) console h) s)
      (hout : RanOut F R depth used s console
        (run R ((bertDump strerror depth fuel : Print F) console h) s))
  | overran (block : Block) (length : ℕ) (hlength : 2 ^ 32 - 1 ≤ length) (t : σ)
      (hoverrun : .overrun block length ∈
        trace R ((bertDump strerror depth fuel : Print F) console h) s)
      (hrun : run R ((bertDump strerror depth fuel : Print F) console h) s = .fault t)

theorem dumped (hends : Ends R n s) (hdepth : n < depth) (hfuel : n < fuel)
    (hclean : AlongRuns R clean (LibBert.bertDecoderPull depth : Decode F _) fuel s)
    (hu : h.Uses used) : Dumped F R depth fuel strerror used h s console := by
  cases hgrants : h.grants h.next with
  | false =>
      refine .ranOut ?_ ?_
      · rw [bertDump_of_refused hgrants]
        exact List.mem_cons_self
      · have hout : RanOut F R depth used s console _ :=
          .complains (t := s) (h := h.refuse) (.nil s) hu
        rw [bertDump_of_refused hgrants]
        rwa [lines_nil, Console.print_nil] at hout
  | true =>
      obtain ⟨ds, rest, h', u, rfl, hrounds, -, hlast⟩ :=
        exists_rounds hends hdepth hfuel hclean (hu.grant sizeofDecoder)
      cases hlast with
      | ended code h'' t hcode hrun hplain huses =>
          have hone : code ≠ 1 := (hcode.trans_lt (by decide)).ne
          obtain ⟨result, console', hend⟩ := exists_dumpEnd strerror code
            (console.print (lines (ds.map Owned.erase)))
          have hdump : run R ((bertDump strerror depth (ds.length + (rest + 1)) : Print F)
              console h) s =
                .done ((result, console'), h''.abandon {⟨h.next, sizeofDecoder⟩}) t := by
            rw [hrounds.run_dump hgrants, hrun, Outcome.bind_done, dumpRound_of_end hone _ hend]
            rfl
          refine .whole ?_ hdump huses.abandon
          rw [← List.length_map Owned.erase, dumpLoop_of_yields hrounds.yields hrounds.printable,
            dumpLoop_of_end hplain hone, hend]
      | refused hrefused t hrun =>
          refine .ranOut (hrounds.mem_trace_dump hgrants rest hrefused) ?_
          rw [hrounds.run_dump hgrants]
          obtain ⟨h'', hrun, huses⟩ | hstuck := hrun
          · have hend : dumpEnd strerror bertErrnoMalloc
                (console.print (lines (ds.map Owned.erase))) = .done (-1)
                  ((console.print (lines (ds.map Owned.erase))).complain
                    (complaint (cString "malloc failed"))) := rfl
            rw [hrun, Outcome.bind_done, dumpRound_of_end (by decide) _ hend]
            exact .complains hrounds.yields huses.abandon
          · rw [hstuck]
            exact .stuck t
      | overran block length hlength t hoverrun hrun =>
          refine .overran block length hlength t (hrounds.mem_trace_dump hgrants rest hoverrun) ?_
          rw [hrounds.run_dump hgrants, hrun]
          rfl

/-- A dump of a file that is not torn uses only memory that is allocated, and frees no
block twice, whichever allocations fail; only a text of `2 ^ 32 - 1` bytes is written past
its block, which ends the dump in a fault.  It uses a pointer that was not assigned only
where an allocation fails. -/
theorem dump_memory_safe (hends : Ends R n s) (hdepth : n < depth) (hfuel : n < fuel)
    (hclean : AlongRuns R clean (LibBert.bertDecoderPull depth : Decode F _) fuel s)
    (hu : h.Uses used) :
    (∀ event ∈ trace R ((bertDump strerror depth fuel : Print F) console h) s,
      event.Legal (2 ^ 32 - 1)) ∧
    (∀ t, run R ((bertDump strerror depth fuel : Print F) console h) s = .fault t →
      ∃ block length, 2 ^ 32 - 1 ≤ length ∧
        .overrun block length ∈ trace R ((bertDump strerror depth fuel : Print F) console h) s) ∧
    ∀ t, run R ((bertDump strerror depth fuel : Print F) console h) s = .stuck t →
      .refused ∈ trace R ((bertDump strerror depth fuel : Print F) console h) s := by
  have hends' : Dumped F R depth fuel strerror used h s console :=
    dumped hends hdepth hfuel hclean hu
  refine ⟨fun event ↦ legal_of_mem_dump hends hdepth hfuel hclean hu, fun t hfault ↦ ?_,
    fun t hstuck ↦ ?_⟩
  · cases hends' with
    | whole _ hrun => cases hrun.symm.trans hfault
    | ranOut _ hout =>
        rw [hfault] at hout
        cases hout
    | overran block length hlength _ hoverrun => exact ⟨block, length, hlength, hoverrun⟩
  · cases hends' with
    | whole _ hrun => cases hrun.symm.trans hstuck
    | ranOut hrefused => exact hrefused
    | overran _ _ _ _ _ hrun => cases hrun.symm.trans hstuck

theorem trace_refused_pairStream :
    trace windowReader ((bertDump [] 6 6 : Print Empty) ⟨[], []⟩ (Heap.empty (· ≠ 5)))
      pairStream =
      [.mark .enter, .mark .enter, .mark (.leave 1 (some (.int 5))), .mark .enter, .refused,
        .mark (.leave bertErrnoMalloc none), .mark (.leave bertErrnoMalloc none),
        .abandoned {⟨0, sizeofDecoder⟩}] := rfl

/-- The allocation of the tuple's second element is refused. -/
theorem dump_memory_safe_pair :
    (trace windowReader ((bertDump [] 6 6 : Print Empty) ⟨[], []⟩ (Heap.empty (· ≠ 5)))
      pairStream).Forall (HeapEvent.Legal (2 ^ 32 - 1)) ∧
    .refused ∈ trace windowReader ((bertDump [] 6 6 : Print Empty) ⟨[], []⟩ (Heap.empty (· ≠ 5)))
      pairStream :=
  ⟨List.forall_iff_forall_mem.mpr (dump_memory_safe refines_pairStream.ends (by decide)
    (by decide) clean_pairStream (Heap.uses_empty _)).1,
    by rw [trace_refused_pairStream]; simp⟩

/-- Whichever allocations fail, a dump that returns has given back or abandoned what it
allocated, and it printed what the dump without a heap prints, unless it was refused
memory or wrote a text past its block. -/
theorem dump_in_memory (hends : Ends R n s) (hdepth : n < depth) (hfuel : n < fuel)
    (hclean : AlongRuns R clean (LibBert.bertDecoderPull depth : Decode F _) fuel s)
    (hu : h.Uses used) :
    (∃ result console' h' t,
      LibBert.dumpLoop R (LibBert.bertDecoderPull depth : Decode F _) strerror fuel s console =
        .done result console' ∧
      run R ((bertDump strerror depth fuel : Print F) console h) s =
        .done ((result, console'), h') t ∧ h'.Uses used) ∨
    (.refused ∈ trace R ((bertDump strerror depth fuel : Print F) console h) s ∧
      RanOut F R depth used s console
        (run R ((bertDump strerror depth fuel : Print F) console h) s)) ∨
    ∃ block length t, 2 ^ 32 - 1 ≤ length ∧
      .overrun block length ∈ trace R ((bertDump strerror depth fuel : Print F) console h) s ∧
      run R ((bertDump strerror depth fuel : Print F) console h) s = .fault t := by
  have hends' : Dumped F R depth fuel strerror used h s console :=
    dumped hends hdepth hfuel hclean hu
  cases hends' with
  | whole hplain hrun huses => exact .inl ⟨_, _, _, _, hplain, hrun, huses⟩
  | ranOut hrefused hout => exact .inr (.inl ⟨hrefused, hout⟩)
  | overran block length hlength t hoverrun hrun =>
      exact .inr (.inr ⟨block, length, t, hlength, hoverrun, hrun⟩)

/-- Without memory for the second element. -/
theorem dump_in_memory_pair :
    (∃ result console' h' t,
      LibBert.dumpLoop windowReader (LibBert.bertDecoderPull 6 : Decode Empty _) [] 6 pairStream
        ⟨[], []⟩ = .done result console' ∧
      run windowReader ((bertDump [] 6 6 : Print Empty) ⟨[], []⟩ (Heap.empty (· ≠ 5))) pairStream =
        .done ((result, console'), h') t ∧ h'.Uses 0) ∨
    (.refused ∈ trace windowReader
        ((bertDump [] 6 6 : Print Empty) ⟨[], []⟩ (Heap.empty (· ≠ 5))) pairStream ∧
      RanOut Empty windowReader 6 0 pairStream ⟨[], []⟩ (run windowReader
        ((bertDump [] 6 6 : Print Empty) ⟨[], []⟩ (Heap.empty (· ≠ 5))) pairStream)) ∨
    ∃ block length t, 2 ^ 32 - 1 ≤ length ∧
      .overrun block length ∈ trace windowReader
        ((bertDump [] 6 6 : Print Empty) ⟨[], []⟩ (Heap.empty (· ≠ 5))) pairStream ∧
      run windowReader ((bertDump [] 6 6 : Print Empty) ⟨[], []⟩ (Heap.empty (· ≠ 5))) pairStream =
        .fault t :=
  dump_in_memory refines_pairStream.ends (by decide) (by decide) clean_pairStream
    (Heap.uses_empty _)

theorem eq_zero_of_dumpEnd {code : Code}
    (hend : dumpEnd strerror code console = .done 0 console') : code = 0 ∧ console' = console := by
  rw [dumpEnd] at hend
  split_ifs at hend with hcode
  · cases hend
    exact ⟨hcode, rfl⟩
  · split at hend <;> cases hend

/-- While no time is pulled, or no regular expression, a dump that returns 0 leaves the
block of its decoder allocated and one block for each regular expression in its terms. -/
theorem dump_leaks_sources (hends : Ends R n s) (hdepth : n < depth) (hfuel : n < fuel)
    (hclean : AlongRuns R clean (LibBert.bertDecoderPull depth : Decode F _) fuel s)
    (hu : h.Uses used)
    (hparts : (∀ code time, .mark (.leave code (some (.time time))) ∉ trace R
        ((bertDump strerror depth fuel : Print F) console h) s) ∨
      ∀ code source options, .mark (.leave code (some (.regex source options))) ∉ trace R
        ((bertDump strerror depth fuel : Print F) console h) s)
    (hrun : run R ((bertDump strerror depth fuel : Print F) console h) s =
      .done ((0, console'), h') t) :
    ∃ (ds : List (Data F)) (lost : Multiset Block),
      Ended R (LibBert.bertDecoderPull depth) s ds 0 ∧ console' = console.print (lines ds) ∧
      h'.live = ⟨h.next, sizeofDecoder⟩ ::ₘ (h.live + lost) ∧
      lost.card = (ds.map regexes).sum := by
  obtain ⟨plain, hparts⟩ := exists_not_lossy hparts
  cases hgrants : h.grants h.next with
  | false =>
      rw [bertDump_of_refused hgrants] at hrun
      cases hrun
  | true =>
      obtain ⟨ds, rest, h₁, u, rfl, hrounds, -, hlast⟩ :=
        exists_rounds hends hdepth hfuel hclean (hu.grant sizeofDecoder)
      have habandoned := hrounds.abandoned (rest + 1) console fun code data hmem ↦
        hparts code data <| by
          rw [bertDump_of_granted hgrants, mem_trace_bind]
          exact .inl hmem
      rw [hrounds.run_dump hgrants] at hrun
      cases hlast with
      | ended code h₂ t' hcode hpull hplain huses hkept =>
          obtain ⟨result, console'', hend⟩ := exists_dumpEnd strerror code
            (console.print (lines (ds.map Owned.erase)))
          rw [hpull, Outcome.bind_done,
            dumpRound_of_end (hcode.trans_lt (by decide)).ne _ hend] at hrun
          cases hrun
          obtain ⟨rfl, rfl⟩ := eq_zero_of_dumpEnd hend
          obtain rfl := hkept rfl
          refine ⟨ds.map Owned.erase, (ds.map sources).sum, ⟨u, t, hrounds.yields, hplain⟩, rfl, ?_,
            Owned.card_sources_sum ds⟩
          calc h₂.live = h₂.abandoned + ({⟨h.next, sizeofDecoder⟩} + used) := huses
            _ = ⟨h.next, sizeofDecoder⟩ ::ₘ (h.abandoned + used + (ds.map sources).sum) := by
              rw [habandoned, ← Multiset.singleton_add]
              change _ + h.abandoned + _ = _
              abel
            _ = ⟨h.next, sizeofDecoder⟩ ::ₘ (h.live + (ds.map sources).sum) := by rw [hu]
      | refused _ t' hpull =>
          obtain ⟨h₂, hpull, -⟩ | hstuck := hpull
          · obtain ⟨result, console'', hend⟩ := exists_dumpEnd strerror bertErrnoMalloc
              (console.print (lines (ds.map Owned.erase)))
            rw [hpull, Outcome.bind_done, dumpRound_of_end (by decide) _ hend] at hrun
            cases hrun
            exact absurd (eq_zero_of_dumpEnd hend).1 (by decide)
          · rw [hstuck] at hrun
            cases hrun
      | overran _ _ _ _ _ hfault =>
          rw [hfault] at hrun
          cases hrun

/-- What a dump returns with what it wrote. -/
def written : Outcome σ ((Code × Console) × Heap) → Option (Code × List UInt8 × List UInt8)
  | .done ((result, console), _) _ => some (result, console.stdout, console.stderr)
  | _ => none

theorem exists_done_of_written {outcome : Outcome σ ((Code × Console) × Heap)} {result : Code}
    {stdout stderr : List UInt8} (hwritten : written outcome = some (result, stdout, stderr)) :
    ∃ h t, outcome = .done ((result, ⟨stdout, stderr⟩), h) t := by
  cases outcome with
  | done a t =>
      obtain ⟨⟨code, console⟩, h⟩ := a
      cases hwritten
      exact ⟨h, t, rfl⟩
  | _ => cases hwritten

/-- The decoder of a file of one regular expression. -/
def regexStream : Decoder (List UInt8) :=
  bertDecoderStream bertDecoderCreate PlainSource.ofList.toSource regexBytes

theorem refines_regexStream : PlainSource.ofList.feeding.Refines 29 0 regexStream regexBytes :=
  refines_fresh true PlainSource.ofList.toSlicedSource regexBytes

theorem clean_regexStream :
    AlongRuns windowReader clean (LibBert.bertDecoderPull 30 : Decode Empty _) 30 regexStream := by
  have hplain : run plainReader (LibBert.bertDecoderPull 30 : Decode Empty _) regexBytes =
      .done (1, some (.regex [97] 0)) [] := rfl
  obtain ⟨d, hrun, hdecoder⟩ := PlainSource.run_window refines_regexStream hplain
  refine ⟨?_, fun a t hrun' ↦ ?_⟩
  · repeat' constructor
    all_goals exact fun _ ↦ ⟨_, rfl, trivial⟩
  · rw [hrun] at hrun'
    cases hrun'
    exact alongRuns_clean_of_empty hdecoder 29

/-- The decoder takes the first block, and the source of the regular expression is left. -/
theorem dump_leaks_sources_regex :
    ∃ (ds : List (Data Empty)) (lost : Multiset Block) (h' : Heap) (t : Decoder (List UInt8)),
      run windowReader ((bertDump [] 30 30 : Print Empty) ⟨[], []⟩ (Heap.empty fun _ ↦ true))
        regexStream = .done ((0, ⟨lines [(.regex [97] 0 : Data Empty)], []⟩), h') t ∧
      Ended windowReader (LibBert.bertDecoderPull 30) regexStream ds 0 ∧
      ⟨lines [(.regex [97] 0 : Data Empty)], []⟩ = Console.print ⟨[], []⟩ (lines ds) ∧
      h'.live = ⟨0, sizeofDecoder⟩ ::ₘ (0 + lost) ∧ lost.card = (ds.map regexes).sum := by
  have hrun : ∃ h' t, run windowReader
      ((bertDump [] 30 30 : Print Empty) ⟨[], []⟩ (Heap.empty fun _ ↦ true)) regexStream =
        .done ((0, ⟨lines [(.regex [97] 0 : Data Empty)], []⟩), h') t := by
    apply exists_done_of_written
    decide +kernel
  have htimes : (trace windowReader
      ((bertDump [] 30 30 : Print Empty) ⟨[], []⟩ (Heap.empty fun _ ↦ true)) regexStream).all
        (fun event ↦ !storesTime event) = true := by decide +kernel
  obtain ⟨h', t, hrun⟩ := hrun
  obtain ⟨ds, lost, hdumped⟩ := dump_leaks_sources refines_regexStream.ends (by decide) (by decide)
    clean_regexStream (Heap.uses_empty fun _ ↦ true) (.inl fun _ _ hmem ↦ by
      cases List.all_eq_true.mp htimes _ hmem) hrun
  exact ⟨ds, lost, h', t, hrun, hdumped⟩

end Whole

end LibBert.Managed
