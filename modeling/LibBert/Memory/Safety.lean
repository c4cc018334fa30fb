import LibBert.Memory.Discipline
import LibBert.Memory.Refinement
import LibBert.Decoder.Assignment

/-!
# What the decoder does to the heap

The heap is misused only behind a list that took up a term twice, which no input does
that is not torn, or where a text of `2 ^ 32 - 1` bytes is written past its block.  A pull
that returns on input that is not torn leaves allocated what was in use before and the
term it stores, beside what it abandoned.
-/

namespace LibBert.Managed

open Reading Storing
open Owned (blocksSlot)

variable {F σ : Type} {R : BertReader σ} {s t : σ} {h h' : Heap} {n depth : ℕ}
  {used : Multiset Block} {result : Code} {data : Option (Owned F)}

theorem accounts_of_uses (strict : Prop) (hu : h.Uses used) :
    h.Accounts strict h.abandoned used := ⟨hu, fun _ ↦ rfl⟩

/-- The contract only ends where a list takes up a term twice. -/
theorem eq_stale_of_ends {event : HeapEvent (Event F)} (hends : (heapContract False).ends event) :
    event = .mark .stale := by
  cases event with
  | mark e =>
      cases e with
      | stale => rfl
      | _ => exact hends.elim
  | _ => exact hends.elim

/-- What meets the contract misuses the heap only behind such a list. -/
theorem legal_or_stale {α : Type} {Q : α → Prop} {p : Program UInt8 Code (HeapEvent (Event F)) α}
    (hmeets : Meets (heapContract False) Q p) {front back : List (HeapEvent (Event F))}
    {event : HeapEvent (Event F)} (htrace : trace R p s = front ++ event :: back) :
    event.Legal (2 ^ 32 - 1) ∨ .mark .stale ∈ front := by
  by_cases hstale : .mark .stale ∈ front
  · exact .inr hstale
  · refine .inl ((hmeets.legal_of_trace htrace fun e he hends ↦ ?_).elim (fun hends ↦ ?_) id)
    · exact hstale (eq_stale_of_ends hends ▸ he)
    · rw [eq_stale_of_ends hends]
      trivial

variable [Platform F]

/-- Input that is not torn is pulled without a list that takes up a term twice and without
a result 1 that has no term. -/
theorem clean_of_untorn (hends : Ends R n s) (hdepth : n < depth) (hwhole : ¬ Torn F R s)
    {event : Event F} (hmem : .mark event ∈ trace R ((bertDecoderPull depth : Managed F _) h) s) :
    event.Clean := by
  rcases (refines_pull (F := F) depth h).mem_trace R s hmem with rfl | hmem
  · exact fun hone ↦ absurd hone (by decide)
  · obtain ⟨_, hclean⟩ := ((along_clean_iff hends hdepth).mpr hwhole).exists_onEmit hmem
    exact hclean

/-- The decoder of the bytes `104 2 97 5 106`, the tuple `{5, nil}`. -/
def pairDecoder : Decoder (List UInt8) :=
  freshDecoder false PlainSource.ofList.toSource [bertSmallTuple, 2, bertSmallInt, 5, bertNil]

theorem ends_pairDecoder : Ends windowReader 5 pairDecoder :=
  (refines_fresh false PlainSource.ofList.toSlicedSource _).ends

theorem not_torn_pairDecoder : ¬ Torn Empty windowReader pairDecoder := by
  refine (along_clean_iff ends_pairDecoder (by decide : 5 < 8)).mp ?_
  repeat' constructor
  · exact fun _ ↦ ⟨_, rfl, trivial⟩
  · exact fun _ ↦ ⟨_, rfl, trivial⟩
  · exact fun _ ↦ ⟨_, rfl, trivial, trivial, trivial⟩

/-- What it stores on an empty heap. -/
def pairOwned : Owned Empty :=
  .tuple ⟨2, 32⟩ ⟨1, 16⟩ ⟨0, 16⟩ [some (.int ⟨3, 32⟩ 5), some (.nil ⟨4, 32⟩)]

theorem trace_pairDecoder :
    trace windowReader ((bertDecoderPull 8 : Managed Empty _) (Heap.empty fun _ ↦ true))
      pairDecoder =
      [.mark .enter, .mark .enter, .mark (.leave 1 (some (.int 5))), .mark .enter,
        .mark (.leave 1 (some .nil)), .mark (.leave 1 (some pairOwned.erase))] := rfl

theorem trace_refused_pairDecoder :
    trace windowReader ((bertDecoderPull 8 : Managed Empty _) (Heap.empty (· ≠ 4)))
      pairDecoder =
      [.mark .enter, .mark .enter, .mark (.leave 1 (some (.int 5))), .mark .enter, .refused,
        .mark (.leave bertErrnoMalloc none), .mark (.leave bertErrnoMalloc none)] := rfl

theorem legal_of_untorn (hends : Ends R n s) (hdepth : n < depth) (hwhole : ¬ Torn F R s)
    (hu : h.Uses used) {event : HeapEvent (Event F)}
    (hmem : event ∈ trace R ((bertDecoderPull depth : Managed F _) h) s) :
    event.Legal (2 ^ 32 - 1) := by
  obtain ⟨front, back, htrace⟩ := List.append_of_mem hmem
  have hmeets := keeps_pull (F := F) False h.abandoned depth used h (accounts_of_uses False hu)
  refine (legal_or_stale hmeets htrace).resolve_right fun hstale ↦ ?_
  have hclean : Event.Clean (.stale : Event F) :=
    clean_of_untorn hends hdepth hwhole (htrace ▸ List.mem_append_left _ hstale)
  exact hclean

/-- Where no allocation fails, a pull of input that is not torn uses no pointer that was
not assigned. -/
theorem refused_of_stuck (hends : Ends R n s) (hdepth : n < depth) (hwhole : ¬ Torn F R s)
    (hstuck : run R ((bertDecoderPull depth : Managed F _) h) s = .stuck t) :
    .refused ∈ trace R ((bertDecoderPull depth : Managed F _) h) s := by
  by_contra hgranted
  have hplain : run R (LibBert.bertDecoderPull depth : Decode F _) s = .stuck t := by
    rcases (refines_pull (F := F) depth h).run R s hgranted with ⟨u, hfault⟩ | hagree
    · cases hstuck.symm.trans hfault
    · rw [hstuck] at hagree
      exact hagree.eq_stuck
  rcases pull_fate (F := F) hends hdepth with
    ⟨u, -, hrun, -⟩ | ⟨code, u, -, hrun, -⟩ | ⟨w, d, u, -, -, hrun, -⟩ | ⟨u, -, hrun, -⟩ |
    ⟨htorn, -⟩
  · cases hplain.symm.trans hrun
  · cases hplain.symm.trans hrun
  · cases hplain.symm.trans hrun
  · cases hplain.symm.trans hrun
  · exact hwhole htorn

/-- A pull of input that is not torn ends in a fault only where it writes a text past its
block. -/
theorem exists_overrun_of_fault (hends : Ends R n s) (hdepth : n < depth)
    (hwhole : ¬ Torn F R s) (hu : h.Uses used)
    (hfault : run R ((bertDecoderPull depth : Managed F _) h) s = .fault t) :
    ∃ block length, 2 ^ 32 - 1 ≤ length ∧
      .overrun block length ∈ trace R ((bertDecoderPull depth : Managed F _) h) s := by
  obtain ⟨event, hmem, hmisuse⟩ :=
    (refines_pull (F := F) depth h).misused_of_fault R s hfault
  have hlegal := legal_of_untorn hends hdepth hwhole hu hmem
  cases event with
  | invalid block => exact hlegal.elim
  | overrun block length => exact ⟨block, length, hlegal, hmem⟩
  | _ => exact hmisuse.elim

/-- A pull of input that is not torn uses only memory that is allocated, and never frees
a block twice, whichever allocations fail; only a text of `2 ^ 32 - 1` bytes is written
past its block, which ends the run in a fault.  It uses a pointer that was not assigned
only where an allocation fails. -/
theorem decoder_memory_safe (hends : Ends R n s) (hdepth : n < depth) (hwhole : ¬ Torn F R s)
    (hu : h.Uses used) :
    (∀ event ∈ trace R ((bertDecoderPull depth : Managed F _) h) s,
      event.Legal (2 ^ 32 - 1)) ∧
    (∀ t, run R ((bertDecoderPull depth : Managed F _) h) s = .fault t →
      ∃ block length, 2 ^ 32 - 1 ≤ length ∧
        .overrun block length ∈ trace R ((bertDecoderPull depth : Managed F _) h) s) ∧
    ∀ t, run R ((bertDecoderPull depth : Managed F _) h) s = .stuck t →
      .refused ∈ trace R ((bertDecoderPull depth : Managed F _) h) s :=
  ⟨fun _ ↦ legal_of_untorn hends hdepth hwhole hu,
    fun _ ↦ exists_overrun_of_fault hends hdepth hwhole hu,
    fun _ ↦ refused_of_stuck hends hdepth hwhole⟩

/-- The allocation of the second element is refused. -/
theorem decoder_memory_safe_pair :
    (trace windowReader ((bertDecoderPull 8 : Managed Empty _) (Heap.empty (· ≠ 4)))
      pairDecoder).Forall (HeapEvent.Legal (2 ^ 32 - 1)) ∧
    .refused ∈ trace windowReader ((bertDecoderPull 8 : Managed Empty _) (Heap.empty (· ≠ 4)))
      pairDecoder :=
  ⟨List.forall_iff_forall_mem.mpr
    (decoder_memory_safe ends_pairDecoder (by decide) not_torn_pairDecoder
      (Heap.uses_empty _)).1, by rw [trace_refused_pairDecoder]; simp⟩

/-- Input that is not torn never ends a pull at a stale element. -/
theorem settled_of_untorn (hends : Ends R n s) (hdepth : n < depth)
    (hwhole : ¬ Torn F R s) (hu : h.Uses used)
    (hrun : run R (bertDecoderPull depth h) s = .done ((result, data), h') t) :
    Settled False h.abandoned used 1 ((result, data), h') := by
  have hmeets := keeps_pull (F := F) False h.abandoned depth used h (accounts_of_uses False hu)
  refine hmeets.of_run (fun e he hends' ↦ ?_) hrun
  rw [eq_stale_of_ends hends'] at he
  exact clean_of_untorn hends hdepth hwhole he

/-- Behind a pull of input that is not torn, what is allocated is what was in use before,
the term that was stored and what was abandoned on the way. -/
theorem decoder_memory_accounted (hends : Ends R n s) (hdepth : n < depth)
    (hwhole : ¬ Torn F R s) (hu : h.Uses used)
    (hrun : run R (bertDecoderPull depth h) s = .done ((result, data), h') t) :
    h'.Uses (blocksSlot data + used) ∧ (data ≠ none → result = 1) := by
  have hsettled := settled_of_untorn hends hdepth hwhole hu hrun
  exact ⟨hsettled.1.uses, hsettled.2⟩

/-- The tuple takes three blocks and each of its elements one. -/
theorem decoder_memory_accounted_pair :
    ∃ h' t, run windowReader (bertDecoderPull 8 (Heap.empty fun _ ↦ true)) pairDecoder =
        .done ((1, some pairOwned), h') t ∧ h'.Uses (blocksSlot (some pairOwned) + 0) := by
  refine ⟨_, _, rfl, ?_⟩
  exact (decoder_memory_accounted ends_pairDecoder (by decide : 5 < 8)
    not_torn_pairDecoder (Heap.uses_empty fun _ ↦ true) rfl).1

/-- Where nothing was abandoned, the abandoned blocks are those from before. -/
theorem settled_of_kept (hends : Ends R n s) (hdepth : n < depth) (hwhole : ¬ Torn F R s)
    (hu : h.Uses used) (hrun : run R (bertDecoderPull depth h) s = .done ((result, data), h') t)
    (hkept : ∀ blocks, .abandoned blocks ∉ trace R
      ((bertDecoderPull depth : Managed F _) h) s) :
    Settled True h.abandoned used 1 ((result, data), h') := by
  have hmeets := keeps_pull (F := F) True h.abandoned depth used h (accounts_of_uses True hu)
  refine hmeets.of_run (fun e he hends' ↦ ?_) hrun
  cases e with
  | abandoned blocks => exact hkept blocks he
  | mark e =>
      have hstale : .mark e = (.mark .stale : HeapEvent (Event F)) := eq_stale_of_ends hends'
      rw [hstale] at he
      exact clean_of_untorn hends hdepth hwhole he
  | _ => exact hends'

/-- Where nothing was abandoned, nothing leaks. -/
theorem decoder_leaks_nothing (hends : Ends R n s) (hdepth : n < depth) (hwhole : ¬ Torn F R s)
    (hu : h.Uses used) (hrun : run R (bertDecoderPull depth h) s = .done ((result, data), h') t)
    (hkept : ∀ blocks, .abandoned blocks ∉ trace R
      ((bertDecoderPull depth : Managed F _) h) s) :
    h'.live = h.live + blocksSlot data := by
  have hsettled := settled_of_kept hends hdepth hwhole hu hrun hkept
  rw [hsettled.1.uses, hsettled.1.kept trivial, hu]
  abel

theorem decoder_leaks_nothing_pair :
    ∃ h' t, run windowReader (bertDecoderPull 8 (Heap.empty fun _ ↦ true)) pairDecoder =
        .done ((1, some pairOwned), h') t ∧ h'.live = 0 + blocksSlot (some pairOwned) := by
  refine ⟨_, _, rfl, ?_⟩
  exact decoder_leaks_nothing ends_pairDecoder (by decide : 5 < 8) not_torn_pairDecoder
    (Heap.uses_empty fun _ ↦ true) rfl fun _ ↦ by simp [trace_pairDecoder]

/-- As long as no allocation fails, a pull with its memory returns what the pull without
returns, stores the same term and leaves the reader where that leaves it, or it misuses
the heap and ends in a fault. -/
theorem decoder_refines (hgranted : .refused ∉ trace R
      ((bertDecoderPull depth : Managed F _) h) s) :
    (∃ t, run R ((bertDecoderPull depth : Managed F _) h) s = .fault t ∧
      ∃ event ∈ trace R ((bertDecoderPull depth : Managed F _) h) s, event.Misuse) ∨
    Outcome.Agree (fun r r' ↦ r' = (r.1.1, Owned.eraseSlot r.1.2))
      (run R (bertDecoderPull depth h) s)
      (run R (LibBert.bertDecoderPull depth : Decode F _) s) := by
  have hmirrors := refines_pull (F := F) depth h
  refine (hmirrors.run R s hgranted).imp_left ?_
  rintro ⟨t, hfault⟩
  exact ⟨t, hfault, hmirrors.misused_of_fault R s hfault⟩

theorem decoder_refines_pair :
    (∃ t, run windowReader ((bertDecoderPull 8 : Managed Empty _) (Heap.empty fun _ ↦ true))
        pairDecoder = .fault t ∧
      ∃ event ∈ trace windowReader ((bertDecoderPull 8 : Managed Empty _)
        (Heap.empty fun _ ↦ true)) pairDecoder, event.Misuse) ∨
    Outcome.Agree (fun r r' ↦ r' = (r.1.1, Owned.eraseSlot r.1.2))
      (run windowReader (bertDecoderPull 8 (Heap.empty fun _ ↦ true)) pairDecoder)
      (run windowReader (LibBert.bertDecoderPull 8 : Decode Empty _) pairDecoder) :=
  decoder_refines (by simp [trace_pairDecoder])

/-- Where an allocation fails, `BERT_ERRNO_MALLOC` is returned, no term is stored and
what was allocated is given back or abandoned, or else the pointer of a part of a time is
used that was not assigned. -/
theorem decoder_without_memory (hends : Ends R n s) (hdepth : n < depth) (hwhole : ¬ Torn F R s)
    (hu : h.Uses used)
    (hrefused : .refused ∈ trace R ((bertDecoderPull depth : Managed F _) h) s) :
    ∃ t, (∃ h', run R ((bertDecoderPull depth : Managed F _) h) s =
        .done ((bertErrnoMalloc, none), h') t ∧ h'.Uses used) ∨
      run R ((bertDecoderPull depth : Managed F _) h) s = .stuck t := by
  have hpull := refines_pull (F := F) depth h
  have hvalid (b : Block) :
      .invalid b ∉ trace R ((bertDecoderPull depth : Managed F _) h) s :=
    fun hmem ↦ legal_of_untorn hends hdepth hwhole hu hmem
  obtain ⟨t, ⟨⟨r, h'⟩, hrun, hr⟩ | hstuck⟩ := hpull.run_of_refused R s hrefused hvalid
  · obtain rfl : r = (bertErrnoMalloc, none) := hr
    have hback := (settled_of_untorn hends hdepth hwhole hu hrun).1.uses
    rw [blocksSlot, zero_add] at hback
    exact ⟨t, .inl ⟨h', hrun, hback⟩⟩
  · exact ⟨t, .inr hstuck⟩

/-- Without memory for the second element. -/
theorem decoder_without_memory_pair :
    ∃ t, (∃ h', run windowReader
        ((bertDecoderPull 8 : Managed Empty _) (Heap.empty (· ≠ 4))) pairDecoder =
          .done ((bertErrnoMalloc, none), h') t ∧ h'.Uses 0) ∨
      run windowReader ((bertDecoderPull 8 : Managed Empty _) (Heap.empty (· ≠ 4)))
        pairDecoder = .stuck t :=
  decoder_without_memory ends_pairDecoder (by decide) not_torn_pairDecoder (Heap.uses_empty _)
    (by rw [trace_refused_pairDecoder]; simp)

end LibBert.Managed
