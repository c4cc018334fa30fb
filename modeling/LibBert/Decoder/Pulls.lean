import LibBert.Decoder.Termination
import LibBert.Wire.Completeness

/-!
# Successive pulls

What a sequence of `bert_decoder_pull` calls returns on a fresh decoder: over a
source that answers in full it is what the plain reader returns, over a source
that answers in slices it is the same wherever every fill is ample, and over a
buffer it is the same exactly up to the size of the window.  Where two decoders are
compared, times made of a container's pointer are set aside.
-/

namespace LibBert

open Reading

variable {F ρ : Type} [Platform F]

/-- A fresh decoder over a source, as a stream or with a callback. -/
def freshDecoder (stream : Bool) (source : Source ρ) (s : ρ) : Decoder ρ :=
  if stream then bertDecoderStream bertDecoderCreate source s
  else bertDecoderCallback bertDecoderCreate source s

/-- The bytes handed out so far: those received less those still unread. -/
def Decoder.consumed (d : Decoder ρ) : ℕ := bertDecoderTotal d - (d.shortLength - d.shortIndex)

/-- The results of `count` successive pulls with what `view` shows of the
decoder behind each. -/
def pulls {σ ω : Type} (R : BertReader σ) (view : σ → ω) (depth count : ℕ) (s : σ) :
    List (Outcome ω (Result F)) :=
  runs R view (bertDecoderPull depth) count s

/-! ## Sources -/

theorem refines_fresh (stream : Bool) (source : SlicedSource ρ) (s : ρ) :
    source.feeding.Refines (source.contents s).length 0
      (freshDecoder stream source.toSource s) (source.contents s) := by
  cases stream
  · exact ⟨valid_fresh _, Nat.zero_le _, Nat.zero_le _, _, ⟨s, .inr rfl, rfl⟩, rfl, Nat.zero_add _⟩
  · exact ⟨valid_fresh _, Nat.zero_le _, Nat.zero_le _, _, ⟨s, .inl rfl, rfl⟩, rfl, Nat.zero_add _⟩

theorem Feeding.Refines.consumed_eq {feeding : Feeding ρ} {total avail : ℕ} {d : Decoder ρ}
    {rest : List UInt8} (h : feeding.Refines total avail d rest) :
    d.consumed = total - rest.length := by
  have hlength := h.valid.length_unread
  obtain ⟨upcoming, -, rfl, rfl⟩ := h.upcoming
  simp only [Decoder.consumed, bertDecoderTotal, List.length_append]
  omega

theorem Feeding.Refines.length_le {feeding : Feeding ρ} {total avail : ℕ} {d : Decoder ρ}
    {rest : List UInt8} (h : feeding.Refines total avail d rest) : rest.length ≤ total := by
  have hcounted := h.unread_le
  obtain ⟨upcoming, -, rfl, rfl⟩ := h.upcoming
  rw [List.length_append]
  omega

theorem Feeding.Refines.consumed_append {feeding : Feeding ρ} {total avail avail' : ℕ}
    {d d' : Decoder ρ} {bytes rest : List UInt8} (h : feeding.Refines total avail d (bytes ++ rest))
    (h' : feeding.Refines total avail' d' rest) : d'.consumed = d.consumed + bytes.length := by
  have hlength := h.length_le
  rw [List.length_append] at hlength
  rw [h.consumed_eq, h'.consumed_eq, List.length_append]
  omega

/-! ## Pulls over ample fills -/

namespace Feeding.Refines

variable {feeding : Feeding ρ} {total depth count : ℕ} {d : Decoder ρ} {rest : List UInt8}

/-- Where every request of at most half a window is filled amply, so are those of
all pulls. -/
theorem alongRuns_ample (h : feeding.Refines total 0 d rest)
    (hample : ∀ d size, d.Valid → size ≤ bertShortBuffer / 2 → feeding.Ample d size) (count : ℕ) :
    AlongRuns windowReader { onRead := feeding.Ample } (bertDecoderPull depth : Decode F _)
      count d :=
  (feeding.simulation total feeding.Ample fun _ _ _ _ ↦ id).alongRuns
    (fun h hsize ↦ hample _ _ h.valid hsize) (disciplined_bertDecoderPull depth) h

/-- A pull over ample fills runs as over the bytes that are still to come. -/
theorem related (h : feeding.Refines total 0 d rest)
    (hample : Along windowReader { onRead := feeding.Ample }
      (bertDecoderPull depth : Decode F _) d) :
    Outcome.Related (feeding.Refines total 0)
      (Reading.run windowReader (bertDecoderPull depth : Decode F _) d)
      (Reading.run plainReader (bertDecoderPull depth : Decode F _) rest) :=
  (feeding.simulation total feeding.Ample fun _ _ _ _ ↦ id).run (disciplined_bertDecoderPull depth)
    h hample

theorem pulls_eq {ω : Type} {view : Decoder ρ → ω} {view' : List UInt8 → ω}
    (h : feeding.Refines total 0 d rest)
    (hview : ∀ {d rest}, feeding.Refines total 0 d rest → view d = view' rest)
    (hample : AlongRuns windowReader { onRead := feeding.Ample }
      (bertDecoderPull depth : Decode F _) count d) :
    pulls (F := F) windowReader view depth count d = pulls plainReader view' depth count rest :=
  (feeding.simulation total feeding.Ample fun _ _ _ _ ↦ id).runs hview
    (disciplined_bertDecoderPull depth) h hample

end Feeding.Refines

/-- A decoder over a source that answers in full runs as the plain reader does on
what is left of its input. -/
theorem PlainSource.related (source : PlainSource ρ) {total : ℕ} {d : Decoder ρ}
    {rest : List UInt8} (h : source.feeding.Refines total 0 d rest) (depth : ℕ) :
    Outcome.Related (source.feeding.Refines total 0)
      (run windowReader (bertDecoderPull depth : Decode F _) d)
      (run plainReader (bertDecoderPull depth : Decode F _) rest) :=
  h.related (h.alongRuns_ample (fun _ _ ↦ source.ample) 1).1

theorem PlainSource.run_window {source : PlainSource ρ} {total depth : ℕ} {d : Decoder ρ}
    {rest rest' : List UInt8} {r : Result F} (h : source.feeding.Refines total 0 d rest)
    (hrun : run plainReader (bertDecoderPull depth) rest = .done r rest') :
    ∃ d', run windowReader (bertDecoderPull depth) d = .done r d' ∧
      source.feeding.Refines total 0 d' rest' :=
  (hrun ▸ source.related h depth).exists_left

theorem PlainSource.run_plain {source : PlainSource ρ} {total depth : ℕ} {d d' : Decoder ρ}
    {rest : List UInt8} {r : Result F} (h : source.feeding.Refines total 0 d rest)
    (hrun : run windowReader (bertDecoderPull depth) d = .done r d') :
    ∃ rest', run plainReader (bertDecoderPull depth) rest = .done r rest' ∧
      source.feeding.Refines total 0 d' rest' :=
  (hrun ▸ source.related h depth).exists_right

/-- Over a source that answers in full, successive pulls return what they
return on a plain reader, having consumed as much. -/
theorem pulls_eq_plain (stream : Bool) (source : PlainSource ρ) (s : ρ) (depth count : ℕ) :
    pulls (F := F) windowReader Decoder.consumed depth count
        (freshDecoder stream source.toSource s) =
      pulls plainReader (fun rest ↦ (source.contents s).length - rest.length) depth count
        (source.contents s) :=
  have hfresh := refines_fresh stream source.toSlicedSource s
  hfresh.pulls_eq (fun h ↦ h.consumed_eq) (hfresh.alongRuns_ample (fun _ _ ↦ source.ample) count)

theorem pulls_results_eq_plain (stream : Bool) (source : PlainSource ρ) (s : ρ)
    (depth count : ℕ) :
    pulls (F := F) windowReader (fun _ ↦ ()) depth count (freshDecoder stream source.toSource s) =
      pulls plainReader (fun _ ↦ ()) depth count (source.contents s) :=
  have hfresh := refines_fresh stream source.toSlicedSource s
  hfresh.pulls_eq (fun _ ↦ rfl) (hfresh.alongRuns_ample (fun _ _ ↦ source.ample) count)

theorem alongRuns_plain {depth count : ℕ} {rest : List UInt8} (h : rest.length < depth) :
    AlongRuns plainReader { onTimeout := fun _ ↦ False } (bertDecoderPull depth : Decode F _)
      count rest :=
  alongRuns_bertDecoderPull plainMeasure (Nat.zero_le _) h count

/-- The windowed decoder refines the plain one: the same codes, terms and
consumed bytes, whatever the input and however many pulls.  With a depth beyond
the length of the input no pull runs out of depth. -/
theorem windowed_refines_plain (stream : Bool) (source : PlainSource ρ) (s : ρ)
    (depth count : ℕ) :
    pulls (F := F) windowReader Decoder.consumed depth count
        (freshDecoder stream source.toSource s) =
      pulls plainReader (fun rest ↦ (source.contents s).length - rest.length) depth count
        (source.contents s) ∧
    ((source.contents s).length < depth →
      ∀ o ∈ pulls (F := F) windowReader Decoder.consumed depth count
        (freshDecoder stream source.toSource s), ∀ consumed, o ≠ .timeout consumed) := by
  refine ⟨pulls_eq_plain stream source s depth count, fun hdepth ↦ ?_⟩
  rw [pulls_eq_plain]
  exact not_timeout_of_mem_runs (alongRuns_plain hdepth) fun _ ↦ id

/-! ## Slices -/

/-- Where every fill gets what the request misses or all that is left, the
results do not depend on how the source slices its bytes. -/
theorem pulls_eq_of_ample {ρ₁ ρ₂ : Type} (source₁ : SlicedSource ρ₁) (source₂ : SlicedSource ρ₂)
    (s₁ : ρ₁) (s₂ : ρ₂) (hcontents : source₁.contents s₁ = source₂.contents s₂)
    (stream₁ stream₂ : Bool) (depth count : ℕ)
    (h₁ : AlongRuns windowReader { onRead := source₁.feeding.Ample }
      (bertDecoderPull depth : Decode F _) count (freshDecoder stream₁ source₁.toSource s₁))
    (h₂ : AlongRuns windowReader { onRead := source₂.feeding.Ample }
      (bertDecoderPull depth : Decode F _) count (freshDecoder stream₂ source₂.toSource s₂)) :
    pulls (F := F) windowReader (fun _ ↦ ()) depth count
        (freshDecoder stream₁ source₁.toSource s₁) =
      pulls windowReader (fun _ ↦ ()) depth count (freshDecoder stream₂ source₂.toSource s₂) := by
  have hplain {ρ : Type} (source : SlicedSource ρ) (s : ρ) (stream : Bool)
      (h : AlongRuns windowReader { onRead := source.feeding.Ample }
        (bertDecoderPull depth : Decode F _) count (freshDecoder stream source.toSource s)) :
      pulls (F := F) windowReader (fun _ ↦ ()) depth count
          (freshDecoder stream source.toSource s) =
        pulls plainReader (fun _ ↦ ()) depth count (source.contents s) :=
    (refines_fresh stream source s).pulls_eq (fun _ ↦ rfl) h
  rw [hplain source₁ s₁ stream₁ h₁, hplain source₂ s₂ stream₂ h₂, hcontents]

/-- A source that answers with up to half a window at a time makes every fill of
every run ample. -/
theorem SlicedSource.alongRuns_of_half (source : SlicedSource ρ)
    (hhalf : ∀ s size bytes, (source.read s size).1 = some bytes →
      min (min size (bertShortBuffer / 2)) (source.contents s).length ≤ bytes.length)
    (stream : Bool) (s : ρ) (depth count : ℕ) :
    AlongRuns windowReader { onRead := source.feeding.Ample }
      (bertDecoderPull depth : Decode F _) count (freshDecoder stream source.toSource s) :=
  (refines_fresh stream source s).alongRuns_ample (fun _ _ ↦ source.ample_of_half hhalf) count

/-- Half windows and whole answers give the same results. -/
theorem pulls_eq_of_ample_half_window :
    pulls (F := Empty) windowReader (fun _ ↦ ()) 6 2
        (freshDecoder false (SlicedSource.ofList 256 (by decide)).toSource [98, 0, 0, 0, 7]) =
      pulls windowReader (fun _ ↦ ()) 6 2
        (freshDecoder true (PlainSource.ofList).toSource [98, 0, 0, 0, 7]) := by
  refine pulls_eq_of_ample (SlicedSource.ofList 256 (by decide)) PlainSource.ofList.toSlicedSource
    [98, 0, 0, 0, 7] [98, 0, 0, 0, 7] rfl false true 6 2 ?_ ?_
  · refine SlicedSource.alongRuns_of_half _ (fun s size bytes hread ↦ ?_) _ _ _ _
    cases hread
    exact (List.length_take ..).ge
  · exact SlicedSource.alongRuns_of_half _ PlainSource.ofList.half_le _ _ _ _

/-- A `BERT_INT` delivered a byte at a time is reported as a short read. -/
theorem slicing_matters :
    ¬ ∀ (source₁ source₂ : SlicedSource (List UInt8)) (s₁ s₂ : List UInt8),
      source₁.contents s₁ = source₂.contents s₂ → ∀ (stream₁ stream₂ : Bool) (depth count : ℕ),
        pulls (F := Empty) windowReader (fun _ ↦ ()) depth count
            (freshDecoder stream₁ source₁.toSource s₁) =
          pulls windowReader (fun _ ↦ ()) depth count
            (freshDecoder stream₂ source₂.toSource s₂) := by
  intro h
  have hslices := h (SlicedSource.ofList 1 (by decide)) PlainSource.ofList.toSlicedSource
    [98, 0, 0, 0, 7] [98, 0, 0, 0, 7] rfl false false 6 1
  have hbytewise : pulls (F := Empty) windowReader (fun _ ↦ ()) 6 1
      (freshDecoder false (SlicedSource.ofList 1 (by decide)).toSource [98, 0, 0, 0, 7]) =
        [.done (bertErrnoShortRead, none) ()] := rfl
  have hwhole : pulls (F := Empty) windowReader (fun _ ↦ ()) 6 1
      (freshDecoder false (PlainSource.ofList).toSource [98, 0, 0, 0, 7]) =
        [.done (1, some (.int 7)) ()] := rfl
  rw [hbytewise, hwhole] at hslices
  simp at hslices

/-! ## Buffers -/

/-- A buffer that fits into the window is read like any other input. -/
theorem pulls_buffer_of_fits (buffer : List UInt8) (hfits : buffer.length ≤ bertShortBuffer)
    (depth count : ℕ) :
    pulls (F := F) windowReader (fun _ ↦ ()) depth count
        (bertDecoderBuffer (bertDecoderCreate : Decoder ρ) buffer buffer.length) =
      pulls plainReader (fun _ ↦ ()) depth count buffer := by
  have hfresh : (bufferFeeding buffer hfits).Refines buffer.length 0
      (bertDecoderBuffer (bertDecoderCreate : Decoder ρ) buffer buffer.length) buffer :=
    ⟨valid_fresh _, Nat.zero_le _, Nat.zero_le _, _, .inl ⟨rfl, rfl, rfl⟩, rfl, Nat.zero_add _⟩
  exact hfresh.pulls_eq (fun _ ↦ rfl)
    (hfresh.alongRuns_ample (fun _ _ ↦ bufferFeeding_ample hfits) count)

/-- In buffer mode `left` more `BERT_NIL` bytes will be read: those in the
window, and as many as the index has not passed. -/
structure NilsLeft (buffer : List UInt8) (left : ℕ) (d : Decoder ρ) : Prop where
  valid : d.Valid
  ahead : ∃ index unread, d.mode = .buffer buffer buffer.length index ∧ index ≤ buffer.length ∧
    d.unread = List.replicate unread bertNil ∧ unread + (buffer.length - index) = left

/-- While the buffer starts with a window of `BERT_NIL`, one more is delivered:
every fill copies from its start. -/
theorem NilsLeft.delivers {buffer : List UInt8} {left : ℕ} {d : Decoder ρ}
    (h : NilsLeft buffer (left + 1) d) (hlength : buffer.length < 2 ^ 32)
    (hnil : ∀ n ≤ bertShortBuffer, n ≤ buffer.length →
      buffer.take n = List.replicate n bertNil) :
    ∃ d', Delivers windowReader d [[bertNil]] d' ∧ NilsLeft buffer left d' := by
  obtain ⟨index, unread, hmode, hindex, hunread, hleft⟩ := h.ahead
  obtain ⟨d₁, index', unread', hread, hvalid, hmode', hindex', hunread', hleft'⟩ :
      ∃ d₁ index' unread', windowReader.read d 1 = (bertSuccess, d₁) ∧ d₁.Valid ∧
        d₁.mode = .buffer buffer buffer.length index' ∧ index' ≤ buffer.length ∧
        d₁.unread = List.replicate (unread' + 1) bertNil ∧
        unread' + (buffer.length - index') = left := by
    cases unread with
    | succ unread =>
        exact ⟨d, index, unread, h.valid.read_of_le (by simp [hunread]), h.valid, hmode, hindex,
          hunread, by omega⟩
    | zero =>
        have hempty : d.unread = [] := hunread
        have hroom := h.valid.ready_shortLength_le (by simp [hempty])
        obtain ⟨count, hcount⟩ : ∃ count, min (buffer.length - index) d.ready.empty = count :=
          ⟨_, rfl⟩
        simp only [Decoder.empty, bertShortBuffer] at hroom hcount
        have htake := hnil count (by simp only [bertShortBuffer]; omega) (by omega)
        obtain ⟨d₁, hread, hvalid, hunread', hmode', -⟩ :=
          h.valid.refill hempty hmode hcount (by rw [htake, List.length_replicate]; omega)
        rw [Nat.mod_eq_of_lt (by omega)] at hmode'
        refine ⟨d₁, index + count, count - 1, hread, hvalid, hmode', by omega, ?_, by omega⟩
        rw [hunread', htake, Nat.sub_add_cancel (by omega)]
  obtain ⟨d', hdelivers, hvalid', hunread'', hmode'', -⟩ :=
    hvalid.delivers [[bertNil]] hunread'
  exact ⟨d', (delivers_after_read rfl hread).mp hdelivers, hvalid', index', unread',
    hmode''.trans hmode', hindex', hunread'', hleft'⟩

theorem NilsLeft.yields {buffer : List UInt8} {left : ℕ} {d : Decoder ρ}
    (h : NilsLeft buffer left d) (hlength : buffer.length < 2 ^ 32)
    (hnil : ∀ n ≤ bertShortBuffer, n ≤ buffer.length →
      buffer.take n = List.replicate n bertNil) (depth n : ℕ) (hn : n ≤ left) :
    ∃ d', Yields windowReader (bertDecoderPull (depth + 1)) d
      (List.replicate n (.nil : Data F)) d' := by
  induction n generalizing left d with
  | zero => exact ⟨d, .nil d⟩
  | succ n ih =>
      obtain ⟨left, rfl⟩ : ∃ k, left = k + 1 := ⟨left - 1, by omega⟩
      obtain ⟨d', hdelivers, hleft⟩ := h.delivers hlength hnil
      obtain ⟨d'', hyields⟩ := ih hleft (by omega)
      have hpull : run windowReader (bertDecoderPull (depth + 1)) d =
          .done ((1, some .nil) : Result F) d' :=
        run_bertDecoderPull_of_delivers (w := .nil) (Nat.succ_pos depth) rfl hdelivers
      exact ⟨d'', .cons hpull hyields⟩

/-- A window of `BERT_NIL` bytes followed by zero bytes. -/
def nilsThenZeros (n : ℕ) : List UInt8 :=
  List.replicate bertShortBuffer bertNil ++ List.replicate (n - bertShortBuffer) 0

theorem length_nilsThenZeros {n : ℕ} (hn : bertShortBuffer ≤ n) : (nilsThenZeros n).length = n := by
  simp only [nilsThenZeros, List.length_append, List.length_replicate]
  omega

theorem take_nilsThenZeros (n k : ℕ) (hk : k ≤ bertShortBuffer) :
    (nilsThenZeros n).take k = List.replicate k bertNil := by
  rw [nilsThenZeros, List.take_append_of_le_length (by simpa using hk), List.take_replicate,
    Nat.min_eq_left hk]

/-- Behind its window of `BERT_NIL` bytes the plain reader meets a zero byte. -/
theorem pulls_plain_nilsThenZeros {n : ℕ} (hn : bertShortBuffer < n) (depth : ℕ) :
    pulls (F := F) plainReader (fun _ ↦ ()) (depth + 1) (bertShortBuffer + 1) (nilsThenZeros n) =
      List.replicate bertShortBuffer (.done (1, some .nil) ()) ++
        [.done (bertErrnoInvalid, none) ()] := by
  have hyields (k : ℕ) (rest : List UInt8) :
      Yields plainReader (bertDecoderPull (depth + 1)) (List.replicate k bertNil ++ rest)
        (List.replicate k (.nil : Data F)) rest := by
    induction k with
    | zero => exact .nil _
    | succ k ih =>
        have hpull : run plainReader (bertDecoderPull (depth + 1))
            (List.replicate (k + 1) bertNil ++ rest) =
              .done ((1, some .nil) : Result F) (List.replicate k bertNil ++ rest) :=
          run_bertDecoderPull_of_delivers (w := .nil) (Nat.succ_pos depth) rfl
            (plainReader_delivers_iff.mpr rfl)
        exact .cons hpull ih
  have hruns := runs_of_yields (hyields bertShortBuffer (List.replicate (n - bertShortBuffer) 0)) 1
  rw [List.length_replicate, List.map_replicate] at hruns
  obtain ⟨k, hk⟩ : ∃ k, n - bertShortBuffer = k + 1 := ⟨n - bertShortBuffer - 1, by omega⟩
  rw [pulls, nilsThenZeros, hruns, hk, List.replicate_succ]
  rfl

theorem pulls_buffer_ne_callback {n : ℕ} (hlong : bertShortBuffer < n) (hn : n < 2 ^ 32) :
    pulls (F := F) windowReader (fun _ ↦ ()) (n + 1) (bertShortBuffer + 1)
        (bertDecoderBuffer (bertDecoderCreate : Decoder (List UInt8)) (nilsThenZeros n) n) ≠
      pulls windowReader (fun _ ↦ ()) (n + 1) (bertShortBuffer + 1)
        (bertDecoderCallback bertDecoderCreate PlainSource.ofList.toSource (nilsThenZeros n)) := by
  intro hsame
  have hlength := length_nilsThenZeros hlong.le
  have hleft : NilsLeft (nilsThenZeros n) n
      (bertDecoderBuffer (bertDecoderCreate : Decoder (List UInt8)) (nilsThenZeros n) n) := by
    refine ⟨valid_fresh _, 0, 0, ?_, Nat.zero_le _, rfl, by omega⟩
    rw [hlength]
    rfl
  obtain ⟨d', hyields⟩ := hleft.yields (F := F) (by omega)
    (fun k hk _ ↦ take_nilsThenZeros n k hk) n (bertShortBuffer + 1) (by omega)
  have hbuffer := runs_of_yields hyields 0
  rw [List.length_replicate, List.map_replicate, runs, List.append_nil,
    List.replicate_succ'] at hbuffer
  have hcallback := pulls_results_eq_plain (F := F) false PlainSource.ofList (nilsThenZeros n)
    (n + 1) (bertShortBuffer + 1)
  have hplain := pulls_plain_nilsThenZeros (F := F) hlong n
  have hlast := hbuffer.symm.trans (hsame.trans (hcallback.trans hplain))
  simpa using List.append_cancel_left hlast

/-- Buffer mode decodes every buffer of a length like a callback that delivers
the same bytes exactly when the length is at most the window. -/
theorem buffer_eq_callback_iff (n : ℕ) (hn : n < 2 ^ 32) :
    (∀ (ρ : Type) (source : PlainSource ρ) (s : ρ), (source.contents s).length = n →
      ∀ depth count : ℕ,
        pulls (F := F) windowReader (fun _ ↦ ()) depth count
            (bertDecoderBuffer (bertDecoderCreate : Decoder ρ) (source.contents s) n) =
          pulls windowReader (fun _ ↦ ()) depth count
            (bertDecoderCallback bertDecoderCreate source.toSource s)) ↔
      n ≤ bertShortBuffer := by
  constructor
  · intro h
    by_contra hlong
    have hlength := length_nilsThenZeros (Nat.le_of_not_le hlong)
    exact pulls_buffer_ne_callback (F := F) (Nat.lt_of_not_le hlong) hn
      (h (List UInt8) PlainSource.ofList (nilsThenZeros n) hlength (n + 1) (bertShortBuffer + 1))
  · rintro hfits ρ source s rfl depth count
    rw [pulls_buffer_of_fits _ hfits]
    exact (pulls_results_eq_plain false source s depth count).symm

theorem buffer_eq_callback_window :
    pulls (F := Empty) windowReader (fun _ ↦ ()) 6 3
        (bertDecoderBuffer (bertDecoderCreate : Decoder (List UInt8)) [98, 0, 0, 0, 7, 106] 6) =
      pulls windowReader (fun _ ↦ ()) 6 3
        (bertDecoderCallback bertDecoderCreate PlainSource.ofList.toSource [98, 0, 0, 0, 7, 106]) :=
  (buffer_eq_callback_iff 6 (by decide)).mpr (by decide) (List UInt8) PlainSource.ofList
    [98, 0, 0, 0, 7, 106] rfl 6 3

/-- One byte more than the window is already decoded differently. -/
theorem buffer_of_513_bytes_differs :
    ¬ ∀ (ρ : Type) (source : PlainSource ρ) (s : ρ), (source.contents s).length < 2 ^ 32 →
      ∀ depth count : ℕ,
        pulls (F := Empty) windowReader (fun _ ↦ ()) depth count
            (bertDecoderBuffer (bertDecoderCreate : Decoder ρ) (source.contents s)
              (source.contents s).length) =
          pulls windowReader (fun _ ↦ ()) depth count
            (bertDecoderCallback bertDecoderCreate source.toSource s) := by
  intro h
  have hlength : (nilsThenZeros 513).length = 513 := length_nilsThenZeros (by decide)
  have hsame := h (List UInt8) PlainSource.ofList (nilsThenZeros 513)
    (hlength.trans_lt (by decide)) 514 513
  change pulls windowReader _ 514 513
    (bertDecoderBuffer bertDecoderCreate (nilsThenZeros 513)
      (nilsThenZeros 513).length) = _ at hsame
  rw [hlength] at hsame
  exact pulls_buffer_ne_callback (F := Empty) (by decide) (by decide) hsame

end LibBert
