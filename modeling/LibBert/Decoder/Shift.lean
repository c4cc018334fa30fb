import LibBert.Decoder.Leftover
import LibBert.Decoder.Trace

/-!
# Shifting the window

A read that finds less than half of the window empty copies the unread bytes to
its front with `memcpy`, which needs the two ranges apart.  They are in every run
in which the answers of the source leave at most two bytes of the window empty or
at least half of it; any other answer may be followed by a copy onto itself.
-/

namespace LibBert

open Reading Bytes

variable {F ρ : Type}

namespace Decoder

variable {d : Decoder ρ} {size room : ℕ} {allowed : ℕ → Prop}

/-- `bert_decoder_read` moves the unread bytes to the front of the window. -/
def Shifts (d : Decoder ρ) (size : ℕ) : Prop :=
  d.shortLength - d.shortIndex < size ∧ d.empty < bertShortBuffer / 2

/-- A shift moves at most as many bytes as lie in front of them. -/
def ShiftsApart (d : Decoder ρ) (size : ℕ) : Prop :=
  d.Shifts size → d.shortLength - d.shortIndex ≤ d.shortIndex

/-- A source that answers a read leaves an allowed number of bytes of the window
empty. -/
def Leaves (allowed : ℕ → Prop) (d : Decoder ρ) (size : ℕ) : Prop :=
  ∀ bytes, d.shortLength - d.shortIndex < size →
    (d.mode.fill d.ready.empty).1 = some bytes → allowed (d.ready.empty - bytes.length)

/-- The room behind an answer after which no shift copies onto itself. -/
def SafeRoom (room : ℕ) : Prop := room ≤ 2 ∨ bertShortBuffer / 2 ≤ room

theorem bertDecoderRead_of_shifts (h : d.Shifts size) :
    bertDecoderRead d size =
      d.shift.fillShortBuffer size (d.shortLength - d.shortIndex) d.shift.empty := by
  rw [bertDecoderRead, if_neg (Nat.not_le.mpr h.1), if_neg (Nat.not_le.mpr h.2)]

/-- No byte is both copied and overwritten exactly when no more are moved than lie in
front of them. -/
theorem ranges_disjoint_iff (index count : ℕ) :
    (∀ i < count, ∀ j < count, index + i ≠ j) ↔ count ≤ index := by
  constructor
  · intro h
    by_contra hlt
    have hfirst := h 0 (by omega) index (by omega)
    exact hfirst (Nat.add_zero index)
  · intro h i _ j hj
    omega

/-! ## Safe answers -/

theorem Valid.shiftsApart (h : d.Valid) (hroom : SafeRoom d.empty)
    (hsize : size ≤ bertShortBuffer / 2) : d.ShiftsApart size := by
  rintro ⟨hmore, hempty⟩
  have hindex := h.index_le
  simp only [SafeRoom, empty, bertShortBuffer] at *
  omega

theorem empty_received (d : Decoder ρ) (mode : DecoderMode ρ) (bytes : List UInt8) :
    ((d.setMode mode).received bytes).empty = d.empty - bytes.length := by
  simp only [empty, received, setMode]
  omega

/-- A read keeps the room safe when its fill leaves safe room. -/
theorem Valid.safeRoom_read (h : d.Valid) (hroom : SafeRoom d.empty)
    (hsafe : ∀ room ≤ bertShortBuffer, allowed room → SafeRoom room)
    (hsize : size ≤ bertShortBuffer / 2) (hleaves : d.Leaves allowed size) :
    SafeRoom (bertDecoderRead d size).2.empty := by
  have hstep := h.readStep size
  generalize bertDecoderRead d size = r at hstep
  cases hstep with
  | enough => exact hroom
  | @filled bytes mode hmore hfill hvalid hunread =>
      rw [h.length_unread] at hmore
      rw [empty_received]
      exact hsafe _ ((Nat.sub_le _ _).trans (Nat.sub_le _ _))
        (hleaves bytes hmore (congrArg Prod.fst hfill))
  | @failed mode hmore hfill hvalid hunread => exact .inr (h.half_le_empty hsize hmore)

/-- A read goes on with the source it read from. -/
theorem Valid.feeds {source : Source ρ} (h : d.Valid)
    (hmode : ∃ s, d.mode = .stream source s ∨ d.mode = .callback source s) :
    ∃ s, (bertDecoderRead d size).2.mode = .stream source s ∨
      (bertDecoderRead d size).2.mode = .callback source s := by
  obtain ⟨s, hmode⟩ := hmode
  have hfill {answer : Option (List UInt8)} {mode : DecoderMode ρ}
      (hfill : d.mode.fill d.ready.empty = (answer, mode)) :
      ∃ s, mode = .stream source s ∨ mode = .callback source s := by
    rcases hmode with hmode | hmode <;> rw [hmode] at hfill <;> cases hfill
    · exact ⟨_, .inl rfl⟩
    · exact ⟨_, .inr rfl⟩
  have hstep := h.readStep size
  generalize bertDecoderRead d size = r at hstep
  cases hstep with
  | enough => exact ⟨s, hmode⟩
  | filled _ hanswer _ _ => exact hfill hanswer
  | failed _ hanswer _ _ => exact hfill hanswer

/-- A decoder whose window keeps safe room, as its own simulation. -/
def safety (hsafe : ∀ room ≤ bertShortBuffer, allowed room → SafeRoom room) :
    Simulation (windowReader (ρ := ρ)) (windowReader (ρ := ρ)) (bertShortBuffer / 2)
      (Leaves allowed) where
  rel avail d e := d = e ∧ d.Valid ∧ SafeRoom d.empty ∧ avail ≤ d.unread.length
  weaken h := ⟨h.1, h.2.1, h.2.2.1, Nat.zero_le _⟩
  read_code h _ _ := by rw [h.1]
  read_ok := by
    rintro avail d _ size ⟨rfl, hvalid, hroom, -⟩ hsize hleaves hcode
    have hstep := hvalid.readStep size
    exact ⟨rfl, hstep.valid hvalid, hvalid.safeRoom_read hroom hsafe hsize hleaves,
      hstep.le_of_success hcode⟩
  read_fail := by
    rintro avail d _ size ⟨rfl, hvalid, hroom, -⟩ hsize hleaves -
    exact ⟨rfl, (hvalid.readStep size).valid hvalid, hvalid.safeRoom_read hroom hsafe hsize hleaves,
      Nat.zero_le _⟩
  peek h _ := by rw [h.1]
  step := by
    rintro avail d _ size ⟨rfl, hvalid, hroom, havail⟩ hsize
    obtain ⟨hvalid', hpromised⟩ := hvalid.step_promised havail hsize
    exact ⟨rfl, hvalid', hroom, hpromised⟩

end Decoder

/-! ## Answers that overlap -/

section Reader

variable [Platform F] {σ : Type} {R : BertReader σ} {s t u : σ} {W : Watch (Event F) σ}

/-- A pull of a binary of 256 bytes asks for all of them behind the length field. -/
theorem onRead_of_along_bin {depth : ℕ} (h : Delivers R s [[bertBin], bigEndian 4 256] t)
    (halong : Along R W (bertDecoderPull (depth + 1) : Decode F _) s) : W.onRead t 256 := by
  obtain ⟨u, htag, hfield⟩ := delivers_cons_split.mp h
  obtain ⟨s', hread, hmagic⟩ := read_then_decodeMagic (F := F) htag
  have hbody : Along R W (pullBody (bertDecoderPull depth) : Decode F _) s :=
    ((along_bind _ _ s).mp halong.2).1
  have hfirst := hbody.2
  rw [hread] at hfirst
  dsimp only at hfirst
  rw [if_pos rfl, along_bind] at hfirst
  have htagged := hfirst.2 _ _ hmagic
  dsimp only at htagged
  rw [if_neg (by decide), along_bind, decodeMagic_bin, bertDecodeBin, along_bind] at htagged
  have htext : Along R W (decodeText .bin 256 : Decode F _) t :=
    htagged.1.2 _ _ (run_decodeUint32 hfield)
  rw [decodeText, if_neg (by decide), along_bind, bertDecodeBytes, decodeBytesLoop,
    if_pos (by decide), along_bind, decodeField, along_bind] at htext
  exact htext.1.1.1.1

theorem Yields.of_read {depth : ℕ} {d : Data F} {ds : List (Data F)}
    (hread : R.read s 1 = (bertSuccess, t))
    (h : Yields R (bertDecoderPull (depth + 1)) t (d :: ds) u) :
    Yields R (bertDecoderPull (depth + 1)) s (d :: ds) u := by
  cases h with
  | cons hpull hrest => exact .cons ((run_pull_of_read hread depth).trans hpull) hrest

omit [Platform F] in
theorem alongRuns_of_yields {pull : Decode F (Result F)} {ds : List (Data F)} {count : ℕ}
    (h : AlongRuns R W pull (ds.length + count) s) (hyields : Yields R pull s ds t) :
    AlongRuns R W pull count t := by
  induction hyields with
  | nil s => simpa using h
  | cons hpull _ ih =>
      rw [List.length_cons, Nat.add_right_comm] at h
      exact ih (h.2 _ _ hpull)

end Reader

section Overlap

variable [Platform F] {source : Source ρ} {s : ρ} {stream : Bool} {room depth : ℕ}

/-- `BERT_NIL` bytes and the first bytes of a binary, as many as leave the room. -/
def overlapping (room : ℕ) : List UInt8 :=
  List.replicate (251 - room + 1) bertNil ++ ([bertBin] ++ (bigEndian 4 256 ++
    List.replicate (506 - room - (251 - room)) 0))

theorem length_overlapping (hroom : room < bertShortBuffer / 2) :
    (overlapping room).length = bertShortBuffer - room := by
  simp only [overlapping, List.length_append, List.length_replicate, List.length_cons,
    List.length_nil, length_bigEndian, bertShortBuffer] at *
  omega

/-- The first read of a fresh decoder fills the window with the first answer. -/
theorem exists_read_fresh (stream : Bool) {bytes : List UInt8}
    (hanswer : (source.read s bertShortBuffer).1 = some bytes) (hbytes : bytes ≠ []) :
    ∃ e, windowReader.read (freshDecoder stream source s) 1 = (bertSuccess, e) ∧ e.Valid ∧
      e.unread = bytes ∧ e.shortLength = bytes.length := by
  have hvalid : (freshDecoder stream source s).Valid := by cases stream <;> exact valid_fresh _
  have hempty : (freshDecoder stream source s).unread = [] := by cases stream <;> rfl
  have hready : (freshDecoder stream source s).ready = freshDecoder stream source s := by
    cases stream <;> rfl
  have hfill : ((freshDecoder stream source s).mode.fill
      (freshDecoder stream source s).ready.empty).1 = some bytes := by
    rw [hready]
    cases stream <;> exact hanswer
  obtain ⟨mode, hmode⟩ : ∃ mode, (freshDecoder stream source s).mode.fill
      (freshDecoder stream source s).ready.empty = (some bytes, mode) := ⟨_, Prod.ext hfill rfl⟩
  have hpos := List.length_pos_iff.mpr hbytes
  have hmore : (freshDecoder stream source s).unread.length < 1 := by simp [hempty]
  obtain ⟨hread, hvalid', hunread⟩ :=
    hvalid.read_of_fill hmore hmode (DecoderMode.length_le_of_fill hmode)
  refine ⟨_, hread.trans ?_, hvalid', by rw [hunread, hempty, List.nil_append], ?_⟩
  · rw [Decoder.receiveCode, if_neg (by omega), if_neg (by rw [hempty]; simp; omega)]
  · rw [hready]
    cases stream <;> exact Nat.zero_add _

/-- A first answer that leaves other than safe room can be followed by a shift onto
itself. -/
theorem not_alongRuns_of_overlapping (hlow : 2 < room) (hhigh : room < bertShortBuffer / 2)
    (hanswer : (source.read s bertShortBuffer).1 = some (overlapping room)) :
    ¬ AlongRuns windowReader { onRead := Decoder.ShiftsApart }
      (bertDecoderPull (depth + 1) : Decode F _) (251 - room + 1 + 1)
      (freshDecoder stream source s) := by
  intro halong
  obtain ⟨e, hread, hvalid, hunread, hlength⟩ :=
    exists_read_fresh stream hanswer (by simp [overlapping])
  rw [length_overlapping hhigh] at hlength
  obtain ⟨e', hyields, hvalid', hunread', -, hlength'⟩ :=
    hvalid.yields_nils (F := F) hunread depth
  obtain ⟨e'', hdelivers, hvalid'', hunread'', -, hlength''⟩ :=
    hvalid'.delivers [[bertBin], bigEndian 4 256] hunread'
  have hruns : AlongRuns windowReader { onRead := Decoder.ShiftsApart }
      (bertDecoderPull (depth + 1) : Decode F _)
      ((List.replicate (251 - room + 1) (.nil : Data F)).length + 1)
      (freshDecoder stream source s) := by
    rwa [List.length_replicate]
  have hnext := alongRuns_of_yields hruns (Yields.of_read hread hyields)
  have hapart := onRead_of_along_bin hdelivers hnext.1
  have hleft := hvalid''.length_unread
  rw [hunread'', List.length_replicate, hlength'', hlength', hlength] at hleft
  have hshifts : e''.Shifts 256 := by
    refine ⟨by rw [hlength'', hlength', hlength, ← hleft]; omega, ?_⟩
    rw [Decoder.empty, hlength'', hlength', hlength]
    simp only [bertShortBuffer] at *
    omega
  have hle := hapart hshifts
  rw [hlength'', hlength', hlength] at hle
  simp only [bertShortBuffer] at *
  omega

end Overlap

/-! ## Every run -/

/-- A decoder reads from the source. -/
def Source.feeds (source : Source ρ) :
    Invariant (windowReader (ρ := ρ)) (bertShortBuffer / 2) where
  Holds avail d := d.Valid ∧ avail ≤ d.unread.length ∧
    ∃ s, d.mode = .stream source s ∨ d.mode = .callback source s
  weaken h := ⟨h.1, Nat.zero_le _, h.2.2⟩
  read_ok {avail d size} h _ hcode :=
    ⟨(h.1.readStep size).valid h.1, (h.1.readStep size).le_of_success hcode, h.1.feeds h.2.2⟩
  read_fail {avail d size} h _ _ := ⟨(h.1.readStep size).valid h.1, Nat.zero_le _, h.1.feeds h.2.2⟩
  step {avail d size} h hsize := by
    obtain ⟨hvalid, hpromised⟩ := h.1.step_promised h.2.1 hsize
    exact ⟨hvalid, hpromised, h.2.2⟩

/-- A source whose answers leave allowed room does so in every run. -/
theorem alongRuns_leaves [Platform F] {allowed : ℕ → Prop} {source : Source ρ}
    (hallowed : ∀ s space bytes, (source.read s space).1 = some bytes →
      allowed (space - bytes.length)) (stream : Bool) (s : ρ) (depth count : ℕ) :
    AlongRuns windowReader { onRead := Decoder.Leaves allowed }
      (bertDecoderPull depth : Decode F _) count (freshDecoder stream source s) := by
  have hallows : source.feeds.Allows
      ({ onRead := Decoder.Leaves allowed } : Watch (Event F) (Decoder ρ)) := by
    refine ⟨?_, fun _ _ ↦ trivial, fun _ _ ↦ trivial, fun _ _ ↦ trivial, fun _ ↦ trivial,
      fun _ ↦ trivial⟩
    rintro avail d size ⟨-, -, s, hmode | hmode⟩ - bytes - hbytes <;> rw [hmode] at hbytes <;>
      exact hallowed s d.ready.empty bytes hbytes
  refine Invariant.alongRuns hallows (fun _ ↦ trivial) (disciplined_bertDecoderPull depth) count ?_
  cases stream
  · exact ⟨valid_fresh _, Nat.zero_le _, s, .inr rfl⟩
  · exact ⟨valid_fresh _, Nat.zero_le _, s, .inl rfl⟩

/-- The source that answers the first request for a whole window and then fails. -/
def Source.once (bytes : List UInt8) : Source Bool where
  read first space :=
    if first ∧ space = bertShortBuffer then (some (bytes.take space), false) else (none, false)
  read_length_le first space answer h := by
    split_ifs at h
    cases h
    exact List.length_take_le space bytes

theorem Source.once_read (bytes : List UInt8) (first : Bool) (space : ℕ) :
    ((Source.once bytes).read first space).1 =
      if first ∧ space = bertShortBuffer then some (bytes.take space) else none := by
  by_cases h : first ∧ space = bertShortBuffer
  · rw [if_pos h, Source.once]
    exact congrArg Prod.fst (if_pos h)
  · rw [if_neg h, Source.once]
    exact congrArg Prod.fst (if_neg h)

/-- In every run whose answers leave room that is allowed, the shifts copy between
disjoint ranges, exactly when at most two bytes or at least half of the window are
allowed to be left empty. -/
theorem shifts_apart_iff [Platform F] (allowed : ℕ → Prop) :
    (∀ (ρ : Type) (source : Source ρ) (s : ρ) (stream : Bool) (depth count : ℕ),
      AlongRuns windowReader { onRead := Decoder.Leaves allowed }
          (bertDecoderPull depth : Decode F _) count (freshDecoder stream source s) →
        AlongRuns windowReader { onRead := Decoder.ShiftsApart }
          (bertDecoderPull depth : Decode F _) count (freshDecoder stream source s)) ↔
      ∀ room ≤ bertShortBuffer, allowed room → Decoder.SafeRoom room := by
  constructor
  · intro h room hle hroom
    by_contra hunsafe
    obtain ⟨hlow, hhigh⟩ := not_or.mp hunsafe
    have hlength := length_overlapping (Nat.lt_of_not_le hhigh)
    have hall : (overlapping room).take bertShortBuffer = overlapping room :=
      List.take_of_length_le (hlength.trans_le (Nat.sub_le _ _))
    have hanswer : ((Source.once (overlapping room)).read true bertShortBuffer).1 =
        some (overlapping room) := by
      rw [Source.once_read, if_pos ⟨rfl, rfl⟩, hall]
    refine not_alongRuns_of_overlapping (Nat.lt_of_not_le hlow) (Nat.lt_of_not_le hhigh) hanswer
      (h Bool _ true false 1 _ (alongRuns_leaves ?_ false true 1 _))
    intro first space bytes hbytes
    rw [Source.once_read, Option.ite_none_right_eq_some, Option.some.injEq] at hbytes
    obtain ⟨⟨-, rfl⟩, rfl⟩ := hbytes
    rw [hall, hlength, Nat.sub_sub_self hle]
    exact hroom
  · intro hsafe ρ source s stream depth count hleaves
    refine (Decoder.safety hsafe).alongRuns_of_ample
      (fun hrel hsize ↦ hrel.2.1.shiftsApart hrel.2.2.1 hsize)
      (disciplined_bertDecoderPull depth) (t := freshDecoder stream source s) ?_ hleaves
    cases stream
    · exact ⟨rfl, valid_fresh _, .inr (Nat.le_of_ble_eq_true rfl), Nat.zero_le _⟩
    · exact ⟨rfl, valid_fresh _, .inr (Nat.le_of_ble_eq_true rfl), Nat.zero_le _⟩

/-- A source that hands out 257 bytes at a time: a `nil` and the start of a binary. -/
theorem shift_overlaps :
    ¬ ∀ (ρ : Type) (source : SlicedSource ρ) (s : ρ) (stream : Bool) (depth count : ℕ),
      AlongRuns windowReader { onRead := Decoder.ShiftsApart }
        (bertDecoderPull depth : Decode Empty _) count
        (freshDecoder stream source.toSource s) := by
  intro h
  have hlength : (overlapping 255).length = 257 := length_overlapping (by decide)
  have hanswer : ((SlicedSource.ofList 257 (by decide)).toSource.read (overlapping 255)
      bertShortBuffer).1 = some (overlapping 255) :=
    congrArg some (List.take_of_length_le hlength.le)
  exact not_alongRuns_of_overlapping (by decide) (by decide) hanswer
    (h _ (SlicedSource.ofList 257 (by decide)) (overlapping 255) false 1 _)

end LibBert
