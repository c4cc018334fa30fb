import LibBert.Decoder.Answers
import LibBert.Decoder.Switch

/-!
# What a switch leaves behind

A byte that is left unread is decoded in front of the buffer, and a window with
room for only part of the buffer reads that part and then the buffer from its
start again.  Some buffer of any given length shows it, so a switch is clean
only where neither is the case.  Times made of a container's pointer are set aside.
-/

namespace LibBert

open Reading Bytes

variable {F ρ : Type} [Platform F] {d : Decoder ρ}

/-- With nothing unread the next byte is the first of the buffer, as long as the
index has not reached its end. -/
theorem Decoder.Valid.first_byte (h : d.Valid) (hempty : d.unread = []) {first : UInt8}
    {rest : List UInt8} {length index : ℕ} (hmode : d.mode = .buffer (first :: rest) length index)
    (hindex : index < length) :
    ∃ e t, windowReader.read d 1 = (bertSuccess, e) ∧ Delivers windowReader e [[first]] t := by
  have hroom := h.ready_shortLength_le (by simp [hempty])
  obtain ⟨count, hcount⟩ : ∃ count, min (length - index) d.ready.empty = count + 1 :=
    ⟨min (length - index) d.ready.empty - 1, by
      simp only [Decoder.empty, bertShortBuffer] at *
      omega⟩
  obtain ⟨e, hread, hvalid, hunread, -, -⟩ := h.refill hempty hmode hcount (Nat.succ_pos _)
  obtain ⟨t, hdelivers, -⟩ := hvalid.delivers [[first]] hunread
  exact ⟨e, t, hread, hdelivers⟩

theorem exists_delivers_fresh {chunks : List (List UInt8)} (rest : List UInt8)
    (hpos : 0 < chunks.flatten.length) (hfits : chunks.flatten.length ≤ bertShortBuffer) :
    ∃ e t, windowReader.read (bertDecoderBuffer (bertDecoderCreate : Decoder ρ)
        (chunks.flatten ++ rest) (chunks.flatten ++ rest).length) 1 = (bertSuccess, e) ∧
      Delivers windowReader e chunks t := by
  obtain ⟨count, hcount⟩ :
      ∃ count, min ((chunks.flatten ++ rest).length - 0) bertShortBuffer = count := ⟨_, rfl⟩
  have hle : chunks.flatten.length ≤ count := by
    rw [← hcount, List.length_append]
    omega
  have htake : (chunks.flatten ++ rest).take count =
      chunks.flatten ++ rest.take (count - chunks.flatten.length) := by
    rw [List.take_append, List.take_of_length_le hle]
  have hvalid : (bertDecoderBuffer (bertDecoderCreate : Decoder ρ) (chunks.flatten ++ rest)
    (chunks.flatten ++ rest).length).Valid := valid_fresh _
  obtain ⟨e, hread, hvalid', hunread, -, -⟩ := hvalid.refill rfl rfl hcount (by
    rw [htake, List.length_append]
    omega)
  obtain ⟨t, hdelivers, -⟩ := hvalid'.delivers chunks (hunread.trans htake)
  exact ⟨e, t, hread, hdelivers⟩

theorem exists_run_fresh {w : Wire} {x : Data F} {depth : ℕ} (rest : List UInt8)
    (hfits : w.bytes.length ≤ bertShortBuffer) (hdenote : w.denote = some x)
    (hdepth : w.height ≤ depth) :
    ∃ t, run windowReader (bertDecoderPull (depth + 1))
      (bertDecoderBuffer (bertDecoderCreate : Decoder ρ) (w.bytes ++ rest)
        (w.bytes ++ rest).length) = .done (1, some x) t := by
  have hheight := w.height_lt_length_bytes
  obtain ⟨e, t, hread, hdelivers⟩ := exists_delivers_fresh (ρ := ρ) rest (by
    change 0 < w.bytes.length
    omega) hfits
  exact ⟨t, (run_pull_of_read hread depth).trans
    (run_bertDecoderPull_of_delivers (Nat.lt_succ_of_le hdepth) hdenote hdelivers)⟩

/-! ## Bytes left unread -/

theorem eq_nil_of_pull_eq_zero {rest rest' : List UInt8} {depth : ℕ} {data : Option (Data F)}
    (hrun : run plainReader (bertDecoderPull depth) rest = .done (0, data) rest') : rest = [] := by
  have hempty := read_eq_empty_of_pull hrun
  rw [plainReader_read] at hempty
  dsimp only at hempty
  split_ifs at hempty with hle hnil
  · exact absurd hempty (by decide)
  · exact List.length_eq_zero_iff.mp hnil
  · exact absurd hempty (by decide)

/-- A plain input that ends in `BERT_NIL` and is pulled as one `nil` is that
byte, marked or not: the complex term ends in the last letter of its keyword. -/
theorem eq_of_pull_eq_nil {unread : List UInt8} {depth : ℕ}
    (hrun : run plainReader (bertDecoderPull (depth + 1)) (unread ++ [bertNil]) =
      .done (1, some (.nil : Data F)) []) : unread = [] ∨ unread = [bertMagic] := by
  obtain ⟨tag, t, htag⟩ := exists_tagged_of_pull hrun
  rcases htag.of_nil hrun with ⟨-, rfl⟩ | ⟨o, v, -, hsize, hyields⟩
  · rcases htag with ⟨-, hdelivers⟩ | hdelivers
    · have hunread : unread ++ [bertNil] = [] ++ [tag] := plainReader_delivers_iff.mp hdelivers
      exact .inl (List.append_inj' hunread rfl).1
    · have hunread : unread ++ [bertNil] = [bertMagic] ++ [tag] :=
        plainReader_delivers_iff.mp hdelivers
      exact .inr (List.append_inj' hunread rfl).1
  · obtain ⟨v', hbert, hrest⟩ := yields_cons_iff.mp hyields
    obtain ⟨v'', hnil, hend⟩ := yields_cons_iff.mp hrest
    obtain rfl := yields_nil_iff.mp hend
    obtain ⟨chunks, -, hdelivers, -⟩ := exists_delivers_of_atom hbert
    obtain ⟨chunks', front, hdelivers', hflatten⟩ := exists_delivers_of_atom hnil
    obtain ⟨start, hstart⟩ : ∃ start, unread ++ [bertNil] = start ++ t := by
      rcases htag with ⟨-, htag⟩ | htag
      · exact ⟨_, plainReader_delivers_iff.mp htag⟩
      · exact ⟨_, plainReader_delivers_iff.mp htag⟩
    rw [plainReader_delivers_iff] at hsize hdelivers hdelivers'
    have hlast : unread ++ [bertNil] =
        (start ++ [o.size].flatten ++ chunks.flatten ++ front ++ [110, 105]) ++ [108] := by
      rw [hstart, hsize, hdelivers, hdelivers', hflatten]
      simp [cString]
    exact absurd (List.append_inj' hlast rfl).2 (by decide)

section Unread

variable {n : ℕ}

theorem SwitchesCleanly.plain (h : SwitchesCleanly F d n) (hvalid : d.Valid)
    (hshort : n ≤ bertShortBuffer / 2) (buffer : List UInt8) (hlength : buffer.length = n)
    (count : ℕ) :
    pulls (F := F) plainReader (fun _ ↦ ()) (d.unread.length + n + 1) count (d.unread ++ buffer) =
      pulls plainReader (fun _ ↦ ()) (d.unread.length + n + 1) count buffer := by
  subst hlength
  have hfresh : (bertDecoderCreate : Decoder ρ).Valid := valid_fresh .none
  have hsame := h buffer rfl (d.unread.length + buffer.length + 1) (Nat.lt_succ_self _) count
  rw [pulls_appended hvalid (.inl hshort), pulls_appended hfresh (.inl hshort)] at hsame
  exact hsame

theorem SwitchesCleanly.unread_of_zero (h : SwitchesCleanly F d 0) (hvalid : d.Valid) :
    d.unread = [] := by
  have hsame := h.plain hvalid (Nat.zero_le _) [] rfl 1
  obtain ⟨rest, hrun, -⟩ := exists_run_of_runs_eq hsame (a := ((0, none) : Result F)) rfl
  simpa using eq_nil_of_pull_eq_zero hrun

theorem SwitchesCleanly.unread_of_one (h : SwitchesCleanly F d 1) (hvalid : d.Valid) :
    d.unread = [] := by
  have hnil := h.plain hvalid (by decide) [bertNil] rfl 2
  have hfresh : run plainReader (bertDecoderPull (d.unread.length + 1 + 1)) [bertNil] =
      .done ((1, some .nil) : Result F) [] := rfl
  obtain ⟨rest, hrun, hrest⟩ := exists_run_of_runs_eq hnil hfresh
  obtain ⟨rest', hrun', -⟩ := exists_run_of_runs_eq hrest (a := ((0, none) : Result F)) rfl
  obtain rfl := eq_nil_of_pull_eq_zero hrun'
  refine (eq_of_pull_eq_nil hrun).resolve_right fun hmark ↦ ?_
  -- a second mark is refused, a mark alone is a short read
  have hmagic := h.plain hvalid (by decide) [bertMagic] rfl 1
  rw [hmark] at hmagic
  have hleft : pulls (F := F) plainReader (fun _ ↦ ()) 3 1 [bertMagic, bertMagic] =
      [.done (bertErrnoInvalid, none) ()] := rfl
  have hright : pulls (F := F) plainReader (fun _ ↦ ()) 3 1 [bertMagic] =
      [.done (bertErrnoShortRead, none) ()] := rfl
  have hcodes := hleft.symm.trans (hmagic.trans hright)
  simp only [List.cons.injEq, Outcome.done.injEq, Prod.mk.injEq] at hcodes
  exact absurd hcodes.1.1.1 (by decide)

/-- Behind unread bytes that are more than a mark, the first magic byte does not
depend on the buffer. -/
theorem exists_tagged_switched (hvalid : d.Valid) (hunread : d.unread ≠ [])
    (hmark : d.unread ≠ [bertMagic]) :
    ∃ tag, ∀ buffer n, ∃ t, Tagged windowReader (bertDecoderBuffer d buffer n) tag t := by
  obtain ⟨first, rest, hfirst⟩ := List.exists_cons_of_ne_nil hunread
  by_cases hmagic : first = bertMagic
  · subst hmagic
    obtain ⟨tag, rest, rfl⟩ := List.exists_cons_of_ne_nil fun hrest : rest = [] ↦
      hmark (hrest ▸ hfirst)
    refine ⟨tag, fun buffer n ↦ ?_⟩
    obtain ⟨hvalid', hunread'⟩ := hvalid.switched buffer n
    obtain ⟨t, hdelivers, -⟩ :=
      hvalid'.delivers [[bertMagic], [tag]] (hunread'.trans hfirst)
    exact ⟨t, .inr hdelivers⟩
  · refine ⟨first, fun buffer n ↦ ?_⟩
    obtain ⟨hvalid', hunread'⟩ := hvalid.switched buffer n
    obtain ⟨t, hdelivers, -⟩ := hvalid'.delivers [[first]] (hunread'.trans hfirst)
    exact ⟨t, .inl ⟨hmagic, hdelivers⟩⟩

/-- A mark that was left unread and the one a buffer starts with are refused. -/
theorem exists_run_of_marks (hvalid : d.Valid) (hmark : d.unread = [bertMagic])
    (rest : List UInt8) (depth : ℕ) :
    ∃ t, run windowReader (bertDecoderPull (depth + 1))
      (bertDecoderBuffer d (bertMagic :: rest) (rest.length + 1)) =
        .done ((bertErrnoInvalid, none) : Result F) t := by
  obtain ⟨hvalid', hunread⟩ := hvalid.switched (bertMagic :: rest) (rest.length + 1)
  obtain ⟨e, hdelivers, hvalid, hunread, hmode, -⟩ :=
    hvalid'.delivers [[bertMagic]] (hunread.trans hmark)
  obtain ⟨e', t, hread, hsecond⟩ := hvalid.first_byte hunread hmode (Nat.succ_pos _)
  have hboth : Delivers windowReader (bertDecoderBuffer d (bertMagic :: rest) (rest.length + 1))
      [[bertMagic], [bertMagic]] t :=
    delivers_append_iff.mpr ⟨e, hdelivers, (delivers_after_read rfl hread).mp hsecond⟩
  have htagged : Tagged windowReader _ bertMagic t := .inr hboth
  exact ⟨t, htagged.run_pull depth⟩

theorem SwitchesCleanly.exists_run (h : SwitchesCleanly F d n) {w : Wire} {x : Data F}
    (rest : List UInt8) (hlength : (w.bytes ++ rest).length = n)
    (hfits : w.bytes.length ≤ bertShortBuffer) (hdenote : w.denote = some x)
    (hdepth : w.height ≤ d.unread.length + n) :
    ∃ t, run windowReader (bertDecoderPull (d.unread.length + n + 1))
      (bertDecoderBuffer d (w.bytes ++ rest) n) = .done (1, some x) t := by
  subst hlength
  obtain ⟨t, hfresh⟩ := exists_run_fresh (ρ := ρ) rest hfits hdenote hdepth
  obtain ⟨t', hrun, -⟩ := exists_run_of_runs_eq (h _ rfl _ (Nat.lt_succ_self _) 1) hfresh
  exact ⟨t', hrun⟩

theorem SwitchesCleanly.unread_of_two (h : SwitchesCleanly F d n) (hvalid : d.Valid)
    (hn : 2 ≤ n) : d.unread = [] := by
  by_contra hunread
  obtain ⟨k, rfl⟩ : ∃ k, n = k + 2 := ⟨n - 2, by omega⟩
  by_cases hmark : d.unread = [bertMagic]
  · obtain ⟨t, hrun⟩ := h.exists_run (w := .marked .nil) (List.replicate k 0)
      (by simp [Wire.bytes, Wire.chunks]) (by decide) rfl (Nat.zero_le _)
    obtain ⟨t', hrun'⟩ := exists_run_of_marks (F := F) hvalid hmark
      (bertNil :: List.replicate k 0) (d.unread.length + (k + 2))
    rw [List.length_cons, List.length_replicate] at hrun'
    cases hrun'.symm.trans hrun
  · obtain ⟨tag, htag⟩ := exists_tagged_switched hvalid hunread hmark
    obtain ⟨t, hrun⟩ := h.exists_run (w := .nil) (List.replicate (k + 1) 0)
      (by simp [Wire.bytes, Wire.chunks]) (by decide) rfl (Nat.zero_le _)
    obtain ⟨t₁, htagged⟩ := htag (Wire.nil.bytes ++ List.replicate (k + 1) 0) (k + 2)
    rcases htagged.of_nil hrun with ⟨rfl, -⟩ | ⟨o, -, rfl, -, -⟩
    · -- a `BERT_NIL` is answered with `nil` whatever the buffer
      have hvalid' : (bertDecoderBuffer (bertDecoderCreate : Decoder ρ)
        (List.replicate (k + 2) 0) (k + 2)).Valid := valid_fresh _
      obtain ⟨e, t, hread, hdelivers⟩ := hvalid'.first_byte rfl rfl (Nat.succ_pos _)
      have hzero : Tagged windowReader e 0 t := .inl ⟨by decide, hdelivers⟩
      have hfresh := (run_pull_of_read (F := F) hread _).trans
        (hzero.run_pull (d.unread.length + (k + 2)))
      obtain ⟨t', hrun', -⟩ := exists_run_of_runs_eq (a := ((bertErrnoInvalid, none) : Result F))
        (h _ List.length_replicate _ (Nat.lt_succ_self _) 1) hfresh
      obtain ⟨t₂, htagged'⟩ := htag (List.replicate (k + 2) 0) (k + 2)
      cases (htagged'.run_pull (F := F) _).symm.trans hrun'
    · obtain ⟨t, hrun'⟩ := h.exists_run (w := .smallInt 0) (List.replicate k 0)
        (by simp [Wire.bytes, Wire.chunks]) (by decide) rfl (Nat.zero_le _)
      obtain ⟨t₂, htagged'⟩ := htag ((Wire.smallInt 0).bytes ++ List.replicate k 0) (k + 2)
      exact htagged'.not_int hrun'

theorem SwitchesCleanly.unread_eq_nil (h : SwitchesCleanly F d n) (hvalid : d.Valid) :
    d.unread = [] := by
  by_cases hn : 2 ≤ n
  · exact h.unread_of_two hvalid hn
  · obtain rfl | rfl : n = 0 ∨ n = 1 := by omega
    · exact h.unread_of_zero hvalid
    · exact h.unread_of_one hvalid

end Unread

/-! ## The fill of the window -/

theorem Decoder.Valid.yields_nils (h : d.Valid) {count : ℕ} {rest : List UInt8}
    (hunread : d.unread = List.replicate count bertNil ++ rest) (depth : ℕ) :
    ∃ d', Yields windowReader (bertDecoderPull (depth + 1)) d
        (List.replicate count (.nil : Data F)) d' ∧
      d'.Valid ∧ d'.unread = rest ∧ d'.mode = d.mode ∧ d'.shortLength = d.shortLength := by
  induction count generalizing d with
  | zero => exact ⟨d, .nil d, h, hunread, rfl, rfl⟩
  | succ count ih =>
      obtain ⟨e, hdelivers, hvalid, hunread', hmode, hlength⟩ :=
        h.delivers [[bertNil]] hunread
      obtain ⟨d', hyields, hvalid', hrest, hmode', hlength'⟩ := ih hvalid hunread'
      have hpull : run windowReader (bertDecoderPull (depth + 1)) d =
          .done ((1, some .nil) : Result F) e :=
        run_bertDecoderPull_of_delivers (w := .nil) (Nat.succ_pos depth) rfl hdelivers
      exact ⟨d', .cons hpull hyields, hvalid', hrest, hmode'.trans hmode, hlength'.trans hlength⟩

/-- A fresh decoder gets to the zero byte behind less than a window of
`BERT_NIL` bytes. -/
theorem exists_yields_fresh {room : ℕ} (hroom : room < bertShortBuffer) {buffer rest : List UInt8}
    (hbuffer : buffer = List.replicate room bertNil ++ 0 :: rest) (depth : ℕ) :
    ∃ e e' t, windowReader.read
        (bertDecoderBuffer (bertDecoderCreate : Decoder ρ) buffer buffer.length) 1 =
          (bertSuccess, e) ∧
      Yields windowReader (bertDecoderPull (depth + 1)) e (List.replicate room (.nil : Data F)) e' ∧
      Tagged windowReader e' 0 t := by
  have hlength : buffer.length = room + (rest.length + 1) := by simp [hbuffer]
  obtain ⟨count, hcount⟩ : ∃ count, min (buffer.length - 0) bertShortBuffer = room + (count + 1) :=
    ⟨min (buffer.length - 0) bertShortBuffer - (room + 1), by omega⟩
  have htake : buffer.take (room + (count + 1)) =
      List.replicate room bertNil ++ 0 :: rest.take count := by
    rw [hbuffer, List.take_append, List.length_replicate, Nat.add_sub_cancel_left,
      List.take_succ_cons, List.take_of_length_le (by simp)]
  have hvalid : (bertDecoderBuffer (bertDecoderCreate : Decoder ρ) buffer buffer.length).Valid :=
    valid_fresh _
  obtain ⟨e, hread, hvalid', hunread, -⟩ := hvalid.refill rfl rfl hcount (by simp [htake])
  obtain ⟨e', hyields, hvalid'', hunread', -⟩ :=
    hvalid'.yields_nils (F := F) (hunread.trans htake) depth
  obtain ⟨t, hdelivers, -⟩ := hvalid''.delivers [[0]] hunread'
  exact ⟨e, e', t, hread, hyields, .inl ⟨by decide, hdelivers⟩⟩

/-- A window with room for only part of the buffer reads that part, and then the
buffer from its start again. -/
theorem exists_yields_switched (hvalid : d.Valid) (hempty : d.unread = []) {room : ℕ}
    (hroom : room + d.shortLength = bertShortBuffer)
    (hhalf : d.shortLength ≤ bertShortBuffer / 2) {buffer rest : List UInt8}
    (hbuffer : buffer = List.replicate room bertNil ++ 0 :: rest) (depth : ℕ) :
    ∃ e e' e'' t,
      windowReader.read (bertDecoderBuffer d buffer buffer.length) 1 = (bertSuccess, e) ∧
      Yields windowReader (bertDecoderPull (depth + 1)) e (List.replicate room (.nil : Data F)) e' ∧
      windowReader.read e' 1 = (bertSuccess, e'') ∧ Tagged windowReader e'' bertNil t := by
  have hlength : buffer.length = room + (rest.length + 1) := by simp [hbuffer]
  have hpos : 0 < room := by
    simp only [bertShortBuffer] at *
    omega
  have htake : buffer.take room = List.replicate room bertNil := by
    rw [hbuffer, List.take_left' List.length_replicate]
  obtain ⟨hswitched, hunread⟩ := hvalid.switched buffer buffer.length
  have hready : (bertDecoderBuffer d buffer buffer.length).ready.shortLength = d.shortLength := by
    rw [hswitched.ready_shortLength, if_pos]
    · rfl
    · change bertShortBuffer / 2 ≤ bertShortBuffer - d.shortLength
      simp only [bertShortBuffer] at *
      omega
  have hcount : min (buffer.length - 0)
      (bertDecoderBuffer d buffer buffer.length).ready.empty = room := by
    rw [Decoder.empty, hready]
    omega
  obtain ⟨e, hread, hvalid', hunread', hmode, -⟩ :=
    hswitched.refill (hunread.trans hempty) rfl hcount (by simpa [htake] using hpos)
  rw [htake] at hunread'
  obtain ⟨e', hyields, hvalid'', hunread'', hmode', -⟩ :=
    hvalid'.yields_nils (F := F) (hunread'.trans (List.append_nil _).symm) depth
  obtain ⟨k, rfl⟩ : ∃ k, room = k + 1 := ⟨room - 1, by omega⟩
  have hstart : buffer = bertNil :: buffer.drop 1 := by
    rw [hbuffer]
    rfl
  have hindex : (0 + (k + 1)) % 2 ^ 32 < buffer.length :=
    (Nat.mod_le _ _).trans_lt (by omega)
  rw [hmode] at hmode'
  nth_rewrite 1 [hstart] at hmode'
  obtain ⟨e'', t, hread', hdelivers⟩ := hvalid''.first_byte hunread'' hmode' hindex
  exact ⟨e, e', e'', t, hread, hyields, hread', .inl ⟨by decide, hdelivers⟩⟩

/-- A window that holds bytes and is not shifted has to have room for the whole
buffer. -/
theorem SwitchesCleanly.fits {n : ℕ} (h : SwitchesCleanly F d n) (hvalid : d.Valid)
    (hempty : d.unread = []) (hpos : 0 < d.shortLength)
    (hhalf : d.shortLength ≤ bertShortBuffer / 2) : n + d.shortLength ≤ bertShortBuffer := by
  by_contra hlong
  obtain ⟨room, hroom⟩ : ∃ room, room + d.shortLength = bertShortBuffer :=
    ⟨bertShortBuffer - d.shortLength, by simp only [bertShortBuffer] at *; omega⟩
  obtain ⟨left, rfl⟩ : ∃ left, n = room + (left + 1) := ⟨n - room - 1, by omega⟩
  obtain ⟨buffer, hbuffer⟩ : ∃ buffer : List UInt8,
      buffer = List.replicate room bertNil ++ 0 :: List.replicate left 0 := ⟨_, rfl⟩
  have hlength : buffer.length = room + (left + 1) := by simp [hbuffer]
  have hsame := h buffer hlength _ (Nat.lt_succ_self _)
    ((List.replicate room (.nil : Data F)).length + 1)
  obtain ⟨e, e', t, hread, hyields, hzero⟩ :=
    exists_yields_fresh (F := F) (ρ := ρ) (show room < bertShortBuffer by omega) hbuffer
      (d.unread.length + (room + (left + 1)))
  obtain ⟨c, c', c'', u, hread', hyields', hagain, hnil⟩ :=
    exists_yields_switched (F := F) hvalid hempty hroom hhalf hbuffer
      (d.unread.length + (room + (left + 1)))
  rw [hlength] at hread hread'
  rw [pulls, pulls, runs_of_read hread, runs_of_read hread', runs_of_yields hyields,
    runs_of_yields hyields'] at hsame
  obtain ⟨s', hrun, -⟩ := exists_run_of_runs_eq (List.append_cancel_left hsame)
    (a := ((bertErrnoInvalid, none) : Result F)) (hzero.run_pull _)
  rw [run_pull_of_read hagain, hnil.run_pull] at hrun
  cases hrun

/-! ## Clean switches -/

/-- Behind a switch a decoder that any source and pulls have left behind decodes
every buffer of `n` bytes like a fresh one exactly when nothing is unread and
the window is empty, more than half full, or has room for the buffer. -/
theorem switchesCleanly_iff (hreached : Reached F d) (n : ℕ) :
    SwitchesCleanly F d n ↔
      d.unread = [] ∧
        (d.shortLength = 0 ∨ bertShortBuffer / 2 < d.shortLength ∨
          n + d.shortLength ≤ bertShortBuffer) := by
  have hvalid := hreached.valid
  constructor
  · intro h
    have hempty := h.unread_eq_nil hvalid
    refine ⟨hempty, ?_⟩
    rcases Nat.eq_zero_or_pos d.shortLength with hzero | hpos
    · exact .inl hzero
    rcases Nat.lt_or_ge (bertShortBuffer / 2) d.shortLength with hmore | hhalf
    · exact .inr (.inl hmore)
    · exact .inr (.inr (h.fits hvalid hempty hpos hhalf))
  · exact fun h ↦ switchesCleanly_of_fill hvalid h.1 h.2

/-- One of two `BERT_NIL` bytes is left unread. -/
theorem switchesCleanly_iff_leftover :
    ∃ d : Decoder (List UInt8), d.unread = [bertNil] ∧
      (SwitchesCleanly Empty d 2 ↔
        d.unread = [] ∧
          (d.shortLength = 0 ∨ bertShortBuffer / 2 < d.shortLength ∨
            2 + d.shortLength ≤ bertShortBuffer)) := by
  obtain ⟨d, hrun, hunread⟩ : ∃ d : Decoder (List UInt8),
      run windowReader (bertDecoderPull 3)
        (bertDecoderBuffer bertDecoderCreate [bertNil, bertNil] 2) =
          .done ((1, some .nil) : Result Empty) d ∧ d.unread = [bertNil] := ⟨_, rfl, rfl⟩
  exact ⟨d, hunread, switchesCleanly_iff (.pull (.buffer _ _ .create) hrun) 2⟩

/-- It is pulled in front of the integer in the next buffer. -/
theorem leftover_before_buffer :
    ¬ ∀ d : Decoder (List UInt8), Reached Empty d → ∀ n, SwitchesCleanly Empty d n := by
  intro h
  obtain ⟨d, hrun, hunread, hleft⟩ : ∃ d : Decoder (List UInt8),
      run windowReader (bertDecoderPull 3)
        (bertDecoderBuffer bertDecoderCreate [bertNil, bertNil] 2) =
          .done ((1, some .nil) : Result Empty) d ∧
      d.unread.length + 2 < 4 ∧
      pulls windowReader (fun _ ↦ ()) 4 1 (bertDecoderBuffer d [bertSmallInt, 5] 2) =
        [.done ((1, some .nil) : Result Empty) ()] := ⟨_, rfl, by decide, rfl⟩
  have hfresh : pulls windowReader (fun _ ↦ ()) 4 1
      (bertDecoderBuffer (bertDecoderCreate : Decoder (List UInt8)) [bertSmallInt, 5] 2) =
        [.done ((1, some (.int 5)) : Result Empty) ()] := rfl
  have hsame := h d (.pull (.buffer _ _ .create) hrun) 2 [bertSmallInt, 5] rfl 4 hunread 1
  rw [hleft, hfresh] at hsame
  simp at hsame

end LibBert
