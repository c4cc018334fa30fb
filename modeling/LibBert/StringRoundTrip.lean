import LibBert.RoundTrip

/-!
# Strings on the wire

The encoder writes the length of a string in four bytes and the decoder reads it
from two.  Those two are zero for every string the decoder could return, so a
pull returns the empty string and the next one starts inside the length field.
-/

namespace LibBert

open Reading Bytes

variable {F ω ρ : Type} [Platform F]

theorem bigEndian_four_of_lt {n : ℕ} (hn : n < 2 ^ 16) :
    bigEndian 4 n = 0 :: 0 :: bigEndian 2 n := by
  have hhigh : n / 256 ^ 3 = 0 := Nat.div_eq_of_lt (by omega)
  have hlow : n / 256 ^ 2 = 0 := Nat.div_eq_of_lt (by omega)
  rw [bigEndian, bigEndian, hhigh, hlow]
  rfl

/-- What the encoder writes for a string opens like an empty one. -/
theorem output_string {text : List UInt8} (htext : text.length < 2 ^ 16) (ds : List (Data F)) :
    output false (.string text :: ds) =
      (Wire.marked (.string [])).bytes ++
        (bigEndian 2 text.length ++ text ++ (ds.map encoding).flatten) := by
  have hempty : (Wire.marked (.string [])).bytes = [bertMagic, bertString, 0, 0] := by
    rw [Wire.bytes_marked, Wire.bytes, Wire.chunks, pieces_nil]
    rfl
  have hencoding : encoding (.string text : Data F) =
      bertString :: 0 :: 0 :: (bigEndian 2 text.length ++ text) := by
    rw [encoding, writes, List.flatten_singleton, stringField, bigEndian_four_of_lt htext]
    rfl
  rw [output, hencoding, hempty]
  rfl

theorem run_plain_zero (depth : ℕ) (rest : List UInt8) :
    run plainReader (bertDecoderPull (depth + 1) : Decode F _) (0 :: rest) =
      .done (bertErrnoInvalid, none) rest := by
  have hdelivers : Delivers plainReader (0 :: rest) [[0]] rest := plainReader_delivers_iff.mpr rfl
  rw [run_bertDecoderPull_succ, run_pullBody_tag hdelivers (by decide)]
  rfl

/-- Whatever follows a string, what was pushed is not what is pulled: a text is
replaced by the empty string, and behind an empty string the next pull meets the
rest of the length field. -/
theorem pulls_output_string_ne {text : List UInt8} {ds : List (Data F)} {depth : ℕ}
    (htext : text.length < 2 ^ 16) (hdepth : (output false (.string text :: ds)).length < depth) :
    pulls plainReader (fun _ ↦ ()) depth (ds.length + 2) (output false (.string text :: ds)) ≠
      (.string text :: ds).map (fun d ↦ .done (1, some d) ()) ++ [.done (0, none) ()] := by
  intro hsame
  rw [output_string htext] at hsame hdepth
  rw [List.length_append] at hdepth
  have hfirst : run plainReader (bertDecoderPull depth) ((Wire.marked (.string [])).bytes ++
      (bigEndian 2 text.length ++ text ++ (ds.map encoding).flatten)) =
        .done ((1, some (.string [])) : Result F) _ :=
    run_plain_of_denote (by omega) rfl
  rw [pulls, runs, hfirst, List.map_cons, List.cons_append, List.cons.injEq] at hsame
  obtain rfl : [] = text := by simpa using hsame.1
  obtain ⟨depth, rfl⟩ : ∃ k, depth = k + 1 := ⟨depth - 1, by omega⟩
  have hsecond := run_plain_zero (F := F) depth (0 :: (ds.map encoding).flatten)
  have hrest : bigEndian 2 ([] : List UInt8).length ++ [] ++ (ds.map encoding).flatten =
      0 :: 0 :: (ds.map encoding).flatten := rfl
  rw [hrest, runs, hsecond] at hsame
  cases ds with
  | nil => simp [bertErrnoInvalid] at hsame
  | cons d ds => simp [bertErrnoInvalid] at hsame

/-- No string survives the wire: the pulls of what was pushed never return the
string, the terms behind it and then the end of the input. -/
theorem strings_never_survive (receiving : Receiving ω) {e : Encoder ω} {room : ℕ}
    {text : List UInt8} {ds : List (Data F)} (htext : text.length < 2 ^ 16)
    (hds : ∀ d ∈ ds, Encodable d) (hfresh : e.wroteMagic = false)
    (hempty : receiving.stored e.mode = []) (htakes : receiving.Takes e.mode room)
    (hroom : (output false (.string text :: ds)).length ≤ room) :
    ∃ e', pushAll (.string text :: ds) e = some (bertSuccess, e') ∧
      ∀ (ρ : Type) (stream : Bool) (source : PlainSource ρ) (s : ρ) (depth : ℕ),
        source.contents s = receiving.stored e'.mode → (source.contents s).length < depth →
          pulls (F := F) windowReader (fun _ ↦ ()) depth (ds.length + 2)
              (freshDecoder stream source.toSource s) ≠
            (.string text :: ds).map (fun d ↦ .done (1, some d) ()) ++ [.done (0, none) ()] := by
  have hencodable : ∀ d ∈ .string text :: ds, Encodable d := by
    intro d hd
    rcases List.mem_cons.mp hd with rfl | hd
    · trivial
    · exact hds d hd
  obtain ⟨e', hpush, hstored⟩ := receiving.pushAll hencodable htakes (by rwa [hfresh])
  refine ⟨e', hpush, fun ρ stream source s depth hcontents hdepth ↦ ?_⟩
  rw [hempty, List.nil_append, hfresh] at hstored
  rw [hstored] at hcontents
  rw [pulls_results_eq_plain, hcontents]
  exact pulls_output_string_ne htext (hcontents ▸ hdepth)

/-- The string `a` and a binary behind it. -/
theorem strings_never_survive_text :
    ∃ e', pushAll (F := Empty) [.string [97], .bin [1, 2]]
        (bertEncoderCallback bertEncoderCreate AcceptingSink.recording.toSink []) =
          some (bertSuccess, e') ∧
      ∀ (ρ : Type) (stream : Bool) (source : PlainSource ρ) (s : ρ) (depth : ℕ),
        source.contents s = AcceptingSink.recording.receiving.stored e'.mode →
        (source.contents s).length < depth →
          pulls (F := Empty) windowReader (fun _ ↦ ()) depth 3
              (freshDecoder stream source.toSource s) ≠
            [.done (1, some (.string [97])) (), .done (1, some (.bin [1, 2])) (),
              .done (0, none) ()] :=
  strings_never_survive (F := Empty) AcceptingSink.recording.receiving (by decide)
    (by simp [Encodable]) rfl rfl ⟨[], .inr rfl⟩ (Nat.le_refl _)

/-- Nil, booleans, atoms and binaries. -/
def Flat : Data F → Prop
  | .nil => True
  | .boolean boolean => boolean = 0 ∨ boolean = 1
  | .atom name => name.length < 2 ^ 16
  | .bin data => data.length < 2 ^ 32
  | _ => False

/-- The string `a` alone is pulled as the empty string. -/
theorem string_is_emptied :
    ¬ ∀ (text : List UInt8) (ds : List (Data Empty)) (e' : Encoder (List UInt8)),
      text.length < 2 ^ 16 → (∀ d ∈ ds, Flat d) →
      pushAll (.string text :: ds)
          (bertEncoderCallback bertEncoderCreate AcceptingSink.recording.toSink []) =
        some (bertSuccess, e') →
      ∀ depth, (AcceptingSink.recording.receiving.stored e'.mode).length < depth →
        pulls (F := Empty) windowReader (fun _ ↦ ()) depth (ds.length + 2)
            (freshDecoder false PlainSource.ofList.toSource
              (AcceptingSink.recording.receiving.stored e'.mode)) =
          (.string text :: ds).map (fun d ↦ .done (1, some d) ()) ++ [.done (0, none) ()] := by
  intro h
  have hsame := h [97] [] _ (by decide) (by simp) rfl 8 (by decide)
  have hpulls : pulls (F := Empty) windowReader (fun _ ↦ ()) 8 2
      (freshDecoder false PlainSource.ofList.toSource [131, 107, 0, 0, 0, 1, 97]) =
        [.done (1, some (.string [])) (), .done (bertErrnoInvalid, none) ()] := rfl
  have hfirst := congrArg List.head? (hpulls.symm.trans hsame)
  simp at hfirst

end LibBert
