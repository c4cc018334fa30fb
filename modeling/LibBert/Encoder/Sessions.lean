import LibBert.Encoder.Outcome
import LibBert.RoundTrip
import Mathlib.Data.List.Forall2

/-!
# Switching the sink of an encoder

`bert_encoder_stream`, `bert_encoder_buffer` and `bert_encoder_callback` may be called
between the pushes.  They leave the flag for the magic byte as it is, so that the sinks
together receive what one sink would have received, and only the first of them the
magic byte.  What each sink received is decoded on its own.
-/

namespace LibBert

variable {F ω ρ : Type} [Platform F]

/-- One of the three functions that select a sink. -/
inductive Selection (ω : Type) : Type where
  | stream (file : Sink ω) (fd : ω)
  | buffer (ptr : List UInt8) (length : ℕ)
  | callback (ptr : Sink ω) (data : ω)

def Selection.select (encoder : Encoder ω) : Selection ω → Encoder ω
  | .stream file fd => bertEncoderStream encoder file fd
  | .buffer ptr length => bertEncoderBuffer encoder ptr length
  | .callback ptr data => bertEncoderCallback encoder ptr data

def Selection.mode : Selection ω → EncoderMode ω
  | .stream file fd => .stream file fd
  | .buffer ptr length => .buffer ptr length 0
  | .callback ptr data => .callback ptr data

theorem Selection.select_eq (encoder : Encoder ω) (selection : Selection ω) :
    selection.select encoder = { encoder with mode := selection.mode } := by
  cases selection <;> rfl

/-- A sink that is empty and the terms that are pushed to it, for which it has room. -/
structure Session (F ω : Type) [Platform F] where
  selection : Selection ω
  terms : List (Data F)
  receiving : Receiving ω
  room : ℕ
  empty : receiving.stored selection.mode = []
  takes : receiving.Takes selection.mode room
  enough : (output false terms).length ≤ room
  encodable : ∀ d ∈ terms, Encodable d

/-- The sessions one after the other, as far as every push succeeds, with what each sink
has stored at the end of its session. -/
def runSessions : List (Session F ω) → Encoder ω → Option (List (List UInt8) × Encoder ω)
  | [], encoder => some ([], encoder)
  | session :: sessions, encoder => do
      let (result, encoder) ← pushAll session.terms (session.selection.select encoder)
      if result ≠ bertSuccess then none
      else do
        let received := session.receiving.stored encoder.mode
        let (rest, encoder) ← runSessions sessions encoder
        return (received :: rest, encoder)

/-- What the sinks receive: the magic byte stands before the first term. -/
def parts (wroteMagic : Bool) : List (List (Data F)) → List (List UInt8)
  | [] => []
  | ds :: rest => output wroteMagic ds :: parts (wroteMagic || !ds.isEmpty) rest

/-- Switching the sink cuts the stream and changes nothing in it. -/
theorem flatten_parts (wroteMagic : Bool) (dss : List (List (Data F))) :
    (parts wroteMagic dss).flatten = output wroteMagic dss.flatten := by
  induction dss generalizing wroteMagic with
  | nil => rfl
  | cons ds dss ih => rw [parts, List.flatten_cons, List.flatten_cons, ih, output_append]

theorem length_output_le (wroteMagic : Bool) (ds : List (Data F)) :
    (output wroteMagic ds).length ≤ (output false ds).length := by
  cases wroteMagic with
  | false => exact Nat.le_refl _
  | true => cases ds <;> simp [output]

/-- Behind a push that succeeds the magic byte is written. -/
theorem wroteMagic_of_push {d : Data F} {e e' : Encoder ω}
    (h : bertEncoderPush d e = some (bertSuccess, e')) : e'.wroteMagic = true := by
  rw [bertEncoderPush] at h
  obtain ⟨e₁, hmagic, hswitch⟩ := Encode.andThen_eq_success.mp h
  have hmarked : e₁.wroteMagic = true := by
    rw [encodeMagicOnce] at hmagic
    split_ifs at hmagic with hwrote
    · cases hmagic
      exact hwrote
    · obtain ⟨e₂, -, hmark⟩ := Encode.andThen_eq_success.mp hmagic
      cases hmark
      rfl
  have hencodable := Encode.encodable_of_encodeSwitch d hswitch
  have hwrites := Encode.writes_encodeSwitch d hencodable e₁ hmarked
  rw [hwrites] at hswitch
  rw [Encode.writeAll_wroteMagic hswitch, hmarked]

theorem wroteMagic_of_pushAll {ds : List (Data F)} {e e' : Encoder ω}
    (h : pushAll ds e = some (bertSuccess, e')) :
    e'.wroteMagic = (e.wroteMagic || !ds.isEmpty) := by
  induction ds generalizing e with
  | nil =>
      cases h
      simp
  | cons d ds ih =>
      obtain ⟨e₁, hpush, hrest⟩ := Encode.andThen_eq_success.mp h
      rw [ih hrest, wroteMagic_of_push hpush]
      simp

/-- Whatever sinks are selected in between, they receive the parts of one stream, which
is counted whole. -/
theorem sessions_parts (sessions : List (Session F ω)) (e : Encoder ω) :
    ∃ e', runSessions sessions e = some (parts e.wroteMagic (sessions.map Session.terms), e') ∧
      bertEncoderTotal e' = bertEncoderTotal e +
        (output e.wroteMagic (sessions.flatMap Session.terms)).length := by
  induction sessions generalizing e with
  | nil => exact ⟨e, rfl, rfl⟩
  | cons session sessions ih =>
      have hselect := session.selection.select_eq e
      have hroom : (output (session.selection.select e).wroteMagic session.terms).length ≤
          session.room := by
        rw [hselect]
        exact (length_output_le _ _).trans session.enough
      have htakes : session.receiving.Takes (session.selection.select e).mode session.room := by
        rw [hselect]
        exact session.takes
      obtain ⟨e₁, hpush, hstored⟩ := session.receiving.pushAll session.encodable htakes hroom
      obtain ⟨e', hrest, htotal⟩ := ih e₁
      have hflag := wroteMagic_of_pushAll hpush
      have hcount := total_of_pushAll hpush
      rw [hselect] at hflag hcount
      rw [hselect, session.empty, List.nil_append] at hstored
      refine ⟨e', ?_, ?_⟩
      · rw [hflag] at hrest
        simp [runSessions, hpush, hrest, parts, hstored]
      · rw [htotal, hflag, List.flatMap_cons, output_append, List.length_append, bertEncoderTotal,
          bertEncoderTotal, hcount, Nat.add_assoc]

/-- A decoder over a part pulls the terms of its session and then 0. -/
def Decodes (F : Type) [Platform F] (ds : List (Data F)) (part : List UInt8) : Prop :=
  ∀ (ρ : Type) (stream : Bool) (source : PlainSource ρ) (s : ρ) (depth : ℕ),
    source.contents s = part → part.length < depth →
      pulls (F := F) windowReader (fun _ ↦ ()) depth (ds.length + 1)
          (freshDecoder stream source.toSource s) =
        ds.map (fun d ↦ .done (1, some d) ()) ++ [.done (0, none) ()]

theorem decodes_part {ints : Int64 → Prop} {ds : List (Data F)}
    (hds : ∀ d ∈ ds, Portable ints d) (wroteMagic : Bool) :
    Decodes F (ds.map image) (output wroteMagic ds) := by
  intro ρ stream source s depth hcontents hdepth
  rw [List.length_map]
  exact pulls_output hds stream source s hcontents hdepth

theorem decodes_parts {dss : List (List (Data F))}
    (hdss : ∀ ds ∈ dss, ∀ d ∈ ds, Portable Survives d) (wroteMagic : Bool) :
    List.Forall₂ (Decodes F) dss (parts wroteMagic dss) := by
  induction dss generalizing wroteMagic with
  | nil => exact .nil
  | cons ds dss ih =>
      obtain ⟨hds, hdss⟩ := List.forall_mem_cons.mp hdss
      have himages : ds.map image = ds :=
        (List.map_congr_left fun d hd ↦ image_eq_self d (hds d hd)).trans (List.map_id ds)
      have hfirst := decodes_part hds wroteMagic
      rw [himages] at hfirst
      exact .cons hfirst (ih hdss _)

/-- Whatever sinks are selected in between, every push succeeds, the sinks together
receive what one sink would have received, which is counted whole, and each of them can
be decoded on its own. -/
theorem sessions_decode (sessions : List (Session F ω)) (e : Encoder ω)
    (hportable : ∀ session ∈ sessions, ∀ d ∈ session.terms, Portable Survives d) :
    ∃ received e', runSessions sessions e = some (received, e') ∧
      received.flatten = output e.wroteMagic (sessions.flatMap Session.terms) ∧
      bertEncoderTotal e' = bertEncoderTotal e + received.flatten.length ∧
      List.Forall₂ (fun session part ↦ Decodes F session.terms part) sessions received := by
  obtain ⟨e', hrun, htotal⟩ := sessions_parts sessions e
  refine ⟨_, e', hrun, flatten_parts _ _, by rw [htotal, flatten_parts, List.flatMap], ?_⟩
  have hterms : ∀ ds ∈ sessions.map Session.terms, ∀ d ∈ ds, Portable Survives d := by
    simpa using hportable
  have hparts := decodes_parts hterms e.wroteMagic
  rwa [List.forall₂_map_left_iff] at hparts

/-- The atom `a` to a callback, then `nil` to a buffer of 14 bytes. -/
def twoSessions : List (Session Empty (List UInt8)) :=
  [{ selection := .callback AcceptingSink.recording.toSink []
     terms := [.atom [97]]
     receiving := AcceptingSink.recording.receiving
     room := 5
     empty := rfl
     takes := ⟨[], .inr rfl⟩
     enough := Nat.le_refl _
     encodable := by simp [Encodable] },
   { selection := .buffer (List.replicate 20 0) 20
     terms := [.nil]
     receiving := bufferReceiving 20 (by decide)
     room := 20
     empty := rfl
     takes := ⟨_, 0, rfl, Nat.le_refl _, Nat.le_refl _⟩
     enough := by decide
     encodable := by simp [Encodable] }]

theorem sessions_decode_two :
    ∃ received e', runSessions twoSessions bertEncoderCreate = some (received, e') ∧
      received.flatten = output false [(.atom [97] : Data Empty), .nil] ∧
      bertEncoderTotal e' = 0 + received.flatten.length ∧
      List.Forall₂ (fun session part ↦ Decodes Empty session.terms part) twoSessions received :=
  sessions_decode twoSessions bertEncoderCreate (by simp [twoSessions, Portable, Fragment])

end LibBert
