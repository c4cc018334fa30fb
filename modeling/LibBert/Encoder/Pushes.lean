import LibBert.Encoder.Encoding

/-!
# Pushes as writes

Pushes of encodable terms, one after the other, are a single sequence of writes
that is given up at the first that fails.  Only the flag for the magic byte is
kept apart: nothing is written by it.
-/

namespace LibBert

variable {F ω : Type}

/-- Pushes one after the other, up to the first that fails. -/
def pushAll [Platform F] : List (Data F) → Encode ω
  | [] => .done bertSuccess
  | d :: ds => (bertEncoderPush d).andThen (pushAll ds)

/-- What successful pushes write on an encoder. -/
def output [Platform F] (wroteMagic : Bool) : List (Data F) → List UInt8
  | [] => []
  | d :: ds => (if wroteMagic then [] else [bertMagic]) ++ encoding d ++ (ds.map encoding).flatten

theorem output_true [Platform F] (ds : List (Data F)) :
    output true ds = (ds.map encoding).flatten := by
  cases ds <;> simp [output]

theorem output_append [Platform F] (wroteMagic : Bool) (ds ds' : List (Data F)) :
    output wroteMagic (ds ++ ds') =
      output wroteMagic ds ++ output (wroteMagic || !ds.isEmpty) ds' := by
  cases ds with
  | nil =>
      rw [List.isEmpty_nil, Bool.not_true, Bool.or_false]
      rfl
  | cons d ds =>
      rw [List.isEmpty_cons, Bool.not_false, Bool.or_true, output_true]
      simp [output]

/-- The same as a sequence of writes. -/
def outputWrites [Platform F] (wroteMagic : Bool) : List (Data F) → List (List UInt8)
  | [] => []
  | d :: ds => (if wroteMagic then [] else [[bertMagic]]) ++ (writes d ++ ds.flatMap writes)

theorem flatten_outputWrites [Platform F] (wroteMagic : Bool) (ds : List (Data F)) :
    (outputWrites wroteMagic ds).flatten = output wroteMagic ds := by
  have hrest : ∀ ds : List (Data F), (ds.flatMap writes).flatten = (ds.map encoding).flatten := by
    intro ds
    induction ds with
    | nil => rfl
    | cons d ds ih =>
        rw [List.flatMap_cons, List.flatten_append, ih, List.map_cons, List.flatten_cons, encoding]
  cases ds with
  | nil => rfl
  | cons d ds =>
      rw [outputWrites, output, List.flatten_append, List.flatten_append, hrest, encoding,
        List.append_assoc]
      cases wroteMagic <;> rfl

theorem outputWrites_true [Platform F] (ds : List (Data F)) :
    outputWrites true ds = ds.flatMap writes := by
  cases ds <;> rfl

/-! ## The flag -/

def Encoder.mark (e : Encoder ω) (wroteMagic : Bool) : Encoder ω :=
  { e with wroteMagic := wroteMagic }

@[simp] theorem Encoder.mark_mode (e : Encoder ω) (wroteMagic : Bool) :
    (e.mark wroteMagic).mode = e.mode := rfl

@[simp] theorem Encoder.mark_total (e : Encoder ω) (wroteMagic : Bool) :
    (e.mark wroteMagic).total = e.total := rfl

@[simp] theorem Encoder.mark_self (e : Encoder ω) : e.mark e.wroteMagic = e := rfl

theorem bertEncoderWrite_mark (data : List UInt8) (e : Encoder ω) (wroteMagic : Bool) :
    bertEncoderWrite data (e.mark wroteMagic) =
      ((bertEncoderWrite data e).1, (bertEncoderWrite data e).2.mark wroteMagic) := by
  by_cases hresult : (e.mode.write data).1 = bertSuccess <;>
    simp [bertEncoderWrite, Encoder.mark, hresult]

namespace Encode

theorem writeAll_mark (ws : List (List UInt8)) {e e' : Encoder ω} {result : Code}
    (h : writeAll ws e = some (result, e')) (wroteMagic : Bool) :
    writeAll ws (e.mark wroteMagic) = some (result, e'.mark wroteMagic) := by
  induction ws generalizing e with
  | nil =>
      cases h
      rfl
  | cons data ws ih =>
      simp only [writeAll, andThen, Encode.write, bertEncoderWrite_mark] at h ⊢
      split_ifs at h ⊢ with hresult
      · cases h
        rfl
      · exact ih h

theorem exists_writeAll (ws : List (List UInt8)) (e : Encoder ω) :
    ∃ result e', writeAll ws e = some (result, e') := by
  induction ws generalizing e with
  | nil => exact ⟨_, _, rfl⟩
  | cons data ws ih =>
      simp only [writeAll, andThen, Encode.write]
      split_ifs with hresult
      · exact ⟨_, _, rfl⟩
      · exact ih _

/-- Behind the magic byte of the first push stands the rest of its writes. -/
theorem exists_magicOnce_andThen_eq {f : Encode ω} {ws : List (List UInt8)} (hf : f.Writes ws)
    {e e' : Encoder ω} {result : Code} (hfresh : e.wroteMagic = false)
    (h : writeAll ([bertMagic] :: ws) e = some (result, e')) :
    ∃ wroteMagic, (encodeMagicOnce.andThen f) e = some (result, e'.mark wroteMagic) := by
  simp only [writeAll, andThen, Encode.write] at h
  by_cases hresult : (bertEncoderWrite [bertMagic] e).1 = bertSuccess
  · rw [if_neg (not_not.mpr hresult)] at h
    refine ⟨true, ?_⟩
    have hmarked := hf ((bertEncoderWrite [bertMagic] e).2.mark true) rfl
    rw [writeAll_mark ws h true] at hmarked
    rw [← hmarked]
    simp [andThen, encodeMagicOnce, bertEncodeMagic, Encode.write, Encoder.mark, hfresh, hresult]
  · rw [if_pos hresult] at h
    cases h
    refine ⟨(bertEncoderWrite [bertMagic] e).2.wroteMagic, ?_⟩
    simp [andThen, encodeMagicOnce, bertEncodeMagic, Encode.write, hfresh, hresult]

variable [Platform F]

theorem writes_pushAll {ds : List (Data F)} (hds : ∀ d ∈ ds, Encodable d) :
    (pushAll ds : Encode ω).Writes (outputWrites true ds) := by
  rw [outputWrites_true]
  induction ds with
  | nil => exact writes_done
  | cons d ds ih =>
      rw [List.forall_mem_cons] at hds
      exact (writes_encodeMagicOnce.andThen (writes_encodeSwitch d hds.1)).andThen (ih hds.2)

end Encode

/-! ## Pushes -/

/-- Pushes of encodable terms are a sequence of writes, but for the flag. -/
theorem exists_pushAll_eq [Platform F] {ds : List (Data F)} (hds : ∀ d ∈ ds, Encodable d)
    {e e' : Encoder ω} {result : Code}
    (h : Encode.writeAll (outputWrites e.wroteMagic ds) e = some (result, e')) :
    ∃ wroteMagic, pushAll ds e = some (result, e'.mark wroteMagic) := by
  cases hmagic : e.wroteMagic with
  | true =>
      rw [hmagic] at h
      refine ⟨e'.wroteMagic, ?_⟩
      rw [Encode.writes_pushAll hds e hmagic, h, Encoder.mark_self]
  | false =>
      rw [hmagic] at h
      cases ds with
      | nil =>
          cases h
          exact ⟨e.wroteMagic, rfl⟩
      | cons d ds =>
          rw [List.forall_mem_cons] at hds
          have hrest : ((encodeSwitch d).andThen (pushAll ds) : Encode ω).Writes
              (writes d ++ ds.flatMap writes) := by
            rw [← outputWrites_true]
            exact (Encode.writes_encodeSwitch d hds.1).andThen (Encode.writes_pushAll hds.2)
          rw [pushAll, bertEncoderPush, Encode.andThen_assoc]
          exact Encode.exists_magicOnce_andThen_eq hrest hmagic h

end LibBert
