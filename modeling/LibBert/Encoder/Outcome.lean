import LibBert.Encoder.Pushes

/-!
# The outcome of a push

What a push of any term keeps of the encoder, whatever it returns, and what its
success says about the term.
-/

namespace LibBert

variable {F ω : Type}

/-! ## What a push keeps -/

/-- A property of encoders that no write and no change of the flag takes away. -/
structure Kept (P : Encoder ω → Prop) : Prop where
  write : ∀ {e}, P e → ∀ data, P (bertEncoderWrite data e).2
  mark : ∀ {e}, P e → ∀ wroteMagic, P (e.mark wroteMagic)

namespace Encode

def Keeps (P : Encoder ω → Prop) (f : Encode ω) : Prop :=
  ∀ e e' result, P e → f e = some (result, e') → P e'

variable {P : Encoder ω → Prop}

theorem keeps_done (result : Code) : (Encode.done result : Encode ω).Keeps P := by
  intro e e' code he hrun
  cases hrun
  exact he

theorem keeps_crash : (crash : Encode ω).Keeps P := by
  intro e e' code he hrun
  cases hrun

theorem Keeps.andThen {f g : Encode ω} (hf : f.Keeps P) (hg : g.Keeps P) :
    (f.andThen g).Keeps P := by
  intro e e' code he hrun
  rw [Encode.andThen] at hrun
  cases hfirst : f e with
  | none =>
      rw [hfirst] at hrun
      cases hrun
  | some r =>
      simp only [hfirst] at hrun
      split_ifs at hrun
      · cases hrun
        exact hf _ _ _ he hfirst
      · exact hg _ _ _ (hf _ _ _ he hfirst) hrun

end Encode

namespace Kept

open Encode

variable {P : Encoder ω → Prop} (hP : Kept P)
include hP

theorem keeps_write (data : List UInt8) : (Encode.write data : Encode ω).Keeps P := by
  intro e e' code he hrun
  have hwritten := hP.write he data
  rwa [Option.some.inj hrun] at hwritten

theorem keeps_magicOnce : (encodeMagicOnce : Encode ω).Keeps P := by
  intro e e' code he hrun
  rw [encodeMagicOnce] at hrun
  split_ifs at hrun
  · cases hrun
    exact he
  · have hmark : Keeps P fun e : Encoder ω ↦ some (bertSuccess, { e with wroteMagic := true }) := by
      intro e e' code he hrun
      cases hrun
      exact hP.mark he true
    exact (hP.keeps_write [bertMagic]).andThen hmark _ _ _ he hrun

theorem keeps_int (i : UInt32) : (bertEncodeInt i : Encode ω).Keeps P := by
  unfold bertEncodeInt
  split_ifs
  · exact hP.keeps_write _
  · exact hP.keeps_write _
  · exact keeps_done _

theorem keeps_bignum (i : Int64) : (bertEncodeBignum i : Encode ω).Keeps P := by
  unfold bertEncodeBignum
  dsimp only
  cases bignumBytes (bertStripSign i).toUInt64 7 with
  | none => exact keeps_crash
  | some bytes => exact hP.keeps_write _

theorem keeps_tupleHeader (n : ℕ) : (bertEncodeTupleHeader n : Encode ω).Keeps P := by
  unfold bertEncodeTupleHeader
  split_ifs
  · exact hP.keeps_write _
  · exact hP.keeps_write _
  · exact keeps_done _

theorem keeps_complexHeader (name : List UInt8) (n : ℕ) :
    (bertEncodeComplexHeader name n : Encode ω).Keeps P :=
  (hP.keeps_tupleHeader _).andThen ((hP.keeps_write _).andThen (hP.keeps_write _))

theorem keeps_boolean (boolean : UInt32) :
    (bertEncodeBoolean boolean : Encode ω).Keeps P := by
  unfold bertEncodeBoolean
  split_ifs
  · exact hP.keeps_complexHeader _ _
  · exact hP.keeps_complexHeader _ _
  · exact keeps_done _

theorem keeps_time (timestamp : Int64) :
    (bertEncodeTime timestamp : Encode ω).Keeps P :=
  (hP.keeps_complexHeader _ _).andThen
    ((hP.keeps_int _).andThen ((hP.keeps_int _).andThen (hP.keeps_int _)))

theorem keeps_options (masks : List UInt32) :
    (bertEncodeOptions masks : Encode ω).Keeps P := by
  induction masks with
  | nil => exact keeps_done _
  | cons mask masks ih =>
      rw [bertEncodeOptions]
      cases bertRegexOptname mask with
      | none => exact ih
      | some name => exact (hP.keeps_write _).andThen ih

theorem keeps_regex (source : List UInt8) (options : UInt32) :
    (bertEncodeRegex source options : Encode ω).Keeps P :=
  (hP.keeps_complexHeader _ _).andThen
    ((hP.keeps_write _).andThen ((hP.keeps_write _).andThen (hP.keeps_options _)))

variable [Platform F]

mutual

theorem keeps_encodeSwitch : ∀ d : Data F, (encodeSwitch d : Encode ω).Keeps P
  | .none => keeps_done _
  | .nil => hP.keeps_complexHeader (cString "nil") 0
  | .boolean boolean => hP.keeps_boolean boolean
  | .int i => by
      rw [encodeSwitch]
      split_ifs
      · exact hP.keeps_int _
      · exact hP.keeps_bignum i
  | .float d => hP.keeps_write _
  | .atom name => hP.keeps_write _
  | .string text => hP.keeps_write _
  | .bin data => hP.keeps_write _
  | .tuple elements => (hP.keeps_tupleHeader _).andThen (keeps_encodeElements elements)
  | .list entries => (hP.keeps_write _).andThen (keeps_encodeEntries entries)
  | .dict entries =>
      (hP.keeps_complexHeader _ _).andThen
        ((hP.keeps_write _).andThen (keeps_encodePairs entries))
  | .time time => hP.keeps_time time
  | .regex source options => hP.keeps_regex source options

theorem keeps_encodeElements :
    ∀ elements : List (Option (Data F)), (encodeElements elements : Encode ω).Keeps P
  | [] => keeps_done _
  | none :: _ => keeps_crash
  | some d :: rest =>
      (hP.keeps_magicOnce.andThen (keeps_encodeSwitch d)).andThen (keeps_encodeElements rest)

theorem keeps_encodeEntries :
    ∀ entries : List (Data F), (encodeEntries entries : Encode ω).Keeps P
  | [] => keeps_done _
  | d :: rest =>
      (hP.keeps_magicOnce.andThen (keeps_encodeSwitch d)).andThen (keeps_encodeEntries rest)

theorem keeps_encodePairs :
    ∀ entries : List (Option (Data F) × Option (Data F)),
      (encodePairs entries : Encode ω).Keeps P
  | [] => keeps_done _
  | (none, _) :: _ => (hP.keeps_tupleHeader 2).andThen keeps_crash
  | (some key, none) :: _ =>
      (hP.keeps_tupleHeader 2).andThen
        ((hP.keeps_magicOnce.andThen (keeps_encodeSwitch key)).andThen keeps_crash)
  | (some key, some value) :: rest =>
      (hP.keeps_tupleHeader 2).andThen
        ((hP.keeps_magicOnce.andThen (keeps_encodeSwitch key)).andThen
          ((hP.keeps_magicOnce.andThen (keeps_encodeSwitch value)).andThen
            (keeps_encodePairs rest)))

end

theorem keeps_push (d : Data F) : (bertEncoderPush d : Encode ω).Keeps P :=
  hP.keeps_magicOnce.andThen (hP.keeps_encodeSwitch d)

end Kept

/-- Pushes one after the other, also behind one that fails. -/
def pushEach [Platform F] : List (Data F) → Encoder ω → Option (Encoder ω)
  | [], e => some e
  | d :: ds, e => (bertEncoderPush d e).bind fun r ↦ pushEach ds r.2

theorem Kept.pushEach [Platform F] {P : Encoder ω → Prop} (hP : Kept P) {ds : List (Data F)}
    {e e' : Encoder ω} (he : P e) (hrun : LibBert.pushEach ds e = some e') : P e' := by
  induction ds generalizing e with
  | nil =>
      cases hrun
      exact he
  | cons d ds ih =>
      obtain ⟨⟨result, e₁⟩, hpush, hrest⟩ := Option.bind_eq_some_iff.mp hrun
      exact ih (hP.keeps_push d _ _ _ he hpush) hrest

/-! ## What success says -/

namespace Encode

theorem andThen_eq_success {f g : Encode ω} {e e' : Encoder ω} :
    (f.andThen g) e = some (bertSuccess, e') ↔
      ∃ e₁, f e = some (bertSuccess, e₁) ∧ g e₁ = some (bertSuccess, e') := by
  rw [andThen]
  cases f e with
  | none => simp
  | some r =>
      obtain ⟨result, e₁⟩ := r
      by_cases hresult : result = bertSuccess
      · simp [hresult]
      · simp [hresult, Ne.symm]

theorem andThen_of_success {f g : Encode ω} {e e₁ : Encoder ω}
    (h : f e = some (bertSuccess, e₁)) : (f.andThen g) e = g e₁ := by
  simp [andThen, h]

theorem bertEncodeTupleHeader_success {n : ℕ} {e e' : Encoder ω}
    (h : bertEncodeTupleHeader n e = some (bertSuccess, e')) : n < 2 ^ 32 := by
  unfold bertEncodeTupleHeader at h
  split_ifs at h with hsmall hlarge
  · omega
  · omega
  · cases h

variable [Platform F]

mutual

theorem encodable_of_encodeSwitch :
    ∀ (d : Data F) {e e' : Encoder ω}, encodeSwitch d e = some (bertSuccess, e') → Encodable d
  | .none, _, _, h => by cases h
  | .boolean boolean, _, _, h => by
      rw [encodeSwitch, bertEncodeBoolean] at h
      split_ifs at h with htrue hfalse
      · exact .inr htrue
      · exact .inl hfalse
      · cases h
  | .tuple elements, _, _, h => by
      rw [encodeSwitch] at h
      obtain ⟨_, hheader, helements⟩ := andThen_eq_success.mp h
      exact ⟨bertEncodeTupleHeader_success hheader, encodable_of_encodeElements elements helements⟩
  | .list entries, _, _, h => by
      rw [encodeSwitch] at h
      obtain ⟨_, -, hentries⟩ := andThen_eq_success.mp h
      exact encodable_of_encodeEntries entries hentries
  | .dict entries, _, _, h => by
      rw [encodeSwitch] at h
      obtain ⟨_, -, hlist⟩ := andThen_eq_success.mp h
      obtain ⟨_, -, hentries⟩ := andThen_eq_success.mp hlist
      exact encodable_of_encodePairs entries hentries
  | .nil, _, _, _ | .int _, _, _, _ | .float _, _, _, _ | .atom _, _, _, _ | .string _, _, _, _
  | .bin _, _, _, _ | .time _, _, _, _ | .regex _ _, _, _, _ => trivial

theorem encodable_of_encodeElements :
    ∀ (elements : List (Option (Data F))) {e e' : Encoder ω},
      encodeElements elements e = some (bertSuccess, e') → EncodableSlots elements
  | [], _, _, _ => trivial
  | none :: _, _, _, h => by cases h
  | some d :: rest, _, _, h => by
      obtain ⟨_, hpush, hrest⟩ := andThen_eq_success.mp h
      obtain ⟨_, -, hswitch⟩ := andThen_eq_success.mp hpush
      exact ⟨encodable_of_encodeSwitch d hswitch, encodable_of_encodeElements rest hrest⟩

theorem encodable_of_encodeEntries :
    ∀ (entries : List (Data F)) {e e' : Encoder ω},
      encodeEntries entries e = some (bertSuccess, e') → EncodableList entries
  | [], _, _, _ => trivial
  | d :: rest, _, _, h => by
      obtain ⟨_, hpush, hrest⟩ := andThen_eq_success.mp h
      obtain ⟨_, -, hswitch⟩ := andThen_eq_success.mp hpush
      exact ⟨encodable_of_encodeSwitch d hswitch, encodable_of_encodeEntries rest hrest⟩

theorem encodable_of_encodePairs :
    ∀ (entries : List (Option (Data F) × Option (Data F))) {e e' : Encoder ω},
      encodePairs entries e = some (bertSuccess, e') → EncodablePairs entries
  | [], _, _, _ => trivial
  | (none, _) :: _, _, _, h => by
      obtain ⟨_, -, hcrash⟩ := andThen_eq_success.mp h
      cases hcrash
  | (some key, none) :: _, _, _, h => by
      obtain ⟨_, -, hpush⟩ := andThen_eq_success.mp h
      obtain ⟨_, -, hcrash⟩ := andThen_eq_success.mp hpush
      cases hcrash
  | (some key, some value) :: rest, _, _, h => by
      obtain ⟨_, -, hpairs⟩ := andThen_eq_success.mp h
      obtain ⟨_, hkey, hbehind⟩ := andThen_eq_success.mp hpairs
      obtain ⟨_, hvalue, hrest⟩ := andThen_eq_success.mp hbehind
      obtain ⟨_, -, hkeySwitch⟩ := andThen_eq_success.mp hkey
      obtain ⟨_, -, hvalueSwitch⟩ := andThen_eq_success.mp hvalue
      exact ⟨encodable_of_encodeSwitch key hkeySwitch, encodable_of_encodeSwitch value hvalueSwitch,
        encodable_of_encodePairs rest hrest⟩

end

end Encode

theorem pushAll_concat [Platform F] (ds : List (Data F)) (d : Data F) :
    (pushAll (ds ++ [d]) : Encode ω) = (pushAll ds).andThen (bertEncoderPush d) := by
  induction ds with
  | nil => rw [List.nil_append, pushAll, pushAll, pushAll, Encode.andThen_done, Encode.done_andThen]
  | cons x ds ih => rw [List.cons_append, pushAll, pushAll, ih, Encode.andThen_assoc]

theorem encodable_of_pushAll [Platform F] {ds : List (Data F)} {e e' : Encoder ω}
    (h : pushAll ds e = some (bertSuccess, e')) : ∀ d ∈ ds, Encodable d := by
  induction ds generalizing e with
  | nil => simp
  | cons d ds ih =>
      obtain ⟨e₁, hpush, hrest⟩ := Encode.andThen_eq_success.mp h
      obtain ⟨_, -, hswitch⟩ := Encode.andThen_eq_success.mp hpush
      exact List.forall_mem_cons.mpr ⟨Encode.encodable_of_encodeSwitch d hswitch, ih hrest⟩

theorem Encode.writeAll_total {ws : List (List UInt8)} {e e' : Encoder ω}
    (h : writeAll ws e = some (bertSuccess, e')) : e'.total = e.total + ws.flatten.length := by
  induction ws generalizing e with
  | nil =>
      cases h
      rfl
  | cons data ws ih =>
      obtain ⟨e₁, hwrite, hrest⟩ := andThen_eq_success.mp h
      have htotal : e₁.total = e.total + data.length := by
        simp only [Encode.write, bertEncoderWrite] at hwrite
        split_ifs at hwrite with hresult
        · exact absurd (congrArg Prod.fst (Option.some.inj hwrite)) hresult
        · cases hwrite
          rfl
      rw [ih hrest, htotal, List.flatten_cons, List.length_append, Nat.add_assoc]

/-- Pushes that all succeed are counted in full. -/
theorem total_of_pushAll [Platform F] {ds : List (Data F)} {e e' : Encoder ω}
    (h : pushAll ds e = some (bertSuccess, e')) :
    e'.total = e.total + (output e.wroteMagic ds).length := by
  obtain ⟨code, e₁, hrun⟩ := Encode.exists_writeAll (outputWrites e.wroteMagic ds) e
  obtain ⟨wroteMagic, hpush⟩ := exists_pushAll_eq (encodable_of_pushAll h) hrun
  rw [h] at hpush
  cases hpush
  rw [Encoder.mark_total, Encode.writeAll_total hrun, flatten_outputWrites]

theorem pushAll_singleton [Platform F] (d : Data F) :
    (pushAll [d] : Encode ω) = bertEncoderPush d := by
  rw [pushAll, pushAll, Encode.andThen_done]

theorem length_output_singleton [Platform F] (wroteMagic : Bool) (d : Data F) :
    (output wroteMagic [d]).length = (encoding d).length + if wroteMagic then 0 else 1 := by
  cases wroteMagic <;> simp [output]

end LibBert
