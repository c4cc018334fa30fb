import LibBert.Decoder.Fields

/-!
# Every decode function is disciplined

No request exceeds half the window, every step stays within what the last
successful request promised, and the only way to run out of depth is a nested
pull.  One derivation for each decode function, built from those of the
functions it calls.
-/

namespace LibBert

open Reading

variable {F α : Type} {loud : Prop} {pull : Decode F (Result F)} {avail : ℕ}

/-- A decode function that makes its nested pulls through `pull`, and may use an
unassigned pointer or a stale one only if it is `loud`. -/
abbrev PullsOnly (loud : Prop) (pull : Decode F (Result F)) (avail : ℕ) (p : Decode F α) : Prop :=
  Calls bertSuccess ReadFails (bertShortBuffer / 2) loud pull avail p

namespace PullsOnly

theorem ite {c : Prop} [Decidable c] {p q : Decode F α} (hp : PullsOnly loud pull avail p)
    (hq : PullsOnly loud pull avail q) : PullsOnly loud pull avail (if c then p else q) := by
  split
  · exact hp
  · exact hq

theorem decoderRead {i : ℕ} {f : Except Code Unit → Decode F α} (hi : i ≤ bertShortBuffer / 2)
    (hok : PullsOnly loud pull i (f (.ok ())))
    (herror : ∀ code, PullsOnly loud pull 0 (f (.error code))) :
    PullsOnly loud pull avail (decoderRead i >>= f) := by
  refine Calls.read avail hi hok ?_
  rintro code (rfl | rfl | rfl | rfl)
  · exact herror bertErrnoShortRead
  · exact herror bertErrnoShortRead
  · exact herror bertErrnoRead
  · exact herror bertErrnoInvalid

theorem decodeField {i : ℕ} (convert : List UInt8 → α) (hi : i ≤ bertShortBuffer / 2) :
    PullsOnly loud pull avail (decodeField i convert) := by
  refine decoderRead hi ?_ fun _ ↦ Calls.ret 0 _
  exact Calls.peek (Nat.le_refl i) fun src ↦ Calls.step (Nat.le_refl i) (Calls.ret _ _)

theorem field {β : Type} {p : Decode F (Except Code β)} {f : Except Code β → Decode F α}
    (hp : PullsOnly loud pull avail p) (hok : ∀ b, PullsOnly loud pull 0 (f (.ok b)))
    (herror : ∀ code, PullsOnly loud pull 0 (f (.error code))) :
    PullsOnly loud pull avail (p >>= f) := by
  apply hp.bind
  intro r
  cases r with
  | error code => exact herror code
  | ok b => exact hok b

theorem decodeBytesLoop {length fuel index : ℕ} (dest : List UInt8) (hlength : length < 2 ^ 32)
    (hindex : index ≤ length) (hfuel : length - index < fuel) :
    PullsOnly loud pull avail (decodeBytesLoop length fuel index dest) := by
  induction fuel generalizing index dest avail with
  | zero => omega
  | succ fuel ih =>
      rw [LibBert.decodeBytesLoop]
      split_ifs with hlt
      · refine field (decodeField id (Nat.min_le_left _ _)) (fun chunk ↦ ih _ ?_ ?_)
          fun _ ↦ Calls.ret 0 _
        all_goals simp only [bertShortBuffer]; omega
      · exact Calls.ret _ _

theorem bertDecodeBytes {length : ℕ} (hlength : length < 2 ^ 32) :
    PullsOnly loud pull avail (bertDecodeBytes length) :=
  decodeBytesLoop [] hlength (Nat.zero_le _) (by omega)

theorem bertDecodeUint8 : PullsOnly loud pull avail bertDecodeUint8 := decodeField _ (by decide)

theorem bertDecodeUint16 : PullsOnly loud pull avail bertDecodeUint16 := decodeField _ (by decide)

theorem bertDecodeUint32 : PullsOnly loud pull avail bertDecodeUint32 := decodeField _ (by decide)

theorem bertDecodeMagic : PullsOnly loud pull avail bertDecodeMagic := decodeField _ (by decide)

theorem decodeText (create : List UInt8 → Data F) {size : ℕ} (hsize : size < 2 ^ 32) :
    PullsOnly loud pull avail (decodeText create size) := by
  refine ite (Calls.ret _ _) (field (bertDecodeBytes hsize) ?_ ?_)
  · exact fun bytes ↦ Calls.ret 0 _
  · exact fun _ ↦ Calls.ret 0 _

theorem bertDecodeBignum (size : ℕ) : PullsOnly loud pull avail (bertDecodeBignum size) := by
  rw [LibBert.bertDecodeBignum]
  split_ifs with hsize
  · exact Calls.ret _ _
  · refine field bertDecodeUint8 (fun sign ↦ ?_) fun _ ↦ Calls.ret 0 _
    have hlength : size < 2 ^ 32 := by omega
    exact field (bertDecodeBytes hlength) (fun bytes ↦ Calls.ret 0 _) fun _ ↦ Calls.ret 0 _

theorem bertDecodeFloat [Platform F] : PullsOnly loud pull avail bertDecodeFloat := by
  refine field (bertDecodeBytes (by decide)) (fun floatBuffer ↦ ?_) fun _ ↦ Calls.ret 0 _
  dsimp only
  split <;> exact Calls.ret 0 _

/-! ## Functions with nested pulls -/

theorem pullPart {next : Data F → Decode F (Result F)}
    (hnext : ∀ d, PullsOnly True pull 0 (next d)) :
    PullsOnly True pull avail (pullPart pull next) := by
  apply Calls.call avail
  intro result
  dsimp only
  split_ifs
  · exact Calls.ret 0 _
  · exact (Calls.assigned trivial result.2).bind hnext

theorem pullTimePart {next : Data F → Decode F (Result F)}
    (hnext : ∀ d, PullsOnly True pull 0 (next d)) :
    PullsOnly True pull avail (pullTimePart pull next) := by
  apply Calls.call avail
  intro result
  dsimp only
  split_ifs
  · exact (Calls.assigned trivial result.2).bind fun data ↦ Calls.ret 0 _
  · exact (Calls.assigned trivial result.2).bind hnext

theorem bertDecodeTime [Platform F] : PullsOnly True pull avail (bertDecodeTime pull) := by
  refine pullTimePart fun megaseconds ↦ ite (Calls.ret 0 _) ?_
  refine pullTimePart fun seconds ↦ ite (Calls.ret 0 _) ?_
  exact pullTimePart fun microseconds ↦ ite (Calls.ret 0 _) (Calls.ret 0 _)

theorem bertDecodeDict : PullsOnly True pull avail (bertDecodeDict pull) := by
  apply pullPart
  intro listData
  split
  · exact Calls.ret 0 _
  · split <;> exact Calls.ret 0 _
  · exact Calls.ret 0 _

theorem bertDecodeRegex : PullsOnly True pull avail (bertDecodeRegex pull) := by
  apply pullPart
  intro source
  split
  · apply pullPart
    intro optList
    split
    · split
      · exact Calls.ret 0 _
      · exact Calls.ret 0 _
      · exact Calls.stuck 0 trivial
    · exact Calls.ret 0 _
  · exact Calls.ret 0 _

theorem bertDecodeComplex [Platform F] : PullsOnly True pull avail (bertDecodeComplex pull) := by
  refine pullPart fun keyword ↦ ite (Calls.ret 0 _) ?_
  refine ite (Calls.ret 0 _) (ite (Calls.ret 0 _) (ite (Calls.ret 0 _) ?_))
  exact ite bertDecodeTime (ite bertDecodeDict (ite bertDecodeRegex (Calls.ret 0 _)))

theorem decodeTupleLoop (i : ℕ) (elements : List (Option (Data F))) :
    PullsOnly True pull avail (decodeTupleLoop pull i elements) := by
  induction i generalizing elements avail with
  | zero => exact Calls.ret _ _
  | succ i ih =>
      apply Calls.call avail
      intro result
      dsimp only
      split_ifs
      · exact Calls.ret 0 _
      · exact ih _

theorem bertDecodeTuple [Platform F] (size : ℕ) :
    PullsOnly True pull avail (bertDecodeTuple pull size) := by
  refine ite (Calls.ret _ _) (pullPart fun first ↦ ?_)
  exact ite bertDecodeComplex (decodeTupleLoop _ _)

theorem decodeListLoop (i : ℕ) (element : Option (Data F)) (twice : Bool)
    (entries : List (Data F)) :
    PullsOnly True pull avail (decodeListLoop pull i element twice entries) := by
  induction i generalizing element twice entries avail with
  | zero =>
      exact decoderRead (by decide) (Calls.step (Nat.le_refl 1) (Calls.ret _ _))
        fun _ ↦ Calls.ret 0 _
  | succ i ih =>
      apply Calls.call avail
      intro result
      dsimp only
      split_ifs
      · exact Calls.fault 0
      · exact Calls.ret 0 _
      · cases result.2 with
        | some data => exact ih _ _ _
        | none =>
            exact (Calls.assigned trivial element).bind fun stale ↦
              Calls.emit _ trivial (ih _ _ _)

theorem bertDecodeSmallTuple [Platform F] : PullsOnly True pull avail (bertDecodeSmallTuple pull) :=
  field bertDecodeUint8 (fun size ↦ bertDecodeTuple size.toNat) fun _ ↦ Calls.ret 0 _

theorem bertDecodeLargeTuple [Platform F] : PullsOnly True pull avail (bertDecodeLargeTuple pull) :=
  field bertDecodeUint32 (fun size ↦ bertDecodeTuple size.toNat) fun _ ↦ Calls.ret 0 _

theorem bertDecodeList : PullsOnly True pull avail (bertDecodeList pull) :=
  field bertDecodeUint32 (fun size ↦ decodeListLoop size.toNat none false []) fun _ ↦ Calls.ret 0 _

theorem bertDecodeSmallInt : PullsOnly loud pull avail bertDecodeSmallInt :=
  field bertDecodeUint8 (fun _ ↦ Calls.ret 0 _) fun _ ↦ Calls.ret 0 _

theorem bertDecodeBigInt : PullsOnly loud pull avail bertDecodeBigInt :=
  field bertDecodeUint32 (fun _ ↦ Calls.ret 0 _) fun _ ↦ Calls.ret 0 _

theorem bertDecodeSmallBignum : PullsOnly loud pull avail bertDecodeSmallBignum :=
  field bertDecodeUint8 (fun i ↦ bertDecodeBignum i.toNat) fun _ ↦ Calls.ret 0 _

theorem bertDecodeBigBignum : PullsOnly loud pull avail bertDecodeBigBignum :=
  field bertDecodeUint32 (fun i ↦ bertDecodeBignum i.toNat) fun _ ↦ Calls.ret 0 _

theorem bertDecodeAtom : PullsOnly loud pull avail bertDecodeAtom :=
  field bertDecodeUint16 (fun size ↦ decodeText _ (size.toNat_lt.trans (by decide)))
    fun _ ↦ Calls.ret 0 _

theorem bertDecodeString : PullsOnly loud pull avail bertDecodeString :=
  field bertDecodeUint16 (fun size ↦ decodeText _ (size.toNat_lt.trans (by decide)))
    fun _ ↦ Calls.ret 0 _

theorem bertDecodeBin : PullsOnly loud pull avail bertDecodeBin := by
  refine field bertDecodeUint32 (fun size ↦ ite ?_ (decodeText _ size.toNat_lt))
    fun _ ↦ Calls.ret 0 _
  exact field (decodeField id le_rfl) (fun chunk ↦ Calls.fault 0) fun _ ↦ Calls.ret 0 _

theorem decodeMagic [Platform F] (magic : UInt8) :
    PullsOnly True pull avail (decodeMagic pull magic) := by
  apply ite (Calls.ret _ _)
  apply ite bertDecodeSmallInt
  apply ite bertDecodeBigInt
  apply ite bertDecodeSmallBignum
  apply ite bertDecodeBigBignum
  apply ite bertDecodeFloat
  apply ite bertDecodeAtom
  apply ite bertDecodeString
  apply ite bertDecodeBin
  apply ite bertDecodeSmallTuple
  apply ite bertDecodeLargeTuple
  exact ite bertDecodeList (Calls.ret _ _)

/-- The part of a pull behind its first magic byte. -/
theorem behindMagic [Platform F] (magic : UInt8) :
    PullsOnly True pull avail (do
      if magic = bertMagic then
        match ← LibBert.bertDecodeMagic with
        | .error result => return (result, none)
        | .ok magic => return pullResult (← LibBert.decodeMagic pull magic)
      else
        return pullResult (← LibBert.decodeMagic pull magic)) := by
  refine ite (field bertDecodeMagic (fun magic ↦ ?_) fun _ ↦ Calls.ret 0 _) ?_
  · exact (decodeMagic magic).bind fun result ↦ Calls.ret 0 _
  · exact (decodeMagic magic).bind fun result ↦ Calls.ret 0 _

theorem pullBody [Platform F] : PullsOnly True pull avail (pullBody pull) := by
  refine .read avail (by decide) ?_ ?_
  · rw [if_pos rfl]
    exact field bertDecodeMagic behindMagic fun _ ↦ Calls.ret 0 _
  · rintro code (rfl | rfl | rfl | rfl) <;> exact Calls.ret 0 _

end PullsOnly

/-- Whatever the depth, a pull asks for at most half the window at a time and
stays within what it was promised. -/
theorem disciplined_bertDecoderPull [Platform F] (depth : ℕ) :
    Disciplined bertSuccess ReadFails (bertShortBuffer / 2) 0
      (bertDecoderPull depth : Decode F _) := by
  induction depth with
  | zero => trivial
  | succ depth ih =>
      have hbody : Calls bertSuccess ReadFails (bertShortBuffer / 2) True (bertDecoderPull depth) 0
          (bertDecoderPull (depth + 1) : Decode F _) :=
        .emit _ trivial (PullsOnly.pullBody.bind fun _ ↦ .emit _ trivial (.ret _ _))
      exact hbody.disciplined ih

end LibBert
