import LibBert.Encoder.Encoding

/-!
# Forms

The terms of the format itself, in which complex values are tuples like any
other.  No form is a proper prefix of another, and no two have the same bytes.
-/

namespace LibBert

open Bytes

/-- A term of the format: an unsigned or a big integer, a float, an atom, a
string, a binary, a tuple or a list without its tail. -/
inductive Form where
  | uint (n : ℕ)
  | bignum (i : Int64)
  | float (text : List UInt8)
  | atom (name : List UInt8)
  | string (text : List UInt8)
  | bin (data : List UInt8)
  | tuple (elements : List Form)
  | list (entries : List Form)

namespace Form

mutual

def bytes : Form → List UInt8
  | uint n => intBytes n
  | bignum i => bignumField i
  | float text => bertFloat :: text
  | atom name => atomField name
  | string text => stringField text
  | bin data => binField data
  | tuple elements => tupleHeader elements.length ++ bytesList elements
  | list entries => listHeader entries.length ++ bytesList entries

def bytesList : List Form → List UInt8
  | [] => []
  | f :: fs => bytes f ++ bytesList fs

end

mutual

/-- Every number, text and count is as long as its field allows. -/
def Fits : Form → Prop
  | uint n => n < 2 ^ 32
  | bignum _ => True
  | float text => text.length = 31
  | atom name => name.length < 2 ^ 16
  | string text => text.length < 2 ^ 32
  | bin data => data.length < 2 ^ 32
  | tuple elements => elements.length < 2 ^ 32 ∧ FitsList elements
  | list entries => entries.length < 2 ^ 32 ∧ FitsList entries

def FitsList : List Form → Prop
  | [] => True
  | f :: fs => Fits f ∧ FitsList fs

end

/-- The first byte of a form. -/
def tag : Form → UInt8
  | uint n => if n ≤ 255 then bertSmallInt else bertInt
  | bignum _ => bertSmallBignum
  | float _ => bertFloat
  | atom _ => bertAtom
  | string _ => bertString
  | bin _ => bertBin
  | tuple elements => if elements.length ≤ 255 then bertSmallTuple else bertLargeTuple
  | list _ => bertList

theorem head_bytes (f : Form) : f.bytes.head? = some f.tag := by
  cases f with
  | uint n =>
      rw [bytes, intBytes, tag]
      split_ifs <;> rfl
  | tuple elements =>
      rw [bytes, tupleHeader, tag]
      split_ifs <;> rfl
  | bignum i => rw [bytes]; rfl
  | float text => rw [bytes]; rfl
  | atom name => rw [bytes]; rfl
  | string text => rw [bytes]; rfl
  | bin data => rw [bytes]; rfl
  | list entries => rw [bytes]; rfl

theorem tag_eq {f g : Form} {t t' : List UInt8} (h : f.bytes ++ t = g.bytes ++ t') :
    f.tag = g.tag := by
  have hhead := congrArg List.head? h
  rw [List.head?_append, List.head?_append, head_bytes, head_bytes] at hhead
  exact Option.some.inj hhead

/-! ## Fields -/

/-- A number in one byte or in four, behind a tag that tells them apart. -/
theorem narrow_eq {short long : UInt8} (hne : short ≠ long) {m n : ℕ} {t t' : List UInt8}
    (hm : m < 2 ^ 32) (hn : n < 2 ^ 32)
    (h : (if m ≤ 255 then [short, UInt8.ofNat m] else long :: bigEndian 4 m) ++ t =
      (if n ≤ 255 then [short, UInt8.ofNat n] else long :: bigEndian 4 n) ++ t') :
    m = n ∧ t = t' := by
  split_ifs at h with hmshort hnshort hnshort
  · obtain ⟨-, hrest⟩ := List.cons.inj h
    obtain ⟨hbyte, hrest⟩ := List.cons.inj hrest
    have hvalue := congrArg UInt8.toNat hbyte
    rw [UInt8.toNat_ofNat', UInt8.toNat_ofNat'] at hvalue
    exact ⟨by omega, hrest⟩
  · exact absurd (List.cons.inj h).1 hne
  · exact absurd (List.cons.inj h).1.symm hne
  · exact field_eq hm hn (List.cons.inj h).2

theorem bignum_eq {i j : Int64} {t t' : List UInt8}
    (h : bignumField i ++ t = bignumField j ++ t') : i = j ∧ t = t' := by
  obtain ⟨-, hrest⟩ := List.cons.inj h
  obtain ⟨hcount, hrest⟩ := List.cons.inj hrest
  obtain ⟨hsign, hrest⟩ := List.cons.inj hrest
  have hi := magnitudeLength_le i
  have hj := magnitudeLength_le j
  have hvalue := congrArg UInt8.toNat hcount
  rw [UInt8.toNat_ofNat', UInt8.toNat_ofNat'] at hvalue
  have hlength : magnitudeLength i.toInt.natAbs = magnitudeLength j.toInt.natAbs := by omega
  obtain ⟨hdigits, hrest⟩ := List.append_inj hrest (by simp [hlength])
  rw [hlength] at hdigits
  have hmagnitude : i.toInt.natAbs = j.toInt.natAbs :=
    littleEndian_injOn (by rw [← hlength]; exact lt_pow_magnitudeLength _)
      (lt_pow_magnitudeLength _) hdigits
  have hneg : i < 0 ↔ j < 0 := by
    split_ifs at hsign with hi hj hj
    · exact iff_of_true hi hj
    · exact absurd hsign (by decide)
    · exact absurd hsign (by decide)
    · exact iff_of_false hi hj
  rw [Int64.lt_iff_toInt_lt, Int64.lt_iff_toInt_lt] at hneg
  change i.toInt < 0 ↔ j.toInt < 0 at hneg
  exact ⟨Int64.toInt_inj.mp (by omega), hrest⟩

/-! ## Unique decoding -/

mutual

/-- Two forms at the start of one input are the same. -/
theorem unique : ∀ (f g : Form) (t t' : List UInt8), f.Fits → g.Fits →
    f.bytes ++ t = g.bytes ++ t' → f = g ∧ t = t'
  | uint m, g, t, t', hf, hg, h => by
      have htag := tag_eq h
      cases g with
      | uint n =>
          obtain ⟨rfl, hrest⟩ := narrow_eq (by decide) hf hg h
          exact ⟨rfl, hrest⟩
      | _ => grind [tag]
  | bignum i, g, t, t', hf, hg, h => by
      have htag := tag_eq h
      cases g with
      | bignum j =>
          obtain ⟨rfl, hrest⟩ := bignum_eq h
          exact ⟨rfl, hrest⟩
      | _ => grind [tag]
  | float text, g, t, t', hf, hg, h => by
      have htag := tag_eq h
      cases g with
      | float text' =>
          obtain ⟨rfl, hrest⟩ := List.append_inj (List.cons.inj h).2 (hf.trans hg.symm)
          exact ⟨rfl, hrest⟩
      | _ => grind [tag]
  | atom name, g, t, t', hf, hg, h => by
      have htag := tag_eq h
      cases g with
      | atom name' =>
          obtain ⟨rfl, hrest⟩ := text_eq hf hg (List.cons.inj h).2
          exact ⟨rfl, hrest⟩
      | _ => grind [tag]
  | string text, g, t, t', hf, hg, h => by
      have htag := tag_eq h
      cases g with
      | string text' =>
          obtain ⟨rfl, hrest⟩ := text_eq hf hg (List.cons.inj h).2
          exact ⟨rfl, hrest⟩
      | _ => grind [tag]
  | bin data, g, t, t', hf, hg, h => by
      have htag := tag_eq h
      cases g with
      | bin data' =>
          obtain ⟨rfl, hrest⟩ := text_eq hf hg (List.cons.inj h).2
          exact ⟨rfl, hrest⟩
      | _ => grind [tag]
  | tuple elements, g, t, t', hf, hg, h => by
      have htag := tag_eq h
      cases g with
      | tuple elements' =>
          rw [bytes, bytes, List.append_assoc, List.append_assoc] at h
          obtain ⟨hlength, hrest⟩ := narrow_eq (by decide) hf.1 hg.1 h
          obtain ⟨rfl, rfl⟩ := uniqueList elements elements' t t' hf.2 hg.2 hlength hrest
          exact ⟨rfl, rfl⟩
      | _ => grind [tag]
  | list entries, g, t, t', hf, hg, h => by
      have htag := tag_eq h
      cases g with
      | list entries' =>
          rw [bytes, bytes, List.append_assoc, List.append_assoc] at h
          obtain ⟨hlength, hrest⟩ := field_eq hf.1 hg.1 (List.cons.inj h).2
          obtain ⟨rfl, rfl⟩ := uniqueList entries entries' t t' hf.2 hg.2 hlength hrest
          exact ⟨rfl, rfl⟩
      | _ => grind [tag]

theorem uniqueList : ∀ (fs gs : List Form) (t t' : List UInt8), FitsList fs → FitsList gs →
    fs.length = gs.length → bytesList fs ++ t = bytesList gs ++ t' → fs = gs ∧ t = t'
  | [], [], _, _, _, _, _, h => ⟨rfl, h⟩
  | f :: fs, g :: gs, t, t', hf, hg, hlength, h => by
      rw [bytesList, bytesList, List.append_assoc, List.append_assoc] at h
      obtain ⟨rfl, hrest⟩ := unique f g _ _ hf.1 hg.1 h
      obtain ⟨rfl, rfl⟩ := uniqueList fs gs t t' hf.2 hg.2 (Nat.succ.inj hlength) hrest
      exact ⟨rfl, rfl⟩

end

end Form

end LibBert
