import LibBert.Wire.Encoded
import LibBert.Wire.Unique

/-!
# The decoder runs ahead of the encoder

The encoder ends a list behind its last entry, the decoder reads one byte more.
A wire term that stands for a term with a list or dictionary in it is never as
short as what the encoder writes for that term.
-/

namespace LibBert

open Bytes

variable {F : Type}

/-! ## The fragment -/

mutual

/-- Terms built from nil, booleans, integers that are not negative, atoms other
than `bert` and binaries by tuples, lists and dictionaries. -/
def Listable : Data F → Prop
  | .nil => True
  | .boolean boolean => boolean = 0 ∨ boolean = 1
  | .int i => 0 ≤ i
  | .atom name => name.length < 2 ^ 16 ∧ name ≠ cString "bert"
  | .bin data => data.length < 2 ^ 32
  | .tuple elements => elements.length < 2 ^ 32 ∧ ListableSlots elements
  | .list entries => entries.length < 2 ^ 32 ∧ ListableList entries
  | .dict entries => entries.length < 2 ^ 32 ∧ ListablePairs entries
  | _ => False

def ListableSlots : List (Option (Data F)) → Prop
  | [] => True
  | none :: _ => False
  | some d :: rest => Listable d ∧ ListableSlots rest

def ListableList : List (Data F) → Prop
  | [] => True
  | d :: rest => Listable d ∧ ListableList rest

def ListablePairs : List (Option (Data F) × Option (Data F)) → Prop
  | [] => True
  | (some key, some value) :: rest => Listable key ∧ Listable value ∧ ListablePairs rest
  | _ :: _ => False

end

mutual

/-- There is a list or a dictionary in the term, at whatever depth. -/
def holdsList : Data F → Bool
  | .tuple elements => holdsListSlots elements
  | .list _ => true
  | .dict _ => true
  | _ => false

def holdsListSlots : List (Option (Data F)) → Bool
  | [] => false
  | none :: rest => holdsListSlots rest
  | some d :: rest => holdsList d || holdsListSlots rest

end

/-! ## Bytes at a position -/

/-- The bytes stand at the position. -/
def At (b : List UInt8) (k : ℕ) (bytes : List UInt8) : Prop := bytes <+: b.drop k

section At

variable {b bytes bytes' : List UInt8} {k m : ℕ} {c : UInt8}

theorem at_append :
    At b k (bytes ++ bytes') ↔ At b k bytes ∧ At b (k + bytes.length) bytes' := by
  simp only [At, ← List.drop_drop]
  constructor
  · rintro ⟨t, ht⟩
    rw [← ht, List.append_assoc, List.drop_left]
    exact ⟨List.prefix_append _ _, List.prefix_append _ _⟩
  · rintro ⟨⟨t, ht⟩, h⟩
    rw [← ht, List.drop_left] at h
    rw [← ht]
    exact (List.prefix_append_right_inj _).mpr h

theorem at_cons : At b k (c :: bytes) ↔ b[k]? = some c ∧ At b (k + 1) bytes := by
  have hsplit : At b k ([c] ++ bytes) ↔ At b k [c] ∧ At b (k + 1) bytes := at_append
  have hhead : At b k [c] ↔ b[k]? = some c := by
    rw [At, ← List.head?_drop]
    cases b.drop k <;> simp [eq_comm]
  rw [← hhead]
  exact hsplit

theorem At.mem (h : At b k bytes) (hk : k ≤ m) (hm : m < k + bytes.length)
    (hc : b[m]? = some c) : c ∈ bytes := by
  obtain ⟨t, ht⟩ := h
  have hindex : (b.drop k)[m - k]? = some c := by
    rw [List.getElem?_drop, Nat.add_sub_cancel' hk, hc]
  rw [← ht, List.getElem?_append_left (by omega)] at hindex
  exact List.mem_of_getElem? hindex

end At

/-! ## Lengths -/

section Lengths

variable [Platform F]

omit [Platform F] in
theorem two_le_magnitudeLength {n : ℕ} (h : 256 ≤ n) : 2 ≤ magnitudeLength n :=
  Nat.succ_le_succ (Nat.log_pos (by decide) h)

theorem length_encoding_int {i : Int64} (h : 0 ≤ i) :
    (encoding (.int i : Data F)).length ≤ 3 + magnitudeLength i.toInt.natAbs := by
  rw [encoding_int]
  split_ifs with hsmall
  · rw [length_intBytes, low32_of_nonneg h hsmall]
    split_ifs with hbyte
    · omega
    · have := two_le_magnitudeLength (n := i.toInt.natAbs) (by omega)
      omega
  · exact (length_bignumField i).le

/-- No magnitude that stands for an integer is shorter than the one the encoder
writes. -/
theorem magnitudeLength_le_of_bignum {sign : UInt8} {magnitude : List UInt8}
    (hlength : magnitude.length ≤ 8) (h : 0 ≤ bignumInteger sign magnitude) :
    magnitudeLength (bignumInteger sign magnitude).toInt.natAbs ≤ max 1 magnitude.length := by
  generalize hi : bignumInteger sign magnitude = i at h
  rw [Int64.le_iff_toInt_le] at h
  change 0 ≤ i.toInt at h
  by_cases hfull : magnitude.length = 8
  · exact le_max_of_le_right (hfull ▸ magnitudeLength_le i)
  · have hvalue := ofLittleEndian_lt magnitude
    have hpow : 256 ^ magnitude.length ≤ 256 ^ 7 := Nat.pow_le_pow_right (by decide) (by omega)
    have hread : i.toInt = if sign = 0 then (ofLittleEndian magnitude : ℤ)
        else -(ofLittleEndian magnitude : ℤ) := hi ▸ bignumInteger_toInt hlength (by omega)
    have hmagnitude : i.toInt.natAbs < 256 ^ magnitude.length := by
      split_ifs at hread <;> omega
    rcases Nat.eq_zero_or_pos i.toInt.natAbs with hzero | hpos
    · rw [hzero]
      exact le_max_left 1 _
    · exact le_max_of_le_right (Nat.log_lt_of_lt_pow hpos.ne' hmagnitude)

/-! ## What a tuple stands for -/

theorem denoteComplex_cases {ds : List (Data F)} {d : Data F} (h : denoteComplex ds = some d)
    (hd : Listable d) :
    (∃ keyword, ds = [.atom keyword] ∧ holdsList d = false ∧
      (writes d).flatten = (complexHeader keyword 0).flatten) ∨
    ∃ listData entries, ds = [.atom (cString "dict"), listData] ∧ d = .dict entries ∧
      (listData = .nil ∧ entries = [] ∨
        ∃ es, listData = .list es ∧ dictEntries es = some entries) := by
  unfold denoteComplex at h
  split at h
  next keyword =>
      refine .inl ⟨keyword, rfl, ?_⟩
      split_ifs at h with hnil htrue hfalse
      all_goals
        obtain rfl := Option.some.inj h
        refine ⟨rfl, ?_⟩
        simp [writes, *]
  next keyword listData =>
      split_ifs at h with hdict
      subst hdict
      split at h
      · exact .inr ⟨_, [], rfl, (Option.some.inj h).symm, .inl ⟨rfl, rfl⟩⟩
      next es =>
          obtain ⟨entries, hentries, rfl⟩ := Option.map_eq_some_iff.mp h
          exact .inr ⟨_, entries, rfl, rfl, .inr ⟨es, rfl, hentries⟩⟩
      · cases h
  · split_ifs at h
    split at h
    · obtain rfl := Option.some.inj h
      exact hd.elim
    · cases h
  · split_ifs at h
    obtain rfl := Option.some.inj h
    exact hd.elim
  · cases h

theorem list_of_dictEntries {es : List (Data F)}
    {entries : List (Option (Data F) × Option (Data F))} (h : dictEntries es = some entries)
    (hd : ListablePairs entries) :
    ListableList es ∧ entries.length = es.length ∧
      (writesPairs entries).flatten = (writesList es).flatten := by
  induction es using dictEntries.induct generalizing entries with
  | case1 =>
      cases h
      exact ⟨trivial, rfl, rfl⟩
  | case2 key value rest ih =>
      obtain ⟨entries, hrest, rfl⟩ := Option.map_eq_some_iff.mp h
      cases key with
      | none => exact hd.elim
      | some key =>
      cases value with
      | none => exact hd.elim
      | some value =>
          obtain ⟨hkey, hvalue, hpairs⟩ := hd
          obtain ⟨hlist, hlength, hwrites⟩ := ih hrest hpairs
          have htuple : ListableSlots [some key, some value] := ⟨hkey, hvalue, trivial⟩
          refine ⟨⟨⟨by simp, htuple⟩, hlist⟩, by simp [hlength], ?_⟩
          simp [writesPairs, writesList, writes, writesSlots, hwrites]
  | case3 d rest hother =>
      unfold dictEntries at h
      split at h
      · simp_all
      · simp_all
      · cases h

namespace Wire

variable {w : Wire}

theorem length_of_denote_atom {name : List UInt8} (h : w.denote = some (.atom name : Data F)) :
    3 + name.length ≤ w.bytes.length := by
  induction w using induct with
  | marked term ih =>
      have hterm := ih (denote_marked h).2
      rw [bytes_marked, List.length_cons]
      omega
  | atom text =>
      simp only [denote, Option.ite_none_right_eq_some, Option.some.injEq, Data.atom.injEq] at h
      obtain ⟨-, rfl⟩ := h
      rw [bytes_atom, length_atomField]
  | tuple large announced ws ih =>
      simp only [denote, Option.ite_none_right_eq_some, Option.bind_eq_some_iff] at h
      obtain ⟨-, ds, -, hdenote⟩ := h
      rcases denoteTuple_cases hdenote with ⟨⟨⟩, -⟩ | ⟨rest, -, hcomplex⟩
      exact absurd hcomplex denoteComplex_ne_atom
  | _ => simp [denote] at h

/-! ## The decoder runs ahead of the encoder -/

/-- Where the encoding of a term stands in the input and, from the same position
or a later one on, the wire term it is decoded from, the wire term does not end
before the encoding does; it ends behind it where it started behind its start or
holds a list. -/
def Outruns (F : Type) [Platform F] (b : List UInt8) (w : Wire) : Prop :=
  ∀ (d : Data F) (held : Bool) (p q : ℕ), w.denote = some d → Listable d → At b p (encoding d) →
    At b q w.bytes → p + held.toNat ≤ q →
      p + (encoding d).length + (held || holdsList d).toNat ≤ q + w.bytes.length

variable {b : List UInt8}

/-- A wire term that is no shorter than the encoding, of a term without lists. -/
theorem Outruns.of_length (h : ∀ d : Data F, w.denote = some d → Listable d →
    holdsList d = false ∧ (encoding d).length ≤ w.bytes.length) : Outruns F b w := by
  intro d held p q hdenote hd hp hq hpq
  obtain ⟨hlist, hlength⟩ := h d hdenote hd
  rw [hlist, Bool.or_false]
  omega

theorem Outruns.marked {term : Wire} (h : Outruns F b term) : Outruns F b (.marked term) := by
  intro d held p q hdenote hd hp hq hpq
  rw [bytes_marked, at_cons] at hq
  have hterm := h d held p (q + 1) (denote_marked hdenote).2 hd hp hq.2 (by omega)
  rw [bytes_marked, List.length_cons]
  omega

/-- A nil of one byte stands nowhere within the bytes of `{bert, nil}`. -/
theorem outruns_nil : Outruns F b .nil := by
  intro d held p q hdenote hd hp hq hpq
  obtain rfl := Option.some.inj hdenote
  have hlength : (encoding (.nil : Data F)).length = 15 := rfl
  have hbehind : p + 15 ≤ q := by
    by_contra hwithin
    have hmem : bertNil ∈ (complexHeader (cString "nil") 0).flatten :=
      hp.mem (by omega) (by omega) (at_cons.mp hq).1
    exact absurd hmem (by decide)
  have hheld : (held || holdsList (.nil : Data F)).toNat ≤ 1 := Bool.toNat_le _
  rw [hlength]
  change _ ≤ q + 1
  omega

/-- An integer of four bytes stands nowhere within the first three bytes of a
bignum. -/
theorem outruns_int (i : UInt32) : Outruns F b (.int i) := by
  intro d held p q hdenote hd hp hq hpq
  obtain rfl := Option.some.inj hdenote
  have hbytes : (Wire.int i).bytes.length = 5 := by simp [bytes, chunks]
  have hheld : (held || false).toNat ≤ 1 := Bool.toNat_le _
  have hvalue : (Int64.ofNat i.toNat).toInt = i.toNat := Int64.toInt_ofNat_of_lt (by
    have := i.toNat_lt
    omega)
  rw [encoding_int] at hp ⊢
  have hlist : holdsList (.int (Int64.ofNat i.toNat) : Data F) = false := rfl
  rw [hlist, hbytes]
  split_ifs at hp ⊢ with hsmall
  · have hlength := length_intBytes (low32 (Int64.ofNat i.toNat))
    rw [Bool.or_false]
    split_ifs at hlength <;> omega
  · have hfew : magnitudeLength (Int64.ofNat i.toNat).toInt.natAbs ≤ 4 := by
      have hpos := Encode.toInt_ne_zero_of_not_small hsmall
      apply Nat.log_lt_of_lt_pow (by omega)
      rw [hvalue]
      exact i.toNat_lt
    have hsign : ¬ Int64.ofNat i.toNat < 0 := Int64.not_lt.mpr hd
    have hbehind : p + 3 ≤ q := by
      by_contra hwithin
      rw [bignumField, if_neg hsign] at hp
      generalize magnitudeLength (Int64.ofNat i.toNat).toInt.natAbs = n at hp hfew
      have hstart : At b p [bertSmallBignum, UInt8.ofNat n, 0] := (at_append.mp hp).1
      have hmem := hstart.mem (by omega) (by rw [List.length_cons]; simp; omega) (at_cons.mp hq).1
      have habsent : ∀ n ≤ 4, bertInt ∉ [bertSmallBignum, UInt8.ofNat n, 0] := by decide
      exact habsent n hfew hmem
    rw [length_bignumField]
    omega

theorem outruns_bignum (large : Bool) (sign : UInt8) (magnitude : List UInt8) :
    Outruns F b (.bignum large sign magnitude) := by
  refine .of_length fun d hdenote hd ↦ ?_
  simp only [denote, Option.ite_none_right_eq_some, Option.some.injEq] at hdenote
  obtain ⟨hlength, rfl⟩ := hdenote
  refine ⟨rfl, ?_⟩
  have hencoding := length_encoding_int (F := F) hd
  have hmagnitude := magnitudeLength_le_of_bignum hlength hd
  have hbytes : 3 + magnitude.length ≤ (Wire.bignum large sign magnitude).bytes.length := by
    cases large <;> simp [bytes, chunks] <;> omega
  cases magnitude with
  | nil =>
      have hzero : bignumInteger sign [] = 0 := by
        simp [bignumInteger, bignumValue, bertStripSign]
      rw [hzero]
      exact Nat.le_trans (by decide : [bertSmallInt, 0].length ≤ 3) hbytes
  | cons byte magnitude =>
      rw [List.length_cons] at *
      omega

theorem outruns_list {ws : List Wire} {ds : List (Data F)} {held : Bool} {p q : ℕ}
    (ih : ∀ w ∈ ws, Outruns F b w) (hds : denoteList ws = some ds) (hd : ListableList ds)
    (hp : At b p (writesList ds).flatten) (hq : At b q (chunksList ws).flatten)
    (hpq : p + held.toNat ≤ q) :
    p + (writesList ds).flatten.length + (held || holdsListSlots (ds.map some)).toNat ≤
      q + (chunksList ws).flatten.length := by
  induction ws generalizing ds held p q with
  | nil =>
      cases hds
      simpa [writesList, chunksList, holdsListSlots] using hpq
  | cons w ws ihws =>
      obtain ⟨d, ds, hdenote, hrest, rfl⟩ := denoteList_cons_eq_some_iff.mp hds
      rw [writesList, List.flatten_append, at_append] at hp
      rw [chunksList, List.flatten_append, at_append] at hq
      have hfirst := ih w List.mem_cons_self d held p q hdenote hd.1 hp.1 hq.1 hpq
      have hlater := ihws (fun v hv ↦ ih v (List.mem_cons_of_mem w hv)) hrest hd.2 hp.2 hq.2 hfirst
      rw [writesList, chunksList, List.flatten_append, List.flatten_append, List.length_append,
        List.length_append, List.map_cons, holdsListSlots, ← Bool.or_assoc, ← Nat.add_assoc,
        ← Nat.add_assoc]
      exact hlater

omit [Platform F] in
theorem listableSlots_map_some {ds : List (Data F)} (h : ListableSlots (ds.map some)) :
    ListableList ds := by
  induction ds with
  | nil => trivial
  | cons d ds ih => exact ⟨h.1, ih h.2⟩

theorem Outruns.list {announced : ℕ} {ws : List Wire} {tail : UInt8}
    (ih : ∀ w ∈ ws, Outruns F b w) : Outruns F b (.list announced ws tail) := by
  intro d held p q hdenote hd hp hq hpq
  simp only [denote, Option.ite_none_right_eq_some, Option.map_eq_some_iff] at hdenote
  obtain ⟨-, ds, hds, rfl⟩ := hdenote
  have hheader : (listHeader ds.length).length = 5 := by simp [listHeader]
  have hsize : (bertList :: bigEndian 4 announced).length = 5 := by simp
  have hencoding : encoding (.list ds : Data F) =
      listHeader ds.length ++ (writesList ds).flatten := rfl
  rw [hencoding, at_append, hheader] at hp
  rw [bytes_list_eq, List.append_assoc, at_append, at_append, hsize] at hq
  have helements := outruns_list ih hds hd.2 hp.2 hq.2.1 (by omega : p + 5 + held.toNat ≤ q + 5)
  have hheld : (held || holdsList (.list ds : Data F)).toNat ≤ 1 := Bool.toNat_le _
  rw [hencoding, bytes_list_eq]
  simp only [List.length_append, hheader, hsize, List.length_singleton]
  omega

/-- A nil is one byte, behind a magic byte or not, or as long as the atom that
opens it. -/
theorem denote_nil_cases (h : w.denote = some (.nil : Data F)) :
    w.tag = bertNil ∨ w.tag = bertMagic ∨ 6 ≤ w.bytes.length := by
  cases w with
  | nil => exact .inl rfl
  | marked term => exact .inr (.inl rfl)
  | tuple large announced ws =>
      simp only [denote, Option.ite_none_right_eq_some, Option.bind_eq_some_iff] at h
      obtain ⟨-, ds, hds, hdenote⟩ := h
      rcases denoteTuple_cases hdenote with ⟨⟨⟩, -⟩ | ⟨rest, rfl, -⟩
      obtain ⟨first, vs, rfl, hfirst, -⟩ := denoteList_eq_cons hds
      have hlength : 3 + 4 ≤ first.chunks.flatten.length := length_of_denote_atom hfirst
      refine .inr (.inr ?_)
      rw [bytes_tuple_eq, chunksList, List.flatten_append, List.length_append, List.length_append]
      omega
  | _ => simp [denote] at h

/-- A nil behind the keywords of a dictionary stands nowhere within the bytes of
the empty list that the encoder writes. -/
theorem outruns_dict_nil {p q : ℕ} (h : w.denote = some (.nil : Data F))
    (hp : At b p (encoding (.dict [] : Data F))) (hq : At b q w.bytes) (hpq : p + 16 ≤ q) :
    p + (encoding (.dict [] : Data F)).length + 1 ≤ q + w.bytes.length := by
  have hlength : (encoding (.dict [] : Data F)).length = 21 := rfl
  have hnil : bertNil ∉ (complexHeader (cString "dict") 1 ++ [listHeader 0]).flatten := by decide
  have hmagic : bertMagic ∉ (complexHeader (cString "dict") 1 ++ [listHeader 0]).flatten := by
    decide
  have hpos := w.height_lt_length_bytes
  rw [bytes_eq] at hq
  have htag {c : UInt8} (hc : w.tag = c) (hwithin : q < p + 21) :
      c ∈ (complexHeader (cString "dict") 1 ++ [listHeader 0]).flatten :=
    hp.mem (by omega) hwithin (hc ▸ (at_cons.mp hq).1)
  rw [hlength]
  by_contra hless
  have hwithin : q < p + 21 := by omega
  rcases denote_nil_cases h with hc | hc | hlong
  · exact hnil (htag hc hwithin)
  · exact hmagic (htag hc hwithin)
  · omega

/-- The elements of a complex term, behind a header of two bytes or more. -/
theorem Outruns.complex {ws : List Wire} {ds : List (Data F)} {d : Data F} {held : Bool}
    {p q : ℕ} (ih : ∀ w ∈ ws, Outruns F b w)
    (hws : denoteList ws = some (.atom (cString "bert") :: ds))
    (hdenote : denoteComplex ds = some d) (hd : Listable d) (hp : At b p (encoding d))
    (hq : At b q (chunksList ws).flatten) (hpq : p + 2 + held.toNat ≤ q) :
    p + (encoding d).length + (held || holdsList d).toNat ≤ q + (chunksList ws).flatten.length := by
  have hbert : (cString "bert").length = 4 := rfl
  have hdict : (cString "dict").length = 4 := rfl
  have hatom {w : Wire} {name : List UInt8} (h : w.denote = some (.atom name : Data F)) :
      3 + name.length ≤ w.chunks.flatten.length := length_of_denote_atom h
  obtain ⟨w₁, ws, rfl, hfirst, hws⟩ := denoteList_eq_cons hws
  have hlength₁ := hatom hfirst
  rcases denoteComplex_cases hdenote hd with
    ⟨keyword, rfl, hlist, hwrites⟩ | ⟨listData, entries, rfl, rfl, hentries⟩
  · obtain ⟨w₂, ws, rfl, hsecond, -⟩ := denoteList_eq_cons hws
    have hlength₂ := hatom hsecond
    have hencoding : (encoding d).length = 12 + keyword.length := by
      rw [encoding, hwrites]
      simp [complexHeader, tupleHeader, length_atomField, hbert]
      omega
    rw [hencoding, hlist, Bool.or_false]
    simp only [chunksList, List.flatten_append, List.length_append]
    omega
  · obtain ⟨w₂, ws, rfl, hsecond, hws⟩ := denoteList_eq_cons hws
    obtain ⟨w₃, ws, rfl, hthird, -⟩ := denoteList_eq_cons hws
    have hlength₂ := hatom hsecond
    have hheld : (held || holdsList (.dict entries : Data F)).toNat ≤ 1 := Bool.toNat_le _
    simp only [chunksList, List.flatten_append, at_append] at hq
    have hstart : At b (q + w₁.chunks.flatten.length + w₂.chunks.flatten.length) w₃.bytes :=
      hq.2.2.1
    generalize hr : q + w₁.chunks.flatten.length + w₂.chunks.flatten.length = r at hstart
    suffices h : p + (encoding (.dict entries)).length + 1 ≤ r + w₃.bytes.length by
      simp only [chunksList, List.flatten_append, List.length_append]
      rw [bytes] at h
      omega
    rcases hentries with ⟨rfl, rfl⟩ | ⟨es, rfl, hes⟩
    · exact outruns_dict_nil hthird hp hstart (by omega)
    · obtain ⟨hlistable, hlength, hwrites⟩ := list_of_dictEntries hes hd.2
      have hencoding : encoding (.dict entries : Data F) =
          (complexHeader (cString "dict") 1).flatten ++ encoding (.list es) := by
        rw [encoding, encoding, writes, writes, List.flatten_append, List.flatten_cons,
          List.flatten_cons, hlength, hwrites]
      have hheader : (complexHeader (cString "dict") 1).flatten.length = 16 := rfl
      have hlist : Listable (.list es) := ⟨hlength ▸ hd.1, hlistable⟩
      rw [hencoding, at_append, hheader] at hp
      have hentries :=
        ih w₃ (by simp) (.list es) held (p + 16) r hthird hlist hp.2 hstart (by omega)
      have hlists : (held || holdsList (.list es : Data F)) = true := Bool.or_true held
      rw [hlists, Bool.toNat_true] at hentries
      rw [hencoding, List.length_append, hheader]
      omega

theorem Outruns.tuple {large : Bool} {announced : ℕ} {ws : List Wire}
    (ih : ∀ w ∈ ws, Outruns F b w) : Outruns F b (.tuple large announced ws) := by
  intro d held p q hdenote hd hp hq hpq
  simp only [denote, Option.ite_none_right_eq_some, Option.bind_eq_some_iff] at hdenote
  obtain ⟨hfits, ds, hds, hdenote⟩ := hdenote
  have hsize : (tupleTag large :: size large announced).length = if large then 5 else 2 := by
    cases large <;> simp
  rw [bytes_tuple_eq] at hq ⊢
  rw [at_append] at hq
  rw [List.length_append, ← Nat.add_assoc]
  have hheader : 2 ≤ (tupleTag large :: size large announced).length := by
    rw [hsize]
    split_ifs <;> omega
  rcases denoteTuple_cases hdenote with ⟨rfl, hlength⟩ | ⟨rest, rfl, hcomplex⟩
  · have hencoding : encoding (.tuple (ds.map some) : Data F) =
        tupleHeader announced ++ (writesList ds).flatten := by
      rw [encoding, writes, List.flatten_cons, writesSlots_map_some, List.length_map, hlength]
    have hless : (tupleHeader announced).length ≤
        (tupleTag large :: size large announced).length := by
      rw [hsize, length_tupleHeader]
      split_ifs at hfits ⊢ <;> omega
    rw [hencoding, at_append] at hp
    rw [hencoding, List.length_append, ← Nat.add_assoc]
    exact outruns_list ih hds (listableSlots_map_some hd.2) hp.2 hq.2 (by omega)
  · exact Outruns.complex ih hds hcomplex hd hp hq.2 (by omega)

/-- No wire term ends before the encoding of the term it stands for. -/
theorem outruns (w : Wire) : Outruns F b w := by
  induction w using induct with
  | marked term ih => exact ih.marked
  | nil => exact outruns_nil
  | smallInt i =>
      refine .of_length fun d hdenote hd ↦ ?_
      obtain rfl := Option.some.inj hdenote
      have hi := i.toNat_lt
      have hvalue : (Int64.ofNat i.toNat).toInt = i.toNat := Int64.toInt_ofNat_of_lt (by omega)
      have hsmall : Int64.ofNat i.toNat ≤ bertMaxInt ∧ bertMinInt ≤ Int64.ofNat i.toNat :=
        (small_iff _).mpr (by omega)
      rw [encoding_int, if_pos hsmall, length_intBytes, low32_of_nonneg hd hsmall,
        if_pos (by omega)]
      exact ⟨rfl, Nat.le_refl 2⟩
  | int i => exact outruns_int i
  | bignum large sign magnitude => exact outruns_bignum large sign magnitude
  | float text =>
      refine .of_length fun d hdenote hd ↦ ?_
      simp only [denote, Option.ite_none_right_eq_some, Option.map_eq_some_iff] at hdenote
      obtain ⟨-, x, -, rfl⟩ := hdenote
      exact hd.elim
  | atom name =>
      refine .of_length fun d hdenote hd ↦ ?_
      simp only [denote, Option.ite_none_right_eq_some, Option.some.injEq] at hdenote
      obtain ⟨-, rfl⟩ := hdenote
      exact ⟨rfl, by rw [bytes_atom, encoding, writes, List.flatten_singleton]⟩
  | string text =>
      refine .of_length fun d hdenote hd ↦ ?_
      simp only [denote, Option.ite_none_right_eq_some, Option.some.injEq] at hdenote
      obtain ⟨-, rfl⟩ := hdenote
      exact hd.elim
  | bin data =>
      refine .of_length fun d hdenote hd ↦ ?_
      simp only [denote, Option.ite_none_right_eq_some, Option.some.injEq] at hdenote
      obtain ⟨-, rfl⟩ := hdenote
      exact ⟨rfl, by rw [bytes_bin, encoding, writes, List.flatten_singleton]⟩
  | tuple large announced ws ih => exact .tuple ih
  | list announced ws tail ih => exact .list ih

/-- No wire term whose bytes are the encoding of a term that holds a list stands
for that term. -/
theorem denote_ne_of_encoding {d : Data F} (hd : Listable d) (hlist : holdsList d = true)
    (hbytes : w.bytes = encoding d) : w.denote ≠ some d := by
  intro hdenote
  have houtruns := w.outruns d false 0 0 hdenote hd (b := encoding d) (List.prefix_refl _)
    (hbytes ▸ List.prefix_refl _) (Nat.le_refl _)
  rw [hlist, hbytes] at houtruns
  exact absurd houtruns (by simp)

end Wire

end Lengths

end LibBert
