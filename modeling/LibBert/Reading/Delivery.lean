import LibBert.Reading.Program

/-!
# Delivery

`Delivers` says which chunks a sequence of successful requests returns.  The
plain reader holds its whole remaining input and delivers exactly the chunks
this starts with.
-/

namespace Reading

variable {β κ ε α γ σ τ : Type} {ok : κ} {fails : κ → Prop}

/-! ## Delivery -/

/-- Asking for, looking at and stepping over each chunk in turn leads from one
state to the other. -/
inductive Delivers (R : Reader β ok fails σ) : σ → List (List β) → σ → Prop
  | nil (s : σ) : Delivers R s [] s
  | cons {s s' t : σ} {chunk : List β} {chunks : List (List β)}
      (hread : R.read s chunk.length = (ok, s'))
      (hpeek : R.peek s' chunk.length = chunk)
      (hrest : Delivers R (R.step s' chunk.length) chunks t) :
      Delivers R s (chunk :: chunks) t

variable {R : Reader β ok fails σ}

@[simp] theorem delivers_nil_iff {s t : σ} : Delivers R s [] t ↔ s = t :=
  ⟨fun h ↦ by cases h; rfl, fun h ↦ h ▸ .nil s⟩

theorem delivers_cons_iff {s t : σ} {chunk : List β} {chunks : List (List β)} :
    Delivers R s (chunk :: chunks) t ↔
      ∃ s', R.read s chunk.length = (ok, s') ∧ R.peek s' chunk.length = chunk ∧
        Delivers R (R.step s' chunk.length) chunks t := by
  constructor
  · rintro (_ | ⟨hread, hpeek, hrest⟩)
    exact ⟨_, hread, hpeek, hrest⟩
  · rintro ⟨s', hread, hpeek, hrest⟩
    exact .cons hread hpeek hrest

theorem delivers_append_iff {s t : σ} {xs ys : List (List β)} :
    Delivers R s (xs ++ ys) t ↔ ∃ u, Delivers R s xs u ∧ Delivers R u ys t := by
  induction xs generalizing s with
  | nil => simp
  | cons chunk xs ih =>
      simp only [List.cons_append, delivers_cons_iff, ih]
      constructor
      · rintro ⟨s', hread, hpeek, u, hxs, hys⟩
        exact ⟨u, ⟨s', hread, hpeek, hxs⟩, hys⟩
      · rintro ⟨u, ⟨s', hread, hpeek, hxs⟩, hys⟩
        exact ⟨s', hread, hpeek, u, hxs, hys⟩

theorem delivers_cons_split {s t : σ} {chunk : List β} {chunks : List (List β)} :
    Delivers R s (chunk :: chunks) t ↔
      ∃ u, Delivers R s [chunk] u ∧ Delivers R u chunks t := by
  rw [← List.singleton_append, delivers_append_iff]

/-- A request that succeeds delivers what can then be looked at. -/
theorem delivers_of_read {s t : σ} {size : ℕ} (hread : R.read s size = (ok, t)) :
    (R.peek t size).length = size ∧ Delivers R s [R.peek t size] (R.step t size) := by
  have hlength := R.peek_length s size t hread
  refine ⟨hlength, ?_⟩
  rw [delivers_cons_iff, hlength]
  exact ⟨t, hread, rfl, .nil _⟩

/-- What a reader delivers is determined by how much is asked for. -/
theorem Delivers.functional {s t t' : σ} {xs ys : List (List β)}
    (hxs : Delivers R s xs t) (hys : Delivers R s ys t')
    (hlengths : xs.map List.length = ys.map List.length) : xs = ys ∧ t = t' := by
  induction hxs generalizing ys with
  | nil s =>
      obtain rfl : ys = [] := by simpa using hlengths.symm
      simpa using hys
  | cons hread hpeek _ ih =>
      cases ys with
      | nil => simp at hlengths
      | cons chunk ys =>
          simp only [List.map_cons, List.cons.injEq] at hlengths
          obtain ⟨hlength, hlengths⟩ := hlengths
          obtain ⟨s', hread', hpeek', hrest⟩ := delivers_cons_iff.mp hys
          rw [← hlength, hread] at hread'
          obtain rfl : _ = s' := congrArg Prod.snd hread'
          rw [← hlength] at hpeek' hrest
          obtain ⟨rfl, rfl⟩ := ih hrest hlengths
          exact ⟨by rw [← hpeek, hpeek'], rfl⟩

/-! ## The plain reader -/

/-- The reader that holds the whole remaining input: a request fails with
`empty` when nothing is left and with `short` when too little is left. -/
def listReader (ok empty short : κ) (hempty : fails empty) (hshort : fails short)
    (hempty' : empty ≠ ok) (hshort' : short ≠ ok) : Reader β ok fails (List β) where
  read s size := (if size ≤ s.length then ok else if s.isEmpty then empty else short, s)
  peek s size := s.take size
  step s size := s.drop size
  read_code s size := by
    dsimp only
    split_ifs
    · exact .inl rfl
    · exact .inr hempty
    · exact .inr hshort
  read_again s size t h := by
    obtain rfl : s = t := congrArg Prod.snd h
    exact h
  peek_length s size t h := by
    obtain rfl : s = t := congrArg Prod.snd h
    have hcode := congrArg Prod.fst h
    dsimp only at hcode
    split_ifs at hcode with hle hnil
    · exact List.length_take_of_le hle
    · exact absurd hcode hempty'
    · exact absurd hcode hshort'

section ListReader

variable {empty short : κ} {hempty : fails empty} {hshort : fails short}
  {hempty' : empty ≠ ok} {hshort' : short ≠ ok}

theorem listReader_read_eq_ok_iff {s t : List β} {size : ℕ} :
    (listReader ok empty short hempty hshort hempty' hshort').read s size = (ok, t) ↔
      size ≤ s.length ∧ s = t := by
  by_cases hle : size ≤ s.length
  · simp [listReader, hle]
  · by_cases hnil : s = [] <;> simp [listReader, hle, hnil, hempty', hshort']

/-- The plain reader delivers exactly the chunks its input starts with. -/
theorem listReader_delivers_iff {s t : List β} {chunks : List (List β)} :
    Delivers (listReader ok empty short hempty hshort hempty' hshort') s chunks t ↔
      s = chunks.flatten ++ t := by
  induction chunks generalizing s with
  | nil => simp
  | cons chunk chunks ih =>
      simp only [delivers_cons_iff, listReader_read_eq_ok_iff, ih, List.flatten_cons]
      constructor
      · rintro ⟨s', ⟨-, rfl⟩, hpeek, hrest⟩
        change s.take chunk.length = chunk at hpeek
        change s.drop chunk.length = chunks.flatten ++ t at hrest
        rw [List.append_assoc, ← hrest]
        conv_lhs => rw [← List.take_append_drop chunk.length s, hpeek]
      · rintro rfl
        refine ⟨_, ⟨by simp, rfl⟩, ?_, ?_⟩ <;> simp [listReader]

end ListReader

end Reading
