import LibBert.Reading.Heap

/-!
# Programs with a heap and programs without

A program with a heap mirrors one without when both ask their reader for the same
and report the same marks, up to the first request for memory that is refused and up to
the first misuse of the heap; behind a refused request the program with a heap asks for
nothing more, and behind a misuse there is only a fault.  Where no request is refused
and the heap is not misused the two cannot be told apart.
-/

namespace Reading

variable {β κ ε α γ α' γ' : Type} {quiet : ε → Prop}

/-- The way out of a program that was refused memory: no command, only `quiet` marks,
nothing written past the end of a block, and a value that is returned satisfies `E`. -/
def Broken (quiet : ε → Prop) (E : α → Prop) : Program β κ (HeapEvent ε) α → Prop
  | .ret a => E a
  | .read _ _ => False
  | .peek _ _ => False
  | .step _ _ => False
  | .emit (.invalid _) next => next = .fault
  | .emit (.overrun _ _) _ => False
  | .emit (.mark event) next => quiet event ∧ Broken quiet E next
  | .emit _ next => Broken quiet E next
  | .stuck => True
  | .fault => False
  | .timeout => False

/-- The two values are related by `Q`; where memory is refused, the value of the program
with a heap satisfies `E`. -/
def Mirrors (quiet : ε → Prop) (E : α → Prop) (Q : α → γ → Prop) :
    Program β κ (HeapEvent ε) α → Program β κ ε γ → Prop
  | .ret a, q => ∃ c, q = .ret c ∧ Q a c
  | .read size next, q =>
      ∃ next', q = .read size next' ∧ ∀ code, Mirrors quiet E Q (next code) (next' code)
  | .peek size next, q =>
      ∃ next', q = .peek size next' ∧ ∀ symbols, Mirrors quiet E Q (next symbols) (next' symbols)
  | .step size next, q => ∃ next', q = .step size next' ∧ Mirrors quiet E Q next next'
  | .emit (.invalid _) next, _ => next = .fault
  | .emit (.overrun _ _) next, _ => next = .fault
  | .emit .refused next, _ => Broken quiet E next
  | .emit (.mark event) next, q => ∃ next', q = .emit event next' ∧ Mirrors quiet E Q next next'
  | .emit (.abandoned _) next, q => Mirrors quiet E Q next q
  | .stuck, q => q = .stuck
  | .fault, _ => False
  | .timeout, q => q = .timeout

/-- Nothing is done but to the heap, and nothing is written: blocks are freed, touched and
abandoned, until one of them is not allocated.  A value that is returned satisfies `P`. -/
def Quietly (P : α → Prop) : Program β κ (HeapEvent ε) α → Prop
  | .ret a => P a
  | .emit (.invalid _) next => next = .fault
  | .emit (.abandoned _) next => Quietly P next
  | _ => False

theorem Broken.bind {E : α → Prop} {E' : α' → Prop} {p : Program β κ (HeapEvent ε) α}
    {f : α → Program β κ (HeapEvent ε) α'} (hp : Broken quiet E p)
    (hf : ∀ a, E a → Broken quiet E' (f a)) : Broken quiet E' (p >>= f) := by
  change Broken quiet E' (p.bind f)
  induction p with
  | ret a => exact hf a hp
  | read size next ih => exact hp
  | peek size next ih => exact hp
  | step size next ih => exact hp
  | emit event next ih =>
      cases event with
      | invalid b =>
          obtain rfl : next = .fault := hp
          exact rfl
      | overrun b length => exact hp
      | mark event => exact ⟨hp.1, ih hp.2⟩
      | _ => exact ih hp
  | stuck => trivial
  | fault => exact hp
  | timeout => exact hp

theorem Broken.mono {E E' : α → Prop} {p : Program β κ (HeapEvent ε) α} (hp : Broken quiet E p)
    (hE : ∀ a, E a → E' a) : Broken quiet E' p := by
  induction p with
  | ret a => exact hE a hp
  | read size next ih => exact hp
  | peek size next ih => exact hp
  | step size next ih => exact hp
  | emit event next ih =>
      cases event with
      | mark event => exact ⟨hp.1, ih hp.2⟩
      | abandoned blocks => exact ih hp
      | refused => exact ih hp
      | _ => exact hp
  | stuck => trivial
  | fault => exact hp
  | timeout => exact hp

namespace Mirrors

variable {E : α → Prop} {Q : α → γ → Prop} {E' : α' → Prop} {Q' : α' → γ' → Prop}
  {p : Program β κ (HeapEvent ε) α} {q : Program β κ ε γ}

theorem bind {f : α → Program β κ (HeapEvent ε) α'} {g : γ → Program β κ ε γ'}
    (hp : Mirrors quiet E Q p q) (hf : ∀ a c, Q a c → Mirrors quiet E' Q' (f a) (g c))
    (hbroken : ∀ a, E a → Broken quiet E' (f a)) : Mirrors quiet E' Q' (p >>= f) (q >>= g) := by
  change Mirrors quiet E' Q' (p.bind f) (q.bind g)
  induction p generalizing q with
  | ret a =>
      obtain ⟨c, rfl, hQ⟩ := hp
      exact hf a c hQ
  | read size next ih =>
      obtain ⟨next', rfl, hnext⟩ := hp
      exact ⟨_, rfl, fun code ↦ ih code (hnext code)⟩
  | peek size next ih =>
      obtain ⟨next', rfl, hnext⟩ := hp
      exact ⟨_, rfl, fun symbols ↦ ih symbols (hnext symbols)⟩
  | step size next ih =>
      obtain ⟨next', rfl, hnext⟩ := hp
      exact ⟨_, rfl, ih hnext⟩
  | emit event next ih =>
      cases event with
      | refused => exact Broken.bind hp hbroken
      | mark event =>
          obtain ⟨next', rfl, hnext⟩ := hp
          exact ⟨_, rfl, ih hnext⟩
      | abandoned blocks => exact ih hp
      | _ =>
          obtain rfl : next = .fault := hp
          exact rfl
  | stuck =>
      obtain rfl : q = .stuck := hp
      exact rfl
  | fault => exact hp.elim
  | timeout =>
      obtain rfl : q = .timeout := hp
      exact rfl

end Mirrors

namespace Quietly

variable {P P' : α → Prop} {p : Program β κ (HeapEvent ε) α}

theorem mono (hp : Quietly P p) (hP : ∀ a, P a → P' a) : Quietly P' p := by
  induction p with
  | ret a => exact hP a hp
  | emit event next ih =>
      cases event with
      | invalid b => exact hp
      | abandoned blocks => exact ih hp
      | _ => exact hp.elim
  | _ => exact hp.elim

theorem bind {Q : γ → Prop} {f : α → Program β κ (HeapEvent ε) γ} (hp : Quietly P p)
    (hf : ∀ a, P a → Quietly Q (f a)) : Quietly Q (p >>= f) := by
  change Quietly Q (p.bind f)
  induction p with
  | ret a => exact hf a hp
  | emit event next ih =>
      cases event with
      | invalid b =>
          obtain rfl : next = .fault := hp
          exact rfl
      | abandoned blocks => exact ih hp
      | _ => exact hp.elim
  | _ => exact hp.elim

/-- Without the heap nothing is done. -/
theorem mirrors {E : α → Prop} {Q : α → γ → Prop} {c : γ} (hp : Quietly P p)
    (hQ : ∀ a, P a → Q a c) : Mirrors quiet E Q p (.ret c) := by
  induction p with
  | ret a => exact ⟨c, rfl, hQ a hp⟩
  | emit event next ih =>
      cases event with
      | invalid b => exact hp
      | abandoned blocks => exact ih hp
      | _ => exact hp.elim
  | _ => exact hp.elim

theorem broken (hp : Quietly P p) : Broken quiet P p := by
  induction p with
  | ret a => exact hp
  | emit event next ih =>
      cases event with
      | invalid b => exact hp
      | abandoned blocks => exact ih hp
      | _ => exact hp.elim
  | _ => exact hp.elim

/-- Such a program meets every contract that these events are legal for. -/
theorem meets {C : Contract (HeapEvent ε)} (hinvalid : ∀ b, C.legal (.invalid b))
    (habandoned : ∀ blocks, C.legal (.abandoned blocks)) (hp : Quietly P p) : Meets C P p := by
  induction p with
  | ret a => exact hp
  | emit event next ih =>
      cases event with
      | invalid b =>
          obtain rfl : next = .fault := hp
          exact .inr ⟨hinvalid b, trivial⟩
      | abandoned blocks => exact .inr ⟨habandoned blocks, ih hp⟩
      | _ => exact hp.elim
  | _ => exact hp.elim

/-- It only has events, of which none is a mark, and returns or touches a block that is not
allocated. -/
theorem exists_emitting (hp : Quietly P p) :
    ∃ events, (∀ event, .mark event ∉ events) ∧
      ((∃ a, p = .emitting events (.ret a) ∧ P a) ∨
        ∃ b, p = .emitting events (.emit (.invalid b) .fault)) := by
  induction p with
  | ret a => exact ⟨[], fun _ ↦ List.not_mem_nil, .inl ⟨a, rfl, hp⟩⟩
  | emit event next ih =>
      cases event with
      | invalid b =>
          obtain rfl : next = .fault := hp
          exact ⟨[], fun _ ↦ List.not_mem_nil, .inr ⟨b, rfl⟩⟩
      | abandoned blocks =>
          obtain ⟨events, hunmarked, hends⟩ := ih hp
          refine ⟨.abandoned blocks :: events, by simpa using hunmarked, ?_⟩
          rcases hends with ⟨a, rfl, ha⟩ | ⟨b, rfl⟩
          · exact .inl ⟨a, rfl, ha⟩
          · exact .inr ⟨b, rfl⟩
      | _ => exact hp.elim
  | _ => exact hp.elim

/-- What cannot return mirrors every program. -/
theorem mirrors_of_false {E : α → Prop} {Q : α → γ → Prop} {q : Program β κ ε γ}
    (hp : Quietly (fun _ ↦ False) p) : Mirrors quiet E Q p q := by
  induction p with
  | emit event next ih =>
      cases event with
      | invalid b => exact hp
      | abandoned blocks => exact ih hp
      | _ => exact hp.elim
  | _ => exact hp.elim

end Quietly

section Run

variable {σ : Type} {ok : κ} {fails : κ → Prop}

/-- Equal ends of the two runs. -/
inductive Outcome.Agree (Q : α → γ → Prop) : Outcome σ α → Outcome σ γ → Prop
  | done {a : α} {c : γ} (h : Q a c) (s : σ) : Agree Q (.done a s) (.done c s)
  | stuck (s : σ) : Agree Q (.stuck s) (.stuck s)
  | fault (s : σ) : Agree Q (.fault s) (.fault s)
  | timeout (s : σ) : Agree Q (.timeout s) (.timeout s)

theorem Outcome.Agree.exists_left {Q : α → γ → Prop} {o : Outcome σ α} {c : γ} {s : σ}
    (h : Agree Q o (.done c s)) : ∃ a, o = .done a s ∧ Q a c := by
  cases h with
  | done h => exact ⟨_, rfl, h⟩

theorem Outcome.Agree.eq_stuck {Q : α → γ → Prop} {o : Outcome σ γ} {s : σ}
    (h : Agree Q (.stuck s) o) : o = .stuck s := by
  cases h
  rfl

theorem Outcome.Agree.eq_fault {Q : α → γ → Prop} {o : Outcome σ α} {s : σ}
    (h : Agree Q o (.fault s)) : o = .fault s := by
  cases h
  rfl

variable {E : α → Prop} {Q : α → γ → Prop} {p : Program β κ (HeapEvent ε) α}
  {q : Program β κ ε γ} (R : Reader β ok fails σ) (s : σ)

/-- Unless it misuses the heap, what is on its way out returns or gets stuck. -/
theorem Broken.run (h : Broken quiet E p) (hvalid : ∀ b, .invalid b ∉ trace R p s) :
    (∃ a, run R p s = .done a s ∧ E a) ∨ run R p s = .stuck s := by
  induction p with
  | ret a => exact .inl ⟨a, rfl, h⟩
  | read size next ih => exact h.elim
  | peek size next ih => exact h.elim
  | step size next ih => exact h.elim
  | emit event next ih =>
      have hrest := fun b hmem ↦ hvalid b (List.mem_cons_of_mem event hmem)
      cases event with
      | invalid b => exact absurd List.mem_cons_self (hvalid b)
      | overrun b length => exact h.elim
      | mark event => exact ih h.2 hrest
      | _ => exact ih h hrest
  | stuck => exact .inr rfl
  | fault => exact h.elim
  | timeout => exact h.elim

theorem Broken.misused_of_fault (h : Broken quiet E p) {t : σ}
    (hfault : Reading.run R p s = .fault t) : ∃ event ∈ trace R p s, event.Misuse := by
  induction p with
  | ret a => cases hfault
  | read size next ih => exact h.elim
  | peek size next ih => exact h.elim
  | step size next ih => exact h.elim
  | emit event next ih =>
      rw [trace_emit, List.exists_mem_cons_iff]
      cases event with
      | invalid b => exact .inl trivial
      | overrun b length => exact h.elim
      | mark event => exact .inr (ih h.2 hfault)
      | refused => exact .inr (ih h hfault)
      | abandoned blocks => exact .inr (ih h hfault)
  | stuck => cases hfault
  | fault => exact h.elim
  | timeout => cases hfault

/-- Where no request is refused, the run ends in a fault or as the other does. -/
theorem Mirrors.run (h : Mirrors quiet E Q p q) (hgranted : .refused ∉ trace R p s) :
    (∃ t, run R p s = .fault t) ∨ Outcome.Agree Q (run R p s) (Reading.run R q s) := by
  induction p generalizing q s with
  | ret a =>
      obtain ⟨c, rfl, hQ⟩ := h
      exact .inr (.done hQ s)
  | read size next ih =>
      obtain ⟨next', rfl, hnext⟩ := h
      exact ih _ _ (q := next' _) (hnext _) hgranted
  | peek size next ih =>
      obtain ⟨next', rfl, hnext⟩ := h
      exact ih _ _ (q := next' _) (hnext _) hgranted
  | step size next ih =>
      obtain ⟨next', rfl, hnext⟩ := h
      exact ih _ (q := next') hnext hgranted
  | emit event next ih =>
      have hrest := fun hmem ↦ hgranted (List.mem_cons_of_mem event hmem)
      cases event with
      | refused => exact absurd List.mem_cons_self hgranted
      | mark event =>
          obtain ⟨next', rfl, hnext⟩ := h
          exact ih _ (q := next') hnext hrest
      | abandoned blocks => exact ih _ h hrest
      | _ =>
          obtain rfl : next = .fault := h
          exact .inl ⟨s, rfl⟩
  | stuck =>
      obtain rfl : q = .stuck := h
      exact .inr (.stuck s)
  | fault => exact h.elim
  | timeout =>
      obtain rfl : q = .timeout := h
      exact .inr (.timeout s)

/-- A fault is one behind a misuse of the heap. -/
theorem Mirrors.misused_of_fault (h : Mirrors quiet E Q p q) {t : σ}
    (hfault : Reading.run R p s = .fault t) : ∃ event ∈ trace R p s, event.Misuse := by
  induction p generalizing q s with
  | ret a => cases hfault
  | read size next ih =>
      obtain ⟨next', rfl, hnext⟩ := h
      exact ih _ _ (q := next' _) (hnext _) hfault
  | peek size next ih =>
      obtain ⟨next', rfl, hnext⟩ := h
      exact ih _ _ (q := next' _) (hnext _) hfault
  | step size next ih =>
      obtain ⟨next', rfl, hnext⟩ := h
      exact ih _ (q := next') hnext hfault
  | emit event next ih =>
      rw [trace_emit, List.exists_mem_cons_iff]
      cases event with
      | invalid b => exact .inl trivial
      | overrun b length => exact .inl trivial
      | refused => exact .inr (Broken.misused_of_fault R s h hfault)
      | mark event =>
          obtain ⟨next', rfl, hnext⟩ := h
          exact .inr (ih _ hnext hfault)
      | abandoned blocks => exact .inr (ih _ h hfault)
  | stuck => cases hfault
  | fault => exact h.elim
  | timeout => cases hfault

/-- Where a request is refused, the run is on its way out. -/
theorem Mirrors.run_of_refused (h : Mirrors quiet E Q p q) (hrefused : .refused ∈ trace R p s)
    (hvalid : ∀ b, .invalid b ∉ trace R p s) :
    ∃ t, (∃ a, Reading.run R p s = .done a t ∧ E a) ∨ Reading.run R p s = .stuck t := by
  induction p generalizing q s with
  | ret a => cases hrefused
  | read size next ih =>
      obtain ⟨next', rfl, hnext⟩ := h
      exact ih _ _ (q := next' _) (hnext _) hrefused hvalid
  | peek size next ih =>
      obtain ⟨next', rfl, hnext⟩ := h
      exact ih _ _ (q := next' _) (hnext _) hrefused hvalid
  | step size next ih =>
      obtain ⟨next', rfl, hnext⟩ := h
      exact ih _ (q := next') hnext hrefused hvalid
  | emit event next ih =>
      have hrest := fun b hmem ↦ hvalid b (List.mem_cons_of_mem event hmem)
      cases event with
      | refused => exact ⟨s, Broken.run R s (p := next) h hrest⟩
      | mark event =>
          obtain ⟨next', rfl, hnext⟩ := h
          exact ih _ hnext ((List.mem_cons.mp hrefused).resolve_left (by simp)) hrest
      | abandoned blocks =>
          exact ih _ h ((List.mem_cons.mp hrefused).resolve_left (by simp)) hrest
      | _ =>
          obtain rfl : next = .fault := h
          simp [trace] at hrefused
  | stuck => cases hrefused
  | fault => cases hrefused
  | timeout => cases hrefused

theorem Broken.quiet_of_mem (h : Broken quiet E p) {event : ε} (hmem : .mark event ∈ trace R p s) :
    quiet event := by
  induction p with
  | ret a => cases hmem
  | read size next ih => exact h.elim
  | peek size next ih => exact h.elim
  | step size next ih => exact h.elim
  | emit first next ih =>
      cases first with
      | invalid b =>
          obtain rfl : next = .fault := h
          simp [trace] at hmem
      | overrun b length => exact h.elim
      | mark first =>
          rcases List.mem_cons.mp hmem with heq | hmem
          · cases heq
            exact h.1
          · exact ih h.2 hmem
      | _ => exact ih h ((List.mem_cons.mp hmem).resolve_left (by simp))
  | stuck => cases hmem
  | fault => cases hmem
  | timeout => cases hmem

/-- A program with a heap reports nothing but quiet marks beside those of the program
it mirrors. -/
theorem Mirrors.mem_trace (h : Mirrors quiet E Q p q) {event : ε}
    (hmem : .mark event ∈ trace R p s) : quiet event ∨ event ∈ trace R q s := by
  induction p generalizing q s with
  | ret a => cases hmem
  | read size next ih =>
      obtain ⟨next', rfl, hnext⟩ := h
      exact ih _ _ (q := next' _) (hnext _) hmem
  | peek size next ih =>
      obtain ⟨next', rfl, hnext⟩ := h
      exact ih _ _ (q := next' _) (hnext _) hmem
  | step size next ih =>
      obtain ⟨next', rfl, hnext⟩ := h
      exact ih _ (q := next') hnext hmem
  | emit first next ih =>
      cases first with
      | refused => exact .inl (Broken.quiet_of_mem R s h ((List.mem_cons.mp hmem).resolve_left
          (by simp)))
      | mark first =>
          obtain ⟨next', rfl, hnext⟩ := h
          rcases List.mem_cons.mp hmem with heq | hmem
          · cases heq
            exact .inr List.mem_cons_self
          · exact (ih _ hnext hmem).imp_right (List.mem_cons_of_mem first)
      | abandoned blocks => exact ih _ h ((List.mem_cons.mp hmem).resolve_left (by simp))
      | _ =>
          obtain rfl : next = .fault := h
          simp [trace] at hmem
  | stuck => cases hmem
  | fault => cases hmem
  | timeout => cases hmem

end Run

/-! ## Programs with a heap, from any heap -/

namespace Storing

/-- From every heap the program mirrors `q`. -/
def Tracks (quiet : ε → Prop) (E : α → Prop) (Q : α → γ → Prop) (m : Storing β κ ε α)
    (q : Program β κ ε γ) : Prop :=
  ∀ h, Mirrors quiet (fun r ↦ E r.1) (fun r c ↦ Q r.1 c) (m h) q

/-- From every heap the program is on its way out. -/
def GivesUp (quiet : ε → Prop) (E : α → Prop) (m : Storing β κ ε α) : Prop :=
  ∀ h, Broken quiet (fun r ↦ E r.1) (m h)

/-- Nothing is done but to the heap, where no block is allocated and these are not
any more. -/
def Frees (bs : List Block) (m : Storing β κ ε α) : Prop :=
  ∀ h, Quietly (fun r ↦ ∀ b ∈ r.2.live, b ∈ h.live ∧ b ∉ bs) (m h)

/-- Nothing is done but to the heap. -/
abbrev Silent (m : Storing β κ ε α) : Prop := Frees [] m

variable {E : α → Prop} {Q : α → γ → Prop} {E' : α' → Prop} {Q' : α' → γ' → Prop}
  {m : Storing β κ ε α} {q : Program β κ ε γ}

theorem Tracks.bind {f : α → Storing β κ ε α'} {g : γ → Program β κ ε γ'}
    (hm : Tracks quiet E Q m q) (hf : ∀ a c, Q a c → Tracks quiet E' Q' (f a) (g c))
    (hfails : ∀ a, E a → GivesUp quiet E' (f a)) : Tracks quiet E' Q' (m >>= f) (q >>= g) :=
  fun h ↦ (hm h).bind (fun r c hQ ↦ hf r.1 c hQ r.2) fun r hE ↦ hfails r.1 hE r.2

/-- Behind a part that asks for no memory. -/
theorem Tracks.bind_of_never {f : α → Storing β κ ε α'} {g : γ → Program β κ ε γ'}
    (hm : Tracks quiet (fun _ ↦ False) Q m q)
    (hf : ∀ a c, Q a c → Tracks quiet E' Q' (f a) (g c)) :
    Tracks quiet E' Q' (m >>= f) (q >>= g) := hm.bind hf fun _ hfalse ↦ hfalse.elim

theorem tracks_pure {a : α} {c : γ} (hQ : Q a c) :
    Tracks quiet E Q (pure a : Storing β κ ε α) (.ret c) := fun _ ↦ ⟨c, rfl, hQ⟩

theorem givesUp_pure {a : α} (hE : E a) : GivesUp quiet E (pure a : Storing β κ ε α) := fun _ ↦ hE

theorem GivesUp.bind {f : α → Storing β κ ε α'} (hm : GivesUp quiet E m)
    (hf : ∀ a, E a → GivesUp quiet E' (f a)) : GivesUp quiet E' (m >>= f) := fun h ↦
  (hm h).bind fun r hr ↦ hf r.1 hr r.2

theorem Frees.silent {bs : List Block} (hm : Frees bs m) : Silent m := fun h ↦
  (hm h).mono fun _ hr b hb ↦ ⟨(hr b hb).1, List.not_mem_nil⟩

theorem Frees.bind {bs : List Block} {f : α → Storing β κ ε α'} (hm : Silent m)
    (hf : ∀ a, Frees bs (f a)) : Frees bs (m >>= f) := fun h ↦
  (hm h).bind fun r hr ↦ (hf r.1 r.2).mono fun _ hr' b hb ↦
    ⟨(hr b (hr' b hb).1).1, (hr' b hb).2⟩

/-- A step that only concerns the heap goes before. -/
theorem Silent.tracks {f : α → Storing β κ ε α'} {q : Program β κ ε γ'} (hm : Silent m)
    (hf : ∀ a, Tracks quiet E' Q' (f a) q) : Tracks quiet E' Q' (m >>= f) q :=
  Tracks.bind_of_never (Q := fun _ _ ↦ True) (q := .ret ()) (g := fun _ ↦ q)
    (fun h ↦ (hm h).mirrors fun _ _ ↦ trivial) fun a _ _ ↦ hf a

theorem Silent.givesUp {f : α → Storing β κ ε α'} (hm : Silent m)
    (hf : ∀ a, GivesUp quiet E' (f a)) : GivesUp quiet E' (m >>= f) := fun h ↦
  (hm h).broken.bind fun r _ ↦ hf r.1 r.2

theorem tracks_malloc (size : ℕ) :
    Tracks quiet (fun b ↦ b = none) (fun b _ ↦ ∃ block, b = some block ∧ block.size = size)
      (malloc size : Storing β κ ε _) (.ret ()) := by
  intro h
  rw [malloc]
  split_ifs
  · exact ⟨(), rfl, _, rfl, rfl⟩
  · exact (rfl : Broken quiet _ (.ret _))

theorem silent_pure (a : α) : Silent (pure a : Storing β κ ε α) := fun _ _ hb ↦
  ⟨hb, List.not_mem_nil⟩

theorem frees_free (b : Block) : Frees [b] (free b : Storing β κ ε _) := by
  intro h
  rw [free]
  split_ifs
  · intro c hc
    refine ⟨Multiset.mem_of_mem_erase hc, fun hcb ↦ ?_⟩
    obtain rfl := List.mem_singleton.mp hcb
    exact (Multiset.Nodup.mem_erase_iff h.nodup).mp hc |>.1 rfl
  · exact rfl

theorem silent_free (b : Block) : Silent (free b : Storing β κ ε _) := (frees_free b).silent

theorem silent_touch (b : Block) : Silent (touch b : Storing β κ ε _) := by
  intro h
  rw [touch]
  split_ifs
  · exact fun c hc ↦ ⟨hc, List.not_mem_nil⟩
  · exact rfl

theorem silent_abandon (blocks : Multiset Block) :
    Silent (abandon blocks : Storing β κ ε _) := fun _ _ hb ↦ ⟨hb, List.not_mem_nil⟩

theorem tracks_write (b : Block) (offset size length : ℕ) :
    Tracks quiet (fun _ ↦ False) (fun _ _ ↦ True)
      (write b offset size length : Storing β κ ε _) (.ret ()) := by
  intro h
  rw [write]
  split_ifs
  · exact rfl
  · exact ⟨(), rfl, trivial⟩
  · exact rfl

/-- What is written past the end of its block. -/
theorem tracks_write_of_short {b : Block} {offset size : ℕ} (hshort : b.size < offset + size)
    (length : ℕ) (f : Unit → Storing β κ ε α) (q : Program β κ ε γ) :
    Tracks quiet E Q (write b offset size length >>= f) q := by
  intro h
  rw [bind_apply, write, if_pos hshort]
  split_ifs
  · exact rfl
  · exact rfl

theorem tracks_mark (event : ε) :
    Tracks quiet (fun _ ↦ False) (fun _ _ ↦ True) (mark event : Storing β κ ε _)
      (.emit event (.ret ())) := fun _ ↦ ⟨_, rfl, (), rfl, trivial⟩

theorem givesUp_mark {event : ε} (hquiet : quiet event) :
    GivesUp quiet (fun _ ↦ True) (mark event : Storing β κ ε _) := fun _ ↦ ⟨hquiet, trivial⟩

theorem tracks_lift {p : Program β κ ε α} (hp : p.Faultless) :
    Tracks quiet (fun _ ↦ False) Eq (lift p) p := by
  intro h
  rw [lift]
  change Mirrors _ _ _ ((p.relabel .mark).bind _) p
  induction p with
  | ret a => exact ⟨a, rfl, rfl⟩
  | read size next ih => exact ⟨next, rfl, fun code ↦ ih code (hp code)⟩
  | peek size next ih => exact ⟨next, rfl, fun symbols ↦ ih symbols (hp symbols)⟩
  | step size next ih => exact ⟨next, rfl, ih hp⟩
  | emit event next ih => exact ⟨next, rfl, ih hp⟩
  | stuck => rfl
  | fault => exact hp.elim
  | timeout => rfl

theorem tracks_timeout : Tracks quiet E Q (timeout : Storing β κ ε α) .timeout := fun _ ↦ rfl

theorem tracks_assigned {a : Option α} {c : Option γ} (hnone : a = none → c = none)
    (hsome : ∀ x, a = some x → ∃ y, c = some y ∧ Q x y) :
    Tracks quiet E Q (assigned a : Storing β κ ε α) (Program.assigned c) := by
  intro h
  cases a with
  | none =>
      obtain rfl := hnone rfl
      exact rfl
  | some x =>
      obtain ⟨y, rfl, hQ⟩ := hsome x rfl
      exact ⟨y, rfl, hQ⟩

end Storing

end Reading
