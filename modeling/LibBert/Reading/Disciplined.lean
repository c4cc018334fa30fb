import LibBert.Reading.Delivery

/-!
# Disciplined programs and their invariants

A program is disciplined when it asks for at most a fixed number of symbols at a
time and never touches more than the last successful request promised.  What the
commands of such a program keep holds at every point of its runs.
-/

namespace Reading

variable {β κ ε α γ σ : Type} {ok : κ} {fails : κ → Prop}

/-! ## Disciplined programs -/

/-- Run from a point where `avail` symbols are promised, the program asks for at
most `bound` symbols at a time and only touches promised symbols. -/
def Disciplined (ok : κ) (fails : κ → Prop) (bound : ℕ) : ℕ → Program β κ ε α → Prop
  | _, .ret _ => True
  | _, .read size next =>
      size ≤ bound ∧ Disciplined ok fails bound size (next ok) ∧
        ∀ code, fails code → Disciplined ok fails bound 0 (next code)
  | avail, .peek size next =>
      size ≤ avail ∧ ∀ symbols, Disciplined ok fails bound avail (next symbols)
  | avail, .step size next => size ≤ avail ∧ Disciplined ok fails bound (avail - size) next
  | avail, .emit _ next => Disciplined ok fails bound avail next
  | _, .stuck => True
  | _, .fault => True
  | _, .timeout => True

theorem Disciplined.mono {bound avail avail' : ℕ} {p : Program β κ ε α}
    (h : Disciplined ok fails bound avail p) (hle : avail ≤ avail') :
    Disciplined ok fails bound avail' p := by
  induction p generalizing avail avail' with
  | ret a => trivial
  | read size next ih => exact h
  | peek size next ih =>
      exact ⟨Nat.le_trans h.1 hle, fun symbols ↦ ih symbols (h.2 symbols) hle⟩
  | step size next ih =>
      exact ⟨Nat.le_trans h.1 hle, ih h.2 (Nat.sub_le_sub_right hle size)⟩
  | emit event next ih => exact ih h hle
  | stuck => trivial
  | fault => trivial
  | timeout => trivial

@[simp] theorem disciplined_pure {bound avail : ℕ} (a : α) :
    Disciplined ok fails bound avail (pure a : Program β κ ε α) ↔ True := Iff.rfl

@[simp] theorem disciplined_assigned {bound avail : ℕ} (a : Option α) :
    Disciplined ok fails bound avail (Program.assigned a : Program β κ ε α) ↔ True := by
  cases a <;> exact Iff.rfl

theorem Disciplined.bind {bound avail : ℕ} {p : Program β κ ε α}
    {f : α → Program β κ ε γ} (hp : Disciplined ok fails bound avail p)
    (hf : ∀ a, Disciplined ok fails bound 0 (f a)) :
    Disciplined ok fails bound avail (p >>= f) := by
  change Disciplined ok fails bound avail (p.bind f)
  induction p generalizing avail with
  | ret a => exact (hf a).mono (Nat.zero_le avail)
  | read size next ih =>
      exact ⟨hp.1, ih _ hp.2.1, fun code hcode ↦ ih _ (hp.2.2 code hcode)⟩
  | peek size next ih => exact ⟨hp.1, fun symbols ↦ ih _ (hp.2 symbols)⟩
  | step size next ih => exact ⟨hp.1, ih hp.2⟩
  | emit event next ih => exact ih hp
  | stuck => trivial
  | fault => trivial
  | timeout => trivial

/-! ## Invariants -/

/-- A property of states, given how many symbols are promised, that requests for
at most `bound` symbols and steps over promised ones keep. -/
structure Invariant (R : Reader β ok fails σ) (bound : ℕ) where
  Holds : ℕ → σ → Prop
  weaken : ∀ {avail s}, Holds avail s → Holds 0 s
  read_ok : ∀ {avail s size}, Holds avail s → size ≤ bound → (R.read s size).1 = ok →
    Holds size (R.read s size).2
  read_fail : ∀ {avail s size}, Holds avail s → size ≤ bound → fails (R.read s size).1 →
    Holds 0 (R.read s size).2
  step : ∀ {avail s size}, Holds avail s → size ≤ avail → Holds (avail - size) (R.step s size)

/-- The conditions follow from the invariant wherever a disciplined program can
meet them. -/
structure Invariant.Allows {R : Reader β ok fails σ} {bound : ℕ} (inv : Invariant R bound)
    (W : Watch ε σ) : Prop where
  read : ∀ {avail s size}, inv.Holds avail s → size ≤ bound → W.onRead s size
  peek : ∀ {avail s size}, inv.Holds avail s → size ≤ avail → W.onPeek s size
  step : ∀ {avail s size}, inv.Holds avail s → size ≤ avail → W.onStep s size
  emit : ∀ {avail s} event, inv.Holds avail s → W.onEmit event s
  stuck : ∀ {avail s}, inv.Holds avail s → W.onStuck s
  fault : ∀ {avail s}, inv.Holds avail s → W.onFault s

namespace Invariant

variable {R : Reader β ok fails σ} {W : Watch ε σ} {bound avail : ℕ} {p : Program β κ ε α}
  {s t : σ} {a : α}

/-- Behind a request a disciplined program goes on in a state where the invariant holds. -/
theorem answered (inv : Invariant R bound) {size : ℕ} {next : κ → Program β κ ε α}
    (hp : Disciplined ok fails bound avail (.read size next)) (h : inv.Holds avail s) :
    ∃ avail', Disciplined ok fails bound avail' (next (R.read s size).1) ∧
      inv.Holds avail' (R.read s size).2 := by
  rcases R.read_code s size with hcode | hcode
  · refine ⟨size, ?_, inv.read_ok h hp.1 hcode⟩
    rw [hcode]
    exact hp.2.1
  · exact ⟨0, hp.2.2 _ hcode, inv.read_fail h hp.1 hcode⟩

/-- What holds before a disciplined run holds behind it. -/
theorem run (inv : Invariant R bound) (hp : Disciplined ok fails bound avail p)
    (h : inv.Holds avail s) (hrun : Reading.run R p s = .done a t) : inv.Holds 0 t := by
  induction p generalizing avail s with
  | ret a =>
      cases hrun
      exact inv.weaken h
  | read size next ih =>
      obtain ⟨_, hnext, hholds⟩ := inv.answered hp h
      exact ih _ hnext hholds hrun
  | peek size next ih => exact ih _ (hp.2 _) h hrun
  | step size next ih => exact ih hp.2 (inv.step h hp.1) hrun
  | emit event next ih => exact ih hp h hrun
  | stuck => cases hrun
  | fault => cases hrun
  | timeout => cases hrun

/-- An invariant that allows what is watched makes a disciplined run meet it. -/
theorem along {inv : Invariant R bound} (hW : inv.Allows W)
    (htimeout : ∀ {avail s}, inv.Holds avail s → W.onTimeout s)
    (hp : Disciplined ok fails bound avail p) (h : inv.Holds avail s) : Along R W p s := by
  induction p generalizing avail s with
  | ret a => trivial
  | read size next ih =>
      refine ⟨hW.read h hp.1, ?_⟩
      obtain ⟨_, hnext, hholds⟩ := inv.answered hp h
      exact ih _ hnext hholds
  | peek size next ih => exact ⟨hW.peek h hp.1, ih _ (hp.2 _) h⟩
  | step size next ih => exact ⟨hW.step h hp.1, ih hp.2 (inv.step h hp.1)⟩
  | emit event next ih => exact ⟨hW.emit event h, ih hp h⟩
  | stuck => exact hW.stuck h
  | fault => exact hW.fault h
  | timeout => exact htimeout h

/-- So do successive runs. -/
theorem alongRuns {inv : Invariant R bound} (hW : inv.Allows W)
    (htimeout : ∀ {avail s}, inv.Holds avail s → W.onTimeout s)
    (hp : Disciplined ok fails bound 0 p) (n : ℕ) (h : inv.Holds 0 s) : AlongRuns R W p n s := by
  induction n generalizing s with
  | zero => trivial
  | succ n ih =>
      exact ⟨inv.along hW htimeout hp h, fun a t hrun ↦ ih (inv.run hp h hrun)⟩

end Invariant

/-- An invariant with a size that requests do not increase and steps decrease by
what they step over. -/
structure Measure (R : Reader β ok fails σ) (bound : ℕ) extends Invariant R bound where
  size : σ → ℕ
  read_le : ∀ {avail s n}, Holds avail s → n ≤ bound → size (R.read s n).2 ≤ size s
  step_le : ∀ {avail s n}, Holds avail s → n ≤ avail → size (R.step s n) + n ≤ size s

namespace Measure

variable {R : Reader β ok fails σ} {bound : ℕ} (M : Measure R bound)

/-- The invariant that the size is at most `m`. -/
def below (m : ℕ) : Invariant R bound where
  Holds avail s := M.Holds avail s ∧ M.size s ≤ m
  weaken h := ⟨M.weaken h.1, h.2⟩
  read_ok h hsize hcode := ⟨M.read_ok h.1 hsize hcode, Nat.le_trans (M.read_le h.1 hsize) h.2⟩
  read_fail h hsize hcode :=
    ⟨M.read_fail h.1 hsize hcode, Nat.le_trans (M.read_le h.1 hsize) h.2⟩
  step h hsize :=
    ⟨M.step h.1 hsize, Nat.le_trans (Nat.le_of_add_right_le (M.step_le h.1 hsize)) h.2⟩

theorem delivers {avail : ℕ} {s t : σ} {chunks : List (List β)} (h : M.Holds avail s)
    (hchunks : ∀ chunk ∈ chunks, chunk.length ≤ bound) (hdelivers : Delivers R s chunks t) :
    M.Holds 0 t ∧ M.size t + chunks.flatten.length ≤ M.size s := by
  induction hdelivers generalizing avail with
  | nil s => exact ⟨M.weaken h, Nat.le_refl _⟩
  | @cons s s' t chunk chunks hread hpeek hrest ih =>
      have hbound := hchunks chunk List.mem_cons_self
      have hle : M.size s' ≤ M.size s := by
        simpa [hread] using M.read_le h hbound
      have hpromised : M.Holds chunk.length s' := by
        simpa [hread] using M.read_ok h hbound (congrArg Prod.fst hread)
      have hstep := M.step_le hpromised (Nat.le_refl _)
      obtain ⟨hholds, hsize⟩ := ih (M.step hpromised (Nat.le_refl _))
        fun chunk' hchunk' ↦ hchunks chunk' (List.mem_cons_of_mem chunk hchunk')
      refine ⟨hholds, ?_⟩
      rw [List.flatten_cons, List.length_append]
      omega

theorem size_le_of_run {avail : ℕ} {p : Program β κ ε α} {s t : σ} {a : α}
    (hp : Disciplined ok fails bound avail p) (h : M.Holds avail s)
    (hrun : run R p s = .done a t) : M.Holds 0 t ∧ M.size t ≤ M.size s :=
  (M.below (M.size s)).run hp ⟨h, Nat.le_refl _⟩ hrun

end Measure

/-! ## Programs that call another -/

/-- The program is disciplined but for calls of `q`, never gives up on its own,
and only emits events or gets stuck if it is `loud`. -/
inductive Calls (ok : κ) (fails : κ → Prop) (bound : ℕ) (loud : Prop) (q : Program β κ ε γ) :
    ℕ → Program β κ ε α → Prop
  | ret (avail : ℕ) (a : α) : Calls ok fails bound loud q avail (.ret a)
  | read {size : ℕ} {next : κ → Program β κ ε α} (avail : ℕ) (hsize : size ≤ bound)
      (hok : Calls ok fails bound loud q size (next ok))
      (hfail : ∀ code, fails code → Calls ok fails bound loud q 0 (next code)) :
      Calls ok fails bound loud q avail (.read size next)
  | peek {avail size : ℕ} {next : List β → Program β κ ε α} (hsize : size ≤ avail)
      (hnext : ∀ symbols, Calls ok fails bound loud q avail (next symbols)) :
      Calls ok fails bound loud q avail (.peek size next)
  | step {avail size : ℕ} {next : Program β κ ε α} (hsize : size ≤ avail)
      (hnext : Calls ok fails bound loud q (avail - size) next) :
      Calls ok fails bound loud q avail (.step size next)
  | emit {avail : ℕ} {next : Program β κ ε α} (event : ε) (hloud : loud)
      (hnext : Calls ok fails bound loud q avail next) :
      Calls ok fails bound loud q avail (.emit event next)
  | stuck (avail : ℕ) (hloud : loud) : Calls ok fails bound loud q avail .stuck
  | fault (avail : ℕ) : Calls ok fails bound loud q avail .fault
  | call {f : γ → Program β κ ε α} (avail : ℕ) (hf : ∀ c, Calls ok fails bound loud q 0 (f c)) :
      Calls ok fails bound loud q avail (q >>= f)

namespace Calls

variable {q : Program β κ ε γ} {bound avail : ℕ} {loud : Prop}

theorem mono {avail' : ℕ} {p : Program β κ ε α} (h : Calls ok fails bound loud q avail p)
    (hle : avail ≤ avail') : Calls ok fails bound loud q avail' p := by
  induction h generalizing avail' with
  | ret _ a => exact .ret _ a
  | read _ hsize hok hfail => exact .read _ hsize hok hfail
  | peek hsize _ ih => exact .peek (Nat.le_trans hsize hle) fun symbols ↦ ih symbols hle
  | step hsize _ ih =>
      exact .step (Nat.le_trans hsize hle) (ih (Nat.sub_le_sub_right hle _))
  | emit event hloud _ ih => exact .emit event hloud (ih hle)
  | stuck _ hloud => exact .stuck _ hloud
  | fault _ => exact .fault _
  | call _ hf => exact .call _ hf

theorem bind {δ : Type} {p : Program β κ ε α} {f : α → Program β κ ε δ}
    (hp : Calls ok fails bound loud q avail p) (hf : ∀ a, Calls ok fails bound loud q 0 (f a)) :
    Calls ok fails bound loud q avail (p >>= f) := by
  induction hp with
  | ret avail a => exact (hf a).mono (Nat.zero_le avail)
  | read avail hsize _ _ ihok ihfail => exact .read avail hsize ihok ihfail
  | peek hsize _ ih => exact .peek hsize ih
  | step hsize _ ih => exact .step hsize ih
  | emit event hloud _ ih => exact .emit event hloud ih
  | stuck avail hloud => exact .stuck avail hloud
  | fault avail => exact .fault avail
  | call avail _ ih =>
      rw [Program.bind_assoc]
      exact .call avail ih

theorem assigned (hloud : loud) (a : Option α) :
    Calls ok fails bound loud q avail (Program.assigned a) := by
  cases a with
  | none => exact .stuck avail hloud
  | some a => exact .ret avail a

theorem disciplined {p : Program β κ ε α} (h : Calls ok fails bound loud q avail p)
    (hq : Disciplined ok fails bound 0 q) : Disciplined ok fails bound avail p := by
  induction h with
  | ret => trivial
  | read _ hsize _ _ ihok ihfail => exact ⟨hsize, ihok, ihfail⟩
  | peek hsize _ ih => exact ⟨hsize, ih⟩
  | step hsize _ ih => exact ⟨hsize, ih⟩
  | emit _ _ _ ih => exact ih
  | stuck => trivial
  | fault => trivial
  | call avail _ ih => exact (hq.mono (Nat.zero_le avail)).bind ih

/-- An invariant that allows what is watched makes a program meet it wherever
what it calls does. -/
theorem along {R : Reader β ok fails σ} {W : Watch ε σ} {inv : Invariant R bound}
    (hW : inv.Allows W) {p : Program β κ ε α} (h : Calls ok fails bound loud q avail p)
    (hq : Disciplined ok fails bound 0 q) (halong : ∀ t, inv.Holds 0 t → Along R W q t) {s : σ}
    (hs : inv.Holds avail s) : Along R W p s := by
  induction h generalizing s with
  | ret => trivial
  | @read size _ _ hsize _ _ ihok ihfail =>
      refine ⟨hW.read hs hsize, ?_⟩
      rcases R.read_code s size with hcode | hcode
      · rw [hcode]
        exact ihok (inv.read_ok hs hsize hcode)
      · exact ihfail _ hcode (inv.read_fail hs hsize hcode)
  | peek hsize _ ih => exact ⟨hW.peek hs hsize, ih _ hs⟩
  | step hsize _ ih => exact ⟨hW.step hs hsize, ih (inv.step hs hsize)⟩
  | emit event _ _ ih => exact ⟨hW.emit event hs, ih hs⟩
  | stuck => exact hW.stuck hs
  | fault => exact hW.fault hs
  | call _ _ ih =>
      rw [along_bind]
      exact ⟨halong s (inv.weaken hs), fun c t hrun ↦ ih c (inv.run hq (inv.weaken hs) hrun)⟩

/-- A program that is not loud meets a watch that does not concern its commands
wherever what it calls does. -/
theorem along_quiet {R : Reader β ok fails σ} {W : Watch ε σ} (hW : W.OnEvents)
    {p : Program β κ ε α} (h : Calls ok fails bound False q avail p) (hq : ∀ t, Along R W q t)
    (s : σ) : Along R W p s := by
  induction h generalizing s with
  | ret => trivial
  | @read size _ _ _ _ _ ihok ihfail =>
      refine ⟨hW.read s size, ?_⟩
      rcases R.read_code s size with hcode | hcode
      · rw [hcode]
        exact ihok _
      · exact ihfail _ hcode _
  | peek _ _ ih => exact ⟨hW.peek s _, ih _ s⟩
  | step _ _ ih => exact ⟨hW.step s _, ih _⟩
  | emit _ hloud => exact hloud.elim
  | stuck _ hloud => exact hloud.elim
  | fault => exact hW.fault s
  | call _ _ ih =>
      rw [along_bind]
      exact ⟨hq s, fun c t _ ↦ ih c t⟩

end Calls

end Reading
