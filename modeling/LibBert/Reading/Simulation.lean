import LibBert.Reading.Disciplined

/-!
# Simulation between readers

A disciplined program behaves alike over any two readers that answer its
requests alike.
-/

namespace Reading

variable {β κ ε α σ τ : Type} {ok : κ} {fails : κ → Prop} {R : Reader β ok fails σ}

/-! ## Simulation -/

/-- A relation between the states of two readers, indexed by the number of
promised symbols, that requests up to `bound` and steps keep.  A request need
only be answered alike where `ample` holds. -/
structure Simulation (R : Reader β ok fails σ) (S : Reader β ok fails τ)
    (bound : ℕ) (ample : σ → ℕ → Prop) where
  rel : ℕ → σ → τ → Prop
  weaken : ∀ {avail s t}, rel avail s t → rel 0 s t
  read_code : ∀ {avail s t size}, rel avail s t → size ≤ bound → ample s size →
    (R.read s size).1 = (S.read t size).1
  read_ok : ∀ {avail s t size}, rel avail s t → size ≤ bound → ample s size →
    (R.read s size).1 = ok → rel size (R.read s size).2 (S.read t size).2
  read_fail : ∀ {avail s t size}, rel avail s t → size ≤ bound → ample s size →
    fails (R.read s size).1 → rel 0 (R.read s size).2 (S.read t size).2
  peek : ∀ {avail s t size}, rel avail s t → size ≤ avail → R.peek s size = S.peek t size
  step : ∀ {avail s t size}, rel avail s t → size ≤ avail →
    rel (avail - size) (R.step s size) (S.step t size)

/-- Behind an ample request a disciplined program goes on in related states. -/
theorem Simulation.answered {S : Reader β ok fails τ} {bound : ℕ} {ample : σ → ℕ → Prop}
    (sim : Simulation R S bound ample) {avail size : ℕ} {next : κ → Program β κ ε α} {s : σ}
    {t : τ} (hp : Disciplined ok fails bound avail (.read size next)) (hrel : sim.rel avail s t)
    (hample : ample s size) :
    ∃ avail', Disciplined ok fails bound avail' (next (R.read s size).1) ∧
      sim.rel avail' (R.read s size).2 (S.read t size).2 := by
  rcases R.read_code s size with hcode | hcode
  · refine ⟨size, ?_, sim.read_ok hrel hp.1 hample hcode⟩
    rw [hcode]
    exact hp.2.1
  · exact ⟨0, hp.2.2 _ hcode, sim.read_fail hrel hp.1 hample hcode⟩

/-- A disciplined program whose requests are all ample runs alike over two
readers related by a simulation. -/
theorem Simulation.run {S : Reader β ok fails τ} {bound : ℕ} {ample : σ → ℕ → Prop}
    (sim : Simulation R S bound ample) {avail : ℕ} {p : Program β κ ε α} {s : σ} {t : τ}
    (hp : Disciplined ok fails bound avail p) (hrel : sim.rel avail s t)
    (hample : Along R { onRead := ample } p s) :
    Outcome.Related (sim.rel 0) (run R p s) (run S p t) := by
  induction p generalizing avail s t with
  | ret a => exact .done a (sim.weaken hrel)
  | read size next ih =>
      rw [run_read, run_read, ← sim.read_code hrel hp.1 hample.1]
      obtain ⟨_, hnext, hrel'⟩ := sim.answered hp hrel hample.1
      exact ih _ hnext hrel' hample.2
  | peek size next ih =>
      rw [run_peek, run_peek, ← sim.peek hrel hp.1]
      exact ih _ (hp.2 _) hrel hample.2
  | step size next ih => exact ih hp.2 (sim.step hrel hp.1) hample.2
  | emit event next ih => exact ih hp hrel hample.2
  | stuck => exact .stuck (sim.weaken hrel)
  | fault => exact .fault (sim.weaken hrel)
  | timeout => exact .timeout (sim.weaken hrel)

/-- What holds of every request in related states holds along the run. -/
theorem Simulation.along {S : Reader β ok fails τ} {bound : ℕ} {ample : σ → ℕ → Prop}
    (sim : Simulation R S bound ample)
    (hample : ∀ {avail s t size}, sim.rel avail s t → size ≤ bound → ample s size) {avail : ℕ}
    {p : Program β κ ε α} {s : σ} {t : τ} (hp : Disciplined ok fails bound avail p)
    (hrel : sim.rel avail s t) : Along R { onRead := ample } p s := by
  induction p generalizing avail s t with
  | ret a => trivial
  | read size next ih =>
      have hsize := hample hrel hp.1
      refine ⟨hsize, ?_⟩
      obtain ⟨_, hnext, hrel'⟩ := sim.answered hp hrel hsize
      exact ih _ hnext hrel'
  | peek size next ih => exact ⟨trivial, ih _ (hp.2 _) hrel⟩
  | step size next ih => exact ⟨trivial, ih hp.2 (sim.step hrel hp.1)⟩
  | emit event next ih => exact ⟨trivial, ih hp hrel⟩
  | stuck => trivial
  | fault => trivial
  | timeout => trivial

theorem Simulation.alongRuns {S : Reader β ok fails τ} {bound : ℕ} {ample : σ → ℕ → Prop}
    (sim : Simulation R S bound ample)
    (hample : ∀ {avail s t size}, sim.rel avail s t → size ≤ bound → ample s size)
    {p : Program β κ ε α} (hp : Disciplined ok fails bound 0 p) {n : ℕ} {s : σ} {t : τ}
    (hrel : sim.rel 0 s t) : AlongRuns R { onRead := ample } p n s := by
  induction n generalizing s t with
  | zero => trivial
  | succ n ih =>
      have halong := sim.along hample hp hrel
      refine ⟨halong, fun a s' hrun ↦ ?_⟩
      obtain ⟨t', -, hrel'⟩ := (hrun ▸ sim.run hp hrel halong).exists_right
      exact ih hrel'

/-- Successive runs of such a program look alike wherever related states do. -/
theorem Simulation.runs {S : Reader β ok fails τ} {bound : ℕ} {ample : σ → ℕ → Prop}
    (sim : Simulation R S bound ample) {ω : Type} {view : σ → ω} {view' : τ → ω}
    (hview : ∀ {s t}, sim.rel 0 s t → view s = view' t) {p : Program β κ ε α}
    (hp : Disciplined ok fails bound 0 p) {n : ℕ} {s : σ} {t : τ} (hrel : sim.rel 0 s t)
    (hample : AlongRuns R { onRead := ample } p n s) :
    Reading.runs R view p n s = Reading.runs S view' p n t := by
  induction n generalizing s t with
  | zero => rfl
  | succ n ih =>
      have hrelated := sim.run hp hrel hample.1
      have hnext := hample.2
      rw [Reading.runs, Reading.runs]
      generalize Reading.run R p s = o at hrelated hnext
      generalize Reading.run S p t = o' at hrelated
      cases hrelated with
      | done a hrel' =>
          dsimp only
          rw [hview hrel', ih hrel' (hnext a _ rfl)]
      | stuck hrel' => exact congrArg (fun v ↦ [Outcome.stuck v]) (hview hrel')
      | fault hrel' => exact congrArg (fun v ↦ [Outcome.fault v]) (hview hrel')
      | timeout hrel' => exact congrArg (fun v ↦ [Outcome.timeout v]) (hview hrel')

/-- Where every request is ample, what holds of ample requests in related states
holds along the run. -/
theorem Simulation.along_of_ample {S : Reader β ok fails τ} {bound : ℕ}
    {ample onRead : σ → ℕ → Prop} (sim : Simulation R S bound ample)
    (hread : ∀ {avail s t size}, sim.rel avail s t → size ≤ bound → onRead s size) {avail : ℕ}
    {p : Program β κ ε α} {s : σ} {t : τ} (hp : Disciplined ok fails bound avail p)
    (hrel : sim.rel avail s t) (hample : Along R { onRead := ample } p s) :
    Along R { onRead := onRead } p s := by
  induction p generalizing avail s t with
  | ret a => trivial
  | read size next ih =>
      refine ⟨hread hrel hp.1, ?_⟩
      obtain ⟨_, hnext, hrel'⟩ := sim.answered hp hrel hample.1
      exact ih _ hnext hrel' hample.2
  | peek size next ih => exact ⟨trivial, ih _ (hp.2 _) hrel hample.2⟩
  | step size next ih => exact ⟨trivial, ih hp.2 (sim.step hrel hp.1) hample.2⟩
  | emit event next ih => exact ⟨trivial, ih hp hrel hample.2⟩
  | stuck => trivial
  | fault => trivial
  | timeout => trivial

theorem Simulation.alongRuns_of_ample {S : Reader β ok fails τ} {bound : ℕ}
    {ample onRead : σ → ℕ → Prop} (sim : Simulation R S bound ample)
    (hread : ∀ {avail s t size}, sim.rel avail s t → size ≤ bound → onRead s size)
    {p : Program β κ ε α} (hp : Disciplined ok fails bound 0 p) {n : ℕ} {s : σ} {t : τ}
    (hrel : sim.rel 0 s t) (hample : AlongRuns R { onRead := ample } p n s) :
    AlongRuns R { onRead := onRead } p n s := by
  induction n generalizing s t with
  | zero => trivial
  | succ n ih =>
      refine ⟨sim.along_of_ample hread hp hrel hample.1, fun a s' hrun ↦ ?_⟩
      obtain ⟨t', -, hrel'⟩ := (hrun ▸ sim.run hp hrel hample.1).exists_right
      exact ih hrel' (hample.2 a s' hrun)

end Reading
