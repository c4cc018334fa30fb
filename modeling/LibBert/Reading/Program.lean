import Mathlib.Data.List.Basic
import Mathlib.Tactic.Common

/-!
# Programs over a reader

A program asks its reader for symbols, looks at them, steps over them and
reports events; it may also get stuck, spoil the memory it runs in or run out of
call depth.  What a program does is fixed once a reader supplies the meaning of the
three commands, so one program can be run over a buffered reader and over a plain
list and compared.
-/

namespace Reading

/-- A program over symbols `β` with status codes `κ` and events `ε`.  It is `stuck`
where it uses a value it does not have, and behind a `fault` of its memory nothing is
known of it. -/
inductive Program (β κ ε α : Type) : Type where
  | ret (a : α)
  | read (size : ℕ) (next : κ → Program β κ ε α)
  | peek (size : ℕ) (next : List β → Program β κ ε α)
  | step (size : ℕ) (next : Program β κ ε α)
  | emit (event : ε) (next : Program β κ ε α)
  | stuck
  | fault
  | timeout

namespace Program

variable {β κ ε α γ : Type}

def bind : Program β κ ε α → (α → Program β κ ε γ) → Program β κ ε γ
  | .ret a, f => f a
  | .read size next, f => .read size fun code ↦ (next code).bind f
  | .peek size next, f => .peek size fun symbols ↦ (next symbols).bind f
  | .step size next, f => .step size (next.bind f)
  | .emit event next, f => .emit event (next.bind f)
  | .stuck, _ => .stuck
  | .fault, _ => .fault
  | .timeout, _ => .timeout

instance : Monad (Program β κ ε) where
  pure := .ret
  bind := bind

theorem bind_assoc {δ : Type} (p : Program β κ ε α) (f : α → Program β κ ε γ)
    (g : γ → Program β κ ε δ) : p >>= f >>= g = p >>= fun a ↦ f a >>= g := by
  change (p.bind f).bind g = p.bind fun a ↦ (f a).bind g
  induction p with
  | ret a => rfl
  | read size next ih => exact congrArg _ (funext ih)
  | peek size next ih => exact congrArg _ (funext ih)
  | step size next ih => exact congrArg _ ih
  | emit event next ih => exact congrArg _ ih
  | stuck => rfl
  | fault => rfl
  | timeout => rfl

/-- Whatever the reader answers, the memory is not spoilt. -/
def Faultless : Program β κ ε α → Prop
  | .ret _ => True
  | .read _ next => ∀ code, Faultless (next code)
  | .peek _ next => ∀ symbols, Faultless (next symbols)
  | .step _ next => Faultless next
  | .emit _ next => Faultless next
  | .stuck => True
  | .fault => False
  | .timeout => True

theorem Faultless.bind {p : Program β κ ε α} {f : α → Program β κ ε γ} (hp : p.Faultless)
    (hf : ∀ a, (f a).Faultless) : (p >>= f).Faultless := by
  change (p.bind f).Faultless
  induction p with
  | ret a => exact hf a
  | read size next ih => exact fun code ↦ ih code (hp code)
  | peek size next ih => exact fun symbols ↦ ih symbols (hp symbols)
  | step size next ih => exact ih hp
  | emit event next ih => exact ih hp
  | stuck => trivial
  | fault => exact hp.elim
  | timeout => trivial

/-- The value a pointer variable holds; using one that was never assigned is
stuck. -/
def assigned : Option α → Program β κ ε α
  | none => .stuck
  | some a => .ret a

end Program

/-- The meaning of the three commands on a state `σ`.  A request either
succeeds with `ok` or returns one of the codes in `fails`; after a success the
requested symbols can be looked at, and asking again changes nothing. -/
structure Reader (β : Type) {κ : Type} (ok : κ) (fails : κ → Prop) (σ : Type) where
  read : σ → ℕ → κ × σ
  peek : σ → ℕ → List β
  step : σ → ℕ → σ
  read_code : ∀ s size, (read s size).1 = ok ∨ fails (read s size).1
  read_again : ∀ s size t, read s size = (ok, t) → read t size = (ok, t)
  peek_length : ∀ s size t, read s size = (ok, t) → (peek t size).length = size

theorem Reader.read_cases {β κ σ : Type} {ok : κ} {fails : κ → Prop} (R : Reader β ok fails σ)
    (s : σ) (size : ℕ) :
    (∃ t, R.read s size = (ok, t)) ∨ ∃ code t, fails code ∧ R.read s size = (code, t) := by
  have hcode := R.read_code s size
  rcases hread : R.read s size with ⟨code, t⟩
  rw [hread] at hcode
  rcases hcode with rfl | hfails
  · exact .inl ⟨t, rfl⟩
  · exact .inr ⟨code, t, hfails, rfl⟩

/-- How a run ends, and the reader state it ends in. -/
inductive Outcome (σ α : Type) : Type where
  | done (a : α) (s : σ)
  | stuck (s : σ)
  | fault (s : σ)
  | timeout (s : σ)

namespace Outcome

variable {σ τ α γ : Type}

def bind : Outcome σ α → (α → σ → Outcome σ γ) → Outcome σ γ
  | .done a s, f => f a s
  | .stuck s, _ => .stuck s
  | .fault s, _ => .fault s
  | .timeout s, _ => .timeout s

@[simp] theorem bind_done (a : α) (s : σ) (f : α → σ → Outcome σ γ) :
    (Outcome.done a s).bind f = f a s := rfl

@[simp] theorem bind_stuck (s : σ) (f : α → σ → Outcome σ γ) :
    (Outcome.stuck s).bind f = .stuck s := rfl

@[simp] theorem bind_fault (s : σ) (f : α → σ → Outcome σ γ) :
    (Outcome.fault s).bind f = .fault s := rfl

@[simp] theorem bind_timeout (s : σ) (f : α → σ → Outcome σ γ) :
    (Outcome.timeout s).bind f = .timeout s := rfl

@[simp] theorem bind_done_right (o : Outcome σ α) : o.bind .done = o := by
  cases o <;> rfl

theorem bind_eq_done_iff {o : Outcome σ α} {f : α → σ → Outcome σ γ} {c : γ} {t : σ} :
    o.bind f = .done c t ↔ ∃ a s, o = .done a s ∧ f a s = .done c t := by
  cases o <;> simp [bind]

/-- Two outcomes of the same kind and value in related states. -/
inductive Related (rel : σ → τ → Prop) : Outcome σ α → Outcome τ α → Prop
  | done (a : α) {s : σ} {t : τ} (h : rel s t) : Related rel (.done a s) (.done a t)
  | stuck {s : σ} {t : τ} (h : rel s t) : Related rel (.stuck s) (.stuck t)
  | fault {s : σ} {t : τ} (h : rel s t) : Related rel (.fault s) (.fault t)
  | timeout {s : σ} {t : τ} (h : rel s t) : Related rel (.timeout s) (.timeout t)

theorem Related.exists_right {rel : σ → τ → Prop} {a : α} {s : σ} {o : Outcome τ α}
    (h : Related rel (.done a s) o) : ∃ t, o = .done a t ∧ rel s t := by
  cases h with
  | done _ hrel => exact ⟨_, rfl, hrel⟩

theorem Related.exists_left {rel : σ → τ → Prop} {a : α} {t : τ} {o : Outcome σ α}
    (h : Related rel o (.done a t)) : ∃ s, o = .done a s ∧ rel s t := by
  cases h with
  | done _ hrel => exact ⟨_, rfl, hrel⟩

end Outcome

section Run

variable {β κ ε α γ σ : Type} {ok : κ} {fails : κ → Prop}

/-- Run a program over a reader. -/
def run (R : Reader β ok fails σ) : Program β κ ε α → σ → Outcome σ α
  | .ret a, s => .done a s
  | .read size next, s => run R (next (R.read s size).1) (R.read s size).2
  | .peek size next, s => run R (next (R.peek s size)) s
  | .step size next, s => run R next (R.step s size)
  | .emit _ next, s => run R next s
  | .stuck, s => .stuck s
  | .fault, s => .fault s
  | .timeout, s => .timeout s

variable (R : Reader β ok fails σ)

@[simp] theorem run_ret (a : α) (s : σ) :
    run R (.ret a : Program β κ ε α) s = .done a s := rfl

@[simp] theorem run_pure (a : α) (s : σ) :
    run R (pure a : Program β κ ε α) s = .done a s := rfl

@[simp] theorem run_read (size : ℕ) (next : κ → Program β κ ε α) (s : σ) :
    run R (.read size next) s = run R (next (R.read s size).1) (R.read s size).2 := rfl

@[simp] theorem run_peek (size : ℕ) (next : List β → Program β κ ε α) (s : σ) :
    run R (.peek size next) s = run R (next (R.peek s size)) s := rfl

@[simp] theorem run_step (size : ℕ) (next : Program β κ ε α) (s : σ) :
    run R (.step size next) s = run R next (R.step s size) := rfl

@[simp] theorem run_emit (event : ε) (next : Program β κ ε α) (s : σ) :
    run R (.emit event next) s = run R next s := rfl

@[simp] theorem run_stuck (s : σ) :
    run R (.stuck : Program β κ ε α) s = .stuck s := rfl

@[simp] theorem run_fault (s : σ) :
    run R (.fault : Program β κ ε α) s = .fault s := rfl

@[simp] theorem run_timeout (s : σ) :
    run R (.timeout : Program β κ ε α) s = .timeout s := rfl

@[simp] theorem run_bind (p : Program β κ ε α) (f : α → Program β κ ε γ) (s : σ) :
    run R (p >>= f) s = (run R p s).bind fun a t ↦ run R (f a) t := by
  change run R (p.bind f) s = _
  induction p generalizing s with
  | ret a => rfl
  | read size next ih => exact ih _ _
  | peek size next ih => exact ih _ _
  | step size next ih => exact ih _
  | emit event next ih => exact ih _
  | stuck => rfl
  | fault => rfl
  | timeout => rfl

@[simp] theorem run_assigned_some (a : α) (s : σ) :
    run R (Program.assigned (some a) : Program β κ ε α) s = .done a s := rfl

@[simp] theorem run_assigned_none (s : σ) :
    run R (Program.assigned none : Program β κ ε α) s = .stuck s := rfl

/-! ## Watching a run -/

/-- Conditions put on the points a run goes through. -/
structure Watch (ε σ : Type) where
  onRead : σ → ℕ → Prop := fun _ _ ↦ True
  onPeek : σ → ℕ → Prop := fun _ _ ↦ True
  onStep : σ → ℕ → Prop := fun _ _ ↦ True
  onEmit : ε → σ → Prop := fun _ _ ↦ True
  onStuck : σ → Prop := fun _ ↦ True
  onFault : σ → Prop := fun _ ↦ True
  onTimeout : σ → Prop := fun _ ↦ True

/-- The conditions concern neither the commands nor faults. -/
structure Watch.OnEvents (W : Watch ε σ) : Prop where
  read : ∀ s size, W.onRead s size
  peek : ∀ s size, W.onPeek s size
  step : ∀ s size, W.onStep s size
  fault : ∀ s, W.onFault s

theorem onEvents_default : ({} : Watch ε σ).OnEvents :=
  ⟨fun _ _ ↦ trivial, fun _ _ ↦ trivial, fun _ _ ↦ trivial, fun _ ↦ trivial⟩

/-- Every point of the run of a program from a state meets the conditions. -/
def Along (W : Watch ε σ) : Program β κ ε α → σ → Prop
  | .ret _, _ => True
  | .read size next, s =>
      W.onRead s size ∧ Along W (next (R.read s size).1) (R.read s size).2
  | .peek size next, s => W.onPeek s size ∧ Along W (next (R.peek s size)) s
  | .step size next, s => W.onStep s size ∧ Along W next (R.step s size)
  | .emit event next, s => W.onEmit event s ∧ Along W next s
  | .stuck, s => W.onStuck s
  | .fault, s => W.onFault s
  | .timeout, s => W.onTimeout s

variable {R} {W : Watch ε σ}

@[simp] theorem along_ret (a : α) (s : σ) :
    Along R W (.ret a : Program β κ ε α) s ↔ True := Iff.rfl

@[simp] theorem along_pure (a : α) (s : σ) :
    Along R W (pure a : Program β κ ε α) s ↔ True := Iff.rfl

@[simp] theorem along_read (size : ℕ) (next : κ → Program β κ ε α) (s : σ) :
    Along R W (.read size next) s ↔
      W.onRead s size ∧ Along R W (next (R.read s size).1) (R.read s size).2 := Iff.rfl

@[simp] theorem along_peek (size : ℕ) (next : List β → Program β κ ε α) (s : σ) :
    Along R W (.peek size next) s ↔
      W.onPeek s size ∧ Along R W (next (R.peek s size)) s := Iff.rfl

@[simp] theorem along_step (size : ℕ) (next : Program β κ ε α) (s : σ) :
    Along R W (.step size next) s ↔
      W.onStep s size ∧ Along R W next (R.step s size) := Iff.rfl

@[simp] theorem along_emit (event : ε) (next : Program β κ ε α) (s : σ) :
    Along R W (.emit event next) s ↔ W.onEmit event s ∧ Along R W next s := Iff.rfl

@[simp] theorem along_stuck (s : σ) :
    Along R W (.stuck : Program β κ ε α) s ↔ W.onStuck s := Iff.rfl

@[simp] theorem along_fault (s : σ) :
    Along R W (.fault : Program β κ ε α) s ↔ W.onFault s := Iff.rfl

@[simp] theorem along_timeout (s : σ) :
    Along R W (.timeout : Program β κ ε α) s ↔ W.onTimeout s := Iff.rfl

@[simp] theorem along_assigned (a : Option α) (s : σ) :
    Along R W (Program.assigned a : Program β κ ε α) s ↔ (a = none → W.onStuck s) := by
  cases a <;> simp [Program.assigned]

/-- A composed run is watched by watching its first part and, where that ends
with a value, the rest from there. -/
@[simp] theorem along_bind (p : Program β κ ε α) (f : α → Program β κ ε γ) (s : σ) :
    Along R W (p >>= f) s ↔
      Along R W p s ∧ ∀ a t, run R p s = .done a t → Along R W (f a) t := by
  change Along R W (p.bind f) s ↔ _
  induction p generalizing s with
  | ret a => simp [Program.bind]
  | read size next ih => simp [Program.bind, ih, and_assoc]
  | peek size next ih => simp [Program.bind, ih, and_assoc]
  | step size next ih => simp [Program.bind, ih, and_assoc]
  | emit event next ih => simp [Program.bind, ih, and_assoc]
  | stuck => simp [Program.bind]
  | fault => simp [Program.bind]
  | timeout => simp [Program.bind]

theorem along_default (p : Program β κ ε α) (s : σ) : Along R ({} : Watch ε σ) p s := by
  induction p generalizing s with
  | ret a => trivial
  | read size next ih => exact ⟨trivial, ih _ _⟩
  | peek size next ih => exact ⟨trivial, ih _ _⟩
  | step size next ih => exact ⟨trivial, ih _⟩
  | emit event next ih => exact ⟨trivial, ih _⟩
  | stuck => trivial
  | fault => trivial
  | timeout => trivial

/-- A run that gives up does so where the watch allows it. -/
theorem onTimeout_of_run {p : Program β κ ε α} {s t : σ} (h : Along R W p s)
    (hrun : run R p s = .timeout t) : W.onTimeout t := by
  induction p generalizing s with
  | ret a => cases hrun
  | read size next ih => exact ih _ h.2 hrun
  | peek size next ih => exact ih _ h.2 hrun
  | step size next ih => exact ih h.2 hrun
  | emit event next ih => exact ih h.2 hrun
  | stuck => cases hrun
  | fault => cases hrun
  | timeout =>
      cases hrun
      exact h

/-! ## Successive runs -/

/-- The outcomes of running a program again and again, with what `view` shows of
the reader behind each run; a run without a value is the last. -/
def runs {ω : Type} (R : Reader β ok fails σ) (view : σ → ω) (p : Program β κ ε α) :
    ℕ → σ → List (Outcome ω α)
  | 0, _ => []
  | n + 1, s =>
      match run R p s with
      | .done a t => .done a (view t) :: runs R view p n t
      | .stuck t => [.stuck (view t)]
      | .fault t => [.fault (view t)]
      | .timeout t => [.timeout (view t)]

/-- Where successive runs give the same values, so does the first, and those
behind it. -/
theorem exists_run_of_runs_eq {τ : Type} {S : Reader β ok fails τ} {p : Program β κ ε α} {n : ℕ}
    {s : σ} {t t' : τ} {a : α}
    (h : runs R (fun _ ↦ ()) p (n + 1) s = runs S (fun _ ↦ ()) p (n + 1) t)
    (hrun : run S p t = .done a t') :
    ∃ s', run R p s = .done a s' ∧
      runs R (fun _ ↦ ()) p n s' = runs S (fun _ ↦ ()) p n t' := by
  rw [runs, runs, hrun] at h
  cases hrun' : run R p s with
  | done b s' =>
      rw [hrun'] at h
      obtain ⟨⟨rfl⟩, hrest⟩ := List.cons.inj h
      exact ⟨s', rfl, hrest⟩
  | stuck s' => simp [hrun'] at h
  | fault s' => simp [hrun'] at h
  | timeout s' => simp [hrun'] at h

/-- Every point of the first `n` successive runs meets the conditions. -/
def AlongRuns (R : Reader β ok fails σ) (W : Watch ε σ) (p : Program β κ ε α) : ℕ → σ → Prop
  | 0, _ => True
  | n + 1, s => Along R W p s ∧ ∀ a t, run R p s = .done a t → AlongRuns R W p n t

theorem alongRuns_default (p : Program β κ ε α) (n : ℕ) (s : σ) :
    AlongRuns R ({} : Watch ε σ) p n s := by
  induction n generalizing s with
  | zero => trivial
  | succ n ih => exact ⟨along_default p s, fun _ t _ ↦ ih t⟩

theorem AlongRuns.mono {p : Program β κ ε α} {m n : ℕ} {s : σ} (h : AlongRuns R W p n s)
    (hle : m ≤ n) : AlongRuns R W p m s := by
  induction m generalizing n s with
  | zero => trivial
  | succ m ih =>
      obtain ⟨n, rfl⟩ : ∃ k, n = k + 1 := ⟨n - 1, by omega⟩
      exact ⟨h.1, fun a t hrun ↦ ih (h.2 a t hrun) (Nat.le_of_succ_le_succ hle)⟩

/-- Successive runs that may never give up do not. -/
theorem not_timeout_of_mem_runs {ω : Type} {view : σ → ω} {p : Program β κ ε α} {n : ℕ} {s : σ}
    (h : AlongRuns R W p n s) (hnever : ∀ t, ¬ W.onTimeout t) :
    ∀ o ∈ runs R view p n s, ∀ v, o ≠ .timeout v := by
  induction n generalizing s with
  | zero => simp [runs]
  | succ n ih =>
      rw [runs]
      cases hrun : run R p s with
      | done a t =>
          rintro o (_ | ⟨_, ho⟩) v
          · simp
          · exact ih (h.2 a t hrun) o ho v
      | stuck t => simp
      | fault t => simp
      | timeout t => exact absurd (onTimeout_of_run h.1 hrun) (hnever t)

end Run

end Reading
