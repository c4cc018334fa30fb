import LibBert.Reading.Program

/-!
# Contracts on the events of a program

A contract says which events of a run are legal and behind which events nothing
is promised any more.  A program meets a contract with a condition on its value
whatever the reader answers, so a contract is proved once for all readers; what
it says about the run over one of them is read off the events of that run.
-/

namespace Reading

variable {β κ ε ε' α γ σ : Type} {ok : κ} {fails : κ → Prop}

/-! ## The events of a run -/

section Trace

variable (R : Reader β ok fails σ)

/-- The events of a run, in order. -/
def trace : Program β κ ε α → σ → List ε
  | .ret _, _ => []
  | .read size next, s => trace (next (R.read s size).1) (R.read s size).2
  | .peek size next, s => trace (next (R.peek s size)) s
  | .step size next, s => trace next (R.step s size)
  | .emit event next, s => event :: trace next s
  | .stuck, _ => []
  | .fault, _ => []
  | .timeout, _ => []

@[simp] theorem trace_ret (a : α) (s : σ) : trace R (.ret a : Program β κ ε α) s = [] := rfl

@[simp] theorem trace_emit (event : ε) (next : Program β κ ε α) (s : σ) :
    trace R (.emit event next) s = event :: trace R next s := rfl

variable {R}

/-- A watched run meets the conditions at each of its events. -/
theorem Along.exists_onEmit {W : Watch ε σ} {p : Program β κ ε α} {s : σ} (h : Along R W p s)
    {event : ε} (hmem : event ∈ trace R p s) : ∃ t, W.onEmit event t := by
  induction p generalizing s with
  | ret a => cases hmem
  | read size next ih => exact ih _ h.2 hmem
  | peek size next ih => exact ih _ h.2 hmem
  | step size next ih => exact ih h.2 hmem
  | emit first next ih =>
      rcases List.mem_cons.mp hmem with rfl | hmem
      · exact ⟨s, h.1⟩
      · exact ih h.2 hmem
  | stuck => cases hmem
  | fault => cases hmem
  | timeout => cases hmem

/-- A composed run has the events of its first part and, where that ends with a value,
those of the rest from there. -/
theorem mem_trace_bind {p : Program β κ ε α} {f : α → Program β κ ε γ} {s : σ} {event : ε} :
    event ∈ trace R (p >>= f) s ↔
      event ∈ trace R p s ∨ ∃ a t, run R p s = .done a t ∧ event ∈ trace R (f a) t := by
  change event ∈ trace R (p.bind f) s ↔ _
  induction p generalizing s with
  | ret a => simp [Program.bind]
  | read size next ih => exact ih _
  | peek size next ih => exact ih _
  | step size next ih => exact ih
  | emit first next ih => simp [Program.bind, ih, or_assoc]
  | stuck => simp [Program.bind, trace]
  | fault => simp [Program.bind, trace]
  | timeout => simp [Program.bind, trace]

end Trace

/-! ## Programs that only have events -/

/-- The events come first, the program behind them. -/
def Program.emitting (events : List ε) (p : Program β κ ε α) : Program β κ ε α :=
  events.foldr .emit p

theorem bind_emitting (events : List ε) (p : Program β κ ε α) (f : α → Program β κ ε γ) :
    (p.emitting events >>= f) = (p >>= f).emitting events := by
  induction events with
  | nil => rfl
  | cons event events ih => exact congrArg (Program.emit event) ih

section Emitting

variable (R : Reader β ok fails σ)

theorem run_emitting (events : List ε) (p : Program β κ ε α) (s : σ) :
    run R (p.emitting events) s = run R p s := by
  induction events with
  | nil => rfl
  | cons event events ih => exact ih

theorem trace_emitting (events : List ε) (p : Program β κ ε α) (s : σ) :
    trace R (p.emitting events) s = events ++ trace R p s := by
  induction events with
  | nil => rfl
  | cons event events ih => exact congrArg (event :: ·) ih

end Emitting

/-! ## Meeting a contract -/

/-- Which events are legal, and which ones end the obligation. -/
structure Contract (ε : Type) where
  legal : ε → Prop
  ends : ε → Prop

/-- Whatever the reader answers, the events are legal up to the first one that ends
the contract, and a value that is returned before satisfies `Q`. -/
def Meets (C : Contract ε) (Q : α → Prop) : Program β κ ε α → Prop
  | .ret a => Q a
  | .read _ next => ∀ code, Meets C Q (next code)
  | .peek _ next => ∀ symbols, Meets C Q (next symbols)
  | .step _ next => Meets C Q next
  | .emit event next => C.ends event ∨ C.legal event ∧ Meets C Q next
  | .stuck => True
  | .fault => True
  | .timeout => True

namespace Meets

variable {C : Contract ε} {P Q : α → Prop} {p : Program β κ ε α}

theorem mono (h : Meets C P p) (hPQ : ∀ a, P a → Q a) : Meets C Q p := by
  induction p with
  | ret a => exact hPQ a h
  | read size next ih => exact fun code ↦ ih code (h code)
  | peek size next ih => exact fun symbols ↦ ih symbols (h symbols)
  | step size next ih => exact ih h
  | emit event next ih => exact h.imp_right fun hnext ↦ ⟨hnext.1, ih hnext.2⟩
  | stuck => trivial
  | fault => trivial
  | timeout => trivial

theorem bind {Q : γ → Prop} {f : α → Program β κ ε γ} (hp : Meets C P p)
    (hf : ∀ a, P a → Meets C Q (f a)) : Meets C Q (p >>= f) := by
  change Meets C Q (p.bind f)
  induction p with
  | ret a => exact hf a hp
  | read size next ih => exact fun code ↦ ih code (hp code)
  | peek size next ih => exact fun symbols ↦ ih symbols (hp symbols)
  | step size next ih => exact ih hp
  | emit event next ih => exact hp.imp_right fun hnext ↦ ⟨hnext.1, ih hnext.2⟩
  | stuck => trivial
  | fault => trivial
  | timeout => trivial

theorem emitting {events : List ε} (h : Meets C Q p) (hlegal : ∀ e ∈ events, C.legal e) :
    Meets C Q (p.emitting events) := by
  induction events with
  | nil => exact h
  | cons event events ih =>
      obtain ⟨hevent, hevents⟩ := List.forall_mem_cons.mp hlegal
      exact .inr ⟨hevent, ih hevents⟩

/-- Events that do not end the contract are legal, and it is kept behind them. -/
theorem of_emitting {events : List ε} (h : Meets C Q (p.emitting events))
    (hends : ∀ e ∈ events, ¬ C.ends e) : (∀ e ∈ events, C.legal e) ∧ Meets C Q p := by
  induction events with
  | nil => exact ⟨fun _ he ↦ (List.not_mem_nil he).elim, h⟩
  | cons event events ih =>
      obtain ⟨hevent, hevents⟩ := List.forall_mem_cons.mp hends
      obtain ⟨hlegal, hnext⟩ := h.resolve_left hevent
      obtain ⟨hrest, hp⟩ := ih hnext hevents
      exact ⟨List.forall_mem_cons.mpr ⟨hlegal, hrest⟩, hp⟩

/-- A contract without illegal events promises nothing about the value. -/
theorem of_legal (hlegal : ∀ e, C.legal e) (p : Program β κ ε α) :
    Meets C (fun _ ↦ True) p := by
  induction p with
  | ret a => trivial
  | read size next ih => exact ih
  | peek size next ih => exact ih
  | step size next ih => exact ih
  | emit event next ih => exact .inr ⟨hlegal event, ih⟩
  | stuck => trivial
  | fault => trivial
  | timeout => trivial

/-- An event is legal unless an earlier one ended the contract. -/
theorem legal_of_trace (h : Meets C Q p) {R : Reader β ok fails σ} {s : σ} {front back : List ε}
    {event : ε} (htrace : trace R p s = front ++ event :: back)
    (hfront : ∀ e ∈ front, ¬ C.ends e) : C.ends event ∨ C.legal event := by
  induction p generalizing s front with
  | ret a => simp [trace] at htrace
  | read size next ih => exact ih _ (h _) htrace hfront
  | peek size next ih => exact ih _ (h _) htrace hfront
  | step size next ih => exact ih h htrace hfront
  | emit first next ih =>
      rw [trace_emit] at htrace
      cases front with
      | nil =>
          obtain ⟨rfl, -⟩ := List.cons.inj htrace
          exact h.imp_right And.left
      | cons e front =>
          obtain ⟨rfl, hrest⟩ := List.cons.inj htrace
          have hnext := h.resolve_left (hfront first List.mem_cons_self)
          exact ih hnext.2 hrest fun e he ↦ hfront e (List.mem_cons_of_mem _ he)
  | stuck => simp [trace] at htrace
  | fault => simp [trace] at htrace
  | timeout => simp [trace] at htrace

/-- The value of a run in which no event ended the contract. -/
theorem of_run (h : Meets C Q p) {R : Reader β ok fails σ} {s t : σ} {a : α}
    (htrace : ∀ e ∈ trace R p s, ¬ C.ends e) (hrun : run R p s = .done a t) : Q a := by
  induction p generalizing s with
  | ret b =>
      cases hrun
      exact h
  | read size next ih => exact ih _ (h _) htrace hrun
  | peek size next ih => exact ih _ (h _) htrace hrun
  | step size next ih => exact ih h htrace hrun
  | emit event next ih =>
      have hnext := h.resolve_left (htrace event List.mem_cons_self)
      exact ih hnext.2 (fun e he ↦ htrace e (List.mem_cons_of_mem _ he)) hrun
  | stuck => cases hrun
  | fault => cases hrun
  | timeout => cases hrun

end Meets

/-! ## Other events -/

/-- The same program under another event type. -/
def Program.relabel (g : ε → ε') : Program β κ ε α → Program β κ ε' α
  | .ret a => .ret a
  | .read size next => .read size fun code ↦ (next code).relabel g
  | .peek size next => .peek size fun symbols ↦ (next symbols).relabel g
  | .step size next => .step size (next.relabel g)
  | .emit event next => .emit (g event) (next.relabel g)
  | .stuck => .stuck
  | .fault => .fault
  | .timeout => .timeout

theorem meets_relabel {C : Contract ε'} {g : ε → ε'} (hlegal : ∀ e, C.legal (g e))
    (p : Program β κ ε α) : Meets C (fun _ ↦ True) (p.relabel g) := by
  induction p with
  | ret a => trivial
  | read size next ih => exact fun code ↦ ih code
  | peek size next ih => exact fun symbols ↦ ih symbols
  | step size next ih => exact ih
  | emit event next ih => exact .inr ⟨hlegal event, ih⟩
  | stuck => trivial
  | fault => trivial
  | timeout => trivial

end Reading
