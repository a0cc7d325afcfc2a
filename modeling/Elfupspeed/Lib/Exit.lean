import Mathlib.Order.Defs.Unbundled

/-!
# Programs that may leave early

A C function that jumps to its exit label from many places is a program on a
state that ends in one of two ways: it reaches its last line with a value, or
it leaves with a reason. Either way the state it has reached is what it leaves
behind, which is what separates this from an exception that rolls back.

Three kinds of fact are wanted of such programs. What every step keeps holds at
the end of every run, whichever way it ended (`Keeps`); what the program does
when no step leaves is computed one bind at a time (`run_bind_ok`); and where a
step needs what the one before it gave, each has a condition before it and one
behind it for either way that it may end (`Triple`).
-/

namespace Elfupspeed.Lib

universe u

/-- A program on states `σ` that ends with an `α` or leaves with an `ε`. -/
def Prog (σ ε α : Type u) := σ → Except ε α × σ

namespace Prog

variable {σ ε α β : Type u}

def run (m : Prog σ ε α) (s : σ) : Except ε α × σ := m s

instance : Monad (Prog σ ε) where
  pure a := fun s => (.ok a, s)
  bind m f := fun s =>
    match m.run s with
    | (.ok a, s') => (f a).run s'
    | (.error e, s') => (.error e, s')

def exit (e : ε) : Prog σ ε α := fun s => (.error e, s)

def get : Prog σ ε σ := fun s => (.ok s, s)

def modify (f : σ → σ) : Prog σ ε PUnit := fun s => (.ok ⟨⟩, f s)

def require (b : Bool) (e : ε) : Prog σ ε PUnit :=
  if b then pure ⟨⟩ else exit e

@[simp] theorem run_pure (a : α) (s : σ) :
    (pure a : Prog σ ε α).run s = (.ok a, s) := rfl

@[simp] theorem run_exit (e : ε) (s : σ) :
    (exit e : Prog σ ε α).run s = (.error e, s) := rfl

@[simp] theorem run_get (s : σ) : (get : Prog σ ε σ).run s = (.ok s, s) := rfl

@[simp] theorem run_modify (f : σ → σ) (s : σ) :
    (modify f : Prog σ ε PUnit).run s = (.ok ⟨⟩, f s) := rfl

theorem run_require_true (e : ε) (s : σ) :
    (require true e).run s = (.ok ⟨⟩, s) := rfl

theorem run_require_false (e : ε) (s : σ) :
    (require false e).run s = (.error e, s) := rfl

theorem run_bind_ok {m : Prog σ ε α} {f : α → Prog σ ε β} {s s' : σ} {a : α}
    (h : m.run s = (.ok a, s')) : (m >>= f).run s = (f a).run s' := by
  change (match m.run s with
    | (.ok a, s') => (f a).run s'
    | (.error e, s') => (.error e, s')) = _
  rw [h]

theorem run_bind_error {m : Prog σ ε α} {f : α → Prog σ ε β} {s s' : σ} {e : ε}
    (h : m.run s = (.error e, s')) : (m >>= f).run s = (.error e, s') := by
  change (match m.run s with
    | (.ok a, s') => (f a).run s'
    | (.error e, s') => (.error e, s')) = _
  rw [h]

theorem run_require_bind (b : Bool) (e : ε) (f : PUnit → Prog σ ε β) (s : σ) :
    (require b e >>= f).run s =
      if b = true then (f ⟨⟩).run s else (.error e, s) := by
  cases b with
  | true => rw [run_bind_ok (run_require_true e s), if_pos rfl]
  | false =>
      rw [run_bind_error (run_require_false e s), if_neg Bool.false_ne_true]

theorem bind_assoc {γ : Type u} (m : Prog σ ε α) (f : α → Prog σ ε β)
    (g : β → Prog σ ε γ) : m >>= f >>= g = m >>= fun a => f a >>= g := by
  funext s
  change (m >>= f >>= g).run s = (m >>= fun a => f a >>= g).run s
  cases hrun : m.run s with
  | mk r s' =>
      cases r with
      | error e =>
          rw [run_bind_error hrun, run_bind_error (run_bind_error hrun)]
      | ok a =>
          rw [run_bind_ok hrun]
          cases hf : (f a).run s' with
          | mk r s'' =>
              have hmf : (m >>= f).run s = (r, s'') := (run_bind_ok hrun).trans hf
              cases r with
              | error e => rw [run_bind_error hmf, run_bind_error hf]
              | ok b => rw [run_bind_ok hmf, run_bind_ok hf]

/-- A program that got to its end got there through the end of its first
half. -/
theorem run_bind_eq_ok {m : Prog σ ε α} {f : α → Prog σ ε β} {s t : σ} {b : β} :
    (m >>= f).run s = (.ok b, t) ↔
      ∃ a s', m.run s = (.ok a, s') ∧ (f a).run s' = (.ok b, t) := by
  cases hrun : m.run s with
  | mk r s' =>
      cases r with
      | error e =>
          rw [run_bind_error hrun]
          simp
      | ok a =>
          rw [run_bind_ok hrun]
          constructor
          · intro h
            exact ⟨a, s', rfl, h⟩
          · rintro ⟨_, _, heq, h⟩
            cases heq
            exact h

theorem run_require_eq_ok {b : Bool} {e : ε} {s t : σ} :
    (require b e).run s = (.ok ⟨⟩, t) ↔ b = true ∧ s = t := by
  cases b with
  | true => simp [run_require_true]
  | false => simp [run_require_false]

theorem run_require_bind_eq_ok {b : Bool} {e : ε} {f : PUnit → Prog σ ε β}
    {s t : σ} {x : β} :
    (require b e >>= f).run s = (.ok x, t) ↔
      b = true ∧ (f ⟨⟩).run s = (.ok x, t) := by
  cases b with
  | true => simp [run_bind_ok (run_require_true e s)]
  | false => simp [run_bind_error (run_require_false e s)]

/-! ## What a run comes to

A function into `Option` says what a program should come to: with a value and
the state to leave behind, the program has to end with just these, with
nothing it has to leave. -/

/-- The run of `m` from `s` leaves, for a reason that satisfies `P`. -/
def Leaves (P : ε → Prop) (m : Prog σ ε α) (s : σ) : Prop :=
  ∃ e s', m.run s = (.error e, s') ∧ P e

def Meets (P : ε → Prop) (o : Option (α × σ)) (m : Prog σ ε α) (s : σ) :
    Prop :=
  match o with
  | some r => m.run s = (.ok r.1, r.2)
  | none => Leaves P m s

section Meets

variable {δ : Type*} {P : ε → Prop} {m : Prog σ ε α} {f : α → Prog σ ε β}
  {s : σ}

theorem meets_bind_of_ok {o : Option (β × σ)} {s' : σ} {a : α}
    (h : m.run s = (.ok a, s')) (hf : Meets P o (f a) s') :
    Meets P o (m >>= f) s := by
  cases o with
  | some r => exact (run_bind_ok h).trans hf
  | none =>
      obtain ⟨e, s'', hrun, he⟩ := hf
      exact ⟨e, s'', (run_bind_ok h).trans hrun, he⟩

theorem meets_require_bind {p : Prop} [Decidable p] {e : ε}
    {f : PUnit → Prog σ ε β} {o : Option δ} {G : δ → β × σ} (he : ¬ p → P e)
    (hf : p → Meets P (o.map G) (f ⟨⟩) s) :
    Meets P ((if p then o else none).map G) (require (decide p) e >>= f) s := by
  by_cases hp : p
  · rw [if_pos hp, decide_eq_true hp]
    exact meets_bind_of_ok (run_require_true e s) (hf hp)
  · rw [if_neg hp, decide_eq_false hp]
    exact ⟨e, s, run_bind_error (run_require_false e s), he hp⟩

end Meets

/-! ## What every run keeps -/

/-- Every run of `m` ends, or leaves, in a state related to the one it began
in. -/
def Keeps (R : σ → σ → Prop) (m : Prog σ ε α) : Prop :=
  ∀ s, R s (m.run s).2

section Keeps

variable {R : σ → σ → Prop}

theorem Keeps.of_run {m : Prog σ ε α} (h : Keeps R m) {s s' : σ}
    {r : Except ε α} (hrun : m.run s = (r, s')) : R s s' := by
  have := h s
  rw [hrun] at this
  exact this

theorem keeps_pure [Std.Refl R] (a : α) : Keeps R (pure a : Prog σ ε α) :=
  fun s => Std.Refl.refl s

theorem keeps_exit [Std.Refl R] (e : ε) : Keeps R (exit e : Prog σ ε α) :=
  fun s => Std.Refl.refl s

theorem keeps_get [Std.Refl R] : Keeps R (get : Prog σ ε σ) :=
  fun s => Std.Refl.refl s

theorem keeps_modify {f : σ → σ} (h : ∀ s, R s (f s)) :
    Keeps R (modify f : Prog σ ε PUnit) := h

theorem keeps_require [Std.Refl R] {b : Bool} {e : ε} :
    Keeps R (require b e : Prog σ ε PUnit) := by
  cases b with
  | true => exact keeps_pure _
  | false => exact keeps_exit e

theorem keeps_bind [IsTrans σ R] {m : Prog σ ε α} {f : α → Prog σ ε β}
    (hm : Keeps R m) (hf : ∀ a, Keeps R (f a)) : Keeps R (m >>= f) := by
  intro s
  have h₁ := hm s
  cases hrun : m.run s with
  | mk r s' =>
      rw [hrun] at h₁
      cases r with
      | error e =>
          rw [run_bind_error hrun]
          exact h₁
      | ok a =>
          rw [run_bind_ok hrun]
          exact IsTrans.trans s s' _ h₁ (hf a s')

end Keeps

/-! ## Pre- and postconditions -/

/-- From a state with `P` the program ends in one with `Q`, which may speak of
its value, or leaves in one with `E`, which may speak of its reason. -/
def Triple (P : σ → Prop) (m : Prog σ ε α) (Q : α → σ → Prop)
    (E : ε → σ → Prop) : Prop :=
  ∀ s, P s →
    match m.run s with
    | (.ok a, s') => Q a s'
    | (.error e, s') => E e s'

section Triple

variable {P : σ → Prop} {Q : α → σ → Prop} {S : β → σ → Prop} {E : ε → σ → Prop}
  {m : Prog σ ε α} {f : α → Prog σ ε β}

/-- Postconditions that agree speak of the state a run is over in. -/
theorem Triple.final {I : σ → Prop} (h : Triple P m (fun _ => I) fun _ => I)
    {s : σ} (hs : P s) : I (m.run s).2 := by
  have := h s hs
  cases hrun : m.run s with
  | mk r s' =>
      rw [hrun] at this
      cases r with
      | ok a => exact this
      | error e => exact this

theorem triple_pure {a : α} (h : ∀ s, P s → Q a s) : Triple P (pure a) Q E := h

theorem triple_exit {e : ε} (h : ∀ s, P s → E e s) :
    Triple P (exit e : Prog σ ε α) Q E := h

theorem triple_get {Q : σ → σ → Prop} (h : ∀ s, P s → Q s s) :
    Triple P (get : Prog σ ε σ) Q E := h

theorem triple_modify {g : σ → σ} {Q : PUnit → σ → Prop}
    (h : ∀ s, P s → Q ⟨⟩ (g s)) : Triple P (modify g : Prog σ ε PUnit) Q E := h

theorem triple_require {b : Bool} {e : ε} {Q : PUnit → σ → Prop}
    (hok : ∀ s, b = true → P s → Q ⟨⟩ s) (herr : ∀ s, b = false → P s → E e s) :
    Triple P (require b e : Prog σ ε PUnit) Q E := by
  cases b with
  | true => exact triple_pure fun s => hok s rfl
  | false => exact triple_exit fun s => herr s rfl

theorem triple_bind (hm : Triple P m Q E) (hf : ∀ a, Triple (Q a) (f a) S E) :
    Triple P (m >>= f) S E := by
  intro s hs
  have h := hm s hs
  cases hrun : m.run s with
  | mk r s' =>
      rw [hrun] at h
      cases r with
      | error e =>
          rw [run_bind_error hrun]
          exact h
      | ok a =>
          rw [run_bind_ok hrun]
          exact hf a s' h

/-- What is known beforehand, of no state, may be used. -/
theorem triple_of_and {p : Prop} (h : p → Triple P m Q E) :
    Triple (fun s => P s ∧ p) m Q E :=
  fun s hs => h hs.2 s hs.1

theorem Triple.imp {P' : σ → Prop} {Q' : α → σ → Prop} (h : Triple P m Q E)
    (hP : ∀ s, P' s → P s) (hQ : ∀ a s, Q a s → Q' a s) : Triple P' m Q' E := by
  intro s hs
  have hpost := h s (hP s hs)
  cases hrun : m.run s with
  | mk r s' =>
      rw [hrun] at hpost
      cases r with
      | ok a => exact hQ a s' hpost
      | error e => exact hpost

end Triple

end Prog

end Elfupspeed.Lib
