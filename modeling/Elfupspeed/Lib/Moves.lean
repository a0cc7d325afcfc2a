import Mathlib.Algebra.Ring.Nat
import Mathlib.Data.List.Basic

/-!
# Machines that refuse a move

Where several parties take steps in any order, what can happen next depends on
where they all are: a move is taken, or it is not one that could be made now.
A run is a list of moves that were all taken. An invariant of the moves is one
of the runs; and if there is a measure that every move makes smaller, it
bounds how long a run can be.
-/

namespace Elfupspeed.Lib

structure Moves (σ μ : Type*) where
  step : σ → μ → Option σ

namespace Moves

variable {σ μ : Type*} (M : Moves σ μ)

def run : σ → List μ → Option σ
  | s, [] => some s
  | s, m :: ms =>
      match M.step s m with
      | none => none
      | some s' => run s' ms

/-- No party can move. -/
def Stuck (s : σ) : Prop := ∀ m, M.step s m = none

theorem run_cons {s t : σ} {m : μ} {ms : List μ}
    (h : M.run s (m :: ms) = some t) :
    ∃ s', M.step s m = some s' ∧ M.run s' ms = some t := by
  rw [run] at h
  cases hstep : M.step s m with
  | none => rw [hstep] at h; cases h
  | some s' => rw [hstep] at h; exact ⟨s', rfl, h⟩

theorem run_inv {I : σ → Prop}
    (hstep : ∀ s m s', I s → M.step s m = some s' → I s') {s t : σ}
    {ms : List μ} (hs : I s) (hrun : M.run s ms = some t) : I t := by
  induction ms generalizing s with
  | nil =>
      injection hrun with h
      exact h ▸ hs
  | cons m ms ih =>
      obtain ⟨s', hm, hrest⟩ := M.run_cons hrun
      exact ih (hstep s m s' hs hm) hrest

theorem run_length_le {work : σ → ℕ}
    (hstep : ∀ s m s', M.step s m = some s' → work s' < work s) {s t : σ}
    {ms : List μ} (hrun : M.run s ms = some t) :
    ms.length + work t ≤ work s := by
  induction ms generalizing s with
  | nil =>
      injection hrun with h
      simp [h]
  | cons m ms ih =>
      obtain ⟨s', hm, hrest⟩ := M.run_cons hrun
      have hless := hstep s m s' hm
      have hlen := ih hrest
      rw [List.length_cons]
      omega

/-- Moves that cost something, some of which bring something in: what a run
costs was there, or it was brought in on the way. -/
theorem run_cost_le {work : σ → ℕ} {cost gain : μ → ℕ}
    (hstep : ∀ s m s', M.step s m = some s' →
      cost m + work s' ≤ work s + gain m) {s t : σ} {ms : List μ}
    (hrun : M.run s ms = some t) :
    (ms.map cost).sum + work t ≤ work s + (ms.map gain).sum := by
  induction ms generalizing s with
  | nil =>
      injection hrun with h
      simp [h]
  | cons m ms ih =>
      obtain ⟨s', hm, hrest⟩ := M.run_cons hrun
      have hhead := hstep s m s' hm
      have htail := ih hrest
      simp only [List.map_cons, List.sum_cons]
      omega

end Moves

/-! ## Rows of parties

Where the parties stand in a row and a move is one party's, a measure of the
whole is the sum of theirs. -/

theorem sum_map_set {α : Type*} {row : List α} {i : ℕ} {a : α}
    (h : row[i]? = some a) (f : α → ℕ) (b : α) :
    ((row.set i b).map f).sum + f a = (row.map f).sum + f b := by
  induction row generalizing i with
  | nil => cases h
  | cons x row ih =>
      cases i with
      | zero =>
          rw [List.getElem?_cons_zero, Option.some.injEq] at h
          subst h
          simp only [List.set_cons_zero, List.map_cons, List.sum_cons]
          omega
      | succ i =>
          rw [List.getElem?_cons_succ] at h
          have := ih h
          simp only [List.set_cons_succ, List.map_cons, List.sum_cons]
          omega

/-- One party moved: the others are as they were. -/
theorem forall_getElem?_set {α : Type*} {P : ℕ → α → Prop} {row : List α}
    {i : ℕ} {b : α} (hrow : ∀ j a, row[j]? = some a → P j a) (hb : P i b) :
    ∀ j a, (row.set i b)[j]? = some a → P j a := by
  intro j a hj
  rw [List.getElem?_set] at hj
  split at hj
  · next heq =>
      split at hj
      · injection hj with hj
        rw [← heq, ← hj]
        exact hb
      · cases hj
  · exact hrow j a hj

section FlatMap

variable {α β : Type*} {row : List α} {i : ℕ} {a b : α} {f : α → List β}

theorem flatMap_set_of_eq (h : row[i]? = some a) (hb : f b = f a) :
    (row.set i b).flatMap f = row.flatMap f := by
  induction row generalizing i with
  | nil => cases h
  | cons x row ih =>
      cases i with
      | zero =>
          rw [List.getElem?_cons_zero, Option.some.injEq] at h
          subst h
          simp [hb]
      | succ i =>
          rw [List.getElem?_cons_succ] at h
          simp [ih h]

/-- Where nobody behind a party has anything, the party's comes last. -/
theorem flatMap_of_last (h : row[i]? = some a)
    (hlast : ∀ j c, i < j → row[j]? = some c → f c = []) :
    row.flatMap f = (row.take i).flatMap f ++ f a := by
  induction row generalizing i with
  | nil => cases h
  | cons x row ih =>
      cases i with
      | zero =>
          rw [List.getElem?_cons_zero, Option.some.injEq] at h
          subst h
          have hnil : row.flatMap f = [] := by
            rw [List.flatMap_eq_nil_iff]
            intro c hc
            obtain ⟨j, hj⟩ := List.getElem?_of_mem hc
            exact hlast (j + 1) c (by omega) hj
          simp [hnil]
      | succ i =>
          rw [List.getElem?_cons_succ] at h
          have hrest := ih h fun j c hj hc => hlast (j + 1) c (by omega) hc
          simp [hrest]

theorem flatMap_set_of_last {xs : List β} (h : row[i]? = some a)
    (hb : f b = f a ++ xs)
    (hlast : ∀ j c, i < j → row[j]? = some c → f c = []) :
    (row.set i b).flatMap f = row.flatMap f ++ xs := by
  have hlt := (List.getElem?_eq_some_iff.mp h).1
  have hset : (row.set i b)[i]? = some b := by
    rw [List.getElem?_set, if_pos rfl, if_pos hlt]
  have hlast' : ∀ j c, i < j → (row.set i b)[j]? = some c → f c = [] := by
    intro j c hj hc
    rw [List.getElem?_set, if_neg (by omega)] at hc
    exact hlast j c hj hc
  rw [flatMap_of_last hset hlast', flatMap_of_last h hlast,
    List.take_set_of_le (Nat.le_refl i), hb, List.append_assoc]

end FlatMap

end Elfupspeed.Lib
