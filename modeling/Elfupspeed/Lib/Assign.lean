import Mathlib.Data.List.Basic
import Mathlib.Logic.Function.Basic

/-!
# Assignments one after the other

What a function is after a list of assignments to single arguments: the last
one for an argument wins, and an argument without one keeps its value.
-/

namespace Elfupspeed.Lib

variable {α β : Type*} [DecidableEq α]

def assign (f : α → β) : List (α × β) → α → β
  | [] => f
  | p :: ps => assign (Function.update f p.1 p.2) ps

/-- What the last of the pairs for `a` pairs it with. -/
def lastFor (a : α) : List (α × β) → Option β
  | [] => none
  | p :: ps => (lastFor a ps).or (if p.1 = a then some p.2 else none)

theorem assign_eq (f : α → β) (ps : List (α × β)) (a : α) :
    assign f ps a = (lastFor a ps).getD (f a) := by
  induction ps generalizing f with
  | nil => rfl
  | cons p ps ih =>
      rw [assign, lastFor, ih, Function.update_apply]
      cases lastFor a ps with
      | some b => rfl
      | none =>
          by_cases hp : p.1 = a
          · rw [if_pos hp, if_pos hp.symm]
            rfl
          · rw [if_neg hp, if_neg (Ne.symm hp)]
            rfl

theorem assign_eq_self_iff (f : α → β) (ps : List (α × β)) :
    assign f ps = f ↔ ∀ a b, lastFor a ps = some b → f a = b := by
  constructor
  · intro h a b hlast
    have hat := assign_eq f ps a
    rwa [h, hlast] at hat
  · intro h
    funext a
    rw [assign_eq]
    cases hlast : lastFor a ps with
    | none => rfl
    | some b => exact (h a b hlast).symm

end Elfupspeed.Lib
