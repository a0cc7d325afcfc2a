import Mathlib.Data.List.Infix

/-!
# Reliable streams

One direction of a connection: what its reader has taken, and what is on the
way. What is put in comes out in order, in pieces that have nothing to do with
the pieces it was put in as.
-/

namespace Elfupspeed.Lib

structure Stream (α : Type*) where
  taken : List α := []
  flight : List α := []

namespace Stream

variable {α : Type*} (s : Stream α)

/-- Everything that was ever put in. -/
def written : List α := s.taken ++ s.flight

def put (xs : List α) : Stream α := { s with flight := s.flight ++ xs }

/-- The next `n` arrive. -/
def take (n : ℕ) : Stream α :=
  ⟨s.taken ++ s.flight.take n, s.flight.drop n⟩

@[simp] theorem put_taken (xs : List α) : (s.put xs).taken = s.taken := rfl

@[simp] theorem put_flight (xs : List α) :
    (s.put xs).flight = s.flight ++ xs := rfl

@[simp] theorem take_taken (n : ℕ) :
    (s.take n).taken = s.taken ++ s.flight.take n := rfl

@[simp] theorem take_flight (n : ℕ) : (s.take n).flight = s.flight.drop n := rfl

@[simp] theorem put_written (xs : List α) :
    (s.put xs).written = s.written ++ xs := by
  simp [written]

@[simp] theorem take_written (n : ℕ) : (s.take n).written = s.written := by
  simp [written]

theorem taken_prefix : s.taken <+: s.written := List.prefix_append _ _

end Stream

end Elfupspeed.Lib
