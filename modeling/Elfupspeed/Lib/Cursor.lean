import Elfupspeed.Lib.CString
import Mathlib.Logic.Function.Basic

/-!
# Buffers filled from their end

A text whose length is not known before it is made is put into its buffer
backwards: the cursor starts behind the last place, and each element goes to
the place before it. What was pushed then stands in the order opposite to that
of the pushes, in front of what was there. Places are counted from the
beginning of the buffer, and what is not in the buffer is memory as well, so
that it can be said of a program that it stays inside, and where a string
ends.
-/

namespace Elfupspeed.Lib

variable {β : Type*}

structure Cursor (β : Type*) where
  p : ℤ
  mem : ℤ → β
  writes : List ℤ := []

/-- The memory has `xs` from `p` on. -/
def HoldsFrom (mem : ℤ → β) (p : ℤ) (xs : List β) : Prop :=
  ∀ i (h : i < xs.length), mem (p + i) = xs[i]

/-- The memory has the C string `text` at `p`. -/
structure IsString (mem : ℤ → Byte) (p : ℤ) (text : List Byte) : Prop where
  holds : HoldsFrom mem p text
  ne_zero : ∀ b ∈ text, b ≠ 0
  nul : mem (p + text.length) = 0

namespace Cursor

variable {c : Cursor β} {b : β} {xs ys : List β}

/-- `*--p = b` -/
def push (c : Cursor β) (b : β) : Cursor β where
  p := c.p - 1
  mem := Function.update c.mem (c.p - 1) b
  writes := c.writes ++ [c.p - 1]

def pushAll (c : Cursor β) (xs : List β) : Cursor β := xs.foldl push c

@[simp] theorem pushAll_nil : c.pushAll [] = c := rfl

@[simp] theorem pushAll_cons : c.pushAll (b :: xs) = (c.push b).pushAll xs := rfl

theorem pushAll_append : c.pushAll (xs ++ ys) = (c.pushAll xs).pushAll ys :=
  List.foldl_append

@[simp] theorem p_push : (c.push b).p = c.p - 1 := rfl

theorem p_pushAll : (c.pushAll xs).p = c.p - xs.length := by
  induction xs generalizing c with
  | nil => simp
  | cons b xs ih =>
      rw [pushAll_cons, ih, p_push, List.length_cons]
      omega

theorem holdsFrom_push (h : HoldsFrom c.mem c.p ys) :
    HoldsFrom (c.push b).mem (c.push b).p (b :: ys) := by
  intro i hi
  cases i with
  | zero => simp [push]
  | succ i =>
      have hne : c.p - 1 + ((i + 1 : ℕ) : ℤ) ≠ c.p - 1 := by omega
      have heq : c.p - 1 + ((i + 1 : ℕ) : ℤ) = c.p + i := by omega
      show Function.update c.mem (c.p - 1) b (c.p - 1 + ((i + 1 : ℕ) : ℤ)) = _
      rw [Function.update_of_ne hne, heq]
      exact h i (Nat.lt_of_succ_lt_succ hi)

theorem holdsFrom_pushAll (h : HoldsFrom c.mem c.p ys) :
    HoldsFrom (c.pushAll xs).mem (c.pushAll xs).p (xs.reverse ++ ys) := by
  induction xs generalizing c ys with
  | nil => exact h
  | cons b xs ih =>
      rw [pushAll_cons, List.reverse_cons, List.append_assoc]
      exact ih (holdsFrom_push h)

theorem holdsFrom_reverse :
    HoldsFrom (c.pushAll xs.reverse).mem (c.pushAll xs.reverse).p xs := by
  have hnil : HoldsFrom c.mem c.p [] := fun i hi => absurd hi (Nat.not_lt_zero i)
  have hall : HoldsFrom (c.pushAll xs.reverse).mem (c.pushAll xs.reverse).p
      (xs.reverse.reverse ++ []) := holdsFrom_pushAll hnil
  rwa [List.reverse_reverse, List.append_nil] at hall

theorem mem_writes_pushAll {i : ℤ} (h : i ∈ (c.pushAll xs).writes) :
    i ∈ c.writes ∨ c.p - xs.length ≤ i ∧ i < c.p := by
  induction xs generalizing c with
  | nil => exact .inl h
  | cons b xs ih =>
      rw [List.length_cons]
      rcases ih h with hpush | hrange
      · rcases List.mem_append.mp hpush with hold | hnew
        · exact .inl hold
        · rw [List.mem_singleton.mp hnew]
          omega
      · rw [p_push] at hrange
        omega

end Cursor

/-- A string begins with what is known to be where it begins. -/
theorem IsString.begins {mem : ℤ → Byte} {p : ℤ} {text xs : List Byte}
    (h : IsString mem p text) (hxs : HoldsFrom mem p xs) (hne : ∀ b ∈ xs, b ≠ 0) :
    ∃ rest, text = xs ++ rest := by
  have hlen : xs.length ≤ text.length := by
    by_contra hlt
    have hcell := hxs text.length (by omega)
    rw [h.nul] at hcell
    exact hne _ (List.getElem_mem _) hcell.symm
  have hpre : xs <+: text := by
    rw [List.prefix_iff_getElem]
    refine ⟨hlen, fun i hi => ?_⟩
    rw [← hxs i hi, h.holds i (by omega)]
  obtain ⟨rest, hrest⟩ := hpre
  exact ⟨rest, hrest.symm⟩

end Elfupspeed.Lib
