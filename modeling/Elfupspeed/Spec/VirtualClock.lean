import Mathlib.Algebra.Order.Floor.Ring
import Mathlib.Algebra.Order.Round
import Mathlib.Tactic.Linarith
import Mathlib.Tactic.Ring
import Mathlib.Tactic.Positivity

/-!
# What a virtual clock is for

A clock that runs at a rate of one's choosing, and may have its rate changed,
has an obvious meaning: the time that passes on it is the sum of the stretches
between two changes, each at its own rate. `elapsed` is that meaning, over any
field, and with no one reading the clock.

A clock that is only ever computed when somebody reads it, in whole units, is
an approximation, and `Within` says of what kind: at a real instant it shows
something between the slowest and the fastest line through its origin, short
of the slower line by at most a number of units it has lost on the way.
`Within.floor_step` is why that number grows by one for each reading whose
product is not whole, and never otherwise.
-/

namespace Elfupspeed.Spec

variable {K : Type*} [Field K]

/-- The time that passes on a clock between the instants `t` and `t'`, at rate
`g` from `t` on and at the listed rates from the instants beside them. -/
def elapsed (g t : K) : List (K × K) → K → K
  | [], t' => g * (t' - t)
  | (s, g') :: changes, t' => g * (s - t) + elapsed g' s changes t'

/-- Changes made at the very instant a stretch begins leave the last rate to
cover all of it. -/
theorem elapsed_changes_at (g t t' : K) (gs : List K) :
    elapsed g t (gs.map fun g' => (t, g')) t' = gs.getLastD g * (t' - t) := by
  induction gs generalizing g with
  | nil => rfl
  | cons g' gs ih =>
      rw [List.map_cons, elapsed, ih, List.getLastD_cons]
      ring

/-- A stretch at one rate may be cut anywhere. -/
theorem elapsed_cut (g t u : K) (changes : List (K × K)) (t' : K) :
    elapsed g t changes t' = g * (u - t) + elapsed g u changes t' := by
  cases changes with
  | nil => rw [elapsed, elapsed]; ring
  | cons change changes =>
      obtain ⟨s, g'⟩ := change
      rw [elapsed, elapsed]
      ring

variable [LinearOrder K] [IsStrictOrderedRing K]

/-- A clock has shown `v` units where `e` were to pass: short of them by at
most `n` units, and off by at most the part `ρ` of them either way. -/
structure Approximates (ρ : K) (n : ℕ) (e v : K) : Prop where
  lower : (1 - ρ) * e - n ≤ v
  upper : v ≤ (1 + ρ) * e

namespace Approximates

variable {ρ e e' v v' : K} {n n' : ℕ}

theorem mono (h : Approximates ρ n e v) (hn : n ≤ n') :
    Approximates ρ n' e v := by
  have hcast : (n : K) ≤ n' := by exact_mod_cast hn
  exact ⟨by linarith [h.lower], h.upper⟩

/-- What two stretches are off by adds up. -/
theorem add (h : Approximates ρ n e v) (h' : Approximates ρ n' e' v') :
    Approximates ρ (n + n') (e + e') (v + v') := by
  constructor
  · push_cast
    linarith [h.lower, h'.lower]
  · linarith [h.upper, h'.upper]

/-- Dropping the fraction loses a unit, or nothing where there is none. -/
theorem floor [FloorRing K] (h : Approximates ρ 0 e v) :
    Approximates ρ (if (⌊v⌋ : K) = v then 0 else 1) e ⌊v⌋ := by
  have hlower := h.lower
  have hupper := h.upper
  have hfloor := Int.floor_le v
  have hlt := Int.lt_floor_add_one v
  rw [Nat.cast_zero, sub_zero] at hlower
  constructor
  · split
    · next hwhole =>
        rw [hwhole, Nat.cast_zero, sub_zero]
        exact hlower
    · rw [Nat.cast_one]
      linarith
  · linarith

end Approximates

/-- At the real instant `u` the clock shows `v`: between the line of rate `m`
and the line of rate `G` through `τ`, less `n` units lost. -/
structure Within (τ m G : K) (n : ℕ) (u v : ℤ) : Prop where
  lower : τ + m * (u - τ) - n ≤ v
  upper : v ≤ τ + G * (u - τ)

namespace Within

variable {τ m G : K} {n : ℕ} {u v : ℤ}

theorem mono {n' : ℕ} (h : Within τ m G n u v) (hn : n ≤ n') :
    Within τ m G n' u v := by
  have hcast : (n : K) ≤ n' := by exact_mod_cast hn
  exact ⟨by linarith [h.lower], h.upper⟩

/-- A clock that shows the real time is within any two lines around it. -/
theorem self (hm : m ≤ 1) (hG : 1 ≤ G) (hu : τ ≤ u) : Within τ m G n u u := by
  have hn : (0 : K) ≤ n := n.cast_nonneg
  constructor <;> nlinarith

/-- The same clock counted in units `c` times as large. -/
theorem div_bounds (h : Within τ m G n u v) {c : ℤ} (hc : 0 < c) :
    τ / c + m * (u / c - τ / c) - n ≤ v / c ∧
      (v : K) / c ≤ τ / c + G * (u / c - τ / c) := by
  have hc₀ : (0 : K) < c := by exact_mod_cast hc
  have hc₁ : (1 : K) ≤ c := by exact_mod_cast hc
  have hn : (n : K) / c ≤ n := div_le_self n.cast_nonneg hc₁
  have hlower := (div_le_div_iff_of_pos_right hc₀).mpr h.lower
  have hupper := (div_le_div_iff_of_pos_right hc₀).mpr h.upper
  have hsplit (g : K) :
      (τ + g * (u - τ)) / c = τ / c + g * (u / c - τ / c) := by ring
  rw [sub_div, hsplit] at hlower
  rw [hsplit] at hupper
  exact ⟨by linarith, hupper⟩

theorem ediv_bounds (T : ℤ) {c : ℤ} (hc : 0 < c) :
    ((T / c : ℤ) : K) ≤ T / c ∧ (T : K) / c ≤ (T / c : ℤ) + 1 := by
  have hc₀ : (0 : K) < c := by exact_mod_cast hc
  constructor
  · rw [le_div_iff₀ hc₀]
    exact_mod_cast Int.ediv_mul_le T hc.ne'
  · rw [div_le_iff₀ hc₀]
    exact_mod_cast (Int.lt_ediv_add_one_mul_self T hc).le

/-- Two clocks over one real time, the first of which counts in units `c`
times as large and sees the instants rounded down to them. -/
theorem apart {a b : ℕ} {T₀ T v w c : ℤ} (hc : 0 < c) (hm : 0 ≤ m)
    (hm₁ : m ≤ 1) (hG : 1 ≤ G)
    (hv : Within ((T₀ / c : ℤ) : K) m G a (T / c) v)
    (hw : Within (T₀ : K) m G b T w) :
    |(v : K) - w / c| ≤ (G - m) * ((T - T₀) / c) + G + (a + b) := by
  obtain ⟨hwl, hwu⟩ := hw.div_bounds hc
  obtain ⟨hu, hu'⟩ := ediv_bounds (K := K) T hc
  obtain ⟨hu₀, hu₀'⟩ := ediv_bounds (K := K) T₀ hc
  have hvl := hv.lower
  have hvu := hv.upper
  have ha : (0 : K) ≤ a := a.cast_nonneg
  have hb : (0 : K) ≤ b := b.cast_nonneg
  rw [sub_div]
  generalize (w : K) / c = y at *
  generalize (T : K) / c = x at *
  generalize (T₀ : K) / c = τ at *
  generalize ((T / c : ℤ) : K) = u at *
  generalize ((T₀ / c : ℤ) : K) = u₀ at *
  -- The rounded instants span at most one unit more than the exact ones.
  have hspan : G * (u - u₀) ≤ G * (x - τ + 1) :=
    mul_le_mul_of_nonneg_left (by linarith) (by linarith)
  have hlow : m * (x - 1 - τ) ≤ m * (u - τ) :=
    mul_le_mul_of_nonneg_left (by linarith) hm
  have hbase : (1 - m) * (τ - u₀) ≤ (1 - m) * 1 :=
    mul_le_mul_of_nonneg_left (by linarith) (by linarith)
  rw [abs_le]
  constructor <;> linarith

variable [FloorRing K]

/-- One more reading, at a rate between the two lines: the part of a unit that
is dropped is the only loss. -/
theorem floor_step (h : Within τ m G n u v) {u' : ℤ} (hu : u ≤ u') {g : K}
    (hm : m ≤ g) (hG : g ≤ G) :
    Within τ m G (n + if (⌊(u' - u) * g⌋ : K) = (u' - u) * g then 0 else 1) u'
      (v + ⌊(u' - u) * g⌋) := by
  have hgap : (0 : K) ≤ u' - u := sub_nonneg.mpr (by exact_mod_cast hu)
  have hlo : (u' - u) * m ≤ (u' - u) * g := mul_le_mul_of_nonneg_left hm hgap
  have hhi : (u' - u) * g ≤ (u' - u) * G := mul_le_mul_of_nonneg_left hG hgap
  have hfloor := Int.floor_le ((u' - u : K) * g)
  have hlt := Int.lt_floor_add_one ((u' - u : K) * g)
  have hlower := h.lower
  have hupper := h.upper
  constructor
  · split
    · rename_i hwhole
      push_cast
      rw [hwhole]
      linarith
    · push_cast
      linarith
  · push_cast
    linarith

end Within

end Elfupspeed.Spec
