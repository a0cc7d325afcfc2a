import Elfupspeed.Proofs.Drift

/-!
# The clock under any schedule of requests

`elapsed` is the ideal clock, whose rate changes when a request is made. The
hooked clock is another one: its rate changes at its readings only, and what a
request sets is the rate from the reading before it on. `putBack` makes that
schedule of a run, and over the whole run, whatever was asked in it and when,
the time handed out is that of the ideal clock under this schedule, less a
unit for each reading at which a fraction was dropped.
-/

namespace Elfupspeed.Speed

open Elfupspeed.Lib Elfupspeed.Spec

/-- The schedule of a run after a reading at `t`: the scale met at each
reading, from the reading before it on. -/
def putBack : ℤ → List (ℤ × ℚ) → List (ℚ × ℚ)
  | _, [] => []
  | t, x :: xs => ((t : ℚ), x.2) :: putBack x.1 xs

theorem elapsed_putBack_cons (g : ℚ) (t : ℤ) (x : ℤ × ℚ) (xs : List (ℤ × ℚ))
    (t' : ℚ) :
    elapsed g t (putBack t (x :: xs)) t' =
      ((x.1 - t : ℤ) : ℚ) * x.2 + elapsed x.2 x.1 (putBack x.1 xs) t' := by
  rw [putBack, elapsed, elapsed_cut x.2 (t : ℚ) (x.1 : ℚ)]
  push_cast
  ring

/-- The units lost at the readings of a run, when a product of `d` and `g`
loses `loss d g`. -/
def losses (loss : ℤ → ℚ → ℕ) : ℤ → List (ℤ × ℚ) → ℕ
  | _, [] => 0
  | t, x :: xs => loss (x.1 - t) x.2 + losses loss x.1 xs

/-- A product that is off by no more than this makes a clock that is off by no
more than the sum of it. -/
theorem counter_approximates {mul : ℤ → ℚ → ℤ} {ρ : ℚ} {loss : ℤ → ℚ → ℕ}
    (hmul : ∀ d g, 0 ≤ d → 0 ≤ g →
      Approximates ρ (loss d g) (d * g) (mul d g)) :
    ∀ (xs : List (ℤ × ℚ)) (s : Saved) (g : ℚ), 0 < s.saved →
      (s.saved :: xs.map Prod.fst).IsChain (· ≤ ·) → (∀ x ∈ xs, 0 ≤ x.2) →
      let s' := (counter mul).after s xs
      Approximates ρ (losses loss s.saved xs)
        (elapsed g s.saved (putBack s.saved xs) s'.saved) (s'.last - s.last) := by
  intro xs
  induction xs with
  | nil =>
      intro s g _ _ _
      constructor <;> simp [putBack, elapsed, losses]
  | cons x xs ih =>
      intro s g hs hchain htimes s'
      rw [List.map_cons, List.isChain_cons_cons] at hchain
      have hstep : count mul s x.1 x.2 = s.last + mul (x.1 - s.saved) x.2 := by
        rw [count, if_neg hs.ne']
      have hhead := hmul (x.1 - s.saved) x.2 (by omega) (htimes x (by simp))
      have htail := ih ⟨x.1, count mul s x.1 x.2⟩ x.2
        (lt_of_lt_of_le hs hchain.1) hchain.2 fun y hy => htimes y (by simp [hy])
      have hsum := hhead.add htail
      rw [elapsed_putBack_cons]
      have hmoved : ((mul (x.1 - s.saved) x.2 : ℤ) : ℚ) +
          (s'.last - count mul s x.1 x.2) = s'.last - s.last := by
        rw [hstep]
        push_cast
        ring
      rw [← hmoved]
      exact hsum

theorem losses_one (t : ℤ) (xs : List (ℤ × ℚ)) :
    losses (fun _ _ => 1) t xs = xs.length := by
  induction xs generalizing t with
  | nil => rfl
  | cons x xs ih => rw [losses, ih, List.length_cons, Nat.add_comm]

/-! ## Exact products -/

def fraction (d : ℤ) (g : ℚ) : ℕ := if (⌊(d : ℚ) * g⌋ : ℚ) = d * g then 0 else 1

theorem exactTimes_approximates (d : ℤ) (g : ℚ) (hd : 0 ≤ d) (hg : 0 ≤ g) :
    Approximates 0 (fraction d g) ((d : ℚ) * g) (exactTimes d g : ℤ) := by
  have hnonneg : (0 : ℚ) ≤ (d : ℚ) * g :=
    mul_nonneg (by exact_mod_cast hd) hg
  rw [exactTimes, Round.trunc_of_nonneg hnonneg]
  exact Approximates.floor ⟨by simp, by simp⟩

/-- The last reading of a run is the one it remembers, and the last time
handed out is the other half of what it remembers. -/
theorem counter_getLast (mul : ℤ → ℚ → ℤ) (xs : List (ℤ × ℚ)) (s : Saved) :
    (s.saved :: xs.map Prod.fst).getLast? =
        some ((counter mul).after s xs).saved ∧
      (s.last :: (counter mul).run s xs).getLast? =
        some ((counter mul).after s xs).last := by
  induction xs generalizing s with
  | nil => exact ⟨rfl, rfl⟩
  | cons x xs ih =>
      rw [List.map_cons, List.getLast?_cons_cons, Mealy.run_cons,
        List.getLast?_cons_cons]
      exact ih ((counter mul).step s x).1

theorem after_of_readings {mul : ℤ → ℚ → ℤ} {k : Copy} {es : List Call}
    {x : ℤ × ℚ} {xs : List (ℤ × ℚ)}
    (hreadings : readings (.unbounded mul) k {} es = x :: xs) :
    let s := (counter mul).after ⟨x.1, x.1⟩ xs
    ((x :: xs).map Prod.fst).getLast? = some s.saved ∧
      (returned (.unbounded mul) k {} es).getLast? = some s.last := by
  have hstatics : k.statics {} = {} := by cases k <;> rfl
  have hfirst : (counter mul).step {} x = (⟨x.1, x.1⟩, x.1) := by
    simp [counter, count]
  rw [returned_eq_run, hstatics, hreadings, Mealy.run_cons, hfirst]
  exact counter_getLast mul xs ⟨x.1, x.1⟩

/-- The scales along a run are never negative. -/
theorem readings_times_nonneg (A : Arith) (k : Copy) (es : List Call) :
    ∀ x ∈ readings A k {} es, 0 ≤ x.2 := by
  intro x hx
  obtain ⟨y, hy, rfl⟩ := List.mem_map.mp hx
  exact (samples_times_pos (by decide) es y hy).le

/-- Over any run, with any requests at any of its moments, and readings that do
not step back from one above 0 on, a copy hands out the time of the ideal clock
under the schedule put back, less at most one unit for each reading at which a
fraction was dropped, and never more. -/
theorem returned_follows_schedule (k : Copy) (es : List Call) (t₀ : ℤ) (g₀ : ℚ)
    (xs : List (ℤ × ℚ)) (ht₀ : 0 < t₀)
    (hreadings : readings .exact k {} es = (t₀, g₀) :: xs)
    (hmono : (t₀ :: xs.map Prod.fst).Pairwise (· ≤ ·)) :
    ∃ t v, (t₀ :: xs.map Prod.fst).getLast? = some t ∧
      (returned .exact k {} es).getLast? = some v ∧
      (v : ℚ) ≤ t₀ + elapsed g₀ t₀ (putBack t₀ xs) t ∧
      t₀ + elapsed g₀ t₀ (putBack t₀ xs) t ≤ v + losses fraction t₀ xs := by
  obtain ⟨ht, hv⟩ := after_of_readings hreadings
  have htimes : ∀ x ∈ xs, 0 ≤ x.2 := fun x hx =>
    readings_times_nonneg .exact k es x
      (hreadings ▸ List.mem_cons_of_mem _ hx)
  have h := counter_approximates exactTimes_approximates xs ⟨t₀, t₀⟩ g₀ ht₀
    (List.isChain_iff_pairwise.mpr hmono) htimes
  have hlower := h.lower
  have hupper := h.upper
  refine ⟨_, _, ht, hv, ?_, ?_⟩
  · linarith
  · linarith

/-- A request in the middle of the second gap, to run twice as fast, and one
to run at half the speed after it. -/
def twoRequests : List Call :=
  [.newGettimeofday 0 ⟨1, 0⟩, .newGettimeofday 0 ⟨1, 5⟩, .setTimeScale 1,
    .newGettimeofday 0 ⟨1, 8⟩, .setTimeScale (-1), .newGettimeofday 0 ⟨1, 9⟩]

def threeGaps : List (ℤ × ℚ) := [(1000005, 1), (1000008, 2), (1000009, 1 / 2)]

theorem two_requests_put_back :
    ∃ t v, (1000000 :: threeGaps.map Prod.fst).getLast? = some t ∧
      (returned .exact .gettimeofday {} twoRequests).getLast? = some v ∧
      (v : ℚ) ≤ (1000000 : ℤ) +
        elapsed 1 ((1000000 : ℤ) : ℚ) (putBack 1000000 threeGaps) t ∧
      (1000000 : ℤ) + elapsed 1 ((1000000 : ℤ) : ℚ) (putBack 1000000 threeGaps) t ≤
        v + losses fraction 1000000 threeGaps :=
  returned_follows_schedule .gettimeofday twoRequests 1000000 1 threeGaps
    (by omega) (by decide +kernel) (by decide)

end Elfupspeed.Speed
