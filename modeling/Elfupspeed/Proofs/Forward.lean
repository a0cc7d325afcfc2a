import Elfupspeed.Proofs.Accumulator

/-!
# Virtual time never runs backwards

A hook may hand out a time well ahead of the clock or well behind it, but
over a clock that does not step back it never hands out one earlier than the
last. Three facts carry that. The scale is positive after any history of
requests, since a request either adds one to something non-negative or picks
a positive constant or does nothing; so a scaled difference is never
negative; and the one way to lose the accumulated time, a remembered reading
of 0, loses nothing, because over such a clock it is remembered only while
the time handed out is 0 as well.

The product may round in any way that keeps its sign. How far it rounds does
not come into it.
-/

namespace Elfupspeed.Speed

open Elfupspeed.Lib

/-! ## The scale stays positive -/

theorem f32_pos {x : ℚ} (hx : 0 < x) : 0 < f32 x := Round.sig_pos (by omega) hx

theorem f64_pos {x : ℚ} (hx : 0 < x) : 0 < f64 x := Round.sig_pos (by omega) hx

theorem switchTimes_pos {gTimes : ℚ} (h : 0 < gTimes) (n : ℤ) :
    0 < switchTimes gTimes n := by
  unfold switchTimes
  split
  all_goals first
    | exact h
    | exact f32_pos (f64_pos (by norm_num))

theorem timesAfter_pos {gTimes : ℚ} (h : 0 < gTimes) (result : ℚ) :
    0 < timesAfter gTimes result := by
  unfold timesAfter
  split
  · rename_i hresult
    exact f32_pos (by linarith)
  · exact switchTimes_pos h _

theorem gTimes_pos_step (A : Arith) (g : Globals) (c : Call)
    (h : 0 < g.gTimes) : 0 < ((machine A).step g c).1.gTimes := by
  cases c with
  | newGettimeofday res ptv => simpa [machine] using h
  | newClockGettime clkId res ptp => simpa [machine] using h
  | setTimeScale result => simpa [machine] using timesAfter_pos h result

/-- Every scale a copy meets along a run is positive. -/
theorem samples_times_pos {A : Arith} {k : Copy} {g : Globals}
    (hg : 0 < g.gTimes) (es : List Call) :
    ∀ x ∈ samples A k g es, 0 < x.times := by
  refine (part A k).forall_inputs es g fun y hy i hi => ?_
  have hpos : 0 < y.1.gTimes :=
    (machine A).trace_inv (P := fun _ => True)
      (fun g c h _ => gTimes_pos_step A g c h) hg (fun _ _ => trivial) y hy
  rw [(view_eq_some hi).1]
  exact hpos

/-! ## One accumulator, then the library -/

theorem counter_isChain {mul : ℤ → ℚ → ℤ}
    (hmul : ∀ d times, 0 ≤ d → 0 ≤ times → 0 ≤ mul d times) :
    ∀ (xs : List (ℤ × ℚ)) (s : Saved), 0 ≤ s.saved →
      (s.saved = 0 → s.last = 0) →
      (s.saved :: xs.map Prod.fst).IsChain (· ≤ ·) → (∀ x ∈ xs, 0 ≤ x.2) →
      (s.last :: (counter mul).run s xs).IsChain (· ≤ ·) := by
  intro xs
  induction xs with
  | nil => intro s _ _ _ _; exact List.isChain_singleton _
  | cons x xs ih =>
      intro s hs hzero hchain htimes
      rw [List.map_cons, List.isChain_cons_cons] at hchain
      have hstep : s.last ≤ count mul s x.1 x.2 := by
        unfold count
        split
        · rename_i h
          rw [hzero h, ← h]
          exact hchain.1
        · have := hmul (x.1 - s.saved) x.2 (by omega) (htimes x (by simp))
          omega
      have hstart : x.1 = 0 → count mul s x.1 x.2 = 0 := by
        intro hx
        rw [count, if_pos (by omega), hx]
      rw [Mealy.run_cons, List.isChain_cons_cons]
      exact ⟨hstep, ih ⟨x.1, count mul s x.1 x.2⟩ (hs.trans hchain.1) hstart
        hchain.2 fun y hy => htimes y (by simp [hy])⟩

/-- Over a clock that starts at no earlier than 0 and never steps back, the
times a copy hands out never step back either, whatever the other calls of
the run were. -/
theorem returned_pairwise_le {mul : ℤ → ℚ → ℤ}
    (hmul : ∀ d times, 0 ≤ d → 0 ≤ times → 0 ≤ mul d times)
    (k : Copy) (es : List Call)
    (hnonneg : ∀ t ∈ (readings (.unbounded mul) k {} es).map Prod.fst, 0 ≤ t)
    (hmono : ((readings (.unbounded mul) k {} es).map Prod.fst).Pairwise (· ≤ ·)) :
    (returned (.unbounded mul) k {} es).Pairwise (· ≤ ·) := by
  have htimes : ∀ x ∈ readings (.unbounded mul) k {} es, 0 ≤ x.2 := by
    intro x hx
    obtain ⟨y, hy, rfl⟩ := List.mem_map.mp hx
    exact (samples_times_pos (by decide) es y hy).le
  have hstatics : k.statics {} = {} := by cases k <;> rfl
  rw [returned_eq_run, hstatics]
  have hchain := counter_isChain hmul (readings (.unbounded mul) k {} es) {}
    (le_refl 0) (fun _ => rfl)
    (List.isChain_iff_pairwise.mpr (List.pairwise_cons.mpr ⟨hnonneg, hmono⟩))
    htimes
  exact (List.isChain_iff_pairwise.mp hchain).of_cons

/-- Two clocks, a failed call and two requests, one of them to slow down. -/
theorem mixed_run_forward :
    (returned .exact .monotonic {}
      [.newClockGettime clockMonotonic 0 ⟨0, 7⟩, .setTimeScale 3,
        .newGettimeofday 0 ⟨12, 5⟩,
        .newClockGettime clockMonotonic 0 ⟨0, 10⟩,
        .newClockGettime clockMonotonic (-1) ⟨0, 0⟩, .setTimeScale (-7 / 2),
        .newClockGettime clockMonotonic 0 ⟨0, 110⟩]).Pairwise (· ≤ ·) :=
  returned_pairwise_le
    (fun d times hd htimes =>
      Round.trunc_nonneg (mul_nonneg (by exact_mod_cast hd) htimes))
    .monotonic _ (by decide +kernel) (by decide +kernel)

end Elfupspeed.Speed
