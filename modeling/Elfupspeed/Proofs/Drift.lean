import Elfupspeed.Proofs.Forward
import Elfupspeed.Spec.VirtualClock

/-!
# How far an accumulator strays from the clock it stands for

With exact products, what is left of the approximation is the design itself:
a copy computes nothing until it is called, scales the whole gap since its
last call by the scale then in force, drops the fraction of the product, and
starts the next gap from there.

Dropping the fraction costs up to a unit each time, and the units add up:
polled often enough at scale 1/2, a clock of microseconds stands still.
`returned_within` is the bound that holds, one unit for each reading whose
product is not whole, and none for a whole scale.

Scaling the whole gap by the scale in force at its end is the other half. A
request acts from the last call before it, not from the instant it is made,
and `elapsed_between_calls` says that in the terms of the ideal clock: as if
every request of a gap had been made at its beginning.
-/

namespace Elfupspeed.Speed

open Elfupspeed.Lib Elfupspeed.Spec

/-- The readings of a run at which a fraction is dropped, when the last one
before it was `t`. The reading after a 0 is taken over whole. -/
def roundings (t : ℤ) : List (ℤ × ℚ) → ℕ
  | [] => 0
  | x :: xs =>
      (if t = 0 ∨ (⌊((x.1 : ℚ) - t) * x.2⌋ : ℚ) = ((x.1 : ℚ) - t) * x.2 then 0
        else 1) + roundings x.1 xs

theorem exactTimes_eq_floor {u t : ℤ} (h : u ≤ t) {times : ℚ}
    (ht : 0 ≤ times) : exactTimes (t - u) times = ⌊((t : ℚ) - u) * times⌋ := by
  have hgap : (0 : ℚ) ≤ (t : ℚ) - u := sub_nonneg.mpr (by exact_mod_cast h)
  rw [exactTimes, Int.cast_sub, Round.trunc_of_nonneg (mul_nonneg hgap ht)]

/-- Every time an accumulator hands out is within the two lines, for rates
between theirs. An accumulator that has nothing yet needs the real time to be
between them as well, since that is what it will begin with. -/
theorem counter_within {τ m G : ℚ} :
    ∀ (xs : List (ℤ × ℚ)) (s : Saved) (n : ℕ), 0 ≤ s.saved →
      (s.saved = 0 → m ≤ 1 ∧ 1 ≤ G) →
      (s.saved ≠ 0 → Within τ m G n s.saved s.last) →
      (s.saved :: xs.map Prod.fst).IsChain (· ≤ ·) →
      (∀ x ∈ xs, τ ≤ x.1 ∧ 0 ≤ x.2 ∧ m ≤ x.2 ∧ x.2 ≤ G) →
      ∀ p ∈ (xs.map Prod.fst).zip ((counter exactTimes).run s xs),
        Within τ m G (n + roundings s.saved xs) p.1 p.2 := by
  intro xs
  induction xs with
  | nil => intro s n _ _ _ _ _ p hp; cases hp
  | cons x xs ih =>
      intro s n hs hlines hwithin hchain hxs p hp
      rw [List.map_cons, List.isChain_cons_cons] at hchain
      obtain ⟨hτ, hx₀, hxm, hxG⟩ := hxs x (by simp)
      set k : ℕ := if s.saved = 0 ∨
        (⌊((x.1 : ℚ) - s.saved) * x.2⌋ : ℚ) = ((x.1 : ℚ) - s.saved) * x.2
        then 0 else 1 with hk
      have hstep : Within τ m G (n + k) x.1 (count exactTimes s x.1 x.2) := by
        unfold count
        split
        · rename_i h
          exact .self (hlines h).1 (hlines h).2 hτ
        · rename_i h
          rw [exactTimes_eq_floor hchain.1 hx₀]
          simpa [hk, h] using (hwithin h).floor_step hchain.1 hxm hxG
      have hk' : roundings s.saved (x :: xs) = k + roundings x.1 xs := rfl
      rw [hk', ← Nat.add_assoc]
      rw [Mealy.run_cons, List.map_cons, List.zip_cons_cons] at hp
      rcases List.mem_cons.mp hp with rfl | hp
      · exact hstep.mono (Nat.le_add_right _ _)
      · exact ih ⟨x.1, count exactTimes s x.1 x.2⟩ (n + k) (hs.trans hchain.1)
          (fun h => hlines (le_antisymm (h ▸ hchain.1) hs)) (fun _ => hstep)
          hchain.2 (fun y hy => hxs y (by simp [hy])) p hp

/-! ## One scale all along -/

/-- Under one scale the two lines are one, through the first reading. -/
theorem counter_within_of_scale {g : ℚ} (hg : 0 < g) {x : ℤ × ℚ}
    {xs : List (ℤ × ℚ)} (hx : 0 < x.1)
    (hmono : (x.1 :: xs.map Prod.fst).Pairwise (· ≤ ·))
    (hscale : ∀ y ∈ xs, y.2 = g) :
    ∀ p ∈ (x.1 :: xs.map Prod.fst).zip ((counter exactTimes).run {} (x :: xs)),
      Within (x.1 : ℚ) g g (roundings 0 (x :: xs)) p.1 p.2 := by
  have hstart : Within (x.1 : ℚ) g g 0 x.1 x.1 := ⟨by simp, by simp⟩
  have hcount : roundings 0 (x :: xs) = 0 + roundings x.1 xs := by
    simp [roundings]
  have hfirst : (counter exactTimes).step {} x = (⟨x.1, x.1⟩, x.1) := by
    simp [counter, count]
  intro p hp
  rw [Mealy.run_cons, hfirst, List.zip_cons_cons] at hp
  rw [hcount]
  rcases List.mem_cons.mp hp with rfl | hp
  · exact hstart.mono (Nat.zero_le _)
  · refine counter_within xs ⟨x.1, x.1⟩ 0 hx.le (fun h => absurd h hx.ne')
      (fun _ => hstart) (List.isChain_iff_pairwise.mpr hmono) (fun y hy => ?_) p hp
    have hle := (List.pairwise_cons.mp hmono).1 y.1 (List.mem_map_of_mem hy)
    have hy₂ := hscale y hy
    exact ⟨by exact_mod_cast hle, hy₂ ▸ hg.le, hy₂.ge, hy₂.le⟩

/-- Under one scale, what a copy has handed out at `t` falls short of
`t₀ + g * (t - t₀)` by at most a unit for each reading whose product is not
whole, and is never ahead of it. -/
theorem returned_within {g : ℚ} (hg : 0 < g) (k : Copy) (es : List Call)
    (t₀ : ℤ) (ts : List ℤ) (ht₀ : 0 < t₀)
    (hscale : ∀ x ∈ readings .exact k { gTimes := g } es, x.2 = g)
    (hreadings : (readings .exact k { gTimes := g } es).map Prod.fst = t₀ :: ts)
    (hmono : (t₀ :: ts).Pairwise (· ≤ ·)) :
    ∀ p ∈ (t₀ :: ts).zip (returned .exact k { gTimes := g } es),
      (p.2 : ℚ) ≤ t₀ + g * (p.1 - t₀) ∧
        t₀ + g * (p.1 - t₀) - p.2 ≤
          roundings 0 (readings .exact k { gTimes := g } es) := by
  have hstatics : k.statics { gTimes := g } = {} := by cases k <;> rfl
  rw [Arith.exact, returned_eq_run, hstatics]
  rw [Arith.exact] at hscale hreadings
  cases hrun : readings (.unbounded exactTimes) k { gTimes := g } es with
  | nil =>
      rw [hrun] at hreadings
      cases hreadings
  | cons x xs =>
      rw [hrun] at hscale hreadings
      rw [List.map_cons, List.cons.injEq] at hreadings
      obtain ⟨rfl, rfl⟩ := hreadings
      intro p hp
      have hwithin := counter_within_of_scale hg ht₀ hmono
        (fun y hy => hscale y (List.mem_cons_of_mem x hy)) p hp
      exact ⟨hwithin.upper, by linarith [hwithin.lower]⟩

def everyMicrosecond : List Call :=
  [.newGettimeofday 0 ⟨1000, 0⟩, .newGettimeofday 0 ⟨1000, 1⟩,
    .newGettimeofday 0 ⟨1000, 2⟩, .newGettimeofday 0 ⟨1000, 3⟩]

theorem half_units_dropped :
    ((1000000006 : ℤ) : ℚ) ≤ (1000000000 : ℤ) +
        5 / 2 * ((1000000003 : ℤ) - (1000000000 : ℤ)) ∧
      ((1000000000 : ℤ) : ℚ) +
          5 / 2 * ((1000000003 : ℤ) - (1000000000 : ℤ)) - (1000000006 : ℤ) ≤
        roundings 0 (readings .exact .gettimeofday { gTimes := 5 / 2 }
          everyMicrosecond) :=
  returned_within (g := 5 / 2) (by norm_num) .gettimeofday everyMicrosecond
    1000000000 [1000000001, 1000000002, 1000000003] (by decide)
    (by decide +kernel) (by decide +kernel) (by decide)
    (1000000003, 1000000006) (by decide +kernel)

/-- A clock of microseconds at scale 1/2, read every microsecond: it stands
still, and three of them are enough to be more than one unit behind. -/
theorem polled_clock_stands_still :
    ¬ ∀ (g : ℚ), 0 < g → ∀ (es : List Call) (t₀ : ℤ) (ts : List ℤ),
      (∀ x ∈ readings .exact .gettimeofday { gTimes := g } es, x.2 = g) →
      (readings .exact .gettimeofday { gTimes := g } es).map Prod.fst =
        t₀ :: ts →
      (t₀ :: ts).Pairwise (· ≤ ·) →
      ∀ p ∈ (t₀ :: ts).zip (returned .exact .gettimeofday { gTimes := g } es),
        |(p.2 : ℚ) - (t₀ + g * (p.1 - t₀))| ≤ 1 := by
  intro h
  have hpoll := h (1 / 2) (by norm_num) everyMicrosecond
    1000000000 [1000000001, 1000000002, 1000000003] (by decide +kernel)
    (by decide +kernel) (by decide) (1000000003, 1000000000)
    (by decide +kernel)
  revert hpoll
  norm_num

/-! ## Requests between two calls -/

def scalesLeft (times : ℚ) : List Call → List ℚ
  | [] => []
  | .setTimeScale result :: es =>
      timesAfter times result :: scalesLeft (timesAfter times result) es
  | .newGettimeofday .. :: es | .newClockGettime .. :: es =>
      scalesLeft times es

theorem gTimes_after (A : Arith) (es : List Call) (g : Globals) :
    ((machine A).after g es).gTimes =
      (scalesLeft g.gTimes es).getLastD g.gTimes := by
  induction es generalizing g with
  | nil => rfl
  | cons e es ih =>
      rw [Mealy.after_cons, ih]
      cases e with
      | newGettimeofday res ptv => simp [machine, scalesLeft]
      | newClockGettime clkId res ptp => simp [machine, scalesLeft]
      | setTimeScale result =>
          simp only [machine, gTimes_setTimeScale, scalesLeft,
            List.getLastD_cons]

/-- Between two successive calls of a copy, after any history, the virtual
time that passes is that of the ideal clock with every request in between
moved back to the first of the two. -/
theorem elapsed_between_calls (k : Copy) (past mid : List Call)
    (c₁ c₂ : Call) (x₁ x₂ : Sample) :
    let M := machine .exact
    let g₁ := M.after {} past
    let r₁ := M.step g₁ c₁
    let g₂ := M.after r₁.1 mid
    let r₂ := M.step g₂ c₂
    let t₁ := k.total x₁.sec x₁.frac
    let t₂ := k.total x₂.sec x₂.frac
    let v₁ := k.total r₁.2.fields.1 r₁.2.fields.2
    let v₂ := k.total r₂.2.fields.1 r₂.2.fields.2
    k.view g₁ c₁ = some x₁ → k.view g₂ c₂ = some x₂ →
    (∀ y ∈ M.trace r₁.1 mid, k.view y.1 y.2.1 = none) → t₁ ≠ 0 →
    |(v₂ : ℚ) - v₁ - elapsed g₁.gTimes t₁
      ((scalesLeft g₁.gTimes mid).map fun g => ((t₁ : ℚ), g)) t₂| < 1 := by
  intro M g₁ r₁ g₂ r₂ t₁ t₂ v₁ v₂ h₁ h₂ hmid ht₁
  obtain ⟨hs₁, hv₁⟩ := counted_of_view exactTimes h₁
  obtain ⟨-, hv₂⟩ := counted_of_view exactTimes h₂
  have hkeep : k.statics g₂ = k.statics r₁.1 :=
    (part .exact k).proj_after_hidden (fun _ _ => trivial) r₁.1 hmid
  have hr₁ : r₁.1.gTimes = g₁.gTimes := by
    obtain ⟨-, ⟨rfl, rfl⟩ | ⟨rfl, rfl⟩ | ⟨clkId, hid, rfl, rfl⟩⟩ :=
      view_eq_some h₁ <;> simp [r₁, M, machine]
  have htimes : x₂.times = (scalesLeft g₁.gTimes mid).getLastD g₁.gTimes := by
    rw [(view_eq_some h₂).1, ← hr₁]
    exact gTimes_after .exact mid r₁.1
  have hcount : v₂ = v₁ + exactTimes (t₂ - t₁) x₂.times := by
    have hstatics : k.statics g₂ = ⟨t₁, v₁⟩ := by
      rw [hkeep]
      exact hs₁.trans (by rw [← hv₁]; rfl)
    rw [show v₂ = _ from hv₂, hstatics, count, if_neg ht₁]
  rw [elapsed_changes_at, ← htimes, hcount, Int.cast_add]
  have herr := Round.abs_trunc_sub_lt (((t₂ - t₁ : ℤ) : ℚ) * x₂.times)
  rw [Int.cast_sub] at herr
  rw [show exactTimes (t₂ - t₁) x₂.times = Round.trunc _ from rfl, Int.cast_sub]
  rw [show (v₁ : ℚ) + (Round.trunc (((t₂ : ℚ) - t₁) * x₂.times) : ℤ) - v₁
      - x₂.times * ((t₂ : ℚ) - t₁)
    = (Round.trunc (((t₂ : ℚ) - t₁) * x₂.times) : ℤ)
      - ((t₂ : ℚ) - t₁) * x₂.times by ring]
  exact herr

/-- A call at one second, a request for scale 2, a call at three seconds. -/
theorem request_covers_whole_gap :
    let r₁ := (machine .exact).step {} (.newGettimeofday 0 ⟨1, 0⟩)
    let r₂ := (machine .exact).step
      ((machine .exact).after r₁.1 [.setTimeScale 1]) (.newGettimeofday 0 ⟨3, 0⟩)
    let v₁ := Copy.gettimeofday.total r₁.2.fields.1 r₁.2.fields.2
    let v₂ := Copy.gettimeofday.total r₂.2.fields.1 r₂.2.fields.2
    |(v₂ : ℚ) - v₁ - elapsed 1 ((1000000 : ℤ) : ℚ)
      [(((1000000 : ℤ) : ℚ), timesAfter 1 1)] ((3000000 : ℤ) : ℚ)| < 1 :=
  elapsed_between_calls .gettimeofday [] [.setTimeScale 1]
    (.newGettimeofday 0 ⟨1, 0⟩) (.newGettimeofday 0 ⟨3, 0⟩)
    ⟨1, 0, 1⟩ ⟨3, 0, 2⟩ rfl (by decide +kernel)
    (by decide +kernel) (by decide)

/-- Made at two seconds, the request rescales the second before it. -/
theorem earlier_time_rescaled :
    ¬ ∀ (k : Copy) (past mid : List Call) (c₁ c₂ : Call) (x₁ x₂ : Sample)
      (instants : List ℚ),
      let M := machine .exact
      let g₁ := M.after {} past
      let r₁ := M.step g₁ c₁
      let g₂ := M.after r₁.1 mid
      let r₂ := M.step g₂ c₂
      let t₁ := k.total x₁.sec x₁.frac
      let t₂ := k.total x₂.sec x₂.frac
      let v₁ := k.total r₁.2.fields.1 r₁.2.fields.2
      let v₂ := k.total r₂.2.fields.1 r₂.2.fields.2
      k.view g₁ c₁ = some x₁ → k.view g₂ c₂ = some x₂ →
      (∀ y ∈ M.trace r₁.1 mid, k.view y.1 y.2.1 = none) → t₁ ≠ 0 →
      instants.length = (scalesLeft g₁.gTimes mid).length →
      ((t₁ : ℚ) :: (instants ++ [(t₂ : ℚ)])).Pairwise (· ≤ ·) →
      |(v₂ : ℚ) - v₁ - elapsed g₁.gTimes t₁
        (instants.zip (scalesLeft g₁.gTimes mid)) t₂| ≤ 1 := by
  intro h
  have hlate := h .gettimeofday [] [.setTimeScale 1]
    (.newGettimeofday 0 ⟨1, 0⟩) (.newGettimeofday 0 ⟨3, 0⟩) ⟨1, 0, 1⟩ ⟨3, 0, 2⟩
    [2000000] rfl (by decide +kernel) (by decide +kernel) (by decide)
    (by decide +kernel) (by decide +kernel)
  exact absurd hlate (by decide +kernel)

end Elfupspeed.Speed
