import Elfupspeed.Proofs.Drift

/-!
# The two wall-clock interfaces, side by side

`gettimeofday` and `clock_gettime(CLOCK_REALTIME)` report one clock, in
microseconds and in nanoseconds, and their hooks share nothing but the scale.
Each starts from its own first call, meets a change of scale at its own next
call and drops fractions of its own unit, so two hooks called at the same
instant may disagree by all that the scale did in between.

What does hold of any interleaving is that neither leaves the strip between
the slowest and the fastest scale it met, starting from the first reading of
either. `wall_clocks_apart` says how wide the strip is: the spread of the
scales over the time since that reading, one microsecond times the largest
scale for the floor, and the units dropped. Under scale 1 alone, that is the
one microsecond the two original functions differ by.
-/

namespace Elfupspeed.Speed

open Elfupspeed.Lib Elfupspeed.Spec

/-- A call made at an instant of one real-time clock of nanoseconds. -/
inductive WallCall where
  | gettimeofday (ns : ℤ)
  | clockGettime (ns : ℤ)
  | setTimeScale (result : ℚ)
  deriving DecidableEq, Repr

namespace WallCall

def instant : WallCall → Option ℤ
  | gettimeofday ns | clockGettime ns => some ns
  | setTimeScale _ => none

/-- What the original functions make of the instant: the first one sees the
microsecond below it. -/
def toCall : WallCall → Call
  | gettimeofday ns =>
      .newGettimeofday 0 ⟨ns / 1000000000, ns % 1000000000 / 1000⟩
  | clockGettime ns =>
      .newClockGettime clockRealtime 0 ⟨ns / 1000000000, ns % 1000000000⟩
  | setTimeScale result => .setTimeScale result

/-- The reading a copy takes of a call, in its own units. -/
def reading : Copy → WallCall → Option ℤ
  | .gettimeofday, gettimeofday ns => some (ns / 1000)
  | .other, clockGettime ns => some ns
  | _, _ => none

/-- An instant as a copy sees it. -/
def seenAt : Copy → ℤ → ℤ
  | .gettimeofday, ns => ns / 1000
  | .monotonic, ns | .other, ns => ns

theorem seenAt_mono (k : Copy) {T T' : ℤ} (h : T ≤ T') :
    seenAt k T ≤ seenAt k T' := by
  cases k with
  | gettimeofday => exact Int.ediv_le_ediv (by omega) h
  | monotonic => exact h
  | other => exact h

theorem instant_of_reading {k : Copy} {e : WallCall} {t : ℤ}
    (h : reading k e = some t) :
    ∃ T, e.instant = some T ∧ t = seenAt k T := by
  cases e with
  | setTimeScale result => cases k <;> cases h
  | gettimeofday ns =>
      cases k with
      | gettimeofday => exact ⟨ns, rfl, (Option.some.inj h).symm⟩
      | monotonic => cases h
      | other => cases h
  | clockGettime ns =>
      cases k with
      | gettimeofday => cases h
      | monotonic => cases h
      | other => exact ⟨ns, rfl, (Option.some.inj h).symm⟩

theorem reading_of_view {k : Copy} {g : Globals} {e : WallCall} :
    (k.view g e.toCall).map (fun x => k.total x.sec x.frac) = reading k e := by
  cases e with
  | setTimeScale result => cases k <;> rfl
  | gettimeofday ns =>
      cases k
      · show some (ns / 1000000000 * 1000000 + ns % 1000000000 / 1000) = _
        rw [show ns / 1000000000 * 1000000 + ns % 1000000000 / 1000 = ns / 1000 by
          omega]
        rfl
      · rfl
      · rfl
  | clockGettime ns =>
      cases k
      · rfl
      · rfl
      · show some (ns / 1000000000 * 1000000000 + ns % 1000000000) = _
        rw [show ns / 1000000000 * 1000000000 + ns % 1000000000 = ns by omega]
        rfl

end WallCall

theorem readings_toCall (A : Arith) (k : Copy) (es : List WallCall)
    (g : Globals) :
    (readings A k g (es.map WallCall.toCall)).map Prod.fst =
      es.filterMap (WallCall.reading k) := by
  induction es generalizing g with
  | nil => rfl
  | cons e es ih =>
      have hrest := ih ((machine A).step g e.toCall).1
      have hview := WallCall.reading_of_view (k := k) (g := g) (e := e)
      simp only [readings, samples] at hrest ⊢
      rw [List.map_cons]
      cases hv : k.view g e.toCall with
      | none =>
          rw [hv] at hview
          rw [List.filterMap_cons_none hview.symm, ← hrest]
          simp only [Component.inputs, part, hv]
      | some x =>
          rw [hv] at hview
          rw [List.filterMap_cons_some hview.symm, ← hrest]
          simp only [Component.inputs, part, hv, List.map_cons]

def Reply.time (k : Copy) (r : Reply) : ℤ := k.total r.fields.1 r.fields.2

/-- Every reply a copy gives in a run is a step of that copy's counter. -/
theorem mem_zip_counter {k : Copy} {es : List WallCall} {e : WallCall}
    {t : ℤ} {r : Reply} (he : WallCall.reading k e = some t)
    (hr : (e, r) ∈ es.zip ((machine .exact).run {} (es.map WallCall.toCall))) :
    (t, r.time k) ∈
      ((readings .exact k {} (es.map WallCall.toCall)).map Prod.fst).zip
        ((counter exactTimes).run {}
          (readings .exact k {} (es.map WallCall.toCall))) := by
  have hstatics : k.statics {} = {} := by cases k <;> rfl
  have hmem : (e.toCall, r) ∈ ((machine .exact).trace {}
      (es.map WallCall.toCall)).map Prod.snd := by
    rw [Mealy.trace_map_snd, List.zip_map_left]
    exact List.mem_map.mpr ⟨(e, r), hr, rfl⟩
  obtain ⟨⟨g, c, r'⟩, htrace, heq⟩ := List.mem_map.mp hmem
  obtain ⟨rfl, rfl⟩ := Prod.mk.injEq .. ▸ heq
  have hview := WallCall.reading_of_view (k := k) (g := g) (e := e)
  rw [he] at hview
  obtain ⟨x, hx, rfl⟩ := Option.map_eq_some_iff.mp hview
  have hzip := (part .exact k).mem_zip_of_mem_trace _ {} htrace hx
  have hrun := returned_eq_run exactTimes k {} (es.map WallCall.toCall)
  rw [hstatics] at hrun
  rw [show readings .exact k {} (es.map WallCall.toCall) =
    readings (.unbounded exactTimes) k {} (es.map WallCall.toCall) from rfl, ← hrun]
  rw [readings, returned, List.map_map, List.zip_map]
  exact List.mem_map.mpr ⟨_, hzip, rfl⟩

/-- A copy stays in the strip of its scales from any instant on that no
reading precedes, if the real time is in the strip. -/
theorem wall_within {k : Copy} {m G : ℚ} {τ : ℤ} (hm : 0 ≤ m) (hm₁ : m ≤ 1)
    (hG : 1 ≤ G) (hτ : 0 ≤ τ) {es : List WallCall}
    (hmono : (es.filterMap (WallCall.reading k)).Pairwise (· ≤ ·))
    (hfirst : ∀ t ∈ es.filterMap (WallCall.reading k), τ ≤ t)
    (hscale : ∀ x ∈ readings .exact k {} (es.map WallCall.toCall),
      m ≤ x.2 ∧ x.2 ≤ G)
    {e : WallCall} {t : ℤ} {r : Reply} (he : WallCall.reading k e = some t)
    (hr : (e, r) ∈ es.zip ((machine .exact).run {} (es.map WallCall.toCall))) :
    Within (τ : ℚ) m G
      (roundings 0 (readings .exact k {} (es.map WallCall.toCall))) t
      (r.time k) := by
  have hreadings := readings_toCall .exact k es {}
  rw [← hreadings] at hmono hfirst
  have hchain : ((0 : ℤ) ::
      (readings .exact k {} (es.map WallCall.toCall)).map Prod.fst).IsChain
        (· ≤ ·) :=
    List.isChain_iff_pairwise.mpr (List.pairwise_cons.mpr
      ⟨fun t ht => hτ.trans (hfirst t ht), hmono⟩)
  have hall := counter_within (τ := (τ : ℚ)) _ {} 0 (le_refl 0)
    (fun _ => ⟨hm₁, hG⟩) (fun h => absurd rfl h) hchain
    (fun x hx => by
      have hτx := hfirst x.1 (List.mem_map_of_mem hx)
      have hs := hscale x hx
      exact ⟨by exact_mod_cast hτx, hm.trans hs.1, hs⟩)
  simpa using hall _ (mem_zip_counter he hr)

theorem wall_clocks_apart {m G : ℚ} {T₀ : ℤ} (hm : 0 ≤ m) (hm₁ : m ≤ 1)
    (hG : 1 ≤ G) (hT₀ : 0 ≤ T₀) (es : List WallCall)
    (hmono : (es.filterMap WallCall.instant).Pairwise (· ≤ ·))
    (hfirst : ∀ T ∈ es.filterMap WallCall.instant, T₀ ≤ T)
    (hscale : ∀ k, ∀ x ∈ readings .exact k {} (es.map WallCall.toCall),
      m ≤ x.2 ∧ x.2 ≤ G)
    (T : ℤ) (r₁ r₂ : Reply)
    (h₁ : (WallCall.gettimeofday T, r₁) ∈
      es.zip ((machine .exact).run {} (es.map WallCall.toCall)))
    (h₂ : (WallCall.clockGettime T, r₂) ∈
      es.zip ((machine .exact).run {} (es.map WallCall.toCall))) :
    |(r₁.time .gettimeofday : ℚ) - (r₂.time .other : ℚ) / 1000| ≤
      (G - m) * ((T - T₀) / 1000) + G +
        (roundings 0 (readings .exact .gettimeofday {} (es.map WallCall.toCall)) +
          roundings 0 (readings .exact .other {} (es.map WallCall.toCall))) := by
  have hle : ∀ k, (es.filterMap (WallCall.reading k)).Pairwise (· ≤ ·) := by
    intro k
    rw [List.pairwise_filterMap] at hmono ⊢
    refine hmono.imp fun {a b} hab t ht t' ht' => ?_
    obtain ⟨T, hT, rfl⟩ := WallCall.instant_of_reading ht
    obtain ⟨T', hT', rfl⟩ := WallCall.instant_of_reading ht'
    exact WallCall.seenAt_mono k (hab T hT T' hT')
  have hge : ∀ k, ∀ t ∈ es.filterMap (WallCall.reading k),
      WallCall.seenAt k T₀ ≤ t := by
    intro k t ht
    obtain ⟨e, he, het⟩ := List.mem_filterMap.mp ht
    obtain ⟨T, hT, rfl⟩ := WallCall.instant_of_reading het
    exact WallCall.seenAt_mono k
      (hfirst T (List.mem_filterMap.mpr ⟨e, he, hT⟩))
  have hv := wall_within hm hm₁ hG (Int.ediv_nonneg hT₀ (by omega))
    (hle .gettimeofday) (hge .gettimeofday) (hscale .gettimeofday)
    (t := T / 1000) rfl h₁
  have hw := wall_within hm hm₁ hG hT₀ (hle .other) (hge .other)
    (hscale .other) (t := T) rfl h₂
  exact_mod_cast Within.apart (c := 1000) (by omega) hm hm₁ hG hv hw

/-- Both hooks first called at their own instants, and never a request: they
stay within the microsecond of the floor. -/
def unscaled : List WallCall :=
  [.gettimeofday 1000000999, .clockGettime 1000001500, .gettimeofday 7000000123,
    .clockGettime 7000000123]

theorem unscaled_wall_clocks_agree :
    |((Reply.newGettimeofday 0 ⟨7, 0⟩).time .gettimeofday : ℚ) -
        ((Reply.newClockGettime 0 ⟨7, 123⟩).time .other : ℚ) / 1000| ≤
      (1 - 1) * (((7000000123 : ℤ) - (1000000999 : ℤ)) / 1000) + 1 +
        (roundings 0 (readings .exact .gettimeofday {}
            (unscaled.map WallCall.toCall)) +
          roundings 0 (readings .exact .other {}
            (unscaled.map WallCall.toCall))) :=
  wall_clocks_apart (m := 1) (G := 1) (by norm_num) (le_refl 1) (le_refl 1)
    (by decide) unscaled (by decide) (by decide)
    (fun k => by cases k <;> decide +kernel) 7000000123 _ _
    (by decide +kernel) (by decide +kernel)

/-- The request comes between the two first calls: one hook doubles a second
that the other one passed on as it was. -/
theorem wall_clocks_disagree :
    ¬ ∀ es : List WallCall,
      (es.filterMap WallCall.instant).Pairwise (· ≤ ·) →
      ∀ (T : ℤ) (r₁ r₂ : Reply),
        (WallCall.gettimeofday T, r₁) ∈
          es.zip ((machine .exact).run {} (es.map WallCall.toCall)) →
        (WallCall.clockGettime T, r₂) ∈
          es.zip ((machine .exact).run {} (es.map WallCall.toCall)) →
        |(r₁.time .gettimeofday : ℚ) - (r₂.time .other : ℚ) / 1000| ≤ 1 := by
  intro h
  have hapart := h [.gettimeofday 1000000000, .setTimeScale 1,
    .clockGettime 2000000000, .gettimeofday 3000000000,
    .clockGettime 3000000000] (by decide) 3000000000
    (.newGettimeofday 0 ⟨5, 0⟩) (.newClockGettime 0 ⟨4, 0⟩)
    (by decide +kernel) (by decide +kernel)
  exact absurd hapart (by decide +kernel)

end Elfupspeed.Speed
