import Elfupspeed.Proofs.Range
import Elfupspeed.Proofs.Schedule

/-!
# The build's arithmetic against the design

The build wraps its integers and narrows the fields, and a run over unbounded
integers knows nothing of that. As long as there is room for every move the
two cannot be told apart: the build does what the design does with a product
in single precision, field for field. So the build has what the design has. It
never hands out an earlier time than before, and it follows the schedule of
the run; what its product adds to a unit for each reading is a part in 2^22 of
the time that has passed.
-/

namespace Elfupspeed.Speed

open Elfupspeed.Lib Elfupspeed.Spec

/-- `diff * g_times` in single precision, where it fits an `int64_t`. -/
def singleTimes (diff : ℤ) (times : ℚ) : ℤ := Round.trunc (product diff times)

theorem product_nonneg {d : ℤ} {g : ℚ} (hd : 0 ≤ d) (hg : 0 ≤ g) :
    0 ≤ product d g := by
  have hd' : (0 : ℚ) ≤ d := by exact_mod_cast hd
  exact Round.sig_nonneg (mul_nonneg (Round.sig_nonneg hd') hg)

theorem singleTimes_nonneg (d : ℤ) (g : ℚ) (hd : 0 ≤ d) (hg : 0 ≤ g) :
    0 ≤ singleTimes d g := Round.trunc_nonneg (product_nonneg hd hg)

theorem singleTimes_approximates (d : ℤ) (g : ℚ) (hd : 0 ≤ d) (hg : 0 ≤ g) :
    Approximates allowance 1 ((d : ℚ) * g) (singleTimes d g : ℤ) := by
  have hnonneg : (0 : ℚ) ≤ (d : ℚ) * g := mul_nonneg (by exact_mod_cast hd) hg
  have herr := abs_product_sub_le d g
  rw [abs_of_nonneg hnonneg] at herr
  obtain ⟨hlow, hup⟩ := abs_le.mp herr
  have hfloor := Int.floor_le (product d g)
  have hlt := Int.lt_floor_add_one (product d g)
  rw [singleTimes, Round.trunc_of_nonneg (product_nonneg hd hg), allowance]
  constructor
  · push_cast
    linarith
  · linarith

/-! ## One call -/

/-- Where there is room a copy of the build makes the step of the design. -/
theorem accumulator_step_eq {k : Copy} {s : Saved} {x : Sample} (hs : Sound k s)
    (hx : x.Valid k) (hroom : s.saved ≠ 0 → Room k s.last (x.product k s)) :
    (accumulator .machine k).step s x =
      (accumulator (.unbounded singleTimes) k).step s x := by
  obtain ⟨hi64, hstore⟩ := machine_total hx
  by_cases hsaved : s.saved = 0
  · simp only [accumulator, rebase, hsaved, if_true, hi64, hstore,
      Copy.store_unbounded, unbounded_i64]
    rfl
  · obtain ⟨hr₀, hrlt⟩ :=
      (room_trunc_iff hs.last_nonneg hs.last_lt _).mp (hroom hsaved)
    have hunit := unit_le k
    have hlast₀ := hs.last_nonneg
    have hlast := hs.last_lt
    have hp : FitsInt64 (Round.trunc (x.product k s)) := ⟨by omega, by omega⟩
    have hr : FitsInt64 (s.last + Round.trunc (x.product k s)) :=
      ⟨by omega, by omega⟩
    obtain ⟨hsec, hfrac⟩ := machine_fields hr₀ hrlt
    rw [accumulator_step_of_fits hs hx hsaved hp hr]
    dsimp only
    rw [hsec, hfrac, machine_store hr₀ (by omega)]
    simp only [accumulator, rebase, hsaved, if_false, Copy.store_unbounded,
      unbounded_i64, unbounded_long, unbounded_mulTimes]
    have hsame : singleTimes (x.sec * k.unit + x.frac - s.saved) x.times =
        Round.trunc (x.product k s) := rfl
    rw [hsame, Int.tdiv_eq_ediv_of_nonneg hr₀, Int.tmod_eq_emod_of_nonneg hr₀]
    rfl

/-- What a copy sees of a call depends on the scale alone. -/
theorem view_congr {g g' : Globals} (h : g.gTimes = g'.gTimes) (k : Copy)
    (c : Call) : k.view g c = k.view g' c := by
  cases k <;> cases c <;> simp only [Copy.view, h]

theorem gTimes_step_congr (A A' : Arith) {g g' : Globals}
    (h : g.gTimes = g'.gTimes) (c : Call) :
    ((machine A).step g c).1.gTimes = ((machine A').step g' c).1.gTimes := by
  cases c with
  | newGettimeofday res ptv => simpa [machine] using h
  | newClockGettime clkId res ptp => simpa [machine] using h
  | setTimeScale result => simp [machine, h]

/-! ## A run -/

/-- A step at which the copy's reading is valid and there is room for it. -/
def InReach (k : Copy) (y : Globals × Call × Reply) : Prop :=
  (∀ x ∈ k.view y.1 y.2.1, x.Valid k) ∧ HasRoom k allowance y

instance (k : Copy) : DecidablePred (InReach k) :=
  fun _ => inferInstanceAs (Decidable (_ ∧ _))

theorem step_eq_of_inReach {k : Copy} {g g' : Globals} {c : Call} {x : Sample}
    (hs : Sound k (k.statics g)) (hg : g.gTimes = g'.gTimes)
    (hstatics : k.statics g = k.statics g')
    (hreach : InReach k (g, c, ((machine .machine).step g c).2))
    (hx : k.view g c = some x) :
    k.statics ((machine .machine).step g c).1 =
        k.statics ((machine (.unbounded singleTimes)).step g' c).1 ∧
      ((machine .machine).step g c).2.fields =
        ((machine (.unbounded singleTimes)).step g' c).2.fields ∧
      Sound k (k.statics ((machine .machine).step g c).1) := by
  have hroom : (k.statics g).saved ≠ 0 →
      Room k (k.statics g).last (x.product k (k.statics g)) := fun hsaved =>
    room_product_of_move hs.last_nonneg hs.last_lt (hreach.2 x hx hsaved)
  have hbuild := step_of_view (A := .machine) hx
  have hdesign := step_of_view (A := .unbounded singleTimes)
    ((view_congr hg k c).symm.trans hx)
  have hsame := accumulator_step_eq hs (hreach.1 x hx) hroom
  rw [← hstatics, ← hsame, hbuild] at hdesign
  have hnext := ((step_in_order hs hreach.1).1 hreach.2).2
  exact ⟨congrArg Prod.fst hdesign, congrArg Prod.snd hdesign, hnext⟩

/-- From states that agree on a copy the build and the design answer its calls
alike. -/
theorem outputs_eq {k : Copy} : ∀ (es : List Call) {g g' : Globals},
    Sound k (k.statics g) → g.gTimes = g'.gTimes →
    k.statics g = k.statics g' →
    (∀ y ∈ (machine .machine).trace g es, InReach k y) →
    samples .machine k g es = samples (.unbounded singleTimes) k g' es ∧
      handedOut .machine k g es =
        handedOut (.unbounded singleTimes) k g' es := by
  intro es
  induction es with
  | nil => intro g g' _ _ _ _; exact ⟨rfl, rfl⟩
  | cons c es ih =>
      intro g g' hs hg hstatics hreach
      rw [Mealy.trace_cons, List.forall_mem_cons] at hreach
      obtain ⟨hhead, htail⟩ := hreach
      have hg' := gTimes_step_congr .machine (.unbounded singleTimes) hg c
      have hview := view_congr hg k c
      have hsame : ∀ A, (part A k).view = fun g c => k.view g c := fun _ => rfl
      cases hx : k.view g c with
      | none =>
          have hx' := hview.symm.trans hx
          have h₁ := statics_of_view (A := .machine) hx
          have h₂ := statics_of_view (A := .unbounded singleTimes) hx'
          have hrest := ih (h₁ ▸ hs) hg' (h₁.trans (hstatics.trans h₂.symm)) htail
          simpa only [samples, handedOut, Component.inputs, Component.outputs,
            hsame, hx, hx'] using hrest
      | some x =>
          have hx' := hview.symm.trans hx
          obtain ⟨h₁, h₂, h₃⟩ := step_eq_of_inReach hs hg hstatics hhead hx
          obtain ⟨hsamples, hhanded⟩ := ih h₃ hg' h₁ htail
          have hout : ∀ A, (part A k).out = Reply.fields := fun _ => rfl
          simp only [samples, handedOut, Component.inputs, Component.outputs,
            hsame, hout, hx, hx', h₂] at hsamples hhanded ⊢
          exact ⟨congrArg _ hsamples, congrArg _ hhanded⟩

/-! ## The library -/

theorem sound_statics (k : Copy) : Sound k (k.statics {}) := by
  cases k <;> exact ⟨by decide, by decide, by decide, by decide⟩

theorem outputs_eq_of_inReach {k : Copy} {es : List Call}
    (hreach : ∀ y ∈ (machine .machine).trace {} es, InReach k y) :
    samples .machine k {} es = samples (.unbounded singleTimes) k {} es ∧
      handedOut .machine k {} es =
        handedOut (.unbounded singleTimes) k {} es :=
  outputs_eq es (sound_statics k) rfl rfl hreach

theorem returned_eq_of_inReach {k : Copy} {es : List Call}
    (hreach : ∀ y ∈ (machine .machine).trace {} es, InReach k y) :
    readings .machine k {} es = readings (.unbounded singleTimes) k {} es ∧
      returned .machine k {} es = returned (.unbounded singleTimes) k {} es := by
  obtain ⟨hsamples, hhanded⟩ := outputs_eq_of_inReach hreach
  exact ⟨congrArg (List.map _) hsamples, congrArg (List.map _) hhanded⟩

/-- In every run of the library, whatever else it does in it, a copy whose
readings are all valid and have room hands out the fields that it would over
unbounded integers with a product in single precision. -/
theorem build_refines_design (k : Copy) (es : List Call)
    (hreach : ∀ y ∈ (machine .machine).trace {} es, InReach k y) :
    handedOut .machine k {} es = handedOut (.unbounded singleTimes) k {} es :=
  (outputs_eq_of_inReach hreach).2

/-- A clock that is asked for a third of its speed, read over an hour. -/
def anHour : List Call :=
  [.newClockGettime clockMonotonic 0 ⟨100, 999999999⟩, .setTimeScale (-3),
    .newGettimeofday 0 ⟨2000000000, 0⟩,
    .newClockGettime clockMonotonic 0 ⟨101, 5⟩,
    .newClockGettime clockMonotonic 0 ⟨3701, 5⟩]

theorem hour_refines_design :
    handedOut .machine .monotonic {} anHour =
      handedOut (.unbounded singleTimes) .monotonic {} anHour :=
  build_refines_design .monotonic anHour (by decide +kernel)

/-- On the build, too, virtual time never runs backwards: as long as the readings
are valid and have room and do not step back, no time handed out is earlier than
one before it. -/
theorem build_forward (k : Copy) (es : List Call)
    (hreach : ∀ y ∈ (machine .machine).trace {} es, InReach k y)
    (hmono : ((readings .machine k {} es).map Prod.fst).Pairwise (· ≤ ·)) :
    (returned .machine k {} es).Pairwise (· ≤ ·) := by
  have hstatics : k.statics {} = {} := by cases k <;> rfl
  have htimes := readings_times_nonneg (.unbounded singleTimes) k es
  obtain ⟨hreadings, hreturned⟩ := returned_eq_of_inReach hreach
  have hnonneg : ∀ t ∈ (readings .machine k {} es).map Prod.fst, 0 ≤ t := by
    intro t ht
    obtain ⟨x, hx, rfl⟩ := List.mem_map.mp ht
    obtain ⟨y, hy, rfl⟩ := List.mem_map.mp hx
    have hvalid : ∀ i ∈ (part .machine k).inputs {} es, i.Valid k :=
      (part .machine k).forall_inputs es {} fun z hz => (hreach z hz).1
    exact (hvalid y hy).total_lt.1
  rw [hreadings] at hmono hnonneg
  rw [hreturned, returned_eq_run, hstatics]
  have hchain := counter_isChain singleTimes_nonneg _ {} (le_refl 0)
    (fun _ => rfl)
    (List.isChain_iff_pairwise.mpr (List.pairwise_cons.mpr ⟨hnonneg, hmono⟩))
    htimes
  exact (List.isChain_iff_pairwise.mp hchain).of_cons

theorem hour_forward :
    (returned .machine .monotonic {} anHour).Pairwise (· ≤ ·) :=
  build_forward .monotonic anHour (by decide +kernel) (by decide +kernel)

/-- And over such readings, the first of them above 0, it follows the schedule of
the run: what it has handed out is within a unit for each reading, and a part in
2^22 of what has passed, of the ideal clock whose requests are put back to the
readings before them. -/
theorem build_follows_schedule (k : Copy) (es : List Call) (t₀ : ℤ) (g₀ : ℚ)
    (xs : List (ℤ × ℚ)) (ht₀ : 0 < t₀)
    (hreach : ∀ y ∈ (machine .machine).trace {} es, InReach k y)
    (hreadings : readings .machine k {} es = (t₀, g₀) :: xs)
    (hmono : (t₀ :: xs.map Prod.fst).Pairwise (· ≤ ·)) :
    ∃ t v, (t₀ :: xs.map Prod.fst).getLast? = some t ∧
      (returned .machine k {} es).getLast? = some v ∧
      (v : ℚ) - t₀ ≤ (1 + 1 / 2 ^ 22) * elapsed g₀ t₀ (putBack t₀ xs) t ∧
      (1 - 1 / 2 ^ 22) * elapsed g₀ t₀ (putBack t₀ xs) t - xs.length ≤
        v - t₀ := by
  obtain ⟨hsame, hreturned⟩ := returned_eq_of_inReach hreach
  rw [hsame] at hreadings
  obtain ⟨ht, hv⟩ := after_of_readings hreadings
  rw [← hreturned] at hv
  have htimes : ∀ x ∈ xs, 0 ≤ x.2 := fun x hx =>
    readings_times_nonneg (.unbounded singleTimes) k es x
      (hreadings ▸ List.mem_cons_of_mem _ hx)
  have h := counter_approximates singleTimes_approximates xs ⟨t₀, t₀⟩ g₀ ht₀
    (List.isChain_iff_pairwise.mpr hmono) htimes
  rw [losses_one] at h
  exact ⟨_, _, ht, hv, h.upper, h.lower⟩

def hourReadings : List (ℤ × ℚ) :=
  [(101000000005, f32 (f64 (33 / 100))), (3701000000005, f32 (f64 (33 / 100)))]

theorem hour_follows_schedule :
    ∃ t v, (100999999999 :: hourReadings.map Prod.fst).getLast? = some t ∧
      (returned .machine .monotonic {} anHour).getLast? = some v ∧
      (v : ℚ) - (100999999999 : ℤ) ≤ (1 + 1 / 2 ^ 22) *
        elapsed 1 ((100999999999 : ℤ) : ℚ) (putBack 100999999999 hourReadings) t ∧
      (1 - 1 / 2 ^ 22) * elapsed 1 ((100999999999 : ℤ) : ℚ)
          (putBack 100999999999 hourReadings) t - hourReadings.length ≤
        v - (100999999999 : ℤ) :=
  build_follows_schedule .monotonic anHour 100999999999 1 hourReadings
    (by omega) (by decide +kernel) (by decide +kernel) (by decide)

end Elfupspeed.Speed
