import Elfupspeed.Proofs.Forward

/-!
# Scale 1, in the build's own arithmetic

At scale 1 a hook should be transparent, and what stands between it and that
is one conversion: the difference of two readings is an `int64_t`, and
`diff * g_times` squeezes it through a `float` first. The product with 1 is
exact, so what the accumulator gains is the difference to 24 significant
bits. A gap that has no more than those leaves the accumulator in step with
the clock; the first gap that has more puts it off, the answer to that very
call included, and nothing ever takes the error out again.

So transparency of a run is a condition on the gaps between its readings, and
`run_eq_fields_iff` says it is exactly that condition. The argument is one
step, `step_in_sync`, and one induction. All the rest is the bookkeeping that
no 64-bit or 32-bit conversion on the way interferes: a valid reading is
below 2^31 seconds, and an error of a part in 2^24 of a gap is much too small
to be hidden by the wrap-around of the narrowed seconds.
-/

namespace Elfupspeed.Speed

open Elfupspeed.Lib

/-- A reading the original can hand over: seconds that fit `time_t`, and a
fraction below one second. -/
def Sample.Valid (k : Copy) (x : Sample) : Prop :=
  0 ≤ x.sec ∧ x.sec < 2 ^ 31 ∧ 0 ≤ x.frac ∧ x.frac < k.unit

instance (k : Copy) (x : Sample) : Decidable (x.Valid k) :=
  inferInstanceAs (Decidable (_ ∧ _))

/-- A gap between two readings that 24 bits can hold. After a reading of 0
the next one is taken over as it is, and there is no gap to speak of. -/
def FitsFloat (u t : ℤ) : Prop :=
  u ≠ 0 → 2 ^ (Nat.log 2 (t - u).toNat + 1 - 24) ∣ (t - u).toNat

instance (u t : ℤ) : Decidable (FitsFloat u t) :=
  inferInstanceAs (Decidable (_ → _))

/-! ## The conversions, where nothing wraps -/

theorem machine_i64 {x : ℤ} (h₀ : 0 ≤ x) (h : x < 2 ^ 63) :
    Arith.machine.i64 x = x :=
  Int.bmod_eq_of_le (by norm_num; omega) (by norm_num; omega)

theorem machine_u64 {x : ℤ} (h₀ : 0 ≤ x) (h : x < 2 ^ 63) :
    Arith.machine.u64 x = x :=
  Int.emod_eq_of_lt h₀ (by omega)

theorem machine_long {x : ℤ} (h₀ : 0 ≤ x) (h : x < 2 ^ 31) :
    Arith.machine.long x = x :=
  Int.bmod_eq_of_le (by norm_num; omega) (by norm_num; omega)

theorem machine_store {k : Copy} {x : ℤ} (h₀ : 0 ≤ x) (h : x < 2 ^ 63) :
    k.store .machine x = x := by
  cases k
  · exact machine_u64 h₀ h
  · exact machine_i64 h₀ h
  · exact machine_u64 h₀ h

/-- At scale 1 the product is the difference to 24 bits, an integer close to
the difference, and the difference itself exactly when it fits. -/
theorem machine_mulTimes_one {d : ℤ} (h₀ : 0 ≤ d) (h : d < 2 ^ 62) :
    ∃ r : ℤ, Arith.machine.mulTimes d 1 = r ∧ 0 ≤ r ∧ 2 * |r - d| ≤ d ∧
      (r = d ↔ 2 ^ (Nat.log 2 d.toNat + 1 - 24) ∣ d.toNat) := by
  obtain ⟨r, hr⟩ := Round.sig_intCast_eq_intCast (K := ℚ) 24 d
  have hd : (0 : ℚ) ≤ d := by exact_mod_cast h₀
  have hpos : 0 ≤ r := by
    have : (0 : ℚ) ≤ r := hr ▸ Round.sig_nonneg hd
    exact_mod_cast this
  have herr : 2 * |r - d| ≤ d := by
    have hrel := Round.abs_sig_sub_le_div 24 (d : ℚ)
    rw [hr, abs_of_nonneg hd] at hrel
    have : (2 : ℚ) * ((|r - d| : ℤ) : ℚ) ≤ d := by
      push_cast
      linarith
    exact_mod_cast this
  have hfits : r = d ↔ 2 ^ (Nat.log 2 d.toNat + 1 - 24) ∣ d.toNat := by
    rw [← Round.sig_natCast_eq_self_iff (K := ℚ)]
    have hcast : ((d.toNat : ℕ) : ℚ) = (d : ℚ) := by
      rw [← Int.cast_natCast, Int.toNat_of_nonneg h₀]
    rw [hcast, hr, Int.cast_inj]
  refine ⟨r, ?_, hpos, herr, hfits⟩
  have hfloat : f32 (f32 (d : ℚ) * 1) = (r : ℚ) := by
    rw [mul_one, f32, f32, Round.sig_sig (by omega), hr]
  show (Round.trunc (f32 (f32 (d : ℚ) * 1))).bmod (2 ^ 64) = r
  rw [hfloat, Round.trunc_intCast]
  have := abs_le.mp (show |r - d| ≤ d by have := abs_nonneg (r - d); omega)
  exact Int.bmod_eq_of_le (by norm_num; omega) (by norm_num; omega)

/-! ## One step in sync, and a run -/

theorem Sample.Valid.total_lt {k : Copy} {x : Sample} (hx : x.Valid k) :
    0 ≤ k.total x.sec x.frac ∧ k.total x.sec x.frac < 2 ^ 31 * k.unit := by
  obtain ⟨h₁, h₂, h₃, h₄⟩ := hx
  have := k.unit_pos
  unfold Copy.total
  constructor <;> nlinarith

theorem unit_le (k : Copy) : k.unit ≤ 10 ^ 9 := by cases k <;> decide

/-- Seconds and a fraction, put together from a number near a valid reading,
are that reading's own only if the number is. -/
theorem narrowed_eq_iff {k : Copy} {x : Sample} (hx : x.Valid k) {r : ℤ}
    (h₀ : 0 ≤ r) (hnear : |r - k.total x.sec x.frac| < 2 ^ 31 * k.unit) :
    (Arith.machine.long (r.tdiv k.unit), Arith.machine.long (r.tmod k.unit)) =
      (x.sec, x.frac) ↔ r = k.total x.sec x.frac := by
  obtain ⟨h₁, h₂, h₃, h₄⟩ := hx
  have hu := k.unit_pos
  have hfrac : Arith.machine.long (r.tmod k.unit) = r % k.unit := by
    have hlt := Int.emod_lt_of_pos r hu
    have hnn := Int.emod_nonneg r hu.ne'
    rw [Int.tmod_eq_emod_of_nonneg h₀]
    exact machine_long hnn (by have := unit_le k; omega)
  have hdiv := Int.emod_add_mul_ediv r k.unit
  rw [Prod.mk.injEq, hfrac, Int.tdiv_eq_ediv_of_nonneg h₀]
  constructor
  · rintro ⟨hsec, hmod⟩
    obtain ⟨c, hc⟩ : ((2 ^ 32 : ℕ) : ℤ) ∣ r / k.unit - x.sec :=
      Int.dvd_self_sub_of_bmod_eq hsec
    have hoff : r - k.total x.sec x.frac = k.unit * (2 ^ 32 * c) := by
      rw [show (2 : ℤ) ^ 32 * c = r / k.unit - x.sec by rw [hc]; norm_num,
        Copy.total]
      linarith
    have hc0 : c = 0 := by
      by_contra hne
      have h1 : 1 ≤ |c| := Int.one_le_abs hne
      rw [hoff, abs_mul, abs_mul, abs_of_pos hu,
        abs_of_pos (by norm_num : (0 : ℤ) < 2 ^ 32)] at hnear
      nlinarith
    rw [hc0] at hoff
    omega
  · intro hr
    rw [hr, Copy.total]
    rw [Int.add_comm, Int.add_mul_ediv_right _ _ hu.ne',
      Int.ediv_eq_zero_of_lt h₃ h₄, Int.zero_add, Int.add_mul_emod_self_right,
      Int.emod_eq_of_lt h₃ h₄]
    exact ⟨machine_long h₁ h₂, rfl⟩

/-- An accumulator in step with the clock at `u` answers the next reading with
that reading exactly when the gap fits, and is then in step at it. -/
theorem step_in_sync {k : Copy} {u : ℤ} (hu : 0 ≤ u) {x : Sample}
    (hx : x.Valid k) (hle : u ≤ k.total x.sec x.frac) (hone : x.times = 1) :
    let t := k.total x.sec x.frac
    let r := (accumulator .machine k).step ⟨u, u⟩ x
    (r.2 = (x.sec, x.frac) ↔ FitsFloat u t) ∧
      (FitsFloat u t → r.1 = ⟨t, t⟩) := by
  obtain ⟨ht₀, ht⟩ := hx.total_lt
  have hunit := unit_le k
  have hi : Arith.machine.i64 (x.sec * k.unit + x.frac) = k.total x.sec x.frac :=
    machine_i64 ht₀ (by change k.total x.sec x.frac < _; omega)
  have hst : k.store .machine (k.total x.sec x.frac) = k.total x.sec x.frac :=
    machine_store ht₀ (by omega)
  dsimp only
  by_cases hu0 : u = 0
  · subst hu0
    simp [accumulator, rebase, FitsFloat, hi, hst]
  · obtain ⟨r, hmul, hr₀, herr, hfits⟩ := machine_mulTimes_one
      (d := k.total x.sec x.frac - u) (by omega) (by omega)
    have habs := abs_le.mp (le_refl |r - (k.total x.sec x.frac - u)|)
    have hdiff : Arith.machine.i64 (k.total x.sec x.frac - u) =
        k.total x.sec x.frac - u := machine_i64 (by omega) (by omega)
    have hret : Arith.machine.i64 (u + r) = u + r :=
      machine_i64 (by omega) (by omega)
    have hretst : k.store .machine (u + r) = u + r :=
      machine_store (by omega) (by omega)
    have hnear : |u + r - k.total x.sec x.frac| < 2 ^ 31 * k.unit := by
      rw [show u + r - k.total x.sec x.frac = r - (k.total x.sec x.frac - u) by ring]
      have := abs_nonneg (r - (k.total x.sec x.frac - u))
      have := k.unit_pos
      omega
    have hfitsiff : FitsFloat u (k.total x.sec x.frac) ↔
        u + r = k.total x.sec x.frac := by
      rw [FitsFloat, ← hfits]
      constructor
      · intro h
        have := h hu0
        omega
      · intro h _
        omega
    simp only [accumulator, rebase, hi, hu0, if_false, hone, hdiff, hmul, hret,
      hst, hretst]
    rw [narrowed_eq_iff hx (by omega) hnear, hfitsiff]
    exact ⟨Iff.rfl, fun h => by rw [h]⟩

theorem run_eq_fields_iff {k : Copy} :
    ∀ (xs : List Sample) (u : ℤ), 0 ≤ u → (∀ x ∈ xs, x.Valid k) →
      (u :: xs.map fun x => k.total x.sec x.frac).IsChain (· ≤ ·) →
      (∀ x ∈ xs, x.times = 1) →
      ((accumulator .machine k).run ⟨u, u⟩ xs = (xs.map fun x => (x.sec, x.frac)) ↔
        (u :: xs.map fun x => k.total x.sec x.frac).IsChain FitsFloat) := by
  intro xs
  induction xs with
  | nil => intro u _ _ _ _; simp
  | cons x xs ih =>
      intro u hu hvalid hchain hone
      rw [List.map_cons, List.isChain_cons_cons] at hchain
      have hx := hvalid x (by simp)
      obtain ⟨hout, hstate⟩ := step_in_sync hu hx hchain.1 (hone x (by simp))
      rw [Mealy.run_cons, List.map_cons, List.map_cons, List.isChain_cons_cons,
        List.cons.injEq, hout]
      refine and_congr_right fun hfit => ?_
      rw [hstate hfit]
      exact ih _ hx.total_lt.1 (fun y hy => hvalid y (by simp [hy])) hchain.2
        fun y hy => hone y (by simp [hy])

/-! ## The library at scale 1 -/

/-- Where the scale is 1 at every reading, a copy hands every one of them back
unchanged if and only if every gap between two of them fits a float. -/
theorem handedOut_eq_readings_iff (k : Copy) (es : List Call)
    (hone : ∀ x ∈ samples .machine k {} es, x.times = 1)
    (hvalid : ∀ x ∈ samples .machine k {} es, x.Valid k)
    (hmono : ((samples .machine k {} es).map
      fun x => k.total x.sec x.frac).Pairwise (· ≤ ·)) :
    handedOut .machine k {} es =
        ((samples .machine k {} es).map fun x => (x.sec, x.frac)) ↔
      ((samples .machine k {} es).map
        fun x => k.total x.sec x.frac).IsChain FitsFloat := by
  have hstatics : k.statics {} = ⟨0, 0⟩ := by cases k <;> rfl
  have hchain : (0 :: (samples .machine k {} es).map
      fun x => k.total x.sec x.frac).IsChain (· ≤ ·) := by
    refine List.isChain_iff_pairwise.mpr (List.pairwise_cons.mpr ⟨?_, hmono⟩)
    intro t ht
    obtain ⟨x, hx, rfl⟩ := List.mem_map.mp ht
    exact (hvalid x hx).total_lt.1
  rw [handedOut_eq_run, hstatics,
    run_eq_fields_iff _ 0 (le_refl 0) hvalid hchain hone]
  cases (samples .machine k {} es).map fun x => k.total x.sec x.frac with
  | nil => simp
  | cons t ts => simp [FitsFloat]

/-- Readings two milliseconds apart come back as they are. -/
theorem short_gaps_kept :
    handedOut .machine .monotonic {}
        [.setTimeScale 0, .newClockGettime clockMonotonic 0 ⟨5, 999999999⟩,
          .newClockGettime clockMonotonic 0 ⟨6, 1999999⟩] =
      [(5, 999999999), (6, 1999999)] :=
  (handedOut_eq_readings_iff .monotonic _ (by decide +kernel)
    (by decide +kernel) (by decide +kernel)).mpr (by decide +kernel)

/-- A gap of 2^24 + 1 microseconds, just under seventeen seconds. -/
def longGap : List Call :=
  [.setTimeScale 0, .newGettimeofday 0 ⟨1000, 0⟩,
    .newGettimeofday 0 ⟨1016, 777217⟩]

theorem long_gap_lost :
    ¬ ∀ es : List Call,
      (∀ x ∈ samples .machine .gettimeofday {} es, x.times = 1) →
      (∀ x ∈ samples .machine .gettimeofday {} es, x.Valid .gettimeofday) →
      (((samples .machine .gettimeofday {} es).map
        fun x => Copy.gettimeofday.total x.sec x.frac).Pairwise (· ≤ ·)) →
      handedOut .machine .gettimeofday {} es =
        (samples .machine .gettimeofday {} es).map fun x => (x.sec, x.frac) := by
  intro h
  have hlost := h longGap (by decide +kernel) (by decide +kernel)
    (by decide +kernel)
  have hout : handedOut .machine .gettimeofday {} longGap =
      [(1000, 0), (1016, 777216)] := by decide +kernel
  rw [hout] at hlost
  exact absurd hlost (by decide +kernel)

end Elfupspeed.Speed
