import Elfupspeed.Proofs.Identity

/-!
# Where the times handed out stay in range

A wall clock may be set back, and nothing bounds the scale. What a hook hands
out is then the last time moved by the scaled gap, wherever that leads: below
0 the fields are negative and the unsigned statics hold something else, past
2^31 seconds `time_t` wraps, and further on `int64_t` does.

None of this happens as long as the time moved lies between 0 and 2^31
seconds. That is the condition here, on the time handed out last, the gap and
the scale; the product is rounded twice on its way, which the condition allows
for, and `times_in_range` has both sides of it, since a run that is in range
meets the same condition with the allowance taken off.
-/

namespace Elfupspeed.Speed

open Elfupspeed.Lib

/-! ## A time with room around it -/

/-- A copy at `v` has room for a move by `q`. -/
def Room (k : Copy) (v : ℤ) (q : ℚ) : Prop :=
  -1 < v + q ∧ v + q < 2 ^ 31 * k.unit

instance (k : Copy) (v : ℤ) (q : ℚ) : Decidable (Room k v q) :=
  inferInstanceAs (Decidable (_ ∧ _))

theorem room_trunc_iff {k : Copy} {v : ℤ} (h₀ : 0 ≤ v)
    (h : v < 2 ^ 31 * k.unit) (q : ℚ) :
    Room k v q ↔ 0 ≤ v + Round.trunc q ∧ v + Round.trunc q < 2 ^ 31 * k.unit := by
  have hv₀ : (0 : ℚ) ≤ v := by exact_mod_cast h₀
  have hv : (v : ℚ) < 2 ^ 31 * k.unit := by exact_mod_cast h
  rw [Room, Round.trunc]
  split
  · rename_i hq
    have hfloor := Int.floor_nonneg.mpr hq
    have hlt : v + ⌊q⌋ < 2 ^ 31 * k.unit ↔ q < ((2 ^ 31 * k.unit - v : ℤ) : ℚ) := by
      rw [← Int.floor_lt]
      omega
    rw [hlt]
    push_cast
    constructor
    · intro h
      obtain ⟨-, h₂⟩ := h
      exact ⟨by omega, by linarith⟩
    · intro h
      obtain ⟨-, h₂⟩ := h
      exact ⟨by linarith, by linarith⟩
  · rename_i hq
    have hceil : ⌈q⌉ ≤ 0 := Int.ceil_le.mpr (by push_cast; linarith)
    have hge : 0 ≤ v + ⌈q⌉ ↔ ((-v - 1 : ℤ) : ℚ) < q := by
      rw [← Int.lt_ceil]
      omega
    rw [hge]
    push_cast
    constructor
    · intro h
      obtain ⟨h₁, -⟩ := h
      exact ⟨by linarith, by omega⟩
    · intro h
      obtain ⟨h₁, -⟩ := h
      exact ⟨by linarith, by linarith⟩

/-- There is room for a shorter move in the same direction. -/
theorem Room.shorter {k : Copy} {v : ℤ} {q q' : ℚ} (hroom : Room k v q)
    (h₀ : 0 ≤ v) (h : v < 2 ^ 31 * k.unit)
    (hq : 0 ≤ q' ∧ q' ≤ q ∨ q ≤ q' ∧ q' ≤ 0) : Room k v q' := by
  have hv₀ : (0 : ℚ) ≤ v := by exact_mod_cast h₀
  have hv : (v : ℚ) < 2 ^ 31 * k.unit := by exact_mod_cast h
  obtain ⟨hlo, hhi⟩ := hroom
  rcases hq with ⟨hq₀, hq⟩ | ⟨hq, hq₀⟩
  · exact ⟨by linarith, by linarith⟩
  · exact ⟨by linarith, by linarith⟩

/-- A rounding of `p` lies between `p` with the allowance off and with the
allowance on, all of them on one side of 0. -/
theorem between_of_error {p q δ : ℚ} (hδ : δ ≤ 1) (herr : |q - p| ≤ |p| * δ) :
    (0 ≤ p * (1 - δ) ∧ p * (1 - δ) ≤ q ∧ q ≤ p * (1 + δ)) ∨
      (p * (1 + δ) ≤ q ∧ q ≤ p * (1 - δ) ∧ p * (1 - δ) ≤ 0) := by
  obtain ⟨hlow, hup⟩ := abs_le.mp herr
  rcases le_or_gt 0 p with hp | hp
  · rw [abs_of_nonneg hp] at hlow hup
    have hsmall : p * δ ≤ p := mul_le_of_le_one_right hp hδ
    exact .inl ⟨by linarith, by linarith, by linarith⟩
  · rw [abs_of_neg hp] at hlow hup
    have hsmall : -p * δ ≤ -p := mul_le_of_le_one_right (by linarith) hδ
    exact .inr ⟨by linarith, by linarith, by linarith⟩

/-! ## The product -/

/-- `diff * g_times`, before it becomes an integer. -/
def product (d : ℤ) (times : ℚ) : ℚ := f32 (f32 d * times)

theorem abs_product_sub_le (d : ℤ) (times : ℚ) :
    |product d times - d * times| ≤ |d * times| * (1 / 2 ^ 22) := by
  have hd := Round.abs_sig_sub_le_div 24 (d : ℚ)
  have hmul := Round.abs_sig_sub_le_div 24 (f32 (d : ℚ) * times)
  have hfirst : |f32 (d : ℚ) * times - d * times| ≤ |d * times| / 2 ^ 24 := by
    rw [← sub_mul, abs_mul, abs_mul, mul_div_right_comm]
    exact mul_le_mul_of_nonneg_right hd (abs_nonneg times)
  have hsize : |f32 (d : ℚ) * times| ≤ |d * times| + |d * times| / 2 ^ 24 := by
    have := abs_sub_abs_le_abs_sub (f32 (d : ℚ) * times) (d * times)
    linarith
  have htri := abs_sub_le (product d times) (f32 (d : ℚ) * times) (d * times)
  have hnonneg := abs_nonneg ((d : ℚ) * times)
  change |product d times - f32 (d : ℚ) * times| ≤ _ at hmul
  linarith

/-- The part of the product that is allowed for its two roundings. -/
def allowance : ℚ := 1 / 2 ^ 22

/-- The move at a reading, as it would be without rounding. -/
def Sample.move (k : Copy) (s : Saved) (x : Sample) : ℚ :=
  ((k.total x.sec x.frac - s.saved : ℤ) : ℚ) * x.times

def Sample.product (k : Copy) (s : Saved) (x : Sample) : ℚ :=
  Speed.product (k.total x.sec x.frac - s.saved) x.times

theorem room_product_of_move {k : Copy} {s : Saved} {x : Sample}
    (h₀ : 0 ≤ s.last) (h : s.last < 2 ^ 31 * k.unit)
    (hroom : Room k s.last (x.move k s * (1 + allowance))) :
    Room k s.last (x.product k s) := by
  refine hroom.shorter h₀ h ?_
  rcases between_of_error (δ := allowance) (by norm_num [allowance])
    (abs_product_sub_le _ x.times) with ⟨h₁, h₂, h₃⟩ | ⟨h₁, h₂, h₃⟩
  · exact .inl ⟨h₁.trans h₂, h₃⟩
  · exact .inr ⟨h₁, h₂.trans h₃⟩

theorem room_move_of_product {k : Copy} {s : Saved} {x : Sample}
    (h₀ : 0 ≤ s.last) (h : s.last < 2 ^ 31 * k.unit)
    (hroom : Room k s.last (x.product k s)) :
    Room k s.last (x.move k s * (1 - allowance)) := by
  refine hroom.shorter h₀ h ?_
  rcases between_of_error (δ := allowance) (by norm_num [allowance])
    (abs_product_sub_le _ x.times) with ⟨h₁, h₂, -⟩ | ⟨-, h₂, h₃⟩
  · exact .inl ⟨h₁, h₂⟩
  · exact .inr ⟨h₂, h₃⟩

/-! ## One call -/

def FitsInt64 (x : ℤ) : Prop := -2 ^ 63 ≤ x ∧ x < 2 ^ 63

instance (x : ℤ) : Decidable (FitsInt64 x) :=
  inferInstanceAs (Decidable (_ ∧ _))

/-- A call of a copy at `s` that takes the reading `x`, writes the fields
`sec` and `frac` and leaves the copy at `s'`. -/
structure Normalised (k : Copy) (s : Saved) (x : Sample) (s' : Saved)
    (sec frac : ℤ) : Prop where
  product_fits : s.saved ≠ 0 → FitsInt64 (Round.trunc (x.product k s))
  ret_fits : s.saved ≠ 0 →
    FitsInt64 (s.last + Round.trunc (x.product k s))
  sec_nonneg : 0 ≤ sec
  frac_nonneg : 0 ≤ frac
  frac_lt : frac < k.unit
  stored : k.total sec frac = s'.last

/-- The statics of a copy hold a reading and a time below 2^31 seconds. -/
structure Sound (k : Copy) (s : Saved) : Prop where
  saved_nonneg : 0 ≤ s.saved
  saved_lt : s.saved < 2 ^ 31 * k.unit
  last_nonneg : 0 ≤ s.last
  last_lt : s.last < 2 ^ 31 * k.unit

theorem machine_i64_of_fits {x : ℤ} (h : FitsInt64 x) :
    Arith.machine.i64 x = x :=
  Int.bmod_eq_of_le (by norm_num; have := h.1; omega)
    (by norm_num; have := h.2; omega)

/-- Fields in range are those of the number they were taken from. -/
theorem machine_fields {k : Copy} {r : ℤ} (h₀ : 0 ≤ r)
    (h : r < 2 ^ 31 * k.unit) :
    Arith.machine.long (r.tdiv k.unit) = r / k.unit ∧
      Arith.machine.long (r.tmod k.unit) = r % k.unit := by
  have hu := k.unit_pos
  have hunit := unit_le k
  have hmod := Int.emod_lt_of_pos r hu
  have hmod₀ := Int.emod_nonneg r hu.ne'
  rw [Int.tdiv_eq_ediv_of_nonneg h₀, Int.tmod_eq_emod_of_nonneg h₀]
  exact ⟨machine_long (Int.ediv_nonneg h₀ hu.le)
    (Int.ediv_lt_of_lt_mul hu h), machine_long hmod₀ (by omega)⟩

theorem machine_long_lt (x : ℤ) : Arith.machine.long x < 2 ^ 31 := by
  have h := Int.bmod_lt (x := x) (m := 2 ^ 32) (by omega)
  norm_num at h
  exact h

/-- A static that holds a number in range was given that very number. -/
theorem eq_of_machine_store {k : Copy} {r t : ℤ} (hr : FitsInt64 r)
    (h₀ : 0 ≤ t) (h : t < 2 ^ 63) (hstore : k.store .machine r = t) : r = t := by
  have hr₁ := hr.1
  have hr₂ := hr.2
  have hunsigned : r % 2 ^ 64 = t → r = t := by omega
  cases k with
  | gettimeofday => exact hunsigned hstore
  | other => exact hunsigned hstore
  | monotonic => exact (machine_i64_of_fits hr).symm.trans hstore

/-- A reading is kept as it comes. -/
theorem machine_total {k : Copy} {x : Sample} (hx : x.Valid k) :
    Arith.machine.i64 (x.sec * k.unit + x.frac) = k.total x.sec x.frac ∧
      k.store .machine (k.total x.sec x.frac) = k.total x.sec x.frac := by
  obtain ⟨ht₀, ht⟩ := hx.total_lt
  have hunit := unit_le k
  exact ⟨machine_i64 ht₀ (by change k.total x.sec x.frac < _; omega),
    machine_store ht₀ (by omega)⟩

/-- A step whose product and sum fit, with the wrapping gone. -/
theorem accumulator_step_of_fits {k : Copy} {s : Saved} {x : Sample}
    (hs : Sound k s) (hx : x.Valid k) (hsaved : s.saved ≠ 0)
    (hp : FitsInt64 (Round.trunc (x.product k s)))
    (hr : FitsInt64 (s.last + Round.trunc (x.product k s))) :
    (accumulator .machine k).step s x =
      let ret := s.last + Round.trunc (x.product k s)
      (⟨k.total x.sec x.frac, k.store .machine ret⟩,
        Arith.machine.long (ret.tdiv k.unit),
        Arith.machine.long (ret.tmod k.unit)) := by
  obtain ⟨ht₀, ht⟩ := hx.total_lt
  have hunit := unit_le k
  have hsaved₀ := hs.saved_nonneg
  have hsavedlt := hs.saved_lt
  obtain ⟨hcur, hstore⟩ := machine_total hx
  have hdiff : Arith.machine.i64 (k.total x.sec x.frac - s.saved) =
      k.total x.sec x.frac - s.saved :=
    machine_i64_of_fits ⟨by omega, by omega⟩
  have hmul : Arith.machine.mulTimes (k.total x.sec x.frac - s.saved) x.times =
      Round.trunc (x.product k s) := machine_i64_of_fits hp
  have hret := machine_i64_of_fits hr
  simp only [accumulator, rebase, hsaved, if_false, hcur, hdiff, hmul, hret,
    hstore]

/-- The first reading is handed over as it is. -/
theorem normalised_first {k : Copy} {s : Saved} {x : Sample}
    (hsaved : s.saved = 0) (hx : x.Valid k) :
    let r := (accumulator .machine k).step s x
    Normalised k s x r.1 r.2.1 r.2.2 ∧ Sound k r.1 := by
  obtain ⟨ht₀, ht⟩ := hx.total_lt
  obtain ⟨hi64, hstore⟩ := machine_total hx
  simp only [accumulator, rebase, hsaved, if_true, hi64, hstore]
  obtain ⟨h₁, h₂, h₃, h₄⟩ := hx
  exact ⟨⟨fun h => absurd hsaved h, fun h => absurd hsaved h, h₁, h₃, h₄, rfl⟩,
    ⟨ht₀, ht, ht₀, ht⟩⟩

theorem normalised_of_room {k : Copy} {s : Saved} {x : Sample}
    (hs : Sound k s) (hx : x.Valid k) (hsaved : s.saved ≠ 0)
    (h : Room k s.last (x.product k s)) :
    let r := (accumulator .machine k).step s x
    Normalised k s x r.1 r.2.1 r.2.2 ∧ Sound k r.1 := by
  obtain ⟨ht₀, ht⟩ := hx.total_lt
  have hunit := unit_le k
  have hu := k.unit_pos
  have hlast₀ := hs.last_nonneg
  have hlast := hs.last_lt
  obtain ⟨hr₀, hrlt⟩ := (room_trunc_iff hlast₀ hlast _).mp h
  have hp : FitsInt64 (Round.trunc (x.product k s)) := ⟨by omega, by omega⟩
  have hr : FitsInt64 (s.last + Round.trunc (x.product k s)) :=
    ⟨by omega, by omega⟩
  obtain ⟨hsec, hfrac⟩ := machine_fields hr₀ hrlt
  have hstore := machine_store (k := k) hr₀ (by omega)
  rw [accumulator_step_of_fits hs hx hsaved hp hr]
  dsimp only
  rw [hsec, hfrac, hstore]
  exact ⟨⟨fun _ => hp, fun _ => hr, Int.ediv_nonneg hr₀ hu.le,
      Int.emod_nonneg _ hu.ne', Int.emod_lt_of_pos _ hu,
      Int.ediv_mul_add_emod _ _⟩, ⟨ht₀, ht, hr₀, hrlt⟩⟩

theorem room_of_normalised {k : Copy} {s s' : Saved} {x : Sample} {sec frac : ℤ}
    (hs : Sound k s) (hx : x.Valid k) (hsaved : s.saved ≠ 0)
    (hstep : (accumulator .machine k).step s x = (s', sec, frac))
    (h : Normalised k s x s' sec frac) : Room k s.last (x.product k s) := by
  have hunit := unit_le k
  have hu := k.unit_pos
  have hr := h.ret_fits hsaved
  rw [accumulator_step_of_fits hs hx hsaved (h.product_fits hsaved) hr,
    Prod.mk.injEq, Prod.mk.injEq] at hstep
  obtain ⟨rfl, rfl, rfl⟩ := hstep
  have hsec := h.sec_nonneg
  have hfrac := h.frac_nonneg
  have hfraclt := h.frac_lt
  have hseclt := machine_long_lt
    ((s.last + Round.trunc (x.product k s)).tdiv k.unit)
  have htotal : 0 ≤ k.store .machine (s.last + Round.trunc (x.product k s)) ∧
      k.store .machine (s.last + Round.trunc (x.product k s)) <
        2 ^ 31 * k.unit := by
    rw [← show _ = k.store .machine _ from h.stored, Copy.total]
    constructor <;> nlinarith
  have heq := eq_of_machine_store hr htotal.1 (by omega) rfl
  rw [← heq] at htotal
  exact (room_trunc_iff hs.last_nonneg hs.last_lt _).mpr htotal

/-! ## The library -/

/-- At a step the copy sees there is room for the move, with `δ` of it added,
unless it is the copy's first. -/
def HasRoom (k : Copy) (δ : ℚ) (y : Globals × Call × Reply) : Prop :=
  ∀ x ∈ k.view y.1 y.2.1, (k.statics y.1).saved ≠ 0 →
    Room k (k.statics y.1).last (x.move k (k.statics y.1) * (1 + δ))

instance (k : Copy) (δ : ℚ) : DecidablePred (HasRoom k δ) :=
  fun _ => inferInstanceAs (Decidable (∀ x ∈ _, _))

/-- What the copy answers at a step it sees is in range. -/
def InOrder (k : Copy) (y : Globals × Call × Reply) : Prop :=
  ∀ x ∈ k.view y.1 y.2.1,
    Normalised k (k.statics y.1) x
      (k.statics ((machine .machine).step y.1 y.2.1).1)
      y.2.2.fields.1 y.2.2.fields.2

/-- One step of the library, as far as the copy goes. -/
theorem step_in_order {k : Copy} {g : Globals} {c : Call}
    (hs : Sound k (k.statics g))
    (hvalid : ∀ x, k.view g c = some x → x.Valid k) :
    let y := (g, c, ((machine .machine).step g c).2)
    let g' := ((machine .machine).step g c).1
    (HasRoom k allowance y → InOrder k y ∧ Sound k (k.statics g')) ∧
      (InOrder k y → HasRoom k (-allowance) y ∧ Sound k (k.statics g')) := by
  intro y g'
  cases hv : k.view g c with
  | none =>
      have hkept : k.statics g' = k.statics g := statics_of_view hv
      have hunseen : ∀ x, k.view y.1 y.2.1 ≠ some x := by
        intro x hx
        cases hv.symm.trans hx
      rw [hkept]
      exact ⟨fun _ => ⟨fun x hx => absurd hx (hunseen x), hs⟩,
        fun _ => ⟨fun x hx => absurd hx (hunseen x), hs⟩⟩
  | some x =>
      have hx := hvalid x hv
      have hstep := step_of_view (A := .machine) hv
      have honly : ∀ x', k.view y.1 y.2.1 = some x' → x' = x := by
        intro x' hx'
        exact Option.some.inj (hx'.symm.trans hv)
      by_cases hsaved : (k.statics g).saved = 0
      · have hfirst := normalised_first hsaved hx
        rw [hstep] at hfirst
        refine ⟨fun _ => ⟨fun x' hx' => ?_, hfirst.2⟩,
          fun _ => ⟨fun x' hx' hne => absurd hsaved hne, hfirst.2⟩⟩
        rw [honly x' hx']
        exact hfirst.1
      · have hkeep : Room k (k.statics g).last (x.product k (k.statics g)) →
            Normalised k (k.statics g) x (k.statics g') y.2.2.fields.1
              y.2.2.fields.2 ∧ Sound k (k.statics g') := by
          intro hroom
          have hnext := normalised_of_room hs hx hsaved hroom
          rw [hstep] at hnext
          exact hnext
        refine ⟨fun hroom => ?_, fun horder => ?_⟩
        · obtain ⟨hnorm, hs'⟩ := hkeep (room_product_of_move hs.last_nonneg
            hs.last_lt (hroom x hv hsaved))
          refine ⟨fun x' hx' => ?_, hs'⟩
          rw [honly x' hx']
          exact hnorm
        · have hroom := room_of_normalised hs hx hsaved hstep (horder x hv)
          refine ⟨fun x' hx' _ => ?_, (hkeep hroom).2⟩
          rw [honly x' hx', ← sub_eq_add_neg]
          exact room_move_of_product hs.last_nonneg hs.last_lt hroom

theorem valid_of_mem_trace {k : Copy} {es : List Call}
    (hvalid : ∀ x ∈ samples .machine k {} es, x.Valid k) :
    ∀ y ∈ (machine .machine).trace {} es, ∀ x, k.view y.1 y.2.1 = some x →
      x.Valid k := by
  intro y hy x hx
  have hzip := (part .machine k).mem_zip_of_mem_trace es {} hy hx
  exact hvalid x (List.of_mem_zip hzip).1

/-- Over valid readings that may go anywhere, a run whose every reading has
room for its move, with the allowance, answers in range all along; and one
that answers in range has that room with the allowance off. -/
theorem times_in_range (k : Copy) (es : List Call)
    (hvalid : ∀ x ∈ samples .machine k {} es, x.Valid k) :
    ((∀ y ∈ (machine .machine).trace {} es, HasRoom k allowance y) →
      ∀ y ∈ (machine .machine).trace {} es, InOrder k y) ∧
    ((∀ y ∈ (machine .machine).trace {} es, InOrder k y) →
      ∀ y ∈ (machine .machine).trace {} es, HasRoom k (-allowance) y) := by
  have hseen := valid_of_mem_trace hvalid
  have hunit := k.unit_pos
  have hstart : Sound k (k.statics {}) := by
    cases k <;> exact ⟨by decide, by decide, by decide, by decide⟩
  constructor
  · intro hroom
    refine (machine .machine).forall_trace_imp (I := fun g => Sound k (k.statics g))
      (Q := fun y => (∀ x, k.view y.1 y.2.1 = some x → x.Valid k) ∧
        HasRoom k allowance y) (fun g c hs h => ?_) hstart
      fun y hy => ⟨hseen y hy, hroom y hy⟩
    exact (step_in_order hs h.1).1 h.2
  · intro horder
    refine (machine .machine).forall_trace_imp (I := fun g => Sound k (k.statics g))
      (Q := fun y => (∀ x, k.view y.1 y.2.1 = some x → x.Valid k) ∧ InOrder k y)
      (fun g c hs h => ?_) hstart fun y hy => ⟨hseen y hy, horder y hy⟩
    exact (step_in_order hs h.1).2 h.2

/-- Set back by a second at scale 2, with a thousand seconds on the clock. -/
def setBack : List Call :=
  [.setTimeScale 1, .newGettimeofday 0 ⟨1000, 0⟩, .newGettimeofday 0 ⟨999, 5⟩]

theorem set_back_in_range :
    (machine .machine).run {} setBack = [.setTimeScale 0,
      .newGettimeofday 0 ⟨1000, 0⟩, .newGettimeofday 0 ⟨998, 10⟩] ∧
    ∀ y ∈ (machine .machine).trace {} setBack, InOrder .gettimeofday y :=
  ⟨by decide +kernel, (times_in_range .gettimeofday setBack (by decide +kernel)).1
    (by decide +kernel)⟩

/-- Set back by nearly all there is on the clock: the seconds are negative. -/
theorem set_back_below_zero :
    ¬ ∀ (k : Copy) (es : List Call),
      (∀ x ∈ samples .machine k {} es, x.Valid k) →
      ∀ y ∈ (machine .machine).trace {} es, InOrder k y := by
  intro h
  have horder := h .gettimeofday
    [.setTimeScale 1, .newGettimeofday 0 ⟨1000, 0⟩, .newGettimeofday 0 ⟨1, 0⟩]
    (by decide +kernel) _ (List.getElem_mem (n := 2) (by decide +kernel))
    ⟨1, 0, 2⟩ (by decide +kernel)
  have hsec := horder.sec_nonneg
  revert hsec
  decide +kernel

end Elfupspeed.Speed
