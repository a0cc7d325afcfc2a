import Elfupspeed.Src.Speed

/-!
# Three accumulators behind two functions

Two functions share three sets of statics, and each set is touched by one
copy of the scaling computation only. This file says so once, as three
components of the library's machine: an accumulator sees the successful
readings that reach its copy and the scale in force at each, sleeps through
everything else, and answers the two fields its copy writes.

Over unbounded integers there is less to remember still. The fields are the
quotient and the remainder of one number, and what an accumulator does to
that number is `count`: the first reading as it is, and from then on the last
answer moved on by the scaled difference. `handedOut_total` is the bridge.
-/

namespace Elfupspeed.Speed

open Elfupspeed.Lib

/-! ## Who sets the scale -/

@[simp] theorem gTimes_setTimeScale (g : Globals) (result : ℚ) :
    (setTimeScale g result).1.gTimes = timesAfter g.gTimes result := by
  unfold setTimeScale
  dsimp only
  split <;> rfl

@[simp] theorem gTimes_newGettimeofday (A : Arith) (g : Globals) (res : ℤ)
    (ptv : Timeval) : (newGettimeofday A g res ptv).1.gTimes = g.gTimes := by
  unfold newGettimeofday
  split <;> rfl

@[simp] theorem gTimes_newClockGettime (A : Arith) (g : Globals)
    (clkId : ClockId) (res : ℤ) (ptp : Timespec) :
    (newClockGettime A g clkId res ptp).1.gTimes = g.gTimes := by
  unfold newClockGettime
  split
  · rfl
  · split <;> rfl

/-! ## The copies -/

/-- The copies of the computation, by what reaches them: the third serves
every clock id but `CLOCK_MONOTONIC`. -/
inductive Copy where
  | gettimeofday
  | monotonic
  | other
  deriving DecidableEq, Repr

/-- A successful reading and the scale in force when it is taken. -/
structure Sample where
  sec : ℤ
  frac : ℤ
  times : ℚ
  deriving DecidableEq, Repr

namespace Copy

def unit : Copy → ℤ
  | .gettimeofday => 1000000
  | .monotonic | .other => 1000000000

def store (A : Arith) : Copy → ℤ → ℤ
  | .monotonic => A.i64
  | .gettimeofday | .other => A.u64

def statics : Copy → Globals → Saved
  | .gettimeofday => Globals.savedUsecs
  | .monotonic => Globals.savedNsecsClkMono
  | .other => Globals.savedNsecsClkReal

def view (g : Globals) : Copy → Call → Option Sample
  | .gettimeofday, .newGettimeofday res ptv =>
      if res ≠ 0 then none else some ⟨ptv.tvSec, ptv.tvUsec, g.gTimes⟩
  | .monotonic, .newClockGettime clkId res ptp =>
      if res ≠ 0 then none
      else if clkId = clockMonotonic then some ⟨ptp.tvSec, ptp.tvNsec, g.gTimes⟩
      else none
  | .other, .newClockGettime clkId res ptp =>
      if res ≠ 0 then none
      else if clkId = clockMonotonic then none
      else some ⟨ptp.tvSec, ptp.tvNsec, g.gTimes⟩
  | _, _ => none

def total (k : Copy) (sec frac : ℤ) : ℤ := sec * k.unit + frac

theorem unit_pos (k : Copy) : 0 < k.unit := by cases k <;> decide

@[simp] theorem store_unbounded (mul : ℤ → ℚ → ℤ) (k : Copy) (x : ℤ) :
    k.store (.unbounded mul) x = x := by cases k <;> rfl

end Copy

/-- The two fields of the time structure a reply carries. -/
def Reply.fields : Reply → ℤ × ℤ
  | .newGettimeofday _ ptv => (ptv.tvSec, ptv.tvUsec)
  | .newClockGettime _ ptp => (ptp.tvSec, ptp.tvNsec)
  | .setTimeScale _ => (0, 0)

def accumulator (A : Arith) (k : Copy) : Mealy Saved Sample (ℤ × ℤ) where
  step s x := rebase A (k.store A) k.unit x.times s x.sec x.frac

/-- A copy sees a call when the original answered it and its clock is the
copy's; what it sees is what the original wrote, and the scale in force. -/
theorem view_eq_some {k : Copy} {g : Globals} {c : Call} {x : Sample}
    (hx : k.view g c = some x) :
    x.times = g.gTimes ∧
      ((k = .gettimeofday ∧ c = .newGettimeofday 0 ⟨x.sec, x.frac⟩) ∨
        (k = .monotonic ∧ c = .newClockGettime clockMonotonic 0 ⟨x.sec, x.frac⟩) ∨
        ∃ clkId, clkId ≠ clockMonotonic ∧ k = .other ∧
          c = .newClockGettime clkId 0 ⟨x.sec, x.frac⟩) := by
  match k, c with
  | .gettimeofday, .newGettimeofday res ptv =>
      by_cases hres : res = 0
      · simp only [Copy.view, hres, ne_eq, not_true_eq_false, if_false,
          Option.some.injEq] at hx
        subst hx hres
        exact ⟨rfl, .inl ⟨rfl, rfl⟩⟩
      · simp [Copy.view, hres] at hx
  | .monotonic, .newClockGettime clkId res ptp =>
      by_cases hres : res = 0 <;> by_cases hid : clkId = clockMonotonic
      · simp only [Copy.view, hres, hid, ne_eq, not_true_eq_false, if_false,
          if_true, Option.some.injEq] at hx
        subst hx hres hid
        exact ⟨rfl, .inr (.inl ⟨rfl, rfl⟩)⟩
      all_goals simp [Copy.view, hres, hid] at hx
  | .other, .newClockGettime clkId res ptp =>
      by_cases hres : res = 0 <;> by_cases hid : clkId = clockMonotonic
      case neg =>
        simp only [Copy.view, hres, hid, ne_eq, not_true_eq_false, if_false,
          Option.some.injEq] at hx
        subst hx hres
        exact ⟨rfl, .inr (.inr ⟨clkId, hid, rfl, rfl⟩)⟩
      all_goals simp [Copy.view, hres, hid] at hx
  | .gettimeofday, .newClockGettime .. | .gettimeofday, .setTimeScale _
  | .monotonic, .newGettimeofday .. | .monotonic, .setTimeScale _
  | .other, .newGettimeofday .. | .other, .setTimeScale _ => cases hx

theorem step_of_view {A : Arith} {k : Copy} {g : Globals} {c : Call}
    {x : Sample} (hx : k.view g c = some x) :
    (accumulator A k).step (k.statics g) x =
      (k.statics ((machine A).step g c).1, ((machine A).step g c).2.fields) := by
  obtain ⟨ht, ⟨rfl, rfl⟩ | ⟨rfl, rfl⟩ | ⟨clkId, hid, rfl, rfl⟩⟩ :=
    view_eq_some hx
  all_goals simp_all [accumulator, machine, newGettimeofday, newClockGettime,
    Copy.statics, Copy.store, Copy.unit, Reply.fields]

@[simp] theorem statics_setTimeScale (k : Copy) (g : Globals) (result : ℚ) :
    k.statics (setTimeScale g result).1 = k.statics g := by
  unfold setTimeScale
  dsimp only
  split <;> cases k <;> rfl

theorem statics_of_view {A : Arith} {k : Copy} {g : Globals} {c : Call}
    (hc : k.view g c = none) :
    k.statics ((machine A).step g c).1 = k.statics g := by
  match c with
  | .setTimeScale result => exact statics_setTimeScale k g result
  | .newGettimeofday res ptv =>
      by_cases hres : res = 0
      · cases k <;> simp_all [Copy.view, machine, newGettimeofday, Copy.statics]
      · simp [machine, newGettimeofday, hres]
  | .newClockGettime clkId res ptp =>
      by_cases hres : res = 0
      · by_cases hid : clkId = clockMonotonic <;>
          cases k <;>
          simp_all [Copy.view, machine, newClockGettime, Copy.statics]
      · simp [machine, newClockGettime, hres]

def part (A : Arith) (k : Copy) :
    Component (machine A) (accumulator A k) fun _ => True where
  proj := k.statics
  view g c := k.view g c
  out := Reply.fields
  seen _ _ _ _ hx := step_of_view hx
  hidden _ _ _ hc := statics_of_view hc

/-! ## What a run shows a copy, and what it gets back -/

def samples (A : Arith) (k : Copy) (g : Globals) (es : List Call) :
    List Sample := (part A k).inputs g es

def handedOut (A : Arith) (k : Copy) (g : Globals) (es : List Call) :
    List (ℤ × ℤ) := (part A k).outputs g es

theorem handedOut_eq_run (A : Arith) (k : Copy) (g : Globals)
    (es : List Call) :
    handedOut A k g es =
      (accumulator A k).run (k.statics g) (samples A k g es) :=
  (part A k).outputs_eq_run (fun _ _ => trivial) g

/-- The underlying readings in units, each with the scale it met. -/
def readings (A : Arith) (k : Copy) (g : Globals) (es : List Call) :
    List (ℤ × ℚ) :=
  (samples A k g es).map fun x => (k.total x.sec x.frac, x.times)

def returned (A : Arith) (k : Copy) (g : Globals) (es : List Call) : List ℤ :=
  (handedOut A k g es).map fun p => k.total p.1 p.2

/-! ## Over unbounded integers -/

/-- What an accumulator hands out at a reading `t`. -/
def count (mul : ℤ → ℚ → ℤ) (s : Saved) (t : ℤ) (times : ℚ) : ℤ :=
  if s.saved = 0 then t else s.last + mul (t - s.saved) times

def counter (mul : ℤ → ℚ → ℤ) : Mealy Saved (ℤ × ℚ) ℤ where
  step s x := (⟨x.1, count mul s x.1 x.2⟩, count mul s x.1 x.2)

theorem counter_step_total (mul : ℤ → ℚ → ℤ) (k : Copy) (s : Saved)
    (x : Sample) :
    (counter mul).step s (k.total x.sec x.frac, x.times) =
      let r := (accumulator (.unbounded mul) k).step s x
      (r.1, k.total r.2.1 r.2.2) := by
  by_cases hs : s.saved = 0
  · simp [counter, count, accumulator, rebase, hs, Copy.total]
  · simp only [counter, count, accumulator, rebase, hs, if_false,
      Copy.store_unbounded, unbounded_i64, unbounded_long, unbounded_mulTimes,
      Copy.total]
    rw [Int.tdiv_mul_add_tmod]

/-- One step of the library at a reading its copy sees, in units. -/
theorem counted_of_view (mul : ℤ → ℚ → ℤ) {k : Copy} {g : Globals} {c : Call}
    {x : Sample} (hx : k.view g c = some x) :
    let r := (machine (.unbounded mul)).step g c
    let v := count mul (k.statics g) (k.total x.sec x.frac) x.times
    k.statics r.1 = ⟨k.total x.sec x.frac, v⟩ ∧
      k.total r.2.fields.1 r.2.fields.2 = v := by
  have hstep := counter_step_total mul k (k.statics g) x
  rw [step_of_view hx] at hstep
  exact ⟨(congrArg Prod.fst hstep).symm, (congrArg Prod.snd hstep).symm⟩

theorem returned_eq_run (mul : ℤ → ℚ → ℤ) (k : Copy) (g : Globals)
    (es : List Call) :
    returned (.unbounded mul) k g es =
      (counter mul).run (k.statics g) (readings (.unbounded mul) k g es) := by
  rw [returned, readings, handedOut_eq_run]
  exact (Mealy.run_map _ (counter_step_total mul k) _ _).symm

end Elfupspeed.Speed
