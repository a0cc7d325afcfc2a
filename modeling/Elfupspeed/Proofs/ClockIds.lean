import Elfupspeed.Proofs.Accumulator

/-!
# Which clock ids keep out of each other's way

`new_clock_gettime` knows two kinds of clock: `CLOCK_MONOTONIC`, and
everything else, under statics that are named after `CLOCK_REALTIME` alone. A
program that reads one clock of the second kind never notices. One that reads
two of them feeds both into the same accumulator, and each is then told a
time that the other's readings moved.

The positive half is the unwinding argument of the library of machines, with
a clock id in the place of the component: as long as nothing else reaches its
statics, what a clock saw decides what it answered.
-/

namespace Elfupspeed.Speed

open Elfupspeed.Lib

def copyOf (clkId : ClockId) : Copy :=
  if clkId = clockMonotonic then .monotonic else .other

/-- One clock on its own: a failing original is passed on, a reading goes
through the accumulator. -/
def clockMachine (A : Arith) (clkId : ClockId) :
    Mealy Saved (ℤ × Timespec × ℚ) Reply where
  step s x :=
    if x.1 ≠ 0 then (s, .newClockGettime x.1 x.2.1)
    else
      let r := (accumulator A (copyOf clkId)).step s
        ⟨x.2.1.tvSec, x.2.1.tvNsec, x.2.2⟩
      (r.1, .newClockGettime 0 ⟨r.2.1, r.2.2⟩)

/-- The calls made with one clock id: the outcome of the original and the
scale in force. -/
def clockView (clkId : ClockId) (g : Globals) :
    Call → Option (ℤ × Timespec × ℚ)
  | .newClockGettime id res ptp =>
      if id = clkId then some (res, ptp, g.gTimes) else none
  | _ => none

/-- A call that does not reach the statics of `clkId` under another id. -/
def Undisturbed (clkId : ClockId) : Call → Prop
  | .newClockGettime id res _ =>
      clkId = clockMonotonic ∨ id = clkId ∨ id = clockMonotonic ∨ res ≠ 0
  | _ => True

instance (clkId : ClockId) : DecidablePred (Undisturbed clkId)
  | .newClockGettime .. => inferInstanceAs (Decidable (_ ∨ _))
  | .newGettimeofday .. | .setTimeScale _ => inferInstanceAs (Decidable True)

theorem clockMachine_step (A : Arith) (g : Globals) (clkId : ClockId) (res : ℤ)
    (ptp : Timespec) :
    (clockMachine A clkId).step ((copyOf clkId).statics g)
        (res, ptp, g.gTimes) =
      let r := (machine A).step g (.newClockGettime clkId res ptp)
      ((copyOf clkId).statics r.1, r.2) := by
  by_cases hres : res = 0
  · by_cases hid : clkId = clockMonotonic <;>
      simp [clockMachine, machine, newClockGettime, accumulator, copyOf,
        Copy.statics, Copy.store, Copy.unit, hres, hid]
  · simp [clockMachine, machine, newClockGettime, hres]

theorem view_of_undisturbed {clkId : ClockId} {g : Globals} {c : Call}
    (h : Undisturbed clkId c) (hc : clockView clkId g c = none) :
    (copyOf clkId).view g c = none := by
  cases c with
  | newGettimeofday res ptv =>
      unfold copyOf
      split <;> rfl
  | setTimeScale result =>
      unfold copyOf
      split <;> rfl
  | newClockGettime id res ptp =>
      have hne : id ≠ clkId := by
        intro heq
        simp [clockView, heq] at hc
      by_cases hres : res = 0
      · unfold Undisturbed at h
        by_cases hmono : clkId = clockMonotonic
        · have hid : id ≠ clockMonotonic := hmono ▸ hne
          simp [copyOf, hmono, Copy.view, hid]
        · have hid : id = clockMonotonic := by simp_all
          simp [copyOf, hmono, Copy.view, hid]
      · unfold copyOf
        split <;> simp [Copy.view, hres]

/-- A clock as a component of the library, in the runs that leave its statics
to it. -/
def clockPart (A : Arith) (clkId : ClockId) :
    Component (machine A) (clockMachine A clkId) (Undisturbed clkId) where
  proj := (copyOf clkId).statics
  view := clockView clkId
  out r := r
  seen := by
    intro g c x _ hx
    match c with
    | .newClockGettime id res ptp =>
        simp only [clockView] at hx
        split at hx
        · rename_i hid
          subst hid
          injection hx with hx
          subst hx
          exact clockMachine_step A g id res ptp
        · cases hx
    | .newGettimeofday .. | .setTimeScale _ => cases hx
  hidden _ _ h hc := statics_of_view (view_of_undisturbed h hc)

/-- The calls of a run made with one clock id, and what they were answered. -/
def clockCalls (A : Arith) (clkId : ClockId) (es : List Call) :
    List (ℤ × Timespec × ℚ) := (clockPart A clkId).inputs {} es

def clockReplies (A : Arith) (clkId : ClockId) (es : List Call) : List Reply :=
  (clockPart A clkId).outputs {} es

/-! ## A second clock of the other kind -/

/-- At scale 2 a clock that reads three seconds is asked first, and then the
clock of interest reads one. -/
def intruded (clkId other : ClockId) : List Call :=
  [.setTimeScale 1, .newClockGettime other 0 ⟨3, 0⟩,
    .newClockGettime clkId 0 ⟨1, 0⟩]

def alone (clkId : ClockId) : List Call :=
  [.setTimeScale 1, .newClockGettime clkId 0 ⟨1, 0⟩]

theorem timesAfter_one : timesAfter 1 1 = 2 := by decide +kernel

theorem rebase_intruded :
    rebase .machine Arith.machine.u64 1000000000 2
      (rebase .machine Arith.machine.u64 1000000000 2 {} 3 0).1 1 0 =
      (⟨1000000000, 2 ^ 64 - 1000000000⟩, -1, 0) := by decide +kernel

theorem intruded_calls {clkId other : ClockId} (hne : other ≠ clkId) :
    clockCalls .machine clkId (intruded clkId other) =
      clockCalls .machine clkId (alone clkId) := by
  simp [clockCalls, Component.inputs, clockPart, clockView, intruded, alone,
    machine, hne]

theorem intruded_replies (clkId other : ClockId) (hne : other ≠ clkId)
    (h : clkId ≠ clockMonotonic) (hother : other ≠ clockMonotonic) :
    clockReplies .machine clkId (intruded clkId other) ≠
      clockReplies .machine clkId (alone clkId) := by
  simp only [clockReplies, Component.outputs, clockPart, clockView, intruded,
    alone, machine, hne, if_false, if_true, setTimeScale, newClockGettime, h,
    hother, ne_eq, not_true_eq_false, doSpeedHook, timesAfter_one,
    rebase_intruded]
  decide +kernel

/-- Any clock is kept out of the others' way in two runs whose successful calls
with other ids are calls of the monotonic one; and the monotonic clock, and no
other, is so in every two runs. -/
theorem clockReplies_congr (clkId : ClockId) :
    (∀ (A : Arith) (es fs : List Call),
      (∀ e ∈ es, Undisturbed clkId e) → (∀ e ∈ fs, Undisturbed clkId e) →
      clockCalls A clkId es = clockCalls A clkId fs →
      clockReplies A clkId es = clockReplies A clkId fs) ∧
    ((∀ es fs : List Call,
        clockCalls .machine clkId es = clockCalls .machine clkId fs →
        clockReplies .machine clkId es = clockReplies .machine clkId fs) ↔
      clkId = clockMonotonic) := by
  have hrun : ∀ (A : Arith) (es fs : List Call),
      (∀ e ∈ es, Undisturbed clkId e) → (∀ e ∈ fs, Undisturbed clkId e) →
      clockCalls A clkId es = clockCalls A clkId fs →
      clockReplies A clkId es = clockReplies A clkId fs :=
    fun A es fs hes hfs => (clockPart A clkId).outputs_congr hes hfs rfl
  refine ⟨hrun, fun h => ?_, fun h es fs => ?_⟩
  · by_contra hmono
    by_cases hreal : clkId = clockRealtime
    · exact intruded_replies clkId 2 (by rw [hreal]; decide) hmono
        (by decide) (h _ _ (intruded_calls (by rw [hreal]; decide)))
    · exact intruded_replies clkId clockRealtime (Ne.symm hreal) hmono
        (by decide) (h _ _ (intruded_calls (Ne.symm hreal)))
  · have hund : ∀ e : Call, Undisturbed clkId e := by
      intro e
      cases e with
      | newClockGettime id res ptp => exact .inl h
      | newGettimeofday res ptv => trivial
      | setTimeScale result => trivial
    exact hrun .machine es fs (fun e _ => hund e) fun e _ => hund e

/-- A clock of the second kind that nothing else of its kind disturbs: what
the monotonic clock and `gettimeofday` do in between is not seen. -/
theorem realtime_undisturbed :
    clockReplies .machine clockRealtime
        [.setTimeScale 1, .newClockGettime clockMonotonic 0 ⟨9, 0⟩,
          .newClockGettime clockRealtime 0 ⟨1, 0⟩,
          .newGettimeofday 0 ⟨5, 0⟩,
          .newClockGettime clockRealtime 0 ⟨2, 0⟩] =
      clockReplies .machine clockRealtime
        [.setTimeScale 1, .newClockGettime clockRealtime 0 ⟨1, 0⟩,
          .newClockGettime clockRealtime 0 ⟨2, 0⟩] :=
  (clockReplies_congr clockRealtime).1 .machine _ _ (by decide) (by decide) rfl

theorem realtime_moved_by_another :
    ¬ ∀ (clkId : ClockId) (es fs : List Call),
      clockCalls .machine clkId es = clockCalls .machine clkId fs →
      clockReplies .machine clkId es = clockReplies .machine clkId fs := by
  intro h
  have hcalls : clockCalls .machine clockRealtime (intruded clockRealtime 2) =
      clockCalls .machine clockRealtime (alone clockRealtime) :=
    intruded_calls (by decide)
  exact intruded_replies clockRealtime 2 (by decide) (by decide) (by decide)
    (h clockRealtime _ _ hcalls)

end Elfupspeed.Speed
