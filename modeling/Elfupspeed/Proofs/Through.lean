import Elfupspeed.Proofs.Entered
import Elfupspeed.Proofs.Service

/-!
# Through the hooked symbols

What was shown of the clocks is shown of calls of the two hooks. A process does
not call those; it calls `gettimeofday` and `clock_gettime`, and what these run
is in the statics. Once a process has come through its start the two are the
same: its calls take the steps that the library takes, whatever is called and
in whatever order, and for ever.
-/

namespace Elfupspeed.Startup

open Elfupspeed.Lib Elfupspeed.Speed
open Elfupspeed.ServerClient (port)

/-- The library with its hooks installed once, and its clocks as they are. -/
def hooked (g : Globals) : Globals :=
  { g with
    isHooked := false
    gettimeofday := ⟨.hook, some .original⟩
    clockGettime := ⟨.hook, some .original⟩ }

section Through

variable {g : Globals} (A : Arith)

theorem hooked_of_installed (h : Installed g) : hooked g = g := by
  obtain ⟨hisHooked, hgettimeofday, hclockGettime⟩ := h
  cases g
  cases hisHooked
  cases hgettimeofday
  cases hclockGettime
  rfl

/-- The hooks do not look at how they were installed. -/
theorem newGettimeofday_hooked (g : Globals) (res : ℤ) (ptv : Timeval) :
    newGettimeofday A (hooked g) res ptv =
      (hooked (newGettimeofday A g res ptv).1, (newGettimeofday A g res ptv).2) := by
  unfold newGettimeofday
  split <;> rfl

theorem newClockGettime_hooked (g : Globals) (clkId : ClockId) (res : ℤ)
    (ptp : Timespec) :
    newClockGettime A (hooked g) clkId res ptp =
      (hooked (newClockGettime A g clkId res ptp).1,
        (newClockGettime A g clkId res ptp).2) := by
  unfold newClockGettime
  split
  · rfl
  · split <;> rfl

/-- What `SetTimeScale` does with the hooks is not seen behind hooks that are
installed. -/
theorem setTimeScale_hooked (g : Globals) (result : ℚ) :
    (setTimeScale (hooked g) result).1 = hooked (setTimeScale g result).1 := by
  rw [setTimeScale_of_cleared rfl]
  cases h : g.isHooked with
  | true =>
      rw [setTimeScale, h, if_pos rfl]
      rfl
  | false =>
      rw [setTimeScale_of_cleared h]
      rfl

/-- A call of a process whose hooks are installed is one of the library. -/
theorem process_step (g : Globals) (c : Call) :
    (process A).step (hooked g) c =
      (hooked ((Speed.machine A).step g c).1,
        some ((Speed.machine A).step g c).2) := by
  cases c with
  | newGettimeofday res ptv =>
      have hcall : gettimeofday A (hooked g) res ptv 1 =
          some (newGettimeofday A (hooked g) res ptv) := rfl
      simp only [process, Speed.machine, hcall, newGettimeofday_hooked]
  | newClockGettime clkId res ptp =>
      have hcall : clockGettime A (hooked g) clkId res ptp 1 =
          some (newClockGettime A (hooked g) clkId res ptp) := rfl
      simp only [process, Speed.machine, hcall, newClockGettime_hooked]
  | setTimeScale result =>
      simp only [process, Speed.machine, setTimeScale_hooked]
      rfl

theorem process_run (g : Globals) (cs : List Call) :
    (process A).run (hooked g) cs = ((Speed.machine A).run g cs).map some ∧
      (process A).after (hooked g) cs = hooked ((Speed.machine A).after g cs) := by
  refine (Speed.machine A).run_of_rel (R := fun g g' => g' = hooked g)
    (fun g g' c hg => ?_) rfl cs
  subst hg
  rw [process_step]
  exact ⟨rfl, rfl⟩

end Through

section Settled

variable {ms : List (ℕ × Move)} {w : Machine} {pid : ℕ}

/-- A process that has come through its start calls the library: what its own
calls of the clocks and its server's requests come to, in any order and for
ever, is what the library makes of them, from any state of its statics that is
the process's but for the hooks. -/
theorem calls_as_modelled (hrun : machine.run {} ms = some w) (hport : port pid ≠ 0)
    (hsettled : w.Settled pid) (halive : (w.process pid).exited = false)
    (hentered : (w.process pid).threads ≠ []) {g : Globals}
    (hsame : hooked g = hooked (w.process pid).library) (A : Arith) (cs : List Call) :
    (process A).run (w.process pid).library cs =
        ((Speed.machine A).run g cs).map some ∧
      (process A).after (w.process pid).library cs =
        hooked ((Speed.machine A).after g cs) := by
  have hlibrary : (w.process pid).library = hooked g := by
    rcases settled_once hrun hport hsettled halive with h | h
    · exact absurd h.1 hentered
    · exact (hsame.trans (hooked_of_installed h.2)).symm
  rw [hlibrary]
  exact process_run A g cs

theorem through_as_modelled :
    ∃ w, machine.run {} (through 7) = some w ∧
      (process .exact).run (w.process 7).library
          [.newGettimeofday 0 ⟨1, 0⟩, .setTimeScale 1, .newGettimeofday 0 ⟨2, 0⟩] =
        ((Speed.machine .exact).run {}
          [.newGettimeofday 0 ⟨1, 0⟩, .setTimeScale 1, .newGettimeofday 0 ⟨2, 0⟩]).map
            some := by
  have hrun : machine.run {} (through 7) = some _ := rfl
  have hport : port (7 : ℕ) ≠ 0 := by decide
  exact ⟨_, hrun, (calls_as_modelled hrun hport (fun i _ => by cases i <;> rfl) rfl
    (List.cons_ne_nil _ _) rfl .exact _).1⟩

end Settled

end Elfupspeed.Startup
