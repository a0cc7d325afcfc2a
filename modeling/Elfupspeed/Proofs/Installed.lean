import Elfupspeed.Proofs.Startup

/-!
# The clocks of a process while its threads start

Each thread of a process puts the hooks over what it finds. The library counts
the threads that have done so, as it were: `mSHookFunction` was iterated as
often as threads have come past it. What a call of a clock comes to depends on
that number alone.
-/

namespace Elfupspeed.Startup

open Elfupspeed.Lib Elfupspeed.Speed

/-! ## Who has come past the hooks -/

/-- How many threads have taken `k` steps. -/
def Process.past (p : Process) (k : ℕ) : ℕ :=
  (p.threads.map fun s => if k ≤ s.done then 1 else 0).sum

/-- The library is as the threads left it, and the requests did nothing to its
hooks. -/
structure Counted (p : Process) : Prop where
  gettimeofday : p.library.gettimeofday = mSHookFunction^[p.past 1] {}
  clockGettime : p.library.clockGettime = mSHookFunction^[p.past 2] {}
  isHooked : p.library.isHooked = decide (p.past 3 = 0)

section Hooks

variable {w w' : Machine} {p : Process} {pid i : ℕ} {s s' : Stage} {m : Move}

theorem past_at (hs : p.threads[i]? = some s) (s' : Stage) (k : ℕ) :
    (p.at i s').past k + (if k ≤ s.done then 1 else 0) =
      p.past k + if k ≤ s'.done then 1 else 0 :=
  sum_map_set hs (fun s => if k ≤ s.done then 1 else 0) s'

theorem past_pos {k : ℕ} (hs : p.threads[i]? = some s) (hk : k ≤ s.done)
    (hpos : 0 < k) : 0 < p.past k := by
  have hback := past_at hs .hookGettimeofday k
  have hzero : ¬ k ≤ Stage.hookGettimeofday.done := by
    simp only [Stage.done]
    omega
  rw [if_pos hk, if_neg hzero] at hback
  omega

theorem past_entered (p : Process) {k : ℕ} (hpos : 0 < k) :
    ({ p with threads := p.threads ++ [.hookGettimeofday] } : Process).past k =
      p.past k := by
  have hnone : (if k ≤ Stage.hookGettimeofday.done then 1 else 0) = 0 := by
    refine if_neg ?_
    simp only [Stage.done]
    omega
  simp [Process.past, hnone]

/-- Some more threads have taken the three steps that the hooks depend on. -/
theorem Counted.more (h : Counted p) {p' : Process} (a b c : ℕ)
    (hone : p'.past 1 = a + p.past 1) (htwo : p'.past 2 = b + p.past 2)
    (hthree : p'.past 3 = c + p.past 3)
    (hgettimeofday : p'.library.gettimeofday =
      mSHookFunction^[a] p.library.gettimeofday)
    (hclockGettime : p'.library.clockGettime =
      mSHookFunction^[b] p.library.clockGettime)
    (hisHooked : p'.library.isHooked = (decide (c = 0) && p.library.isHooked)) :
    Counted p' where
  gettimeofday := by
    rw [hgettimeofday, h.gettimeofday, hone, Function.iterate_add_apply]
  clockGettime := by
    rw [hclockGettime, h.clockGettime, htwo, Function.iterate_add_apply]
  isHooked := by
    rw [hisHooked, h.isHooked, hthree, ← Bool.decide_and]
    exact decide_eq_decide.mpr Nat.add_eq_zero_iff.symm

theorem past_next (hs : p.threads[i]? = some s) (hnext : s'.done = s.done + 1)
    (k : ℕ) :
    (p.at i s').past k = (if k = s'.done then 1 else 0) + p.past k := by
  have hat := past_at hs s' k
  split at hat <;> split at hat <;> split <;> omega

theorem Counted.advances (h : Counted p) {g : Globals}
    (hs : p.threads[i]? = some s) (hadv : Advance p.library s s' g) :
    Counted ({ p with library := g }.at i s') := by
  cases hadv with
  | gettimeofday =>
      exact h.more 1 0 0 (past_next hs rfl 1) (past_next hs rfl 2)
        (past_next hs rfl 3) rfl rfl rfl
  | clockGettime =>
      exact h.more 0 1 0 (past_next hs rfl 1) (past_next hs rfl 2)
        (past_next hs rfl 3) rfl rfl rfl
  | cleared =>
      exact h.more 0 0 1 (past_next hs rfl 1) (past_next hs rfl 2)
        (past_next hs rfl 3) rfl rfl rfl
  | socket | listen =>
      exact h.more 0 0 0 (past_next hs rfl 1) (past_next hs rfl 2)
        (past_next hs rfl 3) rfl rfl rfl

theorem setTimeScale_of_cleared {g : Globals} (h : g.isHooked = false)
    (result : ℚ) :
    (setTimeScale g result).1 = { g with gTimes := timesAfter g.gTimes result } := by
  simp [setTimeScale, h]

/-- A thread in its accept loop has cleared `IsHooked`, so a request does not
install the hooks. -/
theorem Counted.request (h : Counted p) {q : ℕ}
    (hs : p.threads[i]? = some (.accept q)) (result : ℚ) :
    Counted { p with library := (setTimeScale p.library result).1 } := by
  have hthree : 3 ≤ (Stage.accept q).done := Nat.le_add_left 3 3
  have hpast := past_pos hs hthree (by decide)
  have hcleared : p.library.isHooked = false := by
    rw [h.isHooked]
    exact decide_eq_false (by omega)
  rw [setTimeScale_of_cleared hcleared]
  exact h.more 0 0 0 (Nat.zero_add _).symm (Nat.zero_add _).symm
    (Nat.zero_add _).symm rfl rfl rfl

/-- A thread that nobody gets in the way of does what `startServer` does. -/
theorem advance_startServer (g : Globals) :
    ∃ g₁ g₂, Advance g .hookGettimeofday .hookClockGettime g₁ ∧
      Advance g₁ .hookClockGettime .clearIsHooked g₂ ∧
      Advance g₂ .clearIsHooked .socket (startServer g) :=
  ⟨_, _, .gettimeofday, .clockGettime, .cleared⟩

theorem Counted.stepped (h : ∀ pid, Counted (w.process pid))
    (hstep : Stepped w pid m w') : ∀ pid, Counted (w'.process pid) := by
  intro pid'
  by_cases hpid : pid' = pid
  · subst hpid
    have hp := h pid'
    cases hstep with
    | idle => exact hp
    | enters =>
        rw [put_self]
        exact hp.more 0 0 0 ((past_entered _ (by decide)).trans (Nat.zero_add _).symm)
          ((past_entered _ (by decide)).trans (Nat.zero_add _).symm)
          ((past_entered _ (by decide)).trans (Nat.zero_add _).symm) rfl rfl rfl
    | advances i anyPort ok s s' g hs hadv =>
        rw [put_self]
        exact hp.advances hs hadv
    | binds i anyPort hs hfree =>
        rw [bound_process, put_self]
        exact hp.more 0 0 0 (past_next hs rfl 1) (past_next hs rfl 2)
          (past_next hs rfl 3) rfl rfl rfl
    | dies =>
        rw [die_self]
        exact hp.more 0 0 0 (Nat.zero_add _).symm (Nat.zero_add _).symm
          (Nat.zero_add _).symm rfl rfl rfl
    | asks i q result hs =>
        rw [put_self]
        exact hp.request hs result
  · rw [hstep.other hpid]
    exact h pid'

theorem counted_run {ms : List (ℕ × Move)} (hrun : machine.run {} ms = some w) :
    ∀ pid, Counted (w.process pid) := by
  refine machine.run_inv (I := fun w => ∀ pid, Counted (w.process pid))
    (fun w m w' hw hm => ?_) (fun _ => ⟨rfl, rfl, rfl⟩) hrun
  exact Counted.stepped hw (stepped_of_step hm).2

end Hooks

section Called

variable {α : Type} {r : Redirect} (hook : α → α) (answer : α)

theorem called_original (depth : ℕ) :
    called r hook answer depth .original = some answer := by
  cases depth <;> rfl

/-- The hook calls the hook again, and is one less deep then. -/
theorem called_reentrant (hold : r.old = some .hook) (depth : ℕ) :
    called r hook answer depth .hook = none := by
  induction depth with
  | zero => rfl
  | succ depth ih =>
      rw [called, hold, Option.bind_some, ih]
      rfl

theorem symbol_iterate (n : ℕ) : (mSHookFunction^[n + 1] {}).symbol = .hook := by
  rw [Function.iterate_succ_apply']
  rfl

theorem old_iterate (n : ℕ) : (mSHookFunction^[n + 2] {}).old = some .hook := by
  rw [Function.iterate_succ_apply']
  exact congrArg some (symbol_iterate n)

/-- What a call comes to that finds `n` installations, as long as somebody
looks one hook deep. -/
theorem called_iterate (n : ℕ) {depth : ℕ} (hdepth : 0 < depth) :
    called (mSHookFunction^[n] {}) hook answer depth (mSHookFunction^[n] {}).symbol =
      if n = 0 then some answer else if n = 1 then some (hook answer) else none := by
  cases n with
  | zero => exact called_original hook answer depth
  | succ n =>
      rw [symbol_iterate]
      cases n with
      | zero =>
          obtain ⟨depth, rfl⟩ := Nat.exists_eq_add_one.mpr hdepth
          show (called (mSHookFunction^[1] {}) hook answer depth .original).map hook =
            some (hook answer)
          rw [called_original]
          rfl
      | succ n => exact called_reentrant hook answer (old_iterate n) depth

end Called

/-- At every moment, whatever was requested: a clock of a process is the
original as long as no thread has come past its installation, the hook over
the original when one has, and from the second one on a call never returns. -/
theorem clock_calls {ms : List (ℕ × Move)} {w : Machine}
    (hrun : machine.run {} ms = some w) (pid : ℕ) (A : Arith) (res : ℤ) {depth : ℕ}
    (hdepth : 0 < depth) :
    (∀ ptv, gettimeofday A (w.process pid).library res ptv depth =
      if (w.process pid).past 1 = 0 then some ((w.process pid).library, res, ptv)
      else if (w.process pid).past 1 = 1 then
        some (newGettimeofday A (w.process pid).library res ptv)
      else none) ∧
    ∀ clkId ptp, clockGettime A (w.process pid).library clkId res ptp depth =
      if (w.process pid).past 2 = 0 then some ((w.process pid).library, res, ptp)
      else if (w.process pid).past 2 = 1 then
        some (newClockGettime A (w.process pid).library clkId res ptp)
      else none := by
  have hcounted := counted_run hrun pid
  refine ⟨fun ptv => ?_, fun clkId ptp => ?_⟩
  · rw [gettimeofday, hcounted.gettimeofday]
    exact called_iterate _ _ _ hdepth
  · rw [clockGettime, hcounted.clockGettime]
    exact called_iterate _ _ _ hdepth

theorem twice_hooked :
    ∃ w, machine.run {} twoAtBind = some w ∧
      gettimeofday .exact (w.process 7).library 0 ⟨1, 0⟩ 1000 = none := by
  have hrun : machine.run {} twoAtBind = some _ := rfl
  exact ⟨_, hrun, (clock_calls hrun 7 .exact 0 (by decide)).1 _⟩

end Elfupspeed.Startup
