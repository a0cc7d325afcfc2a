import Elfupspeed.Src.Startup

/-!
# One server to a port

What a move of a process does is told first, and then what it does to the
ports. A thread asks for the port of its pid, the first that asks gets it, and
one that does not get it ends its process with all that is in it. So what the
kernel keeps of the ports is what the threads of the live processes hold.
-/

namespace Elfupspeed.Startup

open Elfupspeed.Lib Elfupspeed.Speed
open Elfupspeed.ServerClient (port)

/-! ## What a step does -/

/-- How far a thread is. -/
def Stage.done : Stage → ℕ
  | .hookGettimeofday => 0
  | .hookClockGettime => 1
  | .clearIsHooked => 2
  | .socket => 3
  | .bind => 4
  | .listen _ => 5
  | .accept _ => 6

def Stage.port? : Stage → Option ℕ
  | .listen q | .accept q => some q
  | _ => none

/-- The steps of a thread that leave the ports alone. -/
inductive Advance (g : Globals) : Stage → Stage → Globals → Prop
  | gettimeofday : Advance g .hookGettimeofday .hookClockGettime
      { g with gettimeofday := mSHookFunction g.gettimeofday }
  | clockGettime : Advance g .hookClockGettime .clearIsHooked
      { g with clockGettime := mSHookFunction g.clockGettime }
  | cleared : Advance g .clearIsHooked .socket { g with isHooked := false }
  | socket : Advance g .socket .bind g
  | listen (q : ℕ) : Advance g (.listen q) (.accept q) g

/-- What a move of a process does. -/
inductive Stepped (w : Machine) (pid : ℕ) : Move → Machine → Prop
  | idle : Stepped w pid (.hookEntry false) w
  | enters : Stepped w pid (.hookEntry true) (w.put pid { w.process pid with
      threads := (w.process pid).threads ++ [.hookGettimeofday] })
  | advances (i : ℕ) (anyPort : ℕ) (ok : Bool) (s s' : Stage) (g : Globals)
      (hs : (w.process pid).threads[i]? = some s)
      (h : Advance (w.process pid).library s s' g) :
      Stepped w pid (.go i ok anyPort)
        (w.put pid ({ w.process pid with library := g }.at i s'))
  | binds (i : ℕ) (anyPort : ℕ) (hs : (w.process pid).threads[i]? = some .bind)
      (hfree : w.ports (portFor pid anyPort) = none) :
      Stepped w pid (.go i true anyPort)
        ((w.put pid ((w.process pid).at i (.listen (portFor pid anyPort)))).bound
          (portFor pid anyPort) pid i)
  | dies (i : ℕ) (anyPort : ℕ) (ok : Bool) (s : Stage)
      (hs : (w.process pid).threads[i]? = some s)
      (hwhy : ok = false ∨ s = .bind ∧ w.ports (portFor pid anyPort) ≠ none) :
      Stepped w pid (.go i ok anyPort) (w.die pid)
  | asks (i q : ℕ) (result : ℚ)
      (hs : (w.process pid).threads[i]? = some (.accept q)) :
      Stepped w pid (.request i result) (w.put pid { w.process pid with
        library := (setTimeScale (w.process pid).library result).1 })

theorem Stepped.refused {w : Machine} {pid i anyPort : ℕ} {ok : Bool} {s : Stage}
    (hs : (w.process pid).threads[i]? = some s) (hok : ¬ ok = true) :
    Stepped w pid (.go i ok anyPort) (w.die pid) :=
  .dies i anyPort ok s hs (.inl (Bool.eq_false_iff.mpr hok))

theorem stepped_of_go {w w' : Machine} {pid i anyPort : ℕ} {ok : Bool} {s : Stage}
    (hs : (w.process pid).threads[i]? = some s)
    (h : w.go pid i ok anyPort s = some w') :
    Stepped w pid (.go i ok anyPort) w' := by
  cases s with
  | hookGettimeofday =>
      injection h with h
      subst h
      exact .advances i anyPort ok _ _ _ hs .gettimeofday
  | hookClockGettime =>
      injection h with h
      subst h
      exact .advances i anyPort ok _ _ _ hs .clockGettime
  | clearIsHooked =>
      injection h with h
      subst h
      exact .advances i anyPort ok _ _ _ hs .cleared
  | socket =>
      rw [Machine.go] at h
      split at h
      · injection h with h
        subst h
        exact .advances i anyPort ok _ _ _ hs .socket
      · next hok =>
          injection h with h
          subst h
          exact .refused hs hok
  | bind =>
      rw [Machine.go] at h
      simp only [Bool.and_eq_true, Option.isNone_iff_eq_none] at h
      split at h
      · next hfree =>
          injection h with h
          subst h
          obtain ⟨rfl, hfree⟩ := hfree
          exact .binds i anyPort hs hfree
      · next hnot =>
          injection h with h
          subst h
          refine .dies i anyPort ok _ hs ?_
          cases ok with
          | true => exact .inr ⟨rfl, fun hfree => hnot ⟨rfl, hfree⟩⟩
          | false => exact .inl rfl
  | listen q =>
      rw [Machine.go] at h
      split at h
      · injection h with h
        subst h
        exact .advances i anyPort ok _ _ _ hs (.listen q)
      · next hok =>
          injection h with h
          subst h
          exact .refused hs hok
  | accept q =>
      rw [Machine.go] at h
      split at h
      · cases h
      · next hok =>
          injection h with h
          subst h
          exact .refused hs hok

theorem stepped_of_step {w w' : Machine} {pid : ℕ} {m : Move}
    (h : w.step (pid, m) = some w') :
    (w.process pid).exited = false ∧ Stepped w pid m w' := by
  rw [Machine.step] at h
  split at h
  · cases h
  · next hexited =>
      refine ⟨Bool.eq_false_iff.mpr hexited, ?_⟩
      cases m with
      | hookEntry created =>
          cases created with
          | true =>
              injection h with h
              subst h
              exact .enters
          | false =>
              injection h with h
              subst h
              exact .idle
      | go i ok anyPort =>
          obtain ⟨s, hs, hgo⟩ := Option.bind_eq_some_iff.mp h
          exact stepped_of_go hs hgo
      | request i result =>
          obtain ⟨s, hs, hask⟩ := Option.bind_eq_some_iff.mp h
          cases s with
          | accept q =>
              injection hask with hask
              subst hask
              exact .asks i q result hs
          | hookGettimeofday | hookClockGettime | clearIsHooked | socket | bind
          | listen => cases hask

section Process

variable {w w' : Machine} {p : Process} {pid i : ℕ} {s s' : Stage} {m : Move}

theorem put_self (w : Machine) (pid : ℕ) (p : Process) :
    (w.put pid p).process pid = p := by
  show Function.update w.process pid p pid = p
  exact Function.update_self pid p w.process

theorem put_of_ne (w : Machine) (p : Process) {pid' : ℕ} (h : pid' ≠ pid) :
    (w.put pid p).process pid' = w.process pid' := by
  show Function.update w.process pid p pid' = w.process pid'
  exact Function.update_of_ne h p w.process

theorem die_self (w : Machine) (pid : ℕ) :
    (w.die pid).process pid = { w.process pid with exited := true } := by
  show Function.update w.process pid _ pid = _
  exact Function.update_self pid _ w.process

theorem die_of_ne (w : Machine) {pid' : ℕ} (h : pid' ≠ pid) :
    (w.die pid).process pid' = w.process pid' := by
  show Function.update w.process pid _ pid' = _
  exact Function.update_of_ne h _ w.process

theorem bound_process (w : Machine) (q pid i : ℕ) :
    (w.bound q pid i).process = w.process := rfl

theorem Stepped.other (h : Stepped w pid m w') {pid' : ℕ} (hne : pid' ≠ pid) :
    w'.process pid' = w.process pid' := by
  cases h with
  | idle => rfl
  | enters | advances | asks => exact put_of_ne w _ hne
  | binds => exact put_of_ne w _ hne
  | dies => exact die_of_ne w hne

/-- The port that the socket of a thread is bound to. -/
def Process.portOf (p : Process) (i : ℕ) : Option ℕ :=
  p.threads[i]?.bind Stage.port?

theorem portOf_eq (hs : p.threads[i]? = some s) : p.portOf i = s.port? := by
  rw [Process.portOf, hs]
  rfl

theorem portOf_at (hs : p.threads[i]? = some s) (j : ℕ) :
    (p.at i s').portOf j = if j = i then s'.port? else p.portOf j := by
  have hlt := (List.getElem?_eq_some_iff.mp hs).1
  rw [Process.portOf, Process.at, List.getElem?_set]
  split
  · next hij =>
      subst hij
      simp
  · next hij =>
      rw [if_neg (Ne.symm hij)]
      rfl

theorem portOf_entered (p : Process) (j : ℕ) :
    ({ p with threads := p.threads ++ [.hookGettimeofday] } : Process).portOf j =
      p.portOf j := by
  simp only [Process.portOf, List.getElem?_append]
  split
  · rfl
  · next hlt =>
      rw [List.getElem?_eq_none (Nat.le_of_not_lt hlt)]
      cases j - p.threads.length with
      | zero => rfl
      | succ => rfl

theorem portOf_advanced {g g' : Globals} (hs : p.threads[i]? = some s)
    (h : Advance g s s' g') (j : ℕ) :
    ({ p with library := g' }.at i s').portOf j = p.portOf j := by
  have hs' : ({ p with library := g' } : Process).threads[i]? = some s := hs
  have hport : s'.port? = s.port? := by
    cases h <;> rfl
  rw [portOf_at hs']
  split
  · next hj =>
      rw [hj, hport]
      exact (portOf_eq hs).symm
  · rfl

/-- A socket was bound before, or it is bound now. -/
theorem Stepped.portOf (h : Stepped w pid m w') {j q : ℕ}
    (hq : (w'.process pid).portOf j = some q) :
    (w.process pid).portOf j = some q ∨
      ∃ anyPort, m = .go j true anyPort ∧ q = portFor pid anyPort := by
  cases h with
  | idle => exact .inl hq
  | enters =>
      rw [put_self, portOf_entered] at hq
      exact .inl hq
  | advances i anyPort ok s s' g hs hadv =>
      rw [put_self, portOf_advanced hs hadv] at hq
      exact .inl hq
  | binds i anyPort hs hfree =>
      rw [bound_process, put_self, portOf_at hs] at hq
      split at hq
      · next hj =>
          injection hq with hq
          exact .inr ⟨anyPort, by rw [hj], hq.symm⟩
      · exact .inl hq
  | dies =>
      rw [die_self] at hq
      exact .inl hq
  | asks =>
      rw [put_self] at hq
      exact .inl hq

end Process

/-! ## The ports -/

def Machine.Holds (w : Machine) (pid i q : ℕ) : Prop :=
  (w.process pid).exited = false ∧ (w.process pid).portOf i = some q

/-- The table of the ports is right. -/
def Tabled (w : Machine) : Prop :=
  ∀ q pid i, w.ports q = some (pid, i) ↔ w.Holds pid i q

/-- A server is on the port that its pid asks for. -/
def OwnPorts (w : Machine) : Prop :=
  ∀ pid : ℕ, port pid ≠ 0 → ∀ i q, (w.process pid).portOf i = some q → q = port pid

section Ports

variable {w w' : Machine} {p : Process} {pid i q : ℕ} {s s' : Stage} {m : Move}

theorem OwnPorts.stepped (h : OwnPorts w) (hstep : Stepped w pid m w') :
    OwnPorts w' := by
  intro pid' hne i q hq
  by_cases hpid : pid' = pid
  · subst hpid
    rcases hstep.portOf hq with hq | ⟨anyPort, -, rfl⟩
    · exact h pid' hne i q hq
    · rw [portFor, if_neg hne]
  · rw [hstep.other hpid] at hq
    exact h pid' hne i q hq

/-- A process that goes on as it was bound leaves the table right. -/
theorem Tabled.put (h : Tabled w) (hexited : p.exited = (w.process pid).exited)
    (hports : ∀ i, p.portOf i = (w.process pid).portOf i) :
    Tabled (w.put pid p) := by
  intro q pid' i
  refine (h q pid' i).trans ?_
  by_cases hpid : pid' = pid
  · subst hpid
    rw [Machine.Holds, Machine.Holds, put_self, hexited, hports]
  · rw [Machine.Holds, Machine.Holds, put_of_ne w p hpid]

/-- Who holds what when a socket was bound. -/
theorem holds_bound (hexited : (w.process pid).exited = false)
    (hs : (w.process pid).threads[i]? = some .bind) (pid' j q' : ℕ) :
    ((w.put pid ((w.process pid).at i (.listen q))).bound q pid i).Holds pid' j q' ↔
      w.Holds pid' j q' ∨ pid' = pid ∧ j = i ∧ q' = q := by
  rw [Machine.Holds, bound_process]
  by_cases hpid : pid' = pid
  · subst hpid
    rw [put_self, portOf_at hs, Machine.Holds]
    show (w.process pid').exited = false ∧ _ ↔ _
    by_cases hj : j = i
    · subst hj
      have hnone : (w.process pid').portOf j = none := portOf_eq hs
      simp [hexited, hnone, Stage.port?, eq_comm]
    · simp [hj]
  · rw [put_of_ne w _ hpid]
    simp [hpid, Machine.Holds]

theorem Tabled.bind (h : Tabled w) (hexited : (w.process pid).exited = false)
    (hs : (w.process pid).threads[i]? = some .bind) (hfree : w.ports q = none) :
    Tabled ((w.put pid ((w.process pid).at i (.listen q))).bound q pid i) := by
  intro q' pid' j
  rw [holds_bound hexited hs, ← h q' pid' j]
  show Function.update w.ports q _ q' = some (pid', j) ↔ _
  by_cases hq : q' = q
  · rw [hq, Function.update_self, hfree]
    simp [eq_comm]
  · rw [Function.update_of_ne hq]
    simp [hq]

/-- What is left of the table when a process is gone. -/
theorem ports_die (h : Tabled w) (pid pid' j q : ℕ) :
    (w.die pid).ports q = some (pid', j) ↔ pid' ≠ pid ∧ w.Holds pid' j q := by
  rw [← h q pid' j]
  show (if (w.ports q).any fun owner => owner.1 = pid then none else w.ports q) = _ ↔ _
  cases hq : w.ports q with
  | none => simp
  | some owner =>
      obtain ⟨owner, thread⟩ := owner
      by_cases hown : owner = pid
      · subst hown
        refine iff_of_false (by simp) fun hboth => ?_
        obtain ⟨hne, heq⟩ := hboth
        injection heq with heq
        exact hne (Prod.ext_iff.mp heq).1.symm
      · simp only [Option.any_some, hown, decide_false, Bool.false_eq_true,
          if_false, Option.some.injEq, Prod.mk.injEq]
        exact ⟨fun heq => ⟨fun h => hown (heq.1.trans h), heq⟩, And.right⟩

theorem Tabled.die (h : Tabled w) (pid : ℕ) : Tabled (w.die pid) := by
  intro q pid' j
  rw [ports_die h, Machine.Holds, Machine.Holds]
  by_cases hpid : pid' = pid
  · subst hpid
    rw [die_self]
    simp
  · rw [die_of_ne w hpid]
    simp [hpid]

theorem Tabled.stepped (h : Tabled w) (hexited : (w.process pid).exited = false)
    (hstep : Stepped w pid m w') : Tabled w' := by
  cases hstep with
  | idle => exact h
  | enters => exact h.put rfl (portOf_entered _)
  | advances i anyPort ok s s' g hs hadv =>
      exact h.put rfl (portOf_advanced hs hadv)
  | binds i anyPort hs hfree => exact h.bind hexited hs hfree
  | dies => exact h.die pid
  | asks => exact h.put rfl fun _ => rfl

theorem tabled_run {ms : List (ℕ × Move)} (hrun : machine.run {} ms = some w) :
    Tabled w ∧ OwnPorts w := by
  refine machine.run_inv (I := fun w => Tabled w ∧ OwnPorts w)
    (fun w m w' hw hm => ?_) ⟨?_, ?_⟩ hrun
  · obtain ⟨hexited, hstep⟩ := stepped_of_step hm
    exact ⟨hw.1.stepped hexited hstep, hw.2.stepped hstep⟩
  · intro q pid i
    simp [Machine.Holds, Process.portOf]
  · intro pid _ i q hq
    cases hq

end Ports

/-- At every moment, however the processes and their threads interleave: no
two sockets are bound to one port; and where a pid asks for a port, the server
of the process is on that port, and there is one at most. -/
theorem one_server {ms : List (ℕ × Move)} {w : Machine}
    (hrun : machine.run {} ms = some w) :
    (∀ pid pid' i j q, w.Holds pid i q → w.Holds pid' j q → pid = pid' ∧ i = j) ∧
    ∀ pid : ℕ, port pid ≠ 0 → ∀ i j q q', w.Holds pid i q → w.Holds pid j q' →
      i = j ∧ q = port pid := by
  obtain ⟨htabled, hown⟩ := tabled_run hrun
  have hone : ∀ pid pid' i j q, w.Holds pid i q → w.Holds pid' j q →
      pid = pid' ∧ i = j := by
    intro pid pid' i j q hi hj
    have heq := ((htabled q pid i).mpr hi).symm.trans ((htabled q pid' j).mpr hj)
    injection heq with heq
    exact Prod.ext_iff.mp heq
  refine ⟨hone, fun pid hne i j q q' hi hj => ?_⟩
  have hq : q = port pid := hown pid hne i q hi.2
  have hq' : q' = port pid := hown pid hne j q' hj.2
  rw [hq] at hi
  rw [hq'] at hj
  exact ⟨(hone pid pid i j _ hi hj).2, hq⟩

/-- A process is entered once, and its thread comes through. -/
def through (pid : ℕ) : List (ℕ × Move) :=
  (pid, .hookEntry true) :: List.replicate 6 (pid, .go 0 true 0)

/-- A process is entered twice, and the threads come as far as to `bind`. -/
def twoAtBind : List (ℕ × Move) :=
  [(7, .hookEntry true), (7, .hookEntry true)] ++
    List.replicate 4 (7, .go 0 true 0) ++ List.replicate 4 (7, .go 1 true 0)

theorem second_without_port :
    ∃ w, machine.run {} (twoAtBind ++ [(7, .go 0 true 0)]) = some w ∧
      w.Holds 7 0 7 ∧ ¬ w.Holds 7 1 7 := by
  have hrun : machine.run {} (twoAtBind ++ [(7, .go 0 true 0)]) = some _ := rfl
  refine ⟨_, hrun, ⟨rfl, rfl⟩, fun hsecond => ?_⟩
  have hsame := (one_server hrun).1 7 7 0 1 7 ⟨rfl, rfl⟩ hsecond
  exact absurd hsame.2 (by decide)

end Elfupspeed.Startup
