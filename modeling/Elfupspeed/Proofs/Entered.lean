import Elfupspeed.Proofs.Hooks
import Elfupspeed.Proofs.Installed
import Mathlib.Algebra.Order.BigOperators.Group.List

/-!
# What becomes of a process that is entered

A process is there for good once its threads are in their accept loops. Two of
them would hold one port, so there is one at most, which has installed the
hooks once. And where the kernel has no objections of its own this is the only
thing that ends a process: a second thread in it.
-/

namespace Elfupspeed.Startup

open Elfupspeed.Lib Elfupspeed.Speed
open Elfupspeed.ServerClient (port)

/-! ## Alive at the end -/

/-- No call that a thread makes would get it any further. -/
def Machine.Settled (w : Machine) (pid : ℕ) : Prop :=
  ∀ i anyPort, w.step (pid, .go i true anyPort) = none

section Settled

variable {w w' : Machine} {pid i : ℕ} {s : Stage} {m : Move}

theorem go_eq_none {anyPort : ℕ} (h : w.go pid i true anyPort s = none) :
    ∃ q, s = .accept q := by
  cases s with
  | hookGettimeofday | hookClockGettime | clearIsHooked | socket | listen => cases h
  | bind =>
      rw [Machine.go] at h
      split at h <;> cases h
  | accept q => exact ⟨q, rfl⟩

/-- In a process that is there and has settled all threads are in their accept
loops. -/
theorem accept_of_settled (h : w.Settled pid) (halive : (w.process pid).exited = false)
    (hs : (w.process pid).threads[i]? = some s) : ∃ q, s = .accept q := by
  have hnone := h i 0
  rw [Machine.step, halive] at hnone
  have hgo : ((w.process pid).threads[i]?.bind (w.go pid i true 0)) = none := hnone
  rw [hs] at hgo
  exact go_eq_none hgo

theorem Counted.untouched {p : Process} (h : Counted p) (hnone : p.threads = []) :
    Untouched p.library := by
  have hpast : ∀ k, p.past k = 0 := by
    intro k
    rw [Process.past, hnone]
    rfl
  refine ⟨?_, ?_, ?_⟩
  · rw [h.isHooked, hpast]
    rfl
  · rw [h.gettimeofday, hpast]
    rfl
  · rw [h.clockGettime, hpast]
    rfl

theorem Counted.installed {p : Process} (h : Counted p) {q : ℕ}
    (hone : p.threads = [.accept q]) : Installed p.library := by
  have hpast : ∀ k ≤ 6, p.past k = 1 := by
    intro k hk
    rw [Process.past, hone]
    show (if k ≤ 6 then 1 else 0) + 0 = 1
    rw [if_pos hk, Nat.add_zero]
  refine ⟨?_, ?_, ?_⟩
  · rw [h.isHooked, hpast 3 (by decide)]
    rfl
  · rw [h.gettimeofday, hpast 1 (by decide)]
    rfl
  · rw [h.clockGettime, hpast 2 (by decide)]
    rfl

/-- A process that comes out of its start alive, whatever was refused on the
way, was entered once at most: it has one server, on the port of its pid, and
hooks that call the originals; or it has no thread, and no hooks. -/
theorem settled_once {ms : List (ℕ × Move)} (hrun : machine.run {} ms = some w)
    (hport : port pid ≠ 0) (hsettled : w.Settled pid)
    (halive : (w.process pid).exited = false) :
    (w.process pid).threads = [] ∧ Untouched (w.process pid).library ∨
      (w.process pid).threads = [.accept (port pid)] ∧
        Installed (w.process pid).library := by
  have hcounted := counted_run hrun pid
  have hholds : ∀ i s, (w.process pid).threads[i]? = some s →
      s = .accept (port pid) ∧ w.Holds pid i (port pid) := by
    intro i s hs
    obtain ⟨q, rfl⟩ := accept_of_settled hsettled halive hs
    have hq : (w.process pid).portOf i = some q := portOf_eq hs
    obtain rfl := (tabled_run hrun).2 pid hport i q hq
    exact ⟨rfl, halive, hq⟩
  cases hthreads : (w.process pid).threads with
  | nil => exact .inl ⟨rfl, hcounted.untouched hthreads⟩
  | cons s rest =>
      rw [hthreads] at hholds
      obtain ⟨rfl, hfirst⟩ := hholds 0 s rfl
      cases rest with
      | nil => exact .inr ⟨rfl, hcounted.installed hthreads⟩
      | cons s' rest =>
          obtain ⟨-, hsecond⟩ := hholds 1 s' rfl
          obtain ⟨-, hsame⟩ := (one_server hrun).1 _ _ _ _ _ hfirst hsecond
          cases hsame

end Settled

theorem once_installed :
    ∃ w, machine.run {} (through 7) = some w ∧ Installed (w.process 7).library := by
  have hrun : machine.run {} (through 7) = some _ := rfl
  have hport : port (7 : ℕ) ≠ 0 := by decide
  refine ⟨_, hrun, ?_⟩
  rcases settled_once hrun hport (fun i _ => by cases i <;> rfl) rfl with h | h
  · cases h.1
  · exact h.2

/-! ## Who lives to the end -/

/-- Whether a move starts a thread of the process. -/
def entering (pid : ℕ) : ℕ × Move → ℕ
  | (pid', .hookEntry true) => if pid' = pid then 1 else 0
  | (_, .hookEntry false) | (_, .go ..) | (_, .request ..) => 0

/-- Whether a move is a thread's of the process on its way. -/
def going (pid : ℕ) : ℕ × Move → ℕ
  | (pid', .go ..) => if pid' = pid then 1 else 0
  | (_, .hookEntry _) | (_, .request ..) => 0

/-- The kernel refuses no call of the process for another reason than a port
that is taken, and nobody else is given its port. -/
def Granted (pid : ℕ) : ℕ × Move → Prop
  | (pid', .go _ ok anyPort) =>
      if pid' = pid then ok = true else portFor pid' anyPort ≠ port pid
  | (_, .hookEntry _) | (_, .request ..) => True

/-- How many more turns the threads of a process can have. -/
def Process.work (p : Process) : ℕ :=
  if p.exited then 0 else (p.threads.map fun s => 7 - s.done).sum

/-- The process has its port for itself, and if it is gone, two threads were in
it. -/
structure Alone (pid : ℕ) (w : Machine) : Prop where
  tabled : Tabled w
  unheld : ∀ pid' i, pid' ≠ pid → (w.process pid').portOf i ≠ some (port pid)
  exited : (w.process pid).exited = true → 2 ≤ (w.process pid).threads.length

section Survival

variable {w w' : Machine} {pid i : ℕ} {m : Move}

theorem Stepped.length (h : Stepped w pid m w') (pid' : ℕ) :
    (w'.process pid').threads.length =
      (w.process pid').threads.length + entering pid' (pid, m) := by
  by_cases hpid : pid' = pid
  · subst hpid
    cases h with
    | idle => rfl
    | enters =>
        rw [put_self, List.length_append, entering, if_pos rfl]
        rfl
    | advances i anyPort ok s s' g hs hadv =>
        rw [put_self]
        exact List.length_set
    | binds i anyPort hs hfree =>
        rw [bound_process, put_self]
        exact List.length_set
    | dies =>
        rw [die_self]
        rfl
    | asks =>
        rw [put_self]
        rfl
  · rw [h.other hpid]
    cases h with
    | enters =>
        rw [entering, if_neg (Ne.symm hpid)]
        rfl
    | idle | advances | binds | dies | asks => rfl

theorem done_le (s : Stage) : s.done ≤ 6 := by
  cases s <;> simp [Stage.done]

theorem work_pos {p : Process} {s : Stage} (hs : p.threads[i]? = some s)
    (halive : p.exited = false) : 1 ≤ p.work := by
  have hle := done_le s
  have hmem : 7 - s.done ∈ p.threads.map fun s => 7 - s.done :=
    List.mem_map_of_mem (List.mem_of_getElem? hs)
  rw [Process.work, halive]
  exact Nat.le_trans (by omega) (List.le_sum_of_mem hmem)

theorem work_next {p p' : Process} {s s' : Stage} (hs : p.threads[i]? = some s)
    (halive : p.exited = false) (hnext : s'.done = s.done + 1)
    (hexited : p'.exited = p.exited) (hthreads : p'.threads = p.threads.set i s') :
    1 + p'.work = p.work := by
  have hset := sum_map_set hs (fun s => 7 - s.done) s'
  have hle := done_le s'
  rw [Process.work, Process.work, hexited, halive, hthreads]
  simp only [Bool.false_eq_true, if_false]
  omega

theorem Stepped.work (h : Stepped w pid m w') (halive : (w.process pid).exited = false)
    (pid' : ℕ) :
    going pid' (pid, m) + (w'.process pid').work ≤
      (w.process pid').work + 7 * entering pid' (pid, m) := by
  by_cases hpid : pid' = pid
  · subst hpid
    cases h with
    | idle => exact Nat.le_of_eq (Nat.zero_add _)
    | enters =>
        rw [put_self, going, entering, if_pos rfl, Process.work, Process.work]
        simp only [halive, Bool.false_eq_true, if_false, List.map_append, List.sum_append]
        show 0 + (_ + 7) ≤ _ + 7
        omega
    | advances i anyPort ok s s' g hs hadv =>
        have hnext : s'.done = s.done + 1 := by
          cases hadv <;> rfl
        rw [put_self, going, if_pos rfl]
        refine (work_next hs halive hnext ?_ ?_).le.trans (Nat.le_add_right _ _)
        · rfl
        · rfl
    | binds i anyPort hs hfree =>
        have hnext : (Stage.listen (portFor pid' anyPort)).done =
            Stage.bind.done + 1 := rfl
        rw [bound_process, put_self, going, if_pos rfl]
        refine (work_next hs halive hnext ?_ ?_).le.trans (Nat.le_add_right _ _)
        · rfl
        · rfl
    | dies i anyPort ok s hs hwhy =>
        rw [die_self, going, if_pos rfl]
        exact (work_pos hs halive).trans (Nat.le_add_right _ _)
    | asks =>
        rw [put_self]
        exact Nat.le_of_eq (Nat.zero_add _)
  · rw [h.other hpid]
    have hnone : going pid' (pid, m) = 0 := by
      cases m <;> simp [going, Ne.symm hpid]
    omega

/-- Where its port is taken, another thread of the process has it. -/
theorem Alone.second_thread (h : Alone pid w) {q : ℕ} (hq : q = port pid)
    (hs : (w.process pid).threads[i]? = some .bind) (htaken : w.ports q ≠ none) :
    2 ≤ (w.process pid).threads.length := by
  obtain ⟨owner, howner⟩ := Option.ne_none_iff_exists'.mp htaken
  obtain ⟨pid', j⟩ := owner
  obtain ⟨-, hport⟩ := (h.tabled q pid' j).mp howner
  rw [hq] at hport
  obtain rfl : pid' = pid := by
    by_contra hne
    exact h.unheld pid' j hne hport
  have hne : j ≠ i := by
    rintro rfl
    rw [portOf_eq hs] at hport
    cases hport
  rw [Process.portOf] at hport
  obtain ⟨s, hj, -⟩ := Option.bind_eq_some_iff.mp hport
  have hi := (List.getElem?_eq_some_iff.mp hs).1
  have hj := (List.getElem?_eq_some_iff.mp hj).1
  omega

theorem Alone.stepped {pid' : ℕ} (h : Alone pid w) (hport : port pid ≠ 0)
    (halive : (w.process pid').exited = false) (hstep : Stepped w pid' m w')
    (hgranted : Granted pid (pid', m)) : Alone pid w' := by
  refine ⟨h.tabled.stepped halive hstep, fun other i hne hother => ?_, fun hgone => ?_⟩
  · by_cases heq : other = pid'
    · subst heq
      rcases hstep.portOf hother with hbefore | ⟨anyPort, rfl, hq⟩
      · exact h.unheld other i hne hbefore
      · rw [Granted, if_neg hne] at hgranted
        exact hgranted hq.symm
    · rw [hstep.other heq] at hother
      exact h.unheld other i hne hother
  · by_cases heq : pid = pid'
    · subst heq
      rw [hstep.length]
      refine Nat.le_trans ?_ (Nat.le_add_right _ _)
      cases hstep with
      | dies i anyPort ok s hs hwhy =>
          rw [Granted, if_pos rfl] at hgranted
          rcases hwhy with hrefused | ⟨rfl, htaken⟩
          · rw [hgranted] at hrefused
            cases hrefused
          · refine h.second_thread ?_ hs htaken
            rw [portFor, if_neg hport]
      | idle => exact absurd (halive.symm.trans hgone) Bool.false_ne_true
      | enters | advances | asks =>
          rw [put_self] at hgone
          exact absurd (halive.symm.trans hgone) Bool.false_ne_true
      | binds =>
          rw [bound_process, put_self] at hgone
          exact absurd (halive.symm.trans hgone) Bool.false_ne_true
    · rw [hstep.other heq] at hgone ⊢
      exact h.exited hgone

end Survival

/-- How many threads of the process were started. -/
def entries (pid : ℕ) (ms : List (ℕ × Move)) : ℕ := (ms.map (entering pid)).sum

end Elfupspeed.Startup
