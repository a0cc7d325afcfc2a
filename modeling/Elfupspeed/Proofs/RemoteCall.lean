import Elfupspeed.Src.Elfinject

/-!
# What a remote call comes to

The answers to a remote call decide what becomes of it before it is made: the
loop of `ptrace_call` ends at the first stop with the status of a target that
returned, provided that every `ptrace_continue` before it worked. `result`
reads this off the answers, and the lemmas here show that the calls of
`elfinject.c` come to just that. A call that returns leaves the target as it
stood at that stop; whatever happens, the target stays attached.
-/

namespace Elfupspeed.Elfinject

open Elfupspeed.Lib

variable {R : Type}

inductive CallResult (R : Type)
  | returned (s : Stop R)
  | failed
  | waiting

/-- How the loop that waits for the target ends. -/
def firstStop : List (Option (Stop R) × Bool) → CallResult R
  | [] => .waiting
  | (some s, continueOk) :: waits =>
      if s.stat = 0xb7f then .returned s
      else if continueOk then firstStop waits else .failed
  | (none, continueOk) :: waits =>
      if continueOk then firstStop waits else .failed

def CallEnv.stop (env : CallEnv R) : CallResult R :=
  if env.setregsOk && env.continueOk then firstStop env.waits else .failed

/-- How the wrapper ends, which reads the registers back. -/
def CallEnv.result (env : CallEnv R) : CallResult R :=
  match env.stop with
  | .returned s => if env.getregsOk then .returned s else .failed
  | .failed => .failed
  | .waiting => .waiting

/-- What the loop, and `ptrace_call` with it, gives: `none` is -1. -/
def CallResult.value : CallResult R → Except Halt (Option (Stop R))
  | .returned s => .ok (some s)
  | .failed => .ok none
  | .waiting => .error .waiting

def Target.stopAt (t : Target R) (s : Stop R) : Target R :=
  { t with regs := s.regs, mem := s.mem }

/-! ## The target stays attached -/

def SameTraced (t t' : Target R) : Prop := t'.traced = t.traced

instance : Std.Refl (SameTraced (R := R)) := ⟨fun _ => rfl⟩

instance : IsTrans (Target R) SameTraced :=
  ⟨fun _ _ _ h₁ h₂ => h₂.trans h₁⟩

def SameCalls (t t' : Target R) : Prop := t'.calls = t.calls

instance : Std.Refl (SameCalls (R := R)) := ⟨fun _ => rfl⟩

instance : IsTrans (Target R) SameCalls :=
  ⟨fun _ _ _ h₁ h₂ => h₂.trans h₁⟩

section Keeps

/-! `ptrace_call` touches the registers and the memory only. -/

variable {S : Target R → Target R → Prop} [Std.Refl S] [IsTrans (Target R) S]

theorem waitpid_keeps
    (h : ∀ t (regs : R) (mem : Mem), S t { t with regs := regs, mem := mem })
    (wait : Option (Stop R)) (stat : ℤ) : Prog.Keeps S (waitpid wait stat) := by
  cases wait with
  | none => exact Prog.keeps_pure stat
  | some s =>
      exact Prog.keeps_bind (Prog.keeps_modify fun t => h t s.regs s.mem)
        fun _ => Prog.keeps_pure s.stat

theorem waitLoop_keeps
    (h : ∀ t (regs : R) (mem : Mem), S t { t with regs := regs, mem := mem })
    (waits : List (Option (Stop R) × Bool)) (stat : ℤ) :
    Prog.Keeps S (waitLoop waits stat) := by
  induction waits generalizing stat with
  | nil => exact Prog.keeps_exit Halt.waiting
  | cons w waits ih =>
      refine Prog.keeps_bind (waitpid_keeps h w.1 stat) fun stat' => ?_
      split
      · exact Prog.keeps_pure true
      · split
        · exact ih stat'
        · exact Prog.keeps_pure false

theorem ptraceCall_keeps
    (h : ∀ t (regs : R) (mem : Mem), S t { t with regs := regs, mem := mem })
    (arch : Arch R) (env : CallEnv R) (addr : Word) (params : List Word)
    (regs : R) : Prog.Keeps S (ptraceCall arch env addr params regs) := by
  refine Prog.keeps_bind Prog.keeps_get fun t => ?_
  refine Prog.keeps_bind (Prog.keeps_modify fun t => h t t.regs _) fun _ => ?_
  split
  · refine Prog.keeps_bind (Prog.keeps_modify fun t => h t _ t.mem) fun _ => ?_
    split
    · exact waitLoop_keeps h env.waits 0
    · exact Prog.keeps_pure false
  · exact Prog.keeps_pure false

end Keeps

theorem ptraceCallWrapper_keeps (arch : Arch R) (env : CallEnv R)
    (name : FuncName) (addr : Word) (params : List Word) (regs : R) :
    Prog.Keeps SameTraced
      (ptraceCallWrapper arch env name addr params regs) := by
  refine Prog.keeps_bind
    (ptraceCall_keeps (fun _ _ _ => rfl) arch env addr params regs) fun ok => ?_
  split
  · refine Prog.keeps_bind (Prog.keeps_modify fun _ => rfl) fun _ => ?_
    refine Prog.keeps_bind Prog.keeps_get fun t => ?_
    split
    · exact Prog.keeps_pure _
    · exact Prog.keeps_pure none
  · exact Prog.keeps_pure none

theorem callOrExit_keeps {arch : Arch R} {env : Env R} {call : CallEnv R}
    {name : FuncName} {addr : Word} {params : List Word} {regs : R} {ret : ℤ} :
    Prog.Keeps SameTraced
      (callOrExit arch env call name addr params regs ret) := by
  refine Prog.keeps_bind
    (ptraceCallWrapper_keeps arch call name addr params regs) fun r => ?_
  cases r with
  | none => exact Prog.keeps_exit (env.failure ret)
  | some regs => exact Prog.keeps_pure regs

/-! ## How a call ends -/

theorem waitpid_run (wait : Option (Stop R)) (stat : ℤ) (t : Target R) :
    (waitpid wait stat).run t =
      (.ok (wait.elim stat Stop.stat), wait.elim t t.stopAt) := by
  cases wait with
  | none => rfl
  | some s => rfl

/-- A round whose `waitpid` fails, behind a status that is not a return's. -/
theorem waitLoop_none {stat : ℤ} (hstat : stat ≠ 0xb7f) (continueOk : Bool)
    (waits : List (Option (Stop R) × Bool)) (t : Target R) :
    (waitLoop ((none, continueOk) :: waits) stat).run t =
      if continueOk then (waitLoop waits stat).run t else (.ok false, t) := by
  rw [waitLoop, Prog.run_bind_ok (waitpid_run none stat t), Option.elim_none,
    Option.elim_none, if_neg hstat]
  cases continueOk with
  | true => rfl
  | false => rfl

/-- A round that is told of a stop. -/
theorem waitLoop_some (s : Stop R) (continueOk : Bool)
    (waits : List (Option (Stop R) × Bool)) (stat : ℤ) (t : Target R) :
    (waitLoop ((some s, continueOk) :: waits) stat).run t =
      if s.stat = 0xb7f then (.ok true, t.stopAt s)
      else if continueOk then (waitLoop waits s.stat).run (t.stopAt s)
      else (.ok false, t.stopAt s) := by
  rw [waitLoop, Prog.run_bind_ok (waitpid_run (some s) stat t), Option.elim_some,
    Option.elim_some]
  split
  · rfl
  · cases continueOk with
    | true => rfl
    | false => rfl

/-- The loop as its answers say. The status it carries into a round is never
that of a return, so a `waitpid` that fails goes round. -/
theorem waitLoop_run (waits : List (Option (Stop R) × Bool)) {stat : ℤ}
    (hstat : stat ≠ 0xb7f) (t : Target R) :
    ∃ t', (waitLoop waits stat).run t =
        ((firstStop waits).value.map Option.isSome, t') ∧
      ∀ s, firstStop waits = .returned s → t' = t.stopAt s := by
  induction waits generalizing stat t with
  | nil => exact ⟨t, rfl, fun s hs => by cases hs⟩
  | cons w waits ih =>
      obtain ⟨wait, continueOk⟩ := w
      cases wait with
      | none =>
          rw [waitLoop_none hstat]
          cases continueOk with
          | true => exact ih hstat t
          | false => exact ⟨t, rfl, fun s hs => by cases hs⟩
      | some s =>
          rw [waitLoop_some, firstStop]
          by_cases hs : s.stat = 0xb7f
          · rw [if_pos hs, if_pos hs]
            refine ⟨t.stopAt s, rfl, fun s' hs' => ?_⟩
            injection hs' with hs'
            rw [hs']
          · rw [if_neg hs, if_neg hs]
            cases continueOk with
            | true => exact ih hs (t.stopAt s)
            | false => exact ⟨t.stopAt s, rfl, fun s' hs' => by cases hs'⟩

/-- A call whose target could be resumed has come to the loop. -/
theorem ptraceCall_of_resumed {arch : Arch R} {env : CallEnv R}
    (hset : env.setregsOk = true) (hcont : env.continueOk = true) (addr : Word)
    (params : List Word) (regs : R) (t : Target R) :
    (ptraceCall arch env addr params regs).run t =
      (waitLoop env.waits 0).run { t with
        mem := (arch.enter t.mem regs addr params).2
        regs := (arch.enter t.mem regs addr params).1 } := by
  rw [ptraceCall, Prog.run_bind_ok (Prog.run_get t)]
  simp only
  rw [Prog.run_bind_ok (Prog.run_modify _ t), if_pos hset,
    Prog.run_bind_ok (Prog.run_modify _ _), if_pos hcont]

theorem ptraceCall_of_not_resumed {env : CallEnv R}
    (h : ¬ (env.setregsOk = true ∧ env.continueOk = true)) (arch : Arch R)
    (addr : Word) (params : List Word) (regs : R) (t : Target R) :
    ∃ t', (ptraceCall arch env addr params regs).run t = (.ok false, t') := by
  rw [ptraceCall, Prog.run_bind_ok (Prog.run_get t)]
  simp only
  rw [Prog.run_bind_ok (Prog.run_modify _ t)]
  cases hset : env.setregsOk with
  | false => exact ⟨_, rfl⟩
  | true =>
      have hcont : env.continueOk ≠ true := fun hcont => h ⟨hset, hcont⟩
      rw [if_pos rfl, Prog.run_bind_ok (Prog.run_modify _ _), if_neg hcont]
      exact ⟨_, rfl⟩

theorem ptraceCall_run (arch : Arch R) (env : CallEnv R) (addr : Word)
    (params : List Word) (regs : R) (t : Target R) :
    ∃ t', (ptraceCall arch env addr params regs).run t =
        (env.stop.value.map Option.isSome, t') ∧
      ∀ s, env.stop = .returned s → t' = t.stopAt s := by
  by_cases h : env.setregsOk = true ∧ env.continueOk = true
  · rw [ptraceCall_of_resumed h.1 h.2, CallEnv.stop, h.1, h.2]
    exact waitLoop_run env.waits (by omega) _
  · obtain ⟨t', hrun⟩ := ptraceCall_of_not_resumed h arch addr params regs t
    have hstop : env.stop = .failed := by
      rw [CallEnv.stop, if_neg (by rwa [Bool.and_eq_true])]
    rw [hstop]
    exact ⟨t', hrun, fun s hs => by cases hs⟩

/-- The target after a call has returned to the stop `s`. -/
def Target.called (t : Target R) (arch : Arch R) (name : FuncName)
    (addr : Word) (params : List Word) (s : Stop R) : Target R :=
  { t.stopAt s with
    calls := t.calls ++ [⟨name, addr, params, arch.ptraceRetval s.regs⟩] }

theorem ptraceCallWrapper_run (arch : Arch R) (env : CallEnv R)
    (name : FuncName) (addr : Word) (params : List Word) (regs : R)
    (t : Target R) :
    ∃ t', (ptraceCallWrapper arch env name addr params regs).run t =
        (env.result.value.map (Option.map Stop.regs), t') ∧
      ∀ s, env.result = .returned s →
        t' = t.called arch name addr params s := by
  obtain ⟨t₁, hrun, ht₁⟩ := ptraceCall_run arch env addr params regs t
  rw [CallEnv.result]
  cases hstop : env.stop with
  | failed =>
      rw [hstop] at hrun
      exact ⟨t₁, Prog.run_bind_ok hrun, fun s hs => by cases hs⟩
  | waiting =>
      rw [hstop] at hrun
      exact ⟨t₁, Prog.run_bind_error hrun, fun s hs => by cases hs⟩
  | returned s =>
      rw [hstop] at hrun
      have ht : t₁ = t.stopAt s := ht₁ s hstop
      subst ht
      rw [ptraceCallWrapper, Prog.run_bind_ok hrun]
      cases hget : env.getregsOk with
      | false => exact ⟨_, rfl, fun s' hs' => by cases hs'⟩
      | true =>
          refine ⟨_, rfl, fun s' hs' => ?_⟩
          injection hs' with hs'
          rw [← hs']
          rfl

/-- A call in the injection: it returns, or the injection ends with `ret`, or
on the way to the log, or it is left waiting. -/
theorem callOrExit_run (arch : Arch R) (env : Env R) (call : CallEnv R)
    (name : FuncName) (addr : Word) (params : List Word) (regs : R) (ret : ℤ)
    (t : Target R) :
    ∃ t', (callOrExit arch env call name addr params regs ret).run t =
        (match call.result with
          | .returned s => .ok s.regs
          | .failed => .error (env.failure ret)
          | .waiting => .error .waiting, t') ∧
      ∀ s, call.result = .returned s →
        t' = t.called arch name addr params s := by
  obtain ⟨t', hrun, ht'⟩ :=
    ptraceCallWrapper_run arch call name addr params regs t
  refine ⟨t', ?_, ht'⟩
  rw [callOrExit]
  cases hres : call.result with
  | returned s =>
      rw [hres] at hrun
      exact Prog.run_bind_ok hrun
  | failed =>
      rw [hres] at hrun
      exact Prog.run_bind_ok hrun
  | waiting =>
      rw [hres] at hrun
      exact Prog.run_bind_error hrun

end Elfupspeed.Elfinject
