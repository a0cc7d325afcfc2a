import Elfupspeed.Proofs.RemoteCall

/-!
# What a call that is reported as returned has done

A function that returns to address 0 faults there, and the fault stops the
target with status 0xb7f. The loop of `ptrace_call` takes the status for the
return and does not look where the target stands, so it is right as long as
the first fault of the target is the one at address 0. What the target does is
the list of stops the loop is told of; the loop ends at the first fault in it.
-/

namespace Elfupspeed.Elfinject

open Elfupspeed.Lib

/-! ## What the loop is told -/

section Stops

variable {R : Type}

/-- The stops that are reported as long as the target can be resumed. -/
def stopsTold : List (Option (Stop R) × Bool) → List (Stop R)
  | [] => []
  | (wait, continueOk) :: waits =>
      wait.toList ++ if continueOk then stopsTold waits else []

def CallEnv.told (env : CallEnv R) : List (Stop R) :=
  if env.setregsOk && env.continueOk then stopsTold env.waits else []

/-- Stopped by `SIGSEGV`. -/
def Stop.Faults (s : Stop R) : Prop := s.stat = 0xb7f

instance : DecidablePred (Stop.Faults (R := R)) :=
  fun s => inferInstanceAs (Decidable (s.stat = 0xb7f))

/-- Not stopped at all: `WIFEXITED` or `WIFSIGNALED`. -/
def Stop.Terminated (s : Stop R) : Prop := s.stat % 128 ≠ 127

/-- A target that has terminated cannot be resumed. -/
def CallEnv.Genuine (env : CallEnv R) : Prop :=
  ∀ s continueOk, (some s, continueOk) ∈ env.waits → s.Terminated →
    continueOk = false

theorem firstStop_eq_returned {waits : List (Option (Stop R) × Bool)} {s : Stop R} :
    firstStop waits = .returned s ↔
      (stopsTold waits).find? (fun s => decide s.Faults) = some s := by
  induction waits with
  | nil => simp [firstStop, stopsTold]
  | cons w waits ih =>
      obtain ⟨wait, continueOk⟩ := w
      cases wait with
      | none =>
          rw [firstStop, stopsTold]
          cases continueOk with
          | true => simpa using ih
          | false => simp
      | some first =>
          rw [firstStop, stopsTold]
          by_cases hfirst : first.stat = 0xb7f
          · simp [hfirst, Stop.Faults]
          · cases continueOk with
            | true => simpa [hfirst, Stop.Faults] using ih
            | false => simp [hfirst, Stop.Faults]

/-- A target that terminates before any fault ends the loop with -1. -/
theorem firstStop_eq_failed {waits : List (Option (Stop R) × Bool)}
    (hgenuine : ∀ s continueOk, (some s, continueOk) ∈ waits → s.Terminated →
      continueOk = false) {s : Stop R} (hs : s.Terminated)
    (hmem : s ∈ (stopsTold waits).takeWhile fun s => !decide s.Faults) :
    firstStop waits = .failed := by
  induction waits with
  | nil => simp [stopsTold] at hmem
  | cons w waits ih =>
      obtain ⟨wait, continueOk⟩ := w
      have hrest : ∀ s continueOk, (some s, continueOk) ∈ waits →
          s.Terminated → continueOk = false :=
        fun s c h => hgenuine s c (List.mem_cons_of_mem _ h)
      cases wait with
      | none =>
          rw [firstStop]
          cases continueOk with
          | true => exact ih hrest (by simpa [stopsTold] using hmem)
          | false => rfl
      | some first =>
          rw [firstStop]
          by_cases hfirst : first.stat = 0xb7f
          · simp [stopsTold, hfirst, Stop.Faults] at hmem
          · rw [if_neg hfirst]
            cases continueOk with
            | false => rfl
            | true =>
                simp only [stopsTold, Option.toList_some, if_true,
                  List.singleton_append] at hmem
                rw [List.takeWhile_cons_of_pos (by simp [Stop.Faults, hfirst]),
                  List.mem_cons] at hmem
                rcases hmem with rfl | hmem
                · have := hgenuine s true List.mem_cons_self hs
                  cases this
                · exact ih hrest hmem

theorem stop_eq_returned {env : CallEnv R} {s : Stop R} :
    env.stop = .returned s ↔
      env.told.find? (fun s => decide s.Faults) = some s := by
  rw [CallEnv.stop, CallEnv.told]
  split
  · exact firstStop_eq_returned
  · simp

theorem stop_eq_failed {env : CallEnv R} (hgenuine : env.Genuine) {s : Stop R}
    (hs : s.Terminated)
    (hmem : s ∈ env.told.takeWhile fun s => !decide s.Faults) :
    env.stop = .failed := by
  rw [CallEnv.told] at hmem
  rw [CallEnv.stop]
  split
  · next h =>
      rw [if_pos h] at hmem
      exact firstStop_eq_failed hgenuine hs hmem
  · rfl

end Stops

/-! ## Faults and returns -/

variable (b : Build) {env : CallEnv b.Regs}

/-- The fault that a return to the planted address causes. -/
def Build.ReturnFault (s : Stop b.Regs) : Prop := s.Faults ∧ b.ptraceIp s.regs = 0

instance : DecidablePred b.ReturnFault :=
  fun _ => inferInstanceAs (Decidable (_ ∧ _))

/-- The stops that the target makes before it has returned. -/
def Build.beforeReturn (env : CallEnv b.Regs) : List (Stop b.Regs) :=
  env.told.takeWhile fun s => !decide (b.ReturnFault s)

/-- The first fault of the target is that of the return. -/
def Build.FaultsAtReturn (env : CallEnv b.Regs) : Prop :=
  ∀ s, env.told.find? (fun s => decide s.Faults) = some s → b.ptraceIp s.regs = 0

/-- A call is reported as returned, and its result taken, where the target
stands at the fault of the return; a fault on the way there, or the end of the
target, gives -1. -/
structure Build.ReportsReturn (env : CallEnv b.Regs) (name : FuncName)
    (addr : Word) (params : List Word) (regs : b.Regs) (t : Target b.Regs) :
    Prop where
  returned : ((ptraceCall b.arch env addr params regs).run t).1 = .ok true →
    ∃ s ∈ env.told, b.ReturnFault s ∧
      ((ptraceCall b.arch env addr params regs).run t).2 = t.stopAt s
  failed : ∀ s ∈ b.beforeReturn env, s.Faults ∨ s.Terminated →
    ((ptraceCall b.arch env addr params regs).run t).1 = .ok false
  taken : ∀ regs',
    ((ptraceCallWrapper b.arch env name addr params regs).run t).1 =
      .ok (some regs') →
    ∃ s ∈ env.told, b.ReturnFault s ∧ regs' = s.regs

variable {b}

theorem not_faults_of_beforeReturn (h : b.FaultsAtReturn env) {s : Stop b.Regs}
    (hs : s ∈ b.beforeReturn env) :
    s ∈ env.told.takeWhile fun s => !decide s.Faults := by
  rw [Build.beforeReturn] at hs
  rw [Build.FaultsAtReturn] at h
  generalize env.told = stops at h hs
  induction stops with
  | nil => exact hs
  | cons first stops ih =>
      by_cases hfirst : first.Faults
      · have hip := h first (List.find?_cons_of_pos (by simpa using hfirst))
        rw [List.takeWhile_cons_of_neg (by simp [Build.ReturnFault, hfirst, hip])]
          at hs
        cases hs
      · rw [List.takeWhile_cons_of_pos (by simp [Build.ReturnFault, hfirst]),
          List.mem_cons] at hs
        rw [List.find?_cons_of_neg (by simpa using hfirst)] at h
        rw [List.takeWhile_cons_of_pos (by simpa using hfirst), List.mem_cons]
        exact hs.imp_right (ih h)

theorem find_of_returned {s : Stop b.Regs}
    (hfind : env.told.find? (fun s => decide s.Faults) = some s) :
    s ∈ env.told ∧ s.Faults :=
  ⟨List.mem_of_find?_eq_some hfind, by simpa using List.find?_some hfind⟩

theorem ptraceCall_ok_true {addr : Word} {params : List Word} {regs : b.Regs}
    {t : Target b.Regs}
    (h : ((ptraceCall b.arch env addr params regs).run t).1 = .ok true) :
    ∃ s, env.stop = .returned s ∧
      ((ptraceCall b.arch env addr params regs).run t).2 = t.stopAt s := by
  obtain ⟨t', hrun, ht'⟩ := ptraceCall_run b.arch env addr params regs t
  rw [hrun] at h ⊢
  cases hstop : env.stop with
  | returned s => exact ⟨s, rfl, ht' s hstop⟩
  | failed =>
      rw [hstop] at h
      cases h
  | waiting =>
      rw [hstop] at h
      cases h

theorem ptraceCallWrapper_ok_some {name : FuncName} {addr : Word}
    {params : List Word} {regs regs' : b.Regs} {t : Target b.Regs}
    (h : ((ptraceCallWrapper b.arch env name addr params regs).run t).1 =
      .ok (some regs')) :
    ∃ s, env.stop = .returned s ∧ regs' = s.regs := by
  obtain ⟨t', hrun, -⟩ :=
    ptraceCallWrapper_run b.arch env name addr params regs t
  rw [hrun, CallEnv.result] at h
  cases hstop : env.stop with
  | returned s =>
      simp only [hstop] at h
      split at h
      · injection h with h
        injection h with h
        exact ⟨s, rfl, h.symm⟩
      · cases h
  | failed =>
      rw [hstop] at h
      cases h
  | waiting =>
      rw [hstop] at h
      cases h

/-- A call is reported as it went if and only if the first fault that stops
the target, if one does, is that of the return. -/
theorem reportsReturn_iff (b : Build) (env : CallEnv b.Regs)
    (hgenuine : env.Genuine) (name : FuncName) (addr : Word)
    (params : List Word) (regs : b.Regs) (t : Target b.Regs) :
    b.ReportsReturn env name addr params regs t ↔ b.FaultsAtReturn env := by
  constructor
  · intro h s hfind
    obtain ⟨t', hrun, ht'⟩ := ptraceCall_run b.arch env addr params regs t
    have hstop := stop_eq_returned.mpr hfind
    obtain ⟨s', -, hs', hat⟩ := h.returned (by rw [hrun, hstop]; rfl)
    rw [hrun, ht' s hstop] at hat
    have hregs : s.regs = s'.regs := congrArg Target.regs hat
    rw [hregs]
    exact hs'.2
  · intro h
    refine ⟨fun hret => ?_, fun s hs hbad => ?_, fun regs' hret => ?_⟩
    · obtain ⟨s, hstop, hat⟩ := ptraceCall_ok_true hret
      have hfind := stop_eq_returned.mp hstop
      obtain ⟨hmem, hfaults⟩ := find_of_returned hfind
      exact ⟨s, hmem, ⟨hfaults, h s hfind⟩, hat⟩
    · have hmem := not_faults_of_beforeReturn h hs
      have hnot : ¬ s.Faults := by simpa using List.mem_takeWhile_imp hmem
      obtain ⟨t', hrun, -⟩ := ptraceCall_run b.arch env addr params regs t
      rw [hrun, stop_eq_failed hgenuine (hbad.resolve_left hnot) hmem]
      rfl
    · obtain ⟨s, hstop, hregs⟩ := ptraceCallWrapper_ok_some hret
      have hfind := stop_eq_returned.mp hstop
      obtain ⟨hmem, hfaults⟩ := find_of_returned hfind
      exact ⟨s, hmem, ⟨hfaults, h s hfind⟩, hregs⟩

/-- Registers on ARM with nothing in them but `pc`. -/
def pcRegs (pc : Word) : PtRegs := ⟨(Vector.replicate 18 0).setIfInBounds 15 pc⟩

/-- A target that faults at `pc` and goes no further. -/
def faultingAt (pc : Word) : CallEnv PtRegs where
  setregsOk := true
  continueOk := true
  waits := [(some ⟨0xb7f, pcRegs pc, fun _ => none⟩, true)]
  getregsOk := true

theorem faultingAt_genuine (pc : Word) : (faultingAt pc).Genuine := by
  intro s continueOk hmem hterm
  rw [faultingAt, List.mem_singleton, Prod.mk.injEq, Option.some.injEq] at hmem
  rw [hmem.1] at hterm
  exact absurd (by omega : (0xb7f : ℤ) % 128 = 127) hterm

theorem return_reported :
    Build.ReportsReturn .arm (faultingAt 0) .dlopen 0x1000 [] (pcRegs 7)
      { regs := pcRegs 7, mem := fun _ => none } := by
  refine (reportsReturn_iff .arm (faultingAt 0) (faultingAt_genuine 0) .dlopen
    0x1000 [] (pcRegs 7) { regs := pcRegs 7, mem := fun _ => none }).mpr ?_
  intro s hs
  obtain rfl : _ = s := Option.some.inj hs
  decide

/-- A fault inside the function is taken for its return. -/
theorem inner_fault_reported :
    (faultingAt 0x1004).Genuine ∧
      ¬ Build.ReportsReturn .arm (faultingAt 0x1004) .dlopen 0x1000 [] (pcRegs 7)
        { regs := pcRegs 7, mem := fun _ => none } := by
  refine ⟨faultingAt_genuine 0x1004, fun h => ?_⟩
  obtain ⟨s, hmem, hs, -⟩ := h.returned (by decide +kernel)
  obtain rfl : s = ⟨0xb7f, pcRegs 0x1004, fun _ => none⟩ := by
    simpa [CallEnv.told, stopsTold, faultingAt] using hmem
  exact absurd hs.2 (by decide)

end Elfupspeed.Elfinject
