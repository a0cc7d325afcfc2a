import Elfupspeed.Src.Launcher
import Elfupspeed.Proofs.Exits
import Elfupspeed.Proofs.ModuleBase
import Elfupspeed.Proofs.Pids

/-!
# What the command says and does

The status of the command is 0 where the injection gets to its end. It is also
0 where the last call of the injection fails, if the hook has given 0: the
result of the hook is what `inject_remote_process` leaves with then, and
`main` takes it for its own.

One process is changed at most, the one that was found. If the maps of that
process show the library it is not changed either, and so a library that is
there is not injected again.
-/

namespace Elfupspeed.Launcher

open Elfupspeed.Lib Elfupspeed.Lib.CString Elfupspeed.Elfinject
open Elfupspeed.ServerClient (ProcessTable findPidOf findPidOf_eq)

/-! ## One injection -/

/-- The injection gets past the hook, and then its last call comes back, or
fails where the hook gave 0. -/
def Succeeds {R : Type} (arch : Arch R) (env : Env R) (soPath : List Byte) : Prop :=
  env.Attaches soPath ∧ ∃ s, env.script arch = some s ∧
    ((∃ last, env.dlclose.result = .returned last) ∨
      env.dlclose.result = .failed ∧ env.logOk = true ∧
        arch.ptraceRetval s.hook.regs = 0)

section Injection

variable {R : Type} {arch : Arch R} {env : Env R} {soPath : List Byte}

theorem report_error_iff {e : Halt} : report (.error e) = .status 0 ↔ e = .exit 0 := by
  cases e with
  | exit ret =>
      by_cases h : ret = 0
      · simp [report, h]
      · simp [report, h]
  | crashed => simp [report]
  | waiting => simp [report]

theorem toInt_eq_zero_iff {x : Word} : x.toInt = 0 ↔ x = 0 :=
  ⟨fun h => BitVec.eq_of_toInt_eq h, fun h => by rw [h]; rfl⟩

theorem failure_eq_iff {ret : ℤ} :
    env.failure ret = .exit 0 ↔ env.logOk = true ∧ ret = 0 := by
  rw [Env.failure]
  cases env.logOk with
  | true => simp
  | false => simp

theorem report_inject_iff (arch : Arch R) (env : Env R) (syms : Symbols)
    (soPath cydiaPath functionName speed : List Byte) (t : Target R) :
    report ((injectRemoteProcess arch env syms soPath cydiaPath functionName
      speed).run t).1 = .status 0 ↔ Succeeds arch env soPath := by
  by_cases hattach : env.Attaches soPath
  · cases hscript : env.script arch with
    | none =>
        obtain ⟨e, t', he, -, hrun⟩ := injectRemoteProcess_of_no_script arch env
          syms soPath cydiaPath functionName speed hattach hscript t
        rw [hrun, report_error_iff]
        refine iff_of_false (fun heq => ?_) fun h => ?_
        · exact absurd (he.gives 0 heq) (by omega)
        · obtain ⟨-, s, hs, -⟩ := h
          rw [hscript] at hs
          cases hs
    | some s =>
        have honly : Succeeds arch env soPath ↔
            ((∃ last, env.dlclose.result = .returned last) ∨
              env.dlclose.result = .failed ∧ env.logOk = true ∧
                arch.ptraceRetval s.hook.regs = 0) := by
          rw [Succeeds, hscript]
          simp [hattach]
        obtain ⟨t', hrun, -⟩ := closeAndDetach_run arch env syms t.regs
          (arch.ptraceRetval s.library.regs) s.hook.regs
          { t.stopAt s.hook with
            traced := true
            calls := t.calls ++ s.calls arch env syms }
        rw [injectRemoteProcess_of_script arch env syms soPath cydiaPath
          functionName speed hattach hscript t, hrun, honly]
        cases hclose : env.dlclose.result with
        | returned last => simp [report]
        | failed =>
            rw [report_error_iff, failure_eq_iff, toInt_eq_zero_iff]
            simp
        | waiting => simp [report]
  · obtain ⟨e, he, -, hrun⟩ := injectRemoteProcess_of_not_attaches arch env syms
      soPath cydiaPath functionName speed hattach t
    rw [hrun, report_error_iff]
    exact iff_of_false he fun h => hattach h.1

end Injection

/-! ## The command -/

section Main

variable {R : Type} (arch : Arch R) (syms : Symbols) (w : World R)
  (processName speed soPath cydiaPath : List Byte) (targets : ℤ → Target R)

theorem launch_of_found {p : ServerClient.Process} (hdir : w.opendirOk = true)
    (hfound : w.table.found w.cmdline processName = some p) :
    launch arch syms w processName speed soPath cydiaPath targets =
      (report ((injectRemoteProcess arch (w.env p.pid) syms soPath cydiaPath
          (ofString "hook_entry") speed).run (targets p.pid)).1,
        Function.update targets p.pid
          ((injectRemoteProcess arch (w.env p.pid) syms soPath cydiaPath
            (ofString "hook_entry") speed).run (targets p.pid)).2) := by
  have hpid : findPidOf w.table w.opendirOk w.cmdline (some processName) = p.pid := by
    rw [findPidOf_eq, ProcessTable.foundPid, hdir, if_pos rfl, hfound]
    rfl
  have hne : (p.pid : ℤ) ≠ -1 := by omega
  rw [launch]
  simp only [hpid]
  rw [if_neg hne]

theorem launch_of_not_found
    (h : ¬ ∃ p, w.opendirOk = true ∧
      w.table.found w.cmdline processName = some p) :
    (launch arch syms w processName speed soPath cydiaPath targets).1 ≠ .status 0 ∧
      (launch arch syms w processName speed soPath cydiaPath targets).2 =
        targets := by
  have hpid : findPidOf w.table w.opendirOk w.cmdline (some processName) = -1 := by
    rw [findPidOf_eq, ProcessTable.foundPid]
    split
    · next hdir =>
        cases hfound : w.table.found w.cmdline processName with
        | none => rfl
        | some p => exact absurd ⟨p, hdir, hfound⟩ h
    · rfl
  rw [launch]
  simp only [hpid]
  rw [if_pos trivial]
  cases w.logOk with
  | true => exact ⟨by simp [initlog], rfl⟩
  | false => exact ⟨by simp [initlog], rfl⟩

theorem main_of_ne (argv : List (List Byte))
    (h : ¬ ∃ command processName speed soPath cydiaPath,
      argv = [command, processName, speed, soPath, cydiaPath]) :
    main arch syms w argv targets = (.status (-1), targets) := by
  rw [main]
  intro command processName speed soPath cydiaPath heq
  exact h ⟨command, processName, speed, soPath, cydiaPath, heq⟩

theorem launch_outcome :
    ((launch arch syms w processName speed soPath cydiaPath targets).1 = .status 0 ↔
      ∃ p, w.opendirOk = true ∧ w.table.found w.cmdline processName = some p ∧
        Succeeds arch (w.env p.pid) soPath) ∧
    ∀ q, (launch arch syms w processName speed soPath cydiaPath targets).2 q ≠
        targets q →
      ∃ p, w.opendirOk = true ∧ w.table.found w.cmdline processName = some p ∧
        q = p.pid ∧ (w.env p.pid).Attaches soPath := by
  by_cases hsome : ∃ p, w.opendirOk = true ∧
      w.table.found w.cmdline processName = some p
  · obtain ⟨p, hdir, hfound⟩ := hsome
    rw [launch_of_found arch syms w processName speed soPath cydiaPath targets
      hdir hfound]
    refine ⟨?_, fun q hq => ?_⟩
    · rw [report_inject_iff]
      refine ⟨fun h => ⟨p, hdir, hfound, h⟩, fun h => ?_⟩
      obtain ⟨p', -, hfound', h⟩ := h
      rw [hfound] at hfound'
      cases hfound'
      exact h
    · have hpid : q = p.pid := by
        by_contra hne
        exact hq (Function.update_of_ne hne _ _)
      refine ⟨p, hdir, hfound, hpid, ?_⟩
      by_contra hattach
      obtain ⟨e, -, -, hrun⟩ := injectRemoteProcess_of_not_attaches arch
        (w.env p.pid) syms soPath cydiaPath (ofString "hook_entry") speed hattach
        (targets p.pid)
      rw [hrun, hpid] at hq
      exact hq (Function.update_self _ _ _)
  · obtain ⟨hstatus, hsame⟩ := launch_of_not_found arch syms w processName speed
      soPath cydiaPath targets hsome
    refine ⟨iff_of_false hstatus fun h => ?_, fun q hq => ?_⟩
    · obtain ⟨p, hdir, hfound, -⟩ := h
      exact hsome ⟨p, hdir, hfound⟩
    · rw [hsame] at hq
      exact absurd rfl hq

/-- The status is 0 exactly where a process is found whose injection succeeds,
and a process that is changed is the one that was found, and could be attached
to. -/
theorem command_outcome (argv : List (List Byte)) :
    ((main arch syms w argv targets).1 = .status 0 ↔
      ∃ command processName speed soPath cydiaPath p,
        argv = [command, processName, speed, soPath, cydiaPath] ∧
        w.opendirOk = true ∧ w.table.found w.cmdline processName = some p ∧
        Succeeds arch (w.env p.pid) soPath) ∧
    ∀ q, (main arch syms w argv targets).2 q ≠ targets q →
      ∃ command processName speed soPath cydiaPath p,
        argv = [command, processName, speed, soPath, cydiaPath] ∧
        w.opendirOk = true ∧ w.table.found w.cmdline processName = some p ∧
        q = p.pid ∧ (w.env p.pid).Attaches soPath := by
  by_cases hfive : ∃ command processName speed soPath cydiaPath,
      argv = [command, processName, speed, soPath, cydiaPath]
  · obtain ⟨command, processName, speed, soPath, cydiaPath, rfl⟩ := hfive
    obtain ⟨hstatus, hchanged⟩ := launch_outcome arch syms w processName speed
      soPath cydiaPath targets
    refine ⟨hstatus.trans ⟨fun h => ?_, fun h => ?_⟩, fun q hq => ?_⟩
    · obtain ⟨p, h⟩ := h
      exact ⟨_, _, _, _, _, p, rfl, h⟩
    · obtain ⟨_, _, _, _, _, p, heq, h⟩ := h
      cases heq
      exact ⟨p, h⟩
    · obtain ⟨p, h⟩ := hchanged q hq
      exact ⟨_, _, _, _, _, p, rfl, h⟩
  · rw [main_of_ne arch syms w targets argv hfive]
    refine ⟨iff_of_false (by simp) fun h => ?_, fun q hq => absurd rfl hq⟩
    obtain ⟨command, processName, speed, soPath, cydiaPath, p, heq, -⟩ := h
    exact hfive ⟨command, processName, speed, soPath, cydiaPath, heq⟩

/-- A process whose maps show the library is left alone, unless the line that
shows it first is of an address that counts as none. -/
theorem mapped_library_refused {p : ServerClient.Process} {ms : List Mapping}
    {m : Mapping} (command : List Byte) (hdir : w.opendirOk = true)
    (hfound : w.table.found w.cmdline processName = some p)
    (hmaps : (w.env p.pid).mapsBefore = some (mapsFile ms))
    (hfirst : firstNaming ms soPath = some m)
    (hshown : soPath <:+: m.line.take 1023)
    (haddr : m.start ≠ 0 ∧ m.start ≠ 0x8000) :
    main arch syms w [command, processName, speed, soPath, cydiaPath] targets =
      (.status (-1), targets) := by
  have hbase : getModuleBase (w.env p.pid).mapsBefore soPath = some m.start := by
    rw [hmaps, getModuleBase_of_named hfirst hshown, reported, if_neg haddr.2]
  have hrun : (injectRemoteProcess arch (w.env p.pid) syms soPath cydiaPath
      (ofString "hook_entry") speed).run (targets p.pid) =
        (.error (.exit (-2)), targets p.pid) := by
    refine Prog.run_bind_error ?_
    rw [attachTarget, Prog.run_bind_ok (deref_run hbase _), decide_eq_false haddr.1]
    exact Prog.run_bind_error (Prog.run_require_false _ _)
  show launch arch syms w processName speed soPath cydiaPath targets = _
  rw [launch_of_found arch syms w processName speed soPath cydiaPath targets hdir
    hfound, hrun, Function.update_eq_self]
  rfl

end Main

/-- The library is mapped in every process already. -/
def injectedBefore : World PtRegs where
  table := ServerClient.threadFirst
  opendirOk := true
  cmdline := []
  logOk := true
  env _ := { replies 1 1 1 1 0 0 with mapsBefore := some (mapsFile backupFirst) }

/-- Every process as it was found. -/
def asFound : ℤ → Target PtRegs := fun _ => .found (r0Regs 0) fun _ => none

theorem injected_once_refused :
    main arm symbolsAt injectedBefore
      [ofString "elfinject", ofString "a", ofString "2", ofString "/a.so",
        ofString "/c.so"] asFound = (.status (-1), asFound) := by
  have hfound : injectedBefore.table.found injectedBefore.cmdline (ofString "a") =
      some ⟨100, ofString "a", true, false, 1⟩ := rfl
  have hfirst : firstNaming backupFirst (ofString "/a.so") =
      some (mapped 0x10000000 "/a.so.bak" (by decide)) :=
    List.find?_cons_of_pos (by decide +kernel)
  exact mapped_library_refused arm symbolsAt injectedBefore (ofString "a")
    (ofString "2") (ofString "/a.so") (ofString "/c.so") asFound
    (ofString "elfinject") rfl hfound rfl hfirst (by decide +kernel) (by decide)

end Elfupspeed.Launcher
