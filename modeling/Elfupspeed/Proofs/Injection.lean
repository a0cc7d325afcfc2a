import Elfupspeed.Proofs.RemoteCall

/-!
# How an injection ends

The answers the injector is given decide how far it comes, and this module
computes that: `load` has the five stops of a run that gets past the hook, and
the lemmas below say what the three parts of `inject_remote_process` do with
and without them. On the way out nothing is undone, so the rest is a case
analysis: the target is as it was found exactly when every step worked.
-/

namespace Elfupspeed.Elfinject

open Elfupspeed.Lib Elfupspeed.Lib.CString

variable {R : Type}

/-! ## Addresses -/

theorem getModuleBase_ne_none {moduleName : List Byte}
    (h : ∃ b ∈ moduleName, b ≠ byte '-') (maps : Option (List Byte)) :
    getModuleBase maps moduleName ≠ none := by
  obtain ⟨b, hb, hne⟩ := h
  cases maps with
  | none => exact Option.some_ne_none 0
  | some file =>
      rw [getModuleBase]
      cases hfind : (fgetsAll 1024 1023 file).find?
          fun line => strstr (cstr line) moduleName with
      | none => exact Option.some_ne_none 0
      | some line =>
          have hline : strstr (cstr line) moduleName = true := by
            simpa using List.find?_some hfind
          have htok : strtok (cstr line) (byte '-') ≠ none :=
            strtok_ne_none ⟨b, mem_of_strstr hline hb, hne⟩
          simpa using htok

/-- The address of a function in the target, which there is for a module with
something other than a dash in its name. -/
def remoteAddr (selfMaps targetMaps : Option (List Byte))
    (moduleName : List Byte) (localAddr : Word) : Word :=
  (getRemoteAddr selfMaps targetMaps moduleName localAddr).getD 0

theorem getRemoteAddr_eq {moduleName : List Byte}
    (h : ∃ b ∈ moduleName, b ≠ byte '-')
    (selfMaps targetMaps : Option (List Byte)) (localAddr : Word) :
    getRemoteAddr selfMaps targetMaps moduleName localAddr =
      some (remoteAddr selfMaps targetMaps moduleName localAddr) := by
  obtain ⟨a, ha⟩ := Option.ne_none_iff_exists'.mp
    (getModuleBase_ne_none h selfMaps)
  obtain ⟨b, hb⟩ := Option.ne_none_iff_exists'.mp
    (getModuleBase_ne_none h targetMaps)
  simp [remoteAddr, getRemoteAddr, ha, hb]

theorem libcPath_not_dashes : ∃ b ∈ libcPath, b ≠ byte '-' := by decide

theorem linkerPath_not_dashes : ∃ b ∈ linkerPath, b ≠ byte '-' := by decide

/-! ## The first five calls -/

def CallResult.stop? : CallResult R → Option (Stop R)
  | .returned s => some s
  | .failed | .waiting => none

theorem returned_of_stop? {r : CallResult R} {s : Stop R}
    (h : r.stop? = some s) : r = .returned s := by
  cases r with
  | returned s' => rw [Option.some.inj h]
  | failed => cases h
  | waiting => cases h

/-- The stops of the first five calls. -/
structure Script (R : Type) where
  mmap : Stop R
  cydia : Stop R
  library : Stop R
  dlsym : Stop R
  hook : Stop R

/-- The stops that the answers have in store for a run that gets past the
hook. -/
def Env.load (arch : Arch R) (env : Env R) : Option (Script R) :=
  env.mmap.result.stop?.bind fun mmap =>
  env.dlopenCydia.result.stop?.bind fun cydia =>
  env.dlopenLibrary.result.stop?.bind fun library =>
  if arch.ptraceRetval library.regs ≠ 0 then
    env.dlsym.result.stop?.bind fun dlsym =>
    env.hookEntry.result.stop?.bind fun hook =>
    some ⟨mmap, cydia, library, dlsym, hook⟩
  else none

def Script.calls (s : Script R) (arch : Arch R) (env : Env R)
    (syms : Symbols) : List RemoteCall :=
  let base := arch.ptraceRetval s.mmap.regs
  let handle := arch.ptraceRetval s.library.regs
  let sym := arch.ptraceRetval s.dlsym.regs
  let dlopen := remoteAddr env.selfMaps env.mapsMapped linkerPath syms.dlopen
  [⟨.mmap, remoteAddr env.selfMaps env.mapsAttached libcPath syms.mmap,
      [0, 0x4000, 7, 0x22, -1, 0], base⟩,
    ⟨.dlopen, dlopen, [base + 0x300, 2], arch.ptraceRetval s.cydia.regs⟩,
    ⟨.dlopen, dlopen, [base, 2], handle⟩,
    ⟨.dlsym, remoteAddr env.selfMaps env.mapsMapped linkerPath syms.dlsym,
      [handle, base + 0x100], sym⟩,
    ⟨.hookEntry, sym, [base + 0x200], arch.ptraceRetval s.hook.regs⟩]

/-- If the injector leaves with a result, it is `ret`. -/
def Gives (ret : ℤ) (e : Halt) : Prop := ∀ r, e = .exit r → r = ret

/-- It leaves with the result `ret` where `p` is so, and with none elsewhere. -/
def GivesWhen (p : Prop) (ret : ℤ) (e : Halt) : Prop :=
  (p → e = .exit ret) ∧ (¬ p → ∀ r, e ≠ .exit r)

theorem GivesWhen.gives {p : Prop} {ret : ℤ} {e : Halt} (h : GivesWhen p ret e) :
    Gives ret e := by
  intro r hr
  by_cases hp : p
  · have hexit := h.1 hp
    rw [hr] at hexit
    injection hexit
  · exact absurd hr (h.2 hp r)

theorem GivesWhen.exists_exit_iff {p : Prop} {ret : ℤ} {e : Halt}
    (h : GivesWhen p ret e) : (∃ r, e = .exit r) ↔ p := by
  constructor
  · intro hexit
    obtain ⟨r, hr⟩ := hexit
    by_contra hp
    exact h.2 hp r hr
  · exact fun hp => ⟨ret, h.1 hp⟩

theorem givesWhen_failure (env : Env R) (ret : ℤ) :
    GivesWhen (env.logOk = true) ret (env.failure ret) := by
  rw [Env.failure]
  constructor
  · intro hlog
    rw [if_pos hlog]
  · intro hlog r
    rw [if_neg hlog]
    exact Halt.noConfusion

/-- What a call has to come to if there is to be a result: it returns, with
what is asked of its stop, or it fails and the log can be opened. -/
def CallResult.Answers (logOk : Bool) (returned : Stop R → Prop) :
    CallResult R → Prop
  | .returned s => returned s
  | .failed => logOk = true
  | .waiting => False

/-- The injector attaches to a target, and then gets a result without getting
past the hook, or gets past it. -/
def Env.Answers (arch : Arch R) (env : Env R) : Prop :=
  env.mmap.result.Answers env.logOk fun _ =>
  env.dlopenCydia.result.Answers env.logOk fun _ =>
  env.dlopenLibrary.result.Answers env.logOk fun library =>
  arch.ptraceRetval library.regs ≠ 0 →
    env.dlsym.result.Answers env.logOk fun _ =>
    env.hookEntry.result.Answers env.logOk fun _ => True

/-- A call and what is behind it. -/
theorem callOrExit_bind_meets {α δ : Type} {arch : Arch R} {env : Env R}
    {call : CallEnv R} {name : FuncName} {addr : Word} {params : List Word}
    {regs : R} {ret : ℤ} {t : Target R} {k : Stop R → Option δ}
    {G : δ → α × Target R} {f : R → Prog (Target R) Halt α} {p : Stop R → Prop}
    (hf : ∀ s, Prog.Meets (GivesWhen (p s) ret) ((k s).map G) (f s.regs)
      (t.called arch name addr params s)) :
    Prog.Meets (GivesWhen (call.result.Answers env.logOk p) ret)
      ((call.result.stop?.bind k).map G)
      (callOrExit arch env call name addr params regs ret >>= f) t := by
  obtain ⟨t', hrun, ht'⟩ :=
    callOrExit_run arch env call name addr params regs ret t
  cases hres : call.result with
  | returned s =>
      rw [hres] at hrun
      rw [ht' s hres] at hrun
      exact Prog.meets_bind_of_ok hrun (hf s)
  | failed =>
      rw [hres] at hrun
      exact ⟨_, t', Prog.run_bind_error hrun, givesWhen_failure env ret⟩
  | waiting =>
      rw [hres] at hrun
      exact ⟨_, t', Prog.run_bind_error hrun, fun h => h.elim,
        fun _ _ => Halt.noConfusion⟩

section Inject

variable (arch : Arch R) (env : Env R) (syms : Symbols)
  (libraryPath cydiaPath functionName param : List Byte)

theorem deref_run {α : Type} {o : Option α} {a : α} (h : o = some a)
    (t : Target R) : (deref o : Prog (Target R) Halt α).run t = (.ok a, t) := by
  subst h
  rfl

/-- Getting past the hook, as the answers say. -/
theorem loadAndHook_meets (regs : R) (t : Target R) :
    Prog.Meets (GivesWhen (env.Answers arch) (-1))
      ((env.load arch).map fun s =>
        ((arch.ptraceRetval s.library.regs, s.hook.regs),
          { t.stopAt s.hook with calls := t.calls ++ s.calls arch env syms }))
      (loadAndHook arch env syms libraryPath cydiaPath functionName param regs)
      t := by
  have hmmap := getRemoteAddr_eq libcPath_not_dashes env.selfMaps
    env.mapsAttached syms.mmap
  have hlinker := getRemoteAddr_eq linkerPath_not_dashes env.selfMaps
    env.mapsMapped
  refine Prog.meets_bind_of_ok (deref_run hmmap t) ?_
  refine callOrExit_bind_meets fun mmap => ?_
  refine Prog.meets_bind_of_ok (deref_run (hlinker syms.dlopen) _) ?_
  refine Prog.meets_bind_of_ok (deref_run (hlinker syms.dlsym) _) ?_
  refine Prog.meets_bind_of_ok (deref_run (hlinker syms.dlclose) _) ?_
  refine Prog.meets_bind_of_ok (deref_run (hlinker syms.dlerror) _) ?_
  refine Prog.meets_bind_of_ok (Prog.run_modify _ _) ?_
  refine callOrExit_bind_meets fun cydia => ?_
  refine Prog.meets_bind_of_ok (Prog.run_modify _ _) ?_
  refine callOrExit_bind_meets fun library => ?_
  refine Prog.meets_require_bind (fun hzero => ?_) fun hhandle => ?_
  · exact ⟨fun _ => rfl, fun hnot => absurd (fun h => absurd h hzero) hnot⟩
  rw [forall_prop_of_true hhandle]
  refine Prog.meets_bind_of_ok (Prog.run_modify _ _) ?_
  refine callOrExit_bind_meets fun dlsym => ?_
  refine Prog.meets_bind_of_ok (Prog.run_modify _ _) ?_
  refine callOrExit_bind_meets fun hook => ?_
  simp [Prog.Meets, Target.called, Target.stopAt, Script.calls]

theorem deref_keeps {α : Type} {o : Option α} :
    Prog.Keeps SameTraced (deref o : Prog (Target R) Halt α) := by
  cases o with
  | none => exact Prog.keeps_exit Halt.crashed
  | some a => exact Prog.keeps_pure a

theorem writeString_keeps {dest : Word} {s : List Byte} :
    Prog.Keeps SameTraced (writeString dest s : Prog (Target R) Halt PUnit) :=
  Prog.keeps_modify fun _ => rfl

theorem loadAndHook_keeps (regs : R) :
    Prog.Keeps SameTraced
      (loadAndHook arch env syms libraryPath cydiaPath functionName param
        regs) := by
  refine Prog.keeps_bind deref_keeps fun mmapAddr => ?_
  refine Prog.keeps_bind callOrExit_keeps fun regs => ?_
  refine Prog.keeps_bind deref_keeps fun dlopenAddr => ?_
  refine Prog.keeps_bind deref_keeps fun dlsymAddr => ?_
  refine Prog.keeps_bind deref_keeps fun _ => ?_
  refine Prog.keeps_bind deref_keeps fun _ => ?_
  refine Prog.keeps_bind writeString_keeps fun _ => ?_
  refine Prog.keeps_bind callOrExit_keeps fun regs => ?_
  refine Prog.keeps_bind writeString_keeps fun _ => ?_
  refine Prog.keeps_bind callOrExit_keeps fun regs => ?_
  refine Prog.keeps_bind Prog.keeps_require fun _ => ?_
  refine Prog.keeps_bind writeString_keeps fun _ => ?_
  refine Prog.keeps_bind callOrExit_keeps fun regs => ?_
  refine Prog.keeps_bind writeString_keeps fun _ => ?_
  refine Prog.keeps_bind callOrExit_keeps fun regs => ?_
  exact Prog.keeps_pure _

/-! ## The whole function -/

def Target.found (regs : R) (mem : Mem) : Target R := { regs := regs, mem := mem }

/-- The library is not mapped yet, and attaching works. -/
def Env.Attaches (env : Env R) (libraryPath : List Byte) : Prop :=
  getModuleBase env.mapsBefore libraryPath = some 0 ∧ env.attachOk = true

def Env.script (arch : Arch R) (env : Env R) : Option (Script R) :=
  if env.getregsOk then env.load arch else none

/-- The target after the last two calls of `ptrace`. -/
def Target.released (t : Target R) (env : Env R) (original : R) : Target R :=
  { t with
    regs := if env.setregsOk then original else t.regs
    traced := if env.detachOk then false else t.traced }

/-- Where it does not come to that, there is a result all the same: the library
is mapped, or the log can be opened. -/
def Env.Refuses (env : Env R) (libraryPath : List Byte) : Prop :=
  ∃ libaddr, getModuleBase env.mapsBefore libraryPath = some libaddr ∧
    (libaddr = 0 → env.logOk = true)

theorem attachTarget_of_not_attaches (h : ¬ env.Attaches libraryPath)
    (t : Target R) :
    ∃ e, e ≠ .exit 0 ∧ ((∃ ret, e = .exit ret) ↔ env.Refuses libraryPath) ∧
      (attachTarget env libraryPath).run t = (.error e, t) := by
  cases hbase : getModuleBase env.mapsBefore libraryPath with
  | none =>
      refine ⟨.crashed, by simp, ?_, Prog.run_bind_error ?_⟩
      · simp [Env.Refuses, hbase]
      · rw [hbase]
        rfl
  | some libaddr =>
      rw [attachTarget, Prog.run_bind_ok (deref_run hbase t)]
      by_cases hmapped : libaddr = 0
      · have hattach : env.attachOk = false := by
          simpa [Env.Attaches, hbase, hmapped] using h
        have hfailure := givesWhen_failure env (-1)
        refine ⟨env.failure (-1), ?_, ?_, ?_⟩
        · intro he
          exact absurd (hfailure.gives 0 he) (by omega)
        · rw [Env.Refuses, hbase]
          simp only [Option.some.injEq, exists_eq_left', hmapped, true_implies]
          exact hfailure.exists_exit_iff
        · rw [decide_eq_true hmapped,
            Prog.run_bind_ok (Prog.run_require_true _ t), hattach]
          exact Prog.run_bind_error (Prog.run_require_false _ t)
      · refine ⟨.exit (-2), by simp, ?_, ?_⟩
        · refine iff_of_true ⟨-2, rfl⟩ ⟨libaddr, hbase, fun hzero => ?_⟩
          exact absurd hzero hmapped
        · rw [decide_eq_false hmapped]
          exact Prog.run_bind_error (Prog.run_require_false _ t)

theorem injectRemoteProcess_of_not_attaches
    (h : ¬ env.Attaches libraryPath) (t : Target R) :
    ∃ e, e ≠ .exit 0 ∧ ((∃ ret, e = .exit ret) ↔ env.Refuses libraryPath) ∧
      (injectRemoteProcess arch env syms libraryPath cydiaPath functionName
        param).run t = (.error e, t) := by
  obtain ⟨e, he, hret, hrun⟩ := attachTarget_of_not_attaches env libraryPath h t
  exact ⟨e, he, hret, Prog.run_bind_error hrun⟩

theorem attachTarget_run (h : env.Attaches libraryPath) (t : Target R) :
    (attachTarget env libraryPath).run t =
      (if env.getregsOk then .ok t.regs else .error (env.failure (-1)),
        { t with traced := true }) := by
  obtain ⟨hbase, hattach⟩ := h
  rw [attachTarget, Prog.run_bind_ok (deref_run hbase t), decide_eq_true rfl,
    Prog.run_bind_ok (Prog.run_require_true _ t), hattach,
    Prog.run_bind_ok (Prog.run_require_true _ t),
    Prog.run_bind_ok (Prog.run_modify _ t)]
  cases env.getregsOk with
  | true => rfl
  | false => rfl

/-- The registers are read, and the calls come to a result or past the hook; or
the log can be opened. -/
def Env.Returns (arch : Arch R) (env : Env R) : Prop :=
  if env.getregsOk then env.Answers arch else env.logOk = true

/-- Without a script the injection leaves between attaching and the hook. -/
theorem injectRemoteProcess_of_no_script (h : env.Attaches libraryPath)
    (hscript : env.script arch = none) (t : Target R) :
    ∃ e t', GivesWhen (env.Returns arch) (-1) e ∧ t'.traced = true ∧
      (injectRemoteProcess arch env syms libraryPath cydiaPath functionName
        param).run t = (.error e, t') := by
  have hattach := attachTarget_run env libraryPath h t
  rw [Env.script] at hscript
  rw [Env.Returns]
  cases hget : env.getregsOk with
  | false =>
      rw [hget] at hattach
      exact ⟨env.failure (-1), _, givesWhen_failure env (-1), rfl,
        Prog.run_bind_error hattach⟩
  | true =>
      rw [hget] at hattach hscript
      have hload : env.load arch = none := hscript
      have hmeets := loadAndHook_meets arch env syms libraryPath cydiaPath
        functionName param t.regs { t with traced := true }
      rw [hload] at hmeets
      obtain ⟨e, t', hrun, he⟩ := hmeets
      have hkeeps := (loadAndHook_keeps arch env syms libraryPath cydiaPath
        functionName param t.regs).of_run hrun
      refine ⟨e, t', he, hkeeps, ?_⟩
      rw [injectRemoteProcess, Prog.run_bind_ok hattach]
      exact Prog.run_bind_error hrun

/-- With a script what is left is the last part, from the stop after the
hook. -/
theorem injectRemoteProcess_of_script (h : env.Attaches libraryPath)
    {s : Script R} (hscript : env.script arch = some s) (t : Target R) :
    (injectRemoteProcess arch env syms libraryPath cydiaPath functionName
        param).run t =
      (closeAndDetach arch env syms t.regs (arch.ptraceRetval s.library.regs)
        s.hook.regs).run
        { t.stopAt s.hook with
          traced := true
          calls := t.calls ++ s.calls arch env syms } := by
  have hattach := attachTarget_run env libraryPath h t
  rw [Env.script] at hscript
  split at hscript
  · rename_i hget
    rw [if_pos hget] at hattach
    have hmeets := loadAndHook_meets arch env syms libraryPath cydiaPath
      functionName param t.regs { t with traced := true }
    rw [hscript] at hmeets
    rw [injectRemoteProcess, Prog.run_bind_ok hattach, Prog.run_bind_ok hmeets]
    rfl
  · cases hscript

theorem closeAndDetach_run (original : R) (sohandle : Word) (regs : R)
    (t : Target R) :
    ∃ t', (closeAndDetach arch env syms original sohandle regs).run t =
        (match env.dlclose.result with
          | .returned _ => .ok 0
          | .failed => .error (env.failure (arch.ptraceRetval regs).toInt)
          | .waiting => .error .waiting, t') ∧
      match env.dlclose.result with
      | .returned s => t' =
          (t.called arch .dlclose syms.dlclose [sohandle] s).released env original
      | _ => t'.traced = t.traced := by
  obtain ⟨t', hrun, ht'⟩ := callOrExit_run arch env env.dlclose .dlclose
    syms.dlclose [sohandle] regs (arch.ptraceRetval regs).toInt t
  have hkeeps : SameTraced t t' := callOrExit_keeps.of_run hrun
  rw [closeAndDetach]
  cases hres : env.dlclose.result with
  | returned s =>
      rw [hres] at hrun
      rw [ht' s hres] at hrun
      refine ⟨_, ?_, rfl⟩
      rw [Prog.run_bind_ok hrun, Prog.run_bind_ok (Prog.run_modify _ _),
        Prog.run_bind_ok (Prog.run_modify _ _), Target.released]
      cases env.setregsOk <;> cases env.detachOk <;> rfl
  | failed =>
      rw [hres] at hrun
      exact ⟨t', Prog.run_bind_error hrun, hkeeps⟩
  | waiting =>
      rw [hres] at hrun
      exact ⟨t', Prog.run_bind_error hrun, hkeeps⟩

/-- The target that the last lines leave behind a last call that returned. -/
def lastTarget (regs : R) (mem : Mem) (s : Script R) (last : Stop R) :
    Target R :=
  (Target.called
    { (Target.found regs mem).stopAt s.hook with
      traced := true
      calls := [] ++ s.calls arch env syms }
    arch .dlclose syms.dlclose [arch.ptraceRetval s.library.regs]
    last).released env regs

theorem lastTarget_regs (regs : R) (mem : Mem) (s : Script R) (last : Stop R) :
    (lastTarget arch env syms regs mem s last).regs =
      if env.setregsOk then regs else last.regs := rfl

theorem lastTarget_traced (regs : R) (mem : Mem) (s : Script R)
    (last : Stop R) :
    (lastTarget arch env syms regs mem s last).traced =
      if env.detachOk then false else true := rfl

/-- Given back or not, the target is what the answers to the last two calls of
`ptrace` make of it. -/
theorem lastTarget_intact_iff (regs : R) (mem : Mem) (s : Script R)
    (last : Stop R) :
    ((lastTarget arch env syms regs mem s last).traced = false ∧
      (lastTarget arch env syms regs mem s last).regs = regs) ↔
    (env.detachOk = true ∧ (env.setregsOk = true ∨ last.regs = regs)) := by
  rw [lastTarget_traced, lastTarget_regs]
  cases env.detachOk <;> cases env.setregsOk <;> simp

/-- With a script, the last call decides what the function comes to. -/
theorem injectRemoteProcess_run (h : env.Attaches libraryPath)
    {s : Script R} (hscript : env.script arch = some s) (regs : R) (mem : Mem) :
    ∃ t', (injectRemoteProcess arch env syms libraryPath cydiaPath functionName
        param).run (.found regs mem) =
        (match env.dlclose.result with
          | .returned _ => .ok 0
          | .failed => .error
              (env.failure (arch.ptraceRetval s.hook.regs).toInt)
          | .waiting => .error .waiting, t') ∧
      match env.dlclose.result with
      | .returned last => t' = lastTarget arch env syms regs mem s last
      | _ => t'.traced = true := by
  rw [injectRemoteProcess_of_script arch env syms libraryPath cydiaPath
    functionName param h hscript]
  exact closeAndDetach_run arch env syms regs
    (arch.ptraceRetval s.library.regs) s.hook.regs
    { (Target.found regs mem).stopAt s.hook with
      traced := true
      calls := [] ++ s.calls arch env syms }

theorem injectRemoteProcess_of_returned (h : env.Attaches libraryPath)
    {s : Script R} (hscript : env.script arch = some s) {last : Stop R}
    (hres : env.dlclose.result = .returned last) (regs : R) (mem : Mem) :
    (injectRemoteProcess arch env syms libraryPath cydiaPath functionName
        param).run (.found regs mem) =
      (.ok 0, lastTarget arch env syms regs mem s last) := by
  obtain ⟨t', hrun, ht'⟩ := injectRemoteProcess_run arch env syms libraryPath
    cydiaPath functionName param h hscript regs mem
  rw [hres] at hrun ht'
  exact hrun.trans (congrArg (Prod.mk _) ht')

/-- When the last call does not return, neither the registers nor the trace
are given up. -/
theorem injectRemoteProcess_of_not_returned (h : env.Attaches libraryPath)
    {s : Script R} (hscript : env.script arch = some s)
    (hres : env.dlclose.result.stop? = none) (regs : R) (mem : Mem) :
    ∃ t', t'.traced = true ∧
      (injectRemoteProcess arch env syms libraryPath cydiaPath functionName
        param).run (.found regs mem) =
        (match env.dlclose.result with
          | .returned _ => .ok 0
          | .failed => .error
              (env.failure (arch.ptraceRetval s.hook.regs).toInt)
          | .waiting => .error .waiting, t') := by
  obtain ⟨t', hrun, ht'⟩ := injectRemoteProcess_run arch env syms libraryPath
    cydiaPath functionName param h hscript regs mem
  refine ⟨t', ?_, hrun⟩
  cases hclose : env.dlclose.result with
  | returned last =>
      rw [hclose] at hres
      cases hres
  | failed =>
      rw [hclose] at ht'
      exact ht'
  | waiting =>
      rw [hclose] at ht'
      exact ht'

end Inject

end Elfupspeed.Elfinject
