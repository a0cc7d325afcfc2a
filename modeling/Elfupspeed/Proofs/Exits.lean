import Elfupspeed.Proofs.Injection

/-!
# What an injection leaves behind, and what its result is worth

`inject_remote_process` gives the target back only on its last lines, so of
all its ways out one leaves the target as it was found. And it gives 0 there
whatever the calls it made had answered: that the hook had failed, that a
pointer had been null, that the registers were not restored, and that the last
call has just closed the library it opened. What goes wrong before gives an
error, but for a log that does not open, to which the failure is then written,
and a target that is waited for and never stops.
-/

namespace Elfupspeed.Elfinject

open Elfupspeed.Lib

variable {R : Type} (arch : Arch R) (env : Env R) (syms : Symbols)
  (libraryPath cydiaPath functionName param : List Byte)

/-! ## The target given back -/

/-- Every call returns, the library opens, and the target is let go with the
registers it had. -/
def Env.Finishes (original : R) : Prop :=
  (env.script arch).isSome ∧ env.detachOk = true ∧
    ∃ last, env.dlclose.result = .returned last ∧
      (env.setregsOk = true ∨ last.regs = original)

/-- A target that the injector does not get to attach to is not touched. One
that it attaches to is given back as it was, when the function returns, if and
only if nothing fails. -/
theorem target_left_intact_iff (regs : R) (mem : Mem) :
    let out := (injectRemoteProcess arch env syms libraryPath cydiaPath
      functionName param).run (.found regs mem)
    (¬ env.Attaches libraryPath → out.2 = .found regs mem) ∧
    (env.Attaches libraryPath → (result out.1).isSome →
      ((out.2.traced = false ∧ out.2.regs = regs) ↔
        env.Finishes arch regs)) := by
  intro out
  refine ⟨fun h => ?_, fun h hret => ?_⟩
  · obtain ⟨e, -, -, hrun⟩ := injectRemoteProcess_of_not_attaches arch env syms
      libraryPath cydiaPath functionName param h (.found regs mem)
    exact congrArg Prod.snd hrun
  · cases hscript : env.script arch with
    | none =>
        obtain ⟨e, t', -, htraced, hrun⟩ := injectRemoteProcess_of_no_script
          arch env syms libraryPath cydiaPath functionName param h hscript
          (.found regs mem)
        have hout : out.2 = t' := congrArg Prod.snd hrun
        simp [hout, htraced, Env.Finishes, hscript]
    | some s =>
        cases hstop : env.dlclose.result.stop? with
        | none =>
            obtain ⟨t', htraced, hrun⟩ := injectRemoteProcess_of_not_returned
              arch env syms libraryPath cydiaPath functionName param h hscript
              hstop regs mem
            have hout : out.2 = t' := congrArg Prod.snd hrun
            have hnever : ∀ last, env.dlclose.result ≠ .returned last := by
              intro last hres
              rw [hres] at hstop
              cases hstop
            simp [hout, htraced, Env.Finishes, hnever]
        | some last =>
            have hres := returned_of_stop? hstop
            have hout : out.2 = lastTarget arch env syms regs mem s last :=
              congrArg Prod.snd (injectRemoteProcess_of_returned arch env syms
                libraryPath cydiaPath functionName param h hscript hres regs mem)
            rw [hout, lastTarget_intact_iff]
            simp [Env.Finishes, hscript, hres]

def r0Regs (r0 : Word) : PtRegs := ⟨(Vector.replicate 18 0).set 0 r0 (Nat.zero_lt_succ 17)⟩

def returning (r0 : Word) : CallEnv PtRegs where
  setregsOk := true
  continueOk := true
  waits := [(some ⟨0xb7f, r0Regs r0, fun _ => none⟩, true)]
  getregsOk := true

/-- Everything works, and the six calls return what is given. -/
def replies (mmap cydia library dlsym hook dlclose : Word) : Env PtRegs where
  selfMaps := none
  mapsBefore := none
  mapsAttached := none
  mapsMapped := none
  attachOk := true
  getregsOk := true
  mmap := returning mmap
  dlopenCydia := returning cydia
  dlopenLibrary := returning library
  dlsym := returning dlsym
  hookEntry := returning hook
  dlclose := returning dlclose
  setregsOk := true
  detachOk := true
  logOk := true

def symbolsAt : Symbols := ⟨0x10, 0x20, 0x30, 0x40, 0x50⟩

/-- A library that does not open: the function returns, and the target stays
attached with the registers of the call. -/
theorem target_left_attached :
    ¬ ∀ (env : Env PtRegs) (regs : PtRegs) (mem : Mem),
      let out := (injectRemoteProcess arm env symbolsAt [97] [98] [99] []).run
        (.found regs mem)
      env.Attaches [97] → (result out.1).isSome →
        out.2.traced = false ∧ out.2.regs = regs := by
  intro h
  have hout := h (replies 0x40000000 1 0 0 0 0) (r0Regs 7) (fun _ => none)
    ⟨by decide +kernel, rfl⟩ (by decide +kernel)
  exact absurd hout.1 (by decide +kernel)

theorem target_left_intact_once :
    let out := (injectRemoteProcess arm (replies 0x40000000 1 2 3 0 0)
      symbolsAt [97] [98] [99] []).run (.found (r0Regs 7) fun _ => none)
    out.2.traced = false ∧ out.2.regs = r0Regs 7 := by
  have hfin : (replies 0x40000000 1 2 3 0 0).Finishes arm (r0Regs 7) :=
    ⟨by decide +kernel, rfl, ⟨0xb7f, r0Regs 0, fun _ => none⟩, rfl, .inl rfl⟩
  have hiff := (target_left_intact_iff arm (replies 0x40000000 1 2 3 0 0)
    symbolsAt [97] [98] [99] [] (r0Regs 7)
    fun _ => none).2 ⟨by decide +kernel, rfl⟩ (by decide +kernel)
  exact hiff.mpr hfin

/-! ## What 0 stands for -/

/-- Where the loader of the target has its two functions, and how often it has
the library open before. -/
structure Loader where
  dlopen : Word
  dlclose : Word
  opened : ℕ

def Loader.count (loader : Loader) (handle : Word) (calls : List RemoteCall) :
    ℤ :=
  loader.opened +
    calls.countP (fun c => c.entry = loader.dlopen ∧ c.ret = handle) -
    calls.countP fun c =>
      c.entry = loader.dlclose ∧ c.params.head? = some handle

/-- The injection has done what its result 0 stands for. -/
structure Injected (loader : Loader) (original : R) (t : Target R) : Prop where
  hooked : ∃ mmap cydia library dlsym hook rest,
    t.calls = mmap :: cydia :: library :: dlsym :: hook :: rest ∧
    (mmap.name = .mmap ∧ mmap.ret ≠ -1) ∧
    (library.name = .dlopen ∧ library.ret ≠ 0) ∧
    (dlsym.name = .dlsym ∧ dlsym.ret ≠ 0) ∧
    (hook.name = .hookEntry ∧ hook.entry = dlsym.ret ∧ 0 ≤ hook.ret.toInt) ∧
    1 ≤ loader.count library.ret t.calls
  restored : t.regs = original
  detached : t.traced = false

/-- What the result has to say: 0 for an injection that was done, or something
else. -/
def Sound (loader : Loader) (original : R) (out : Except Halt ℤ × Target R) :
    Prop :=
  result out.1 = some 0 ∧ Injected loader original out.2 ∨
    ∃ ret, result out.1 = some ret ∧ ret ≠ 0

/-- The answers that keep a result 0 given after the last call from being
given in vain. -/
structure Env.SoundAt (loader : Loader) (original : R) (s : Script R)
    (last : Stop R) : Prop where
  mapped : arch.ptraceRetval s.mmap.regs ≠ -1
  found : arch.ptraceRetval s.dlsym.regs ≠ 0
  hooked : 0 ≤ (arch.ptraceRetval s.hook.regs).toInt
  detached : env.detachOk = true
  restored : env.setregsOk = true ∨ last.regs = original
  loaded : 1 ≤ loader.count (arch.ptraceRetval s.library.regs)
    (s.calls arch env syms ++ [⟨.dlclose, syms.dlclose,
      [arch.ptraceRetval s.library.regs], arch.ptraceRetval last.regs⟩])

/-- When the last call fails the result is the hook's, and there is one if the
log can be opened; when it returns the result is 0 in any case. -/
def Env.SoundLast (loader : Loader) (original : R) : Prop :=
  ∀ s, env.script arch = some s →
    match env.dlclose.result with
    | .waiting => False
    | .failed => env.logOk = true ∧ arch.ptraceRetval s.hook.regs ≠ 0
    | .returned last => env.SoundAt arch syms loader original s last

/-- The injector does not attach and says so; or what it does up to the hook
comes to a result or past it, and the last call to a sound one. -/
structure Env.Sound (loader : Loader) (original : R) : Prop where
  refuses : ¬ env.Attaches libraryPath → env.Refuses libraryPath
  returns : env.Attaches libraryPath → env.Returns arch
  last : env.Attaches libraryPath → env.SoundLast arch syms loader original

section Last

variable {arch env syms} {loader : Loader} {regs : R} {mem : Mem}
  {s : Script R} {last : Stop R}

end Last

end Elfupspeed.Elfinject
