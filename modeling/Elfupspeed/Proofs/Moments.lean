import Elfupspeed.Proofs.Injection
import Elfupspeed.Spec.Moments

/-!
# What the target is resumed with

Which calls an injection makes, and what each of them is handed, follows from
the answers it has had by then: `pending` reads it off them. The lemmas on
`Resumes` say of each kind of step how a run that is left waiting has passed
it, and the six places are one chain of these steps.
-/

namespace Elfupspeed.Elfinject

open Elfupspeed.Lib Elfupspeed.Lib.CString

variable {R : Type}

/-! ## Passing a step -/

/-- The run is left waiting after `n` more calls have run to their end, with
the target in the state `r` and `m`. -/
def Resumes {α : Type} (n : ℕ) (p : Prog (Target R) Halt α) (t : Target R)
    (r : R) (m : Mem) : Prop :=
  ∃ t', p.run t = (.error .waiting, t') ∧
    t'.calls.length = t.calls.length + n ∧ t'.regs = r ∧ t'.mem = m

section Steps

variable {α β : Type} {arch : Arch R} {env : Env R} {call : CallEnv R}
  {name : FuncName} {addr : Word} {params : List Word} {regs r : R} {ret : ℤ}
  {n : ℕ} {t t₁ : Target R} {m : Mem} {p : Prog (Target R) Halt α}
  {f : α → Prog (Target R) Halt β}

theorem resumes_bind_of_ok {a : α} (hrun : p.run t = (.ok a, t₁))
    (hcalls : t₁.calls = t.calls) :
    Resumes n (p >>= f) t r m ↔ Resumes n (f a) t₁ r m := by
  rw [Resumes, Resumes, Prog.run_bind_ok hrun, hcalls]

theorem resumes_pure {a : α} :
    Resumes n (pure a >>= f) t r m ↔ Resumes n (f a) t r m :=
  resumes_bind_of_ok (Prog.run_pure a t) rfl

theorem resumes_deref {a : α} :
    Resumes n (deref (some a) >>= f) t r m ↔ Resumes n (f a) t r m :=
  resumes_bind_of_ok (deref_run rfl t) rfl

theorem resumes_writeString {dest : Word} {s : List Byte}
    {f : PUnit → Prog (Target R) Halt β} :
    Resumes n (writeString dest s >>= f) t r m ↔
      Resumes n (f ⟨⟩) { t with mem := ptraceWritedata t.mem dest (cstr s ++ [0]) }
        r m :=
  resumes_bind_of_ok (Prog.run_modify _ t) rfl

theorem resumes_require {b : Bool} {e : Halt} (he : e ≠ .waiting)
    {f : PUnit → Prog (Target R) Halt β} :
    Resumes n (Prog.require b e >>= f) t r m ↔
      b = true ∧ Resumes n (f ⟨⟩) t r m := by
  cases b with
  | true =>
      rw [resumes_bind_of_ok (Prog.run_require_true e t) rfl]
      simp
  | false =>
      rw [Resumes, Prog.run_bind_error (Prog.run_require_false e t)]
      simp [he]

theorem failure_ne_waiting (env : Env R) (ret : ℤ) : env.failure ret ≠ .waiting := by
  rw [Env.failure]
  split <;> simp

theorem callOrExit_of_waiting {t' : Target R}
    (h : (ptraceCall arch call addr params regs).run t = (.error .waiting, t')) :
    (callOrExit arch env call name addr params regs ret).run t =
      (.error .waiting, t') :=
  Prog.run_bind_error (Prog.run_bind_error h)

/-- A run that is left waiting in a call has not run it to its end. -/
theorem callOrExit_waiting_calls {t' : Target R}
    (h : (callOrExit arch env call name addr params regs ret).run t =
      (.error .waiting, t')) : t'.calls = t.calls := by
  obtain ⟨t₁, hrun, -⟩ := ptraceCall_run arch call addr params regs t
  obtain ⟨t₂, hrun', -⟩ := callOrExit_run arch env call name addr params regs ret t
  rw [hrun'] at h
  obtain ⟨hend, -⟩ := Prod.mk.inj h
  cases hstop : call.stop with
  | waiting =>
      rw [hstop] at hrun
      have hcall : (callOrExit arch env call name addr params regs ret).run t =
          (.error .waiting, t₁) := callOrExit_of_waiting hrun
      obtain ⟨-, rfl⟩ := Prod.mk.inj ((hcall.symm.trans hrun').trans h)
      exact (ptraceCall_keeps (fun _ _ _ => rfl) arch call addr params regs :
        Prog.Keeps SameCalls _).of_run hrun
  | returned s =>
      exfalso
      simp only [CallEnv.result, hstop] at hend
      cases hget : call.getregsOk with
      | true =>
          rw [hget] at hend
          cases hend
      | false =>
          rw [hget] at hend
          exact failure_ne_waiting env ret (Except.error.inj hend)
  | failed =>
      exfalso
      simp only [CallEnv.result, hstop] at hend
      exact failure_ne_waiting env ret (Except.error.inj hend)

theorem resumes_call_succ {f : R → Prog (Target R) Halt β} :
    Resumes (n + 1) (callOrExit arch env call name addr params regs ret >>= f)
        t r m ↔
      ∃ s, call.result.stop? = some s ∧
        Resumes n (f s.regs) (t.called arch name addr params s) r m := by
  obtain ⟨t', hrun, ht'⟩ := callOrExit_run arch env call name addr params regs ret t
  cases hres : call.result with
  | returned s =>
      rw [hres] at hrun
      rw [ht' s hres] at hrun
      have hlen : (t.called arch name addr params s).calls.length + n =
          t.calls.length + (n + 1) := by
        simp only [Target.called, List.length_append, List.length_singleton]
        omega
      rw [Resumes, Prog.run_bind_ok hrun, ← hlen]
      simp [CallResult.stop?, Resumes]
  | failed =>
      rw [hres] at hrun
      rw [Resumes, Prog.run_bind_error hrun]
      simp [CallResult.stop?, failure_ne_waiting]
  | waiting =>
      rw [hres] at hrun
      rw [Resumes, Prog.run_bind_error hrun, CallResult.stop?]
      have hcalls := congrArg List.length (callOrExit_waiting_calls hrun)
      constructor
      · rintro ⟨t₁, h, hlen, -⟩
        obtain ⟨-, rfl⟩ := Prod.mk.inj h
        omega
      · rintro ⟨s, hs, -⟩
        cases hs

theorem resumes_call_zero {f : R → Prog (Target R) Halt β} :
    Resumes 0 (callOrExit arch env call.paused name addr params regs ret >>= f)
        t r m ↔
      (call.setregsOk = true ∧ call.continueOk = true) ∧
        arch.enter t.mem regs addr params = (r, m) := by
  by_cases h : call.setregsOk = true ∧ call.continueOk = true
  · have hset : call.paused.setregsOk = true := h.1
    have hcont : call.paused.continueOk = true := h.2
    have hcall : (ptraceCall arch call.paused addr params regs).run t =
        (.error .waiting, { t with
          mem := (arch.enter t.mem regs addr params).2
          regs := (arch.enter t.mem regs addr params).1 }) :=
      ptraceCall_of_resumed hset hcont addr params regs t
    rw [Resumes, Prog.run_bind_error (callOrExit_of_waiting hcall)]
    simp [h, Prod.ext_iff]
  · obtain ⟨t', hrun, -⟩ :=
      callOrExit_run arch env call.paused name addr params regs ret t
    have hres : call.paused.result = .failed := by
      rw [CallEnv.result, CallEnv.stop, if_neg]
      simpa [CallEnv.paused] using h
    rw [hres] at hrun
    rw [Resumes, Prog.run_bind_error hrun]
    simp [h, failure_ne_waiting]

theorem resumes_attachTarget {libraryPath : List Byte}
    {f : R → Prog (Target R) Halt β} :
    Resumes n (attachTarget env libraryPath >>= f) t r m ↔
      env.Attaches libraryPath ∧ env.getregsOk = true ∧
        Resumes n (f t.regs) { t with traced := true } r m := by
  cases hbase : getModuleBase env.mapsBefore libraryPath with
  | none =>
      have hrun : (attachTarget env libraryPath).run t = (.error .crashed, t) := by
        rw [attachTarget, hbase]
        rfl
      rw [Resumes, Prog.run_bind_error hrun]
      simp [Env.Attaches, hbase]
  | some libaddr =>
      rw [attachTarget, hbase, Prog.bind_assoc, resumes_deref, Prog.bind_assoc,
        resumes_require (by simp), Prog.bind_assoc,
        resumes_require (failure_ne_waiting env (-1)), Prog.bind_assoc,
        resumes_bind_of_ok (Prog.run_modify _ t) rfl, Prog.bind_assoc,
        resumes_require (failure_ne_waiting env (-1)), Prog.bind_assoc,
        resumes_bind_of_ok (Prog.run_get _) rfl,
        resumes_pure]
      simp [Env.Attaches, hbase, and_assoc, Resumes]

end Steps

/-! ## The six calls -/

/-- What a call is entered with, and where from. -/
structure Pending (R : Type) where
  entry : Word
  params : List Word
  regs : R
  mem : Mem

/-- The call that is due at a place, if the calls before it have returned. -/
def Env.pending (arch : Arch R) (env : Env R) (syms : Symbols)
    (libraryPath cydiaPath functionName param : List Byte) (regs : R) (mem : Mem) :
    Site → Option (Pending R)
  | .mmap =>
      some ⟨remoteAddr env.selfMaps env.mapsAttached libcPath syms.mmap,
        [0, 0x4000, 7, 0x22, -1, 0], regs, mem⟩
  | .dlopenCydia =>
      env.mmap.result.stop?.bind fun mmap =>
      let dest := arch.ptraceRetval mmap.regs + 0x300
      some ⟨remoteAddr env.selfMaps env.mapsMapped linkerPath syms.dlopen,
        [dest, 2], mmap.regs,
        ptraceWritedata mmap.mem dest (cstr cydiaPath ++ [0])⟩
  | .dlopenLibrary =>
      env.mmap.result.stop?.bind fun mmap =>
      env.dlopenCydia.result.stop?.bind fun cydia =>
      let dest := arch.ptraceRetval mmap.regs
      some ⟨remoteAddr env.selfMaps env.mapsMapped linkerPath syms.dlopen,
        [dest, 2], cydia.regs,
        ptraceWritedata cydia.mem dest (cstr libraryPath ++ [0])⟩
  | .dlsym =>
      env.mmap.result.stop?.bind fun mmap =>
      env.dlopenCydia.result.stop?.bind fun _ =>
      env.dlopenLibrary.result.stop?.bind fun library =>
      let handle := arch.ptraceRetval library.regs
      let dest := arch.ptraceRetval mmap.regs + 0x100
      if handle ≠ 0 then
        some ⟨remoteAddr env.selfMaps env.mapsMapped linkerPath syms.dlsym,
          [handle, dest], library.regs,
          ptraceWritedata library.mem dest (cstr functionName ++ [0])⟩
      else none
  | .hookEntry =>
      env.mmap.result.stop?.bind fun mmap =>
      env.dlopenCydia.result.stop?.bind fun _ =>
      env.dlopenLibrary.result.stop?.bind fun library =>
      let dest := arch.ptraceRetval mmap.regs + 0x200
      if arch.ptraceRetval library.regs ≠ 0 then
        env.dlsym.result.stop?.bind fun dlsym =>
        some ⟨arch.ptraceRetval dlsym.regs, [dest], dlsym.regs,
          ptraceWritedata dlsym.mem dest (cstr param ++ [0])⟩
      else none
  | .dlclose =>
      (env.load arch).bind fun s =>
      some ⟨syms.dlclose, [arch.ptraceRetval s.library.regs], s.hook.regs,
        s.hook.mem⟩

section Calls

variable {arch : Arch R} {env : Env R} {syms : Symbols}
  {libraryPath cydiaPath functionName param : List Byte} {t t' : Target R} {r : R}
  {m : Mem} {k : Site}

theorem resumedAt_iff_resumes :
    (∃ t', resumedAt arch env syms libraryPath cydiaPath functionName param t k =
        some t' ∧ t'.regs = r ∧ t'.mem = m) ↔
      Resumes k.index (injectRemoteProcess arch (env.pausedAt k) syms libraryPath
        cydiaPath functionName param) t r m := by
  rw [resumedAt, Resumes]
  split
  · next t₁ hrun =>
      rw [hrun]
      by_cases hlen : t₁.calls.length = t.calls.length + k.index
      · simp [hlen]
      · simp [hlen]
  · next hne =>
      refine iff_of_false (by simp) ?_
      rintro ⟨t₁, hrun, -⟩
      exact hne t₁ hrun

theorem pausedAt_attaches :
    (env.pausedAt k).Attaches libraryPath ↔ env.Attaches libraryPath := by
  cases k <;> rfl

theorem pausedAt_getregsOk : (env.pausedAt k).getregsOk = env.getregsOk := by
  cases k <;> rfl

theorem exists_bind_eq_some {α β : Type} {o : Option α} {f : α → Option β}
    {P : β → Prop} :
    (∃ b, o.bind f = some b ∧ P b) ↔
      ∃ a, o = some a ∧ ∃ b, f a = some b ∧ P b := by
  cases o <;> simp

theorem exists_ite_eq_some {α : Type} {c : Prop} [Decidable c] {o : Option α}
    {P : α → Prop} :
    (∃ a, (if c then o else none) = some a ∧ P a) ↔
      c ∧ ∃ a, o = some a ∧ P a := by
  split <;> simp [*]

/-- From `mmap` on. -/
theorem resumes_loadAndHook {regs : R} :
    Resumes k.index
        (loadAndHook arch (env.pausedAt k) syms libraryPath cydiaPath functionName
          param regs >>= fun loaded =>
          closeAndDetach arch (env.pausedAt k) syms regs loaded.1 loaded.2) t r m ↔
      ∃ q, env.pending arch syms libraryPath cydiaPath functionName param regs
          t.mem k = some q ∧
        ((env.call k).setregsOk = true ∧ (env.call k).continueOk = true) ∧
          arch.enter q.mem q.regs q.entry q.params = (r, m) := by
  have hlibc := fun selfMaps targetMaps localAddr =>
    getRemoteAddr_eq libcPath_not_dashes selfMaps targetMaps localAddr
  have hlinker := fun selfMaps targetMaps localAddr =>
    getRemoteAddr_eq linkerPath_not_dashes selfMaps targetMaps localAddr
  have hexit : Halt.exit (-1) ≠ .waiting := by simp
  cases k <;>
    simp only [loadAndHook, closeAndDetach, Env.pausedAt, Env.pending, Env.load,
      Env.call, Site.index, Prog.bind_assoc, hlibc, hlinker, resumes_deref,
      resumes_pure, resumes_writeString, resumes_require hexit,
      resumes_call_zero, resumes_call_succ, exists_bind_eq_some,
      exists_ite_eq_some, decide_eq_true_eq, Target.called, Target.stopAt,
      Option.some.injEq, exists_eq_left']

/-- At each place the target is resumed with what is due there, if the
injector attaches and it can resume the target at all. -/
theorem resumed_iff :
    (∃ t', resumedAt arch env syms libraryPath cydiaPath functionName param t k =
        some t' ∧ t'.regs = r ∧ t'.mem = m) ↔
      (env.Attaches libraryPath ∧ env.getregsOk = true) ∧
      ∃ q, env.pending arch syms libraryPath cydiaPath functionName param t.regs
          t.mem k = some q ∧
        ((env.call k).setregsOk = true ∧ (env.call k).continueOk = true) ∧
          arch.enter q.mem q.regs q.entry q.params = (r, m) := by
  rw [resumedAt_iff_resumes, injectRemoteProcess, resumes_attachTarget,
    pausedAt_attaches, pausedAt_getregsOk, resumes_loadAndHook, and_assoc]

/-- The injector attaches, the calls before this one return, and the target can
be resumed. -/
def Env.Makes (arch : Arch R) (env : Env R) (syms : Symbols)
    (libraryPath cydiaPath functionName param : List Byte) (t : Target R)
    (k : Site) : Prop :=
  (env.Attaches libraryPath ∧ env.getregsOk = true) ∧
    ((env.call k).setregsOk = true ∧ (env.call k).continueOk = true) ∧
    (env.pending arch syms libraryPath cydiaPath functionName param t.regs t.mem
      k).isSome

/-- What is resumed is what is due. -/
theorem resumed_pending
    (h : resumedAt arch env syms libraryPath cydiaPath functionName param t k =
      some t') :
    env.Makes arch syms libraryPath cydiaPath functionName param t k ∧
      ∃ q, env.pending arch syms libraryPath cydiaPath functionName param t.regs
          t.mem k = some q ∧
        arch.enter q.mem q.regs q.entry q.params = (t'.regs, t'.mem) := by
  obtain ⟨hattach, q, hq, hresume, henter⟩ := resumed_iff.mp ⟨t', h, rfl, rfl⟩
  exact ⟨⟨hattach, hresume, by rw [hq]; rfl⟩, q, hq, henter⟩

theorem makes_iff :
    env.Makes arch syms libraryPath cydiaPath functionName param t k ↔
      (resumedAt arch env syms libraryPath cydiaPath functionName param t
        k).isSome := by
  constructor
  · intro ⟨hattach, hresume, hdue⟩
    obtain ⟨q, hq⟩ := Option.isSome_iff_exists.mp hdue
    obtain ⟨t', ht', -⟩ := resumed_iff.mpr ⟨hattach, q, hq, hresume, rfl⟩
    rw [ht']
    rfl
  · intro h
    obtain ⟨t', ht'⟩ := Option.isSome_iff_exists.mp h
    exact (resumed_pending ht').1

end Calls

end Elfupspeed.Elfinject
