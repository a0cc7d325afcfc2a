import Elfupspeed.Proofs.RemoteCall
import Elfupspeed.Proofs.RemoteCopy
import Elfupspeed.Spec.Convention

/-!
# A remote call is entered as its convention has it

`ptrace_call` sets the registers up, writes what is left of the parameters
below the stack pointer and resumes the target. The words on the stack are one
write of bytes, which ends where the stack pointer was, so nothing from there
on changes; and the word at a place in that run is the parameter that belongs
there.
-/

namespace Elfupspeed.Elfinject

open Elfupspeed.Lib Elfupspeed.Lib.Memory

variable {mem : Mem} {sp : Word} {params : List Word}

/-! ## Words on the stack -/

theorem bytesOf_cons (p : Word) (params : List Word) :
    bytesOf (p :: params) = bytesOf [p] ++ bytesOf params := by
  simp [bytesOf]

theorem wordAt_of_holds (h : Holds mem sp (bytesOf params)) {k : ℕ}
    (hk : k < params.length) :
    wordAt mem (sp + BitVec.ofNat 32 (4 * k)) = some params[k] := by
  induction params generalizing sp k with
  | nil => simp at hk
  | cons p params ih =>
      rw [bytesOf_cons, holds_append, length_bytesOf] at h
      cases k with
      | zero =>
          have hzero : sp + BitVec.ofNat 32 (4 * 0) = sp := by simp
          rw [hzero]
          exact wordAt_eq_some.mpr h.1
      | succ k =>
          have hword := ih h.2 (by simpa using hk)
          rw [BitVec.add_assoc, ← BitVec.ofNat_add] at hword
          rw [List.getElem_cons_succ, ← hword]
          congr 3
          simp only [List.length_singleton]
          omega

/-- A write below the stack pointer ends there. -/
theorem write_below {n : ℕ} (hn : n ≤ sp.toNat) {data : List Byte}
    (hlen : data.length ≤ n) {x : Word} (hx : sp ≤ x) :
    write mem (sp - BitVec.ofNat 32 n) data x = mem x := by
  apply write_of_le
  have hbase : (sp - BitVec.ofNat 32 n).toNat = sp.toNat - n :=
    toNat_sub_ofNat hn
  rw [BitVec.le_def] at hx
  rw [offset_of_le (by omega), hbase]
  omega

theorem ptraceWritedata_params (params : List Word)
    (hlen : 4 * params.length ≤ 2 ^ 32)
    (hmapped : Mapped mem sp (4 * params.length)) :
    ptraceWritedata mem sp (bytesOf params) = write mem sp (bytesOf params) := by
  have hround : rounded (bytesOf params).length = 4 * params.length := by
    rw [length_bytesOf, rounded]
    omega
  exact ptraceWritedata_eq (by omega) (by rwa [hround])

/-! ## Registers on ARM -/

theorem foldl_setIfInBounds (xs : List Word) (k : ℕ) (u : Vector Word 18) {i : ℕ}
    (hi : i < 18) :
    ((xs.zipIdx k).foldl (fun u p => u.setIfInBounds p.2 p.1) u)[i] =
      if i < k then u[i] else xs[i - k]?.getD u[i] := by
  induction xs generalizing k u with
  | nil => simp
  | cons x xs ih =>
      rw [List.zipIdx_cons, List.foldl_cons, ih, Vector.getElem_setIfInBounds]
      rcases Nat.lt_trichotomy i k with hlt | rfl | hgt
      · rw [if_pos (by omega), if_pos hlt, if_neg (by omega)]
      · simp
      · rw [if_neg (by omega), if_neg (by omega), if_neg (by omega),
          show i - k = i - (k + 1) + 1 by omega, List.getElem?_cons_succ]

theorem uregs_setParams (regs : PtRegs) (params : List Word) {i : ℕ}
    (hi : i < 18) :
    (regs.setParams params).uregs[i] =
      (params.take 4)[i]?.getD regs.uregs[i] := by
  simp only [PtRegs.setParams, foldl_setIfInBounds _ 0 _ hi]
  simp

theorem uregs_setSp (regs : PtRegs) {i : ℕ} (hi : i < 18) (hne : i ≠ 13) :
    (regs.setSp sp).uregs[i] = regs.uregs[i] :=
  Vector.getElem_set_ne (by omega : 13 < 18) hi (Ne.symm hne)

theorem uregs_setPc (regs : PtRegs) (addr : Word) {i : ℕ} (hi : i < 18)
    (hne : i ∉ [14, 15, 16]) : (regs.setPc addr).uregs[i] = regs.uregs[i] := by
  simp only [List.mem_cons, List.not_mem_nil, or_false, not_or] at hne
  obtain ⟨h₁₄, h₁₅, h₁₆⟩ := hne
  rw [PtRegs.setPc]
  split <;> simp [Ne.symm h₁₄, Ne.symm h₁₅, Ne.symm h₁₆]

theorem lr_setPc (regs : PtRegs) (addr : Word) :
    (regs.setPc addr).lr = 0 := by
  rw [PtRegs.setPc]
  split <;> simp [PtRegs.lr]

theorem cpsr_setPc (regs : PtRegs) (addr : Word) :
    (regs.setPc addr).cpsr =
      if addr &&& 1 ≠ 0 then regs.cpsr ||| cpsrTMask
      else regs.cpsr &&& ~~~cpsrTMask := by
  rw [PtRegs.setPc]
  split <;> simp [PtRegs.cpsr]

theorem or_and_mask (x m : Word) : (x ||| m) &&& m = m := by
  ext i hi
  simp only [BitVec.getElem_and, BitVec.getElem_or]
  cases m[i] <;> simp

theorem and_not_and_mask (x m : Word) : x &&& ~~~m &&& m = 0 := by
  ext i hi
  simp

theorem or_and_not (x m : Word) : (x ||| m) &&& ~~~m = x &&& ~~~m := by
  ext i hi
  simp only [BitVec.getElem_and, BitVec.getElem_or, BitVec.getElem_not]
  cases m[i] <;> simp

theorem and_not_and_not (x m : Word) : x &&& ~~~m &&& ~~~m = x &&& ~~~m := by
  rw [BitVec.and_assoc, BitVec.and_self]

theorem and_not_of_and_eq_zero {x m : Word} (h : x &&& m = 0) : x &&& ~~~m = x := by
  ext i hi
  have hbit := congrArg (fun y : Word => y[i]) h
  simp only [BitVec.getElem_and] at hbit
  simp only [BitVec.getElem_and, BitVec.getElem_not]
  revert hbit
  cases x[i] <;> simp

theorem pc_setPc (regs : PtRegs) (addr : Word) :
    (regs.setPc addr).pc = addr &&& ~~~1 := by
  rw [PtRegs.setPc]
  split
  · simp [PtRegs.pc]
  · next h =>
      rw [and_not_of_and_eq_zero (not_not.mp h)]
      simp [PtRegs.pc]

theorem entersAt_setPc (regs : PtRegs) (addr : Word) :
    Build.EntersAt .arm (regs.setPc addr) addr := by
  refine ⟨pc_setPc regs addr, ?_⟩
  rw [cpsr_setPc]
  split
  · next h => exact iff_of_true (by rw [or_and_mask]; decide) h
  · next h =>
      rw [and_not_and_mask]
      exact iff_of_false (fun hne => hne rfl) h

theorem cpsr_setPc_and_not (regs : PtRegs) (addr : Word) :
    (regs.setPc addr).cpsr &&& ~~~cpsrTMask = regs.cpsr &&& ~~~cpsrTMask := by
  rw [cpsr_setPc]
  split
  · rw [or_and_not]
  · rw [and_not_and_not]

/-! ## What is written on the stack -/

/-- The bytes from the new stack pointer up to the old one. -/
def Build.frame : Build → List Word → List Byte
  | .arm, params => bytesOf (params.drop 4)
  | .i386, params => bytesOf (0 :: params)

theorem length_frame (b : Build) (params : List Word) :
    (b.frame params).length = 4 * b.stackWords params.length := by
  cases b with
  | arm =>
      rw [Build.frame, length_bytesOf, List.length_drop, Build.stackWords, Nat.mul_comm]
  | i386 =>
      rw [Build.frame, length_bytesOf, List.length_cons, Build.stackWords, Nat.mul_comm]

theorem sp_setParams (regs : PtRegs) (params : List Word) :
    (regs.setParams params).sp = regs.sp := by
  have hnone : (params.take 4)[13]? = none := by
    rw [List.getElem?_eq_none_iff, List.length_take]
    omega
  rw [PtRegs.sp, uregs_setParams regs params (by omega), hnone]
  rfl

theorem sp_arm_enter (mem : Mem) (regs : PtRegs) (addr : Word) (params : List Word) :
    (arm.enter mem regs addr params).1.sp =
      regs.sp - BitVec.ofNat 32 (4 * (params.length - 4)) := by
  have hkept := fun mid : PtRegs =>
    uregs_setPc mid addr (i := 13) (by decide) (by decide)
  simp only [arm]
  split
  · next hrest =>
      have hlen : params.length - 4 = 0 := by
        rw [← List.length_drop, hrest, List.length_nil]
      rw [PtRegs.sp, hkept, hlen]
      show (regs.setParams params).sp = regs.sp - BitVec.ofNat 32 (4 * 0)
      rw [sp_setParams]
      simp
  · rw [PtRegs.sp, hkept, PtRegs.setSp]
    simp [sp_setParams, Nat.mul_comm]

/-- On i386 the words are pushed one after the other, the return address
last. -/
theorem i386_enter_mem {regs : UserRegsStruct} {addr : Word}
    (hroom : Room mem regs.esp (params.length + 1)) :
    i386.enter mem regs addr params =
      ({ regs with
          esp := regs.esp - BitVec.ofNat 32 (4 * (params.length + 1))
          eip := addr },
        write mem (regs.esp - BitVec.ofNat 32 (4 * (params.length + 1)))
          (bytesOf (0 :: params))) := by
  obtain ⟨hfit, hmapped⟩ := hroom
  have hlt := regs.esp.isLt
  let base := regs.esp - BitVec.ofNat 32 (4 * (params.length + 1))
  have hparams : regs.esp - BitVec.ofNat 32 (params.length * 4) =
      base + BitVec.ofNat 32 4 := by
    simp only [base]
    rw [show 4 * (params.length + 1) = params.length * 4 + 4 by omega,
      BitVec.ofNat_add]
    bv_omega
  have hbase : base + BitVec.ofNat 32 4 - 4 = base := by bv_omega
  have hbelow : Mapped mem (base + BitVec.ofNat 32 4) (4 * params.length) :=
    Mapped.shift (h := hmapped.le (by omega)) (by omega)
  have hcopy := ptraceWritedata_params params (by omega) hbelow
  have hword : Mapped (write mem (base + BitVec.ofNat 32 4) (bytesOf params))
      base (4 * 1) :=
    Mapped.write (h := hmapped.le (by omega))
      (hbelow.le (by rw [length_bytesOf]; omega))
  have hpush := ptraceWritedata_params [0] (by decide) hword
  have hfront : write (write mem (base + BitVec.ofNat 32 (bytesOf [0]).length)
      (bytesOf params)) base (bytesOf [0]) = write mem base (bytesOf (0 :: params)) := by
    rw [bytesOf_cons 0 params, write_front]
    rw [List.length_append, length_bytesOf, length_bytesOf, List.length_singleton]
    omega
  rw [length_bytesOf, List.length_singleton] at hfront
  simp only [i386, hparams, hbase, hcopy, hpush, hfront]
  rfl

theorem enter_mem (b : Build) {regs : b.Regs} (addr : Word)
    (hroom : Room mem (b.sp regs) (b.stackWords params.length)) :
    (b.arch.enter mem regs addr params).2 =
      write mem (b.sp regs - BitVec.ofNat 32 (4 * b.stackWords params.length))
        (b.frame params) := by
  cases b with
  | i386 => exact congrArg Prod.snd (i386_enter_mem hroom)
  | arm =>
      show (arm.enter mem regs addr params).2 = _
      have hlen : (params.drop 4).length = params.length - 4 := List.length_drop
      simp only [arm]
      split
      · next hrest => rw [Build.frame, hrest, bytesOf, List.flatMap_nil, write_nil]
      · obtain ⟨hfit, hmapped⟩ := hroom
        have hlt := (Build.sp .arm regs).isLt
        have hcopy := ptraceWritedata_params (params.drop 4)
          (by simp only [Build.stackWords] at hfit; omega) (by rw [hlen]; exact hmapped)
        rw [sp_setParams, hlen, Nat.mul_comm (params.length - 4)]
        exact hcopy

theorem holds_frame (b : Build) {regs : b.Regs} (addr : Word)
    (hroom : Room mem (b.sp regs) (b.stackWords params.length)) :
    Holds (b.arch.enter mem regs addr params).2
      (b.sp regs - BitVec.ofNat 32 (4 * b.stackWords params.length))
      (b.frame params) := by
  rw [enter_mem b addr hroom]
  have hlt := (b.sp regs).isLt
  exact holds_write (by rw [length_frame]; have := hroom.1; omega)

theorem enter_above (b : Build) {regs : b.Regs} (addr : Word)
    (hroom : Room mem (b.sp regs) (b.stackWords params.length)) {x : Word}
    (hx : b.sp regs ≤ x) : (b.arch.enter mem regs addr params).2 x = mem x := by
  rw [enter_mem b addr hroom]
  exact write_below hroom.1 (Nat.le_of_eq (length_frame b params)) hx

/-! ## The two builds -/

/-- On ARM, with registers that have the first four parameters and, but for
`sp`, the old values elsewhere, the last lines of `ptrace_call` make those of
a call. -/
theorem arm_entered {regs mid : PtRegs} (addr : Word)
    (hmid : ∀ i (hi : i < 18), i ≠ 13 →
      mid.uregs[i] = (params.take 4)[i]?.getD regs.uregs[i]) :
    (∀ i (_ : i < 4) (hlt : i < params.length),
        (mid.setPc addr).uregs[i]? = some params[i]) ∧
      Build.Keeps .arm params.length regs (mid.setPc addr) := by
  refine ⟨fun i hi hlt => ?_, fun i hargs hi => ?_, ?_⟩
  · have hne : i ∉ [14, 15, 16] := by
      simp only [List.mem_cons, List.not_mem_nil, or_false]
      omega
    rw [Vector.getElem?_eq_getElem (by omega), uregs_setPc mid addr (by omega) hne,
      hmid i (by omega) (by omega), List.getElem?_take_of_lt hi,
      List.getElem?_eq_getElem hlt, Option.getD_some]
  · have hne : i.val ∉ [13, 14, 15, 16] := by
      intro hmem
      apply hi
      simp only [List.mem_cons, List.not_mem_nil, or_false] at hmem ⊢
      simp only [Fin.ext_iff]
      exact hmem
    rw [List.mem_cons, not_or] at hne
    have hnone : (params.take 4)[i.val]? = none := by
      rw [List.getElem?_eq_none_iff, List.length_take]
      omega
    have hkept := uregs_setPc mid addr i.isLt hne.2
    rw [hmid i.val i.isLt hne.1, hnone, Option.getD_none] at hkept
    exact hkept
  · have hnone : (params.take 4)[16]? = none := by
      rw [List.getElem?_eq_none_iff, List.length_take]
      omega
    have hcpsr := hmid 16 (by omega) (by omega)
    rw [hnone, Option.getD_none] at hcpsr
    rw [cpsr_setPc_and_not, PtRegs.cpsr, hcpsr]
    rfl

/-- The registers of `enter` are such registers. -/
theorem arm_enter_regs (mem : Mem) (regs : PtRegs) (addr : Word)
    (params : List Word) :
    ∃ mid : PtRegs, (arm.enter mem regs addr params).1 = mid.setPc addr ∧
      ∀ i (hi : i < 18), i ≠ 13 →
        mid.uregs[i] = (params.take 4)[i]?.getD regs.uregs[i] := by
  have hparams := fun i hi (_ : i ≠ 13) => uregs_setParams regs params (i := i) hi
  simp only [arm]
  split
  · exact ⟨_, rfl, hparams⟩
  · exact ⟨_, rfl, fun i hi hne => (uregs_setSp _ hi hne).trans (hparams i hi hne)⟩

theorem arm_marshalled {regs : PtRegs} (addr : Word)
    (hroom : Room mem regs.sp (params.length - 4)) :
    Build.Marshalled .arm regs mem addr params
      (arm.enter mem regs addr params).1 (arm.enter mem regs addr params).2 := by
  obtain ⟨mid, hregs, hmid⟩ := arm_enter_regs mem regs addr params
  obtain ⟨hargs, hkeeps⟩ := arm_entered addr hmid
  have hsp := sp_arm_enter mem regs addr params
  have hholds : Holds (arm.enter mem regs addr params).2
      (arm.enter mem regs addr params).1.sp (bytesOf (params.drop 4)) := by
    rw [hsp]
    exact holds_frame .arm addr hroom
  have habove : ∀ x, regs.sp ≤ x → (arm.enter mem regs addr params).2 x = mem x :=
    fun x hx => enter_above .arm addr hroom hx
  rw [hregs] at hholds ⊢
  refine ⟨fun i hi => ?_, ?_, entersAt_setPc mid addr, hkeeps, habove⟩
  · rw [Build.argument]
    split
    · next hi' => exact hargs i hi' hi
    · next hi' =>
        rw [wordAt_of_holds hholds (by rw [List.length_drop]; omega),
          List.getElem_drop]
        congr 2
        omega
  · rw [Build.returnAddress, lr_setPc]

theorem i386_marshalled {regs : UserRegsStruct} (addr : Word)
    (hroom : Room mem regs.esp (params.length + 1)) :
    Build.Marshalled .i386 regs mem addr params
      (i386.enter mem regs addr params).1 (i386.enter mem regs addr params).2 := by
  have hholds : Holds (i386.enter mem regs addr params).2
      (regs.esp - BitVec.ofNat 32 (4 * (params.length + 1)))
      (bytesOf (0 :: params)) := holds_frame .i386 addr hroom
  have habove : ∀ x, regs.esp ≤ x → (i386.enter mem regs addr params).2 x = mem x :=
    fun x hx => enter_above .i386 addr hroom hx
  have hregs : (i386.enter mem regs addr params).1 = { regs with
      esp := regs.esp - BitVec.ofNat 32 (4 * (params.length + 1)), eip := addr } := by
    rw [i386_enter_mem hroom]
  rw [hregs]
  refine ⟨fun i hi => ?_, ?_, rfl, rfl, habove⟩
  · have hword := wordAt_of_holds hholds (k := i + 1) (by simpa using hi)
    rw [List.getElem_cons_succ] at hword
    rw [Build.argument, ← hword, BitVec.add_assoc]
    congr 2
    rw [show 4 * (i + 1) = 4 + 4 * i by omega, BitVec.ofNat_add]
    rfl
  · have hword := wordAt_of_holds hholds (k := 0) (by simp)
    rw [List.getElem_cons_zero] at hword
    rw [Build.returnAddress, ← hword]
    simp

theorem enter_marshalled (b : Build) {regs : b.Regs} (addr : Word)
    (hroom : Room mem (b.sp regs) (b.stackWords params.length)) :
    b.Marshalled regs mem addr params (b.arch.enter mem regs addr params).1
      (b.arch.enter mem regs addr params).2 := by
  cases b with
  | arm => exact arm_marshalled addr hroom
  | i386 => exact i386_marshalled addr hroom

/-! ## The call -/

/-- The target that `ptrace_call` resumes, and goes on to wait for, is about
to run the function at `addr` with `params`. -/
theorem call_marshalled (b : Build) (t : Target b.Regs) (regs : b.Regs)
    (addr : Word) (params : List Word)
    (hroom : Room t.mem (b.sp regs) (b.stackWords params.length)) :
    ∃ t' : Target b.Regs,
      (∀ env : CallEnv b.Regs, env.setregsOk = true → env.continueOk = true →
        (ptraceCall b.arch env addr params regs).run t =
          (waitLoop env.waits 0).run t') ∧
      b.Marshalled regs t.mem addr params t'.regs t'.mem := by
  let entered := b.arch.enter t.mem regs addr params
  refine ⟨{ t with mem := entered.2, regs := entered.1 }, fun env hset hcont => ?_, ?_⟩
  · exact ptraceCall_of_resumed hset hcont addr params regs t
  · exact enter_marshalled b addr hroom

/-- Six arguments on ARM, two of them on the stack, and a Thumb function. -/
theorem six_arguments_marshalled :
    ∃ t' : Target PtRegs,
      (∀ env : CallEnv PtRegs, env.setregsOk = true → env.continueOk = true →
        (ptraceCall arm env 0x1001 [0, 1, 2, 3, 4, 5]
          ⟨Vector.replicate 18 0x8000⟩).run
            { regs := ⟨Vector.replicate 18 0x8000⟩, mem := fun _ => some 0 } =
          (waitLoop env.waits 0).run t') ∧
      Build.Marshalled .arm ⟨Vector.replicate 18 0x8000⟩ (fun _ => some 0) 0x1001
        [0, 1, 2, 3, 4, 5] t'.regs t'.mem :=
  call_marshalled .arm
    { regs := ⟨Vector.replicate 18 0x8000⟩, mem := fun _ => some 0 }
    ⟨Vector.replicate 18 0x8000⟩ 0x1001 [0, 1, 2, 3, 4, 5]
    ⟨by decide, mapped_of_total fun _ => rfl⟩

end Elfupspeed.Elfinject
