import Elfupspeed.Lib.Memory
import Elfupspeed.Src.Elfinject

/-!
# How a function is called

What a function of either build relies on when it is entered: where it finds
its arguments and the address to return to, in what state it starts, and what
a call has to leave alone. On ARM the first four arguments are in registers
and the lowest bit of an address asks for Thumb code; on i386 everything is on
the stack.
-/

namespace Elfupspeed.Elfinject

open Elfupspeed.Lib

def Build.sp : (b : Build) → b.Regs → Word
  | .arm, regs => regs.sp
  | .i386, regs => regs.esp

def Build.argument : (b : Build) → b.Regs → Mem → ℕ → Option Word
  | .arm, regs, mem, i =>
      if i < 4 then regs.uregs[i]?
      else wordAt mem (regs.sp + BitVec.ofNat 32 (4 * (i - 4)))
  | .i386, regs, mem, i => wordAt mem (regs.esp + 4 + BitVec.ofNat 32 (4 * i))

def Build.returnAddress : (b : Build) → b.Regs → Mem → Option Word
  | .arm, regs, _ => some regs.lr
  | .i386, regs, mem => wordAt mem regs.esp

/-- Execution starts at `addr`, and on ARM in the state that its lowest bit
asks for. -/
def Build.EntersAt : (b : Build) → b.Regs → Word → Prop
  | .arm, regs, addr =>
      regs.pc = addr &&& ~~~1 ∧
        (regs.cpsr &&& cpsrTMask ≠ 0 ↔ addr &&& 1 ≠ 0)
  | .i386, regs, addr => regs.eip = addr

/-- What a call with `n` arguments has to keep: on ARM every register but
those of the arguments, `sp`, `lr`, `pc` and the Thumb bit, on i386 all but
`esp` and `eip`. -/
def Build.Keeps : (b : Build) → ℕ → b.Regs → b.Regs → Prop
  | .arm, n, regs, regs' =>
      (∀ i : Fin 18, ¬ (i.val < 4 ∧ i.val < n) → i ∉ [13, 14, 15, 16] →
        regs'.uregs[i] = regs.uregs[i]) ∧
      regs'.cpsr &&& ~~~cpsrTMask = regs.cpsr &&& ~~~cpsrTMask
  | .i386, _, regs, regs' => regs' = { regs with esp := regs'.esp, eip := regs'.eip }

/-- The words that a call with `n` arguments has on the stack. -/
def Build.stackWords : Build → ℕ → ℕ
  | .arm, n => n - 4
  | .i386, n => n + 1

/-- There is room for `n` words below the stack pointer. -/
def Room (mem : Mem) (sp : Word) (n : ℕ) : Prop :=
  4 * n ≤ sp.toNat ∧ Memory.Mapped mem (sp - BitVec.ofNat 32 (4 * n)) (4 * n)

/-- The function at `addr` can be entered with `params`, coming from a state
with `regs` and `mem`. -/
structure Build.Marshalled (b : Build) (regs : b.Regs) (mem : Mem) (addr : Word)
    (params : List Word) (regs' : b.Regs) (mem' : Mem) : Prop where
  arguments : ∀ i (h : i < params.length),
    b.argument regs' mem' i = some params[i]
  returnAddress : b.returnAddress regs' mem' = some 0
  entersAt : b.EntersAt regs' addr
  keeps : b.Keeps params.length regs regs'
  above : ∀ x, b.sp regs ≤ x → mem' x = mem x

end Elfupspeed.Elfinject
