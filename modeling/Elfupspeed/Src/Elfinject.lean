import Elfupspeed.Lib.CString
import Elfupspeed.Lib.Exit
import Mathlib.Data.Vector.Basic

/-!
# `elfinject.c`: loading a library into a running process

The injector attaches to its target, makes it call `mmap`, `dlopen`, `dlsym`,
the hook and `dlclose` one after the other, and lets it go. Everything it is
told on the way (what `ptrace` answers, where a target stops and with what
registers, what the maps files say) is an input here, an `Env`; what it does
to the target is the state, a `Target`.

The two instruction sets the source compiles for differ in how a call is set
up and where its result is, so they are two values of `Arch`.
-/

namespace Elfupspeed.Elfinject

open Elfupspeed.Lib Elfupspeed.Lib.CString

abbrev Word := BitVec 32

/-! ## The target -/

abbrev Mem := Word → Option Byte

inductive FuncName
  | mmap | dlopen | dlsym | hookEntry | dlclose
  deriving DecidableEq

/-- A call the target was made to run to its end. -/
structure RemoteCall where
  name : FuncName
  entry : Word
  params : List Word
  ret : Word
  deriving DecidableEq

/-- The process that is injected into. The calls it was made to run are
history, which the injector does not see. -/
structure Target (R : Type) where
  regs : R
  mem : Mem
  traced : Bool := false
  calls : List RemoteCall := []

def wordAt (mem : Mem) (a : Word) : Option Word := do
  let b₀ ← mem a
  let b₁ ← mem (a + 1)
  let b₂ ← mem (a + 2)
  let b₃ ← mem (a + 3)
  pure (b₃ ++ b₂ ++ b₁ ++ b₀)

/-- `PTRACE_PEEKTEXT`, which answers -1 where a word is not mapped. -/
def peekText (mem : Mem) (a : Word) : Word := (wordAt mem a).getD (-1)

/-- `PTRACE_POKETEXT`, which fails where a word is not mapped. -/
def pokeText (mem : Mem) (a : Word) (val : Word) : Mem :=
  if (wordAt mem a).isSome then fun x =>
    if x = a then some (val.extractLsb' 0 8)
    else if x = a + 1 then some (val.extractLsb' 8 8)
    else if x = a + 2 then some (val.extractLsb' 16 8)
    else if x = a + 3 then some (val.extractLsb' 24 8)
    else mem x
  else mem

/-- The word `d.val` after its first `chars` were overwritten. -/
def overlay (val : Word) : List Byte → Word
  | [a] => val.extractLsb' 8 24 ++ a
  | [a, b] => val.extractLsb' 16 16 ++ b ++ a
  | [a, b, c] => val.extractLsb' 24 8 ++ c ++ b ++ a
  | _ => val

def ptraceWritedata (mem : Mem) (dest : Word) : List Byte → Mem
  | a :: b :: c :: d :: data =>
      ptraceWritedata (pokeText mem dest (d ++ c ++ b ++ a)) (dest + 4) data
  | [] => mem
  | data => pokeText mem dest (overlay (peekText mem dest) data)

/-- The bytes a `long` is in memory, as `ptrace_call` hands its parameters to
the copy. -/
def bytesOf (params : List Word) : List Byte :=
  params.flatMap fun p =>
    [p.extractLsb' 0 8, p.extractLsb' 8 8, p.extractLsb' 16 8,
      p.extractLsb' 24 8]

/-- What `ptrace_readdata` leaves in its buffer. -/
def ptraceReaddata (mem : Mem) (src : Word) : ℕ → List Byte
  | size + 4 => bytesOf [peekText mem src] ++ ptraceReaddata mem (src + 4) size
  | remain => (bytesOf [peekText mem src]).take remain

/-- `ptrace_writedata` with what it returns: 0, whatever became of the words. -/
def ptraceWritedataCall (mem : Mem) (dest : Word) (data : List Byte) : ℤ × Mem :=
  (0, ptraceWritedata mem dest data)

/-- `ptrace_readdata` with what it returns, which is 0 as well. -/
def ptraceReaddataCall (mem : Mem) (src : Word) (size : ℕ) : ℤ × List Byte :=
  (0, ptraceReaddata mem src size)

/-! ## The two instruction sets -/

/-- How a call is set up in the registers and on the stack, and where the
registers hold its result. -/
structure Arch (R : Type) where
  enter : Mem → R → Word → List Word → R × Mem
  ptraceRetval : R → Word

/-- `struct pt_regs` on ARM. -/
structure PtRegs where
  uregs : Vector Word 18
  deriving DecidableEq

def PtRegs.sp (regs : PtRegs) : Word := regs.uregs[13]
def PtRegs.lr (regs : PtRegs) : Word := regs.uregs[14]
def PtRegs.pc (regs : PtRegs) : Word := regs.uregs[15]
def PtRegs.cpsr (regs : PtRegs) : Word := regs.uregs[16]

def cpsrTMask : Word := 1#32 <<< 5

/-- `uregs[i] = params[i]` for the first four. -/
def PtRegs.setParams (regs : PtRegs) (params : List Word) : PtRegs :=
  ⟨((params.take 4).zipIdx).foldl (fun u p => u.setIfInBounds p.2 p.1)
    regs.uregs⟩

def PtRegs.setSp (regs : PtRegs) (sp : Word) : PtRegs :=
  ⟨regs.uregs.set 13 sp⟩

/-- `pc`, `cpsr` and `lr` for a call of `addr`, whose lowest bit asks for
Thumb code. -/
def PtRegs.setPc (regs : PtRegs) (addr : Word) : PtRegs :=
  if addr &&& 1 ≠ 0 then
    ⟨((regs.uregs.set 15 (addr &&& ~~~1)).set 16
      (regs.cpsr ||| cpsrTMask)).set 14 0⟩
  else
    ⟨((regs.uregs.set 15 addr).set 16 (regs.cpsr &&& ~~~cpsrTMask)).set 14 0⟩

def arm : Arch PtRegs where
  enter mem regs addr params :=
    let regs := regs.setParams params
    let rest := params.drop 4
    if rest = [] then (regs.setPc addr, mem)
    else
      let sp := regs.sp - BitVec.ofNat 32 (rest.length * 4)
      ((regs.setSp sp).setPc addr, ptraceWritedata mem sp (bytesOf rest))
  ptraceRetval regs := regs.uregs[0]

/-- `struct user_regs_struct` on i386. -/
structure UserRegsStruct where
  ebx : Word
  ecx : Word
  edx : Word
  esi : Word
  edi : Word
  ebp : Word
  eax : Word
  ds : BitVec 16
  es : BitVec 16
  fs : BitVec 16
  gs : BitVec 16
  origEax : Word
  eip : Word
  cs : BitVec 16
  eflags : Word
  esp : Word
  ss : BitVec 16
  deriving DecidableEq

def i386 : Arch UserRegsStruct where
  enter mem regs addr params :=
    let esp := regs.esp - BitVec.ofNat 32 (params.length * 4)
    let mem := ptraceWritedata mem esp (bytesOf params)
    let esp := esp - 4
    let mem := ptraceWritedata mem esp (bytesOf [0])
    ({ regs with esp := esp, eip := addr }, mem)
  ptraceRetval regs := regs.eax

/-- The builds that `#if defined` tells apart. -/
inductive Build
  | arm | i386
  deriving DecidableEq

abbrev Build.Regs : Build → Type
  | .arm => PtRegs
  | .i386 => UserRegsStruct

def Build.arch : (b : Build) → Arch b.Regs
  | .arm => Elfinject.arm
  | .i386 => Elfinject.i386

def Build.ptraceIp : (b : Build) → b.Regs → Word
  | .arm, regs => regs.pc
  | .i386, regs => regs.eip

/-! ## What the injector is told -/

/-- What a `waitpid` that succeeded reported, and the target as it stood. -/
structure Stop (R : Type) where
  stat : ℤ
  regs : R
  mem : Mem

/-- The answers to one remote call. Each round of the loop gets the outcome of
its `waitpid` and that of the `ptrace_continue` of the next; a target that is
still being waited for has no more rounds. -/
structure CallEnv (R : Type) where
  setregsOk : Bool
  continueOk : Bool
  waits : List (Option (Stop R) × Bool)
  getregsOk : Bool

structure Env (R : Type) where
  selfMaps : Option (List Byte)
  mapsBefore : Option (List Byte)
  mapsAttached : Option (List Byte)
  mapsMapped : Option (List Byte)
  attachOk : Bool
  getregsOk : Bool
  mmap : CallEnv R
  dlopenCydia : CallEnv R
  dlopenLibrary : CallEnv R
  dlsym : CallEnv R
  hookEntry : CallEnv R
  dlclose : CallEnv R
  setregsOk : Bool
  detachOk : Bool
  logOk : Bool

structure Symbols where
  mmap : Word
  dlopen : Word
  dlsym : Word
  dlclose : Word
  dlerror : Word

/-- How the injector leaves before its last line: at its exit label with a
result, on a null pointer, or not at all, as it waits for the target. -/
inductive Halt
  | exit (ret : ℤ)
  | crashed
  | waiting
  deriving DecidableEq

/-! ## Addresses -/

def libcPath : List Byte := ofString "/system/lib/libc.so"
def linkerPath : List Byte := ofString "/system/bin/linker"

/-- The first address of the first line that names the module. A line with no
token would have `strtoul` read from the null pointer; this is `none`. -/
def getModuleBase (maps : Option (List Byte)) (moduleName : List Byte) :
    Option Word :=
  match maps with
  | none => some 0
  | some file =>
      match (fgetsAll 1024 1023 file).find?
          fun line => strstr (cstr line) moduleName with
      | none => some 0
      | some line =>
          (strtok (cstr line) (byte '-')).map fun pch =>
            let addr := strtoul16 pch
            if addr = 0x8000 then 0 else addr

def getRemoteAddr (selfMaps targetMaps : Option (List Byte))
    (moduleName : List Byte) (localAddr : Word) : Option Word := do
  let localHandle ← getModuleBase selfMaps moduleName
  let remoteHandle ← getModuleBase targetMaps moduleName
  pure (localAddr + remoteHandle - localHandle)

/-! ## Remote calls -/

section Calls

variable {R : Type}

/-- `waitpid(pid, &stat, WUNTRACED)`, which leaves `stat` alone on failure. -/
def waitpid (wait : Option (Stop R)) (stat : ℤ) : Prog (Target R) Halt ℤ :=
  match wait with
  | none => pure stat
  | some s => do
      Prog.modify fun t => { t with regs := s.regs, mem := s.mem }
      pure s.stat

/-- The loop that waits for the target to stop where a call returns to. -/
def waitLoop : List (Option (Stop R) × Bool) → ℤ → Prog (Target R) Halt Bool
  | [], _ => Prog.exit .waiting
  | (wait, continueOk) :: waits, stat => do
      let stat ← waitpid wait stat
      if stat = 0xb7f then pure true
      else if continueOk then waitLoop waits stat
      else pure false

/-- `ptrace_call`, with `true` for 0 and `false` for -1. -/
def ptraceCall (arch : Arch R) (env : CallEnv R) (addr : Word)
    (params : List Word) (regs : R) : Prog (Target R) Halt Bool := do
  let t ← Prog.get
  let entered := arch.enter t.mem regs addr params
  Prog.modify fun t => { t with mem := entered.2 }
  if env.setregsOk then
    Prog.modify fun t => { t with regs := entered.1 }
    if env.continueOk then waitLoop env.waits 0 else pure false
  else pure false

/-- `ptrace_call_wrapper`, with the registers it reads back for 0 and `none`
for -1, after which they are not looked at again. -/
def ptraceCallWrapper (arch : Arch R) (env : CallEnv R) (name : FuncName)
    (addr : Word) (params : List Word) (regs : R) :
    Prog (Target R) Halt (Option R) := do
  let ok ← ptraceCall arch env addr params regs
  if ok then
    Prog.modify fun t =>
      { t with calls := t.calls ++ [⟨name, addr, params, arch.ptraceRetval t.regs⟩] }
    let t ← Prog.get
    if env.getregsOk then pure (some t.regs) else pure none
  else pure none

end Calls

/-! ## The injection -/

section Inject

variable {R : Type} (arch : Arch R) (env : Env R) (syms : Symbols)

/-- `goto exit` after a failure. `initlog` gives 0 when the log could be
opened, so what is written to it is written when it could not. -/
def Env.failure (ret : ℤ) : Halt := if env.logOk then .exit ret else .crashed

def deref {α : Type} : Option α → Prog (Target R) Halt α
  | none => Prog.exit .crashed
  | some a => pure a

/-- A remote call, and the way out if it fails. -/
def callOrExit (call : CallEnv R) (name : FuncName) (addr : Word)
    (params : List Word) (regs : R) (ret : ℤ) : Prog (Target R) Halt R := do
  let r ← ptraceCallWrapper arch call name addr params regs
  match r with
  | none => Prog.exit (env.failure ret)
  | some regs => pure regs

def writeString (dest : Word) (s : List Byte) : Prog (Target R) Halt PUnit :=
  Prog.modify fun t =>
    { t with mem := ptraceWritedata t.mem dest (cstr s ++ [0]) }

/-- Up to the copy of the registers. -/
def attachTarget (libraryPath : List Byte) : Prog (Target R) Halt R := do
  let libaddr ← deref (getModuleBase env.mapsBefore libraryPath)
  Prog.require (libaddr = 0) (.exit (-2))
  Prog.require env.attachOk (env.failure (-1))
  Prog.modify fun t => { t with traced := true }
  Prog.require env.getregsOk (env.failure (-1))
  let t ← Prog.get
  pure t.regs

/-- From `mmap` to the hook. The result is the library's handle and the
registers after the hook. -/
def loadAndHook (libraryPath cydiaPath functionName param : List Byte)
    (regs : R) : Prog (Target R) Halt (Word × R) := do
  let mmapAddr ← deref
    (getRemoteAddr env.selfMaps env.mapsAttached libcPath syms.mmap)
  let regs ← callOrExit arch env env.mmap .mmap mmapAddr
    [0, 0x4000, 7, 0x22, -1, 0] regs (-1)
  let mapBase := arch.ptraceRetval regs
  let dlopenAddr ← deref
    (getRemoteAddr env.selfMaps env.mapsMapped linkerPath syms.dlopen)
  let dlsymAddr ← deref
    (getRemoteAddr env.selfMaps env.mapsMapped linkerPath syms.dlsym)
  let _dlcloseAddr ← deref
    (getRemoteAddr env.selfMaps env.mapsMapped linkerPath syms.dlclose)
  let _dlerrorAddr ← deref
    (getRemoteAddr env.selfMaps env.mapsMapped linkerPath syms.dlerror)
  writeString (mapBase + 0x300) cydiaPath
  -- `RTLD_NOW | RTLD_GLOBAL` is 2 in the 32-bit `dlfcn.h`
  let regs ← callOrExit arch env env.dlopenCydia .dlopen dlopenAddr
    [mapBase + 0x300, 2] regs (-1)
  writeString mapBase libraryPath
  let regs ← callOrExit arch env env.dlopenLibrary .dlopen dlopenAddr
    [mapBase, 2] regs (-1)
  let sohandle := arch.ptraceRetval regs
  Prog.require (sohandle ≠ 0) (.exit (-1))
  writeString (mapBase + 0x100) functionName
  let regs ← callOrExit arch env env.dlsym .dlsym dlsymAddr
    [sohandle, mapBase + 0x100] regs (-1)
  let hookEntryAddr := arch.ptraceRetval regs
  writeString (mapBase + 0x200) param
  let regs ← callOrExit arch env env.hookEntry .hookEntry hookEntryAddr
    [mapBase + 0x200] regs (-1)
  pure (sohandle, regs)

/-- From `ret = ptrace_retval(&regs)` on. The address is the injector's own
`dlclose`, and neither `ptrace_setregs` nor `ptrace_detach` is asked whether
it worked. -/
def closeAndDetach (original : R) (sohandle : Word) (regs : R) :
    Prog (Target R) Halt ℤ := do
  let ret := (arch.ptraceRetval regs).toInt
  let _regs ← callOrExit arch env env.dlclose .dlclose syms.dlclose
    [sohandle] regs ret
  Prog.modify fun t =>
    if env.setregsOk then { t with regs := original } else t
  Prog.modify fun t => if env.detachOk then { t with traced := false } else t
  pure 0

def injectRemoteProcess (libraryPath cydiaPath functionName param : List Byte) :
    Prog (Target R) Halt ℤ := do
  let original ← attachTarget env libraryPath
  let loaded ← loadAndHook arch env syms libraryPath cydiaPath functionName
    param original
  closeAndDetach arch env syms original loaded.1 loaded.2

/-- The result of the function, if it returned one. -/
def result : Except Halt ℤ → Option ℤ
  | .ok ret | .error (.exit ret) => some ret
  | .error .crashed | .error .waiting => none

end Inject

end Elfupspeed.Elfinject
