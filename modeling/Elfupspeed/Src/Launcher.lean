import Elfupspeed.Src.Elfinject
import Elfupspeed.Src.ServerClient

/-!
# `elfinject.c`: the command

`main` is told the name of a process, a speed and the paths of two libraries.
It looks the process up with a `find_pid_of` that is `upspeed`'s word for word,
has the library injected, and passes the speed on as the parameter of the
hook. The processes are told by their pids, and each has answers of its own in
store for an injection.
-/

namespace Elfupspeed.Launcher

open Elfupspeed.Lib Elfupspeed.Lib.CString Elfupspeed.Elfinject
open Elfupspeed.ServerClient (ProcessTable findPidOf)

/-- What the command finds: the processes, the buffer on its stack, whether
the log can be opened, and what an injection into a process would be told. -/
structure World (R : Type) where
  table : ProcessTable
  opendirOk : Bool
  cmdline : List Byte
  logOk : Bool
  env : ℤ → Env R

/-- How the command is over, if it is. -/
inductive Ended
  | status (n : ℤ)
  | crashed
  | waiting
  deriving DecidableEq

/-- `initlog`, which gives 0 when it has opened the log. -/
def initlog (logOk : Bool) : ℤ := if logOk then 0 else -1

/-- The last lines of `main`. -/
def report : Except Halt ℤ → Ended
  | .ok ret | .error (.exit ret) => .status (if ret = 0 then 0 else -1)
  | .error .crashed => .crashed
  | .error .waiting => .waiting

section Main

variable {R : Type} (arch : Arch R) (syms : Symbols) (w : World R)

/-- `main` from `find_pid_of` on. Where the process is not found the log is
written to if it could not be opened, through a null pointer. -/
def launch (processName speed soPath cydiaPath : List Byte)
    (targets : ℤ → Target R) : Ended × (ℤ → Target R) :=
  let targetPid := findPidOf w.table w.opendirOk w.cmdline (some processName)
  if targetPid = -1 then
    (if initlog w.logOk ≠ 0 then .crashed else .status (-1), targets)
  else
    let r := (injectRemoteProcess arch (w.env targetPid) syms soPath cydiaPath
      (ofString "hook_entry") speed).run (targets targetPid)
    (report r.1, Function.update targets targetPid r.2)

def main (argv : List (List Byte)) (targets : ℤ → Target R) :
    Ended × (ℤ → Target R) :=
  match argv with
  | [_, processName, speed, soPath, cydiaPath] =>
      launch arch syms w processName speed soPath cydiaPath targets
  | _ => (.status (-1), targets)

end Main

end Elfupspeed.Launcher
