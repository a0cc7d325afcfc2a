import Elfupspeed.Lib.Descriptors
import Elfupspeed.Lib.Exit
import Elfupspeed.Lib.Mealy
import Elfupspeed.Src.Buffers

/-!
# The descriptors of `upspeed`

`find_pid_of` and `upspeed` once more, each with what it opens and closes. The
state is the descriptor table of the process; the calls that open something
are answered with a number, or fail, and a number that is in use is no answer.
-/

namespace Elfupspeed.Sockets

open Elfupspeed.Lib Elfupspeed.Lib.CString
open Elfupspeed.Buffers (CFloat)
open Elfupspeed.ServerClient (DirEntry ProcessTable readCmdline)

abbrev Fd := ℕ

/-- A call of `upspeed`, and what its system calls are answered. -/
structure Call where
  table : ProcessTable
  cmdline : List Byte := []
  package : Option (List Byte)
  speed : CFloat
  opendir : Option Fd
  fopen : ℤ → Option Fd
  socket : Option Fd
  connectOk : Bool
  send : ℤ
  recvs : List ℤ

/-- How a call ends before its last line: with a result, or it waits for more
of the echo. -/
inductive Halt
  | exit (ret : ℤ)
  | waiting

abbrev Sys := Prog Descriptors Halt

def allocate (answer : Option Fd) : Sys (Option Fd) := do
  let d ← Prog.get
  match answer with
  | some fd =>
      if d.file fd = none then
        Prog.modify fun d => d.openOwn fd
        pure (some fd)
      else pure none
  | none => pure none

def close (fd : Fd) : Sys PUnit := Prog.modify fun d => d.close fd

variable (call : Call)

/-- The file `/proc/<id>/cmdline`, if it opens. -/
def fopen (id : ℤ) : Sys (Option (Fd × List Byte)) := do
  match call.table.fopen id with
  | some file =>
      let fp ← allocate (call.fopen id)
      pure (fp.map fun fd => (fd, file))
  | none => pure none

def findLoop (processName : List Byte) : List DirEntry → List Byte → Sys ℤ
  | [], _ => pure (-1)
  | entry :: entries, cmdline => do
      let id := atoi entry.dName
      if id ≠ 0 then
        let fp ← fopen call id
        match fp with
        | some (fd, file) =>
            let cmdline := readCmdline cmdline file
            close fd
            if cstr processName = cstr cmdline then pure id
            else findLoop processName entries cmdline
        | none => findLoop processName entries cmdline
      else findLoop processName entries cmdline

def findPidOf : Sys ℤ := do
  match call.package with
  | some name =>
      let dir ← allocate call.opendir
      match dir with
      | some dir =>
          let pid ← findLoop call name call.table.entries call.cmdline
          close dir
          pure pid
      | none => pure (-1)
  | none => pure (-1)

/-- The loop that reads the echo. -/
def readEcho (echolen : ℕ) : ℤ → List ℤ → Sys PUnit
  | received, [] =>
      if received < echolen then Prog.exit .waiting else pure ⟨⟩
  | received, bytes :: recvs =>
      if received < echolen then
        if bytes < 1 then Prog.exit (.exit (-1))
        else readEcho echolen (received + bytes) recvs
      else pure ⟨⟩

/-- The answer to `connect` is given, whatever the port was made from. -/
def upspeed : Sys ℤ := do
  let _pid ← findPidOf call
  let sock ← allocate call.socket
  match sock with
  | some sock =>
      Prog.require call.connectOk (.exit (-1))
      let echolen := call.speed.text.length
      Prog.require (call.send = echolen) (.exit (-1))
      readEcho echolen 0 call.recvs
      close sock
      pure 0
  | none => Prog.exit (.exit (-1))

/-- The result of a call, unless it waits. -/
def result : Except Halt ℤ → Option ℤ
  | .ok ret | .error (.exit ret) => some ret
  | .error .waiting => none

/-- A process that calls `upspeed` again and again. A call that waits keeps
what it has, and the next one comes from another thread. -/
def caller : Mealy Descriptors Call (Option ℤ) where
  step d call :=
    let r := (upspeed call).run d
    (r.2, result r.1)

end Elfupspeed.Sockets
