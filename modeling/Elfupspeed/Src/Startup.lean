import Elfupspeed.Lib.Moves
import Elfupspeed.Src.ServerClient
import Elfupspeed.Src.Speed
import Mathlib.Logic.Function.Basic

/-!
# From `hook_entry` to the accept loop

A `hook_entry` leaves a thread behind in its process, which goes through
`startServer` and then through `StartIPCServer` on its own time. Several of
them may be on the way, in one process and in others, while the threads that
arrived hand requests to `SetTimeScale`. What happens between an `accept` and
such a request is not looked at here.

Two things are shared. The statics of the library belong to a process, and a
thread works on them call by call. The ports belong to all processes: a port
that a socket is bound to cannot be bound again until the process with that
socket is gone, which `Die` makes sure of.
-/

namespace Elfupspeed.Startup

open Elfupspeed.Lib Elfupspeed.Speed
open Elfupspeed.ServerClient (port)

/-- What a thread does next. From `listen` on its socket is bound. -/
inductive Stage
  | hookGettimeofday
  | hookClockGettime
  | clearIsHooked
  | socket
  | bind
  | listen (port : ℕ)
  | accept (port : ℕ)
  deriving DecidableEq

structure Process where
  library : Globals := {}
  threads : List Stage := []
  exited : Bool := false

structure Machine where
  process : ℕ → Process := fun _ => {}
  /-- The process and the thread whose socket is bound to a port. -/
  ports : ℕ → Option (ℕ × ℕ) := fun _ => none

/-- What a process does next. A thread is told whether the kernel agrees to
its call, and which port it would pick. -/
inductive Move
  | hookEntry (created : Bool)
  | go (thread : ℕ) (ok : Bool) (anyPort : ℕ)
  | request (thread : ℕ) (result : ℚ)

/-- `echoserver.sin_port`, where a 0 leaves the choice to the kernel. -/
def portFor (pid anyPort : ℕ) : ℕ := if port pid = 0 then anyPort else port pid

def Process.at (p : Process) (thread : ℕ) (s : Stage) : Process :=
  { p with threads := p.threads.set thread s }

namespace Machine

variable (w : Machine)

def put (pid : ℕ) (p : Process) : Machine :=
  { w with process := Function.update w.process pid p }

/-- `Die`, with which all sockets of the process are closed. -/
def die (pid : ℕ) : Machine where
  process := Function.update w.process pid { w.process pid with exited := true }
  ports q := if (w.ports q).any fun owner => owner.1 = pid then none else w.ports q

def bound (q pid thread : ℕ) : Machine :=
  { w with ports := Function.update w.ports q (some (pid, thread)) }

/-- A thread gets its turn. In the accept loop that is a call that fails. -/
def go (pid thread : ℕ) (ok : Bool) (anyPort : ℕ) : Stage → Option Machine
  | .hookGettimeofday =>
      let p := w.process pid
      let library := { p.library with
        gettimeofday := mSHookFunction p.library.gettimeofday }
      some (w.put pid ({ p with library := library }.at thread .hookClockGettime))
  | .hookClockGettime =>
      let p := w.process pid
      let library := { p.library with
        clockGettime := mSHookFunction p.library.clockGettime }
      some (w.put pid ({ p with library := library }.at thread .clearIsHooked))
  | .clearIsHooked =>
      let p := w.process pid
      let library := { p.library with isHooked := false }
      some (w.put pid ({ p with library := library }.at thread .socket))
  | .socket =>
      if ok then some (w.put pid ((w.process pid).at thread .bind))
      else some (w.die pid)
  | .bind =>
      let q := portFor pid anyPort
      if ok && (w.ports q).isNone then
        some ((w.put pid ((w.process pid).at thread (.listen q))).bound q pid thread)
      else some (w.die pid)
  | .listen q =>
      if ok then some (w.put pid ((w.process pid).at thread (.accept q)))
      else some (w.die pid)
  | .accept _ => if ok then none else some (w.die pid)

/-- `SetTimeScale`, called by a thread in its accept loop. -/
def request (pid : ℕ) (result : ℚ) : Stage → Option Machine
  | .accept _ =>
      let p := w.process pid
      some (w.put pid { p with library := (setTimeScale p.library result).1 })
  | _ => none

def act (pid : ℕ) : Move → Option Machine
  | .hookEntry created =>
      let p := w.process pid
      if created then
        some (w.put pid { p with threads := p.threads ++ [.hookGettimeofday] })
      else some w
  | .go thread ok anyPort =>
      (w.process pid).threads[thread]?.bind (w.go pid thread ok anyPort)
  | .request thread result =>
      (w.process pid).threads[thread]?.bind (w.request pid result)

def step (m : ℕ × Move) : Option Machine :=
  if (w.process m.1).exited then none else w.act m.1 m.2

end Machine

def machine : Moves Machine (ℕ × Move) := ⟨Machine.step⟩

/-! ## A call of a clock -/

section Called

variable {α : Type} (r : Redirect) (hook : α → α) (answer : α)

/-- A call of an entry, where the hook first calls what its pointer denotes
and then makes something of the answer. `none` is a call that has not come
back at that depth, or a pointer that was null. -/
def called : ℕ → Entry → Option α
  | _, .original => some answer
  | 0, .hook => none
  | depth + 1, .hook => (r.old.bind (called depth)).map hook

end Called

/-- The process calls `gettimeofday`, of which the original would return `res`
and write `ptv`. -/
def gettimeofday (A : Arith) (g : Globals) (res : ℤ) (ptv : Timeval) (depth : ℕ) :
    Option (Globals × ℤ × Timeval) :=
  called g.gettimeofday (fun a => newGettimeofday A a.1 a.2.1 a.2.2) (g, res, ptv)
    depth g.gettimeofday.symbol

def clockGettime (A : Arith) (g : Globals) (clkId : ClockId) (res : ℤ)
    (ptp : Timespec) (depth : ℕ) : Option (Globals × ℤ × Timespec) :=
  called g.clockGettime (fun a => newClockGettime A a.1 clkId a.2.1 a.2.2)
    (g, res, ptp) depth g.clockGettime.symbol

/-- The calls of a process: its own to the clocks, which go through the
symbols, and those of its server to `SetTimeScale`. -/
def process (A : Arith) : Mealy Globals Call (Option Reply) where
  step g
    | .newGettimeofday res ptv =>
        match gettimeofday A g res ptv 1 with
        | some r => (r.1, some (.newGettimeofday r.2.1 r.2.2))
        | none => (g, none)
    | .newClockGettime clkId res ptp =>
        match clockGettime A g clkId res ptp 1 with
        | some r => (r.1, some (.newClockGettime r.2.1 r.2.2))
        | none => (g, none)
    | .setTimeScale result =>
        let r := setTimeScale g result
        (r.1, some (.setTimeScale r.2))

end Elfupspeed.Startup
