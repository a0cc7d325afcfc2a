import Elfupspeed.Lib.Decimal
import Elfupspeed.Src.Speed

/-!
# `ElfIPCServer.cpp`: the server in the process

A connection is a loop of `recv` into one buffer. Each time the buffer is read
as a number, which is the new speed, and what was received is sent back. The
buffer is as the stack left it at first and as the last message left it
afterwards, and no NUL is written into it. Clients are served one after the
other, and a call that fails on any of them ends the process.
-/

namespace Elfupspeed.ElfIPCServer

open Elfupspeed.Lib Elfupspeed.Lib.CString Elfupspeed.Speed

/-- `BUFFSIZE` -/
def buffsize : ℕ := 32

/-- The bytes of one `recv` that got some. -/
structure Chunk where
  bytes : List Byte
  bytes_pos : 0 < bytes.length
  bytes_le : bytes.length ≤ buffsize

/-- What a `recv` does, and whether what it got could all be sent back. -/
inductive Recv
  | data (chunk : Chunk) (echoed : Bool)
  | closed
  | failed

/-- How a connection ends: at its loop's end, in `Die`, or not yet. -/
inductive Ending
  | closed
  | died
  | waiting
  deriving DecidableEq

/-- `times = atof(buffer)`, with the memory behind the buffer, into which a
string without a NUL runs on. -/
def times (buffer beyond : List Byte) : ℚ :=
  f32 (f64 (atof (cstr (buffer ++ beyond))))

/-- `HandleClient`: the arguments of its calls of `SetTimeScale`, and how it
ends. -/
def handleClient (beyond : List Byte) :
    List Byte → List Recv → List ℚ × Ending
  | _, [] => ([], .waiting)
  | _, .failed :: _ => ([], .died)
  | _, .closed :: _ => ([], .closed)
  | buffer, .data chunk echoed :: recvs =>
      let buffer := store buffer chunk.bytes
      if echoed then
        let r := handleClient beyond buffer recvs
        (times buffer beyond :: r.1, r.2)
      else ([times buffer beyond], .died)

/-! ## The accept loop -/

/-- What an `accept` does. A client comes with what the stack holds in and
behind the buffer of its call of `HandleClient`, and with what its connection
does. -/
inductive Accept
  | client (sock : ℕ) (buffer beyond : List Byte) (recvs : List Recv)
  | failed

/-- Where the process stands: in `accept`, in `recv` on a client's socket, or
nowhere any more. -/
inductive Standing
  | accepting
  | serving (sock : ℕ)
  | exited
  deriving DecidableEq

structure Served where
  accepted : List ℕ := []
  closed : List ℕ := []
  calls : List ℚ := []
  standing : Standing

/-- The loop of `StartIPCServer`, once the socket listens. -/
def startIPCServer : List Accept → Served
  | [] => { standing := .accepting }
  | .failed :: _ => { standing := .exited }
  | .client sock buffer beyond recvs :: accepts =>
      let r := handleClient beyond buffer recvs
      match r.2 with
      | .closed =>
          let s := startIPCServer accepts
          ⟨sock :: s.accepted, sock :: s.closed, r.1 ++ s.calls, s.standing⟩
      | .waiting => ⟨[sock], [], r.1, .serving sock⟩
      | .died => ⟨[sock], [], r.1, .exited⟩

/-- The bytes that `HandleClient` gets to see. -/
def received : List Recv → List Byte
  | [] | .failed :: _ | .closed :: _ => []
  | .data chunk echoed :: recvs =>
      chunk.bytes ++ if echoed then received recvs else []

end Elfupspeed.ElfIPCServer
