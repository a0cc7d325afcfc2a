import Elfupspeed.Src.Connection

/-!
# The injected server among its clients, beside the hooked clock

`StartIPCServer` accepts a client when it is done with the one before, and
meanwhile the kernel makes the connections of the others: their calls of
`upspeed` send what they have to send and wait for an answer. The threads of
the process call its clock all the time, and what they get depends on what the
server has handed to `SetTimeScale` by then.

The calls of the server do not fail here, so none of its ends in `Die` is taken,
and a call into the library is one step. A `send` or a `recv` of a client may be
interrupted, and `upspeed` returns then without having closed its socket, which
stays open as long as the process that called it.
-/

namespace Elfupspeed.Service

open Elfupspeed.Lib Elfupspeed.Lib.CString Elfupspeed.Speed
open Elfupspeed.ElfIPCServer (times)
open Elfupspeed.Connection (Client Server Link)

/-- A call of `upspeed` that gets connected, with what the stack will hold in
and behind the buffer of the call of `HandleClient` that serves it. -/
structure Party where
  request : List Byte
  buffer : List Byte
  beyond : List Byte
  request_ne : request ≠ []

structure Session where
  party : Party
  link : Link

def Session.step (s : Session) (m : Connection.Move) : Option Session :=
  (Connection.step s.party.request s.party.beyond s.link m).map fun l =>
    ⟨s.party, l⟩

/-- The call that the client is in fails, and `upspeed` returns. -/
def Session.interrupt (s : Session) : Option Session :=
  match s.link.client with
  | .sending _ | .receiving =>
      some ⟨s.party, { s.link with client := .returned (-1) }⟩
  | .returned _ => none

/-- The process, with the clients of its server. -/
structure Host where
  /-- The connections in the order in which they were made. -/
  sessions : List Session := []
  /-- How many of them `accept` has returned. -/
  accepted : ℕ := 0
  library : Globals := {}
  /-- The calls into the library so far, and what they returned. -/
  calls : List Call := []
  replies : List Reply := []

/-- The moves of a connection that are its client's. -/
def byClient : Connection.Move → Bool
  | .clientSend _ | .clientRecv _ | .clientEnd => true
  | .serverRecv _ | .serverScale | .serverSend _ | .serverEnd => false

def isClock : Call → Bool
  | .newGettimeofday .. | .newClockGettime .. => true
  | .setTimeScale _ => false

def isClosed : Server → Bool
  | .closed => true
  | .receiving | .scaling _ | .sending _ => false

/-- Who does what next. A client is told by its connection. -/
inductive Move
  | connect (party : Party)
  | accept
  | client (i : ℕ) (m : Connection.Move)
  | interrupt (i : ℕ)
  | server (m : Connection.Move)
  | clock (call : Call)

namespace Host

variable (v : Host)

/-- The connection that `HandleClient` was called with last. -/
def current : Option Session :=
  if v.accepted = 0 then none else v.sessions[v.accepted - 1]?

/-- The server is in `accept`. -/
def accepting : Bool := v.current.all fun s => isClosed s.link.server

def put (i : ℕ) (s : Session) : Host :=
  { v with sessions := v.sessions.set i s }

def enter (A : Arith) (call : Call) : Host :=
  { v with
    library := ((machine A).step v.library call).1
    calls := v.calls ++ [call]
    replies := v.replies ++ [((machine A).step v.library call).2] }

/-- What a move of the server does outside its connection. -/
def scale (A : Arith) (s : Session) : Connection.Move → Host
  | .serverScale =>
      v.enter A (.setTimeScale (times s.link.buffer s.party.beyond))
  | .clientSend _ | .clientRecv _ | .clientEnd | .serverRecv _
  | .serverSend _ | .serverEnd => v

end Host

/-- `room` is how many connections may wait, which is `MAXPENDING` or as many
as the kernel allows. -/
def step (A : Arith) (room : ℕ) (v : Host) : Move → Option Host
  | .connect party =>
      if v.sessions.length < v.accepted + room then
        some { v with sessions := v.sessions ++
          [⟨party, Connection.start party.request party.buffer⟩] }
      else none
  | .accept =>
      if v.accepting ∧ v.accepted < v.sessions.length then
        some { v with accepted := v.accepted + 1 }
      else none
  | .client i m =>
      if byClient m then do
        let s ← v.sessions[i]?
        let s' ← s.step m
        pure (v.put i s')
      else none
  | .interrupt i => do
      let s ← v.sessions[i]?
      let s' ← s.interrupt
      pure (v.put i s')
  | .server m =>
      if byClient m then none
      else do
        let s ← v.current
        let s' ← s.step m
        pure ((v.put (v.accepted - 1) s').scale A s m)
  | .clock call => if isClock call then some (v.enter A call) else none

def service (A : Arith) (room : ℕ) : Moves Host Move := ⟨step A room⟩

end Elfupspeed.Service
