import Elfupspeed.Lib.Moves
import Elfupspeed.Lib.Stream
import Elfupspeed.Src.ElfIPCServer

/-!
# `upspeed` and `HandleClient` on one connection

The client's half is what `upspeed` does once it is connected, and what `main`
of `testclient.cpp` does there too: it sends a request, reads until as many
bytes have come back, and closes its socket. The server's half is
`HandleClient`. No call fails here. A `send` may take the whole call to hand
its bytes over, any number of them at a time, and a `recv` gets any number of
the bytes that are there, up to the size of the buffer.
-/

namespace Elfupspeed.Connection

open Elfupspeed.Lib Elfupspeed.Lib.CString Elfupspeed.ElfIPCServer

/-- Where the client is: in `send`, with what that has still to hand over, in
`recv`, or back from the call. -/
inductive Client
  | sending (rest : List Byte)
  | receiving
  | returned (ret : ℤ)

/-- Where the server is: in `recv`, in `SetTimeScale` with what it got, in
`send`, or done with the client. -/
inductive Server
  | receiving
  | scaling (chunk : Chunk)
  | sending (rest : List Byte)
  | closed

structure Link where
  client : Client
  /-- `received` of `upspeed` -/
  received : ℕ := 0
  server : Server := .receiving
  /-- `buffer` of `HandleClient` -/
  buffer : List Byte
  up : Stream Byte := {}
  down : Stream Byte := {}
  /-- What each `recv` of the client got. -/
  reads : List (List Byte) := []
  /-- What `SetTimeScale` was called on, and with what. -/
  chunks : List Chunk := []
  calls : List ℚ := []

/-- `while (received < echolen)`, behind which the socket is closed. -/
def loopTest (received echolen : ℕ) : Client :=
  if received < echolen then .receiving else .returned 0

/-- What becomes of a `send` of the client. -/
def afterSend (request rest : List Byte) (received : ℕ) : Client :=
  if rest = [] then loopTest received request.length else .sending rest

/-- What becomes of a `send` of the server. -/
def afterEcho (rest : List Byte) : Server :=
  if rest = [] then .receiving else .sending rest

def start (request buffer : List Byte) : Link where
  client := afterSend request request 0
  buffer := buffer

/-- Who does what next. The numbers are of bytes. -/
inductive Move
  | clientSend (n : ℕ)
  | clientRecv (n : ℕ)
  | clientEnd
  | serverRecv (n : ℕ)
  | serverScale
  | serverSend (n : ℕ)
  | serverEnd
  deriving DecidableEq

/-- A `recv` finds the end of the stream when the other side has closed its
socket and everything before that has been read. Of the client's two ways back
only the one through the loop closes its socket. -/
def step (request beyond : List Byte) (l : Link) : Move → Option Link
  | .clientSend n =>
      match l.client with
      | .sending rest =>
          if 0 < n ∧ n ≤ rest.length then
            some { l with
              up := l.up.put (rest.take n)
              client := afterSend request (rest.drop n) l.received }
          else none
      | _ => none
  | .clientRecv n =>
      match l.client with
      | .receiving =>
          if 0 < n ∧ n ≤ buffsize - 1 ∧ n ≤ l.down.flight.length then
            some { l with
              down := l.down.take n
              reads := l.reads ++ [l.down.flight.take n]
              received := l.received + n
              client := loopTest (l.received + n) request.length }
          else none
      | _ => none
  | .clientEnd =>
      match l.client, l.server with
      | .receiving, .closed =>
          if l.down.flight = [] then some { l with client := .returned (-1) }
          else none
      | _, _ => none
  | .serverRecv n =>
      match l.server with
      | .receiving =>
          if h : 0 < n ∧ n ≤ buffsize ∧ n ≤ l.up.flight.length then
            have hlen : (l.up.flight.take n).length = n := by simp [h.2.2]
            let chunk : Chunk := ⟨l.up.flight.take n, by omega, by omega⟩
            some { l with
              up := l.up.take n
              buffer := store l.buffer chunk.bytes
              server := .scaling chunk }
          else none
      | _ => none
  | .serverScale =>
      match l.server with
      | .scaling chunk =>
          some { l with
            calls := l.calls ++ [times l.buffer beyond]
            chunks := l.chunks ++ [chunk]
            server := .sending chunk.bytes }
      | _ => none
  | .serverSend n =>
      match l.server with
      | .sending rest =>
          if 0 < n ∧ n ≤ rest.length then
            some { l with
              down := l.down.put (rest.take n)
              server := afterEcho (rest.drop n) }
          else none
      | _ => none
  | .serverEnd =>
      match l.server, l.client with
      | .receiving, .returned 0 =>
          if l.up.flight = [] then some { l with server := .closed } else none
      | _, _ => none

def link (request beyond : List Byte) : Moves Link Move :=
  ⟨step request beyond⟩

end Elfupspeed.Connection
