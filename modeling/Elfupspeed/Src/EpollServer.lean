import Elfupspeed.Lib.Decimal
import Elfupspeed.Lib.Epoll
import Elfupspeed.Lib.Exit
import Elfupspeed.Lib.Mealy

/-!
# `epollserver.cpp`: the chat server

One thread waits in `epoll_wait` and handles what that reports, one event
after the other. An event of the listener is a new client; an event of a
client is a message for all the others, or the client's end. The kernel's side
is here too: the connections that wait to be accepted, what has arrived on the
open ones, and the epoll instance. Whatever a call of an event can come to is
in its `Answers`, and a call that fails ends the process.
-/

namespace Elfupspeed.EpollServer

open Elfupspeed.Lib Elfupspeed.Lib.CString

abbrev Fd := ℕ

/-- `BUF_SIZE` and `EPOLL_SIZE` are those of `local.h`, which is included
last. -/
def bufSize : ℕ := 1024

def epollSize : ℕ := 10000

/-! ## The texts -/

/-- `STR_WELCOME` -/
def strWelcome (client : Fd) : List Byte :=
  ofString "Welcome to seChat! You ID is: Client #" ++ numeral client

/-- `STR_MESSAGE`, where the string in the buffer may run on behind it. -/
def strMessage (client : Fd) (buf beyond : List Byte) : List Byte :=
  ofString "Client #" ++ numeral client ++ ofString ">> " ++
    cstr (buf ++ beyond)

/-- `STR_NOONE_CONNECTED` -/
def strNooneConnected : List Byte :=
  ofString "Noone connected to server except you!"

/-- A buffer that `bzero` cleared. -/
def cleared : List Byte := List.replicate bufSize 0

/-- The bytes of a cleared buffer that a text was printed into. What the text
has more than the buffer is behind it. -/
def printed (text : List Byte) : List Byte := (store cleared text).take bufSize

/-! ## The server and its kernel -/

/-- An open connection: what has arrived and was not read, and whether the
client has hung up. -/
structure Conn where
  rcv : List Byte := []
  fin : Bool := false
  deriving DecidableEq

def Conn.readable (conn : Conn) : Bool := conn.rcv ≠ [] || conn.fin

inductive Action
  | received (client : Fd) (bytes : List Byte)
  | sent (client : Fd) (bytes : List Byte)
  deriving DecidableEq

structure Server where
  listener : Fd
  /-- What else is open from the start on. -/
  others : List Fd
  clientsList : List Fd := []
  /-- The part of `events` that the loop has still before it. -/
  batch : List Fd := []
  backlog : List Conn := []
  conns : Fd → Option Conn := fun _ => none
  epoll : Epoll Fd
  /-- What the step at hand has done. -/
  actions : List Action := []
  exited : Bool := false
  /-- Something was written behind `message`, and what the process does from
  then on is whatever that makes of it. -/
  overrun : Bool := false

def Server.Free (s : Server) (fd : Fd) : Prop :=
  s.conns fd = none ∧ fd ≠ s.listener ∧ fd ∉ s.others

instance (s : Server) (fd : Fd) : Decidable (s.Free fd) :=
  inferInstanceAs (Decidable (_ ∧ _ ∧ _))

/-- What the calls come to that one event may lead to. A call that needs
something that is not there fails whatever stands here. -/
structure Answers where
  accepted : Option Fd := none
  fcntlOk : Bool := true
  ctlOk : Bool := true
  recvOk : Bool := true
  closeOk : Bool := true
  sendOk : Fd → Bool := fun _ => true
  /-- What the stack holds behind `buf`. -/
  beyond : List Byte := []

/-! ## System calls -/

section Calls

variable (a : Answers)

/-- `CHK`, with the exit status of the process. -/
def chk (ok : Bool) : Prog Server ℤ PUnit := Prog.require ok (-1)

/-- `CHK2` -/
def chk2 {α : Type} : Option α → Prog Server ℤ α
  | none => Prog.exit (-1)
  | some x => pure x

/-- The kernel hands out a descriptor that is not open. -/
def accept : Prog Server ℤ (Option Fd) := do
  let s ← Prog.get
  match a.accepted, s.backlog with
  | some client, conn :: backlog =>
      if s.Free client then
        Prog.modify fun s => { s with
          backlog := backlog
          conns := Function.update s.conns client (some conn) }
        pure (some client)
      else pure none
  | _, _ => pure none

/-- `epoll_ctl` with `EPOLL_CTL_ADD`. What has arrived already is an event. -/
def epollCtlAdd (client : Fd) : Prog Server ℤ Bool := do
  Prog.modify fun s =>
    if a.ctlOk then
      { s with epoll :=
        s.epoll.add client ((s.conns client).any Conn.readable) }
    else s
  pure a.ctlOk

/-- `recv` on a socket that does not block. -/
def recv (client : Fd) : Prog Server ℤ (Option (List Byte)) := do
  let s ← Prog.get
  match s.conns client with
  | some conn =>
      if a.recvOk && conn.readable then
        let bytes := conn.rcv.take bufSize
        Prog.modify fun s => { s with
          conns := Function.update s.conns client
            (some { conn with rcv := conn.rcv.drop bufSize })
          actions := s.actions ++ [.received client bytes] }
        pure (some bytes)
      else pure none
  | none => pure none

/-- The descriptor is gone in any case. -/
def close (client : Fd) : Prog Server ℤ Bool := do
  Prog.modify fun s => { s with
    conns := Function.update s.conns client none
    epoll := s.epoll.drop client }
  pure a.closeOk

def send (client : Fd) (bytes : List Byte) : Prog Server ℤ Bool := do
  Prog.modify fun s => { s with actions := s.actions ++ [.sent client bytes] }
  pure (a.sendOk client)

/-- `sprintf(message, ..)`, which writes the text and its NUL however long it
is. -/
def sprintf (text : List Byte) : Prog Server ℤ (List Byte) := do
  Prog.modify fun s =>
    { s with overrun := s.overrun || decide (bufSize < text.length + 1) }
  pure (printed text)

/-! ## Events -/

def setnonblocking : Prog Server ℤ PUnit := chk a.fcntlOk

/-- The branch of `main` for an event of the listener. The welcome has room in
`message` for every `int`. -/
def acceptClient : Prog Server ℤ PUnit := do
  let accepted ← accept a
  let client ← chk2 accepted
  setnonblocking a
  let added ← epollCtlAdd a client
  chk added
  Prog.modify fun s => { s with clientsList := s.clientsList ++ [client] }
  let sent ← send a client (printed (strWelcome client))
  chk sent

/-- The loop of `handle_message` over `clients_list`. -/
def broadcast (client : Fd) (message : List Byte) :
    List Fd → Prog Server ℤ PUnit
  | [] => pure ⟨⟩
  | it :: its =>
      if it = client then broadcast client message its
      else do
        let sent ← send a it message
        chk sent
        broadcast client message its

def handleMessage (client : Fd) : Prog Server ℤ ℕ := do
  let received ← recv a client
  let bytes ← chk2 received
  if bytes = [] then
    let closed ← close a client
    chk closed
    Prog.modify fun s =>
      { s with clientsList := s.clientsList.filter (· ≠ client) }
    pure 0
  else
    let s ← Prog.get
    if s.clientsList.length = 1 then
      let sent ← send a client strNooneConnected
      chk sent
      pure bytes.length
    else
      let message ← sprintf (strMessage client (store cleared bytes) a.beyond)
      broadcast a client message s.clientsList
      pure bytes.length

/-- The body of the loop over `events`. A number of bytes is never negative,
which is all that `main` asks about the result of `handle_message`. -/
def handleEvent (fd : Fd) : Prog Server ℤ PUnit := do
  let s ← Prog.get
  if fd = s.listener then acceptClient a
  else
    let _res ← handleMessage a fd
    pure ⟨⟩

end Calls

/-! ## The server among its clients -/

/-- A client comes with what it will have written when it is accepted, and
`epoll_wait` with what it reports, or with an error. -/
inductive Event
  | connect (conn : Conn)
  | write (client : Fd) (bytes : List Byte)
  | hangUp (client : Fd)
  | epollWait (events : Option (List Fd))
  | handle (answers : Answers)

def Server.arrive (s : Server) (client : Fd) (conn : Conn) : Server :=
  { s with
    conns := Function.update s.conns client (some conn)
    epoll := s.epoll.signal client }

/-- The loop of `main` is in `epoll_wait`. -/
def Server.Waiting (s : Server) : Prop := s.exited = false ∧ s.batch = []

instance (s : Server) : Decidable s.Waiting :=
  inferInstanceAs (Decidable (_ ∧ _))

/-- An event that cannot happen now changes nothing. -/
def Server.next (s : Server) : Event → Server
  | .connect conn =>
      { s with
        backlog := s.backlog ++ [conn]
        epoll := s.epoll.signal s.listener }
  | .write client bytes =>
      match s.conns client with
      | none => s
      | some conn =>
          if conn.fin = false ∧ bytes ≠ [] then
            s.arrive client { conn with rcv := conn.rcv ++ bytes }
          else s
  | .hangUp client =>
      match s.conns client with
      | none => s
      | some conn => s.arrive client { conn with fin := true }
  | .epollWait none => if s.Waiting then { s with exited := true } else s
  | .epollWait (some events) =>
      if s.Waiting ∧ events.length ≤ epollSize ∧ s.epoll.Reports events then
        { s with batch := events, epoll := s.epoll.fetch events }
      else s
  | .handle answers =>
      match s.exited, s.batch with
      | false, fd :: batch =>
          match (handleEvent answers fd).run { s with batch := batch } with
          | (.ok _, s') => s'
          | (.error _, s') => { s' with exited := true }
      | _, _ => s

def server : Mealy Server Event (List Action) where
  step s e :=
    let s' := Server.next { s with actions := [] } e
    (s', s'.actions)

/-- The server before its first `epoll_wait`. -/
def start (listener : Fd) (others : List Fd) : Server where
  listener := listener
  others := others
  epoll := ⟨Function.update (fun _ => false) listener true, []⟩

end Elfupspeed.EpollServer
