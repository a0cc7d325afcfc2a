import Elfupspeed.Src.Client

/-!
# The client's connection

What the kernel keeps of the socket that was registered last, between the
server at its other end and the thread that waits for it. The events that are
there are reported as far as the registration asks for them; an error and a
hang-up are reported whatever it asks for.
-/

namespace Elfupspeed.Client

open Elfupspeed.Lib

structure Socket where
  client : Process
  /-- What the server has sent and nobody has received. -/
  unread : List Byte := []
  hup : Bool := false
  err : Bool := false
  /-- There is something to be reported. -/
  ready : Bool := false

inductive SocketEvent
  | data (bytes : List Byte)
  | hangUp
  | error
  /-- The thread comes back from `epoll_wait`. -/
  | epollWait
  /-- The thread goes through the next round of its loop. -/
  | startThread
  deriving DecidableEq

namespace Socket

variable (w : Socket)

def registration : Registration := w.client.registrations.getLastD ⟨-1, {}⟩

/-- What the connection was registered for. -/
def mask : Bits := w.registration.event.events

def fd : ℤ := w.registration.event.fd

/-- The thread that was started last. -/
def thread : ℕ := w.client.threads.length - 1

/-- The client has not closed it. -/
def isOpen : Bool := (w.client.file w.fd).isSome

/-- The end of the stream is something to read, too. -/
def status : Bits :=
  (if w.unread ≠ [] ∨ w.hup = true then epollIn else 0) |||
    (if w.err then epollErr else 0) ||| (if w.hup then epollHup else 0)

def reported : Bits := w.status &&& (w.mask ||| epollErr ||| epollHup)

def report : EpollEvent := ⟨w.reported, w.fd⟩

/-- What a `recv` gets. -/
def recvAnswer : Option (List Byte) :=
  if w.unread ≠ [] then some (w.unread.take 1024)
  else if w.hup then some [] else none

def waits : Bool :=
  match w.client.threads[w.thread]? with
  | some (.waiting epfd) => epfd = w.registration.epfd
  | some (.looping _) | some .ended | none => false

/-- The bytes a step has received. -/
def taken : List Action → ℕ
  | [] => 0
  | .recv (some bytes) :: actions => bytes.length + taken actions
  | .recv none :: actions | .closed _ :: actions | .wrote .. :: actions =>
      taken actions

/-- An event that is not asked for does not make the connection ready, and
without `EPOLLET` a report leaves it so. -/
def step : SocketEvent → Socket × List Action
  | .data bytes =>
      if w.isOpen = true ∧ w.hup = false ∧ bytes ≠ [] then
        ({ w with
          unread := w.unread ++ bytes
          ready := w.ready || decide (w.mask &&& epollIn ≠ 0) }, [])
      else (w, [])
  | .hangUp => if w.isOpen then ({ w with hup := true, ready := true }, []) else (w, [])
  | .error => if w.isOpen then ({ w with err := true, ready := true }, []) else (w, [])
  | .epollWait =>
      if w.ready = true ∧ w.waits = true then
        if w.reported ≠ 0 then
          ({ w with
            client := (process.step w.client
              (.epollWait w.thread (some [w.report]))).1
            ready := decide (w.mask &&& epollEt = 0) }, [])
        else ({ w with ready := false }, [])
      else (w, [])
  | .startThread =>
      let r := process.step w.client (.startThread w.thread w.recvAnswer)
      let w' := { w with client := r.1, unread := w.unread.drop (taken r.2) }
      ({ w' with ready := w'.ready && w'.isOpen }, r.2)

end Socket

def socketMachine : Mealy Socket SocketEvent (List Action) where
  step := Socket.step

/-- The socket after some calls of `startClient`. -/
def startSocket (others : List Fd) (starts : List Answers) : Socket where
  client := process.after (start others) (starts.map Event.startClient)

end Elfupspeed.Client
