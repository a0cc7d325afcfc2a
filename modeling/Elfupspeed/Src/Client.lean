import Elfupspeed.Lib.CString
import Elfupspeed.Lib.Descriptors
import Elfupspeed.Lib.Exit
import Elfupspeed.Lib.Mealy

/-!
# `client.c`: the client in the Java process

Three entry points and any number of threads share one descriptor, `listener`,
and one event record, `ev`. A thread waits in `epoll_wait` and goes through
what that has put into `events`. The array and the count are global too.

An entry call is one step here, and so is each round of a thread's loop. The
rest of the process opens and closes descriptors of its own in between, and the
kernel hands out any number that is not open.
-/

namespace Elfupspeed.Client

open Elfupspeed.Lib Elfupspeed.Lib.CString

abbrev Fd := ℕ

abbrev Bits := BitVec 32

def epollIn : Bits := 0x001
def epollErr : Bits := 0x008
def epollHup : Bits := 0x010
def epollEt : Bits := 0x80000000

/-- `EPOLL_SIZE` -/
def epollSize : ℕ := 1024

/-- `struct epoll_event`, with the `fd` of its data. -/
structure EpollEvent where
  events : Bits := 0
  fd : ℤ := 0
  deriving DecidableEq

/-- What `epoll_ctl` was called with. -/
structure Registration where
  epfd : ℤ
  event : EpollEvent
  deriving DecidableEq

/-- `struct messagebody`, with the strings in its arrays. -/
structure Messagebody where
  messageType : ℤ
  functionname : List Byte
  functionargs : List Byte
  othermessage : List Byte
  deriving DecidableEq

/-- Where a thread is: in `epoll_wait`, before the round `i` of its loop over
the events, or gone. -/
inductive Thread
  | waiting (epfd : ℤ)
  | looping (i : ℕ)
  | ended
  deriving DecidableEq

/-- A call that shows outside, with what the number it was given stood for. -/
inductive Action
  | closed (file : Option File)
  | wrote (file : Option File) (mess : Messagebody)
  | recv (result : Option (List Byte))
  deriving DecidableEq

structure Process where
  listener : ℤ := -1
  ev : EpollEvent := {}
  epfd : ℤ := 0
  /-- The array `events`, as far as it was ever written. -/
  events : List EpollEvent := []
  epollEventsCount : ℕ := 0
  threads : List Thread := []
  descriptors : Descriptors
  registrations : List Registration := []
  /-- What the step at hand has done. -/
  actions : List Action := []
  exited : Bool := false

/-- What a number stands for, which is nothing if it is negative. -/
def Process.file (c : Process) (fd : ℤ) : Option File :=
  if 0 ≤ fd then c.descriptors.file fd.toNat else none

/-! ## System calls -/

/-- `CHK` -/
def chk (ok : Bool) : Prog Process ℤ PUnit := Prog.require ok (-1)

/-- A call that opens something: under a number that is not open, or -1. -/
def allocate (opens : Descriptors → Fd → Descriptors) (answer : Option Fd) :
    Prog Process ℤ ℤ := do
  let c ← Prog.get
  match answer with
  | some fd =>
      if c.descriptors.file fd = none then
        Prog.modify fun c => { c with descriptors := opens c.descriptors fd }
        pure fd
      else pure (-1)
  | none => pure (-1)

def socket (answer : Option Fd) : Prog Process ℤ ℤ :=
  allocate Descriptors.openOwn answer

def epollCreate (answer : Option Fd) : Prog Process ℤ ℤ :=
  allocate Descriptors.openOther answer

def close (fd : ℤ) : Prog Process ℤ Bool := do
  let c ← Prog.get
  Prog.modify fun c => { c with
    descriptors :=
      if 0 ≤ fd then c.descriptors.close fd.toNat else c.descriptors
    actions := c.actions ++ [.closed (c.file fd)] }
  pure (c.file fd).isSome

def write (fd : ℤ) (mess : Messagebody) : Prog Process ℤ PUnit :=
  Prog.modify fun c =>
    { c with actions := c.actions ++ [.wrote (c.file fd) mess] }

/-- `recv` with its result, `none` for -1. -/
def recv (fd : ℤ) (answer : Option (List Byte)) :
    Prog Process ℤ (Option (List Byte)) := do
  let c ← Prog.get
  let result := if (c.file fd).isSome then answer else none
  Prog.modify fun c => { c with actions := c.actions ++ [.recv result] }
  pure result

/-! ## Entry points -/

/-- What the calls of `startClient` come to. -/
structure Answers where
  socket : Option Fd
  fcntlOk : Bool := true
  connectOk : Bool := true
  epollCreate : Option Fd
  ctlOk : Bool := true
  pthreadOk : Bool := true

def setnonblocking (a : Answers) : Prog Process ℤ PUnit := chk a.fcntlOk

def closeClient : Prog Process ℤ String := do
  let c ← Prog.get
  if 1 < c.listener then
    let _closed ← close c.listener
    pure "closed"
  else pure "closed"

/-- The message that is always sent. -/
def mess : Messagebody where
  messageType := 1
  functionname := ofString "getRunningAPP"
  functionargs := ofString "client send"
  othermessage := ofString "hhh"

def sendMessageToServer : Prog Process ℤ String := do
  let c ← Prog.get
  if 1 < c.listener then
    write c.listener mess
    pure "OK"
  else pure "FAIL"

/-- `epoll_ctl` gets `ev` as it is, and `ev.events` is filled in after that.
Nobody asks whether there is a thread. -/
def startClient (a : Answers) : Prog Process ℤ String := do
  let listener ← socket a.socket
  Prog.modify fun c => { c with listener := listener }
  chk (0 ≤ listener)
  setnonblocking a
  chk a.connectOk
  let epfd ← epollCreate a.epollCreate
  Prog.modify fun c => { c with epfd := epfd }
  chk (0 ≤ epfd)
  Prog.modify fun c => { c with ev := { c.ev with fd := c.listener } }
  chk a.ctlOk
  Prog.modify fun c =>
    { c with registrations := c.registrations ++ [⟨c.epfd, c.ev⟩] }
  Prog.modify fun c => { c with ev :=
    { c.ev with events := epollIn ||| epollEt ||| epollErr ||| epollHup } }
  Prog.modify fun c => { c with threads :=
    if a.pthreadOk then c.threads ++ [.waiting c.epfd] else c.threads }
  pure "dddd"

/-! ## The thread -/

/-- The round `i` of the loop in `start_thread`, and whether the thread returns
from it. The test is on `ev`, not on the event at hand, and a message is
followed by a `close` of what `listener` was just set to. -/
def startThread (i : ℕ) (answer : Option (List Byte)) : Prog Process ℤ Bool := do
  let c ← Prog.get
  if (c.events.getD i {}).fd = c.listener then
    if c.ev.events &&& epollHup ≠ 0 then
      let closed ← close c.listener
      chk closed
      Prog.modify fun c => { c with listener := -1 }
      pure true
    else
      let nread ← recv c.listener answer
      match nread with
      | none | some [] =>
          Prog.modify fun c => { c with listener := -1 }
          pure true
      | some (_ :: _) =>
          Prog.modify fun c => { c with listener := -1 }
          let closed ← close (-1)
          chk closed
          pure false
  else pure false

/-! ## The process -/

/-- An `epoll_wait` comes with what it reports, or with an error, and a round
of a thread's loop with what its `recv` would get. -/
inductive Event
  | startClient (a : Answers)
  | closeClient
  | sendMessageToServer
  | epollWait (thread : ℕ) (events : Option (List EpollEvent))
  | startThread (thread : ℕ) (recv : Option (List Byte))
  | otherOpen (fd : Fd)
  | otherClose (fd : Fd)

/-- The state a program leaves the process in. -/
def Process.after {α : Type} (c : Process) (m : Prog Process ℤ α) : Process :=
  match m.run c with
  | (.ok _, c') => c'
  | (.error _, c') => { c' with exited := true }

/-- What an instance may report: events of descriptors it has been given. -/
def Process.Reports (c : Process) (epfd : ℤ) (events : List EpollEvent) : Prop :=
  events ≠ [] ∧ events.length ≤ epollSize ∧
    ∀ e ∈ events, ∃ r ∈ c.registrations, r.epfd = epfd ∧ r.event.fd = e.fd

instance (c : Process) (epfd : ℤ) (events : List EpollEvent) :
    Decidable (c.Reports epfd events) :=
  inferInstanceAs (Decidable (_ ∧ _ ∧ _))

def Process.setThread (c : Process) (t : ℕ) (thread : Thread) : Process :=
  { c with threads := c.threads.set t thread }

/-- What a round leaves of its thread. -/
def Process.round (c : Process) (t i : ℕ) (answer : Option (List Byte)) : Process :=
  match (startThread i answer).run c with
  | (.ok true, c') => c'.setThread t .ended
  | (.ok false, c') => c'.setThread t (.looping (i + 1))
  | (.error _, c') => { c' with exited := true }

/-- An event that cannot happen now changes nothing. -/
def Process.next (c : Process) : Event → Process
  | .startClient a => c.after (startClient a)
  | .closeClient => c.after closeClient
  | .sendMessageToServer => c.after sendMessageToServer
  | .epollWait t events =>
      match c.threads[t]?, events with
      | some (.waiting _), none => { c with exited := true }
      | some (.waiting epfd), some events =>
          if c.Reports epfd events then
            { c.setThread t (.looping 0) with
              events := events ++ c.events.drop events.length
              epollEventsCount := events.length }
          else c
      | _, _ => c
  | .startThread t answer =>
      match c.threads[t]? with
      | some (.looping i) =>
          if i < c.epollEventsCount then c.round t i answer
          else c.setThread t (.waiting c.epfd)
      | _ => c
  | .otherOpen fd =>
      if c.descriptors.file fd = none then
        { c with descriptors := c.descriptors.openOther fd }
      else c
  | .otherClose fd =>
      if c.descriptors.file fd = some .other then
        { c with descriptors := c.descriptors.close fd }
      else c

/-- Nothing happens in a process that has ended. -/
def process : Mealy Process Event (List Action) where
  step c e :=
    if c.exited then (c, [])
    else
      let c' := Process.next { c with actions := [] } e
      (c', c'.actions)

/-- The process before the first call, with what is open in it. -/
def start (others : List Fd) : Process where
  descriptors := { file := fun fd => if fd ∈ others then some .other else none }

end Elfupspeed.Client
