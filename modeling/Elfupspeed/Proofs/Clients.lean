import Elfupspeed.Src.EpollServer

/-!
# What an event does, and `clients_list`

An event that does not end the process has one of three effects: it accepts a
client, it drops one, or it takes a message and passes it on. Each program of
the server is brought into that form first: when it gets to its end, and in
what state. The calls it needs for that are all it says about the answers.

The invariant of the list is then read off the three effects. It is about the
descriptors alone: the list has no descriptor twice, and the descriptors in it
are those of the open connections, which are also those that are registered
besides the listener. A number that is used again comes back into the list
only after it has left it, as it is not free as long as its connection is open.
-/

namespace Elfupspeed.EpollServer

open Elfupspeed.Lib Elfupspeed.Lib.CString Elfupspeed.Lib.Prog

/-! ## The programs -/

section Runs

variable {a : Answers} {s t : Server} {client : Fd}

theorem send_run (bytes : List Byte) :
    (send a client bytes).run s = (.ok (a.sendOk client),
      { s with actions := s.actions ++ [.sent client bytes] }) := rfl

theorem sprintf_run (text : List Byte) :
    (sprintf text).run s = (.ok (printed text),
      { s with overrun := s.overrun || decide (bufSize < text.length + 1) }) := rfl

theorem close_run :
    (close a client).run s = (.ok a.closeOk,
      { s with
        conns := Function.update s.conns client none
        epoll := s.epoll.drop client }) := rfl

theorem epollCtlAdd_run :
    (epollCtlAdd a client).run s = (.ok a.ctlOk,
      if a.ctlOk then
        { s with epoll :=
          s.epoll.add client ((s.conns client).any Conn.readable) }
      else s) := rfl

theorem chk_ok {ok : Bool} {u : PUnit} :
    (chk ok).run s = (.ok u, t) ↔ ok = true ∧ s = t := run_require_eq_ok

theorem chk_bind_ok {α : Type} {ok : Bool} {f : PUnit → Prog Server ℤ α} {x : α} :
    (chk ok >>= f).run s = (.ok x, t) ↔
      ok = true ∧ (f ⟨⟩).run s = (.ok x, t) := run_require_bind_eq_ok

theorem chk2_bind_ok {α β : Type} {o : Option α} {f : α → Prog Server ℤ β} {x : β} :
    (chk2 o >>= f).run s = (.ok x, t) ↔
      ∃ y, o = some y ∧ (f y).run s = (.ok x, t) := by
  cases o with
  | none => simp [chk2, run_bind_error (run_exit _ s)]
  | some y => simp [chk2, run_bind_ok (run_pure y s)]

theorem chk2_run {α : Type} (x : α) : (chk2 (some x)).run s = (.ok x, s) := rfl

/-- A call and its check: the call has to succeed. -/
theorem bind_chk_ok {α : Type} {m : Prog Server ℤ Bool} {s' : Server} {ok : Bool}
    (hrun : m.run s = (.ok ok, s')) {f : Prog Server ℤ α} {x : α} :
    (m >>= fun r => chk r >>= fun _ => f).run s = (.ok x, t) ↔
      ok = true ∧ f.run s' = (.ok x, t) := by
  rw [run_bind_ok hrun, chk_bind_ok]

/-- A descriptor is accepted for the first connection that waits. -/
theorem accept_ok :
    (accept a).run s = (.ok (some client), t) ↔
      a.accepted = some client ∧ s.Free client ∧
      ∃ conn backlog, s.backlog = conn :: backlog ∧
        t = { s with
          backlog := backlog
          conns := Function.update s.conns client (some conn) } := by
  rw [accept, run_bind_ok (run_get s)]
  constructor
  · intro h
    split at h
    · next fd conn backlog hfd hback =>
        split at h
        · next hfree =>
            rw [run_bind_ok (run_modify _ s), run_pure] at h
            cases h
            exact ⟨hfd, hfree, conn, backlog, hback, rfl⟩
        · cases h
    · cases h
  · intro h
    obtain ⟨hfd, hfree, conn, backlog, hback, rfl⟩ := h
    simp only [hfd, hback]
    rw [if_pos hfree]
    rfl

theorem recv_ok {bytes : List Byte} :
    (recv a client).run s = (.ok (some bytes), t) ↔
      a.recvOk = true ∧ ∃ conn, s.conns client = some conn ∧
        conn.readable = true ∧ bytes = conn.rcv.take bufSize ∧
        t = { s with
          conns := Function.update s.conns client
            (some { conn with rcv := conn.rcv.drop bufSize })
          actions := s.actions ++ [.received client bytes] } := by
  rw [recv, run_bind_ok (run_get s)]
  constructor
  · intro h
    split at h
    · next conn hconn =>
        split at h
        · next hgets =>
            rw [run_bind_ok (run_modify _ s), run_pure] at h
            cases h
            rw [Bool.and_eq_true] at hgets
            exact ⟨hgets.1, conn, hconn, hgets.2, rfl, rfl⟩
        · cases h
    · cases h
  · intro h
    obtain ⟨hok, conn, hconn, hreadable, rfl, rfl⟩ := h
    simp only [hconn]
    rw [if_pos (by rw [hok, hreadable]; rfl)]
    rfl

/-- Every recipient gets the message, or the loop does not get to its end. -/
theorem broadcast_ok {message : List Byte} {its : List Fd} {u : PUnit} :
    (broadcast a client message its).run s = (.ok u, t) ↔
      (∀ it ∈ its, it ≠ client → a.sendOk it = true) ∧
      t = { s with actions := s.actions ++
        (its.filter (· ≠ client)).map (.sent · message) } := by
  induction its generalizing s with
  | nil =>
      constructor
      · intro h
        cases h
        simp
      · intro h
        obtain ⟨-, rfl⟩ := h
        simp [broadcast]
  | cons it its ih =>
      by_cases hit : it = client
      · rw [broadcast, if_pos hit, ih]
        simp [hit]
      · rw [broadcast, if_neg hit, bind_chk_ok (send_run message), ih,
          List.forall_mem_cons, List.filter_cons_of_pos (by simpa using hit)]
        simp [hit, and_assoc]

end Runs

/-! ## The three effects -/

/-- The state when a client has been accepted for the connection `conn`. -/
def Server.accepting (s : Server) (client : Fd) (conn : Conn)
    (backlog : List Conn) : Server :=
  { s with
    backlog := backlog
    conns := Function.update s.conns client (some conn)
    epoll := s.epoll.add client conn.readable
    clientsList := s.clientsList ++ [client]
    actions := s.actions ++ [.sent client (printed (strWelcome client))] }

def Server.dropping (s : Server) (client : Fd) : Server :=
  { s with
    conns := Function.update s.conns client none
    epoll := s.epoll.drop client
    clientsList := s.clientsList.filter (· ≠ client)
    actions := s.actions ++ [.received client []] }

/-- Who is sent something when `client` has sent a message. -/
def Server.recipients (s : Server) (client : Fd) : List Fd :=
  if s.clientsList.length = 1 then [client]
  else s.clientsList.filter (· ≠ client)

/-- What they are sent. -/
def Server.answer (s : Server) (a : Answers) (client : Fd)
    (bytes : List Byte) : List Byte :=
  if s.clientsList.length = 1 then strNooneConnected
  else printed (strMessage client (store cleared bytes) a.beyond)

/-- Whether the message is printed over the end of its buffer. -/
def Server.overruns (s : Server) (a : Answers) (client : Fd) (bytes : List Byte) :
    Bool :=
  if s.clientsList.length = 1 then false
  else decide (bufSize <
    (strMessage client (store cleared bytes) a.beyond).length + 1)

def Server.passingOn (s : Server) (a : Answers) (client : Fd) (conn : Conn) :
    Server :=
  let bytes := conn.rcv.take bufSize
  { s with
    conns := Function.update s.conns client
      (some { conn with rcv := conn.rcv.drop bufSize })
    actions := s.actions ++ .received client bytes ::
      (s.recipients client).map (.sent · (s.answer a client bytes))
    overrun := s.overrun || s.overruns a client bytes }

/-- What handling an event of `fd` makes of a state when no call fails. -/
inductive Effect (a : Answers) (s : Server) (fd : Fd) : Server → Prop
  | accepts (client : Fd) (conn : Conn) (backlog : List Conn)
      (hfd : fd = s.listener) (haccepted : a.accepted = some client)
      (hfree : s.Free client) (hbacklog : s.backlog = conn :: backlog)
      (hfcntl : a.fcntlOk = true) (hctl : a.ctlOk = true)
      (hsend : a.sendOk client = true) :
      Effect a s fd (s.accepting client conn backlog)
  | drops (conn : Conn) (hfd : fd ≠ s.listener) (hrecv : a.recvOk = true)
      (hconn : s.conns fd = some conn) (hnil : conn.rcv = [])
      (hfin : conn.fin = true) (hclose : a.closeOk = true) :
      Effect a s fd (s.dropping fd)
  | passesOn (conn : Conn) (hfd : fd ≠ s.listener) (hrecv : a.recvOk = true)
      (hconn : s.conns fd = some conn) (hne : conn.rcv ≠ [])
      (hsend : ∀ it ∈ s.recipients fd, a.sendOk it = true) :
      Effect a s fd (s.passingOn a fd conn)

section Effects

variable {a : Answers} {s t : Server} {fd : Fd}

theorem acceptClient_ok {u : PUnit} :
    (acceptClient a).run s = (.ok u, t) ↔
      ∃ client conn backlog, a.accepted = some client ∧ s.Free client ∧
        s.backlog = conn :: backlog ∧ a.fcntlOk = true ∧ a.ctlOk = true ∧
        a.sendOk client = true ∧ t = s.accepting client conn backlog := by
  rw [acceptClient, run_bind_eq_ok]
  simp only [chk2_bind_ok]
  constructor
  · intro h
    obtain ⟨_, s', hacc, client, rfl, h⟩ := h
    obtain ⟨haccepted, hfree, conn, backlog, hback, rfl⟩ := accept_ok.mp hacc
    rw [setnonblocking, chk_bind_ok, bind_chk_ok epollCtlAdd_run,
      run_bind_ok (run_modify _ _), run_bind_ok (send_run _), chk_ok] at h
    obtain ⟨hfcntl, hctl, hsend, rfl⟩ := h
    exact ⟨client, conn, backlog, haccepted, hfree, hback, hfcntl, hctl, hsend,
      by simp [hctl, Server.accepting]⟩
  · rintro ⟨client, conn, backlog, haccepted, hfree, hback, hfcntl, hctl,
      hsend, rfl⟩
    refine ⟨some client, _, accept_ok.mpr
      ⟨haccepted, hfree, conn, backlog, hback, rfl⟩, client, rfl, ?_⟩
    rw [setnonblocking, chk_bind_ok, bind_chk_ok epollCtlAdd_run,
      run_bind_ok (run_modify _ _), run_bind_ok (send_run _), chk_ok]
    exact ⟨hfcntl, hctl, hsend, by simp [hctl, Server.accepting]⟩

theorem take_bufSize_eq_nil {bytes : List Byte} :
    bytes.take bufSize = [] ↔ bytes = [] := by
  simp [bufSize]

theorem handleMessage_drops {s' : Server} {len : ℕ}
    (hrecv : (recv a fd).run s = (.ok (some []), s')) :
    (handleMessage a fd).run s = (.ok len, t) ↔
      len = 0 ∧ a.closeOk = true ∧ t = s.dropping fd := by
  obtain ⟨-, _, -, -, -, rfl⟩ := recv_ok.mp hrecv
  rw [handleMessage, run_bind_ok hrecv, run_bind_ok (chk2_run []), if_pos rfl,
    bind_chk_ok close_run, run_bind_ok (run_modify _ _), run_pure]
  simp only [Prod.mk.injEq, Except.ok.injEq, Server.dropping,
    Function.update_idem]
  constructor
  · intro h
    obtain ⟨hclose, rfl, rfl⟩ := h
    exact ⟨rfl, hclose, rfl⟩
  · intro h
    obtain ⟨rfl, hclose, rfl⟩ := h
    exact ⟨hclose, rfl, rfl⟩

theorem handleMessage_passesOn {conn : Conn} {s' : Server} {bytes : List Byte}
    {len : ℕ} (hne : bytes ≠ [])
    (hrecv : (recv a fd).run s = (.ok (some bytes), s'))
    (hconn : s.conns fd = some conn) :
    (handleMessage a fd).run s = (.ok len, t) ↔
      len = bytes.length ∧ (∀ it ∈ s.recipients fd, a.sendOk it = true) ∧
      t = s.passingOn a fd conn := by
  obtain ⟨-, conn', hconn', -, rfl, rfl⟩ := recv_ok.mp hrecv
  obtain rfl : conn = conn' := by
    rw [hconn] at hconn'
    injection hconn'
  rw [handleMessage, run_bind_ok hrecv, run_bind_ok (chk2_run _), if_neg hne,
    run_bind_ok (run_get _)]
  by_cases halone : s.clientsList.length = 1
  · rw [if_pos halone, bind_chk_ok (send_run _), run_pure]
    simp only [Prod.mk.injEq, Except.ok.injEq, Server.passingOn,
      Server.recipients, Server.answer, Server.overruns, if_pos halone,
      Bool.or_false, List.mem_singleton, forall_eq, List.append_assoc,
      List.singleton_append, List.map_cons, List.map_nil]
    constructor
    · intro h
      obtain ⟨hsend, rfl, rfl⟩ := h
      exact ⟨rfl, hsend, rfl⟩
    · intro h
      obtain ⟨rfl, hsend, rfl⟩ := h
      exact ⟨hsend, rfl, rfl⟩
  · rw [if_neg halone, run_bind_ok (sprintf_run _), run_bind_eq_ok]
    simp only [broadcast_ok, Prod.mk.injEq, Except.ok.injEq, Server.passingOn,
      Server.recipients, Server.answer, Server.overruns, if_neg halone,
      List.append_assoc, List.singleton_append, List.mem_filter,
      decide_eq_true_eq, and_imp, run_pure]
    constructor
    · intro h
      obtain ⟨_, _, ⟨hsend, rfl⟩, rfl, rfl⟩ := h
      exact ⟨rfl, hsend, rfl⟩
    · intro h
      obtain ⟨rfl, hsend, rfl⟩ := h
      exact ⟨⟨⟩, _, ⟨hsend, rfl⟩, rfl, rfl⟩

/-- `handle_message` gets to its end just when nothing fails. -/
theorem handleMessage_ok (hfd : fd ≠ s.listener) :
    (∃ len, (handleMessage a fd).run s = (.ok len, t)) ↔ Effect a s fd t := by
  constructor
  · intro h
    obtain ⟨len, h⟩ := h
    have hrun := h
    rw [handleMessage, run_bind_eq_ok] at h
    obtain ⟨received, s', hrecv, h⟩ := h
    obtain ⟨bytes, rfl, -⟩ := chk2_bind_ok.mp h
    obtain ⟨hok, conn, hconn, hreadable, hbytes, -⟩ := recv_ok.mp hrecv
    by_cases hnil : conn.rcv = []
    · obtain rfl : bytes = [] := hbytes.trans (take_bufSize_eq_nil.mpr hnil)
      obtain ⟨-, hclose, rfl⟩ := (handleMessage_drops hrecv).mp hrun
      have hfin : conn.fin = true := by simpa [Conn.readable, hnil] using hreadable
      exact .drops conn hfd hok hconn hnil hfin hclose
    · have hne : bytes ≠ [] := by rwa [hbytes, Ne, take_bufSize_eq_nil]
      obtain ⟨-, hsend, rfl⟩ :=
        (handleMessage_passesOn hne hrecv hconn).mp hrun
      exact .passesOn conn hfd hok hconn hnil hsend
  · intro h
    cases h with
    | accepts _ _ _ hlistener => exact absurd hlistener hfd
    | drops conn _ hok hconn hnil hfin hclose =>
        have hreadable : conn.readable = true := by simp [Conn.readable, hfin]
        have hrecv := recv_ok.mpr ⟨hok, conn, hconn, hreadable,
          (take_bufSize_eq_nil.mpr hnil).symm, rfl⟩
        exact ⟨0, (handleMessage_drops hrecv).mpr ⟨rfl, hclose, rfl⟩⟩
    | passesOn conn _ hok hconn hne hsend =>
        have hreadable : conn.readable = true := by simp [Conn.readable, hne]
        have hrecv := recv_ok.mpr ⟨hok, conn, hconn, hreadable, rfl, rfl⟩
        have hbytes := mt take_bufSize_eq_nil.mp hne
        exact ⟨_, (handleMessage_passesOn hbytes hrecv hconn).mpr
          ⟨rfl, hsend, rfl⟩⟩

theorem handleEvent_ok {u : PUnit} :
    (handleEvent a fd).run s = (.ok u, t) ↔ Effect a s fd t := by
  rw [handleEvent, run_bind_ok (run_get s)]
  by_cases hfd : fd = s.listener
  · rw [if_pos hfd, acceptClient_ok]
    constructor
    · rintro ⟨client, conn, backlog, haccepted, hfree, hback, hfcntl, hctl,
        hsend, rfl⟩
      exact .accepts client conn backlog hfd haccepted hfree hback hfcntl hctl
        hsend
    · intro h
      cases h with
      | accepts client conn backlog _ haccepted hfree hback hfcntl hctl hsend =>
          exact ⟨client, conn, backlog, haccepted, hfree, hback, hfcntl, hctl,
            hsend, rfl⟩
      | drops _ hne => exact absurd hfd hne
      | passesOn _ hne => exact absurd hfd hne
  · rw [if_neg hfd, run_bind_eq_ok, ← handleMessage_ok hfd]
    constructor
    · intro h
      obtain ⟨len, s', h, heq⟩ := h
      cases heq
      exact ⟨len, h⟩
    · intro h
      obtain ⟨len, h⟩ := h
      exact ⟨len, t, h, rfl⟩

end Effects

/-! ## What the server and its clients can do -/

/-- What becomes of a state with an event, where `t` is the state after it. -/
inductive Next (s : Server) (e : Event) (t : Server) : Prop
  | idle (heq : t = s)
  | connects (conn : Conn)
      (heq : t = { s with
        backlog := s.backlog ++ [conn]
        epoll := s.epoll.signal s.listener })
  | arrives (client : Fd) (conn conn' : Conn)
      (hconn : s.conns client = some conn) (heq : t = s.arrive client conn')
  | stops (hstop : t.exited = true)
  | fetches (events : List Fd) (hwait : s.Waiting)
      (hreports : s.epoll.Reports events)
      (heq : t = { s with batch := events, epoll := s.epoll.fetch events })
  | handles (a : Answers) (fd : Fd) (batch : List Fd) (he : e = .handle a)
      (hs : s.exited = false) (hbatch : s.batch = fd :: batch)
      (heffect : Effect a { s with batch := batch } fd t)

theorem handle_cases (s : Server) (a : Answers) :
    (s.next (.handle a) = s ∧ (s.exited = true ∨ s.batch = [])) ∨
    ∃ fd batch, s.exited = false ∧ s.batch = fd :: batch ∧
      ((s.next (.handle a)).exited = true ∨
        Effect a { s with batch := batch } fd (s.next (.handle a))) := by
  simp only [Server.next]
  split
  · next fd batch hs hbatch =>
      refine .inr ⟨fd, batch, hs, hbatch, ?_⟩
      split
      · next hrun => exact .inr (handleEvent_ok.mp hrun)
      · exact .inl rfl
  · next hnot =>
      refine .inl ⟨rfl, ?_⟩
      cases hs : s.exited with
      | true => exact .inl rfl
      | false =>
          cases hbatch : s.batch with
          | nil => exact .inr rfl
          | cons fd batch => exact absurd hbatch (hnot fd batch hs)

theorem next_cases (s : Server) (e : Event) : Next s e (s.next e) := by
  cases e with
  | connect conn => exact .connects conn rfl
  | write client bytes =>
      simp only [Server.next]
      split
      · exact .idle rfl
      · next conn hconn =>
          split
          · exact .arrives client conn _ hconn rfl
          · exact .idle rfl
  | hangUp client =>
      simp only [Server.next]
      split
      · exact .idle rfl
      · next conn hconn => exact .arrives client conn _ hconn rfl
  | epollWait events =>
      cases events with
      | none =>
          simp only [Server.next]
          split
          · exact .stops rfl
          · exact .idle rfl
      | some events =>
          simp only [Server.next]
          split
          · next h => exact .fetches events h.1 h.2.2 rfl
          · exact .idle rfl
  | handle a =>
      rcases handle_cases s a with ⟨heq, -⟩ | ⟨fd, batch, hs, hbatch, hstop | heffect⟩
      · exact .idle heq
      · exact .stops hstop
      · exact .handles a fd batch rfl hs hbatch heffect

/-! ## The list -/

def Server.IsOpen (s : Server) (fd : Fd) : Prop := (s.conns fd).isSome = true

structure Tracks (s : Server) : Prop where
  nodup : s.clientsList.Nodup
  mem_iff : ∀ fd, fd ∈ s.clientsList ↔ s.IsOpen fd
  registered_iff : ∀ fd,
    s.epoll.registered fd = true ↔ fd = s.listener ∨ s.IsOpen fd
  listener : ¬ s.IsOpen s.listener

section Tracks

variable {a : Answers} {s t : Server} {fd : Fd}

theorem isSome_update_some {conns : Fd → Option Conn} {client : Fd} {conn : Conn} :
    (Function.update conns client (some conn) fd).isSome = true ↔
      fd = client ∨ (conns fd).isSome = true := by
  by_cases h : fd = client
  · simp [h]
  · simp [h]

theorem isSome_update_none {conns : Fd → Option Conn} {client : Fd} :
    (Function.update conns client none fd).isSome = true ↔
      fd ≠ client ∧ (conns fd).isSome = true := by
  by_cases h : fd = client
  · simp [h]
  · simp [h]

theorem update_eq_true {registered : Fd → Bool} {client : Fd} :
    Function.update registered client true fd = true ↔
      fd = client ∨ registered fd = true := by
  by_cases h : fd = client
  · simp [h]
  · simp [h]

theorem update_false_eq_true {registered : Fd → Bool} {client : Fd} :
    Function.update registered client false fd = true ↔
      fd ≠ client ∧ registered fd = true := by
  by_cases h : fd = client
  · simp [h]
  · simp [h]

theorem Tracks.accepting (h : Tracks s) {client : Fd} (hfree : s.Free client)
    (conn : Conn) (backlog : List Conn) :
    Tracks (s.accepting client conn backlog) where
  nodup := by
    have hnew : client ∉ s.clientsList := by
      rw [h.mem_iff, Server.IsOpen, hfree.1]
      simp
    simpa [Server.accepting, List.nodup_append] using
      ⟨h.nodup, fun x hx heq => hnew (heq ▸ hx)⟩
  mem_iff fd := by
    simp only [Server.accepting, Server.IsOpen, List.mem_append,
      List.mem_singleton, isSome_update_some]
    rw [h.mem_iff, or_comm]
    rfl
  registered_iff fd := by
    simp only [Server.accepting, Server.IsOpen, Epoll.add_registered,
      update_eq_true, isSome_update_some]
    rw [h.registered_iff, or_left_comm]
    rfl
  listener := by
    simp only [Server.accepting, Server.IsOpen, isSome_update_some]
    rintro (heq | hopen)
    · exact hfree.2.1 heq.symm
    · exact h.listener hopen

theorem Tracks.dropping (h : Tracks s) (hfd : fd ≠ s.listener) :
    Tracks (s.dropping fd) where
  nodup := h.nodup.filter _
  mem_iff x := by
    simp only [Server.dropping, Server.IsOpen, List.mem_filter,
      decide_eq_true_eq, isSome_update_none]
    rw [h.mem_iff, and_comm]
    rfl
  registered_iff x := by
    simp only [Server.dropping, Server.IsOpen, Epoll.drop_registered,
      update_false_eq_true, isSome_update_none]
    rw [h.registered_iff]
    constructor
    · rintro ⟨hne, heq | hopen⟩
      · exact .inl heq
      · exact .inr ⟨hne, hopen⟩
    · rintro (rfl | ⟨hne, hopen⟩)
      · exact ⟨hfd.symm, .inl rfl⟩
      · exact ⟨hne, .inr hopen⟩
  listener := by
    simp only [Server.dropping, Server.IsOpen, isSome_update_none]
    exact fun hopen => h.listener hopen.2

/-- The list is about the descriptors that are open and registered. -/
theorem Tracks.of_open (h : Tracks s) (hlist : t.clientsList = s.clientsList)
    (hlistener : t.listener = s.listener) (hopen : ∀ x, t.IsOpen x ↔ s.IsOpen x)
    (hreg : t.epoll.registered = s.epoll.registered) : Tracks t := by
  constructor
  · rw [hlist]
    exact h.nodup
  · intro x
    rw [hlist, hopen, h.mem_iff]
  · intro x
    rw [hreg, hlistener, hopen, h.registered_iff]
  · rw [hlistener, hopen]
    exact h.listener

theorem Tracks.of_same (h : Tracks s) (hlist : t.clientsList = s.clientsList)
    (hlistener : t.listener = s.listener) (hconns : t.conns = s.conns)
    (hreg : t.epoll.registered = s.epoll.registered) : Tracks t := by
  have hopen : ∀ x, t.IsOpen x ↔ s.IsOpen x := by
    intro x
    rw [Server.IsOpen, Server.IsOpen, hconns]
  exact h.of_open hlist hlistener hopen hreg

/-- Data that comes or goes on an open connection is nothing to the list. -/
theorem Tracks.of_update (h : Tracks s) {conn conn' : Conn}
    (hconn : s.conns fd = some conn)
    (hlist : t.clientsList = s.clientsList)
    (hlistener : t.listener = s.listener)
    (hconns : t.conns = Function.update s.conns fd (some conn'))
    (hreg : t.epoll.registered = s.epoll.registered) : Tracks t := by
  have hopen : ∀ x, t.IsOpen x ↔ s.IsOpen x := by
    intro x
    rw [Server.IsOpen, hconns, isSome_update_some]
    constructor
    · rintro (rfl | hx)
      · rw [Server.IsOpen, hconn]
        rfl
      · exact hx
    · exact .inr
  exact h.of_open hlist hlistener hopen hreg

theorem Effect.tracks (heffect : Effect a s fd t) (h : Tracks s) : Tracks t := by
  cases heffect with
  | accepts client conn backlog _ _ hfree =>
      exact h.accepting hfree conn backlog
  | drops conn hfd => exact h.dropping hfd
  | passesOn conn _ _ hconn => exact h.of_update hconn rfl rfl rfl rfl

/-- Every event keeps the list, as long as the process is there. -/
theorem next_tracks (h : s.exited = false → Tracks s) (e : Event)
    (hexited : (s.next e).exited = false) : Tracks (s.next e) := by
  cases next_cases s e with
  | idle heq =>
      rw [heq] at hexited ⊢
      exact h hexited
  | connects conn heq =>
      rw [heq] at hexited ⊢
      exact (h hexited).of_same rfl rfl rfl
        (Epoll.signal_registered s.epoll s.listener)
  | arrives client conn conn' hconn heq =>
      rw [heq] at hexited ⊢
      exact (h hexited).of_update hconn rfl rfl rfl
        (Epoll.signal_registered s.epoll client)
  | stops hstop =>
      rw [hstop] at hexited
      cases hexited
  | fetches events hwait _ heq =>
      rw [heq] at hexited ⊢
      exact (h hexited).of_same rfl rfl rfl rfl
  | handles a fd batch _ hs _ heffect =>
      exact heffect.tracks ((h hs).of_same rfl rfl rfl rfl)

theorem tracks_start (listener : Fd) (others : List Fd) :
    Tracks (start listener others) where
  nodup := List.nodup_nil
  mem_iff fd := by simp [start, Server.IsOpen]
  registered_iff fd := by simp [start, Server.IsOpen, update_eq_true]
  listener := by simp [start, Server.IsOpen]

theorem after_tracks (listener : Fd) (others : List Fd) (es : List Event)
    (hexited : (server.after (start listener others) es).exited = false) :
    Tracks (server.after (start listener others) es) := by
  have hrun : ∀ s, (s.exited = false → Tracks s) →
      ∀ e, (server.step s e).1.exited = false → Tracks (server.step s e).1 := by
    intro s h e
    exact next_tracks (s := { s with actions := [] })
      (fun hs => (h hs).of_same rfl rfl rfl rfl) e
  exact server.after_inv (I := fun s => s.exited = false → Tracks s)
    (fun _ => tracks_start listener others) es
    (fun x _ h => hrun x.1 h x.2.1) hexited

/-- Between two events of any run `clients_list` is the list of the clients:
every descriptor in it once, and in it those of the open connections, which
are those registered besides the listener. -/
theorem clients_list_exact (listener : Fd) (others : List Fd) (es : List Event)
    (hexited : (server.after (start listener others) es).exited = false) :
    (server.after (start listener others) es).clientsList.Nodup ∧
    ∀ fd,
      (fd ∈ (server.after (start listener others) es).clientsList ↔
        (server.after (start listener others) es).IsOpen fd) ∧
      (fd ∈ (server.after (start listener others) es).clientsList ↔
        fd ≠ (server.after (start listener others) es).listener ∧
        (server.after (start listener others) es).epoll.registered fd = true) := by
  have h := after_tracks listener others es hexited
  refine ⟨h.nodup, fun fd => ⟨h.mem_iff fd, ?_⟩⟩
  rw [h.registered_iff, h.mem_iff]
  constructor
  · intro hopen
    refine ⟨fun heq => ?_, .inr hopen⟩
    rw [heq] at hopen
    exact h.listener hopen
  · rintro ⟨hne, heq | hopen⟩
    · exact absurd heq hne
    · exact hopen

/-- A client comes, hangs up, and the next one gets its number. -/
def numberReused : List Event :=
  [.connect {}, .epollWait (some [3]), .handle { accepted := some 5 },
    .connect {}, .hangUp 5, .epollWait (some [5, 3]), .handle {},
    .handle { accepted := some 5 }]

theorem reused_number_once :
    (server.after (start 3 [0, 1, 2, 4]) numberReused).clientsList = [5] ∧
      (server.after (start 3 [0, 1, 2, 4]) numberReused).clientsList.Nodup := by
  have hexited : (server.after (start 3 [0, 1, 2, 4]) numberReused).exited =
      false := by decide +kernel
  exact ⟨by decide +kernel,
    (clients_list_exact 3 [0, 1, 2, 4] numberReused hexited).1⟩

end Tracks

end Elfupspeed.EpollServer
