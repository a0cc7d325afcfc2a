import Elfupspeed.Proofs.Ownership
import Elfupspeed.Src.ClientSocket

/-!
# What the client's thread reacts to

`startClient` registers the connection with what `ev.events` holds from
before: nothing at first, and only from the second call on what it is set to
behind the registration. The thread tests the same `ev.events` where it means
the event at hand, so every report looks like a hang-up to it and it never
receives anything.

With two calls or more data is reported, then, and the first report ends the
connection. That is right for a report of a hang-up with nothing left to read,
and for no other.
-/

namespace Elfupspeed.Client

open Elfupspeed.Lib Elfupspeed.Lib.Prog

namespace Socket

/-- Arriving data is reported. -/
def AsksForData (w : Socket) : Prop := w.mask &&& epollIn ≠ 0

/-- Where the thread of the connection is. -/
def at? (w : Socket) : Option Thread := w.client.threads[w.thread]?

/-- The event that the thread is to handle next. -/
def handled (w : Socket) : EpollEvent :=
  match w.at? with
  | some (.looping i) => w.client.events.getD i {}
  | some (.waiting _) | some .ended | none => {}

/-- Nothing is to be reported and nothing is being handled. -/
def Quiet (w : Socket) : Prop :=
  w.ready = false ∧ ∀ i, w.at? ≠ some (.looping i)

/-- A round of the thread finds a hang-up, and nothing to read. -/
def Closing (w : Socket) : SocketEvent → Prop
  | .startThread => ∀ i, w.at? = some (.looping i) →
      i < w.client.epollEventsCount →
      w.handled.events &&& epollHup ≠ 0 ∧ w.unread = []
  | .data _ | .hangUp | .error | .epollWait => True

end Socket

/-- The thread gives the connection up only at a hang-up, or when a `recv` got
nothing, and what has arrived is received before everything is quiet. -/
structure Reacts (x : Socket × SocketEvent × List Action) : Prop where
  gaveUp : x.1.client.listener ≠ -1 →
    (x.1.step x.2.1).1.client.listener = -1 →
    x.1.handled.events &&& epollHup ≠ 0 ∨
      .recv none ∈ x.2.2 ∨ .recv (some []) ∈ x.2.2
  received : (x.1.step x.2.1).1.Quiet → (x.1.step x.2.1).1.unread = []

namespace Socket

/-- The thread waits for the connection, or is about to handle its event. -/
structure Live (w : Socket) : Prop where
  exited : w.client.exited = false
  hup : w.client.ev.events &&& epollHup ≠ 0
  asks : w.AsksForData
  listener : w.client.listener = w.fd
  isOpen : ∃ file, w.client.file w.fd = some file
  thread : w.at? = some (.waiting w.registration.epfd) ∨
    w.at? = some (.looping 0) ∧ w.client.epollEventsCount = 1 ∧
      (w.client.events.getD 0 {}).fd = w.fd
  known : w.unread ≠ [] → w.ready = true ∨ w.at? = some (.looping 0)

/-- The client has given the connection up. -/
structure Gone (w : Socket) : Prop where
  exited : w.client.exited = false
  isOpen : w.isOpen = false
  listener : w.client.listener = -1
  thread : w.at? = some .ended
  ready : w.ready = false
  unread : w.unread = []

section Steps

variable {w : Socket}

theorem Live.open_eq (h : Live w) : w.isOpen = true := by
  obtain ⟨file, hfile⟩ := h.isOpen
  rw [Socket.isOpen, hfile]
  rfl

theorem Live.listener_ne (h : Live w) : w.client.listener ≠ -1 := by
  obtain ⟨file, hfile⟩ := h.isOpen
  have := (file_eq_some hfile).1
  rw [h.listener]
  omega

/-- A connection whose state changes but not the client's. -/
theorem Live.of_client (h : Live w) {w' : Socket} (hclient : w'.client = w.client)
    (hknown : w'.unread ≠ [] → w'.ready = true ∨ w'.at? = some (.looping 0)) :
    Live w' := by
  obtain ⟨client, unread, hup, err, ready⟩ := w
  obtain ⟨client', unread', hup', err', ready'⟩ := w'
  obtain rfl : client' = client := hclient
  exact ⟨h.exited, h.hup, h.asks, h.listener, h.isOpen, h.thread, hknown⟩

theorem Live.data (h : Live w) (bytes : List Byte) :
    Live (w.step (.data bytes)).1 := by
  simp only [Socket.step]
  split
  · have hready : (w.ready || decide (w.mask &&& epollIn ≠ 0)) = true := by
      rw [decide_eq_true (show w.mask &&& epollIn ≠ 0 from h.asks), Bool.or_true]
    exact h.of_client rfl fun _ => .inl hready
  · exact h

theorem mem_of_asksForData (h : w.AsksForData) :
    w.registration ∈ w.client.registrations := by
  unfold AsksForData mask at h
  rw [registration, List.getLastD_eq_getLast?] at h ⊢
  cases hlast : w.client.registrations.getLast? with
  | none =>
      rw [hlast] at h
      exact absurd (by decide) h
  | some r => exact List.mem_of_getLast? hlast

theorem Live.epollWait_step (h : Live w)
    (hat : w.at? = some (.waiting w.registration.epfd)) :
    process.step w.client (.epollWait w.thread (some [w.report])) =
      ({ w.client with
        actions := []
        threads := w.client.threads.set w.thread (.looping 0)
        events := w.report :: w.client.events.drop 1
        epollEventsCount := 1 }, []) := by
  rw [process_step h.exited]
  have hreports : Process.Reports { w.client with actions := [] }
      w.registration.epfd [w.report] := by
    refine ⟨List.cons_ne_nil _ _, by simp [epollSize], ?_⟩
    intro e he
    rw [List.mem_singleton.mp he]
    exact ⟨w.registration, mem_of_asksForData h.asks, rfl, rfl⟩
  simp only [Process.next]
  rw [show w.client.threads[w.thread]? = _ from hat]
  simp only [if_pos hreports]
  rfl

/-- What is there to read is reported. -/
theorem reported_ne_zero (hasks : w.AsksForData) (hne : w.unread ≠ []) :
    w.reported ≠ 0 := by
  intro hzero
  apply hasks
  refine BitVec.eq_of_getLsbD_eq fun i _ => ?_
  have hbit := congrArg (fun bits => bits.getLsbD i) hzero
  simp only [reported, status, if_pos (Or.inl hne), BitVec.getLsbD_and,
    BitVec.getLsbD_or, BitVec.ofNat_eq_ofNat, BitVec.getLsbD_zero] at hbit ⊢
  cases hmask : w.mask.getLsbD i with
  | false => rfl
  | true =>
      cases hin : epollIn.getLsbD i with
      | false => rfl
      | true => simp [hmask, hin] at hbit

theorem Live.quiet (h : Live w) (hquiet : w.Quiet) : w.unread = [] := by
  by_contra hne
  rcases h.known hne with hready | hlooping
  · rw [hquiet.1] at hready
    cases hready
  · exact hquiet.2 0 hlooping

/-- A step that leaves the connection with the client is as it should be. -/
theorem reacts_of_live {e : SocketEvent} (h : Live (w.step e).1) :
    Reacts (w, e, (w.step e).2) where
  gaveUp _ hlistener := absurd hlistener h.listener_ne
  received := h.quiet

theorem Live.epollWait (h : Live w) : Live (w.step .epollWait).1 := by
  simp only [Socket.step]
  split
  · next hcomes =>
      have hat : w.at? = some (.waiting w.registration.epfd) := by
        refine h.thread.resolve_right fun hlooping => ?_
        have hwaits := hcomes.2
        rw [waits, show w.client.threads[w.thread]? = _ from hlooping.1] at hwaits
        cases hwaits
      split
      · rw [h.epollWait_step hat]
        have hlt : w.thread < w.client.threads.length := by
          rw [at?, List.getElem?_eq_some_iff] at hat
          exact hat.1
        have hset : (w.client.threads.set w.thread (.looping 0)).length - 1 =
            w.thread := by
          rw [List.length_set]
          rfl
        have hat' : (w.client.threads.set w.thread (.looping 0))[
            (w.client.threads.set w.thread (.looping 0)).length - 1]? =
            some (.looping 0) := by
          rw [hset, List.getElem?_set_self hlt]
        exact ⟨h.exited, h.hup, h.asks, h.listener, h.isOpen,
          .inr ⟨hat', rfl, rfl⟩, fun _ => .inr hat'⟩
      · next hnot =>
          refine h.of_client rfl fun hne => ?_
          exact absurd (reported_ne_zero h.asks hne) hnot
  · exact h

theorem Live.hangUp (h : Live w) : Live (w.step .hangUp).1 := by
  simp only [Socket.step]
  split
  · exact h.of_client rfl fun _ => .inl rfl
  · exact h

theorem Live.error (h : Live w) : Live (w.step .error).1 := by
  simp only [Socket.step]
  split
  · exact h.of_client rfl fun _ => .inl rfl
  · exact h

/-- A thread that is not in its loop has no round to go through. -/
theorem startThread_idle (hexited : w.client.exited = false)
    (hidle : ∀ i, w.at? ≠ some (.looping i)) :
    process.step w.client (.startThread w.thread w.recvAnswer) =
      ({ w.client with actions := [] }, []) := by
  rw [process_step hexited]
  simp only [Process.next]
  rw [show w.client.threads[w.thread]? = w.at? from rfl]
  cases hat : w.at? with
  | none => rfl
  | some thread =>
      cases thread with
      | waiting epfd => rfl
      | looping i => exact absurd hat (hidle i)
      | ended => rfl

theorem Live.startThread_waiting (h : Live w)
    (hat : w.at? = some (.waiting w.registration.epfd)) :
    Live (w.step .startThread).1 := by
  have hstep := startThread_idle h.exited fun i hi => (by rw [hat] at hi; cases hi)
  simp only [Socket.step]
  rw [hstep]
  refine ⟨h.exited, h.hup, h.asks, h.listener, h.isOpen, h.thread, fun hne => ?_⟩
  refine (h.known hne).imp_left fun hready => ?_
  have hopen := h.open_eq
  change (w.ready && w.isOpen) = true
  rw [hready, hopen]
  rfl

/-- What the client is when its thread has given the connection up. -/
def deserted (w : Socket) : Process :=
  (Process.givenUp { w.client with actions := [] }).setThread w.thread .ended

theorem Live.closed (h : Live w) (w' : Socket) (hclient : w'.client = w.deserted) :
    w'.isOpen = false := by
  obtain ⟨file, hfile⟩ := h.isOpen
  have hpos := (file_eq_some hfile).1
  rw [Socket.isOpen, Socket.fd, Socket.registration, hclient]
  change (w.deserted.file w.fd).isSome = false
  rw [Process.file, if_pos hpos, ← h.listener]
  change (Function.update w.client.descriptors.file w.client.listener.toNat none
    w.client.listener.toNat).isSome = false
  rw [Function.update_self]
  rfl

/-- The round in which the thread handles the event of the connection. -/
theorem Live.startThread_looping (h : Live w)
    (hat : w.at? = some (.looping 0)) (hcount : w.client.epollEventsCount = 1)
    (hfd : (w.client.events.getD 0 {}).fd = w.fd) :
    w.step .startThread = ({ w with client := w.deserted, ready := false },
      [.closed (w.client.file w.client.listener)]) := by
  obtain ⟨file, hfile⟩ := h.isOpen
  rw [← h.listener] at hfile hfd
  have hround := startThread_run (c := { w.client with actions := [] })
    w.recvAnswer hfd h.hup hfile
  have hstep : process.step w.client (.startThread w.thread w.recvAnswer) =
      (w.deserted, [.closed (w.client.file w.client.listener)]) := by
    rw [process_step h.exited]
    simp only [Process.next]
    rw [show w.client.threads[w.thread]? = _ from hat]
    simp only [if_pos (show 0 < w.client.epollEventsCount by omega),
      Process.round]
    rw [hround]
    rfl
  simp only [Socket.step]
  rw [hstep]
  rw [h.closed _ rfl, Bool.and_false]
  rfl

theorem at_deserted {i : ℕ} (hat : w.at? = some (.looping i)) :
    at? { w with client := w.deserted, ready := false } = some .ended := by
  have hlt : w.thread < w.client.threads.length := by
    rw [at?, List.getElem?_eq_some_iff] at hat
    exact hat.1
  change (w.client.threads.set w.thread .ended)[
    (w.client.threads.set w.thread .ended).length - 1]? = some .ended
  rw [List.length_set]
  exact List.getElem?_set_self hlt

theorem Live.gone (h : Live w) (hat : w.at? = some (.looping 0))
    (hcount : w.client.epollEventsCount = 1)
    (hfd : (w.client.events.getD 0 {}).fd = w.fd) (hunread : w.unread = []) :
    Gone (w.step .startThread).1 := by
  rw [h.startThread_looping hat hcount hfd]
  exact ⟨h.exited, h.closed _ rfl, rfl, at_deserted hat, rfl, hunread⟩

theorem Gone.step (h : Gone w) (e : SocketEvent) : Gone (w.step e).1 := by
  cases e with
  | data | hangUp | error =>
      simp only [Socket.step, h.isOpen, Bool.false_eq_true, false_and, if_false]
      exact h
  | epollWait =>
      simp only [Socket.step, h.ready, Bool.false_eq_true, false_and, if_false]
      exact h
  | startThread =>
      have hstep := startThread_idle h.exited fun i hi =>
        (by rw [h.thread] at hi; cases hi)
      simp only [Socket.step]
      rw [hstep]
      refine ⟨h.exited, h.isOpen, h.listener, h.thread, ?_, h.unread⟩
      rw [h.ready]
      rfl

/-- A step that does not go through a round of the thread. -/
theorem closing_of_waiting (hat : ∀ i, w.at? ≠ some (.looping i))
    (e : SocketEvent) : w.Closing e := by
  cases e with
  | startThread => exact fun i hi => absurd hi (hat i)
  | data | hangUp | error | epollWait => trivial

/-- What is received and given up is as it should be just when the thread
closes a connection that has nothing more to say. -/
theorem reacts_iff_closing (h : Live w ∨ Gone w) (e : SocketEvent) :
    (Reacts (w, e, (w.step e).2) ↔ w.Closing e) ∧
      (w.Closing e → Live (w.step e).1 ∨ Gone (w.step e).1) := by
  rcases h with h | h
  · have hlive : Live (w.step e).1 → w.Closing e →
        (Reacts (w, e, (w.step e).2) ↔ w.Closing e) ∧
          (w.Closing e → Live (w.step e).1 ∨ Gone (w.step e).1) :=
      fun hl hc => ⟨iff_of_true (reacts_of_live hl) hc, fun _ => .inl hl⟩
    cases e with
    | data bytes => exact hlive (h.data bytes) trivial
    | hangUp => exact hlive h.hangUp trivial
    | error => exact hlive h.error trivial
    | epollWait => exact hlive h.epollWait trivial
    | startThread =>
        rcases h.thread with hat | ⟨hat, hcount, hfd⟩
        · refine hlive (h.startThread_waiting hat) (closing_of_waiting ?_ _)
          intro i hi
          rw [hat] at hi
          cases hi
        · have hstep := h.startThread_looping hat hcount hfd
          have hclosing : w.Closing .startThread ↔
              w.handled.events &&& epollHup ≠ 0 ∧ w.unread = [] := by
            constructor
            · intro hc
              exact hc 0 hat (by omega)
            · exact fun hc _ _ _ => hc
          rw [hclosing]
          refine ⟨⟨fun hreacts => ?_, fun hc => ?_⟩, fun hc =>
            .inr (h.gone hat hcount hfd hc.2)⟩
          · have hgave := hreacts.gaveUp h.listener_ne
            have hreceived := hreacts.received
            simp only [hstep] at hgave hreceived
            refine ⟨?_, hreceived ⟨rfl, fun i hi => ?_⟩⟩
            · rcases hgave rfl with hhup | hnone | hnil
              · exact hhup
              · simp at hnone
              · simp at hnil
            · rw [at_deserted hat] at hi
              cases hi
          · constructor
            · exact fun _ _ => .inl hc.1
            · intro _
              simp only [hstep]
              exact hc.2
  · have hgone := h.step e
    refine ⟨iff_of_true ⟨fun hne => absurd h.listener hne, fun _ => hgone.unread⟩
      (closing_of_waiting (fun i hi => ?_) e), fun _ => .inr hgone⟩
    rw [h.thread] at hi
    cases hi

end Steps

end Socket

/-! ## The calls before -/

/-- Every call came to its end, and there is a thread for each of them. -/
def Starts (others : List Fd) (starts : List Answers) : Prop :=
  (startSocket others starts).client.exited = false ∧
    ∀ a ∈ starts, a.pthreadOk = true

theorem process_startClient {c : Process} {a : Answers}
    (h : (process.step c (.startClient a)).1.exited = false) :
    c.exited = false ∧ ∃ fd epfd, a.Succeed c fd epfd ∧
      (process.step c (.startClient a)).1 =
        Process.started { c with actions := [] } a fd epfd := by
  have hexited : c.exited = false := by
    by_contra hne
    have htrue : c.exited = true := by simpa using hne
    rw [process_step_of_exited htrue, htrue] at h
    cases h
  refine ⟨hexited, ?_⟩
  rw [process_step hexited] at h ⊢
  simp only [Process.next, Process.after] at h ⊢
  split at h
  · next u c' hrun =>
      obtain ⟨-, fd, epfd, ha, hstarted⟩ := startClient_ok.mp hrun
      exact ⟨fd, epfd, ha, hstarted⟩
  · cases h

theorem startSocket_concat (others : List Fd) (starts : List Answers)
    (a : Answers) :
    (startSocket others (starts ++ [a])).client =
      (process.step (startSocket others starts).client (.startClient a)).1 := by
  simp [startSocket, Mealy.after_append]

/-- The mask of a connection is what the calls before it left in `ev`. -/
theorem started_mask (c : Process) (a : Answers) (fd epfd : Fd) {w : Socket}
    (hclient : w.client = c.started a fd epfd) :
    w.registration = ⟨epfd, ⟨c.ev.events, fd⟩⟩ := by
  rw [Socket.registration, hclient]
  simp [Process.started]

/-- The calls that came before leave their mask in `ev`. -/
theorem ev_startSocket {others : List Fd} {starts : List Answers}
    (hexited : (startSocket others starts).client.exited = false) :
    (startSocket others starts).client.ev.events =
      if starts = [] then 0
      else epollIn ||| epollEt ||| epollErr ||| epollHup := by
  rcases starts.eq_nil_or_concat with rfl | ⟨init, a, rfl⟩
  · rfl
  · rw [List.concat_eq_append, startSocket_concat] at hexited ⊢
    obtain ⟨-, fd, epfd, -, hstarted⟩ := process_startClient hexited
    rw [hstarted, if_neg (by simp)]
    rfl

theorem live_started {c : Process} {a : Answers} {fd epfd : Fd}
    (hexited : c.exited = false) (hasks : c.ev.events &&& epollIn ≠ 0)
    (ha : a.Succeed c fd epfd) (hpthread : a.pthreadOk = true) :
    Socket.Live { client := c.started a fd epfd } := by
  have hreg := started_mask c a fd epfd (w := { client := c.started a fd epfd }) rfl
  obtain ⟨-, hfree, -, -, -, hne, -⟩ := ha
  refine ⟨hexited, ?_, ?_, ?_, ?_, .inl ?_, fun hunread => absurd rfl hunread⟩
  · change (epollIn ||| epollEt ||| epollErr ||| epollHup) &&& epollHup ≠ 0
    decide
  · rw [Socket.AsksForData, Socket.mask, hreg]
    exact hasks
  · rw [Socket.fd, hreg]
    rfl
  · refine ⟨.own c.descriptors.opened, ?_⟩
    rw [Socket.fd, hreg, file_natCast]
    change Function.update (Function.update c.descriptors.file fd _) epfd _ fd = _
    rw [Function.update_of_ne hne.symm, Function.update_self]
  · rw [hreg]
    simp [Socket.at?, Socket.thread, Process.started, hpthread]

/-- A connection asks for data just when it is not the first. -/
theorem asksForData_iff {others : List Fd} {starts : List Answers}
    (h : Starts others starts) :
    ((startSocket others starts).AsksForData ↔ 2 ≤ starts.length) ∧
      (2 ≤ starts.length → (startSocket others starts).Live) := by
  obtain ⟨hexited, hpthread⟩ := h
  rcases starts.eq_nil_or_concat with rfl | ⟨init, a, rfl⟩
  · refine ⟨iff_of_false ?_ (by simp), fun h => absurd h (by simp)⟩
    intro hasks
    rw [Socket.AsksForData, show (startSocket others []).mask = 0 from rfl] at hasks
    exact hasks (by decide)
  · rw [List.concat_eq_append] at hexited hpthread ⊢
    rw [startSocket_concat] at hexited
    obtain ⟨hbefore, fd, epfd, ha, hstarted⟩ := process_startClient hexited
    have hclient : startSocket others (init ++ [a]) =
        { client := Process.started { (startSocket others init).client with
          actions := [] } a fd epfd } := by
      rw [← hstarted, ← startSocket_concat]
      rfl
    have hev := ev_startSocket hbefore
    have hmask : (startSocket others (init ++ [a])).mask =
        (startSocket others init).client.ev.events := by
      rw [hclient, Socket.mask, started_mask _ a fd epfd rfl]
    rw [Socket.AsksForData, hmask, hev]
    by_cases hinit : init = []
    · rw [if_pos hinit, hinit]
      exact ⟨by simp, by simp⟩
    · have hlen := List.length_pos_of_ne_nil hinit
      rw [if_neg hinit] at hev ⊢
      have hasks : (epollIn ||| epollEt ||| epollErr ||| epollHup) &&& epollIn ≠ 0 := by
        decide
      refine ⟨iff_of_true hasks ?_, fun _ => ?_⟩
      · rw [List.length_append, List.length_singleton]
        omega
      · rw [hclient]
        refine live_started hbefore ?_ ha (hpthread a (by simp))
        rw [show Process.ev { (startSocket others init).client with actions := [] } =
          (startSocket others init).client.ev from rfl, hev]
        exact hasks

/-- After calls of `startClient` that all succeed, the connection reports data
and the thread reacts to it as it should, if and only if there were at least
two calls and the thread goes through no round but for a hang-up behind which
nothing is left to read. -/
theorem reacts_iff {others : List Fd} {starts : List Answers}
    (h : Starts others starts) (es : List SocketEvent) :
    ((startSocket others starts).AsksForData ∧
      ∀ x ∈ socketMachine.trace (startSocket others starts) es, Reacts x) ↔
    2 ≤ starts.length ∧
      ∀ x ∈ socketMachine.trace (startSocket others starts) es,
        x.1.Closing x.2.1 := by
  obtain ⟨hasks, hlive⟩ := asksForData_iff h
  rw [hasks]
  refine and_congr_right fun htwo => ?_
  exact socketMachine.forall_trace_iff
    (I := fun w => w.Live ∨ w.Gone)
    (fun w e hw => (Socket.reacts_iff_closing hw e).1)
    (fun w e hw hclosing => (Socket.reacts_iff_closing hw e).2 hclosing)
    (.inl (hlive htwo)) es

def firstStart : Answers := { socket := some 3, epollCreate := some 4 }

def secondStart : Answers := { socket := some 5, epollCreate := some 6 }

/-- Two calls, and a server that hangs up without a word. -/
theorem hang_up_reacted_to :
    Starts [0, 1, 2] [firstStart, secondStart] ∧
    (startSocket [0, 1, 2] [firstStart, secondStart]).AsksForData ∧
      ∀ x ∈ socketMachine.trace (startSocket [0, 1, 2] [firstStart, secondStart])
        [.hangUp, .epollWait, .startThread], Reacts x := by
  have h : Starts [0, 1, 2] [firstStart, secondStart] :=
    ⟨by decide +kernel, by decide⟩
  refine ⟨h, (reacts_iff h _).mpr ⟨by decide, ?_⟩⟩
  simp only [Mealy.trace_cons, Mealy.trace_nil, List.forall_mem_cons]
  refine ⟨trivial, trivial, fun _ _ _ => ⟨by decide +kernel, by decide +kernel⟩, ?_⟩
  exact fun x hx => absurd hx List.not_mem_nil

/-- The first connection is registered for nothing. -/
theorem first_connection_deaf :
    ¬ ∀ (others : List Fd) (starts : List Answers) (es : List SocketEvent),
      starts ≠ [] → Starts others starts →
      (startSocket others starts).AsksForData ∧
        ∀ x ∈ socketMachine.trace (startSocket others starts) es, Reacts x := by
  intro h
  have hasks := (h [0, 1, 2] [firstStart] [] (by simp)
    ⟨by decide +kernel, by decide⟩).1
  exact hasks (by decide +kernel)

end Elfupspeed.Client
