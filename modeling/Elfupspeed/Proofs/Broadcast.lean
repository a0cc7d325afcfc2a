import Elfupspeed.Proofs.Frames

/-!
# One client and the others

Every call the server makes for a client stands in a `CHK`, so what fails for
one client ends the service for all of them, and the clients behind it in the
list are not offered the message. If no call fails, each message is offered to
everybody but the client it is from. And a message that has no room in its buffer
behind the prefix is written over the end of it, with whatever that makes of the
process. So the service is as good as the calls and the messages are, step by
step.
-/

namespace Elfupspeed.EpollServer

open Elfupspeed.Lib Elfupspeed.Lib.CString Elfupspeed.Lib.Prog

/-- No call fails that this event makes the server do, and a message for others
has room behind its prefix, up to its first NUL. -/
def Server.Succeeds (s : Server) : Event → Prop
  | .handle a => ∀ fd ∈ s.batch.head?,
      if fd = s.listener then
        (∃ client ∈ a.accepted, s.Free client ∧ a.sendOk client = true) ∧
          s.backlog ≠ [] ∧ a.fcntlOk = true ∧ a.ctlOk = true
      else a.recvOk = true ∧ ∃ conn ∈ s.conns fd,
        if conn.rcv = [] then conn.fin = true ∧ a.closeOk = true
        else (∀ it ∈ s.recipients fd, a.sendOk it = true) ∧
          (s.clientsList.length ≠ 1 →
            (messagePrefix fd).length + (cstr (conn.rcv.take bufSize)).length <
              bufSize)
  | .epollWait none => ¬ s.Waiting
  | .epollWait (some _) | .connect _ | .write .. | .hangUp _ => True

/-- The process is there after the step, with nothing written over the end of a
buffer, and a message that was read in the step has been offered to all the
other clients. -/
def Serves (x : Server × Event × List Action) : Prop :=
  (server.step x.1 x.2.1).1.exited = false ∧
  (server.step x.1 x.2.1).1.overrun = false ∧
  ∀ client bytes, .received client bytes ∈ x.2.2 → bytes ≠ [] →
    ∀ it ∈ x.1.clientsList, it ≠ client →
      ∃ beyond, .sent it (printed
        (strMessage client (store cleared bytes) beyond)) ∈ x.2.2

section Effects

variable {a : Answers} {s t : Server} {fd : Fd}

theorem Effect.exited (h : Effect a s fd t) : t.exited = s.exited := by
  cases h with
  | accepts | drops | passesOn => rfl

theorem overruns_eq_false_iff {bytes : List Byte} :
    s.overruns a fd bytes = false ↔
      (s.clientsList.length ≠ 1 →
        (messagePrefix fd).length + (cstr bytes).length < bufSize) := by
  rw [Server.overruns, ← length_strMessage_lt_iff fd bytes a.beyond]
  by_cases halone : s.clientsList.length = 1
  · rw [if_pos halone]
    exact iff_of_true rfl fun h => absurd halone h
  · rw [if_neg halone, decide_eq_false_iff_not, Nat.not_lt, Nat.add_one_le_iff]
    exact ⟨fun h _ => h, fun h => h halone⟩

/-- An event is handled to its end, inside the buffers, just when no call fails
and the message has room. -/
theorem exists_effect_iff {batch : List Fd} (hbatch : s.batch = fd :: batch)
    (hs : s.overrun = false) :
    (∃ t, Effect a { s with batch := batch } fd t ∧ t.overrun = false) ↔
      s.Succeeds (.handle a) := by
  simp only [Server.Succeeds, hbatch, List.head?_cons, Option.mem_some_iff,
    forall_eq']
  by_cases hfd : fd = s.listener
  · rw [if_pos hfd]
    constructor
    · intro h
      obtain ⟨t, h, -⟩ := h
      cases h with
      | accepts client conn backlog _ haccepted hfree hback hfcntl hctl hsend =>
          refine ⟨⟨client, haccepted, hfree, hsend⟩, ?_, hfcntl, hctl⟩
          rw [show s.backlog = conn :: backlog from hback]
          exact List.cons_ne_nil conn backlog
      | drops _ hne => exact absurd hfd hne
      | passesOn _ hne => exact absurd hfd hne
    · intro h
      obtain ⟨⟨client, haccepted, hfree, hsend⟩, hback, hfcntl, hctl⟩ := h
      obtain ⟨conn, backlog, hcons⟩ := List.exists_cons_of_ne_nil hback
      exact ⟨_, .accepts client conn backlog hfd haccepted hfree hcons hfcntl
        hctl hsend, hs⟩
  · rw [if_neg hfd]
    constructor
    · intro h
      obtain ⟨t, h, hoverrun⟩ := h
      cases h with
      | accepts _ _ _ hlistener => exact absurd hlistener hfd
      | drops conn _ hrecv hconn hnil hfin hclose =>
          refine ⟨hrecv, conn, hconn, ?_⟩
          rw [if_pos hnil]
          exact ⟨hfin, hclose⟩
      | passesOn conn _ hrecv hconn hne hsend =>
          refine ⟨hrecv, conn, hconn, ?_⟩
          rw [if_neg hne]
          exact ⟨hsend, overruns_eq_false_iff.mp (Bool.or_eq_false_iff.mp hoverrun).2⟩
    · intro h
      obtain ⟨hrecv, conn, hconn, hrest⟩ := h
      by_cases hnil : conn.rcv = []
      · rw [if_pos hnil] at hrest
        exact ⟨_, .drops conn hfd hrecv hconn hnil hrest.1 hrest.2, hs⟩
      · rw [if_neg hnil] at hrest
        refine ⟨_, .passesOn conn hfd hrecv hconn hnil hrest.1, ?_⟩
        exact Bool.or_eq_false_iff.mpr ⟨hs, overruns_eq_false_iff.mpr hrest.2⟩

theorem next_handle {batch : List Fd} (hs : s.exited = false)
    (hbatch : s.batch = fd :: batch)
    (h : Effect a { s with batch := batch } fd t) : s.next (.handle a) = t := by
  have hrun := handleEvent_ok (u := ⟨⟩).mpr h
  simp only [Server.next]
  split
  · next fd' batch' _ hbatch' =>
      obtain ⟨rfl, rfl⟩ := List.cons.inj (hbatch.symm.trans hbatch')
      rw [hrun]
  · next hnot => exact absurd hbatch (hnot fd batch hs)

/-- Whoever else is in the list is a recipient. -/
theorem mem_recipients (h : Tracks s) (hopen : s.IsOpen fd) {it : Fd}
    (hit : it ∈ s.clientsList) (hne : it ≠ fd) :
    it ∈ s.recipients fd ∧ s.clientsList.length ≠ 1 := by
  have hlen : s.clientsList.length ≠ 1 := by
    intro hone
    obtain ⟨x, hx⟩ := List.length_eq_one_iff.mp hone
    have hfd := (h.mem_iff fd).mpr hopen
    rw [hx, List.mem_singleton] at hit hfd
    exact hne (hit.trans hfd.symm)
  refine ⟨?_, hlen⟩
  rw [Server.recipients, if_neg hlen]
  exact List.mem_filter.mpr ⟨hit, by simpa using hne⟩

theorem Effect.offers (heffect : Effect a s fd t) (h : Tracks s)
    (hactions : s.actions = []) {client : Fd} {bytes : List Byte}
    (hread : .received client bytes ∈ t.actions) (hbytes : bytes ≠ []) {it : Fd}
    (hit : it ∈ s.clientsList) (hne : it ≠ client) :
    .sent it (printed (strMessage client (store cleared bytes) a.beyond)) ∈
      t.actions := by
  cases heffect with
  | accepts => simp [Server.accepting, hactions] at hread
  | drops =>
      simp only [Server.dropping, hactions, List.nil_append, List.mem_singleton,
        Action.received.injEq] at hread
      exact absurd hread.2 hbytes
  | passesOn conn _ _ hconn =>
      simp only [Server.passingOn, hactions, List.nil_append, List.mem_cons,
        Action.received.injEq, List.mem_map, reduceCtorEq, and_false,
        exists_false, or_false] at hread
      obtain ⟨rfl, rfl⟩ := hread
      have hopen : s.IsOpen client := by
        rw [Server.IsOpen, hconn]
        rfl
      obtain ⟨hmem, hlen⟩ := mem_recipients h hopen hit hne
      refine List.mem_append_right _ (List.mem_cons_of_mem _
        (List.mem_map.mpr ⟨it, hmem, ?_⟩))
      rw [Server.answer, if_neg hlen]

end Effects

section Steps

variable {s : Server}

/-- What the clients and the kernel do makes the server do nothing, and ends
it only where `epoll_wait` fails. -/
theorem next_quiet (e : Event) (hnot : ∀ a, e ≠ .handle a) :
    (s.next e).actions = s.actions ∧ (s.next e).overrun = s.overrun ∧
      ((s.next e).exited = false ↔ s.exited = false ∧ s.Succeeds e) := by
  cases e with
  | handle a => exact absurd rfl (hnot a)
  | connect conn => simp [Server.next, Server.Succeeds]
  | write client bytes =>
      simp only [Server.next, Server.Succeeds, and_true]
      split
      · exact ⟨rfl, rfl, Iff.rfl⟩
      · split <;> exact ⟨rfl, rfl, Iff.rfl⟩
  | hangUp client =>
      simp only [Server.next, Server.Succeeds, and_true]
      split <;> exact ⟨rfl, rfl, Iff.rfl⟩
  | epollWait events =>
      cases events with
      | none =>
          simp only [Server.next, Server.Succeeds]
          split
          · next hwait => simp [hwait]
          · next hwait => simp [hwait]
      | some events =>
          simp only [Server.next, Server.Succeeds, and_true]
          split <;> exact ⟨rfl, rfl, Iff.rfl⟩

theorem serves_of_quiet {e : Event} (hnot : ∀ a, e ≠ .handle a)
    (hs : s.exited = false) (hoverrun : s.overrun = false) :
    Serves (s, e, (server.step s e).2) ↔ s.Succeeds e := by
  obtain ⟨hactions, hsame, hexited⟩ :=
    next_quiet (s := { s with actions := [] }) e hnot
  have hnone : (server.step s e).2 = [] := hactions
  have hinside : (server.step s e).1.overrun = false := hsame.trans hoverrun
  have hiff : s.Succeeds e ↔ (server.step s e).1.exited = false := by
    refine Iff.trans ?_ hexited.symm
    cases e with
    | handle a => exact absurd rfl (hnot a)
    | epollWait events => cases events <;> exact (and_iff_right hs).symm
    | connect | write | hangUp => exact (and_iff_right hs).symm
  rw [hiff, Serves, hnone]
  exact ⟨And.left,
    fun h => ⟨h, hinside, fun _ _ hmem => absurd hmem List.not_mem_nil⟩⟩

theorem serves_iff_succeeds (hs : s.exited = false) (hoverrun : s.overrun = false)
    (h : Tracks s) (e : Event) :
    Serves (s, e, (server.step s e).2) ↔ s.Succeeds e := by
  cases e with
  | handle a =>
      cases hbatch : s.batch with
      | nil =>
          have hsame : server.step s (.handle a) = ({ s with actions := [] }, []) := by
            rcases handle_cases { s with actions := [] } a with
              ⟨heq, -⟩ | ⟨fd, batch, -, hcons, -⟩
            · exact congrArg (fun t : Server => (t, t.actions)) heq
            · rw [show s.batch = fd :: batch from hcons] at hbatch
              cases hbatch
          rw [Serves, hsame]
          simp [hs, hoverrun, Server.Succeeds, hbatch]
      | cons fd batch =>
          have hiff := exists_effect_iff (s := { s with actions := [] }) (a := a)
            hbatch hoverrun
          constructor
          · intro hserves
            rcases handle_cases { s with actions := [] } a with
              ⟨-, hexited | hnil⟩ | ⟨fd', batch', -, hcons, hstop | heffect⟩
            · rw [show s.exited = true from hexited] at hs
              cases hs
            · rw [show s.batch = [] from hnil] at hbatch
              cases hbatch
            · have hgoes := hserves.1
              rw [show (server.step s (.handle a)).1.exited = true from hstop] at hgoes
              cases hgoes
            · obtain ⟨rfl, rfl⟩ := List.cons.inj (hbatch.symm.trans hcons)
              exact hiff.mp ⟨_, heffect, hserves.2.1⟩
          · intro hsucceeds
            obtain ⟨t, heffect, hinside⟩ := hiff.mpr hsucceeds
            have hnext := next_handle (s := { s with actions := [] }) hs hbatch
              heffect
            have hstep : server.step s (.handle a) = (t, t.actions) :=
              congrArg (fun t : Server => (t, t.actions)) hnext
            rw [Serves, hstep]
            refine ⟨heffect.exited.trans hs, hinside,
              fun client bytes hread hbytes it hit hne => ⟨a.beyond, ?_⟩⟩
            exact heffect.offers (h.of_same rfl rfl rfl rfl) rfl hread hbytes
              hit hne
  | connect | write | hangUp | epollWait =>
      exact serves_of_quiet (fun _ heq => by cases heq) hs hoverrun

end Steps

/-- A run serves everybody in each of its steps if and only if no call fails in
any of them and every message has room. -/
theorem serves_iff (listener : Fd) (others : List Fd) (es : List Event) :
    (∀ x ∈ server.trace (start listener others) es, Serves x) ↔
      ∀ x ∈ server.trace (start listener others) es, x.1.Succeeds x.2.1 := by
  refine server.forall_trace_iff
    (I := fun s => s.exited = false ∧ s.overrun = false ∧ Tracks s)
    (fun s e hI => serves_iff_succeeds hI.1 hI.2.1 hI.2.2 e)
    (fun s e hI hsucceeds => ?_) ⟨rfl, rfl, tracks_start listener others⟩ es
  have htracks := hI.2.2
  have hserves := (serves_iff_succeeds hI.1 hI.2.1 htracks e).mpr hsucceeds
  refine ⟨hserves.1, hserves.2.1,
    next_tracks (s := { s with actions := [] }) ?_ e hserves.1⟩
  intro _
  exact ⟨htracks.nodup, htracks.mem_iff, htracks.registered_iff, htracks.listener⟩

/-- Two clients are there when the second one writes, and the first cannot
take a message. -/
def fullBuffer : List Event :=
  [.connect {}, .epollWait (some [3]), .handle { accepted := some 5 },
    .connect {}, .epollWait (some [3]), .handle { accepted := some 6 },
    .write 6 [104, 105], .epollWait (some [6]),
    .handle { sendOk := fun fd => decide (fd ≠ 5) }]

theorem full_buffer_ends_service :
    ¬ ∀ (listener : Fd) (others : List Fd) (es : List Event),
      ∀ x ∈ server.trace (start listener others) es, Serves x := by
  intro h
  have hlast := (h 3 [0, 1, 2, 4] fullBuffer _
    (List.getElem_mem (n := 8) (by decide))).1
  revert hlast
  decide +kernel

end Elfupspeed.EpollServer
