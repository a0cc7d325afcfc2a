import Elfupspeed.Proofs.Service

/-!
# Who waits for whom

The server lets go of a client only when that has closed its socket. `upspeed`
closes it when all went well, and on no other way back. So a client that is
interrupted keeps the server for good: it has given up, its connection stays
open, the server waits for more of it, and everybody behind it waits for the
server.

And as long as no call of the server fails that is all that keeps anybody from
being served. Every move brings some bytes a place further, so the server and its
clients come to rest, and at rest whoever has nobody interrupted before it is
through.
-/

namespace Elfupspeed.Service

open Elfupspeed.Lib Elfupspeed.Lib.CString Elfupspeed.Speed
open Elfupspeed.Connection (Client Server Link Moved Sound spelt moved_of_step
  sound_moved work_moved)

/-- An interrupted client is in the way of all that come later. -/
theorem Kept.blocked {A : Arith} {v : Host} (h : Kept A v) {i : ℕ} {s : Session}
    (hs : v.sessions[i]? = some s) (hleft : s.Left) :
    v.accepted ≤ i + 1 ∧ ∀ j t, i < j → v.sessions[j]? = some t →
      t.Fresh ∧ t.link.client ≠ .returned 0 := by
  have hopen := (h.alive s (List.mem_of_getElem? hs)).not_closed hleft
  have hle : v.accepted ≤ i + 1 := by
    by_contra hmore
    exact hopen (h.closed i s hs (by omega))
  refine ⟨hle, fun j t hj ht => ?_⟩
  have hfresh := h.fresh j t ht (by omega)
  refine ⟨hfresh, fun hback => ?_⟩
  have hspelt := ((h.alive t (List.mem_of_getElem? ht)).returned hback).2
  rw [hfresh.chunks] at hspelt
  exact t.party.request_ne hspelt.symm

theorem left_stepped {A : Arith} {v v' : Host} (hstepped : Stepped A v v')
    {i : ℕ} (h : ∃ s, v.sessions[i]? = some s ∧ s.Left) :
    ∃ s, v'.sessions[i]? = some s ∧ s.Left := by
  obtain ⟨s, hs, hleft⟩ := h
  have hlt := (List.getElem?_eq_some_iff.mp hs).1
  -- whoever is put in the place of an interrupted client is interrupted
  have hput : ∀ j t t', v.sessions[j]? = some t → (t.Left → t'.Left) →
      ∃ s, (v.sessions.set j t')[i]? = some s ∧ s.Left := by
    intro j t t' ht hkeep
    rw [List.getElem?_set]
    by_cases hj : j = i
    · subst hj
      rw [if_pos rfl, if_pos hlt]
      rw [hs] at ht
      injection ht with ht
      exact ⟨t', rfl, hkeep (ht ▸ hleft)⟩
    · rw [if_neg hj]
      exact ⟨s, hs, hleft⟩
  cases hstepped with
  | connect party => exact ⟨s, (List.getElem?_append_left hlt).trans hs, hleft⟩
  | accept hidle hlt => exact ⟨s, hs, hleft⟩
  | client j t t' m ht hm hstep =>
      refine hput j t t' ht fun htleft => ?_
      have hback := (client_moves hm hstep).1
      rw [htleft] at hback
      cases hback
  | interrupt j t t' ht hstep =>
      obtain ⟨-, rfl⟩ := interrupt_eq_some hstep
      exact hput j t _ ht fun _ => rfl
  | server t t' m hpos ht hm hstep =>
      rw [(scale_spec A _ t m).1]
      exact hput _ t t' ht fun htleft => (server_moves hm hstep).1.trans htleft
  | clock call hclock => exact ⟨s, hs, hleft⟩

/-- Once a client is interrupted nobody behind it is served any more. Whatever
happens afterwards, its connection stays open, no connection made later is
accepted, nothing of their requests reaches `SetTimeScale` and none of their
calls comes back with a 0. -/
theorem blocked_for_good {A : Arith} {room : ℕ} {ms ms' : List Move}
    {v v' : Host} (hrun : (service A room).run {} ms = some v)
    (hrun' : (service A room).run v ms' = some v') {i : ℕ} {s : Session}
    (hs : v.sessions[i]? = some s) (hleft : s.Left) :
    (∃ s', v'.sessions[i]? = some s' ∧ s'.link.server ≠ .closed) ∧
      v'.accepted ≤ i + 1 ∧
      ∀ j t, i < j → v'.sessions[j]? = some t →
        t.link.calls = [] ∧ t.link.client ≠ .returned 0 := by
  have h := kept_run (kept_run (kept_start A) hrun) hrun'
  have hstill : ∃ s', v'.sessions[i]? = some s' ∧ s'.Left :=
    (service A room).run_inv
      (fun _ _ _ h hstep => left_stepped (stepped_of_step hstep) h)
      ⟨s, hs, hleft⟩ hrun'
  obtain ⟨s', hs', hleft'⟩ := hstill
  obtain ⟨hle, hbehind⟩ := h.blocked hs' hleft'
  have hopen := (h.alive s' (List.mem_of_getElem? hs')).not_closed hleft'
  exact ⟨⟨s', hs', hopen⟩, hle,
    fun j t hj ht => ⟨(hbehind j t hj ht).1.calls, (hbehind j t hj ht).2⟩⟩

/-- The first of two clients is interrupted before it has sent its byte, and
the second one waits for an answer. -/
def oneInterrupted : Host where
  sessions :=
    [⟨ofByte 49, { client := .returned (-1), buffer := [] }⟩,
      ⟨ofByte 50, { client := .receiving, buffer := [], up := ⟨[], [50]⟩ }⟩]
  accepted := 1

def interruption : List Move :=
  [.connect (ofByte 49), .connect (ofByte 50), .accept, .interrupt 0]

theorem second_client_blocked :
    (∃ s, oneInterrupted.sessions[0]? = some s ∧ s.link.server ≠ .closed) ∧
      oneInterrupted.accepted ≤ 0 + 1 ∧
      ∀ (j : ℕ) (t : Session), 0 < j → oneInterrupted.sessions[j]? = some t →
        t.link.calls = [] ∧ t.link.client ≠ .returned 0 := by
  have hrun : (service .exact 2).run {} interruption = some _ := rfl
  exact @blocked_for_good .exact 2 interruption [.client 1 (.clientSend 1)] _
    oneInterrupted hrun rfl 0 _ rfl rfl

/-! ## Where it comes to rest -/

/-- Moves of the server and of its clients. -/
def Move.works : Move → Bool
  | .accept | .client .. | .server _ => true
  | .connect _ | .interrupt _ | .clock _ => false

/-- Nobody has anything to do until somebody else connects. -/
def Settled (A : Arith) (room : ℕ) (v : Host) : Prop :=
  ∀ m, m.works = true → step A room v m = none

/-- A connection at rest has come to its end on both sides. -/
theorem ended_of_stuck {request buffer beyond : List Byte} {l : Link}
    (h : Connection.Sound request buffer beyond l)
    (hstuck : (Connection.link request beyond).Stuck l) :
    l.client = .returned 0 ∧ l.server = .closed := by
  have hback := h.returned_of_stuck hstuck
  obtain ⟨-, -, -, hspelt⟩ := h.returned hback
  have hscaled := h.scaled
  have hsent := h.sent
  rw [Connection.spelt_append, hspelt] at hscaled
  rw [hback] at hsent
  have hlength : l.up.taken.length + l.up.flight.length = request.length := by
    rw [← List.length_append]
    exact congrArg List.length ((List.append_nil _).symm.trans hsent)
  have hnothing : spelt l.server.unscaled = [] ∧ l.up.flight = [] := by
    have := congrArg List.length hscaled
    rw [List.length_append] at this
    exact ⟨List.length_eq_zero_iff.mp (by omega),
      List.length_eq_zero_iff.mp (by omega)⟩
  refine ⟨hback, ?_⟩
  cases hserver : l.server with
  | closed => rfl
  | receiving =>
      have hmove := hstuck .serverEnd
      simp only [Connection.link, Connection.step, hserver, hback] at hmove
      rw [if_pos hnothing.2] at hmove
      cases hmove
  | scaling chunk =>
      have hmove := hstuck .serverScale
      simp only [Connection.link, Connection.step, hserver] at hmove
      cases hmove
  | sending rest =>
      have hmove := hstuck (.serverSend 1)
      simp only [Connection.link, Connection.step, hserver] at hmove
      rw [if_pos ⟨by omega,
        List.length_pos_of_ne_nil (h.busy rest hserver)⟩] at hmove
      cases hmove

/-- What the row cannot do with a connection, the connection cannot. -/
theorem link_eq_none {s : Session} {m : Connection.Move} {f : Session → Host}
    (h : ((s.step m).bind fun s' => some (f s')) = none) :
    (Connection.link s.party.request s.party.beyond).step s.link m = none := by
  cases hstep : s.step m with
  | none => exact Option.map_eq_none_iff.mp hstep
  | some s' =>
      rw [hstep] at h
      cases h

/-- In a row at rest the current connection is at rest. -/
theorem Settled.stuck {A : Arith} {room : ℕ} {v : Host} (h : Settled A room v)
    (hpos : 0 < v.accepted) {s : Session}
    (hs : v.sessions[v.accepted - 1]? = some s) :
    (Connection.link s.party.request s.party.beyond).Stuck s.link := by
  intro m
  cases hm : byClient m with
  | true =>
      have hmove := h (.client (v.accepted - 1) m) rfl
      simp only [step, hm, if_true, hs] at hmove
      exact link_eq_none hmove
  | false =>
      have hmove := h (.server m) rfl
      have hcurrent : v.current = some s := by
        rw [Host.current, if_neg (by omega)]
        exact hs
      simp only [step, hm, Bool.false_eq_true, if_false, hcurrent] at hmove
      exact link_eq_none hmove

theorem accepting_of_closed {v : Host}
    (h : ∀ s, v.current = some s → s.link.server = .closed) :
    v.accepting = true := by
  unfold Host.accepting
  cases hcurrent : v.current with
  | none => rfl
  | some s =>
      rw [Option.all_some, h s hcurrent]
      rfl

theorem Kept.served {A : Arith} {room : ℕ} {v : Host} (h : Kept A v)
    (hsettled : Settled A room v) {i : ℕ} {s : Session}
    (hs : v.sessions[i]? = some s)
    (hnone : ∀ j t, j ≤ i → v.sessions[j]? = some t → ¬ t.Left) :
    s.link.client = .returned 0 ∧ s.link.server = .closed := by
  have hsound : ∀ j t, j ≤ i → v.sessions[j]? = some t → t.Sound t.link.client := by
    intro j t hj ht
    rcases h.alive t (List.mem_of_getElem? ht) with hsound | ⟨hleft, -⟩
    · exact hsound
    · exact absurd hleft (hnone j t hj ht)
  have hlt := (List.getElem?_eq_some_iff.mp hs).1
  -- the server has got past everybody up to this one
  have hpast : i < v.accepted := by
    by_contra hless
    have hclosed : ∀ t, v.current = some t → t.link.server = .closed := by
      intro t ht
      obtain ⟨hpos, ht⟩ := current_eq_some ht
      exact (ended_of_stuck (hsound _ t (by omega) ht)
        (hsettled.stuck hpos ht)).2
    have hmove := hsettled .accept rfl
    rw [step, if_pos ⟨accepting_of_closed hclosed, by omega⟩] at hmove
    cases hmove
  rcases Nat.lt_or_ge (i + 1) v.accepted with hbefore | hcurrent
  · have hclosed := h.closed i s hs hbefore
    exact ⟨(hsound i s le_rfl hs).closed hclosed, hclosed⟩
  · have hlast : v.accepted - 1 = i := by omega
    exact ended_of_stuck (hsound i s le_rfl hs)
      (hsettled.stuck (by omega) (by rw [hlast]; exact hs))

/-! ## How long that takes -/

def Host.work (v : Host) : ℕ :=
  (v.sessions.map (·.link.work)).sum + (v.sessions.length - v.accepted)

/-- What a move costs, the interruptions included. -/
def Move.cost : Move → ℕ
  | .accept | .client .. | .server _ | .interrupt _ => 1
  | .connect _ | .clock _ => 0

/-- The work that comes with a move. -/
def Move.load : Move → ℕ
  | .connect party => 6 * party.request.length + 4
  | .accept | .client .. | .interrupt _ | .server _ | .clock _ => 0

theorem work_start (request buffer : List Byte) :
    (Connection.start request buffer).work ≤ 6 * request.length + 3 := by
  have : (Connection.afterSend request request 0).work ≤ _ :=
    Connection.work_afterSend request 0
  simp only [Connection.start, Link.work, Connection.Server.work,
    List.length_nil]
  omega

theorem work_put {v : Host} {i : ℕ} {s s' : Session}
    (hs : v.sessions[i]? = some s) (hless : s'.link.work < s.link.work) :
    1 + (v.put i s').work ≤ v.work := by
  have hsum := sum_map_set hs (·.link.work) s'
  simp only [Host.work, Host.put, List.length_set]
  omega

theorem work_step {A : Arith} {room : ℕ} {v v' : Host} {m : Move}
    (h : step A room v m = some v') : m.cost + v'.work ≤ v.work + m.load := by
  cases m with
  | connect party =>
      rw [step] at h
      split at h
      · injection h with h
        have := work_start party.request party.buffer
        simp only [← h, Host.work, Move.cost, Move.load, List.map_append,
          List.sum_append, List.length_append, List.map_singleton,
          List.sum_singleton, List.length_singleton]
        omega
      · cases h
  | accept =>
      rw [step] at h
      split at h
      · next hcan =>
          injection h with h
          have := hcan.2
          simp only [← h, Host.work, Move.cost, Move.load]
          omega
      · cases h
  | client i m =>
      obtain ⟨-, s, s', hs, hs', rfl⟩ := step_client h
      obtain ⟨-, hl⟩ := step_eq_some hs'
      exact work_put hs (work_moved (moved_of_step hl))
  | interrupt i =>
      obtain ⟨s, s', hs, hs', rfl⟩ := step_interrupt h
      obtain ⟨hgoing, rfl⟩ := interrupt_eq_some hs'
      refine work_put hs ?_
      cases hclient : s.link.client with
      | sending rest => simp [Link.work, hclient, Connection.Client.work]
      | receiving => simp [Link.work, hclient, Connection.Client.work]
      | returned ret =>
          rw [hclient] at hgoing
          cases hgoing
  | server m =>
      obtain ⟨-, -, s, s', hs, hs', rfl⟩ := step_server h
      obtain ⟨-, hl⟩ := step_eq_some hs'
      obtain ⟨hsessions, haccepted, -⟩ :=
        scale_spec A (v.put (v.accepted - 1) s') s m
      have hwork : ((v.put (v.accepted - 1) s').scale A s m).work =
          (v.put (v.accepted - 1) s').work := by
        rw [Host.work, hsessions, haccepted]
        rfl
      rw [hwork]
      exact work_put hs (work_moved (moved_of_step hl))
  | clock call =>
      rw [step] at h
      split at h
      · injection h with h
        rw [← h]
        exact Nat.le_of_eq (Nat.zero_add _)
      · cases h

/-- The server and its clients come to rest: no run has more moves of theirs
than a multiple of what was asked for. And when they have, a client was served
if and only if neither it nor one before it was interrupted. -/
theorem served_iff {A : Arith} {room : ℕ} {ms : List Move} {v : Host}
    (hrun : (service A room).run {} ms = some v) :
    (ms.map Move.cost).sum ≤ (ms.map Move.load).sum ∧
      (Settled A room v → ∀ (i : ℕ) (s : Session), v.sessions[i]? = some s →
        (s.link.client = .returned 0 ∧ s.link.server = .closed ↔
          ∀ (j : ℕ) (t : Session), j ≤ i → v.sessions[j]? = some t →
            ¬ t.Left)) := by
  have h := kept_run (kept_start A) hrun
  refine ⟨?_, fun hsettled i s hs => ⟨fun hserved j t hj ht hleft => ?_,
    h.served hsettled hs⟩⟩
  · have hcost : (ms.map Move.cost).sum + v.work ≤
        Host.work {} + (ms.map Move.load).sum :=
      (service A room).run_cost_le (fun _ _ _ hstep => work_step hstep) hrun
    have hnone : Host.work {} = 0 := rfl
    omega
  · obtain ⟨hback, -⟩ := hserved
    rcases Nat.lt_or_eq_of_le hj with hlt | rfl
    · exact ((h.blocked ht hleft).2 i s hlt hs).2 hback
    · rw [hs] at ht
      injection ht with ht
      rw [ht, show t.link.client = _ from hleft] at hback
      cases hback

/-- There is nothing to receive where nothing is on the way. -/
theorem recv_eq_none {s : Session} (n : ℕ) :
    (s.link.down.flight = [] → s.step (.clientRecv n) = none) ∧
      (s.link.up.flight = [] → s.step (.serverRecv n) = none) := by
  constructor
  · intro hnil
    simp only [Session.step, Connection.step, Option.map_eq_none_iff]
    split
    · rw [if_neg (by rw [hnil, List.length_nil]; omega)]
    · rfl
  · intro hnil
    simp only [Session.step, Connection.step, Option.map_eq_none_iff]
    split
    · rw [dif_neg (by rw [hnil, List.length_nil]; omega)]
    · rfl

theorem step_eq_none {A : Arith} {room : ℕ} {v : Host} {s : Session}
    {m : Connection.Move} (h : s.step m = none) :
    (∀ i, v.sessions[i]? = some s → step A room v (.client i m) = none) ∧
      (v.current = some s → step A room v (.server m) = none) := by
  constructor
  · intro i hs
    rw [step, hs, Option.bind_eq_bind, Option.bind_some, h]
    exact ite_self none
  · intro hs
    rw [step, hs, Option.bind_eq_bind, Option.bind_some, h]
    exact ite_self none

theorem settled_oneInterrupted : Settled .exact 2 oneInterrupted := by
  intro m hworks
  cases m with
  | connect party | interrupt i | clock call => cases hworks
  | accept => rfl
  | client i m =>
      rcases i with _ | _ | i
      · cases m <;> rfl
      · cases m with
        | clientRecv n => exact (step_eq_none ((recv_eq_none n).1 rfl)).1 1 rfl
        | clientSend n | serverRecv n | serverSend n => rfl
        | clientEnd | serverScale | serverEnd => rfl
      · cases m <;> rfl
  | server m =>
      cases m with
      | serverRecv n => exact (step_eq_none ((recv_eq_none n).2 rfl)).2 rfl
      | clientSend n | clientRecv n | serverSend n => rfl
      | clientEnd | serverScale | serverEnd => rfl

theorem second_client_waits :
    Settled .exact 2 oneInterrupted ∧
      ∀ s : Session, oneInterrupted.sessions[1]? = some s →
        ¬ (s.link.client = .returned 0 ∧ s.link.server = .closed) := by
  have hrun : (service .exact 2).run {}
      (interruption ++ [.client 1 (.clientSend 1)]) = some oneInterrupted := rfl
  refine ⟨settled_oneInterrupted, fun s hs hserved => ?_⟩
  have hnone := ((served_iff hrun).2 settled_oneInterrupted 1 s hs).mp hserved
  exact hnone 0 _ (by omega) rfl rfl

end Elfupspeed.Service
