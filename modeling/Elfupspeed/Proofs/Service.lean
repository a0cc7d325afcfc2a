import Elfupspeed.Proofs.Echo
import Elfupspeed.Src.Service

/-!
# The row of connections

The server takes its clients one after the other, in the order in which they
got connected, and what the library hears from it is one request after the
other.

All of this is one invariant of the moves. Every connection is as `Sound`
says, an interrupted one up to where its client stands; those before the
current one are closed, and those behind it untouched.
-/

namespace Elfupspeed.Service

open Elfupspeed.Lib Elfupspeed.Lib.CString Elfupspeed.Speed
open Elfupspeed.ElfIPCServer (times handleClient Recv)
open Elfupspeed.Connection (Client Server Link Moved Sound spelt moved_of_step
  sound_moved sound_start)

/-! ## One move of one connection -/

def Session.Sound (s : Session) (c : Client) : Prop :=
  Connection.Sound s.party.request s.party.buffer s.party.beyond
    { s.link with client := c }

/-- Its client was interrupted. -/
def Session.Left (s : Session) : Prop := s.link.client = .returned (-1)

/-- A connection is sound, up to a client that was interrupted in the middle
of a call. -/
def Session.Alive (s : Session) : Prop :=
  s.Sound s.link.client ∨ s.Left ∧ ∃ c, c.ret? = none ∧ s.Sound c

/-- `accept` has not returned it yet. -/
structure Session.Fresh (s : Session) : Prop where
  server : s.link.server = .receiving
  chunks : s.link.chunks = []
  calls : s.link.calls = []

/-- What the server asks of the library at a move. -/
def Session.asks (s : Session) : Connection.Move → List ℚ
  | .serverScale => [times s.link.buffer s.party.beyond]
  | .clientSend _ | .clientRecv _ | .clientEnd | .serverRecv _
  | .serverSend _ | .serverEnd => []

theorem step_eq_some {s s' : Session} {m : Connection.Move}
    (h : s.step m = some s') :
    s'.party = s.party ∧
      Connection.step s.party.request s.party.beyond s.link m = some s'.link := by
  obtain ⟨l, hl, rfl⟩ := Option.map_eq_some_iff.mp h
  exact ⟨rfl, hl⟩

/-- A client moves only while its call goes on, and leaves the server's side
alone. -/
theorem client_moves {s s' : Session} {m : Connection.Move}
    (hm : byClient m = true) (h : s.step m = some s') :
    s.link.client.ret? = none ∧ s'.link.server = s.link.server ∧
      s'.link.chunks = s.link.chunks ∧ s'.link.calls = s.link.calls := by
  obtain ⟨-, hl⟩ := step_eq_some h
  cases m with
  | clientSend n =>
      simp only [Connection.step] at hl
      split at hl
      · next rest hclient =>
          split at hl
          · injection hl with hl
            rw [hclient, ← hl]
            exact ⟨rfl, rfl, rfl, rfl⟩
          · cases hl
      · cases hl
  | clientRecv n =>
      simp only [Connection.step] at hl
      split at hl
      · next hclient =>
          split at hl
          · injection hl with hl
            rw [hclient, ← hl]
            exact ⟨rfl, rfl, rfl, rfl⟩
          · cases hl
      · cases hl
  | clientEnd =>
      simp only [Connection.step] at hl
      split at hl
      · next hclient hserver =>
          split at hl
          · injection hl with hl
            rw [hclient, ← hl]
            exact ⟨rfl, rfl, rfl, rfl⟩
          · cases hl
      · cases hl
  | serverRecv n | serverScale | serverSend n | serverEnd => cases hm

/-- A move of the server is the same whatever the client has come to, apart
from the last one, and it says what it asks of the library. -/
theorem server_moves {s s' : Session} {m : Connection.Move}
    (hm : byClient m = false) (h : s.step m = some s') :
    s'.link.client = s.link.client ∧ s'.link.calls = s.link.calls ++ s.asks m ∧
      ∀ c, s.link.client ≠ .returned 0 →
        Connection.step s.party.request s.party.beyond
          { s.link with client := c } m = some { s'.link with client := c } := by
  obtain ⟨-, hl⟩ := step_eq_some h
  cases m with
  | serverRecv n =>
      simp only [Connection.step] at hl ⊢
      split at hl
      · next hserver =>
          split at hl
          · next hn =>
              injection hl with hl
              rw [← hl]
              refine ⟨rfl, (List.append_nil _).symm, fun c _ => ?_⟩
              rw [dif_pos hn]
          · cases hl
      · cases hl
  | serverScale =>
      simp only [Connection.step] at hl ⊢
      split at hl
      · next chunk hserver =>
          injection hl with hl
          rw [← hl]
          exact ⟨rfl, rfl, fun c _ => rfl⟩
      · cases hl
  | serverSend n =>
      simp only [Connection.step] at hl ⊢
      split at hl
      · next rest hserver =>
          split at hl
          · next hn =>
              injection hl with hl
              rw [← hl]
              refine ⟨rfl, (List.append_nil _).symm, fun c _ => ?_⟩
              rw [if_pos hn]
          · cases hl
      · cases hl
  | serverEnd =>
      simp only [Connection.step] at hl ⊢
      split at hl
      · next hserver hclient =>
          split at hl
          · injection hl with hl
            rw [← hl]
            exact ⟨rfl, (List.append_nil _).symm,
              fun c hne => absurd hclient hne⟩
          · cases hl
      · cases hl
  | clientSend n | clientRecv n | clientEnd => cases hm

/-! ## Connections that stay sound -/

theorem Session.Sound.client {s s' : Session} {m : Connection.Move}
    (hs : s.Sound s.link.client) (h : s.step m = some s') :
    s'.Sound s'.link.client := by
  obtain ⟨hparty, hl⟩ := step_eq_some h
  unfold Session.Sound at hs ⊢
  rw [hparty]
  exact sound_moved hs (moved_of_step hl)

/-- `upspeed` never gives up by itself: of the ways back only the interrupted
one has a result that is not 0. -/
theorem Session.Sound.not_left {s : Session} (hs : s.Sound s.link.client) :
    ¬ s.Left := by
  intro hleft
  obtain ⟨hzero, -⟩ := hs.ended (-1) hleft
  cases hzero

theorem Session.Alive.step_client {s s' : Session} {m : Connection.Move}
    (hs : s.Alive) (hm : byClient m = true) (h : s.step m = some s') :
    s'.Alive := by
  rcases hs with hs | ⟨hleft, -⟩
  · exact .inl (hs.client h)
  · have hback := (client_moves hm h).1
    rw [hleft] at hback
    cases hback

theorem Session.Alive.step_server {s s' : Session} {m : Connection.Move}
    (hs : s.Alive) (hm : byClient m = false) (h : s.step m = some s') :
    s'.Alive := by
  rcases hs with hs | ⟨hleft, c, hc, hs⟩
  · exact .inl (hs.client h)
  · obtain ⟨hparty, -⟩ := step_eq_some h
    obtain ⟨hclient, -, hsame⟩ := server_moves hm h
    have hne : s.link.client ≠ .returned 0 := by
      intro hzero
      rw [hleft] at hzero
      cases hzero
    have hstep := hsame c hne
    have hs' : s'.Sound c := by
      unfold Session.Sound at hs ⊢
      rw [hparty]
      exact sound_moved hs (moved_of_step hstep)
    exact .inr ⟨hclient.trans hleft, c, hc, hs'⟩

theorem interrupt_eq_some {s s' : Session} (h : s.interrupt = some s') :
    s.link.client.ret? = none ∧
      s' = ⟨s.party, { s.link with client := .returned (-1) }⟩ := by
  unfold Session.interrupt at h
  split at h
  · next rest hclient =>
      injection h with h
      rw [hclient]
      exact ⟨rfl, h.symm⟩
  · next hclient =>
      injection h with h
      rw [hclient]
      exact ⟨rfl, h.symm⟩
  · cases h

theorem Session.Alive.interrupt {s s' : Session} (hs : s.Alive)
    (h : s.interrupt = some s') : s'.Alive := by
  obtain ⟨hgoing, rfl⟩ := interrupt_eq_some h
  rcases hs with hs | ⟨hleft, -⟩
  · exact .inr ⟨rfl, s.link.client, hgoing, hs⟩
  · rw [hleft] at hgoing
    cases hgoing

/-- The server does not let go of an interrupted client. -/
theorem Session.Alive.not_closed {s : Session} (hs : s.Alive) (hleft : s.Left) :
    s.link.server ≠ .closed := by
  intro hclosed
  rcases hs with hs | ⟨-, c, hc, hs⟩
  · exact hs.not_left hleft
  · have hback : c = .returned 0 := hs.closed hclosed
    rw [hback] at hc
    cases hc

/-! ## The row -/

/-- What a move of the process does. -/
inductive Stepped (A : Arith) (v : Host) : Host → Prop
  | connect (party : Party) :
      Stepped A v { v with sessions := v.sessions ++
        [⟨party, Connection.start party.request party.buffer⟩] }
  | accept (hidle : v.accepting = true) (hlt : v.accepted < v.sessions.length) :
      Stepped A v { v with accepted := v.accepted + 1 }
  | client (i : ℕ) (s s' : Session) (m : Connection.Move)
      (hs : v.sessions[i]? = some s) (hm : byClient m = true)
      (h : s.step m = some s') : Stepped A v (v.put i s')
  | interrupt (i : ℕ) (s s' : Session) (hs : v.sessions[i]? = some s)
      (h : s.interrupt = some s') : Stepped A v (v.put i s')
  | server (s s' : Session) (m : Connection.Move) (hpos : 0 < v.accepted)
      (hs : v.sessions[v.accepted - 1]? = some s) (hm : byClient m = false)
      (h : s.step m = some s') :
      Stepped A v ((v.put (v.accepted - 1) s').scale A s m)
  | clock (call : Call) (h : isClock call = true) : Stepped A v (v.enter A call)

theorem current_eq_some {v : Host} {s : Session} (h : v.current = some s) :
    0 < v.accepted ∧ v.sessions[v.accepted - 1]? = some s := by
  unfold Host.current at h
  split at h
  · cases h
  · next hne => exact ⟨Nat.pos_of_ne_zero hne, h⟩

section Inversion

variable {A : Arith} {room : ℕ} {v v' : Host}

theorem step_client {i : ℕ} {m : Connection.Move}
    (h : step A room v (.client i m) = some v') :
    byClient m = true ∧ ∃ s s', v.sessions[i]? = some s ∧
      s.step m = some s' ∧ v' = v.put i s' := by
  rw [step] at h
  split at h
  · next hm =>
      obtain ⟨s, hs, h⟩ := Option.bind_eq_some_iff.mp h
      obtain ⟨s', hs', h⟩ := Option.bind_eq_some_iff.mp h
      injection h with h
      exact ⟨hm, s, s', hs, hs', h.symm⟩
  · cases h

theorem step_interrupt {i : ℕ} (h : step A room v (.interrupt i) = some v') :
    ∃ s s', v.sessions[i]? = some s ∧ s.interrupt = some s' ∧
      v' = v.put i s' := by
  rw [step] at h
  obtain ⟨s, hs, h⟩ := Option.bind_eq_some_iff.mp h
  obtain ⟨s', hs', h⟩ := Option.bind_eq_some_iff.mp h
  injection h with h
  exact ⟨s, s', hs, hs', h.symm⟩

theorem step_server {m : Connection.Move}
    (h : step A room v (.server m) = some v') :
    byClient m = false ∧ 0 < v.accepted ∧
      ∃ s s', v.sessions[v.accepted - 1]? = some s ∧ s.step m = some s' ∧
        v' = (v.put (v.accepted - 1) s').scale A s m := by
  rw [step] at h
  split at h
  · cases h
  · next hm =>
      obtain ⟨s, hs, h⟩ := Option.bind_eq_some_iff.mp h
      obtain ⟨s', hs', h⟩ := Option.bind_eq_some_iff.mp h
      injection h with h
      obtain ⟨hpos, hs⟩ := current_eq_some hs
      exact ⟨eq_false_of_ne_true hm, hpos, s, s', hs, hs', h.symm⟩

theorem stepped_of_step {m : Move} (h : step A room v m = some v') :
    Stepped A v v' := by
  cases m with
  | connect party =>
      rw [step] at h
      split at h
      · injection h with h
        exact h ▸ .connect party
      · cases h
  | accept =>
      rw [step] at h
      split at h
      · next hcan =>
          injection h with h
          exact h ▸ .accept hcan.1 hcan.2
      · cases h
  | client i m =>
      obtain ⟨hm, s, s', hs, hs', rfl⟩ := step_client h
      exact .client i s s' m hs hm hs'
  | interrupt i =>
      obtain ⟨s, s', hs, hs', rfl⟩ := step_interrupt h
      exact .interrupt i s s' hs hs'
  | server m =>
      obtain ⟨hm, hpos, s, s', hs, hs', rfl⟩ := step_server h
      exact .server s s' m hpos hs hm hs'
  | clock call =>
      rw [step] at h
      split at h
      · next hclock =>
          injection h with h
          exact h ▸ .clock call hclock
      · cases h

end Inversion

/-- The requests among some calls of the library. -/
def requests (calls : List Call) : List ℚ :=
  calls.filterMap fun
    | .setTimeScale result => some result
    | .newGettimeofday .. | .newClockGettime .. => none

/-- The state of the library is that of the calls it got. -/
structure Logged (A : Arith) (v : Host) : Prop where
  library : v.library = (machine A).after {} v.calls
  replies : v.replies = (machine A).run {} v.calls

structure Kept (A : Arith) (v : Host) : Prop where
  le : v.accepted ≤ v.sessions.length
  alive : ∀ s ∈ v.sessions, s.Alive
  closed : ∀ i s, v.sessions[i]? = some s → i + 1 < v.accepted →
    s.link.server = .closed
  fresh : ∀ i s, v.sessions[i]? = some s → v.accepted ≤ i → s.Fresh
  called : requests v.calls = v.sessions.flatMap (·.link.calls)
  logged : Logged A v

theorem Logged.enter {A : Arith} {v : Host} (h : Logged A v) (call : Call) :
    Logged A (v.enter A call) where
  library := by
    show ((machine A).step v.library call).1 = _
    rw [Host.enter, Mealy.after_append, h.library]
    rfl
  replies := by
    show v.replies ++ [((machine A).step v.library call).2] = _
    rw [Host.enter, Mealy.run_append, h.library, h.replies]
    rfl

@[simp] theorem requests_append (cs ds : List Call) :
    requests (cs ++ ds) = requests cs ++ requests ds :=
  List.filterMap_append

/-- What `scale` adds to the calls is what the server asks. -/
theorem scale_spec (A : Arith) (v : Host) (s : Session) (m : Connection.Move) :
    (v.scale A s m).sessions = v.sessions ∧
      (v.scale A s m).accepted = v.accepted ∧
      requests (v.scale A s m).calls = requests v.calls ++ s.asks m ∧
      (Logged A v → Logged A (v.scale A s m)) := by
  cases m with
  | serverScale =>
      refine ⟨rfl, rfl, ?_, fun h => h.enter _⟩
      show requests (v.calls ++ [_]) = _
      rw [requests_append]
      rfl
  | clientSend n | clientRecv n | clientEnd | serverRecv n | serverSend n
  | serverEnd => exact ⟨rfl, rfl, (List.append_nil _).symm, id⟩

theorem kept_start (A : Arith) : Kept A {} where
  le := le_rfl
  alive _ := nofun
  closed _ _ := nofun
  fresh _ _ := nofun
  called := rfl
  logged := ⟨rfl, rfl⟩

theorem requests_clock {call : Call} (h : isClock call = true) :
    requests [call] = [] := by
  cases call with
  | newGettimeofday res ptv => rfl
  | newClockGettime clkId res ptp => rfl
  | setTimeScale result => cases h

theorem closed_of_accepting {v : Host} (h : v.accepting = true)
    (hpos : 0 < v.accepted) {s : Session}
    (hs : v.sessions[v.accepted - 1]? = some s) : s.link.server = .closed := by
  have hcurrent : v.current = some s := by
    rw [Host.current, if_neg (by omega)]
    exact hs
  rw [Host.accepting, hcurrent, Option.all_some] at h
  cases hserver : s.link.server with
  | closed => rfl
  | receiving | scaling chunk | sending rest =>
      rw [hserver] at h
      cases h

/-- A client that moves, or is interrupted, leaves its place in the row. -/
theorem Kept.put_client {A : Arith} {v : Host} (h : Kept A v) {i : ℕ}
    {s s' : Session} (hs : v.sessions[i]? = some s) (halive : s'.Alive)
    (hserver : s'.link.server = s.link.server)
    (hchunks : s'.link.chunks = s.link.chunks)
    (hcalls : s'.link.calls = s.link.calls) : Kept A (v.put i s') where
  le := by
    show v.accepted ≤ (v.sessions.set i s').length
    rw [List.length_set]
    exact h.le
  alive t ht := by
    rcases List.mem_or_eq_of_mem_set ht with ht | rfl
    · exact h.alive t ht
    · exact halive
  closed := forall_getElem?_set h.closed fun hlt =>
    hserver.trans (h.closed i s hs hlt)
  fresh := forall_getElem?_set h.fresh fun hge => by
    obtain ⟨h₁, h₂, h₃⟩ := h.fresh i s hs hge
    exact ⟨hserver.trans h₁, hchunks.trans h₂, hcalls.trans h₃⟩
  called := by
    show requests v.calls = (v.sessions.set i s').flatMap _
    rw [h.called]
    exact (flatMap_set_of_eq hs hcalls).symm
  logged := ⟨h.logged.library, h.logged.replies⟩

/-- A move of the server is made at the last connection that was accepted, so
what it asks comes behind everything else. -/
theorem Kept.put_server {A : Arith} {v : Host} (h : Kept A v) {s s' : Session}
    {m : Connection.Move} (hpos : 0 < v.accepted)
    (hs : v.sessions[v.accepted - 1]? = some s) (hm : byClient m = false)
    (hstep : s.step m = some s') :
    Kept A ((v.put (v.accepted - 1) s').scale A s m) := by
  obtain ⟨hsessions, haccepted, hrequests, hlogged⟩ :=
    scale_spec A (v.put (v.accepted - 1) s') s m
  obtain ⟨-, hcalls, -⟩ := server_moves hm hstep
  have hlast : ∀ j t, v.accepted - 1 < j → v.sessions[j]? = some t →
      t.link.calls = [] := fun j t hj ht => (h.fresh j t ht (by omega)).calls
  constructor
  · rw [hsessions, haccepted]
    show v.accepted ≤ (v.sessions.set (v.accepted - 1) s').length
    rw [List.length_set]
    exact h.le
  · rw [hsessions]
    intro t ht
    rcases List.mem_or_eq_of_mem_set ht with ht | rfl
    · exact h.alive t ht
    · exact (h.alive s (List.mem_of_getElem? hs)).step_server hm hstep
  · rw [hsessions, haccepted]
    exact forall_getElem?_set h.closed fun hlt => by
      have : v.accepted - 1 + 1 < v.accepted := hlt
      omega
  · rw [hsessions, haccepted]
    exact forall_getElem?_set h.fresh fun hge => by
      have : v.accepted ≤ v.accepted - 1 := hge
      omega
  · rw [hrequests, hsessions]
    show requests v.calls ++ _ = (v.sessions.set (v.accepted - 1) s').flatMap _
    rw [h.called]
    exact (flatMap_set_of_last hs hcalls hlast).symm
  · exact hlogged ⟨h.logged.library, h.logged.replies⟩

theorem kept_stepped {A : Arith} {v v' : Host} (h : Kept A v)
    (hstepped : Stepped A v v') : Kept A v' := by
  cases hstepped with
  | connect party =>
      set new : Session :=
        ⟨party, Connection.start party.request party.buffer⟩ with hdef
      have hnew : ∀ i s, (v.sessions ++ [new])[i]? = some s →
          v.sessions[i]? = some s ∨ i = v.sessions.length ∧ s = new := by
        intro i s hi
        rw [List.getElem?_append] at hi
        split at hi
        · exact .inl hi
        · next hge =>
            rw [List.getElem?_singleton] at hi
            split at hi
            · next hzero =>
                injection hi with hi
                exact .inr ⟨by omega, hi.symm⟩
            · cases hi
      refine ⟨?_, fun s hs => ?_, fun i s hi hlt => ?_, fun i s hi hge => ?_, ?_,
        ⟨h.logged.library, h.logged.replies⟩⟩
      · have := h.le
        rw [List.length_append]
        exact Nat.le_trans this (Nat.le_add_right _ _)
      · rcases List.mem_append.mp hs with hs | hs
        · exact h.alive s hs
        · rw [List.mem_singleton.mp hs]
          exact .inl sound_start
      · rcases hnew i s hi with hi | ⟨rfl, -⟩
        · exact h.closed i s hi hlt
        · have hlt : v.sessions.length + 1 < v.accepted := hlt
          have := h.le
          omega
      · rcases hnew i s hi with hi | ⟨-, rfl⟩
        · exact h.fresh i s hi hge
        · exact ⟨rfl, rfl, rfl⟩
      · show requests v.calls = (v.sessions ++ [_]).flatMap _
        rw [h.called, List.flatMap_append]
        exact (List.append_nil _).symm
  | accept hidle hlt =>
      refine ⟨hlt, h.alive, fun i s hi hlt' => ?_, fun i s hi hge => ?_,
        h.called, ⟨h.logged.library, h.logged.replies⟩⟩
      · have hlt' : i + 1 < v.accepted + 1 := hlt'
        rcases Nat.lt_or_ge (i + 1) v.accepted with hbefore | hcurrent
        · exact h.closed i s hi hbefore
        · have hi : v.sessions[v.accepted - 1]? = some s := by
            rw [show v.accepted - 1 = i by omega]
            exact hi
          exact closed_of_accepting hidle (by omega) hi
      · exact h.fresh i s hi (Nat.le_of_succ_le hge)
  | client i s s' m hs hm hstep =>
      obtain ⟨-, hserver, hchunks, hcalls⟩ := client_moves hm hstep
      exact h.put_client hs ((h.alive s (List.mem_of_getElem? hs)).step_client hm
        hstep) hserver hchunks hcalls
  | interrupt i s s' hs hstep =>
      have halive := (h.alive s (List.mem_of_getElem? hs)).interrupt hstep
      obtain ⟨-, rfl⟩ := interrupt_eq_some hstep
      exact h.put_client hs halive rfl rfl rfl
  | server s s' m hpos hs hm hstep => exact h.put_server hpos hs hm hstep
  | clock call hclock =>
      refine ⟨h.le, h.alive, h.closed, h.fresh, ?_, h.logged.enter call⟩
      show requests (v.calls ++ [call]) = _
      rw [requests_append, requests_clock hclock, List.append_nil]
      exact h.called

theorem kept_run {A : Arith} {room : ℕ} {v v' : Host} (h : Kept A v)
    {ms : List Move} (hrun : (service A room).run v ms = some v') : Kept A v' :=
  (service A room).run_inv
    (fun _ _ _ h hstep => kept_stepped h (stepped_of_step hstep)) h hrun

/-! ## What has reached the library -/

/-- Interrupted or not, the server has the first bytes of the request, and has
done with them what `HandleClient` does. -/
theorem Session.Alive.handled {s : Session} (hs : s.Alive) :
    spelt s.link.chunks <+: s.party.request ∧
      s.link.calls = (handleClient s.party.beyond s.party.buffer
        (s.link.chunks.map (Recv.data · true))).1 := by
  have hsound : ∃ c, s.Sound c := by
    rcases hs with hs | ⟨-, c, -, hs⟩
    · exact ⟨_, hs⟩
    · exact ⟨c, hs⟩
  obtain ⟨c, hsound⟩ := hsound
  refine ⟨?_, hsound.called⟩
  have htaken : spelt s.link.chunks <+: s.link.up.taken :=
    ⟨_, (Connection.spelt_append _ _).symm.trans hsound.scaled⟩
  have hwritten : s.link.up.written <+: s.party.request := ⟨_, hsound.sent⟩
  exact (htaken.trans s.link.up.taken_prefix).trans hwritten

theorem Session.Alive.returned {s : Session} (hs : s.Alive)
    (hback : s.link.client = .returned 0) :
    s.link.reads.flatten = s.party.request ∧
      spelt s.link.chunks = s.party.request := by
  rcases hs with hs | ⟨hleft, -⟩
  · obtain ⟨-, -, hread, hspelt⟩ := hs.returned hback
    exact ⟨hread, hspelt⟩
  · rw [Session.Left, hback] at hleft
    cases hleft

/-- Requests do not mix. At every moment of every run the library was called
with what `HandleClient` makes of the connections, one connection after the
other in the order in which they were made, and of each of them it has had the
first bytes of the request and no others. A client that is back with a 0 has
its whole request back, and the library has had all of it. -/
theorem served_in_order {A : Arith} {room : ℕ} {ms : List Move} {v : Host}
    (hrun : (service A room).run {} ms = some v) :
    requests v.calls = v.sessions.flatMap (fun s =>
      (handleClient s.party.beyond s.party.buffer
        (s.link.chunks.map (Recv.data · true))).1) ∧
    (∀ s ∈ v.sessions, spelt s.link.chunks <+: s.party.request ∧
      (s.link.client = .returned 0 → s.link.reads.flatten = s.party.request ∧
        spelt s.link.chunks = s.party.request)) ∧
    (∀ i s, v.sessions[i]? = some s →
      (i + 1 < v.accepted → s.link.client = .returned 0) ∧
      (v.accepted ≤ i → s.link.chunks = [])) := by
  have h := kept_run (kept_start A) hrun
  refine ⟨?_, fun s hs => ?_, fun i s hi => ⟨fun hlt => ?_, fun hge => ?_⟩⟩
  · rw [h.called]
    exact List.flatMap_congr fun s hs => (h.alive s hs).handled.2
  · exact ⟨(h.alive s hs).handled.1, (h.alive s hs).returned⟩
  · have hclosed := h.closed i s hi hlt
    have halive := h.alive s (List.mem_of_getElem? hi)
    rcases halive with hs | ⟨hleft, -⟩
    · exact hs.closed hclosed
    · exact absurd hclosed
        (Session.Alive.not_closed (h.alive s (List.mem_of_getElem? hi)) hleft)
  · exact (h.fresh i s hi hge).chunks

/-- Who asks with one byte. -/
def ofByte (b : Byte) : Party := ⟨[b], [], [], List.cons_ne_nil _ _⟩

/-- Two clients of a byte each. The second has sent its own before the server
is done with the first. -/
def twoClients : List Move :=
  [.connect (ofByte 49), .connect (ofByte 50), .client 1 (.clientSend 1),
    .accept, .client 0 (.clientSend 1), .server (.serverRecv 1),
    .server .serverScale, .server (.serverSend 1), .client 0 (.clientRecv 1),
    .server .serverEnd, .accept, .server (.serverRecv 1), .server .serverScale]

theorem two_clients_in_order :
    ∃ v, (service .exact 2).run {} twoClients = some v ∧
      v.sessions.map (·.link.chunks.map (·.bytes)) = [[[49]], [[50]]] ∧
      requests v.calls = v.sessions.flatMap (fun s =>
        (handleClient s.party.beyond s.party.buffer
          (s.link.chunks.map (Recv.data · true))).1) := by
  have hrun : (service .exact 2).run {} twoClients = some _ := rfl
  exact ⟨_, hrun, rfl, (served_in_order hrun).1⟩

end Elfupspeed.Service
