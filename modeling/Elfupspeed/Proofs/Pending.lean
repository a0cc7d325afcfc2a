import Elfupspeed.Proofs.Clients

/-!
# Work that is forgotten

The server reads a descriptor once for each report it gets of it: one `accept`
for the listener, one `recv` for a client. In edge-triggered mode nothing
reports what that leaves behind. So as long as nothing is left behind, or
something new has arrived that will bring a report, the server knows of all
the work there is, and if it then waits with nothing to be reported there is
none.
-/

namespace Elfupspeed.EpollServer

open Elfupspeed.Lib Elfupspeed.Lib.CString

/-- There is something to accept, or to read. -/
def Server.Pending (s : Server) (fd : Fd) : Prop :=
  (fd = s.listener ∧ s.backlog ≠ []) ∨
    ∃ conn, s.conns fd = some conn ∧ conn.rcv ≠ []

/-- The loop is in `epoll_wait`, which has nothing to come back with. -/
def Server.Idle (s : Server) : Prop :=
  s.Waiting ∧ ∀ fd ∈ s.epoll.ready, ¬ s.Pending fd

/-- One `accept` or one `recv` is enough for what there is, or there will be
another report. -/
def Server.Drainable (s : Server) : Event → Prop
  | .handle _ => ∀ fd ∈ s.batch.head?, fd ∈ s.epoll.ready ∨
      if fd = s.listener then s.backlog.length ≤ 1
      else ∀ conn ∈ s.conns fd, conn.rcv.length ≤ bufSize
  | .connect _ | .write .. | .hangUp _ | .epollWait _ => True

instance (s : Server) (e : Event) : Decidable (s.Drainable e) :=
  match e with
  | .handle _ => inferInstanceAs (Decidable (∀ fd ∈ s.batch.head?, _ ∨ ite _ _ _))
  | .connect _ | .write .. | .hangUp _ | .epollWait _ =>
      inferInstanceAs (Decidable True)

/-- All the work there is is still to be reported or handled. -/
structure Knows (s : Server) : Prop where
  tracks : Tracks s
  covers : s.epoll.Covers s.batch s.Pending

section Knows

variable {s t : Server}

theorem not_pending_listener (h : Tracks s) {conn : Conn} :
    s.conns s.listener ≠ some conn := by
  intro hconn
  refine h.listener ?_
  rw [Server.IsOpen, hconn]
  rfl

theorem drop_ne_nil_iff {α : Type} {xs : List α} {n : ℕ} :
    xs.drop n ≠ [] ↔ n < xs.length := by
  rw [Ne, List.drop_eq_nil_iff, not_le]

theorem Knows.effect (h : Knows s) {a : Answers} {fd : Fd} {batch : List Fd}
    (hbatch : s.batch = fd :: batch) (hdrain : s.Drainable (.handle a))
    (heffect : Effect a { s with batch := batch } fd t) : Knows t := by
  obtain ⟨htracks, hcovers⟩ := h
  rw [hbatch] at hcovers
  have hleft := hdrain fd (by rw [hbatch]; rfl)
  refine ⟨heffect.tracks ⟨htracks.nodup, htracks.mem_iff,
    htracks.registered_iff, htracks.listener⟩, ?_⟩
  cases heffect with
  | accepts client conn backlog hfd _ hfree hback =>
      rw [show fd = s.listener from hfd] at hcovers hleft
      rw [show s.backlog = conn :: backlog from hback] at hleft
      -- all but the new client was there before
      have hrest : s.epoll.Covers (s.listener :: batch) fun x =>
          x ≠ client ∧
            (Server.accepting { s with batch := batch } client conn backlog).Pending x := by
        refine hcovers.anti ?_
        rintro x ⟨hne, ⟨hx, -⟩ | ⟨conn', hconn', hrcv⟩⟩
        · refine .inl ⟨hx, ?_⟩
          rw [show s.backlog = conn :: backlog from hback]
          exact List.cons_ne_nil conn backlog
        · refine .inr ⟨conn', ?_, hrcv⟩
          simpa [Server.accepting, hne] using hconn'
      have htail := hrest.tail ?_
      · refine htail.add ?_
        intro x hx
        by_cases hne : x = client
        · refine .inr ⟨hne, ?_⟩
          rcases hx with ⟨hx, -⟩ | ⟨conn', hconn', hrcv⟩
          · exact absurd (hne.symm.trans hx) hfree.2.1
          · simp only [Server.accepting, hne, Function.update_self,
              Option.some.injEq] at hconn'
            simp [Conn.readable, hconn', hrcv]
        · exact .inl ⟨hne, hx⟩
      · rintro ⟨hne, ⟨-, hmore⟩ | ⟨conn', hconn', -⟩⟩
        · refine hleft.resolve_right ?_
          rw [if_pos rfl, List.length_cons]
          have := List.length_pos_of_ne_nil
            (show backlog ≠ [] from hmore)
          omega
        · simp only [Server.accepting, Function.update_of_ne hne] at hconn'
          exact absurd hconn' (not_pending_listener htracks)
  | drops conn hfd _ hconn hnil =>
      have hrest : ∀ x, (Server.dropping { s with batch := batch } fd).Pending x →
          s.Pending x ∧ x ≠ fd := by
        rintro x (⟨hx, hback⟩ | ⟨conn', hconn', hrcv⟩)
        · exact ⟨.inl ⟨hx, hback⟩, fun heq => hfd (heq.symm.trans hx)⟩
        · have hne : x ≠ fd := by
            rintro rfl
            simp [Server.dropping] at hconn'
          refine ⟨.inr ⟨conn', ?_, hrcv⟩, hne⟩
          simpa [Server.dropping, hne] using hconn'
      refine Epoll.Covers.drop ((hcovers.anti fun x hx => (hrest x hx).1).tail ?_)
        fun x hx => ⟨hx, (hrest x hx).2⟩
      intro hx
      exact absurd rfl (hrest fd hx).2
  | passesOn conn hfd _ hconn hne =>
      refine (hcovers.anti ?_).tail ?_
      · rintro x (hx | ⟨conn', hconn', hrcv⟩)
        · exact .inl hx
        · by_cases hx : x = fd
          · subst hx
            exact .inr ⟨conn, hconn, hne⟩
          · refine .inr ⟨conn', ?_, hrcv⟩
            simpa [Server.passingOn, hx] using hconn'
      · rintro (⟨hx, -⟩ | ⟨conn', hconn', hrcv⟩)
        · exact absurd hx hfd
        · simp only [Server.passingOn, Function.update_self,
            Option.some.injEq] at hconn'
          rw [← hconn'] at hrcv
          refine hleft.resolve_right ?_
          rw [if_neg (show ¬ fd = s.listener from hfd)]
          intro hall
          have hle := hall conn hconn
          have hgt := drop_ne_nil_iff.mp hrcv
          omega

theorem Knows.next (h : s.exited = false → Knows s) {e : Event}
    (hdrain : s.Drainable e) (hexited : (s.next e).exited = false) :
    Knows (s.next e) := by
  have htracks : Tracks (s.next e) :=
    next_tracks (fun hs => (h hs).tracks) e hexited
  cases next_cases s e with
  | idle heq =>
      rw [heq] at hexited ⊢
      exact h hexited
  | connects conn heq =>
      rw [heq] at hexited htracks ⊢
      obtain ⟨hold, hcovers⟩ := h hexited
      refine ⟨htracks, hcovers.signal ?_⟩
      rintro x (⟨hx, -⟩ | hx)
      · exact .inr ⟨hx, (hold.registered_iff s.listener).mpr (.inl rfl)⟩
      · exact .inl (.inr hx)
  | arrives client conn conn' hconn heq =>
      rw [heq] at hexited htracks ⊢
      obtain ⟨hold, hcovers⟩ := h hexited
      refine ⟨htracks, hcovers.signal ?_⟩
      rintro x (hx | ⟨conn'', hconn'', hrcv⟩)
      · exact .inl (.inl hx)
      · by_cases hx : x = client
        · have hopen : s.IsOpen client := by
            rw [Server.IsOpen, hconn]
            rfl
          exact .inr ⟨hx, (hold.registered_iff client).mpr (.inr hopen)⟩
        · refine .inl (.inr ⟨conn'', ?_, hrcv⟩)
          simpa [Server.arrive, hx] using hconn''
  | stops hstop =>
      rw [hstop] at hexited
      cases hexited
  | fetches events hwait _ heq =>
      rw [heq] at hexited htracks ⊢
      obtain ⟨-, hcovers⟩ := h hexited
      rw [hwait.2] at hcovers
      exact ⟨htracks, hcovers.fetch⟩
  | handles a fd batch he hs hbatch heffect =>
      rw [he] at hdrain
      exact (h hs).effect hbatch hdrain heffect

theorem knows_start (listener : Fd) (others : List Fd) :
    Knows (start listener others) where
  tracks := tracks_start listener others
  covers fd := by
    rintro (⟨-, hback⟩ | ⟨conn, hconn, -⟩)
    · exact absurd rfl hback
    · cases hconn

end Knows

/-- In a run in which every event finds no more than one `accept` or one
`recv` can take, or the next report already on its way, a server that waits
with nothing to be reported has no connection to accept and nothing to read. -/
theorem nothing_forgotten (listener : Fd) (others : List Fd) (es : List Event)
    (hdrain : ∀ x ∈ server.trace (start listener others) es, x.1.Drainable x.2.1)
    (hidle : (server.after (start listener others) es).Idle) :
    (server.after (start listener others) es).backlog = [] ∧
    ∀ fd ∈ (server.after (start listener others) es).clientsList,
      ∀ conn ∈ (server.after (start listener others) es).conns fd,
        conn.rcv = [] := by
  have h := server.after_inv (I := fun s => s.exited = false → Knows s)
    (fun _ => knows_start listener others) es ?_ hidle.1.1
  · have hcovers := h.covers
    rw [hidle.1.2] at hcovers
    have hdone := hcovers.done hidle.2
    refine ⟨?_, fun fd _ conn hconn => ?_⟩
    · by_contra hne
      exact hdone _ (.inl ⟨rfl, hne⟩)
    · by_contra hne
      exact hdone fd (.inr ⟨conn, hconn, hne⟩)
  · intro x hx h hexited
    refine Knows.next (s := { x.1 with actions := [] }) ?_ (hdrain x hx) hexited
    intro hs
    obtain ⟨htracks, hcovers⟩ := h hs
    exact ⟨htracks.of_same rfl rfl rfl rfl, hcovers⟩

/-- A client comes, writes and is read. -/
def oneAtATime : List Event :=
  [.connect {}, .epollWait (some [3]), .handle { accepted := some 5 },
    .write 5 [104, 105], .epollWait (some [5]), .handle {}]

theorem one_at_a_time_read :
    (server.after (start 3 [0, 1, 2, 4]) oneAtATime).backlog = [] ∧
    ∀ fd ∈ (server.after (start 3 [0, 1, 2, 4]) oneAtATime).clientsList,
      ∀ conn ∈ (server.after (start 3 [0, 1, 2, 4]) oneAtATime).conns fd,
        conn.rcv = [] := by
  have hready : (server.after (start 3 [0, 1, 2, 4]) oneAtATime).epoll.ready = [] := by
    decide +kernel
  refine nothing_forgotten 3 [0, 1, 2, 4] oneAtATime (by decide +kernel)
    ⟨by decide +kernel, ?_⟩
  rw [hready]
  exact fun fd hfd => absurd hfd List.not_mem_nil

/-- Two clients that come before the server has looked are one report, and
one `accept`. -/
theorem second_client_forgotten :
    ¬ ∀ (listener : Fd) (others : List Fd) (es : List Event),
      (server.after (start listener others) es).Waiting →
      (server.after (start listener others) es).epoll.ready = [] →
      (server.after (start listener others) es).backlog = [] ∧
      ∀ fd ∈ (server.after (start listener others) es).clientsList,
        ∀ conn ∈ (server.after (start listener others) es).conns fd,
          conn.rcv = [] := by
  intro h
  have hback := (h 3 [0, 1, 2, 4] [.connect {}, .connect {},
    .epollWait (some [3]), .handle { accepted := some 5 }]
    (by decide +kernel) (by decide +kernel)).1
  revert hback
  decide +kernel

end Elfupspeed.EpollServer
