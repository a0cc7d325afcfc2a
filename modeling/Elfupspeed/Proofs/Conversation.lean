import Elfupspeed.Proofs.Broadcast
import Elfupspeed.Spec.Room

/-!
# The chat server as a room

A run of the server that is still there at its end is a run of `Spec.room`: an
event that accepts a client is somebody's coming in, one that takes a message
is a line, one that drops a client is its going, and all other events are
nothing. What the clients are sent is what the room gives its members, put
into the server's words.

So what the room promises holds of the server. The lines are what the clients
wrote, cut where `recv` cut it, and a line is the same for everybody.
-/

namespace Elfupspeed.EpollServer

open Elfupspeed.Lib Elfupspeed.Lib.CString Elfupspeed.Spec

/-! ## What the server does, in the room's words -/

/-- The bytes of one `recv`, and what the stack held behind `buf` then. -/
abbrev Line := List Byte × List Byte

def happening : Event → List Action → Option (Happening Fd Line)
  | .handle a, .received client bytes :: _ =>
      some (if bytes = [] then .leaves client
        else .speaks client (bytes, a.beyond))
  | .handle _, .sent client _ :: _ => some (.joins client)
  | _, _ => none

def frame (who : Fd) (line : Line) : List Byte :=
  printed (strMessage who (store cleared line.1) line.2)

def noteText (it : Fd) : Note Fd Line → List Byte
  | .welcome => printed (strWelcome it)
  | .alone => strNooneConnected
  | .line who line => frame who line

def sending (note : Fd × Note Fd Line) : Action :=
  .sent note.1 (noteText note.1 note.2)

section Steps

variable {a : Answers} {s t : Server} {fd : Fd}

end Steps

/-! ## Runs -/

section Runs

variable {s : Server} {es : List Event}

end Runs

/-- What has arrived from a client and was not read. -/
def Server.unread (s : Server) (client : Fd) : List Byte :=
  ((s.conns client).map Conn.rcv).getD []

/-- The part of what was said that is one person's. -/
def textFrom (who : Fd) (lines : List (Fd × Line)) : List Byte :=
  (lines.filter fun l => l.1 = who).flatMap fun l => l.2.1

section Conversation

variable {a : Answers} {s t : Server} {fd client : Fd}

theorem unread_eq {conn : Conn} (h : s.conns client = some conn) :
    s.unread client = conn.rcv := by
  rw [Server.unread, h]
  rfl

theorem unread_congr (h : t.conns client = s.conns client) :
    t.unread client = s.unread client := by
  rw [Server.unread, h]
  rfl

theorem unread_update_self {conn : Conn}
    (h : t.conns = Function.update s.conns client (some conn)) :
    t.unread client = conn.rcv := by
  refine unread_eq ?_
  rw [h]
  exact Function.update_self client _ _

/-- What an event reads is taken off the front of what was there. -/
theorem Effect.unread (heffect : Effect a s fd t) (hactions : s.actions = [])
    (hopen : s.IsOpen client) {h : Happening Fd Line}
    (hsome : happening (.handle a) t.actions = some h) :
    textFrom client (linesSaid [h]) ++ t.unread client = s.unread client := by
  cases heffect with
  | accepts new conn backlog _ _ hfree =>
      have hne : client ≠ new := by
        rintro rfl
        rw [Server.IsOpen, hfree.1] at hopen
        cases hopen
      simp only [Server.accepting, hactions, List.nil_append, happening,
        Option.some.injEq] at hsome
      rw [← hsome]
      exact unread_congr (Function.update_of_ne hne _ _)
  | drops conn _ _ hconn hnil =>
      simp only [Server.dropping, hactions, List.nil_append, happening,
        Option.some.injEq] at hsome
      rw [← hsome, if_pos trivial]
      by_cases heq : client = fd
      · subst heq
        rw [unread_eq hconn, hnil]
        simp [textFrom, linesSaid, Server.unread, Server.dropping]
      · exact unread_congr (Function.update_of_ne heq _ _)
  | passesOn conn _ _ hconn hne =>
      have hread : conn.rcv.take bufSize ≠ [] := mt take_bufSize_eq_nil.mp hne
      simp only [Server.passingOn, hactions, List.nil_append, happening,
        Option.some.injEq] at hsome
      rw [← hsome, if_neg hread]
      by_cases heq : client = fd
      · subst heq
        rw [unread_eq hconn,
          unread_update_self (s := s) (t := s.passingOn a client conn) rfl]
        simp [textFrom, linesSaid]
      · rw [unread_congr (s := s) (Function.update_of_ne heq _ _)]
        simp [textFrom, linesSaid, Ne.symm heq]

theorem Effect.line (heffect : Effect a s fd t) (hactions : s.actions = [])
    {line : Line}
    (hsome : happening (.handle a) t.actions = some (.speaks client line)) :
    line.1 ≠ [] ∧ line.1.length ≤ bufSize := by
  cases heffect with
  | accepts => simp [Server.accepting, hactions, happening] at hsome
  | drops => simp [Server.dropping, hactions, happening] at hsome
  | passesOn conn _ _ _ hne =>
      have hread : conn.rcv.take bufSize ≠ [] := mt take_bufSize_eq_nil.mp hne
      simp only [Server.passingOn, hactions, List.nil_append, happening,
        if_neg hread, Option.some.injEq, Happening.speaks.injEq] at hsome
      rw [← hsome.2]
      exact ⟨hread, List.length_take_le bufSize conn.rcv⟩

end Conversation

end Elfupspeed.EpollServer
