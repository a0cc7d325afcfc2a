import Elfupspeed.Proofs.Pids
import Elfupspeed.Proofs.Requests
import Elfupspeed.Proofs.Startup

/-!
# Whom `upspeed` reaches while processes start

The port that `upspeed` connects to is made of the pid it has found, and the
servers are where their pids say, whichever of them have come so far. Pids that
fit the ports, and leave out the one that a -1 makes, can be told from their
ports, so that the process behind the port is the one that was found.
-/

namespace Elfupspeed.Startup

open Elfupspeed.Lib Elfupspeed.Lib.CString
open Elfupspeed.ServerClient (port port_natCast ProcessTable Net FiniteFloat message
  upspeed findPidOf_eq)

/-- A connection goes to a process that holds the port. -/
def Machine.Serves (w : Machine) (table : ProcessTable) (net : Net) : Prop :=
  ∀ q p, net.connect q = some p → p ∈ table.processes ∧ ∃ i, w.Holds p.pid i q

theorem found_mem {table : ProcessTable} {cmdline name : List Byte}
    {p : ServerClient.Process} (h : table.found cmdline name = some p) :
    p ∈ table.processes := by
  rw [ProcessTable.found] at h
  split at h
  · cases h
  · next p' hfirst =>
      split at h
      · injection h with h
        exact h ▸ List.mem_of_find?_eq_some hfirst
      · exact List.mem_of_find?_eq_some h

theorem delivered_eq_some {table : ProcessTable} {net : Net} {opendirOk : Bool}
    {cmdline package buf : List Byte} {speed : FiniteFloat}
    {p : ServerClient.Process}
    (h : (upspeed table opendirOk cmdline net package speed).delivered =
      some (p, buf)) :
    net.connect (port (table.foundPid opendirOk cmdline package)) = some p ∧
      buf = message speed := by
  rw [upspeed, findPidOf_eq] at h
  simp only at h
  split at h
  · split at h
    · cases h
    · next p' hconn =>
        split at h
        · injection h with h
          injection h with hp hbuf
          exact ⟨hp ▸ hconn, hbuf.symm⟩
        · cases h
  · cases h

/-- The pids fit the ports, and none is on the one that -1 makes. -/
def Fits (table : ProcessTable) : Prop := ∀ p ∈ table.processes, p.pid < 65535

theorem Fits.port_eq {table : ProcessTable} (h : Fits table)
    {p : ServerClient.Process} (hp : p ∈ table.processes) :
    port p.pid = p.pid ∧ 0 < p.pid ∧ p.pid < 65535 := by
  have hpos := table.pid_pos p hp
  have hlt := h p hp
  rw [port_natCast]
  omega

/-- The port that `upspeed` asks for tells what was found. -/
theorem Fits.found {table : ProcessTable} (h : Fits table) {opendirOk : Bool}
    {cmdline name : List Byte} {p : ServerClient.Process}
    (hp : p ∈ table.processes)
    (hport : port (table.foundPid opendirOk cmdline name) = p.pid) :
    opendirOk = true ∧ table.found cmdline name = some p := by
  obtain ⟨-, -, hlt⟩ := h.port_eq hp
  have hminus : port (-1) = 65535 := rfl
  rw [ProcessTable.foundPid] at hport
  cases opendirOk with
  | false =>
      have hnone : port (-1) = p.pid := hport
      omega
  | true =>
      cases hfound : table.found cmdline name with
      | none =>
          rw [hfound] at hport
          have hnone : port (-1) = p.pid := hport
          omega
      | some p' =>
          rw [hfound] at hport
          have hmem := found_mem hfound
          have hpid : p'.pid = p.pid := (h.port_eq hmem).1.symm.trans hport
          refine ⟨rfl, congrArg some ?_⟩
          exact List.inj_on_of_nodup_map table.pid_nodup hmem hp hpid

/-- A request reaches the process that was found, if it reaches a server. -/
theorem found_is_reached {ms : List (ℕ × Move)} {w : Machine}
    (hrun : machine.run {} ms = some w) {table : ProcessTable} {net : Net}
    (hnet : w.Serves table net) (hpids : Fits table) {opendirOk : Bool}
    {cmdline package buf : List Byte} {speed : FiniteFloat}
    {p : ServerClient.Process}
    (hsent : (upspeed table opendirOk cmdline net package speed).delivered =
      some (p, buf)) :
    opendirOk = true ∧ table.found cmdline package = some p ∧
      buf = message speed := by
  obtain ⟨hconn, hbuf⟩ := delivered_eq_some hsent
  obtain ⟨hp, i, hholds⟩ := hnet _ p hconn
  obtain ⟨hown, hpos, -⟩ := hpids.port_eq hp
  have hport := (tabled_run hrun).2 p.pid (by omega) i _ hholds.2
  obtain ⟨hdir, hfound⟩ := hpids.found hp (hport.trans hown)
  exact ⟨hdir, hfound, hbuf⟩

/-- Whoever is at port 100 is the process of that pid. -/
def answered : Net where
  socketOk := true
  connect q :=
    if q = 100 then some ⟨100, ofString "a", true, false, 1⟩ else none
  sendOk := true
  recvs := [64]

theorem serves_answered {w : Machine} (h : w.Holds 100 0 100) :
    w.Serves ServerClient.threadFirst answered := by
  intro q p hconn
  simp only [answered] at hconn
  split at hconn
  · next hq =>
      injection hconn with hconn
      subst hq hconn
      exact ⟨.tail _ (.head _), 0, h⟩
  · cases hconn

theorem process_reached :
    ∃ w, machine.run {} (through 100) = some w ∧
      ∃ p buf, (upspeed ServerClient.threadFirst true [] answered (ofString "a")
          ElfIPCServer.two).delivered = some (p, buf) ∧
        ServerClient.threadFirst.found [] (ofString "a") = some p := by
  have hrun : machine.run {} (through 100) = some _ := rfl
  have hfind : ServerClient.findPidOf ServerClient.threadFirst true []
      (some (ofString "a")) = 100 := by decide +kernel
  have hport : port 100 = 100 := by decide
  have hsent : (upspeed ServerClient.threadFirst true [] answered (ofString "a")
      ElfIPCServer.two).delivered =
        some (⟨100, ofString "a", true, false, 1⟩, message ElfIPCServer.two) := by
    rw [upspeed, hfind]
    simp only [hport]
    rfl
  have hfits : Fits ServerClient.threadFirst :=
    show ∀ p ∈ ServerClient.threadFirst.processes, p.pid < 65535 by decide
  exact ⟨_, hrun, _, _, hsent,
    (found_is_reached hrun (serves_answered ⟨rfl, rfl⟩) hfits hsent).2.1⟩

end Elfupspeed.Startup
