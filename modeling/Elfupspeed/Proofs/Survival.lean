import Elfupspeed.Src.ElfIPCServer

/-!
# What a client can do to the process

`HandleClient` has three places where a transfer may fail, and each of them
calls `Die`, which is `exit` in a process that is not the server's own. A
client that is served without a failure is served to its end and its socket
closed; so the process survives exactly the clients of which that is true.
-/

namespace Elfupspeed.ElfIPCServer

open Elfupspeed.Lib Elfupspeed.Lib.CString

/-- Until the client closes the connection, every `recv` gets something and
all of it can be sent back. -/
def Unharmed : List Recv → Prop
  | [] | .closed :: _ => True
  | .failed :: _ => False
  | .data _ echoed :: recvs => echoed = true ∧ Unharmed recvs

def Recv.isData : Recv → Bool
  | .data .. => true
  | .closed | .failed => false

/-- Every client that the server gets to is served unharmed. The next one
waits until the one before it has closed its connection. -/
def AllUnharmed : List Accept → Prop
  | [] => True
  | .failed :: _ => False
  | .client _ _ _ recvs :: accepts =>
      Unharmed recvs ∧ ((∃ r ∈ recvs, r.isData = false) → AllUnharmed accepts)

theorem handleClient_ending (beyond buffer : List Byte) (recvs : List Recv) :
    ((handleClient beyond buffer recvs).2 = .closed ↔
      Unharmed recvs ∧ ∃ r ∈ recvs, r.isData = false) ∧
    ((handleClient beyond buffer recvs).2 = .waiting ↔
      Unharmed recvs ∧ ∀ r ∈ recvs, r.isData = true) := by
  induction recvs generalizing buffer with
  | nil => simp [handleClient, Unharmed]
  | cons r recvs ih =>
      cases r with
      | closed => simp [handleClient, Unharmed, Recv.isData]
      | failed => simp [handleClient, Unharmed]
      | data chunk echoed =>
          cases echoed with
          | false => simp [handleClient, Unharmed]
          | true =>
              have hrest := ih (store buffer chunk.bytes)
              simpa [handleClient, Unharmed, Recv.isData] using hrest

def Standing.socks : Standing → List ℕ
  | .serving sock => [sock]
  | .accepting | .exited => []

/-- The process is there, and every client it accepted has left it with a
closed socket, but for the one it is serving. -/
def Served.Survives (s : Served) : Prop :=
  s.standing ≠ .exited ∧ s.accepted = s.closed ++ s.standing.socks

theorem survives_cons (sock : ℕ) (calls : List ℚ) (s : Served) :
    Served.Survives ⟨sock :: s.accepted, sock :: s.closed, calls ++ s.calls,
      s.standing⟩ ↔ s.Survives := by
  simp [Served.Survives]

/-- The process survives just the clients that do it no harm. -/
theorem survives_iff (accepts : List Accept) :
    (startIPCServer accepts).Survives ↔ AllUnharmed accepts := by
  induction accepts with
  | nil => simp [startIPCServer, Served.Survives, Standing.socks, AllUnharmed]
  | cons a accepts ih =>
      cases a with
      | failed => simp [startIPCServer, Served.Survives, AllUnharmed]
      | client sock buffer beyond recvs =>
          obtain ⟨hclosed, hwaiting⟩ := handleClient_ending beyond buffer recvs
          simp only [startIPCServer, AllUnharmed]
          cases hend : (handleClient beyond buffer recvs).2 with
          | closed =>
              obtain ⟨hunharmed, hleft⟩ := hclosed.mp hend
              rw [survives_cons, ih]
              exact ⟨fun h => ⟨hunharmed, fun _ => h⟩, fun h => h.2 hleft⟩
          | waiting =>
              obtain ⟨hunharmed, hdata⟩ := hwaiting.mp hend
              simp [Served.Survives, Standing.socks, hunharmed]
              intro r hr hnot
              rw [hdata r hr] at hnot
              cases hnot
          | died =>
              have hharmed : ¬ Unharmed recvs := by
                intro hunharmed
                by_cases hleft : ∃ r ∈ recvs, r.isData = false
                · have := hclosed.mpr ⟨hunharmed, hleft⟩
                  rw [hend] at this
                  cases this
                · have := hwaiting.mpr ⟨hunharmed, by simpa using hleft⟩
                  rw [hend] at this
                  cases this
              simp [Served.Survives, hharmed]

/-- One connection reset by its client is enough. -/
theorem reset_client_ends_process :
    ¬ ∀ accepts : List Accept, (∀ a ∈ accepts, a ≠ .failed) →
      (startIPCServer accepts).Survives := by
  intro h
  have := h [.client 5 [] [] [.failed]] (by simp)
  simp [startIPCServer, handleClient, Served.Survives] at this

end Elfupspeed.ElfIPCServer
