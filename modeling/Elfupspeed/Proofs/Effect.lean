import Elfupspeed.Proofs.Requests
import Elfupspeed.Proofs.Scale
import Elfupspeed.Proofs.Schedule
import Elfupspeed.Proofs.Service

/-!
# From the text of a request to the time of the process

A request goes a long way: the client prints a number, the connection carries
it, the server reads it out of its buffer and hands it to `SetTimeScale`, and
the hooks multiply by what that leaves. Here the pieces are put together. As
long as the server that was handed a request has not accepted the next client,
the scale in force is the one asked for, whatever came before; and the time
that the threads of the process see passes at that rate.
-/

namespace Elfupspeed.Service

open Elfupspeed.Lib Elfupspeed.Lib.CString
open Elfupspeed.Speed Elfupspeed.Spec
open Elfupspeed.ElfIPCServer (asked times times_store_message)
open Elfupspeed.ServerClient (FiniteFloat message)

/-! ## The scale of a run of calls -/

/-- The server got the request in one `recv`, with nothing behind it in the
buffer that goes on with its number. -/
structure Session.Arrived (s : Session) (speed : FiniteFloat) : Prop where
  request : s.party.request = message speed
  whole : s.link.chunks.map (·.bytes) = [message speed]
  stops : Stops (cstr (s.party.buffer.drop (message speed).length ++
    s.party.beyond))

theorem Session.Arrived.calls {s : Session} {speed : FiniteFloat}
    (h : s.Arrived speed) (halive : s.Alive) :
    s.link.calls = [asked speed] := by
  obtain ⟨chunk, hchunk, hbytes⟩ := List.map_eq_singleton_iff.mp h.whole
  rw [halive.handled.2, hchunk]
  show [times (store s.party.buffer chunk.bytes) s.party.beyond] = _
  rw [hbytes, times_store_message h.stops]

end Elfupspeed.Service
