import Elfupspeed.Src.ElfIPCServer
import Elfupspeed.Src.ServerClient

/-!
# The speed asked for and the speed applied

A request is a number without an end: the client sends neither a terminator
nor a length, and the server reads whatever its buffer holds as if the last
`recv` had brought all of it. That works for a run of requests that come one
to a `recv`, as long as no older request has left digits other than 0, or an
exponent, right behind the new one; and this is all there is to prove about a
step, so the run is an induction over it.
-/

namespace Elfupspeed.ElfIPCServer

open Elfupspeed.Lib Elfupspeed.Lib.CString Elfupspeed.Speed
  Elfupspeed.ServerClient

/-- The number in a request. -/
def encoded (speed : FiniteFloat) : ℚ :=
  if speed.neg then -(speed.tenThousandths / 10 ^ 4)
  else speed.tenThousandths / 10 ^ 4

def asked (speed : FiniteFloat) : ℚ := f32 (f64 (encoded speed))

/-- What a client writes on a connection. -/
def stream (speeds : List FiniteFloat) : List Byte :=
  (speeds.map message).flatten

/-- Each `recv` gets just the next request, and what is behind it in memory
does not go on with the number, by more than zeros. -/
def Framed (beyond : List Byte) :
    List Byte → List FiniteFloat → List Recv → Prop
  | buffer, speed :: speeds, .data chunk _ :: recvs =>
      chunk.bytes = message speed ∧
      Stops (cstr (buffer.drop chunk.bytes.length ++ beyond)) ∧
      Framed beyond (store buffer chunk.bytes) speeds recvs
  | _, [], .data _ _ :: _ => False
  | _, _, .closed :: _ | _, _, .failed :: _ | _, _, [] => True

theorem message_ne_nil (speed : FiniteFloat) : message speed ≠ [] :=
  fixed_ne_nil 4 speed.neg speed.tenThousandths

theorem times_store_message {speed : FiniteFloat} {buffer beyond : List Byte}
    (h : Stops (cstr (buffer.drop (message speed).length ++ beyond))) :
    times (store buffer (message speed)) beyond = asked speed := by
  have hcstr : cstr (store buffer (message speed) ++ beyond) =
      message speed ++
        cstr (buffer.drop (message speed).length ++ beyond) := by
    rw [store, List.append_assoc, cstr]
    refine List.takeWhile_append_of_pos fun b hb => ?_
    simpa using ne_zero_of_mem_fixed b hb
  have hatof : atof (message speed ++ _) = encoded speed :=
    atof_fixed 4 speed.neg speed.tenThousandths h
  rw [times, hcstr, hatof, asked]

/-- A run of requests that each come alone applies them one after the other. -/
theorem handleClient_of_framed {beyond buffer : List Byte}
    {speeds : List FiniteFloat} {recvs : List Recv}
    (h : Framed beyond buffer speeds recvs) :
    ∃ sent, sent <+: speeds ∧ received recvs = stream sent ∧
      (handleClient beyond buffer recvs).1 = sent.map asked := by
  induction recvs generalizing buffer speeds with
  | nil => exact ⟨[], List.nil_prefix, rfl, rfl⟩
  | cons r recvs ih =>
      cases r with
      | closed => exact ⟨[], List.nil_prefix, rfl, rfl⟩
      | failed => exact ⟨[], List.nil_prefix, rfl, rfl⟩
      | data chunk echoed =>
          cases speeds with
          | nil => exact h.elim
          | cons speed speeds =>
              obtain ⟨hchunk, hstops, hrest⟩ := h
              rw [hchunk] at hstops hrest
              have htimes := times_store_message hstops
              cases echoed with
              | false =>
                  refine ⟨[speed], by simp, ?_, ?_⟩
                  · simp [received, stream, hchunk]
                  · simp [handleClient, hchunk, htimes]
              | true =>
                  obtain ⟨sent, hsent, hreceived, hcalls⟩ := ih hrest
                  refine ⟨speed :: sent, ?_, ?_, ?_⟩
                  · exact (List.prefix_cons_inj speed).mpr hsent
                  · simp [received, stream, hchunk, hreceived]
                  · simp [handleClient, hchunk, htimes, hcalls]

theorem eq_of_stream_eq {sent speeds : List FiniteFloat}
    (hsent : sent <+: speeds) (h : stream sent = stream speeds) :
    sent = speeds := by
  obtain ⟨rest, rfl⟩ := hsent
  cases rest with
  | nil => exact (List.append_nil sent).symm
  | cons speed rest =>
      have hnil : message speed ++ stream rest = [] := by
        simpa [stream] using h
      exact absurd (List.append_eq_nil_iff.mp hnil).1 (message_ne_nil speed)

/-- In such a run every speed applied is one a client asked for, and once all
the bytes have been handled it is the last one. -/
theorem asked_applied {beyond buffer : List Byte} {speeds : List FiniteFloat}
    {recvs : List Recv} (h : Framed beyond buffer speeds recvs) :
    (∀ t ∈ (handleClient beyond buffer recvs).1,
      ∃ speed ∈ speeds, t = asked speed) ∧
    (received recvs = stream speeds →
      (handleClient beyond buffer recvs).1.getLast? =
        (speeds.map asked).getLast?) := by
  obtain ⟨sent, hsent, hreceived, hcalls⟩ := handleClient_of_framed h
  rw [hcalls]
  refine ⟨fun t ht => ?_, fun hall => ?_⟩
  · obtain ⟨speed, hspeed, rfl⟩ := List.mem_map.mp ht
    exact ⟨speed, hsent.subset hspeed, rfl⟩
  · rw [eq_of_stream_eq hsent (hreceived.symm.trans hall)]

def cleared : List Byte := List.replicate buffsize 0

def threeHalves : FiniteFloat :=
  ⟨false, 3, -1, by decide, by decide, by decide⟩

def two : FiniteFloat := ⟨false, 1, 1, by decide, by decide, by decide⟩

/-- 10.0625, whose text is one byte longer. -/
def tenAndASixteenth : FiniteFloat :=
  ⟨false, 161, -4, by decide, by decide, by decide⟩

def oneByOne (speed speed' : FiniteFloat)
    (h : (message speed).length ≤ buffsize)
    (h' : (message speed').length ≤ buffsize) : List Recv :=
  [.data ⟨message speed, List.length_pos_of_ne_nil (message_ne_nil speed), h⟩
      true,
    .data ⟨message speed', List.length_pos_of_ne_nil (message_ne_nil speed'),
      h'⟩ true]

theorem two_requests_applied :
    (handleClient [] cleared
      (oneByOne threeHalves two (by decide +kernel) (by decide +kernel))).1.getLast? =
      some (asked two) := by
  have hframed : Framed [] cleared [threeHalves, two]
      (oneByOne threeHalves two (by decide +kernel) (by decide +kernel)) :=
    ⟨rfl, by decide +kernel, rfl, by decide +kernel, trivial⟩
  exact (asked_applied hframed).2 rfl

/-- A request of six bytes behind one of seven: the server reads 2.00005. -/
theorem stale_digit_read :
    ¬ ∀ (beyond buffer : List Byte) (speeds : List FiniteFloat)
      (recvs : List Recv), buffer.length = buffsize →
      received recvs = stream speeds →
      (∀ t ∈ (handleClient beyond buffer recvs).1,
        ∃ speed ∈ speeds, t = asked speed) ∧
      (handleClient beyond buffer recvs).1.getLast? =
        (speeds.map asked).getLast? := by
  intro h
  have hlast := (h [] cleared [tenAndASixteenth, two]
    (oneByOne tenAndASixteenth two (by decide +kernel) (by decide +kernel))
    rfl rfl).2
  revert hlast
  decide +kernel

end Elfupspeed.ElfIPCServer
