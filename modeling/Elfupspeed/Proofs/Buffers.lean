import Elfupspeed.Proofs.Delivery
import Elfupspeed.Src.Buffers

/-!
# Which accesses stay inside the arrays

On the client the reply is safe: `recv` leaves a byte for the NUL. The array
for the request has room for three characters and a NUL, which no finite
number is shown in. On the server it is the other way round. A request that
fills the buffer has no NUL behind it, and `atof` goes on behind the buffer if
the bytes that are there, fresh and stale ones together, could be the beginning
of a longer number.
-/

namespace Elfupspeed.Buffers

open Elfupspeed.Lib Elfupspeed.Lib.CString
open Elfupspeed.ServerClient
  (FiniteFloat ProcessTable Net findPidOf port message stranger strangerOnly reaching)
open Elfupspeed.ElfIPCServer (Recv Ending buffsize times)

/-! ## The accesses belong to the runs -/

theorem readEcho_fst (echolen : ℕ) (received : ℤ) (recvs : List ℤ) :
    (readEcho echolen received recvs).1 =
      ServerClient.readEcho echolen received recvs := by
  induction recvs generalizing received with
  | nil => rfl
  | cons bytes recvs ih =>
      rw [readEcho, ServerClient.readEcho]
      split
      · split
        · rfl
        · exact ih (received + bytes)
      · rfl

theorem upspeed_fst (table : ProcessTable) (opendirOk : Bool)
    (cmdline package : List Byte) (net : Net) (speed : FiniteFloat) :
    (upspeed table opendirOk cmdline net package (.finite speed)).1 =
      (ServerClient.upspeed table opendirOk cmdline net package speed).ret := by
  rw [upspeed, ServerClient.upspeed]
  simp only
  cases net.socketOk with
  | false => rfl
  | true =>
      cases net.connect (port (findPidOf table opendirOk cmdline (some package))) with
      | none => rfl
      | some p =>
          cases net.sendOk with
          | false => rfl
          | true => exact readEcho_fst (message speed).length 0 net.recvs

theorem handleClient_fst (beyond buffer : List Byte) (recvs : List Recv) :
    (handleClient beyond buffer recvs).1 =
      ElfIPCServer.handleClient beyond buffer recvs := by
  induction recvs generalizing buffer with
  | nil => rfl
  | cons recv recvs ih =>
      cases recv with
      | data chunk echoed =>
          rw [handleClient, ElfIPCServer.handleClient]
          cases echoed with
          | false => rfl
          | true => simp only [if_true, ih]
      | closed => rfl
      | failed => rfl

/-! ## Accesses one after the other -/

@[simp] theorem allInRange_nil : AllInRange [] := by
  intro a ha
  cases ha

@[simp] theorem allInRange_cons (a : Access) (as : List Access) :
    AllInRange (a :: as) ↔ a.InRange ∧ AllInRange as :=
  List.forall_mem_cons

@[simp] theorem allInRange_append (as bs : List Access) :
    AllInRange (as ++ bs) ↔ AllInRange as ∧ AllInRange bs :=
  List.forall_mem_append

/-! ## The client -/

/-- A positive infinity, or a NaN that is shown without a sign. -/
def CFloat.Short : CFloat → Prop
  | .finite _ => False
  | .inf neg => neg = false
  | .nan neg => neg = false

theorem length_message (x : FiniteFloat) : 6 ≤ (message x).length := by
  obtain ⟨b, s, hnumeral, -⟩ := exists_numeral_cons (x.tenThousandths / 10 ^ 4)
  rw [message, fixed, hnumeral]
  simp only [List.length_append, List.length_cons, length_places]
  omega

theorem CFloat.length_text_le_iff (x : CFloat) : x.text.length ≤ 3 ↔ x.Short := by
  cases x with
  | finite x =>
      have hlen := length_message x
      simp only [CFloat.text, CFloat.Short, iff_false]
      omega
  | inf neg => cases neg <;> simp [CFloat.text, CFloat.Short] <;> decide
  | nan neg => cases neg <;> simp [CFloat.text, CFloat.Short] <;> decide

theorem bufAccesses_inRange_iff (echolen : ℕ) :
    AllInRange (bufAccesses echolen) ↔ echolen ≤ 3 := by
  simp only [bufAccesses, allInRange_cons, allInRange_nil, and_true, Access.InRange,
    Buffer.size]
  omega

theorem replyAccesses_inRange {bytes : ℕ} (h : bytes ≤ 31) :
    AllInRange (replyAccesses bytes) := by
  simp only [replyAccesses, allInRange_cons, allInRange_nil, and_true, Access.InRange,
    Buffer.size]
  omega

theorem readEcho_inRange (echolen : ℕ) (received : ℤ) {recvs : List ℤ}
    (hrecvs : ∀ bytes ∈ recvs, bytes ≤ 31) :
    AllInRange (readEcho echolen received recvs).2 := by
  induction recvs generalizing received with
  | nil => exact allInRange_nil
  | cons bytes recvs ih =>
      rw [List.forall_mem_cons] at hrecvs
      rw [readEcho]
      split
      · split
        · exact allInRange_nil
        · exact (allInRange_append _ _).mpr ⟨replyAccesses_inRange (by omega),
            ih (received + bytes) hrecvs.2⟩
      · exact allInRange_nil

/-- The call gets as far as its array. -/
def Connects (table : ProcessTable) (opendirOk : Bool) (cmdline : List Byte)
    (net : Net) (package : List Byte) : Prop :=
  net.socketOk = true ∧
    net.connect (port (findPidOf table opendirOk cmdline (some package))) ≠ none

theorem upspeed_inRange_iff (table : ProcessTable) (opendirOk : Bool)
    (cmdline package : List Byte) {net : Net} (speed : CFloat)
    (hrecvs : ∀ bytes ∈ net.recvs, bytes ≤ 31) :
    AllInRange (upspeed table opendirOk cmdline net package speed).2 ↔
      (Connects table opendirOk cmdline net package → speed.Short) := by
  rw [upspeed, Connects]
  simp only
  cases net.socketOk with
  | false => simp
  | true =>
      cases net.connect (port (findPidOf table opendirOk cmdline (some package))) with
      | none => simp
      | some p =>
          have hbuf : AllInRange (bufAccesses speed.text.length) ↔ speed.Short :=
            (bufAccesses_inRange_iff _).trans speed.length_text_le_iff
          have hreply := readEcho_inRange speed.text.length 0 hrecvs
          cases net.sendOk with
          | false => simpa using hbuf
          | true =>
              simp only [if_true, allInRange_append, hbuf]
              simpa using fun _ => hreply

/-! ## The server -/

/-- After each `recv`, the buffer ends the number that it holds. -/
def NumbersEnd : List Byte → List Recv → Prop
  | _, [] | _, .failed :: _ | _, .closed :: _ => True
  | buffer, .data chunk echoed :: recvs =>
      numberReader.ends .blank (store buffer chunk.bytes) = true ∧
        (echoed = true → NumbersEnd (store buffer chunk.bytes) recvs)

theorem length_store {buffer : List Byte} (hbuffer : buffer.length = buffsize)
    (chunk : ElfIPCServer.Chunk) : (store buffer chunk.bytes).length = buffsize := by
  have hle := chunk.bytes_le
  rw [store, List.length_append, List.length_drop, hbuffer]
  omega

theorem requestAccesses_inRange_iff {buffer : List Byte}
    (hbuffer : buffer.length = buffsize) (chunk : ElfIPCServer.Chunk)
    (beyond : List Byte) :
    AllInRange (requestAccesses chunk.bytes buffer beyond) ↔
      numberReader.ends .blank buffer = true := by
  have hle := chunk.bytes_le
  have hlooked := numberReader.looked_le_iff .blank buffer beyond
  rw [hbuffer] at hlooked
  simp only [requestAccesses, allInRange_cons, allInRange_nil, Access.InRange,
    Buffer.size, zero_add, hle, hlooked, true_and, and_true]

theorem handleClient_inRange_iff (beyond : List Byte) {buffer : List Byte}
    (recvs : List Recv) (hbuffer : buffer.length = buffsize) :
    AllInRange (handleClient beyond buffer recvs).2 ↔
      NumbersEnd buffer recvs := by
  induction recvs generalizing buffer with
  | nil => simp [handleClient, NumbersEnd]
  | cons recv recvs ih =>
      cases recv with
      | data chunk echoed =>
          have hstore := length_store hbuffer chunk
          have hrequest := requestAccesses_inRange_iff hstore chunk beyond
          rw [handleClient, NumbersEnd]
          cases echoed with
          | false => simpa using hrequest
          | true =>
              simp only [if_true, allInRange_append, hrequest, ih hstore,
                true_implies]
      | closed => simp [handleClient, NumbersEnd]
      | failed => simp [handleClient, NumbersEnd]

/-! ## Both -/

/-- Where no more is received than was asked for, every access stays inside its
array if and only if a request that is sent is a positive infinity or a NaN
without a sign, and the server's buffer ends every number. -/
theorem accesses_inRange_iff (table : ProcessTable) (opendirOk : Bool)
    (cmdline package : List Byte) (net : Net) (speed : CFloat)
    (hrecvs : ∀ bytes ∈ net.recvs, bytes ≤ 31) (beyond buffer : List Byte)
    (recvs : List Recv) (hbuffer : buffer.length = buffsize) :
    AllInRange ((upspeed table opendirOk cmdline net package speed).2 ++
        (handleClient beyond buffer recvs).2) ↔
      (Connects table opendirOk cmdline net package → speed.Short) ∧
        NumbersEnd buffer recvs := by
  rw [allInRange_append,
    upspeed_inRange_iff table opendirOk cmdline package speed hrecvs,
    handleClient_inRange_iff beyond recvs hbuffer]

/-- A network in which one process is reached, and the three bytes of `inf`
come back. -/
def echoing : Net := { reaching stranger with recvs := [3] }

/-- `inf`, with a NUL from before behind it. -/
theorem infinity_in_range :
    AllInRange ((upspeed strangerOnly true [] echoing (ofString "b") (.inf false)).2 ++
      (handleClient [] (List.replicate 32 0)
        [.data ⟨ofString "inf", by decide, by decide⟩ true, .closed]).2) :=
  (accesses_inRange_iff strangerOnly true [] (ofString "b") echoing (.inf false)
    (by decide) [] (List.replicate 32 0) _ (by decide)).mpr
    ⟨fun _ => rfl, Reader.ends_of_mem numberStep_nul (by decide) _, fun _ => trivial⟩

/-- The speed 2. -/
def two : CFloat := .finite ⟨false, 2, 0, by decide, by decide, by decide⟩

theorem connects_echoing : Connects strangerOnly true [] echoing (ofString "b") := by
  have hpid : findPidOf strangerOnly true [] (some (ofString "b")) = 65535 := by
    rw [ServerClient.findPidOf_eq]
    decide
  refine ⟨rfl, ?_⟩
  rw [hpid]
  decide

/-- A speed of 2 takes seven bytes of four. -/
theorem two_out_of_range :
    ¬ ∀ (table : ProcessTable) (opendirOk : Bool) (cmdline package : List Byte)
      (net : Net) (speed : CFloat), (∀ bytes ∈ net.recvs, bytes ≤ 31) →
      ∀ (beyond buffer : List Byte) (recvs : List Recv), buffer.length = buffsize →
      AllInRange ((upspeed table opendirOk cmdline net package speed).2 ++
        (handleClient beyond buffer recvs).2) := by
  intro h
  have hrecvs : ∀ bytes ∈ echoing.recvs, bytes ≤ 31 := by decide
  have hbuffer : (List.replicate 32 (0 : Byte)).length = buffsize := by decide
  have hrange := h strangerOnly true [] (ofString "b") echoing two hrecvs []
    (List.replicate 32 0) [] hbuffer
  have hshort := (accesses_inRange_iff strangerOnly true [] (ofString "b") echoing
    two hrecvs [] (List.replicate 32 0) [] hbuffer).mp hrange
  exact hshort.1 connects_echoing

end Elfupspeed.Buffers
