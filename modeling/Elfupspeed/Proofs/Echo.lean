import Elfupspeed.Src.Connection
import Elfupspeed.Src.ServerClient

/-!
# What comes back to `upspeed` is what it sent

Between the two loops the bytes of a request are in one of six places, and at
every moment these places, read from the client's last byte back to its first,
spell the request. That is the invariant. Two things about the counters go
with it: the client counts what it has taken, and it is in its loop only as
long as that is less than the request.

Nothing moves backwards from one of the places to another, so a weight on each
of them is a measure that every move makes smaller.
-/

namespace Elfupspeed.Connection

open Elfupspeed.Lib Elfupspeed.Lib.CString Elfupspeed.ElfIPCServer
open Elfupspeed.ServerClient (readEcho)

/-! ## The two loops on their own -/

theorem readEcho_snoc {echolen : ℕ} {received : ℤ} {recvs : List ℤ}
    (h : readEcho echolen received recvs = none) (bytes : ℤ) :
    readEcho echolen received (recvs ++ [bytes]) =
      readEcho echolen (received + recvs.sum) [bytes] := by
  induction recvs generalizing received with
  | nil => simp
  | cons b recvs ih =>
      rw [readEcho] at h
      split at h
      · next hless =>
          split at h
          · cases h
          · next hpos =>
              rw [List.cons_append, readEcho, if_pos hless, if_neg hpos, ih h,
                List.sum_cons, add_assoc]
      · cases h

/-- A loop that goes on has not got enough. -/
theorem sum_lt_of_readEcho {echolen : ℕ} {received : ℤ} {recvs : List ℤ}
    (h : readEcho echolen received recvs = none) :
    received + recvs.sum < echolen := by
  induction recvs generalizing received with
  | nil =>
      rw [readEcho] at h
      split at h
      · simpa
      · cases h
  | cons b recvs ih =>
      rw [readEcho] at h
      split at h
      · split at h
        · cases h
        · rw [List.sum_cons, ← add_assoc]
          exact ih h
      · cases h

/-- The buffer when these have been received and sent back. -/
def bufferAfter (buffer : List Byte) (chunks : List Chunk) : List Byte :=
  chunks.foldl (fun buffer chunk => store buffer chunk.bytes) buffer

theorem bufferAfter_snoc (buffer : List Byte) (chunks : List Chunk)
    (chunk : Chunk) :
    bufferAfter buffer (chunks ++ [chunk]) =
      store (bufferAfter buffer chunks) chunk.bytes := by
  simp [bufferAfter]

/-- The calls of `HandleClient` when it received these and nothing failed. -/
def callsOf (beyond buffer : List Byte) (chunks : List Chunk) : List ℚ :=
  (handleClient beyond buffer (chunks.map (Recv.data · true))).1

theorem callsOf_snoc (beyond buffer : List Byte) (chunks : List Chunk)
    (chunk : Chunk) :
    callsOf beyond buffer (chunks ++ [chunk]) =
      callsOf beyond buffer chunks ++
        [times (bufferAfter buffer (chunks ++ [chunk])) beyond] := by
  induction chunks generalizing buffer with
  | nil => rfl
  | cons c chunks ih =>
      exact congrArg (times (store buffer c.bytes) beyond :: ·)
        (ih (store buffer c.bytes))

/-! ## One move -/

/-- What a move that is taken does. -/
inductive Moved (request beyond : List Byte) (l : Link) : Link → Prop
  | clientSend (n : ℕ) (rest : List Byte) (hclient : l.client = .sending rest)
      (hpos : 0 < n) (hle : n ≤ rest.length) :
      Moved request beyond l { l with
        up := l.up.put (rest.take n)
        client := afterSend request (rest.drop n) l.received }
  | clientRecv (n : ℕ) (hclient : l.client = .receiving) (hpos : 0 < n)
      (hthere : n ≤ l.down.flight.length) :
      Moved request beyond l { l with
        down := l.down.take n
        reads := l.reads ++ [l.down.flight.take n]
        received := l.received + n
        client := loopTest (l.received + n) request.length }
  | clientEnd (hclient : l.client = .receiving) (hserver : l.server = .closed) :
      Moved request beyond l { l with client := .returned (-1) }
  | serverRecv (n : ℕ) (chunk : Chunk) (hserver : l.server = .receiving)
      (hpos : 0 < n) (hthere : n ≤ l.up.flight.length)
      (hchunk : chunk.bytes = l.up.flight.take n) :
      Moved request beyond l { l with
        up := l.up.take n
        buffer := store l.buffer chunk.bytes
        server := .scaling chunk }
  | serverScale (chunk : Chunk) (hserver : l.server = .scaling chunk) :
      Moved request beyond l { l with
        calls := l.calls ++ [times l.buffer beyond]
        chunks := l.chunks ++ [chunk]
        server := .sending chunk.bytes }
  | serverSend (n : ℕ) (rest : List Byte) (hserver : l.server = .sending rest)
      (hpos : 0 < n) (hle : n ≤ rest.length) :
      Moved request beyond l { l with
        down := l.down.put (rest.take n)
        server := afterEcho (rest.drop n) }
  | serverEnd (hserver : l.server = .receiving) (hclient : l.client = .returned 0) :
      Moved request beyond l { l with server := .closed }

theorem moved_of_step {request beyond : List Byte} {l l' : Link} {m : Move}
    (h : step request beyond l m = some l') : Moved request beyond l l' := by
  cases m with
  | clientSend n =>
      simp only [step] at h
      split at h
      · next rest hclient =>
          split at h
          · next hn =>
              injection h with h
              exact h ▸ .clientSend n rest hclient hn.1 hn.2
          · cases h
      · cases h
  | clientRecv n =>
      simp only [step] at h
      split at h
      · next hclient =>
          split at h
          · next hn =>
              injection h with h
              exact h ▸ .clientRecv n hclient hn.1 hn.2.2
          · cases h
      · cases h
  | clientEnd =>
      simp only [step] at h
      split at h
      · next hclient hserver =>
          split at h
          · injection h with h
            exact h ▸ .clientEnd hclient hserver
          · cases h
      · cases h
  | serverRecv n =>
      simp only [step] at h
      split at h
      · next hserver =>
          split at h
          · next hn =>
              injection h with h
              exact h ▸ .serverRecv n _ hserver hn.1 hn.2.2 rfl
          · cases h
      · cases h
  | serverScale =>
      simp only [step] at h
      split at h
      · next chunk hserver =>
          injection h with h
          exact h ▸ .serverScale chunk hserver
      · cases h
  | serverSend n =>
      simp only [step] at h
      split at h
      · next rest hserver =>
          split at h
          · next hn =>
              injection h with h
              exact h ▸ .serverSend n rest hserver hn.1 hn.2
          · cases h
      · cases h
  | serverEnd =>
      simp only [step] at h
      split at h
      · next hserver hclient =>
          split at h
          · injection h with h
            exact h ▸ .serverEnd hserver hclient
          · cases h
      · cases h

/-! ## Where the bytes are -/

/-- What the client has still to hand over. -/
def Client.unsent : Client → List Byte
  | .sending rest => rest
  | .receiving | .returned _ => []

/-- What the server has taken and not sent back. -/
def Server.unechoed : Server → List Byte
  | .scaling chunk => chunk.bytes
  | .sending rest => rest
  | .receiving | .closed => []

/-- What the server has taken and not handed to `SetTimeScale`. -/
def Server.unscaled : Server → List Chunk
  | .scaling chunk => [chunk]
  | .receiving | .sending _ | .closed => []

def Client.ret? : Client → Option ℤ
  | .returned ret => some ret
  | .sending _ | .receiving => none

/-- The chunks one after the other. -/
def spelt (chunks : List Chunk) : List Byte := (chunks.map Chunk.bytes).flatten

@[simp] theorem spelt_append (cs ds : List Chunk) :
    spelt (cs ++ ds) = spelt cs ++ spelt ds := by
  simp [spelt]

@[simp] theorem spelt_singleton (c : Chunk) : spelt [c] = c.bytes := by
  simp [spelt]

@[simp] theorem spelt_nil : spelt [] = [] := rfl

structure Sound (request buffer beyond : List Byte) (l : Link) : Prop where
  sent : l.up.written ++ l.client.unsent = request
  echoed : l.down.written ++ l.server.unechoed = l.up.taken
  scaled : spelt (l.chunks ++ l.server.unscaled) = l.up.taken
  read : l.reads.flatten = l.down.taken
  counted : l.received = l.down.taken.length
  buffered : l.buffer = bufferAfter buffer (l.chunks ++ l.server.unscaled)
  called : l.calls = callsOf beyond buffer l.chunks
  unread : ∀ rest, l.client = .sending rest → rest ≠ [] ∧ l.reads = []
  busy : ∀ rest, l.server = .sending rest → rest ≠ []
  looping : l.client.ret? =
    readEcho request.length 0 (l.reads.map fun bytes => (bytes.length : ℤ))
  ended : ∀ ret, l.client = .returned ret →
    ret = 0 ∧ request.length ≤ l.received
  closed : l.server = .closed → l.client = .returned 0

section Steps

variable {request buffer beyond : List Byte} {l l' : Link}

theorem Sound.sum_reads (h : Sound request buffer beyond l) :
    (l.reads.map fun bytes => (bytes.length : ℤ)).sum = l.received := by
  rw [h.counted, ← h.read]
  induction l.reads with
  | nil => rfl
  | cons bytes reads ih => simp [ih]

theorem unsent_afterSend (rest : List Byte) (received : ℕ) :
    (afterSend request rest received).unsent = rest := by
  unfold afterSend
  split
  · next hnil =>
      rw [hnil, loopTest]
      split <;> rfl
  · rfl

theorem unsent_loopTest (received echolen : ℕ) :
    (loopTest received echolen).unsent = [] := by
  unfold loopTest
  split <;> rfl

/-- While nothing has been read the loop has not ended, or has nothing to
do. -/
theorem ret_afterSend (rest : List Byte) (hsuffix : rest <:+ request) :
    (afterSend request rest 0).ret? = readEcho request.length 0 [] := by
  unfold afterSend loopTest
  rw [readEcho]
  split
  · split <;> simp_all [Client.ret?]
  · next hne =>
      have hpos : 0 < rest.length := List.length_pos_of_ne_nil hne
      have hle : rest.length ≤ request.length := hsuffix.length_le
      rw [if_pos (by omega)]
      rfl

theorem ret_loopTest (received : ℕ) {n : ℕ} (hpos : 0 < n)
    (hless : received < request.length) :
    (loopTest (received + n) request.length).ret? =
      readEcho request.length received [(n : ℤ)] := by
  rw [readEcho, if_pos (by omega), if_neg (by omega), readEcho, loopTest]
  by_cases hmore : received + n < request.length
  · rw [if_pos hmore, if_pos (by omega)]
    rfl
  · rw [if_neg hmore, if_neg (by omega)]
    rfl

theorem afterSend_sending {rest rest' : List Byte} {received : ℕ}
    (h : afterSend request rest received = .sending rest') :
    rest' = rest ∧ rest ≠ [] := by
  unfold afterSend loopTest at h
  split at h
  · split at h <;> cases h
  · next hne =>
      injection h with h
      exact ⟨h.symm, hne⟩

theorem loopTest_returned {received echolen : ℕ} {ret : ℤ}
    (h : loopTest received echolen = .returned ret) :
    ret = 0 ∧ echolen ≤ received := by
  unfold loopTest at h
  split at h
  · cases h
  · next hnot =>
      injection h with h
      exact ⟨h.symm, not_lt.mp hnot⟩

theorem afterSend_returned {rest : List Byte} {received : ℕ} {ret : ℤ}
    (h : afterSend request rest received = .returned ret) :
    ret = 0 ∧ request.length ≤ received := by
  unfold afterSend at h
  split at h
  · exact loopTest_returned h
  · cases h

theorem loopTest_ne_sending (received echolen : ℕ) (rest : List Byte) :
    loopTest received echolen ≠ .sending rest := by
  unfold loopTest
  split <;> exact Client.noConfusion

theorem unechoed_afterEcho (rest : List Byte) :
    (afterEcho rest).unechoed = rest := by
  unfold afterEcho
  split
  · next hnil => rw [hnil]; rfl
  · rfl

theorem unscaled_afterEcho (rest : List Byte) :
    (afterEcho rest).unscaled = [] := by
  unfold afterEcho
  split <;> rfl

theorem afterEcho_sending {rest rest' : List Byte}
    (h : afterEcho rest = .sending rest') : rest' ≠ [] := by
  unfold afterEcho at h
  split at h
  · cases h
  · next hne =>
      injection h with h
      exact h ▸ hne

theorem afterEcho_open (rest : List Byte) : afterEcho rest ≠ .closed := by
  unfold afterEcho
  split <;> exact Server.noConfusion

theorem sound_start : Sound request buffer beyond (start request buffer) where
  sent := by simp [start, Stream.written, unsent_afterSend]
  echoed := rfl
  scaled := rfl
  read := rfl
  counted := rfl
  buffered := rfl
  called := rfl
  unread rest hrest := by
    obtain ⟨rfl, hne⟩ := afterSend_sending hrest
    exact ⟨hne, rfl⟩
  busy _ := Server.noConfusion
  looping := ret_afterSend request List.suffix_rfl
  ended _ := afterSend_returned
  closed := Server.noConfusion

/-- Each move takes bytes from one place to the next. -/
theorem sound_moved (h : Sound request buffer beyond l)
    (hmoved : Moved request beyond l l') : Sound request buffer beyond l' := by
  have hsent := h.sent
  have hechoed := h.echoed
  have hscaled := h.scaled
  have hbuffered := h.buffered
  cases hmoved with
  | clientSend n rest hclient =>
      obtain ⟨-, hreads⟩ := h.unread rest hclient
      have hzero : l.received = 0 := by
        rw [h.counted, ← h.read, hreads]
        rfl
      rw [hclient] at hsent
      change l.up.written ++ rest = request at hsent
      have hsuffix : rest.drop n <:+ request :=
        (List.drop_suffix n rest).trans ⟨_, hsent⟩
      exact
        { h with
          sent := by
            rw [unsent_afterSend]
            simpa using hsent
          unread := fun rest' hrest => by
            obtain ⟨rfl, hne⟩ := afterSend_sending hrest
            exact ⟨hne, hreads⟩
          looping := by
            simpa [hzero, hreads] using ret_afterSend (rest.drop n) hsuffix
          ended := fun _ => afterSend_returned
          closed := fun hclosed => by
            have := h.closed hclosed
            rw [hclient] at this
            cases this }
  | clientRecv n hclient hpos hthere =>
      have hlooping := h.looping
      rw [hclient] at hsent hlooping
      have hless : l.received < request.length := by
        have := sum_lt_of_readEcho hlooping.symm
        rw [h.sum_reads] at this
        omega
      exact
        { h with
          sent := by
            rw [unsent_loopTest]
            exact hsent
          echoed := by simpa using hechoed
          read := by simp [h.read]
          counted := by simp [h.counted, hthere]
          unread := fun rest hrest =>
            absurd hrest (loopTest_ne_sending _ _ rest)
          looping := by
            rw [List.map_append, List.map_cons, List.map_nil,
              readEcho_snoc hlooping.symm, h.sum_reads, zero_add,
              List.length_take, min_eq_left hthere]
            exact ret_loopTest l.received hpos hless
          ended := fun _ => loopTest_returned
          closed := fun hclosed => by
            have := h.closed hclosed
            rw [hclient] at this
            cases this }
  | clientEnd hclient hserver =>
      have := h.closed hserver
      rw [hclient] at this
      cases this
  | serverRecv n chunk hserver _ _ hchunk =>
      rw [hserver] at hechoed hscaled hbuffered
      simp only [Server.unscaled, List.append_nil] at hscaled hbuffered
      simp only [Server.unechoed, List.append_nil] at hechoed
      exact
        { h with
          sent := by simpa using hsent
          echoed := by simp [Server.unechoed, hechoed, hchunk]
          scaled := by simp [Server.unscaled, hscaled, hchunk]
          buffered := by simp [Server.unscaled, bufferAfter_snoc, hbuffered]
          busy := fun _ => Server.noConfusion
          closed := Server.noConfusion }
  | serverScale chunk hserver =>
      rw [hserver] at hechoed hscaled hbuffered
      exact
        { h with
          echoed := hechoed
          scaled := by simpa [Server.unscaled] using hscaled
          buffered := by simpa [Server.unscaled] using hbuffered
          called := by
            simp only [Server.unscaled] at hbuffered
            rw [callsOf_snoc, ← hbuffered, h.called]
          busy := fun rest hrest => by
            injection hrest with hrest
            rw [← hrest]
            exact List.ne_nil_of_length_pos chunk.bytes_pos
          closed := Server.noConfusion }
  | serverSend n rest hserver =>
      rw [hserver] at hechoed hscaled hbuffered
      change l.down.written ++ rest = l.up.taken at hechoed
      exact
        { h with
          echoed := by
            rw [unechoed_afterEcho]
            simpa using hechoed
          scaled := by
            rw [unscaled_afterEcho]
            exact hscaled
          buffered := by
            rw [unscaled_afterEcho]
            exact hbuffered
          busy := fun _ => afterEcho_sending
          closed := fun hclosed => absurd hclosed (afterEcho_open _) }
  | serverEnd hserver hclient =>
      rw [hserver] at hechoed hscaled hbuffered
      exact
        { h with
          echoed := hechoed
          scaled := hscaled
          buffered := hbuffered
          busy := fun _ => Server.noConfusion
          closed := fun _ => hclient }

/-! ## Where it ends -/

/-- A client that is back has what it sent, and so has `SetTimeScale`. -/
theorem Sound.returned (h : Sound request buffer beyond l) {ret : ℤ}
    (hret : l.client = .returned ret) :
    ret = 0 ∧ l.received = request.length ∧ l.reads.flatten = request ∧
      spelt l.chunks = request := by
  obtain ⟨hzero, hge⟩ := h.ended ret hret
  have hsent := h.sent
  rw [hret] at hsent
  have hall : l.up.written = request := by
    rw [← hsent]
    exact (List.append_nil _).symm
  have hdown : l.down.written <+: l.up.taken := ⟨_, h.echoed⟩
  have hup : l.up.taken <+: request := hall ▸ l.up.taken_prefix
  have hback : l.down.taken <+: request :=
    (l.down.taken_prefix.trans hdown).trans hup
  have htaken : l.down.taken = request :=
    hback.eq_of_length_le (h.counted ▸ hge)
  have hecho : l.down.written = l.up.taken := by
    refine hdown.eq_of_length_le ?_
    have hle := hup.length_le
    have hge' := l.down.taken_prefix.length_le
    rw [htaken] at hge'
    omega
  have hnone : l.server.unechoed = [] := by
    have := h.echoed
    rw [hecho] at this
    exact List.append_right_eq_self.mp this
  have hscaled : spelt l.chunks = l.up.taken := by
    have := h.scaled
    cases hserver : l.server with
    | scaling chunk =>
        rw [hserver] at hnone
        have hpos := chunk.bytes_pos
        rw [show chunk.bytes = [] from hnone] at hpos
        cases hpos
    | receiving | sending rest | closed =>
        rw [hserver] at this
        simpa [Server.unscaled] using this
  have hpast : request.length ≤ l.up.taken.length := by
    have hle := hdown.length_le
    have hge' := l.down.taken_prefix.length_le
    rw [htaken] at hge'
    omega
  refine ⟨hzero, ?_, h.read.trans htaken, ?_⟩
  · rw [h.counted, htaken]
  · rw [hscaled]
    exact hup.eq_of_length_le hpast

/-- As long as the client is not back, somebody can move. -/
theorem Sound.returned_of_stuck (h : Sound request buffer beyond l)
    (hstuck : (link request beyond).Stuck l) : l.client = .returned 0 := by
  cases hclient : l.client with
  | returned ret => rw [(h.ended ret hclient).1]
  | sending rest =>
      obtain ⟨hne, -⟩ := h.unread rest hclient
      have hmove := hstuck (.clientSend 1)
      simp only [link, step, hclient] at hmove
      rw [if_pos ⟨by omega, List.length_pos_of_ne_nil hne⟩] at hmove
      cases hmove
  | receiving =>
      by_cases hdown : l.down.flight = []
      · cases hserver : l.server with
        | closed =>
            have := h.closed hserver
            rw [hclient] at this
            cases this
        | scaling chunk =>
            have hmove := hstuck .serverScale
            simp only [link, step, hserver] at hmove
            cases hmove
        | sending rest =>
            have hmove := hstuck (.serverSend 1)
            simp only [link, step, hserver] at hmove
            rw [if_pos ⟨by omega,
              List.length_pos_of_ne_nil (h.busy rest hserver)⟩] at hmove
            cases hmove
        | receiving =>
            by_cases hup : l.up.flight = []
            · -- nothing is on the way, so the client has it all
              have hsent := h.sent
              have hechoed := h.echoed
              have hless := sum_lt_of_readEcho
                ((hclient ▸ h.looping : Client.receiving.ret? = _)).symm
              rw [h.sum_reads, h.counted] at hless
              rw [hclient] at hsent
              rw [hserver] at hechoed
              simp only [Stream.written, hup, hdown, Client.unsent,
                Server.unechoed, List.append_nil] at hsent hechoed
              rw [hechoed, hsent] at hless
              omega
            · have hmove := hstuck (.serverRecv 1)
              simp only [link, step, hserver] at hmove
              rw [dif_pos ⟨by omega, by decide,
                List.length_pos_of_ne_nil hup⟩] at hmove
              cases hmove
      · have hmove := hstuck (.clientRecv 1)
        simp only [link, step, hclient] at hmove
        rw [if_pos ⟨by omega, by decide,
          List.length_pos_of_ne_nil hdown⟩] at hmove
        cases hmove

/-! ## How long it can go on -/

def Client.work : Client → ℕ
  | .sending rest => 6 * rest.length + 2
  | .receiving => 1
  | .returned _ => 0

def Server.work : Server → ℕ
  | .scaling chunk => 2 * chunk.bytes.length + 3
  | .sending rest => 2 * rest.length + 2
  | .receiving => 1
  | .closed => 0

/-- A byte costs less from place to place, and who has less to do costs
less. -/
def Link.work (l : Link) : ℕ :=
  l.client.work + 5 * l.up.flight.length + l.server.work + l.down.flight.length

theorem work_loopTest (received echolen : ℕ) :
    (loopTest received echolen).work ≤ 1 := by
  unfold loopTest
  split <;> simp [Client.work]

theorem work_afterSend (rest : List Byte) (received : ℕ) :
    (afterSend request rest received).work ≤ 6 * rest.length + 2 := by
  unfold afterSend
  split
  · have := work_loopTest received request.length
    omega
  · exact le_rfl

theorem work_afterEcho (rest : List Byte) :
    (afterEcho rest).work ≤ 2 * rest.length + 2 := by
  unfold afterEcho
  split <;> simp [Server.work]

theorem work_moved (hmoved : Moved request beyond l l') : l'.work < l.work := by
  cases hmoved with
  | clientSend n rest hclient hpos hle =>
      have hat : l.client.work = 6 * rest.length + 2 := by
        rw [hclient]
        rfl
      have : (afterSend request (rest.drop n) l.received).work ≤ _ :=
        work_afterSend (rest.drop n) l.received
      simp only [Link.work, hat, Stream.put_flight, List.length_append,
        List.length_take, List.length_drop] at this ⊢
      omega
  | clientRecv n hclient hpos hthere =>
      have hat : l.client.work = 1 := by
        rw [hclient]
        rfl
      have := work_loopTest (l.received + n) request.length
      simp only [Link.work, hat, Stream.take_flight, List.length_drop]
      omega
  | clientEnd hclient => simp [Link.work, hclient, Client.work]
  | serverRecv n chunk hserver hpos hthere hchunk =>
      simp only [Link.work, hserver, Server.work, hchunk, Stream.take_flight,
        List.length_take, List.length_drop]
      omega
  | serverScale chunk hserver => simp [Link.work, hserver, Server.work]
  | serverSend n rest hserver hpos hle =>
      have hat : l.server.work = 2 * rest.length + 2 := by
        rw [hserver]
        rfl
      have := work_afterEcho (rest.drop n)
      simp only [Link.work, hat, Stream.put_flight, List.length_append,
        List.length_take, List.length_drop] at this ⊢
      omega
  | serverEnd hserver => simp [Link.work, hserver, Server.work]

/-- A request goes round without a change. At every moment of every run the
bytes are where `Sound` says, the server has sent back a part of what it got
from the front, and a client that is back has read the whole request, which
has been handed to `SetTimeScale`. No run is longer than a multiple of the
request, and it does not end before the client is back. -/
theorem request_comes_back {ms : List Move}
    (hrun : (link request beyond).run (start request buffer) ms = some l) :
    (l.up.written ++ l.client.unsent = request ∧
      l.down.written ++ l.server.unechoed = l.up.taken ∧
      l.reads.flatten = l.down.taken) ∧
    l.down.written <+: l.up.taken ∧
    (∀ ret, l.client = .returned ret →
      ret = 0 ∧ l.received = request.length ∧ l.reads.flatten = request ∧
        spelt l.chunks = request) ∧
    l.client.ret? = readEcho request.length 0
      (l.reads.map fun bytes => (bytes.length : ℤ)) ∧
    l.calls = (handleClient beyond buffer
      (l.chunks.map (Recv.data · true))).1 ∧
    ms.length ≤ 6 * request.length + 3 ∧
    ((link request beyond).Stuck l → l.client = .returned 0) := by
  have h : Sound request buffer beyond l :=
    (link request beyond).run_inv
      (fun _ _ _ h hstep => sound_moved h (moved_of_step hstep)) sound_start hrun
  have hlen : ms.length + l.work ≤ (start request buffer).work :=
    (link request beyond).run_length_le
      (fun _ _ _ hstep => work_moved (moved_of_step hstep)) hrun
  have hwork : (start request buffer).work ≤ 6 * request.length + 3 := by
    have : (afterSend request request 0).work ≤ 6 * request.length + 2 :=
      work_afterSend request 0
    simp only [start, Link.work, Server.work, List.length_nil]
    omega
  exact ⟨⟨h.sent, h.echoed, h.read⟩, ⟨_, h.echoed⟩, fun _ hret => h.returned hret,
    h.looping, h.called, by omega, h.returned_of_stuck⟩

end Steps

/-- A request of two bytes, of which one travels ahead of the other. -/
def twoBytes : List Move :=
  [.clientSend 1, .serverRecv 1, .clientSend 1, .serverScale, .serverSend 1,
    .clientRecv 1, .serverRecv 1, .serverScale, .serverSend 1, .clientRecv 1,
    .serverEnd]

def bothBack : Link where
  client := .returned 0
  received := 2
  server := .closed
  buffer := [50]
  up := ⟨[49, 50], []⟩
  down := ⟨[49, 50], []⟩
  reads := [[49], [50]]
  chunks := [⟨[49], by decide, by decide⟩, ⟨[50], by decide, by decide⟩]
  calls := [times [49] [], times [50] []]

theorem two_bytes_come_back :
    (link [49, 50] []).run (start [49, 50] []) twoBytes = some bothBack ∧
      bothBack.reads.flatten = [49, 50] ∧
      spelt bothBack.chunks = [49, 50] := by
  have hrun : (link [49, 50] []).run (start [49, 50] []) twoBytes =
      some bothBack := rfl
  obtain ⟨-, -, hret, -⟩ := request_comes_back hrun
  obtain ⟨-, -, hread, hspelt⟩ := hret 0 rfl
  exact ⟨hrun, hread, hspelt⟩

end Elfupspeed.Connection
