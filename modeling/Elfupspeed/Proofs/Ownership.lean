import Elfupspeed.Src.Client

/-!
# Whose descriptor `listener` is

There is one way in which the client keeps its descriptors in order: a thread
sees an event of the connection, closes `listener` and sets it to -1. The two
entry points spoil it. `closeClient` closes the number and leaves it in
`listener`, where it is soon somebody else's, and `startClient` writes over a
number that nobody can close after that.

So the books are right as long as the first finds nothing to close and the
second nothing to write over. That this is also necessary is seen one step
after either of them.
-/

namespace Elfupspeed.Client

open Elfupspeed.Lib Elfupspeed.Lib.Prog

/-- `listener` is the number of the `id`th socket. -/
def Process.Names (c : Process) (id : ℕ) : Prop :=
  c.file c.listener = some (.own id)

/-- The books: a `listener` above 1 is the number of an open socket, and every
other socket was closed, once. -/
structure Owned (c : Process) : Prop where
  named : 1 < c.listener → ∃ id, c.Names id
  held : ∀ id, c.Names id → c.descriptors.closed.count id = 0
  once : ∀ id < c.descriptors.opened, ¬ c.Names id →
    c.descriptors.closed.count id = 1

def Action.OnOwn : Action → Prop
  | .closed file | .wrote file _ => ∃ id, file = some (.own id)
  | .recv _ => True

/-- The books are right after the step, which closed and wrote to nothing but
sockets of the client, and did not end with a message. -/
structure Proper (x : Process × Event × List Action) : Prop where
  owned : (process.step x.1 x.2.1).1.exited = false →
    Owned (process.step x.1 x.2.1).1
  onOwn : ∀ action ∈ x.2.2, action.OnOwn
  survives : ∀ bytes, .recv (some bytes) ∈ x.2.2 →
    (process.step x.1 x.2.1).1.exited = false

/-- No call of `startClient` fails that is asked whether it did. -/
def Answers.Succeed (a : Answers) (c : Process) (fd epfd : Fd) : Prop :=
  a.socket = some fd ∧ c.descriptors.file fd = none ∧ a.fcntlOk = true ∧
    a.connectOk = true ∧ a.epollCreate = some epfd ∧ epfd ≠ fd ∧
    c.descriptors.file epfd = none ∧ a.ctlOk = true

/-- `closeClient` is called when there is nothing to close, and `startClient`
comes to its end when there is nothing to lose. -/
def Process.Tidy (c : Process) : Event → Prop
  | .closeClient => c.exited = false → c.listener ≤ 1
  | .startClient a => c.exited = false →
      (∃ fd epfd, a.Succeed c fd epfd) → ∀ id, ¬ c.Names id
  | .sendMessageToServer | .epollWait .. | .startThread .. | .otherOpen _
  | .otherClose _ => True

/-! ## The programs -/

def Process.started (c : Process) (a : Answers) (fd epfd : Fd) : Process :=
  { c with
    listener := fd
    epfd := epfd
    descriptors := (c.descriptors.openOwn fd).openOther epfd
    registrations := c.registrations ++ [⟨epfd, ⟨c.ev.events, fd⟩⟩]
    ev := ⟨epollIn ||| epollEt ||| epollErr ||| epollHup, fd⟩
    threads := if a.pthreadOk then c.threads ++ [.waiting epfd] else c.threads }

/-- What a thread leaves that has closed `listener`. -/
def Process.givenUp (c : Process) : Process :=
  { c with
    listener := -1
    descriptors := c.descriptors.close c.listener.toNat
    actions := c.actions ++ [.closed (c.file c.listener)] }

section Runs

variable {a : Answers} {c c' : Process}

theorem chk_bind_ok {α : Type} {ok : Bool} {f : PUnit → Prog Process ℤ α} {x : α} :
    (chk ok >>= f).run c = (.ok x, c') ↔
      ok = true ∧ (f ⟨⟩).run c = (.ok x, c') := run_require_bind_eq_ok

theorem chk_run : (chk true).run c = (.ok ⟨⟩, c) := rfl

theorem allocate_ok {opens : Descriptors → Fd → Descriptors}
    {answer : Option Fd} {r : ℤ} :
    (allocate opens answer).run c = (.ok r, c') ∧ 0 ≤ r ↔
      ∃ fd : Fd, answer = some fd ∧ c.descriptors.file fd = none ∧ r = fd ∧
        c' = { c with descriptors := opens c.descriptors fd } := by
  rw [allocate, run_bind_ok (run_get c)]
  constructor
  · intro h
    obtain ⟨h, hpos⟩ := h
    split at h
    · next fd =>
        split at h
        · next hfree =>
            rw [run_bind_ok (run_modify _ c), run_pure] at h
            cases h
            exact ⟨fd, rfl, hfree, rfl, rfl⟩
        · cases h
          omega
    · cases h
      omega
  · intro h
    obtain ⟨fd, rfl, hfree, rfl, rfl⟩ := h
    simp only [if_pos hfree]
    exact ⟨rfl, by omega⟩

theorem file_openOwn_eq_none {d : Descriptors} {fd fd' : ℕ} :
    (d.openOwn fd).file fd' = none ↔ fd' ≠ fd ∧ d.file fd' = none := by
  by_cases h : fd' = fd
  · simp [Descriptors.openOwn, h]
  · simp [Descriptors.openOwn, h]

/-- `startClient` comes to its end just when nothing fails. -/
theorem startClient_ok {u : String} :
    (startClient a).run c = (.ok u, c') ↔ u = "dddd" ∧
      ∃ fd epfd, a.Succeed c fd epfd ∧ c' = c.started a fd epfd := by
  rw [startClient, run_bind_eq_ok]
  constructor
  · intro h
    obtain ⟨r, c₁, hsocket, h⟩ := h
    rw [run_bind_ok (run_modify _ _), chk_bind_ok, setnonblocking, chk_bind_ok,
      chk_bind_ok, run_bind_eq_ok] at h
    obtain ⟨hpos, hfcntl, hconnect, r', c₂, hepoll, h⟩ := h
    rw [run_bind_ok (run_modify _ _), chk_bind_ok, run_bind_ok (run_modify _ _),
      chk_bind_ok, run_bind_ok (run_modify _ _), run_bind_ok (run_modify _ _),
      run_bind_ok (run_modify _ _), run_pure] at h
    obtain ⟨hpos', hctl, h⟩ := h
    obtain ⟨fd, hfd, hfree, rfl, rfl⟩ :=
      allocate_ok.mp ⟨hsocket, by simpa using hpos⟩
    obtain ⟨epfd, hepfd, hfree', rfl, rfl⟩ :=
      allocate_ok.mp ⟨hepoll, by simpa using hpos'⟩
    obtain ⟨hne, hnone⟩ := file_openOwn_eq_none.mp hfree'
    cases h
    exact ⟨rfl, fd, epfd, ⟨hfd, hfree, hfcntl, hconnect, hepfd, hne, hnone,
      hctl⟩, rfl⟩
  · rintro ⟨rfl, fd, epfd, ⟨hfd, hfree, hfcntl, hconnect, hepfd, hne, hnone,
      hctl⟩, rfl⟩
    have hsocket : (socket a.socket).run c = (.ok (fd : ℤ),
        { c with descriptors := c.descriptors.openOwn fd }) :=
      (allocate_ok.mpr ⟨fd, hfd, hfree, rfl, rfl⟩).1
    refine ⟨fd, _, hsocket, ?_⟩
    rw [run_bind_ok (run_modify _ _), chk_bind_ok, setnonblocking, chk_bind_ok,
      chk_bind_ok, run_bind_eq_ok]
    have hepoll : (epollCreate a.epollCreate).run { c with
        listener := fd
        descriptors := c.descriptors.openOwn fd } = (.ok (epfd : ℤ), { c with
          listener := fd
          descriptors := (c.descriptors.openOwn fd).openOther epfd }) :=
      (allocate_ok.mpr
        ⟨epfd, hepfd, file_openOwn_eq_none.mpr ⟨hne, hnone⟩, rfl, rfl⟩).1
    refine ⟨by simp, hfcntl, hconnect, epfd, _, hepoll, ?_⟩
    rw [run_bind_ok (run_modify _ _), chk_bind_ok, run_bind_ok (run_modify _ _),
      chk_bind_ok, run_bind_ok (run_modify _ _), run_bind_ok (run_modify _ _),
      run_bind_ok (run_modify _ _), run_pure]
    exact ⟨by simp, hctl, rfl⟩

/-- A relation that a program keeps which touches nothing outside. -/
def SameActions (c c' : Process) : Prop := c'.actions = c.actions

instance : Std.Refl SameActions := ⟨fun _ => rfl⟩

instance : IsTrans Process SameActions := ⟨fun _ _ _ h h' => h'.trans h⟩

theorem allocate_keeps (opens : Descriptors → Fd → Descriptors)
    (answer : Option Fd) : Keeps SameActions (allocate opens answer) := by
  refine keeps_bind keeps_get fun c => ?_
  split
  · split
    · exact keeps_bind (keeps_modify fun _ => rfl) fun _ => keeps_pure _
    · exact keeps_pure _
  · exact keeps_pure _

theorem startClient_keeps (a : Answers) : Keeps SameActions (startClient a) := by
  refine keeps_bind (allocate_keeps _ _) fun _ =>
    keeps_bind (keeps_modify fun _ => rfl) fun _ =>
    keeps_bind keeps_require fun _ => keeps_bind keeps_require fun _ =>
    keeps_bind keeps_require fun _ => ?_
  exact keeps_bind (allocate_keeps _ _) fun _ =>
    keeps_bind (keeps_modify fun _ => rfl) fun _ =>
    keeps_bind keeps_require fun _ =>
    keeps_bind (keeps_modify fun _ => rfl) fun _ =>
    keeps_bind keeps_require fun _ =>
    keeps_bind (keeps_modify fun _ => rfl) fun _ =>
    keeps_bind (keeps_modify fun _ => rfl) fun _ =>
    keeps_bind (keeps_modify fun _ => rfl) fun _ => keeps_pure _

theorem closeClient_run (h : 1 < c.listener) :
    closeClient.run c = (.ok "closed", { c with
      descriptors := c.descriptors.close c.listener.toNat
      actions := c.actions ++ [.closed (c.file c.listener)] }) := by
  rw [closeClient, run_bind_ok (run_get c), if_pos h]
  have hpos : 0 ≤ c.listener := by omega
  change (Except.ok "closed", { c with
    descriptors := if 0 ≤ c.listener then _ else _
    actions := _ }) = _
  rw [if_pos hpos]

theorem closeClient_run_of_le (h : c.listener ≤ 1) :
    closeClient.run c = (.ok "closed", c) := by
  rw [closeClient, run_bind_ok (run_get c), if_neg (by omega)]
  rfl

theorem sendMessageToServer_run (h : 1 < c.listener) :
    sendMessageToServer.run c = (.ok "OK", { c with
      actions := c.actions ++ [.wrote (c.file c.listener) mess] }) := by
  rw [sendMessageToServer, run_bind_ok (run_get c), if_pos h]
  rfl

theorem sendMessageToServer_run_of_le (h : c.listener ≤ 1) :
    sendMessageToServer.run c = (.ok "FAIL", c) := by
  rw [sendMessageToServer, run_bind_ok (run_get c), if_neg (by omega)]
  rfl

/-- A round that is not about `listener` does nothing. -/
theorem startThread_run_of_ne {i : ℕ} (answer : Option (List Byte))
    (h : (c.events.getD i {}).fd ≠ c.listener) :
    (startThread i answer).run c = (.ok false, c) := by
  rw [startThread, run_bind_ok (run_get c), if_neg h]
  rfl

/-- With `EPOLLHUP` in `ev` a round closes an open `listener` and returns,
whatever the event. -/
theorem startThread_run {i : ℕ} (answer : Option (List Byte))
    (h : (c.events.getD i {}).fd = c.listener)
    (hhup : c.ev.events &&& epollHup ≠ 0) {file : File}
    (hfile : c.file c.listener = some file) :
    (startThread i answer).run c = (.ok true, c.givenUp) := by
  have hpos : 0 ≤ c.listener := by
    by_contra hneg
    rw [Process.file, if_neg hneg] at hfile
    cases hfile
  have hclose : (close c.listener).run c = (.ok true, { c with
      descriptors := c.descriptors.close c.listener.toNat
      actions := c.actions ++ [.closed (c.file c.listener)] }) := by
    change (Except.ok (c.file c.listener).isSome, { c with
      descriptors := if 0 ≤ c.listener then _ else _
      actions := _ }) = _
    rw [if_pos hpos, hfile]
    rfl
  rw [startThread, run_bind_ok (run_get c), if_pos h, if_pos hhup,
    run_bind_ok hclose, run_bind_ok chk_run]
  rfl

end Runs

/-! ## The books -/

structure Books (c : Process) : Prop where
  kept : c.descriptors.Kept
  listener : c.listener = -1 ∨ ∃ id, c.Names id
  only : ∀ id, c.descriptors.IsOpen id → c.Names id
  hup : c.threads ≠ [] → c.ev.events &&& epollHup ≠ 0
  reported : ∀ e ∈ c.events, 0 ≤ e.fd
  registered : ∀ r ∈ c.registrations, 0 ≤ r.event.fd

section Books

variable {c : Process}

theorem file_natCast (fd : ℕ) : c.file (fd : ℤ) = c.descriptors.file fd := by
  rw [Process.file, if_pos (by omega), Int.toNat_natCast]

theorem file_eq_some {fd : ℤ} {file : File} (h : c.file fd = some file) :
    0 ≤ fd ∧ c.descriptors.file fd.toNat = some file := by
  unfold Process.file at h
  split at h
  · next hpos => exact ⟨hpos, h⟩
  · cases h

theorem Books.owned (h : Books c) : Owned c where
  named hlt := h.listener.resolve_left (by omega)
  held id hid := h.kept.here id ⟨_, (file_eq_some hid).2⟩
  once id hlt hnot := h.kept.gone id hlt fun hopen => hnot (h.only id hopen)

theorem Books.started (h : Books c) {a : Answers} {fd epfd : Fd}
    (ha : a.Succeed c fd epfd) (hnone : ∀ id, ¬ c.Names id) :
    Books (c.started a fd epfd) := by
  obtain ⟨-, hfree, -, -, -, hne, hfree', -⟩ := ha
  have hfree₂ : (c.descriptors.openOwn fd).file epfd = none :=
    file_openOwn_eq_none.mpr ⟨hne, hfree'⟩
  have hnames : (c.started a fd epfd).Names c.descriptors.opened := by
    rw [Process.Names, show (c.started a fd epfd).listener = (fd : ℤ) from rfl,
      file_natCast]
    exact (Descriptors.file_openOther hfree₂).mpr (Function.update_self fd _ _)
  refine ⟨(h.kept.openOwn hfree).openOther hfree₂, .inr ⟨_, hnames⟩, ?_,
    fun _ => ?_, h.reported, ?_⟩
  · rintro id ⟨fd', hid⟩
    have hopen : (c.descriptors.openOwn fd).IsOpen id :=
      ⟨fd', (Descriptors.file_openOther hfree₂).mp hid⟩
    rcases (Descriptors.isOpen_openOwn hfree).mp hopen with rfl | hopen
    · exact hnames
    · exact absurd (h.only id hopen) (hnone id)
  · change (epollIn ||| epollEt ||| epollErr ||| epollHup) &&& epollHup ≠ 0
    decide
  · intro r hr
    rcases List.mem_append.mp hr with hr | hr
    · exact h.registered r hr
    · rw [List.mem_singleton.mp hr]
      exact Int.natCast_nonneg fd

/-- A thread that closes `listener` has closed the only open socket. -/
theorem Books.givenUp (h : Books c) {id : ℕ} (hid : c.Names id) :
    Books c.givenUp := by
  obtain ⟨-, hfile⟩ := file_eq_some hid
  refine ⟨h.kept.close _, .inl rfl, ?_, h.hup, h.reported, h.registered⟩
  rintro id' ⟨fd', hid'⟩
  obtain ⟨hne, hopen⟩ := Descriptors.file_close.mp hid'
  have hnames := (file_eq_some (h.only id' ⟨fd', hopen⟩)).2
  exact absurd (h.kept.inj _ _ id' hopen hnames) hne

/-- The books are not about what was done outside. -/
theorem Books.of_actions (h : Books c) (actions : List Action) :
    Books { c with actions := actions } :=
  ⟨h.kept, h.listener, h.only, h.hup, h.reported, h.registered⟩

theorem Books.setThread (h : Books c) (t : ℕ) (thread : Thread) :
    Books (c.setThread t thread) := by
  refine ⟨h.kept, h.listener, h.only, fun hne => h.hup ?_, h.reported,
    h.registered⟩
  intro hnil
  apply hne
  rw [Process.setThread, hnil]
  rfl

/-- What stands for something of the client is not touched by what the rest of
the process does. -/
theorem Books.of_file (h : Books c) {d : Descriptors} (hkept : d.Kept)
    (hfile : ∀ fd id, d.file fd = some (.own id) ↔
      c.descriptors.file fd = some (.own id)) :
    Books { c with descriptors := d } := by
  have hnames : ∀ id, Process.Names { c with descriptors := d } id ↔
      c.Names id := by
    intro id
    unfold Process.Names Process.file
    split
    · exact hfile _ id
    · exact Iff.rfl
  refine ⟨hkept, h.listener.imp_right fun ⟨id, hid⟩ => ⟨id, (hnames id).mpr hid⟩,
    fun id hopen => (hnames id).mpr (h.only id ?_), h.hup, h.reported,
    h.registered⟩
  obtain ⟨fd, hid⟩ := hopen
  exact ⟨fd, (hfile fd id).mp hid⟩

/-- What the books ask of the state `c'` that a step leaves. -/
structure Leaves (c' : Process) : Prop where
  books : c'.exited = false → Books c'
  onOwn : ∀ action ∈ c'.actions, action.OnOwn
  survives : ∀ bytes, .recv (some bytes) ∈ c'.actions → c'.exited = false

theorem leaves_of_quiet {c' : Process} (hbooks : c'.exited = false → Books c')
    (hactions : c'.actions = []) : Leaves c' where
  books := hbooks
  onOwn action haction := by
    rw [hactions] at haction
    cases haction
  survives bytes hbytes := by
    rw [hactions] at hbytes
    cases hbytes

theorem leaves_startClient (h : Books c) (hactions : c.actions = [])
    (hexited : c.exited = false) {a : Answers} (htidy : c.Tidy (.startClient a)) :
    Leaves (c.after (startClient a)) := by
  unfold Process.after
  cases hrun : (startClient a).run c with
  | mk r c' =>
      cases r with
      | ok u =>
          obtain ⟨-, fd, epfd, ha, rfl⟩ := startClient_ok.mp hrun
          exact leaves_of_quiet
            (fun _ => h.started ha (htidy hexited ⟨fd, epfd, ha⟩)) hactions
      | error e =>
          have hsame : c'.actions = c.actions := (startClient_keeps a).of_run hrun
          exact leaves_of_quiet (fun hno => by cases hno) (hsame.trans hactions)

theorem leaves_sendMessageToServer (h : Books c) (hactions : c.actions = []) :
    Leaves (c.after sendMessageToServer) := by
  unfold Process.after
  by_cases hlt : 1 < c.listener
  · rw [sendMessageToServer_run hlt]
    obtain ⟨id, hid⟩ := h.owned.named hlt
    refine ⟨fun _ => h.of_actions _, ?_, ?_⟩
    · intro action haction
      simp only [hactions, List.nil_append, List.mem_singleton] at haction
      rw [haction]
      exact ⟨id, hid⟩
    · intro bytes hbytes
      simp [hactions] at hbytes
  · rw [sendMessageToServer_run_of_le (by omega)]
    exact leaves_of_quiet (fun _ => h) hactions

theorem Books.epollWait (h : Books c) {epfd : ℤ} {events : List EpollEvent}
    (hreports : c.Reports epfd events) (t : ℕ) :
    Books { c.setThread t (.looping 0) with
      events := events ++ c.events.drop events.length
      epollEventsCount := events.length } := by
  obtain ⟨hkept, hlistener, honly, hhup, -, hregistered⟩ :=
    h.setThread t (.looping 0)
  refine ⟨hkept, hlistener, honly, hhup, ?_, hregistered⟩
  intro e he
  rcases List.mem_append.mp he with he | he
  · obtain ⟨r, hr, -, heq⟩ := hreports.2.2 e he
    exact heq ▸ h.registered r hr
  · exact h.reported e (List.mem_of_mem_drop he)

theorem leaves_round (h : Books c) (hactions : c.actions = [])
    (hthreads : c.threads ≠ []) (t i : ℕ) (answer : Option (List Byte)) :
    Leaves (c.round t i answer) := by
  unfold Process.round
  by_cases hfd : (c.events.getD i {}).fd = c.listener
  · have hpos : 0 ≤ c.listener := by
      rw [← hfd, List.getD_eq_getElem?_getD]
      cases hget : c.events[i]? with
      | none => exact Int.le_refl 0
      | some e => exact h.reported e (List.mem_of_getElem? hget)
    obtain ⟨id, hid⟩ := h.listener.resolve_left (by omega)
    rw [startThread_run answer hfd (h.hup hthreads) hid]
    refine ⟨fun _ => (h.givenUp hid).setThread t .ended, ?_, ?_⟩
    · intro action haction
      simp only [Process.setThread, Process.givenUp, hactions, List.nil_append,
        List.mem_singleton] at haction
      rw [haction]
      exact ⟨id, hid⟩
    · intro bytes hbytes
      simp [Process.setThread, Process.givenUp, hactions] at hbytes
  · rw [startThread_run_of_ne answer hfd]
    exact leaves_of_quiet (fun _ => h.setThread t _) hactions

/-- A tidy step keeps the books. -/
theorem leaves_next (h : Books c) (hactions : c.actions = [])
    (hexited : c.exited = false) {e : Event} (htidy : c.Tidy e) :
    Leaves (c.next e) := by
  cases e with
  | startClient a => exact leaves_startClient h hactions hexited htidy
  | closeClient =>
      rw [Process.next, Process.after, closeClient_run_of_le (htidy hexited)]
      exact leaves_of_quiet (fun _ => h) hactions
  | sendMessageToServer => exact leaves_sendMessageToServer h hactions
  | epollWait t events =>
      simp only [Process.next]
      split
      · exact leaves_of_quiet (fun hno => by cases hno) hactions
      · split
        · next hreports =>
            exact leaves_of_quiet (fun _ => h.epollWait hreports t) hactions
        · exact leaves_of_quiet (fun _ => h) hactions
      · exact leaves_of_quiet (fun _ => h) hactions
  | startThread t answer =>
      simp only [Process.next]
      split
      · next i hthread =>
          split
          · refine leaves_round h hactions (fun hnil => ?_) t i answer
            rw [hnil] at hthread
            cases hthread
          · exact leaves_of_quiet (fun _ => h.setThread t _) hactions
      · exact leaves_of_quiet (fun _ => h) hactions
  | otherOpen fd =>
      simp only [Process.next]
      split
      · next hfree =>
          exact leaves_of_quiet (fun _ => h.of_file (h.kept.openOther hfree)
            fun _ _ => Descriptors.file_openOther hfree) hactions
      · exact leaves_of_quiet (fun _ => h) hactions
  | otherClose fd =>
      simp only [Process.next]
      split
      · next hother =>
          refine leaves_of_quiet (fun _ => h.of_file (h.kept.close fd)
            fun fd' id => ?_) hactions
          rw [Descriptors.file_close, and_iff_right_iff_imp]
          rintro hown rfl
          rw [hother] at hown
          cases hown
      · exact leaves_of_quiet (fun _ => h) hactions

/-- What goes wrong goes wrong in the very step. -/
theorem tidy_of_owned (h : Books c) (e : Event)
    (howned : (c.next e).exited = false → Owned (c.next e)) : c.Tidy e := by
  cases e with
  | closeClient =>
      intro hexited
      by_contra hle
      have hlt : 1 < c.listener := by omega
      have hrun := closeClient_run hlt
      rw [Process.next, Process.after, hrun] at howned
      obtain ⟨id, hid⟩ := (howned hexited).named hlt
      obtain ⟨-, hfile⟩ := file_eq_some hid
      exact absurd rfl (Descriptors.file_close.mp hfile).1
  | startClient a =>
      rintro hexited ⟨fd, epfd, ha⟩ id hid
      have hrun := startClient_ok.mpr ⟨rfl, fd, epfd, ha, rfl⟩
      rw [Process.next, Process.after, hrun] at howned
      obtain ⟨-, hfile⟩ := file_eq_some hid
      have hlt := h.kept.lt _ id hfile
      have hnot : ¬ (c.started a fd epfd).Names id := by
        intro hnames
        obtain ⟨-, hfree, -, -, -, hne, hfree', -⟩ := ha
        have hfree₂ : (c.descriptors.openOwn fd).file epfd = none :=
          file_openOwn_eq_none.mpr ⟨hne, hfree'⟩
        rw [Process.Names, show (c.started a fd epfd).listener = (fd : ℤ) from rfl,
          file_natCast] at hnames
        have hown := (Descriptors.file_openOther hfree₂).mp hnames
        simp only [Descriptors.openOwn, Function.update_self, Option.some.injEq,
          File.own.injEq] at hown
        omega
      have honce := (howned hexited).once id (Nat.lt_succ_of_lt hlt) hnot
      have hheld := h.owned.held id hid
      rw [show (c.started a fd epfd).descriptors.closed = c.descriptors.closed
        from rfl] at honce
      omega
  | sendMessageToServer | epollWait | startThread | otherOpen | otherClose =>
      trivial

theorem books_start (others : List Fd) : Books (start others) where
  kept := by
    have hnone : ∀ fd id, (start others).descriptors.file fd ≠ some (.own id) := by
      intro fd id
      simp only [start]
      split <;> exact fun heq => by cases heq
    exact ⟨fun fd id hid => absurd hid (hnone fd id),
      fun fd _ id hid => absurd hid (hnone fd id), fun _ _ => rfl,
      fun _ _ => rfl, fun id hid => by cases hid⟩
  listener := .inl rfl
  only id := by
    intro h
    obtain ⟨fd, hid⟩ := h
    simp only [start] at hid
    split at hid <;> cases hid
  hup hne := absurd rfl hne
  reported e he := by cases he
  registered r hr := by cases hr

theorem process_step_of_exited (hexited : c.exited = true) (e : Event) :
    process.step c e = (c, []) := by
  simp only [process]
  rw [if_pos hexited]

/-- What has ended stays as it is. -/
theorem proper_of_exited (hexited : c.exited = true) (e : Event) :
    Proper (c, e, (process.step c e).2) ∧ c.Tidy e := by
  have hstep := process_step_of_exited hexited e
  rw [hstep]
  refine ⟨⟨fun hno => ?_, fun action haction => absurd haction List.not_mem_nil,
    fun bytes hbytes => absurd hbytes List.not_mem_nil⟩, ?_⟩
  · rw [hstep, hexited] at hno
    cases hno
  · cases e with
    | closeClient =>
        intro hno
        rw [hexited] at hno
        cases hno
    | startClient a =>
        intro hno
        rw [hexited] at hno
        cases hno
    | sendMessageToServer | epollWait | startThread | otherOpen | otherClose =>
        trivial

theorem process_step (hexited : c.exited = false) (e : Event) :
    process.step c e = (Process.next { c with actions := [] } e,
      (Process.next { c with actions := [] } e).actions) := by
  simp only [process]
  rw [if_neg (by rw [hexited]; exact Bool.false_ne_true)]

theorem proper_iff_tidy (h : c.exited = false → Books c) (e : Event) :
    (Proper (c, e, (process.step c e).2) ↔ c.Tidy e) ∧
      (c.Tidy e → (process.step c e).1.exited = false →
        Books (process.step c e).1) := by
  cases hexited : c.exited with
  | true =>
      obtain ⟨hproper, htidy⟩ := proper_of_exited hexited e
      refine ⟨iff_of_true hproper htidy, fun _ hno => ?_⟩
      rw [process_step_of_exited hexited, hexited] at hno
      cases hno
  | false =>
      have hbooks : Books { c with actions := [] } := (h hexited).of_actions []
      have htidy : Process.Tidy { c with actions := [] } e ↔ c.Tidy e := by
        cases e <;> exact Iff.rfl
      rw [← htidy]
      refine ⟨⟨fun hproper => ?_, fun ht => ?_⟩, fun ht hno => ?_⟩
      · have howned := hproper.owned
        rw [process_step hexited e] at howned
        exact tidy_of_owned hbooks e howned
      · have hleaves := leaves_next hbooks rfl hexited ht
        have hstep := process_step hexited e
        constructor
        · intro hno
          rw [hstep] at hno ⊢
          exact (hleaves.books hno).owned
        · rw [hstep]
          exact hleaves.onOwn
        · rw [hstep]
          exact hleaves.survives
      · rw [process_step hexited e] at hno ⊢
        exact (leaves_next hbooks rfl hexited ht).books hno

end Books

/-- A run keeps the books right in each of its steps if and only if it closes
and starts only when there is nothing to close and nothing to lose. -/
theorem proper_iff (others : List Fd) (es : List Event) :
    (∀ x ∈ process.trace (start others) es, Proper x) ↔
      ∀ x ∈ process.trace (start others) es, x.1.Tidy x.2.1 :=
  process.forall_trace_iff (I := fun c => c.exited = false → Books c)
    (fun _ e h => (proper_iff_tidy h e).1)
    (fun _ e h htidy => (proper_iff_tidy h e).2 htidy)
    (fun _ => books_start others) es

/-- The number of a socket that was closed, which something else has now, is
still where messages go. -/
theorem closed_number_written :
    ¬ ∀ (others : List Fd) (es : List Event),
      ∀ x ∈ process.trace (start others) es, Proper x := by
  intro h
  have hlast := (h [0, 1, 2] [.startClient { socket := some 3, epollCreate := some 4 },
    .closeClient, .otherOpen 3, .sendMessageToServer] _
    (List.getElem_mem (n := 3) (by decide))).onOwn (.wrote (some .other) mess)
    (by decide +kernel)
  obtain ⟨id, hid⟩ := hlast
  cases hid

end Elfupspeed.Client
