import Elfupspeed.Proofs.Buffers
import Elfupspeed.Src.Sockets

/-!
# The descriptor a failed request keeps

What `find_pid_of` opens it closes, whatever it finds. `upspeed` closes its
socket in the last line but one, and each of the three returns between
`socket` and there leaves it open; nothing else knows its number. A call that
fails earlier has no socket yet, and one that returns 0 has closed it, after
the whole echo. So the table is as it was exactly when no socket was opened, or
nothing failed after that.
-/

namespace Elfupspeed.Sockets

open Elfupspeed.Lib Elfupspeed.Lib.CString
open Elfupspeed.Buffers (two)
open Elfupspeed.ServerClient (strangerOnly)

variable {d d' : Descriptors} {fd : Fd} {call : Call}

/-! ## What is closed again -/

theorem allocate_cases (answer : Option Fd) (d : Descriptors) :
    (∃ fd, answer = some fd ∧ d.file fd = none ∧
      (allocate answer).run d = (.ok (some fd), d.openOwn fd)) ∨
    (∀ fd, answer = some fd → d.file fd ≠ none) ∧
      (allocate answer).run d = (.ok none, d) := by
  cases answer with
  | none => exact .inr ⟨fun fd h => (by cases h), rfl⟩
  | some fd =>
      by_cases hfree : d.file fd = none
      · refine .inl ⟨fd, rfl, hfree, ?_⟩
        rw [allocate, Prog.run_bind_ok (Prog.run_get d)]
        simp only [if_pos hfree]
        rfl
      · refine .inr ⟨fun fd' h => ?_, ?_⟩
        · cases h
          exact hfree
        · rw [allocate, Prog.run_bind_ok (Prog.run_get d)]
          simp only [if_neg hfree]
          rfl

/-- Every file in `/proc` could be opened. -/
def Grants (call : Call) (d : Descriptors) : Prop :=
  ∀ id, ∃ fd, call.fopen id = some fd ∧ d.file fd = none

theorem fopen_cases (call : Call) (id : ℤ) (d : Descriptors) :
    (∃ fd file, call.table.fopen id = some file ∧ d.file fd = none ∧
      (fopen call id).run d = (.ok (some (fd, file)), d.openOwn fd)) ∨
    (Grants call d → call.table.fopen id = none) ∧
      (fopen call id).run d = (.ok none, d) := by
  cases hfile : call.table.fopen id with
  | none =>
      refine .inr ⟨fun _ => rfl, ?_⟩
      simp only [fopen, hfile]
      rfl
  | some file =>
      rcases allocate_cases (call.fopen id) d with
        ⟨fd, -, hfree, hrun⟩ | ⟨hnot, hrun⟩
      · refine .inl ⟨fd, file, rfl, hfree, ?_⟩
        simp only [fopen, hfile]
        rw [Prog.run_bind_ok hrun]
        rfl
      · refine .inr ⟨fun hgrants => ?_, ?_⟩
        · obtain ⟨fd, hanswer, hfree⟩ := hgrants id
          exact absurd hfree (hnot fd hanswer)
        · simp only [fopen, hfile]
          rw [Prog.run_bind_ok hrun]
          rfl

/-- The loop leaves the table as it was, and it finds what it would find if
descriptors were not counted. -/
theorem findLoop_run (call : Call) (name : List Byte)
    (entries : List ServerClient.DirEntry) (cmdline : List Byte)
    (d : Descriptors) :
    ∃ pid d', (findLoop call name entries cmdline).run d = (.ok pid, d') ∧
      d'.file = d.file ∧
      (Grants call d →
        pid = ServerClient.findLoop call.table name entries cmdline) := by
  induction entries generalizing cmdline d with
  | nil => exact ⟨-1, d, rfl, rfl, fun _ => rfl⟩
  | cons entry entries ih =>
      rw [findLoop, ServerClient.findLoop]
      by_cases hid : atoi entry.dName ≠ 0
      · simp only [if_pos hid]
        rcases fopen_cases call (atoi entry.dName) d with
          ⟨fd, file, hfile, hfree, hrun⟩ | ⟨hnone, hrun⟩
        · have hclose : ∀ k : PUnit → Sys ℤ, (close fd >>= k).run (d.openOwn fd) =
              (k ⟨⟩).run ((d.openOwn fd).close fd) :=
            fun k => Prog.run_bind_ok rfl
          have hsame := Descriptors.file_close_openOwn hfree
          simp only [Prog.run_bind_ok hrun, hclose, hfile]
          by_cases hname : cstr name = cstr (ServerClient.readCmdline cmdline file)
          · simp only [if_pos hname]
            exact ⟨_, _, rfl, hsame, fun _ => rfl⟩
          · simp only [if_neg hname]
            obtain ⟨pid, d', hloop, hfile', hpid⟩ :=
              ih (ServerClient.readCmdline cmdline file) ((d.openOwn fd).close fd)
            refine ⟨pid, d', hloop, hfile'.trans hsame, fun hgrants => hpid ?_⟩
            unfold Grants
            rwa [hsame]
        · obtain ⟨pid, d', hloop, hfile', hpid⟩ := ih cmdline d
          refine ⟨pid, d', ?_, hfile', fun hgrants => ?_⟩
          · rw [Prog.run_bind_ok hrun]
            exact hloop
          · simp only [hnone hgrants]
            exact hpid hgrants
      · simp only [if_neg hid]
        exact ih cmdline d

/-- `find_pid_of` closes all it opens, and with numbers for everything it finds
what it is described to find. -/
theorem findPidOf_run (call : Call) (d : Descriptors) :
    ∃ pid d', (findPidOf call).run d = (.ok pid, d') ∧ d'.file = d.file ∧
      ∀ dir, call.opendir = some dir → d.file dir = none →
        Grants call (d.openOwn dir) →
        pid = ServerClient.findPidOf call.table true call.cmdline call.package := by
  cases hpackage : call.package with
  | none =>
      refine ⟨-1, d, ?_, rfl, fun _ _ _ _ => rfl⟩
      simp only [findPidOf, hpackage]
      rfl
  | some name =>
      rcases allocate_cases call.opendir d with
        ⟨dir, hdir, hfree, hrun⟩ | ⟨hnot, hrun⟩
      · obtain ⟨pid, d', hloop, hfile, hpid⟩ :=
          findLoop_run call name call.table.entries call.cmdline (d.openOwn dir)
        refine ⟨pid, d'.close dir, ?_, ?_, fun dir' hdir' _ hgrants => ?_⟩
        · simp only [findPidOf, hpackage, Prog.run_bind_ok hrun,
            Prog.run_bind_ok hloop]
          rfl
        · rw [← Descriptors.file_close_openOwn hfree]
          simp only [Descriptors.close, hfile]
        · rw [hdir] at hdir'
          cases hdir'
          exact hpid hgrants
      · refine ⟨-1, d, ?_, rfl,
          fun dir hdir hfree _ => absurd hfree (hnot dir hdir)⟩
        simp only [findPidOf, hpackage, Prog.run_bind_ok hrun]
        rfl

/-! ## The echo -/

/-- The whole echo was received before anything else happened. -/
def Echoed (echolen : ℕ) (received : ℤ) (recvs : List ℤ) : Prop :=
  ∃ got rest, recvs = got ++ rest ∧ (∀ bytes ∈ got, 1 ≤ bytes) ∧
    echolen ≤ received + got.sum

/-- A `recv` failed, or found the connection closed, before that. -/
def CutShort (echolen : ℕ) (received : ℤ) (recvs : List ℤ) : Prop :=
  ∃ got bytes rest, recvs = got ++ bytes :: rest ∧ (∀ bytes ∈ got, 1 ≤ bytes) ∧
    bytes < 1 ∧ received + got.sum < echolen

/-- The loop with the table left out is the one that is described without. -/
theorem readEcho_run (echolen : ℕ) (received : ℤ) (recvs : List ℤ)
    (d : Descriptors) :
    (readEcho echolen received recvs).run d =
      (match ServerClient.readEcho echolen received recvs with
        | none => .error .waiting
        | some ret => if ret = 0 then .ok ⟨⟩ else .error (.exit ret), d) := by
  induction recvs generalizing received with
  | nil =>
      rw [readEcho, ServerClient.readEcho]
      by_cases hless : received < echolen
      · simp only [if_pos hless]
        rfl
      · simp only [if_neg hless]
        rfl
  | cons bytes recvs ih =>
      rw [readEcho, ServerClient.readEcho]
      by_cases hless : received < echolen
      · by_cases hpos : bytes < 1
        · simp only [if_pos hless, if_pos hpos]
          rfl
        · simp only [if_pos hless, if_neg hpos]
          exact ih (received + bytes)
      · simp only [if_neg hless]
        rfl

theorem cutShort_cons {echolen : ℕ} {received bytes : ℤ} {recvs : List ℤ}
    (hpos : 1 ≤ bytes) :
    CutShort echolen received (bytes :: recvs) ↔
      CutShort echolen (received + bytes) recvs := by
  constructor
  · intro h
    obtain ⟨got, last, rest, hrecvs, hgot, hlast, hsum⟩ := h
    cases got with
    | nil =>
        cases hrecvs
        omega
    | cons first got =>
        rw [List.cons_append, List.cons.injEq] at hrecvs
        rw [List.forall_mem_cons] at hgot
        rw [List.sum_cons, ← hrecvs.1, ← add_assoc] at hsum
        exact ⟨got, last, rest, hrecvs.2, hgot.2, hlast, hsum⟩
  · intro h
    obtain ⟨got, last, rest, rfl, hgot, hlast, hsum⟩ := h
    refine ⟨bytes :: got, last, rest, rfl,
      List.forall_mem_cons.mpr ⟨hpos, hgot⟩, hlast, ?_⟩
    rw [List.sum_cons, ← add_assoc]
    exact hsum

theorem not_cutShort_of_le {echolen : ℕ} {received : ℤ} {recvs : List ℤ}
    (h : echolen ≤ received) : ¬ CutShort echolen received recvs := by
  intro h
  obtain ⟨got, bytes, rest, -, hgot, -, hsum⟩ := h
  have hnonneg : 0 ≤ got.sum :=
    List.sum_nonneg fun b hb => Int.le_of_lt (hgot b hb)
  omega

theorem Echoed.cons {echolen : ℕ} {received bytes : ℤ} {recvs : List ℤ}
    (hpos : 1 ≤ bytes) (h : Echoed echolen (received + bytes) recvs) :
    Echoed echolen received (bytes :: recvs) := by
  obtain ⟨got, rest, rfl, hgot, hsum⟩ := h
  refine ⟨bytes :: got, rest, rfl, List.forall_mem_cons.mpr ⟨hpos, hgot⟩, ?_⟩
  rw [List.sum_cons, ← add_assoc]
  exact hsum

theorem echoed_of_le {echolen : ℕ} {received : ℤ} (recvs : List ℤ)
    (h : echolen ≤ received) : Echoed echolen received recvs :=
  ⟨[], recvs, rfl, fun b hb => (by cases hb), by simpa using h⟩

theorem readEcho_cases (echolen : ℕ) (received : ℤ) (recvs : List ℤ) :
    (ServerClient.readEcho echolen received recvs = some (-1) ∧
      CutShort echolen received recvs) ∨
    ¬ CutShort echolen received recvs ∧
      (ServerClient.readEcho echolen received recvs = none ∨
        ServerClient.readEcho echolen received recvs = some 0 ∧
          Echoed echolen received recvs) := by
  induction recvs generalizing received with
  | nil =>
      refine .inr ⟨?_, ?_⟩
      · intro h
        obtain ⟨got, bytes, rest, hnil, -⟩ := h
        exact absurd hnil.symm
          (List.append_ne_nil_of_right_ne_nil got (List.cons_ne_nil _ _))
      · rw [ServerClient.readEcho]
        by_cases hless : received < echolen
        · exact .inl (if_pos hless)
        · exact .inr ⟨if_neg hless, echoed_of_le [] (by omega)⟩
  | cons bytes recvs ih =>
      rw [ServerClient.readEcho]
      by_cases hless : received < echolen
      · rw [if_pos hless]
        by_cases hlast : bytes < 1
        · rw [if_pos hlast]
          exact .inl ⟨rfl, [], bytes, recvs, rfl, fun b hb => (by cases hb), hlast,
            by simpa⟩
        · have hpos : 1 ≤ bytes := by omega
          rw [if_neg hlast, cutShort_cons hpos]
          rcases ih (received + bytes) with hcut | ⟨hnot, hwait | ⟨hdone, hecho⟩⟩
          · exact .inl hcut
          · exact .inr ⟨hnot, .inl hwait⟩
          · exact .inr ⟨hnot, .inr ⟨hdone, hecho.cons hpos⟩⟩
      · rw [if_neg hless]
        exact .inr ⟨not_cutShort_of_le (by omega),
          .inr ⟨rfl, echoed_of_le _ (by omega)⟩⟩

/-! ## One call -/

/-- What goes wrong when there is a socket. -/
def Fails (call : Call) : Prop :=
  call.connectOk = false ∨ call.send ≠ call.speed.text.length ∨
    CutShort call.speed.text.length 0 call.recvs

/-- What a call comes to: it gets no socket; it fails with one; it has the
whole echo and closes it; or it waits. -/
inductive Comes (call : Call) (d : Descriptors) : Option ℤ → Descriptors → Prop
  | refused {d' : Descriptors}
      (hnone : ∀ fd, call.socket = some fd → d.file fd ≠ none)
      (hsame : d'.file = d.file) : Comes call d (some (-1)) d'
  | failed {d' : Descriptors} {fd : Fd} {file : File}
      (hsocket : call.socket = some fd) (hfree : d.file fd = none) (hfails : Fails call)
      (hopen : d'.file = Function.update d.file fd (some file)) :
      Comes call d (some (-1)) d'
  | done {d' : Descriptors} (hnot : ¬ Fails call)
      (hecho : Echoed call.speed.text.length 0 call.recvs)
      (hsame : d'.file = d.file) : Comes call d (some 0) d'
  | waits {d' : Descriptors} {fd : Fd} {file : File} (hnot : ¬ Fails call)
      (hopen : d'.file = Function.update d.file fd (some file)) :
      Comes call d none d'

theorem comes_step (call : Call) (d : Descriptors) :
    Comes call d (caller.step d call).2 (caller.step d call).1 := by
  obtain ⟨pid, d₁, hpid, hfile, -⟩ := findPidOf_run call d
  show Comes call d (result ((upspeed call).run d).1) ((upspeed call).run d).2
  rw [upspeed, Prog.run_bind_ok hpid]
  rcases allocate_cases call.socket d₁ with
    ⟨fd, hsocket, hfree, hrun⟩ | ⟨hnone, hrun⟩
  · have hopen : (d₁.openOwn fd).file =
        Function.update d.file fd (some (.own d₁.opened)) := by
      rw [← hfile]
      rfl
    have hfree' : d.file fd = none := by rw [← hfile, hfree]
    rw [Prog.run_bind_ok hrun]
    simp only
    cases hconnect : call.connectOk with
    | false =>
        rw [Prog.run_bind_error (Prog.run_require_false _ _)]
        exact .failed hsocket hfree' (.inl hconnect) hopen
    | true =>
        rw [Prog.run_bind_ok (Prog.run_require_true _ _)]
        by_cases hsend : call.send = call.speed.text.length
        · rw [decide_eq_true hsend, Prog.run_bind_ok (Prog.run_require_true _ _)]
          have hfails : Fails call ↔
              CutShort call.speed.text.length 0 call.recvs := by
            simp [Fails, hconnect, hsend]
          have hecho :=
            readEcho_run call.speed.text.length 0 call.recvs (d₁.openOwn fd)
          rcases readEcho_cases call.speed.text.length 0 call.recvs with
            ⟨hret, hcut⟩ | ⟨hnot, hret | ⟨hret, hechoed⟩⟩
          · rw [hret] at hecho
            rw [Prog.run_bind_error hecho]
            exact .failed hsocket hfree' (hfails.mpr hcut) hopen
          · rw [hret] at hecho
            rw [Prog.run_bind_error hecho]
            exact .waits (mt hfails.mp hnot) hopen
          · rw [hret] at hecho
            rw [Prog.run_bind_ok hecho]
            refine .done (mt hfails.mp hnot) hechoed ?_
            exact (Descriptors.file_close_openOwn hfree).trans hfile
        · rw [decide_eq_false hsend,
            Prog.run_bind_error (Prog.run_require_false _ _)]
          exact .failed hsocket hfree' (.inr (.inl hsend)) hopen
  · rw [Prog.run_bind_ok hrun]
    rw [hfile] at hnone
    exact .refused hnone hfile

/-- No call closes a number that was open before it. -/
theorem Comes.stays_open {ret : Option ℤ} (hcomes : Comes call d ret d')
    (h : d.file fd ≠ none) : d'.file fd ≠ none := by
  have hkept : ∀ {fd' : Fd} {file : File},
      Function.update d.file fd' (some file) fd ≠ none := by
    intro fd' file
    rw [Function.update_apply]
    split
    · exact Option.some_ne_none file
    · exact h
  cases hcomes with
  | refused hnone hsame => rwa [hsame]
  | failed hsocket hfree hfails hopen =>
      rw [hopen]
      exact hkept
  | done hnot hecho hsame => rwa [hsame]
  | waits hnot hopen =>
      rw [hopen]
      exact hkept

/-- The law for one call: the numbers that are open when it returns are those
that were before it, and its result is 0 after the whole echo alone. -/
structure LosesNothing (call : Call) (d : Descriptors) (ret : Option ℤ)
    (d' : Descriptors) : Prop where
  same : ret ≠ none → ∀ fd, d'.file fd = none ↔ d.file fd = none
  echoed : ret = some 0 → Echoed call.speed.text.length 0 call.recvs

/-- The call gets a socket, and something fails after that. -/
def FailsWithSocket (call : Call) (d : Descriptors) : Prop :=
  (∃ fd, call.socket = some fd ∧ d.file fd = none) ∧ Fails call

theorem Comes.losesNothing_iff {ret : Option ℤ} (h : Comes call d ret d') :
    LosesNothing call d ret d' ↔ ¬ FailsWithSocket call d := by
  cases h with
  | refused hnone hsame =>
      refine iff_of_true ⟨fun _ fd => by rw [hsame], fun h => (by cases h)⟩ ?_
      intro h
      obtain ⟨⟨fd, hsocket, hfree⟩, -⟩ := h
      exact hnone fd hsocket hfree
  | @failed _ fd _ hsocket hfree hfails hopen =>
      refine iff_of_false (fun h => ?_)
        (not_not_intro ⟨⟨fd, hsocket, hfree⟩, hfails⟩)
      have hclosed := (h.same (Option.some_ne_none _) fd).mpr hfree
      rw [hopen, Function.update_self] at hclosed
      cases hclosed
  | done hnot hecho hsame =>
      exact iff_of_true ⟨fun _ fd => by rw [hsame], fun _ => hecho⟩
        fun h => hnot h.2
  | waits hnot hopen =>
      exact iff_of_true ⟨fun h => absurd rfl h, fun h => (by cases h)⟩
        fun h => hnot h.2

/-! ## Runs -/

/-- What is lost once is lost for good. -/
theorem open_after (h : d.file fd ≠ none) (calls : List Call) :
    (caller.after d calls).file fd ≠ none :=
  caller.after_inv (I := fun d => d.file fd ≠ none) h calls
    fun x _ hx => (comes_step x.2.1 x.1).stays_open hx

/-- A run loses no descriptor when no call of it fails with a socket. -/
theorem no_descriptor_lost_iff (d : Descriptors) (calls : List Call) :
    (∀ x ∈ caller.trace d calls,
        LosesNothing x.2.1 x.1 x.2.2 (caller.step x.1 x.2.1).1) ↔
      ∀ x ∈ caller.trace d calls, ¬ FailsWithSocket x.2.1 x.1 :=
  caller.forall_trace_iff (I := fun _ => True)
    (fun d call _ => (comes_step call d).losesNothing_iff)
    (fun _ _ _ _ => trivial) trivial calls

/-- A call for a package that does not run, where only another process does. -/
def unanswered : Call where
  table := strangerOnly
  package := some (ofString "a")
  speed := two
  opendir := some 3
  fopen _ := some 4
  socket := some 3
  connectOk := false
  send := 0
  recvs := []

/-- It leaves its socket open. -/
theorem unanswered_call_loses :
    ¬ ∀ x ∈ caller.trace {} [unanswered],
      LosesNothing x.2.1 x.1 x.2.2 (caller.step x.1 x.2.1).1 := by
  intro h
  have hfirst := h _ List.mem_cons_self
  have hopen := (hfirst.same (by decide) 3).mpr rfl
  revert hopen
  decide

end Elfupspeed.Sockets
