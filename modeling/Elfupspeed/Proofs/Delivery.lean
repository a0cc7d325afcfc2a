import Elfupspeed.Src.ServerClient

/-!
# Whom a request reaches

A request goes to whoever listens on the port that a pid makes, and three
things come between a package and its server: the scan of `/proc`, whose -1
for a package that does not run is a pid like any other; the 16 bits that are
left of a pid on both sides; and the buffer the scan reads command lines into.
The scan is brought into a closed form first, the first process that spells
the name, and then it is a matter of who listens where.
-/

namespace Elfupspeed.ServerClient

open Elfupspeed.Lib Elfupspeed.Lib.CString

/-! ## The scan -/

def Process.commandName (p : Process) : List Byte := cstr p.cmdline

/-- The command line starts with the name, as far as one `fgets` shows it. -/
def Process.Spells (name : List Byte) (p : Process) : Prop :=
  p.readable = true ∧ p.cmdline ≠ [] ∧ cstr name = cstr (fgets 256 p.cmdline)

instance (name : List Byte) : DecidablePred (Process.Spells name) :=
  fun _ => inferInstanceAs (Decidable (_ ∧ _))

/-- The process a scan ends at: the first that spells the name, unless the
name is what the buffer holds from the start and the first command line that
opens leaves it there. -/
def ProcessTable.found (table : ProcessTable) (cmdline name : List Byte) :
    Option Process :=
  match table.processes.find? Process.readable with
  | none => none
  | some p =>
      if p.cmdline = [] ∧ cstr name = cstr cmdline then some p
      else table.processes.find? (Process.Spells name)

theorem cstr_readCmdline (buf : List Byte) {file : List Byte}
    (h : file ≠ []) : cstr (readCmdline buf file) = cstr (fgets 256 file) := by
  rw [readCmdline, if_neg h, store, List.append_assoc]
  exact cstr_append_nul _ _

/-- The loop over the processes alone. -/
def scan (name : List Byte) : List Process → List Byte → Option Process
  | [], _ => none
  | p :: ps, cmdline =>
      if p.readable then
        let cmdline := readCmdline cmdline p.cmdline
        if cstr name = cstr cmdline then some p else scan name ps cmdline
      else scan name ps cmdline

theorem scan_cons_readable {name cmdline : List Byte} {p : Process}
    (ps : List Process) (hread : p.readable = true) :
    scan name (p :: ps) cmdline =
      if cstr name = cstr (readCmdline cmdline p.cmdline) then some p
      else scan name ps (readCmdline cmdline p.cmdline) := by
  rw [scan, if_pos hread]

theorem scan_of_ne {name cmdline : List Byte} (ps : List Process)
    (h : cstr name ≠ cstr cmdline) :
    scan name ps cmdline = ps.find? (Process.Spells name) := by
  induction ps generalizing cmdline with
  | nil => rfl
  | cons p ps ih =>
      cases hread : p.readable with
      | false =>
          rw [List.find?_cons_of_neg (by simp [Process.Spells, hread])]
          simpa [scan, hread] using ih h
      | true =>
          rw [scan_cons_readable ps hread]
          by_cases hfile : p.cmdline = []
          · rw [List.find?_cons_of_neg (by simp [Process.Spells, hfile]),
              readCmdline, if_pos hfile, if_neg h]
            exact ih h
          · rw [cstr_readCmdline cmdline hfile]
            by_cases hname : cstr name = cstr (fgets 256 p.cmdline)
            · rw [if_pos hname, List.find?_cons_of_pos
                (by simpa [Process.Spells, hread, hfile] using hname)]
            · rw [if_neg hname, List.find?_cons_of_neg
                (by simp [Process.Spells, hname])]
              refine ih ?_
              rw [cstr_readCmdline cmdline hfile]
              exact hname

theorem scan_eq (name cmdline : List Byte) (ps : List Process) :
    scan name ps cmdline =
      match ps.find? Process.readable with
      | none => none
      | some p =>
          if p.cmdline = [] ∧ cstr name = cstr cmdline then some p
          else ps.find? (Process.Spells name) := by
  induction ps with
  | nil => rfl
  | cons p ps ih =>
      cases hread : p.readable with
      | false =>
          rw [List.find?_cons_of_neg (by simp [hread]),
            List.find?_cons_of_neg (by simp [Process.Spells, hread])]
          simpa [scan, hread] using ih
      | true =>
          rw [List.find?_cons_of_pos hread]
          by_cases hstale : p.cmdline = [] ∧ cstr name = cstr cmdline
          · simp only [if_pos hstale]
            rw [scan_cons_readable ps hread, readCmdline, if_pos hstale.1,
              if_pos hstale.2]
          · simp only [if_neg hstale]
            by_cases hname : cstr name = cstr cmdline
            · have hfile : p.cmdline ≠ [] := fun hfile => hstale ⟨hfile, hname⟩
              rw [scan_cons_readable ps hread, cstr_readCmdline cmdline hfile]
              by_cases hspells : cstr name = cstr (fgets 256 p.cmdline)
              · rw [if_pos hspells, List.find?_cons_of_pos
                  (by simpa [Process.Spells, hread, hfile] using hspells)]
              · rw [if_neg hspells, List.find?_cons_of_neg
                  (by simp [Process.Spells, hspells])]
                refine scan_of_ne ps ?_
                rw [cstr_readCmdline cmdline hfile]
                exact hspells
            · exact scan_of_ne (p :: ps) hname

/-! ## The loop over the directory -/

theorem atoi_numeral (n : ℕ) : atoi (numeral n) = n := by
  have hsign := sign_numeral n []
  rw [List.append_nil] at hsign
  rw [atoi, hsign]
  simp [readDec_numeral]

theorem find_of_nodup {ps : List Process}
    (hnodup : (ps.map Process.pid).Nodup) {p : Process} (hp : p ∈ ps) :
    (ps.find? fun q => (q.pid : ℤ) = p.pid) = some p := by
  induction ps with
  | nil => cases hp
  | cons q ps ih =>
      rw [List.map_cons, List.nodup_cons] at hnodup
      rcases List.mem_cons.mp hp with rfl | hp
      · exact List.find?_cons_of_pos (by simp)
      · have hne : q.pid ≠ p.pid := by
          intro heq
          exact hnodup.1 (heq ▸ List.mem_map_of_mem hp)
        rw [List.find?_cons_of_neg (by simpa using hne)]
        exact ih hnodup.2 hp

theorem fopen_of_mem (table : ProcessTable) {p : Process}
    (hp : p ∈ table.processes) :
    table.fopen p.pid = if p.readable then some p.cmdline else none := by
  rw [ProcessTable.fopen, ProcessTable.processes,
    find_of_nodup table.pid_nodup hp]

theorem findLoop_eq (table : ProcessTable) (name : List Byte)
    {entries : List DirEntry} (hentries : ∀ e ∈ entries, e ∈ table.entries)
    (cmdline : List Byte) :
    findLoop table name entries cmdline =
      ((scan name (entries.filterMap DirEntry.process?) cmdline).map
        fun p => (p.pid : ℤ)).getD (-1) := by
  induction entries generalizing cmdline with
  | nil => rfl
  | cons entry entries ih =>
      have hrest : ∀ e ∈ entries, e ∈ table.entries :=
        fun e he => hentries e (List.mem_cons_of_mem entry he)
      cases entry with
      | other other =>
          have hzero : atoi other = 0 := table.other_zero other
            (hentries _ List.mem_cons_self)
          rw [findLoop]
          simp only [DirEntry.dName, hzero, ne_eq, not_true_eq_false, if_false]
          exact ih hrest cmdline
      | process p =>
          have hp : p ∈ table.processes :=
            List.mem_filterMap.mpr ⟨_, hentries _ List.mem_cons_self, rfl⟩
          have hpid : (p.pid : ℤ) ≠ 0 := by
            have := table.pid_pos p hp
            omega
          rw [findLoop]
          simp only [DirEntry.dName, atoi_numeral, if_pos hpid,
            fopen_of_mem table hp]
          rw [List.filterMap_cons_some (show DirEntry.process? _ = some p from rfl)]
          cases hread : p.readable with
          | false => simpa [scan, hread] using ih hrest cmdline
          | true =>
              rw [scan_cons_readable _ hread]
              simp only [if_true]
              by_cases hname : cstr name = cstr (readCmdline cmdline p.cmdline)
              · rw [if_pos hname, if_pos hname]
                rfl
              · rw [if_neg hname, if_neg hname]
                exact ih hrest _

def ProcessTable.foundPid (table : ProcessTable) (opendirOk : Bool)
    (cmdline name : List Byte) : ℤ :=
  if opendirOk then
    ((table.found cmdline name).map fun p => (p.pid : ℤ)).getD (-1)
  else -1

theorem findPidOf_eq (table : ProcessTable) (opendirOk : Bool)
    (cmdline name : List Byte) :
    findPidOf table opendirOk cmdline (some name) =
      table.foundPid opendirOk cmdline name := by
  rw [findPidOf, ProcessTable.foundPid, findLoop_eq table name (fun _ h => h),
    scan_eq]
  rfl

/-! ## Who listens -/

theorem port_natCast (n : ℕ) : port n = n % 2 ^ 16 := by
  rw [port]
  omega

/-- Two servers that want one port: their pids ask for the same, or the kernel
has picked for one, whose pid asks for port 0, the port of the other. -/
def Clash (p q : Process) : Prop :=
  if p.pid % 2 ^ 16 = 0 then p.anyPort = q.serverPort
  else p.pid % 2 ^ 16 = q.pid % 2 ^ 16

theorem serverPort_eq_iff (p q : Process) :
    p.serverPort = q.serverPort ↔ Clash p q ∨ Clash q p := by
  simp only [Clash, Process.serverPort, port_natCast]
  split <;> split <;> omega

/-- A request reaches a process that was started under the name, or none, and
then the result is -1. -/
def Outcome.Proper (o : Outcome) (package : List Byte) : Prop :=
  match o.delivered with
  | some (p, _) => p.commandName = cstr package
  | none => o.ret = some (-1)

instance (o : Outcome) (package : List Byte) : Decidable (o.Proper package) :=
  match o with
  | ⟨_, some (p, _)⟩ =>
      inferInstanceAs (Decidable (p.commandName = cstr package))
  | ⟨ret, none⟩ => inferInstanceAs (Decidable (ret = some (-1)))

section Upspeed

variable (table : ProcessTable) (opendirOk : Bool) (cmdline package : List Byte)

def reaching (p : Process) : Net :=
  ⟨true, fun q => if q = p.serverPort then some p else none, true, [64]⟩

theorem reaching_reaches {p : Process} (hp : p ∈ table.processes)
    (hinj : p.injected = true) : (reaching p).Reaches table := by
  intro q p' h
  simp only [reaching] at h
  split at h
  · rename_i hq
    injection h with h
    exact h ▸ ⟨hp, hinj, hq.symm⟩
  · cases h

theorem upspeed_proper {net : Net} {speed : FiniteFloat}
    (hnet : net.Reaches table)
    (h : ∀ p ∈ table.processes, p.injected = true →
      p.serverPort = port (table.foundPid opendirOk cmdline package) →
      p.commandName = cstr package) :
    (upspeed table opendirOk cmdline net package speed).Proper package := by
  rw [upspeed, findPidOf_eq]
  simp only
  cases net.socketOk with
  | false => rfl
  | true =>
      cases hconn : net.connect
          (port (table.foundPid opendirOk cmdline package)) with
      | none => rfl
      | some p =>
          obtain ⟨hp, hinj, hport⟩ := hnet _ p hconn
          cases net.sendOk with
          | false => rfl
          | true => exact h p hp hinj hport

/-- Requests reach the package they name in every run, and servers have ports
of their own, if and only if no two injected processes want one port, and only
processes of that name listen where the scan's pid points. -/
theorem upspeed_proper_iff :
    ((∀ net speed, net.Reaches table →
        (upspeed table opendirOk cmdline net package speed).Proper package) ∧
      ∀ p ∈ table.processes, ∀ q ∈ table.processes, p.injected = true →
        q.injected = true → p.pid ≠ q.pid → p.serverPort ≠ q.serverPort) ↔
    (∀ p ∈ table.processes, p.injected = true →
        p.serverPort = port (table.foundPid opendirOk cmdline package) →
        p.commandName = cstr package) ∧
      ∀ p ∈ table.processes, ∀ q ∈ table.processes, p.injected = true →
        q.injected = true → p.pid ≠ q.pid → ¬ Clash p q := by
  refine and_congr ⟨fun h p hp hinj hport => ?_, fun h net speed hnet => ?_⟩
    ⟨fun h p hp q hq hip hiq hne hclash => ?_,
      fun h p hp q hq hip hiq hne hport => ?_⟩
  · have hproper := h (reaching p)
      ⟨false, 0, 0, by decide, by decide, by decide⟩
      (reaching_reaches table hp hinj)
    rw [upspeed, findPidOf_eq, ← hport] at hproper
    simpa [reaching, Outcome.Proper] using hproper
  · exact upspeed_proper table opendirOk cmdline package hnet h
  · exact h p hp q hq hip hiq hne ((serverPort_eq_iff p q).mpr (.inl hclash))
  · rcases (serverPort_eq_iff p q).mp hport with hclash | hclash
    · exact h p hp q hq hip hiq hne hclash
    · exact h q hq p hp hiq hip (Ne.symm hne) hclash

end Upspeed

/-- A process with the pid whose 16 bits are those of -1. -/
def stranger : Process := ⟨65535, ofString "b", true, true, 1⟩

def strangerOnly : ProcessTable where
  entries := [.other (ofString "self"), .process stranger]
  pid_pos := by decide
  pid_le := by decide
  pid_nodup := by decide
  anyPort_pos := by decide
  other_zero := by
    intro name hname
    simp only [List.mem_cons, DirEntry.other.injEq, reduceCtorEq,
      List.not_mem_nil, or_false] at hname
    rw [hname]
    decide

/-- A request for a package that does not run reaches the stranger. -/
theorem stranger_reached :
    ¬ ∀ (table : ProcessTable) (opendirOk : Bool) (cmdline package : List Byte),
      (∀ net speed, net.Reaches table →
        (upspeed table opendirOk cmdline net package speed).Proper package) ∧
      ∀ p ∈ table.processes, ∀ q ∈ table.processes, p.injected = true →
        q.injected = true → p.pid ≠ q.pid → p.serverPort ≠ q.serverPort := by
  intro h
  have hproper := (h strangerOnly true [] (ofString "a")).1 (reaching stranger)
    ⟨false, 0, 0, by decide, by decide, by decide⟩
    (reaching_reaches strangerOnly (p := stranger) List.mem_cons_self rfl)
  revert hproper
  decide +kernel

end Elfupspeed.ServerClient
