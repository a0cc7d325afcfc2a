import Elfupspeed.Lib.Lines
import Elfupspeed.Proofs.Delivery

/-!
# Which process `find_pid_of` finds

For a name that one `fgets` has room for, the scan compares what it should, and
it ends at the first process of that name. What can come in between is the
buffer alone: the first command line that opens, where it is empty, is taken to
be whatever the buffer held before.
-/

namespace Elfupspeed.ServerClient

open Elfupspeed.Lib Elfupspeed.Lib.CString

variable {table : ProcessTable} {cmdline name : List Byte} {p : Process}

/-- Listed under this name: the first string of its command line, where that
can be read. -/
def Process.Named (name : List Byte) (p : Process) : Prop :=
  p.readable = true ∧ p.commandName = name

instance (name : List Byte) : DecidablePred (Process.Named name) :=
  fun _ => inferInstanceAs (Decidable (_ ∧ _))

def ProcessTable.namedPid (table : ProcessTable) (name : List Byte) : ℤ :=
  ((table.processes.find? (Process.Named name)).map fun p => (p.pid : ℤ)).getD (-1)

/-- A name that can be asked for. -/
structure IsName (name : List Byte) : Prop where
  ne_nil : name ≠ []
  length_lt : name.length < 255
  text : ∀ b ∈ name, b ≠ byte '\n' ∧ b ≠ 0

theorem IsName.cstr_eq (h : IsName name) : cstr name = name :=
  cstr_eq_self fun b hb => (h.text b hb).2

theorem spells_iff_named (h : IsName name) :
    p.Spells name ↔ p.Named name := by
  have hread : cstr (fgets 256 p.cmdline) = name ↔ cstr p.cmdline = name :=
    cstr_fgets_eq_iff h.length_lt h.text
  rw [Process.Spells, Process.Named, Process.commandName, h.cstr_eq,
    eq_comm (a := name), hread]
  refine and_congr_right fun _ => and_iff_right_of_imp fun hname hfile => ?_
  rw [hfile] at hname
  exact h.ne_nil hname.symm

/-- The first command line that opens is empty, and the buffer held the name
before the loop. -/
def ProcessTable.Stale (table : ProcessTable) (cmdline name : List Byte) : Prop :=
  ∃ p, table.processes.find? Process.readable = some p ∧ p.cmdline = [] ∧
    cstr cmdline = name

theorem found_of_not_stale (h : IsName name) (hstale : ¬ table.Stale cmdline name) :
    table.found cmdline name = table.processes.find? (Process.Named name) := by
  have hfind : table.processes.find? (Process.Spells name) =
      table.processes.find? (Process.Named name) := by
    congr 1
    funext p
    rw [decide_eq_decide]
    exact spells_iff_named h
  rw [ProcessTable.found]
  cases hread : table.processes.find? Process.readable with
  | none =>
      symm
      rw [List.find?_eq_none] at hread ⊢
      intro p hp hnamed
      exact hread p hp (of_decide_eq_true hnamed).1
  | some p =>
      simp only
      rw [if_neg, hfind]
      rintro ⟨hfile, hbuf⟩
      exact hstale ⟨p, hread, hfile, by rw [← hbuf, h.cstr_eq]⟩

theorem found_of_stale (h : IsName name) (hstale : table.Stale cmdline name) :
    ∃ p ∈ table.processes, p.commandName ≠ name ∧
      table.found cmdline name = some p := by
  obtain ⟨p, hread, hfile, hbuf⟩ := hstale
  refine ⟨p, List.mem_of_find?_eq_some hread, ?_, ?_⟩
  · rw [Process.commandName, hfile]
    exact h.ne_nil.symm
  · rw [ProcessTable.found, hread]
    simp only
    rw [if_pos ⟨hfile, by rw [hbuf, h.cstr_eq]⟩]

/-- The pid of a process is that of no other, and not -1. -/
theorem pid_ne_namedPid (hp : p ∈ table.processes) (hname : p.commandName ≠ name) :
    (p.pid : ℤ) ≠ table.namedPid name := by
  rw [ProcessTable.namedPid]
  cases hfind : table.processes.find? (Process.Named name) with
  | none =>
      rw [Option.map_none, Option.getD_none]
      omega
  | some q =>
      have hq := List.mem_of_find?_eq_some hfind
      have hnamed : q.Named name := by simpa using List.find?_some hfind
      rw [Option.map_some, Option.getD_some]
      intro hpid
      have hself := find_of_nodup table.pid_nodup hp
      rw [hpid] at hself
      obtain rfl := Option.some.inj
        (hself.symm.trans (find_of_nodup table.pid_nodup hq))
      exact hname hnamed.2

/-- The result is the pid of the first process of the name, or -1, if and only
if the loop does not begin with an empty command line and the name already in
the buffer. -/
theorem findPidOf_right_iff (table : ProcessTable) (cmdline name : List Byte)
    (h : IsName name) :
    findPidOf table true cmdline (some name) = table.namedPid name ↔
      ¬ table.Stale cmdline name := by
  rw [findPidOf_eq, ProcessTable.foundPid, if_pos rfl]
  constructor
  · intro hpid hstale
    obtain ⟨p, hp, hname, hfound⟩ := found_of_stale h hstale
    rw [hfound] at hpid
    exact pid_ne_namedPid hp hname hpid
  · intro hstale
    rw [found_of_not_stale h hstale]
    rfl

/-- A kernel thread, listed before a process with the name. -/
def threadFirst : ProcessTable where
  entries := [.process ⟨2, [], true, false, 1⟩,
    .process ⟨100, ofString "a", true, false, 1⟩]
  pid_pos := by decide
  pid_le := by decide
  pid_nodup := by decide
  anyPort_pos := by decide
  other_zero := by simp

theorem process_found :
    findPidOf threadFirst true [] (some (ofString "a")) = 100 := by
  have hright := (findPidOf_right_iff threadFirst [] (ofString "a")
    ⟨by decide, by decide, by decide⟩).mpr
    fun ⟨_, _, _, hbuf⟩ => absurd hbuf (by decide)
  rw [hright]
  decide

/-- With the name on the stack from before, the kernel thread is taken for
it. -/
theorem kernel_thread_found :
    ¬ ∀ (table : ProcessTable) (cmdline name : List Byte), IsName name →
      findPidOf table true cmdline (some name) = table.namedPid name := by
  intro h
  have hthread := h threadFirst (ofString "a") (ofString "a")
    ⟨by decide, by decide, by decide⟩
  revert hthread
  decide +kernel

end Elfupspeed.ServerClient
