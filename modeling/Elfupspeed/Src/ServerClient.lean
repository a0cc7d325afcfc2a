import Elfupspeed.Lib.Cursor
import Elfupspeed.Lib.Decimal
import Elfupspeed.Lib.Numeral
import Elfupspeed.Lib.Round
import Mathlib.Data.Rat.Floor

/-!
# `serverClient.cpp`: asking a process for another speed

`upspeed` looks a package up in `/proc`, connects to the port that its pid
makes and writes the speed there as text. The processes, what `/proc` shows of
them and which of them run the injected server are a `ProcessTable`; what the
network does is a `Net`.
-/

namespace Elfupspeed.ServerClient

open Elfupspeed.Lib Elfupspeed.Lib.CString

/-! ## Numbers as text -/

/-- `'/0'`, which is a constant of two characters. It is an `int`, and the
`char` it is stored to keeps its lower byte. -/
def slashZero : Byte := (byte '/' ++ byte '0').setWidth 8

/-- The loop of `itoa`, with the number of times its condition may be tested;
`none` when that was not enough. -/
def itoaLoop (base : ℤ) : ℕ → ℤ → Cursor Byte → Option (Cursor Byte)
  | 0, _, _ => none
  | times + 1, n, c =>
      if 0 < n then
        itoaLoop base times (n.tdiv base) (c.push (digitChar (n.tmod base).toNat))
      else some c

/-- `itoa`, in memory that is counted from the first byte of `buf`. The
negation of the most negative number is this number. -/
def itoa (times : ℕ) (mem : ℤ → Byte) (n : BitVec 32) (base : ℤ) :
    Option (Cursor Byte) := do
  let c := Cursor.push ⟨36, mem, []⟩ slashZero
  let minus := n.slt 0
  let n := if minus then -n else n
  let c ←
    if n = 0 then some (c.push (byte '0')) else itoaLoop base times n.toInt c
  pure (if minus then c.push (byte '-') else c)

/-! ## The request -/

structure FiniteFloat where
  neg : Bool
  mant : ℕ
  exp : ℤ
  mant_lt : mant < 2 ^ 24
  exp_ge : -149 ≤ exp
  exp_le : exp ≤ 104

def FiniteFloat.abs (x : FiniteFloat) : ℚ := x.mant * 2 ^ x.exp

/-- The number of ten-thousandths that `%.4f` shows, without the sign. -/
def FiniteFloat.tenThousandths (x : FiniteFloat) : ℕ :=
  (Round.halfEven (x.abs * 10 ^ 4)).toNat

/-- `sprintf(buf, "%.4f", speed)` -/
def message (speed : FiniteFloat) : List Byte :=
  fixed 4 speed.neg speed.tenThousandths

/-! ## Processes -/

structure Process where
  pid : ℕ
  cmdline : List Byte
  readable : Bool
  injected : Bool
  /-- What the kernel picks for a server that asks for port 0. -/
  anyPort : ℕ

/-- What `readdir` lists in `/proc`. -/
inductive DirEntry
  | process (p : Process)
  | other (name : List Byte)

def DirEntry.dName : DirEntry → List Byte
  | .process p => numeral p.pid
  | .other name => name

def DirEntry.process? : DirEntry → Option Process
  | .process p => some p
  | .other _ => none

structure ProcessTable where
  entries : List DirEntry
  pid_pos : ∀ p ∈ entries.filterMap DirEntry.process?, 0 < p.pid
  pid_le : ∀ p ∈ entries.filterMap DirEntry.process?, p.pid ≤ 4194304
  pid_nodup : ((entries.filterMap DirEntry.process?).map Process.pid).Nodup
  anyPort_pos : ∀ p ∈ entries.filterMap DirEntry.process?, 0 < p.anyPort
  other_zero : ∀ name, .other name ∈ entries → atoi name = 0

def ProcessTable.processes (table : ProcessTable) : List Process :=
  table.entries.filterMap DirEntry.process?

/-- The file `/proc/<id>/cmdline`, if it opens. -/
def ProcessTable.fopen (table : ProcessTable) (id : ℤ) : Option (List Byte) :=
  match table.processes.find? fun p => (p.pid : ℤ) = id with
  | none => none
  | some p => if p.readable then some p.cmdline else none

/-- `fgets(cmdline, sizeof(cmdline), fp)`, which leaves the buffer alone at
the end of the file. -/
def readCmdline (cmdline file : List Byte) : List Byte :=
  if file = [] then cmdline else store cmdline (fgets 256 file ++ [0])

/-- The loop of `find_pid_of`. The buffer is not cleared, neither before the
loop nor in it. -/
def findLoop (table : ProcessTable) (processName : List Byte) :
    List DirEntry → List Byte → ℤ
  | [], _ => -1
  | entry :: entries, cmdline =>
      let id := atoi entry.dName
      if id ≠ 0 then
        match table.fopen id with
        | none => findLoop table processName entries cmdline
        | some file =>
            let cmdline := readCmdline cmdline file
            if cstr processName = cstr cmdline then id
            else findLoop table processName entries cmdline
      else findLoop table processName entries cmdline

/-- `cmdline` is what the buffer happens to hold. -/
def findPidOf (table : ProcessTable) (opendirOk : Bool) (cmdline : List Byte)
    (processName : Option (List Byte)) : ℤ :=
  match processName with
  | none => -1
  | some name => if opendirOk then findLoop table name table.entries cmdline else -1

/-! ## Ports -/

/-- `htons` takes a `uint16_t`. -/
def port (pid : ℤ) : ℕ := (pid % 2 ^ 16).toNat

/-- The port of the server in a process: what `StartIPCServer` binds its
socket to, where a 0 leaves the choice to the kernel. -/
def Process.serverPort (p : Process) : ℕ :=
  if port p.pid = 0 then p.anyPort else port p.pid

/-! ## The call -/

/-- What the network does. A request is a few bytes on a fresh connection,
so `send` takes all of it or nothing. -/
structure Net where
  socketOk : Bool
  connect : ℕ → Option Process
  sendOk : Bool
  recvs : List ℤ

/-- A connection reaches a process that runs the server on its port. -/
def Net.Reaches (net : Net) (table : ProcessTable) : Prop :=
  ∀ q p, net.connect q = some p →
    p ∈ table.processes ∧ p.injected = true ∧ p.serverPort = q

/-- The loop that reads the echo; `none` while it waits for more. -/
def readEcho (echolen : ℕ) : ℤ → List ℤ → Option ℤ
  | received, [] => if received < echolen then none else some 0
  | received, bytes :: recvs =>
      if received < echolen then
        if bytes < 1 then some (-1) else readEcho echolen (received + bytes) recvs
      else some 0

/-- What a call of `upspeed` comes to: its result, if it returns, and the
process that was sent the request. -/
structure Outcome where
  ret : Option ℤ
  delivered : Option (Process × List Byte)

def upspeed (table : ProcessTable) (opendirOk : Bool) (cmdline : List Byte)
    (net : Net) (package : List Byte) (speed : FiniteFloat) : Outcome :=
  let pid := findPidOf table opendirOk cmdline (some package)
  if net.socketOk then
    match net.connect (port pid) with
    | none => ⟨some (-1), none⟩
    | some p =>
        let buf := message speed
        if net.sendOk then
          ⟨readEcho buf.length 0 net.recvs, some (p, buf)⟩
        else ⟨some (-1), none⟩
  else ⟨some (-1), none⟩

end Elfupspeed.ServerClient
