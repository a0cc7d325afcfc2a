import Elfupspeed.Lib.Scan
import Elfupspeed.Src.ElfIPCServer
import Elfupspeed.Src.ServerClient

/-!
# The arrays of `upspeed` and `HandleClient`

The two functions once more, each with the accesses that it makes to its
arrays beside what it comes to. An access that leaves its array is noted like
any other, and the run goes on as if nothing else had stood there. The number
may also be none: `upspeed` takes every `float`.
-/

namespace Elfupspeed.Buffers

open Elfupspeed.Lib Elfupspeed.Lib.CString
open Elfupspeed.ServerClient (FiniteFloat ProcessTable Net findPidOf port message)
open Elfupspeed.ElfIPCServer (Recv Ending buffsize times)

/-- `buf` and `buffer` of `upspeed`, and `buffer` of `HandleClient`. -/
inductive Buffer
  | buf
  | reply
  | request
  deriving DecidableEq

def Buffer.size : Buffer → ℕ
  | .buf => 4
  | .reply => 32
  | .request => buffsize

/-- A read or a write of `len` bytes. -/
structure Access where
  buffer : Buffer
  start : ℕ
  len : ℕ

def Access.InRange (a : Access) : Prop := a.start + a.len ≤ a.buffer.size

/-- Every access stays inside its array. -/
def AllInRange (accesses : List Access) : Prop := ∀ a ∈ accesses, a.InRange

/-! ## `upspeed` -/

/-- Whether the sign of a NaN is shown is up to the C library. -/
inductive CFloat
  | finite (x : FiniteFloat)
  | inf (neg : Bool)
  | nan (neg : Bool)

/-- What `%.4f` makes of it. -/
def CFloat.text : CFloat → List Byte
  | .finite x => message x
  | .inf neg => (if neg then [byte '-'] else []) ++ ofString "inf"
  | .nan neg => (if neg then [byte '-'] else []) ++ ofString "nan"

/-- `recv`, the NUL behind what it got, and `printf`, which goes no further
than that NUL. -/
def replyAccesses (bytes : ℕ) : List Access :=
  [⟨.reply, 0, bytes⟩, ⟨.reply, bytes, 1⟩, ⟨.reply, 0, bytes + 1⟩]

def readEcho (echolen : ℕ) : ℤ → List ℤ → Option ℤ × List Access
  | received, [] => (if received < echolen then none else some 0, [])
  | received, bytes :: recvs =>
      if received < echolen then
        if bytes < 1 then (some (-1), [])
        else
          let r := readEcho echolen (received + bytes) recvs
          (r.1, replyAccesses bytes.toNat ++ r.2)
      else (some 0, [])

/-- `sprintf`, `LOGDD` and `strlen` with the NUL, and `send` without. -/
def bufAccesses (echolen : ℕ) : List Access :=
  [⟨.buf, 0, echolen + 1⟩, ⟨.buf, 0, echolen + 1⟩, ⟨.buf, 0, echolen + 1⟩,
    ⟨.buf, 0, echolen⟩]

def upspeed (table : ProcessTable) (opendirOk : Bool) (cmdline : List Byte)
    (net : Net) (package : List Byte) (speed : CFloat) : Option ℤ × List Access :=
  let pid := findPidOf table opendirOk cmdline (some package)
  if net.socketOk then
    match net.connect (port pid) with
    | none => (some (-1), [])
    | some _ =>
        let buf := speed.text
        if net.sendOk then
          let r := readEcho buf.length 0 net.recvs
          (r.1, bufAccesses buf.length ++ r.2)
        else (some (-1), bufAccesses buf.length)
  else (some (-1), [])

/-! ## `HandleClient` -/

/-- `recv`, `atof` on the buffer it got the bytes into, and `send`. -/
def requestAccesses (bytes buffer beyond : List Byte) : List Access :=
  [⟨.request, 0, bytes.length⟩,
    ⟨.request, 0, numberReader.looked .blank (buffer ++ beyond)⟩,
    ⟨.request, 0, bytes.length⟩]

def handleClient (beyond : List Byte) :
    List Byte → List Recv → (List ℚ × Ending) × List Access
  | _, [] => (([], .waiting), [])
  | _, .failed :: _ => (([], .died), [])
  | _, .closed :: _ => (([], .closed), [])
  | buffer, .data chunk echoed :: recvs =>
      let buffer := store buffer chunk.bytes
      let accesses := requestAccesses chunk.bytes buffer beyond
      if echoed then
        let r := handleClient beyond buffer recvs
        ((times buffer beyond :: r.1.1, r.1.2), accesses ++ r.2)
      else (([times buffer beyond], .died), accesses)

end Elfupspeed.Buffers
