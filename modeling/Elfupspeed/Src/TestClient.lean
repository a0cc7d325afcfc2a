import Elfupspeed.Lib.CString

/-!
# `testclient.cpp`: sending a word by hand

The loop of `upspeed` without its returns: when a call fails `main` says so and
goes on. What a `recv` gives is added to what was received so far, whatever it
is, and a NUL is stored behind it.
-/

namespace Elfupspeed.TestClient

open Elfupspeed.Lib Elfupspeed.Lib.CString

/-- `BUFFSIZE`, of which one byte is left for the NUL. -/
def buffsize : ℕ := 32

/-- What a `recv` of `BUFFSIZE - 1` bytes does. -/
inductive Recv
  | data (bytes : List Byte) (pos : bytes ≠ []) (le : bytes.length ≤ buffsize - 1)
  | closed
  | failed

/-- `bytes` -/
def Recv.result : Recv → ℤ
  | .data bytes _ _ => bytes.length
  | .closed => 0
  | .failed => -1

/-- The buffer after the `recv` and the NUL behind it. Behind a `recv` that
failed is the byte in front of the buffer. -/
def Recv.stored (buffer : List Byte) : Recv → List Byte
  | .data bytes _ _ => store buffer (bytes ++ [0])
  | .closed => store buffer [0]
  | .failed => buffer

/-- What the loop has done. -/
structure Reading where
  printed : List Byte := []
  /-- How often it said that it failed to receive. -/
  complaints : ℕ := 0
  /-- How often the NUL went in front of the buffer. -/
  outside : ℕ := 0
  /-- Whether it has ended, or waits for more. -/
  ended : Bool
  deriving DecidableEq

/-- The `int` is converted for the comparison with the `unsigned int`. -/
def less (received : ℤ) (echolen : ℕ) : Bool :=
  (received % 2 ^ 32).toNat < echolen

/-- The loop of `main`, with the memory behind the buffer, into which a text
without a NUL runs on. -/
def readLoop (echolen : ℕ) (beyond : List Byte) :
    ℤ → List Byte → List Recv → Reading
  | received, _, [] => { ended := !less received echolen }
  | received, buffer, bytes :: recvs =>
      if less received echolen then
        let buffer := bytes.stored buffer
        let r := readLoop echolen beyond (received + bytes.result) buffer recvs
        { printed := cstr (buffer ++ beyond) ++ r.printed
          complaints := r.complaints + if bytes.result < 1 then 1 else 0
          outside := r.outside + if bytes.result < 0 then 1 else 0
          ended := r.ended }
      else { ended := true }

/-- What is received of the echo of a word, from the first `recv` on. The
length is kept in an `unsigned int`. -/
def reading (word buffer beyond : List Byte) (recvs : List Recv) : Reading :=
  readLoop (word.length % 2 ^ 32) beyond 0 buffer recvs

end Elfupspeed.TestClient
