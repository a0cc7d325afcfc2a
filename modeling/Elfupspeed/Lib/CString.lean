import Mathlib.Data.BitVec
import Mathlib.Data.Int.Notation
import Mathlib.Data.List.Infix
import Mathlib.Data.List.TakeWhile

/-!
# C strings and the library calls on them

A C string is the part of a byte buffer before its first NUL, and the calls
below are described on buffers, so that what stands behind the NUL is there
for whoever forgets to write one. Files are the list of their bytes. The
characters of a C literal are ASCII here.
-/

namespace Elfupspeed.Lib

abbrev Byte := BitVec 8

namespace CString

def byte (c : Char) : Byte := BitVec.ofNat 8 c.toNat

def ofString (s : String) : List Byte := s.toList.map byte

/-- The string a buffer holds. -/
def cstr (buf : List Byte) : List Byte := buf.takeWhile (· ≠ 0)

/-- A buffer after `data` was stored at its front. -/
def store (buf data : List Byte) : List Byte := data ++ buf.drop data.length

/-- What the first call of `fgets` stores, without the NUL: the bytes up to
the end of the line, and no more than `size - 1` of them. Nothing is stored at
the end of the file. -/
def fgets (size : Nat) : List Byte → List Byte
  | [] => []
  | b :: bs =>
      match size with
      | 0 | 1 => []
      | n + 2 => if b = byte '\n' then [b] else b :: fgets (n + 1) bs

/-- What the calls of `fgets` in a loop store one after the other, when the
current one has `room` bytes left. -/
def fgetsAll (size : Nat) : Nat → List Byte → List (List Byte)
  | _, [] => []
  | room, b :: bs =>
      if b = byte '\n' ∨ room ≤ 1 then [b] :: fgetsAll size (size - 1) bs
      else
        match fgetsAll size (room - 1) bs with
        | [] => [[b]]
        | line :: lines => (b :: line) :: lines

def strstr (haystack needle : List Byte) : Bool :=
  haystack.tails.any (needle.isPrefixOf ·)

/-- The first token, for one delimiter; `none` is the null pointer. -/
def strtok (s : List Byte) (delim : Byte) : Option (List Byte) :=
  match (s.dropWhile (· = delim)).takeWhile (· ≠ delim) with
  | [] => none
  | b :: token => some (b :: token)

def isspace (b : Byte) : Bool := b = 32 ∨ 9 ≤ b ∧ b ≤ 13

def isdigit (b : Byte) : Bool := 48 ≤ b ∧ b ≤ 57

def sign : List Byte → Bool × List Byte
  | b :: bs =>
      if b = byte '-' then (true, bs)
      else if b = byte '+' then (false, bs)
      else (false, b :: bs)
  | [] => (false, [])

def hexDigit (b : Byte) : Option Nat :=
  if isdigit b then some (b.toNat - 48)
  else if 97 ≤ b ∧ b ≤ 102 then some (b.toNat - 87)
  else if 65 ≤ b ∧ b ≤ 70 then some (b.toNat - 55)
  else none

/-- The number that the hexadecimal digits at the front of a string spell,
after the `acc` read so far. -/
def readHex (acc : Nat) : List Byte → Nat
  | [] => acc
  | b :: bs =>
      match hexDigit b with
      | none => acc
      | some d => readHex (16 * acc + d) bs

def skip0x : List Byte → List Byte
  | z :: x :: bs =>
      if z = byte '0' ∧ (x = byte 'x' ∨ x = byte 'X') then bs
      else z :: x :: bs
  | bs => bs

/-- `strtoul` in base 16, for a 32-bit `unsigned long`: too large a number
gives the largest, a minus sign negates modulo `2 ^ 32`. -/
def strtoul16 (s : List Byte) : BitVec 32 :=
  let (neg, digits) := sign (s.dropWhile (isspace ·))
  let n := readHex 0 (skip0x digits)
  if 0x100000000 ≤ n then BitVec.allOnes 32
  else if neg then -BitVec.ofNat 32 n
  else BitVec.ofNat 32 n

def readDec (acc : Nat) : List Byte → Nat
  | [] => acc
  | b :: bs => if isdigit b then readDec (10 * acc + (b.toNat - 48)) bs else acc

/-- `atoi`, for numbers that fit an `int`. -/
def atoi (s : List Byte) : ℤ :=
  let (neg, digits) := sign (s.dropWhile (isspace ·))
  if neg then -(readDec 0 digits : ℤ) else readDec 0 digits

theorem cstr_eq_self {s : List Byte} (h : ∀ b ∈ s, b ≠ 0) : cstr s = s := by
  rw [cstr, List.takeWhile_eq_self_iff]
  simpa using h

theorem cstr_append_nul (s t : List Byte) : cstr (s ++ 0 :: t) = cstr s := by
  induction s with
  | nil => rfl
  | cons b s ih =>
      by_cases hb : b = 0
      · simp [cstr, hb]
      · rw [cstr, cstr, List.cons_append,
          List.takeWhile_cons_of_pos (by simpa using hb),
          List.takeWhile_cons_of_pos (by simpa using hb)]
        exact congrArg (b :: ·) ih

theorem strtok_ne_none {s : List Byte} {delim : Byte}
    (h : ∃ b ∈ s, b ≠ delim) : strtok s delim ≠ none := by
  obtain ⟨b, hb, hne⟩ := h
  have hdrop : s.dropWhile (· = delim) ≠ [] := by
    intro hnil
    exact hne (by simpa using List.dropWhile_eq_nil_iff.mp hnil b hb)
  have hhead := List.head_dropWhile_not (fun b => decide (b = delim)) hdrop
  cases hs : s.dropWhile (· = delim) with
  | nil => exact absurd hs hdrop
  | cons x xs =>
      have hx : x ≠ delim := by simpa [hs] using hhead
      simp [strtok, hs, hx]

theorem mem_of_strstr {haystack needle : List Byte} {b : Byte}
    (h : strstr haystack needle = true) (hb : b ∈ needle) : b ∈ haystack := by
  simp only [strstr, List.any_eq_true, List.mem_tails,
    List.isPrefixOf_iff_prefix] at h
  obtain ⟨t, ht, hp⟩ := h
  exact ht.subset (hp.subset hb)

example : fgetsAll 5 4 (ofString "ab\ncdefg") =
    [ofString "ab\n", ofString "cdef", ofString "g"] := by decide

example : strtoul16 (ofString " 0xb0001000") = 0xb0001000#32 := by decide

end CString

end Elfupspeed.Lib
