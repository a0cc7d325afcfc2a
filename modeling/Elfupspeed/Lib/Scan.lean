import Elfupspeed.Lib.Decimal

/-!
# How far a reader looks

A reader goes over a string element by element, as long as what it has read can
be the beginning of something that it reads, and the element it cannot go on
with it has looked at too. Only where nothing could follow does it look no
further. If the string is over before, it looks at what stands behind the
string, and `looked_le_iff` says when it does not.

`atof` is such a reader. The numbers it is documented to read are decimal ones,
hexadecimal ones, infinities and NaN, and `numberReader` has a state for each
place in these that it may have come to.
-/

namespace Elfupspeed.Lib

/-- `step` gives nothing for an element that cannot be gone on with. -/
structure Reader (α σ : Type*) where
  step : σ → α → Option σ
  complete : σ → Bool

namespace Reader

variable {α σ : Type*} (r : Reader α σ)

/-- The number of elements that are looked at from a state on; what is behind
the string counts as one more. -/
def looked : σ → List α → ℕ
  | q, [] => if r.complete q then 0 else 1
  | q, a :: s =>
      if r.complete q then 0
      else
        match r.step q a with
        | some q' => looked q' s + 1
        | none => 1

/-- The reader comes to its end in the string. -/
def ends : σ → List α → Bool
  | q, [] => r.complete q
  | q, a :: s =>
      r.complete q ||
        match r.step q a with
        | some q' => ends q' s
        | none => true

/-- A reader keeps to a string, with whatever behind it, if and only if it
comes to its end there. -/
theorem looked_le_iff (q : σ) (s t : List α) :
    r.looked q (s ++ t) ≤ s.length ↔ r.ends q s = true := by
  induction s generalizing q with
  | nil =>
      rw [List.nil_append, ends]
      cases t with
      | nil => cases hcomplete : r.complete q <;> simp [looked, hcomplete]
      | cons a t =>
          cases hcomplete : r.complete q with
          | true => simp [looked, hcomplete]
          | false => cases hstep : r.step q a <;> simp [looked, hcomplete, hstep]
  | cons a s ih =>
      rw [List.cons_append, looked, ends]
      cases r.complete q with
      | true => simp
      | false =>
          cases hstep : r.step q a with
          | some q' => simpa using ih q'
          | none => simp

variable {r}

/-- An element that cannot be gone on with ends the reading, wherever it is. -/
theorem ends_of_mem {a : α} (ha : ∀ q, r.step q a = none) {s : List α} (hs : a ∈ s)
    (q : σ) : r.ends q s = true := by
  induction s generalizing q with
  | nil => cases hs
  | cons b s ih =>
      rw [ends, Bool.or_eq_true]
      refine .inr ?_
      cases hstep : r.step q b with
      | none => rfl
      | some q' =>
          rcases List.mem_cons.mp hs with rfl | hs
          · rw [ha] at hstep
            cases hstep
          · exact ih hs q'

end Reader

namespace CString

def isSign (b : Byte) : Bool := b = byte '-' ∨ b = byte '+'

def isxdigit (b : Byte) : Bool := (hexDigit b).isSome

def tolower (b : Byte) : Byte := if 65 ≤ b ∧ b ≤ 90 then b + 32 else b

/-- What may stand between the parentheses behind `nan`. -/
def isNanChar (b : Byte) : Bool :=
  isdigit b ∨ 97 ≤ tolower b ∧ tolower b ≤ 122 ∨ b = byte '_'

/-- Where in a number `atof` has come to. -/
inductive NumberState
  | blank
  | signed
  /-- A 0 in front, which an `x` may follow. -/
  | zero
  | digits
  /-- A point that no digit stands before. -/
  | point
  | fraction
  | exponent
  | exponentSigned
  | exponentDigits
  | hex
  | hexDigits
  | hexPoint
  | hexFraction
  /-- So many letters of the word. -/
  | infinity (letters : ℕ)
  | nan (letters : ℕ)
  | nanChars
  | nanClosed

/-- Behind the sign, if there is one. -/
def firstStep (b : Byte) : Option NumberState :=
  if b = byte '0' then some .zero
  else if isdigit b then some .digits
  else if b = byte '.' then some .point
  else if tolower b = byte 'i' then some (.infinity 1)
  else if tolower b = byte 'n' then some (.nan 1)
  else none

def digitsStep (b : Byte) : Option NumberState :=
  if isdigit b then some .digits
  else if b = byte '.' then some .fraction
  else if tolower b = byte 'e' then some .exponent
  else none

def numberStep : NumberState → Byte → Option NumberState
  | .blank, b =>
      if isspace b then some .blank
      else if isSign b then some .signed
      else firstStep b
  | .signed, b => firstStep b
  | .zero, b => if tolower b = byte 'x' then some .hex else digitsStep b
  | .digits, b => digitsStep b
  | .point, b => if isdigit b then some .fraction else none
  | .fraction, b =>
      if isdigit b then some .fraction
      else if tolower b = byte 'e' then some .exponent
      else none
  | .exponent, b =>
      if isSign b then some .exponentSigned
      else if isdigit b then some .exponentDigits
      else none
  | .exponentSigned, b | .exponentDigits, b =>
      if isdigit b then some .exponentDigits else none
  | .hex, b =>
      if isxdigit b then some .hexDigits
      else if b = byte '.' then some .hexPoint
      else none
  | .hexDigits, b =>
      if isxdigit b then some .hexDigits
      else if b = byte '.' then some .hexFraction
      else if tolower b = byte 'p' then some .exponent
      else none
  | .hexPoint, b => if isxdigit b then some .hexFraction else none
  | .hexFraction, b =>
      if isxdigit b then some .hexFraction
      else if tolower b = byte 'p' then some .exponent
      else none
  | .infinity letters, b =>
      if (ofString "infinity")[letters]? = some (tolower b) then
        some (.infinity (letters + 1))
      else none
  | .nan letters, b =>
      if (ofString "nan")[letters]? = some (tolower b) then some (.nan (letters + 1))
      else if letters = 3 ∧ b = byte '(' then some .nanChars
      else none
  | .nanChars, b =>
      if b = byte ')' then some .nanClosed
      else if isNanChar b then some .nanChars
      else none
  | .nanClosed, _ => none

/-- `atof`, which looks at nothing behind `infinity` and the parenthesis that
closes a NaN. -/
def numberReader : Reader Byte NumberState where
  step := numberStep
  complete
    | .infinity 8 | .nanClosed => true
    | _ => false

/-- A NUL ends every number. -/
theorem numberStep_nul (q : NumberState) : numberStep q 0 = none := by
  cases q with
  | infinity letters =>
      have hletter : (ofString "infinity")[letters]? ≠ some (tolower 0) := by
        intro h
        exact absurd (List.mem_of_getElem? h) (by decide)
      rw [numberStep, if_neg hletter]
  | nan letters =>
      have hletter : (ofString "nan")[letters]? ≠ some (tolower 0) := by
        intro h
        exact absurd (List.mem_of_getElem? h) (by decide)
      rw [numberStep, if_neg hletter, if_neg fun h => absurd h.2 (by decide)]
  | _ => decide

example : numberReader.looked .blank (ofString "-0x1.8p-3 1") = 10 := by decide

example : numberReader.looked .blank (ofString "Infinity") = 8 := by decide

example : numberReader.looked .blank (ofString "  nan(1") = 8 := by decide

end CString

end Elfupspeed.Lib
