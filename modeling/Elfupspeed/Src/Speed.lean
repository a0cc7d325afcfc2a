import Elfupspeed.Lib.Mealy
import Elfupspeed.Lib.Round

/-!
# speed.cpp: the two clock hooks and the scale they share

The library replaces `gettimeofday` and `clock_gettime` by functions that ask
the original for the time and hand back another one: the time the process
would have seen if its clock ran `g_times` as fast. Everything it remembers
between calls is in file statics, so the model is a machine over those.

The three places that scale a difference (`new_gettimeofday` and the two
halves of `new_clock_gettime`) are one computation in three copies, with
different statics, different integer types and different units; `rebase` is
that computation. Each copy remembers the last underlying reading and the
last time it handed out, and a remembered reading of 0 means that there is
none yet.

What the integers and the product are is a parameter. The build computes in
64-bit integers, narrows the fields to 32 bits and multiplies in single
precision; the same functions over unbounded integers, with a product that is
exact or that rounds in any way at all, say what the design does before the
number formats have their say.
-/

namespace Elfupspeed.Speed

open Elfupspeed.Lib

/-! ## The number formats -/

/-- Single precision: 24 significant bits. The exponent is left unbounded,
which no argument in the range of a `float` and no 64-bit difference can tell. A
request out of that range can, as HandleClient narrows what `atof` gives: of
"-1e-50" the code makes a zero, and this a number below 0. -/
def f32 (x : ℚ) : ℚ := Round.sig 24 x

def f64 (x : ℚ) : ℚ := Round.sig 53 x

/-- What the hooks compute in: the conversions to `int64_t`, to `uint64_t`
and to the 32-bit `long` that `time_t` and `suseconds_t` are on the build's
targets, and `diff * g_times` as it lands in an `int64_t`. -/
structure Arith where
  i64 : ℤ → ℤ
  u64 : ℤ → ℤ
  long : ℤ → ℤ
  mulTimes : ℤ → ℚ → ℤ

/-- The build's own arithmetic. `diff` is converted to `float` before it is
multiplied; where the product does not fit an `int64_t` the conversion back
is undefined, and wrapping stands for whatever happens there. -/
def Arith.machine : Arith where
  i64 x := x.bmod (2 ^ 64)
  u64 x := x % 2 ^ 64
  long x := x.bmod (2 ^ 32)
  mulTimes diff times := (Round.trunc (f32 (f32 diff * times))).bmod (2 ^ 64)

/-- Unbounded integers, with a product of one's choosing. -/
def Arith.unbounded (mulTimes : ℤ → ℚ → ℤ) : Arith where
  i64 x := x
  u64 x := x
  long x := x
  mulTimes := mulTimes

/-- The product exact, and then truncated towards zero. -/
def exactTimes (diff : ℤ) (times : ℚ) : ℤ := Round.trunc ((diff : ℚ) * times)

def Arith.exact : Arith := .unbounded exactTimes

@[simp] theorem unbounded_i64 (mul : ℤ → ℚ → ℤ) (x : ℤ) :
    (Arith.unbounded mul).i64 x = x := rfl

@[simp] theorem unbounded_u64 (mul : ℤ → ℚ → ℤ) (x : ℤ) :
    (Arith.unbounded mul).u64 x = x := rfl

@[simp] theorem unbounded_long (mul : ℤ → ℚ → ℤ) (x : ℤ) :
    (Arith.unbounded mul).long x = x := rfl

@[simp] theorem unbounded_mulTimes (mul : ℤ → ℚ → ℤ) :
    (Arith.unbounded mul).mulTimes = mul := rfl

/-! ## The statics -/

structure Timeval where
  tvSec : ℤ
  tvUsec : ℤ
  deriving DecidableEq, Repr

structure Timespec where
  tvSec : ℤ
  tvNsec : ℤ
  deriving DecidableEq, Repr

abbrev ClockId := ℤ

def clockRealtime : ClockId := 0

def clockMonotonic : ClockId := 1

/-- The statics of one copy of the computation: the underlying reading it was
last called at and the time it handed out then. -/
structure Saved where
  saved : ℤ := 0
  last : ℤ := 0
  deriving DecidableEq, Repr

inductive Entry where
  | original
  | hook
  deriving DecidableEq, Repr

/-- A hooked symbol and the `old_` pointer beside it, null until a hook has
been installed. -/
structure Redirect where
  symbol : Entry := .original
  old : Option Entry := none
  deriving DecidableEq, Repr

structure Globals where
  isHooked : Bool := true
  gTimes : ℚ := 1
  gettimeofday : Redirect := {}
  clockGettime : Redirect := {}
  savedUsecs : Saved := {}
  savedNsecsClkMono : Saved := {}
  savedNsecsClkReal : Saved := {}
  deriving DecidableEq, Repr

/-! ## The hooks -/

/-- One copy of the computation: `unit` counts the fraction's units in a
second and `store` is the conversion to the type of the copy's statics. It
answers the statics and the two fields of the time structure, which the first
call leaves as the original wrote them. -/
def rebase (A : Arith) (store : ℤ → ℤ) (unit : ℤ) (gTimes : ℚ) (s : Saved)
    (sec frac : ℤ) : Saved × ℤ × ℤ :=
  let cur := A.i64 (sec * unit + frac)
  if s.saved = 0 then
    (⟨store cur, store cur⟩, sec, frac)
  else
    let diff := A.i64 (cur - s.saved)
    let diff := A.mulTimes diff gTimes
    let ret := A.i64 (s.last + diff)
    (⟨store cur, store ret⟩, A.long (ret.tdiv unit), A.long (ret.tmod unit))

/-- `res` and `ptv` are what the call of `old_gettimeofday` returned and what
it wrote. -/
def newGettimeofday (A : Arith) (g : Globals) (res : ℤ) (ptv : Timeval) :
    Globals × ℤ × Timeval :=
  if res ≠ 0 then (g, res, ptv)
  else
    let r := rebase A A.u64 1000000 g.gTimes g.savedUsecs ptv.tvSec ptv.tvUsec
    ({ g with savedUsecs := r.1 }, 0, ⟨r.2.1, r.2.2⟩)

/-- The monotonic statics are `int64_t`, the other pair `uint64_t`, and every
clock that is not `CLOCK_MONOTONIC` goes through the other pair. -/
def newClockGettime (A : Arith) (g : Globals) (clkId : ClockId) (res : ℤ)
    (ptp : Timespec) : Globals × ℤ × Timespec :=
  if res ≠ 0 then (g, res, ptp)
  else if clkId = clockMonotonic then
    let r := rebase A A.i64 1000000000 g.gTimes g.savedNsecsClkMono
      ptp.tvSec ptp.tvNsec
    ({ g with savedNsecsClkMono := r.1 }, 0, ⟨r.2.1, r.2.2⟩)
  else
    let r := rebase A A.u64 1000000000 g.gTimes g.savedNsecsClkReal
      ptp.tvSec ptp.tvNsec
    ({ g with savedNsecsClkReal := r.1 }, 0, ⟨r.2.1, r.2.2⟩)

/-! ## The setter -/

/-- `MSHookFunction`: the symbol runs the hook from now on, and the pointer
gets an entry that runs what the symbol ran before. -/
def mSHookFunction (r : Redirect) : Redirect := ⟨.hook, some r.symbol⟩

def doSpeedHook (g : Globals) : Globals :=
  { g with
    gettimeofday := mSHookFunction g.gettimeofday
    clockGettime := mSHookFunction g.clockGettime }

/-- The `switch` on the truncated request: its constants are doubles that
assignment rounds to single precision, and a request with no case leaves the
scale alone. -/
def switchTimes (gTimes : ℚ) : ℤ → ℚ
  | -1 => f32 (f64 (1 / 2))
  | -2 => f32 (f64 (2 / 5))
  | -3 => f32 (f64 (33 / 100))
  | -4 => f32 (f64 (1 / 4))
  | -5 => f32 (f64 (1 / 5))
  | -10 => f32 (f64 (1 / 10))
  | _ => gTimes

def timesAfter (gTimes result : ℚ) : ℚ :=
  if 0 ≤ result then f32 (result + 1)
  else switchTimes gTimes (Round.trunc result)

def setTimeScale (g : Globals) (result : ℚ) : Globals × ℤ :=
  let g := if g.isHooked then { doSpeedHook g with isHooked := false } else g
  ({ g with gTimes := timesAfter g.gTimes result }, 0)

/-! ## The entry into the process -/

/-- `startServer`, up to the server it runs from then on. -/
def startServer (g : Globals) : Globals :=
  { doSpeedHook g with isHooked := false }

/-- `hook_entry`, which does not look at whether `pthread_create` worked. -/
def hookEntry (g : Globals) (created : Bool) : Globals :=
  if created then startServer g else g

/-! ## The machine -/

/-- A call into the library. A clock call carries the outcome of the call of
the original function it makes. -/
inductive Call where
  | newGettimeofday (res : ℤ) (ptv : Timeval)
  | newClockGettime (clkId : ClockId) (res : ℤ) (ptp : Timespec)
  | setTimeScale (result : ℚ)
  deriving DecidableEq, Repr

inductive Reply where
  | newGettimeofday (res : ℤ) (ptv : Timeval)
  | newClockGettime (res : ℤ) (ptp : Timespec)
  | setTimeScale (res : ℤ)
  deriving DecidableEq, Repr

def machine (A : Arith) : Mealy Globals Call Reply where
  step g
    | .newGettimeofday res ptv =>
        let r := newGettimeofday A g res ptv
        (r.1, .newGettimeofday r.2.1 r.2.2)
    | .newClockGettime clkId res ptp =>
        let r := newClockGettime A g clkId res ptp
        (r.1, .newClockGettime r.2.1 r.2.2)
    | .setTimeScale result =>
        let r := setTimeScale g result
        (r.1, .setTimeScale r.2)

end Elfupspeed.Speed
