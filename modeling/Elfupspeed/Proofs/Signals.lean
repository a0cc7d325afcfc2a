import Elfupspeed.Proofs.Exits
import Elfupspeed.Proofs.Moments
import Elfupspeed.Proofs.Returned

/-!
# The signals of a target that is driven

A signal for a traced process stops it, and whether it gets the signal is up to
its tracer, which hands a number on when it resumes it or lets it go: 0 is no
signal, and what had stopped the process is gone. The ledger of an injection
has the signals that were handed on and the stops that were passed over, as
the moves between the injector and its target leave them. The injector hands
on 0 throughout, so each stop goes from the target into the list of those that
were dropped, where the moves alternate.
-/

namespace Elfupspeed.Elfinject

open Elfupspeed.Lib

/-! ## Stops and signals -/

section Ledger

variable {R : Type}

/-- What happens to the target: it stops, or it is resumed or let go with the
number of a signal. -/
inductive Move (R : Type)
  | stopped (s : Stop R)
  | resumed (data : ℕ)
  | detached (data : ℕ)

def Move.stop? : Move R → Option (Stop R)
  | .stopped s => some s
  | .resumed _ | .detached _ => none

def stopsOf (moves : List (Move R)) : List (Stop R) := moves.filterMap Move.stop?

/-- `WSTOPSIG`, for a target that a signal has stopped. -/
def Stop.signal? (s : Stop R) : Option ℕ :=
  if s.stat % 256 = 127 then some (s.stat / 256 % 256).toNat else none

/-- `pending` is the stop that the target is at. -/
structure Ledger (R : Type) where
  pending : Option (Stop R) := none
  delivered : List ℕ := []
  dropped : List (Stop R) := []

def Ledger.release (l : Ledger R) (data : ℕ) : Ledger R :=
  if data = 0 then
    { l with pending := none, dropped := l.dropped ++ l.pending.toList }
  else
    { pending := none
      delivered := l.delivered ++ [data]
      dropped := l.dropped ++
        l.pending.toList.filter fun s => s.signal? ≠ some data }

def Ledger.step (l : Ledger R) : Move R → Ledger R
  | .stopped s => { l with pending := some s }
  | .resumed data | .detached data => l.release data

def Ledger.run (l : Ledger R) (moves : List (Move R)) : Ledger R :=
  moves.foldl Ledger.step l

/-- What has become of the stops: dropped, or still there. -/
def Ledger.stops (l : Ledger R) : List (Stop R) := l.dropped ++ l.pending.toList

/-- The moves deliver nothing, and they lose no stop out of sight. -/
def Settles (moves : List (Move R)) : Prop :=
  ∀ l : Ledger R, (l.run moves).delivered = l.delivered ∧
    (l.run moves).stops = l.stops ++ stopsOf moves

theorem settles_nil : Settles ([] : List (Move R)) :=
  fun l => ⟨rfl, (List.append_nil l.stops).symm⟩

theorem Settles.append {moves moves' : List (Move R)} (h : Settles moves)
    (h' : Settles moves') : Settles (moves ++ moves') := by
  intro l
  obtain ⟨hdelivered, hstops⟩ := h l
  obtain ⟨hdelivered', hstops'⟩ := h' (l.run moves)
  have hrun : l.run (moves ++ moves') = (l.run moves).run moves' :=
    List.foldl_append
  refine ⟨by rw [hrun, hdelivered', hdelivered], ?_⟩
  rw [hrun, hstops', hstops, stopsOf, stopsOf, stopsOf, List.filterMap_append,
    List.append_assoc]

theorem settles_flatMap {α : Type} (f : α → List (Move R)) (xs : List α)
    (h : ∀ x ∈ xs, Settles (f x)) : Settles (xs.flatMap f) := by
  induction xs with
  | nil => exact settles_nil
  | cons x xs ih =>
      rw [List.flatMap_cons]
      exact (h x List.mem_cons_self).append
        (ih fun y hy => h y (List.mem_cons_of_mem x hy))

theorem release_zero_stops (l : Ledger R) : (l.release 0).stops = l.stops := by
  rw [Ledger.release, if_pos rfl]
  exact List.append_nil _

theorem settles_resumed : Settles [Move.resumed (R := R) 0] := by
  intro l
  refine ⟨rfl, ?_⟩
  show (l.release 0).stops = l.stops ++ []
  rw [release_zero_stops, List.append_nil]

theorem settles_detached : Settles [Move.detached (R := R) 0] := settles_resumed

theorem settles_stopped (s : Stop R) :
    Settles [Move.resumed 0, Move.stopped s] := by
  intro l
  refine ⟨rfl, ?_⟩
  show l.dropped ++ l.pending.toList ++ [s] = l.stops ++ [s]
  rfl

end Ledger

/-! ## The moves of an injection -/

section Moves

variable {R : Type}

def ptraceContinue : Move R := .resumed 0

def ptraceDetach : Move R := .detached 0

def loopMoves : List (Option (Stop R) × Bool) → List (Move R)
  | [] => []
  | (some s, continueOk) :: waits =>
      .stopped s ::
        if s.stat = 0xb7f then []
        else if continueOk then ptraceContinue :: loopMoves waits else []
  | (none, continueOk) :: waits =>
      if continueOk then ptraceContinue :: loopMoves waits else []

def CallEnv.moves (env : CallEnv R) : List (Move R) :=
  if env.setregsOk && env.continueOk then ptraceContinue :: loopMoves env.waits
  else []

/-- The moves of the calls that are made, and of the detaching in the end. -/
def injectionMoves (arch : Arch R) (env : Env R) (syms : Symbols)
    (libraryPath cydiaPath functionName param : List Byte) (t : Target R) :
    List (Move R) :=
  let made := fun k => (resumedAt arch env syms libraryPath cydiaPath functionName
    param t k).isSome
  let out := (injectRemoteProcess arch env syms libraryPath cydiaPath functionName
    param).run t
  (Site.all.filter made).flatMap (fun k => (env.call k).moves) ++
    if out.1.isOk && env.detachOk then [ptraceDetach] else []

/-- A target as a move leaves it. -/
def Target.moved (t : Target R) : Move R → Target R
  | .stopped s => t.stopAt s
  | .resumed _ | .detached _ => t

theorem waitLoop_moved (waits : List (Option (Stop R) × Bool)) {stat : ℤ}
    (hstat : stat ≠ 0xb7f) (t : Target R) :
    ((waitLoop waits stat).run t).2 = (loopMoves waits).foldl Target.moved t := by
  induction waits generalizing stat t with
  | nil => rfl
  | cons w waits ih =>
      obtain ⟨wait, continueOk⟩ := w
      cases wait with
      | none =>
          rw [waitLoop_none hstat, loopMoves]
          cases continueOk with
          | true => exact ih hstat t
          | false => rfl
      | some s =>
          rw [waitLoop_some, loopMoves]
          by_cases hs : s.stat = 0xb7f
          · rw [if_pos hs, if_pos hs]
            rfl
          · rw [if_neg hs, if_neg hs]
            cases continueOk with
            | true => exact ih hs (t.stopAt s)
            | false => rfl

/-- The moves of a call leave the target as the call does. -/
theorem ptraceCall_moved {arch : Arch R} {env : CallEnv R}
    (hset : env.setregsOk = true) (hcont : env.continueOk = true) (addr : Word)
    (params : List Word) (regs : R) (t : Target R) :
    ((ptraceCall arch env addr params regs).run t).2 =
      env.moves.foldl Target.moved { t with
        mem := (arch.enter t.mem regs addr params).2
        regs := (arch.enter t.mem regs addr params).1 } := by
  rw [ptraceCall_of_resumed hset hcont, waitLoop_moved _ (by omega), CallEnv.moves,
    hset, hcont]
  rfl

theorem settles_loop (waits : List (Option (Stop R) × Bool)) :
    Settles (ptraceContinue :: loopMoves waits) := by
  induction waits with
  | nil => exact settles_resumed
  | cons w waits ih =>
      obtain ⟨wait, continueOk⟩ := w
      cases wait with
      | none =>
          rw [loopMoves]
          cases continueOk with
          | true => exact settles_resumed.append ih
          | false => exact settles_resumed
      | some s =>
          rw [loopMoves]
          split
          · exact settles_stopped s
          · cases continueOk with
            | true => exact (settles_stopped s).append ih
            | false => exact settles_stopped s

theorem settles_call (env : CallEnv R) : Settles env.moves := by
  rw [CallEnv.moves]
  split
  · exact settles_loop env.waits
  · exact settles_nil

theorem settles_injection (arch : Arch R) (env : Env R) (syms : Symbols)
    (libraryPath cydiaPath functionName param : List Byte) (t : Target R) :
    Settles (injectionMoves arch env syms libraryPath cydiaPath functionName param
      t) := by
  refine (settles_flatMap _ _ fun k _ => settles_call (env.call k)).append ?_
  split
  · exact settles_detached
  · exact settles_nil

end Moves

/-! ## No signal is handed on -/

section Conserves

variable (b : Build)

/-- The signals that a list of stops has for the target: all but the faults of
returns. -/
def Build.due (stops : List (Stop b.Regs)) : List ℕ :=
  (stops.filter fun s => !decide (b.ReturnFault s)).filterMap Stop.signal?

/-- Every signal due to the target was delivered to it once, or the target is
still at that stop. -/
def Build.Conserves (moves : List (Move b.Regs)) : Prop :=
  let l := Ledger.run {} moves
  (l.delivered ++ b.due l.pending.toList).Perm (b.due (stopsOf moves))

variable {b}

theorem due_append (stops stops' : List (Stop b.Regs)) :
    b.due (stops ++ stops') = b.due stops ++ b.due stops' := by
  rw [Build.due, List.filter_append, List.filterMap_append]
  rfl

theorem due_eq_nil {stops : List (Stop b.Regs)} :
    b.due stops = [] ↔ ∀ s ∈ stops, b.ReturnFault s ∨ s.signal? = none := by
  simp only [Build.due, List.filterMap_eq_nil_iff, List.mem_filter,
    Bool.not_eq_true', decide_eq_false_iff_not, and_imp, or_iff_not_imp_left]

theorem conserves_iff {moves : List (Move b.Regs)} (h : Settles moves) :
    b.Conserves moves ↔ ∀ s ∈ (Ledger.run {} moves).dropped,
      b.ReturnFault s ∨ s.signal? = none := by
  obtain ⟨hdelivered, hstops⟩ := h {}
  have hall : stopsOf moves = (Ledger.run {} moves).dropped ++
      (Ledger.run {} moves).pending.toList := hstops.symm
  rw [Build.Conserves, hall, hdelivered, due_append, List.perm_append_right_iff,
    List.nil_perm, due_eq_nil]

/-- In every injection, with any stops in any of its calls, no signal is handed
on: each stop is dropped in its turn, but for one that the target is left at.
So the signals are kept just where the stops that were dropped are the faults
of returns. -/
theorem signals_dropped (b : Build) (env : Env b.Regs) (syms : Symbols)
    (libraryPath cydiaPath functionName param : List Byte) (t : Target b.Regs) :
    let moves := injectionMoves b.arch env syms libraryPath cydiaPath functionName
      param t
    let l := Ledger.run {} moves
    l.delivered = [] ∧ l.dropped ++ l.pending.toList = stopsOf moves ∧
      (b.Conserves moves ↔ ∀ s ∈ l.dropped,
        b.ReturnFault s ∨ s.signal? = none) := by
  have h := settles_injection b.arch env syms libraryPath cydiaPath functionName
    param t
  exact ⟨(h {}).1, (h {}).2, conserves_iff h⟩

/-- `SIGUSR1` stops the target in `mmap`, which then returns. -/
def interrupted : Env PtRegs :=
  { replies 0x40000000 1 2 3 0 0 with
    mmap := { returning 0x40000000 with
      waits := [(some ⟨0xa7f, r0Regs 5, fun _ => none⟩, true),
        (some ⟨0xb7f, r0Regs 0x40000000, fun _ => none⟩, true)] } }

/-- The target never gets that signal. -/
theorem interrupted_not_conserved :
    ¬ Build.Conserves .arm (injectionMoves arm interrupted symbolsAt [97] [98] [99] []
      (.found (r0Regs 7) fun _ => none)) := by
  have hsettles := settles_injection arm interrupted symbolsAt [97] [98] [99] []
    (.found (r0Regs 7) fun _ => none)
  intro h
  have hdue := due_eq_nil.mpr ((conserves_iff (b := .arm) hsettles).mp h)
  revert hdue
  decide +kernel

end Conserves

end Elfupspeed.Elfinject
