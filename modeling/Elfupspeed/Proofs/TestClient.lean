import Elfupspeed.Src.ServerClient
import Elfupspeed.Src.TestClient
import Mathlib.Algebra.Order.Group.Int
import Mathlib.Algebra.BigOperators.Group.List.Basic

/-!
# When the test client is done

`main` counts what it is given and stops when the count, as an unsigned number,
is that of the word. A connection that was closed gives 0 each time, so the
loop never stops on one; a `recv` that fails takes 1 away again, and below zero
the count is as large as can be. `upspeed` returns -1 in both cases.
-/

namespace Elfupspeed.TestClient

open Elfupspeed.Lib Elfupspeed.Lib.CString
open Elfupspeed.ServerClient (readEcho)

/-- What the first calls of `recv` add up to. -/
def total (recvs : List Recv) : ℤ := (recvs.map Recv.result).sum

/-- The bytes that came. -/
def Recv.text : Recv → List Byte
  | .data bytes _ _ => bytes
  | .closed | .failed => []

section Loop

variable {n : ℕ} {r : ℤ} {beyond buffer : List Byte}

theorem result_bounds (x : Recv) : -1 ≤ x.result ∧ x.result ≤ 31 := by
  cases x with
  | data bytes pos le =>
      simp only [buffsize] at le
      simp only [Recv.result]
      omega
  | closed => decide
  | failed => decide

/-- As long as nothing overflows, the loop goes on just where the count is
between 0 and the length. -/
theorem less_iff (hn : n < 2 ^ 31) (hlow : -1 ≤ r) (hhigh : r ≤ n + 31) :
    less r n = true ↔ 0 ≤ r ∧ r < n := by
  rw [less, decide_eq_true_iff]
  rcases Int.lt_or_le r 0 with hneg | hpos
  · obtain rfl : r = -1 := by omega
    omega
  · rw [Int.emod_eq_of_lt hpos (by omega)]
    omega

theorem total_cons (x : Recv) (recvs : List Recv) :
    total (x :: recvs) = x.result + total recvs :=
  List.sum_cons

theorem ended_iff (hn : n < 2 ^ 31) (recvs : List Recv) (hlow : -1 ≤ r)
    (hhigh : r ≤ n + 31) (buffer : List Byte) :
    (readLoop n beyond r buffer recvs).ended = true ↔
      ∃ k ≤ recvs.length, r + total (recvs.take k) < 0 ∨
        n ≤ r + total (recvs.take k) := by
  have hless := less_iff hn hlow hhigh
  induction recvs generalizing r buffer with
  | nil =>
      have hnil : (readLoop n beyond r buffer []).ended = !less r n := rfl
      have hzero : total [] = 0 := rfl
      rw [hnil, Bool.not_eq_true', ← Bool.not_eq_true, hless]
      constructor
      · intro h
        exact ⟨0, Nat.le_refl 0, by rw [List.take_nil, hzero]; omega⟩
      · intro h
        obtain ⟨k, -, h⟩ := h
        rw [List.take_nil, hzero] at h
        omega
  | cons x recvs ih =>
      have hx := result_bounds x
      by_cases hgo : less r n = true
      · have hrange := hless.mp hgo
        have hstep : (readLoop n beyond r buffer (x :: recvs)).ended =
            (readLoop n beyond (r + x.result) (x.stored buffer) recvs).ended := by
          rw [readLoop, if_pos hgo]
        have hrest := ih (r := r + x.result) (by omega) (by omega)
          (x.stored buffer) (less_iff hn (by omega) (by omega))
        rw [hstep]
        refine hrest.trans ?_
        constructor
        · intro h
          obtain ⟨k, hk, h⟩ := h
          refine ⟨k + 1, by simpa using hk, ?_⟩
          rwa [List.take_succ_cons, total_cons, ← Int.add_assoc]
        · intro h
          obtain ⟨k, hk, h⟩ := h
          cases k with
          | zero =>
              have hzero : total ((x :: recvs).take 0) = 0 := rfl
              rw [hzero] at h
              omega
          | succ k =>
              refine ⟨k, by simpa using hk, ?_⟩
              rwa [List.take_succ_cons, total_cons, ← Int.add_assoc] at h
      · rw [readLoop, if_neg hgo]
        refine iff_of_true rfl ⟨0, Nat.zero_le _, ?_⟩
        have hzero : total ((x :: recvs).take 0) = 0 := rfl
        rw [hless] at hgo
        rw [hzero]
        omega

/-- Without a complaint the loop ends where that of `upspeed` does. -/
theorem quiet_iff (hn : n < 2 ^ 31) (recvs : List Recv) (hlow : 0 ≤ r)
    (hhigh : r ≤ n + 31) (buffer : List Byte) :
    (readLoop n beyond r buffer recvs).ended = true ∧
        (readLoop n beyond r buffer recvs).complaints = 0 ↔
      readEcho n r (recvs.map Recv.result) = some 0 := by
  have hless := less_iff hn (by omega) hhigh
  induction recvs generalizing r buffer with
  | nil =>
      have hnil : readLoop n beyond r buffer [] = { ended := !less r n } := rfl
      rw [hnil, List.map_nil, readEcho]
      by_cases hlt : r < n
      · have hgo := hless.mpr ⟨hlow, hlt⟩
        simp [hgo, hlt]
      · have hstop : less r n = false := by
          rw [← Bool.not_eq_true, hless]
          omega
        simp [hstop, hlt]
  | cons x recvs ih =>
      have hx := result_bounds x
      rw [List.map_cons, readEcho, readLoop]
      by_cases hlt : r < n
      · have hgo := hless.mpr ⟨hlow, hlt⟩
        rw [if_pos hgo, if_pos hlt]
        by_cases hbad : x.result < 1
        · simp [hbad]
        · have hrest := ih (r := r + x.result) (by omega) (by omega)
            (x.stored buffer) (less_iff hn (by omega) (by omega))
          simp only [if_neg hbad, Nat.add_zero]
          exact hrest
      · have hstop : ¬ less r n = true := by
          rw [hless]
          omega
        rw [if_neg hstop, if_neg hlt]
        simp

/-- Chunks that add up to the word are printed as they come. -/
theorem readLoop_echo (hn : n < 2 ^ 31) (recvs : List Recv) (hlow : 0 ≤ r)
    (hdata : ∀ x ∈ recvs, 0 < x.result)
    (htext : ∀ b ∈ recvs.flatMap Recv.text, b ≠ 0)
    (hall : r + (recvs.flatMap Recv.text).length = n) (buffer : List Byte) :
    readLoop n beyond r buffer recvs =
      { printed := recvs.flatMap Recv.text, ended := true } := by
  induction recvs generalizing r buffer with
  | nil =>
      have hend : r = n := by simpa using hall
      have hless := less_iff hn (r := r) (by omega) (by omega)
      have hstop : less r n = false := by
        rw [← Bool.not_eq_true, hless]
        omega
      rw [readLoop, hstop]
      rfl
  | cons x recvs ih =>
      rw [List.forall_mem_cons] at hdata
      rw [List.flatMap_cons] at htext hall ⊢
      rw [List.length_append] at hall
      cases x with
      | closed => exact absurd hdata.1 (by decide)
      | failed => exact absurd hdata.1 (by decide)
      | data bytes pos le =>
          have hpos : 0 < bytes.length := List.length_pos_of_ne_nil pos
          have hres : (Recv.data bytes pos le).result = bytes.length := rfl
          have hbytes : (Recv.data bytes pos le).text = bytes := rfl
          rw [hbytes] at htext hall ⊢
          have hgo : less r n = true :=
            (less_iff hn (by omega) (by omega)).mpr ⟨hlow, by omega⟩
          have hprinted : cstr ((Recv.data bytes pos le).stored buffer ++ beyond) =
              bytes := by
            rw [Recv.stored, store, List.append_assoc, List.append_assoc]
            refine (cstr_append_nul bytes _).trans (cstr_eq_self fun b hb => ?_)
            exact htext b (List.mem_append_left _ hb)
          have hrest := ih (r := r + bytes.length) (by omega) hdata.2
            (fun b hb => htext b (List.mem_append_right _ hb)) (by omega)
            ((Recv.data bytes pos le).stored buffer)
          rw [readLoop, if_pos hgo, hres]
          simp only [hrest, hprinted]
          have hgood : ¬ (bytes.length : ℤ) < 1 := by omega
          have hinside : ¬ (bytes.length : ℤ) < 0 := by omega
          simp [hgood, hinside]

end Loop

/-- The loop ends at the first moment at which the bytes it was given add up to
the word, or fewer came than calls failed; and it has no complaint then just
where `upspeed` would have returned 0. -/
theorem reading_outcome (word buffer beyond : List Byte) (recvs : List Recv)
    (hlen : word.length < 2 ^ 31) :
    ((reading word buffer beyond recvs).ended = true ↔
      ∃ k ≤ recvs.length, total (recvs.take k) < 0 ∨
        word.length ≤ total (recvs.take k)) ∧
    ((reading word buffer beyond recvs).ended = true ∧
        (reading word buffer beyond recvs).complaints = 0 ↔
      readEcho word.length 0 (recvs.map Recv.result) = some 0) := by
  have hmod : word.length % 2 ^ 32 = word.length := Nat.mod_eq_of_lt (by omega)
  rw [reading, hmod]
  refine ⟨?_, quiet_iff hlen recvs (by omega) (by omega) buffer⟩
  simpa only [Int.zero_add] using
    ended_iff hlen recvs (r := 0) (by omega) (by omega) buffer

/-- A word of two letters, and a `recv` that gives one of them. -/
def hi : List Byte := [104, 105]

theorem letter_ne_nil (b : Byte) : [b] ≠ [] :=
  List.cons_ne_nil b []

theorem letter_le (b : Byte) : [b].length ≤ buffsize - 1 := by
  simp [buffsize]

def letter (b : Byte) : Recv :=
  .data [b] (letter_ne_nil b) (letter_le b)

/-- A failed call costs a letter: the loop waits for a third one. -/
theorem letter_taken_back :
    (reading hi [] [] [letter 104, .failed, letter 105]).ended ≠ true := by
  intro h
  obtain ⟨k, hk, hsum⟩ :=
    (reading_outcome hi [] [] [letter 104, .failed, letter 105] (by decide)).1.mp h
  have hnone : ∀ k ≤ 3, ¬ (total ([letter 104, .failed, letter 105].take k) < 0 ∨
      hi.length ≤ total ([letter 104, .failed, letter 105].take k)) := by decide
  exact hnone k hk hsum

/-- However the echo is cut, what is printed is the word. -/
theorem echo_printed (word buffer beyond : List Byte) (recvs : List Recv)
    (hlen : word.length < 2 ^ 31) (hword : ∀ b ∈ word, b ≠ 0)
    (hdata : ∀ x ∈ recvs, 0 < x.result)
    (hecho : recvs.flatMap Recv.text = word) :
    reading word buffer beyond recvs = { printed := word, ended := true } := by
  have hmod : word.length % 2 ^ 32 = word.length := Nat.mod_eq_of_lt (by omega)
  rw [reading, hmod]
  subst hecho
  exact readLoop_echo hlen recvs (Int.le_refl 0) hdata hword (Int.zero_add _) buffer

theorem letters_printed :
    reading hi [] [] [letter 104, letter 105] = { printed := hi, ended := true } :=
  echo_printed hi [] [] [letter 104, letter 105] (by decide) (by decide)
    (by decide) rfl

end Elfupspeed.TestClient
