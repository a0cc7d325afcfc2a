import Mathlib.Data.BitVec
import Mathlib.Data.List.Basic

/-!
# Memories

A memory has a cell at some of the addresses of a machine, and addresses wrap
around at the end of the space. A run of cells is best told by the distance of
an address from its first one: `write` puts a run whatever the alignment,
and runs that follow each other are one run as long as they do not catch up
with their own beginning.
-/

namespace Elfupspeed.Lib.Memory

variable {w : ℕ} {β : Type*} {mem mem' : BitVec w → Option β} {a x : BitVec w}
  {xs ys data : List β} {n k : ℕ}

/-- How far behind `a` an address lies. -/
def offset (a x : BitVec w) : ℕ := (x - a).toNat

def write (mem : BitVec w → Option β) (a : BitVec w) (data : List β) :
    BitVec w → Option β :=
  fun x => data[offset a x]?.or (mem x)

/-- The memory has `data` from `a` on. -/
def Holds (mem : BitVec w → Option β) (a : BitVec w) (data : List β) : Prop :=
  ∀ i (h : i < data.length), mem (a + BitVec.ofNat w i) = some data[i]

/-- There are cells at `a` and the `n - 1` addresses behind it. -/
def Mapped (mem : BitVec w → Option β) (a : BitVec w) (n : ℕ) : Prop :=
  ∀ x, offset a x < n → (mem x).isSome = true

/-! ## Distances -/

theorem offset_lt (a x : BitVec w) : offset a x < 2 ^ w := (x - a).isLt

theorem add_offset (a x : BitVec w) : a + BitVec.ofNat w (offset a x) = x := by
  rw [offset, BitVec.ofNat_toNat, BitVec.setWidth_eq, BitVec.add_comm,
    BitVec.sub_add_cancel]

theorem offset_add (a : BitVec w) (h : k < 2 ^ w) :
    offset a (a + BitVec.ofNat w k) = k := by
  rw [offset, BitVec.add_comm, BitVec.add_sub_cancel, BitVec.toNat_ofNat,
    Nat.mod_eq_of_lt h]

theorem offset_eq_zero : offset a x = 0 ↔ x = a := by
  constructor
  · intro h
    rw [← add_offset a x, h]
    simp
  · rintro rfl
    simp [offset]

theorem offset_of_le (h : a.toNat ≤ x.toNat) : offset a x = x.toNat - a.toNat :=
  BitVec.toNat_sub_of_le h

theorem offset_of_lt (h : x.toNat < a.toNat) :
    offset a x = x.toNat + 2 ^ w - a.toNat := by
  have hlt := a.isLt
  rw [offset, BitVec.toNat_sub, Nat.mod_eq_of_lt (by omega)]
  omega

theorem toNat_sub_ofNat (h : n ≤ a.toNat) :
    (a - BitVec.ofNat w n).toNat = a.toNat - n := by
  have hn : (BitVec.ofNat w n).toNat = n :=
    Nat.mod_eq_of_lt (Nat.lt_of_le_of_lt h a.isLt)
  rw [BitVec.toNat_sub_of_le (by rw [BitVec.le_def, hn]; exact h), hn]

/-- The `n` addresses below `a`. -/
theorem offset_sub_lt_iff (h : n ≤ a.toNat) :
    offset (a - BitVec.ofNat w n) x < n ↔ a.toNat ≤ x.toNat + n ∧ x.toNat < a.toNat := by
  have hbase := toNat_sub_ofNat h
  have hlt := a.isLt
  rcases Nat.lt_or_ge x.toNat (a - BitVec.ofNat w n).toNat with hx | hx
  · rw [offset_of_lt hx]
    omega
  · rw [offset_of_le hx]
    omega

/-- The distance from an address further on, which is large for the addresses
that were passed. -/
theorem offset_shift (hn : n ≤ 2 ^ w) :
    offset (a + BitVec.ofNat w n) x =
      if n ≤ offset a x then offset a x - n else offset a x + 2 ^ w - n := by
  have hlt := offset_lt a x
  have hsub : x - (a + BitVec.ofNat w n) = (x - a) - BitVec.ofNat w n := by
    rw [BitVec.sub_eq_add_neg, BitVec.sub_eq_add_neg, BitVec.sub_eq_add_neg,
      BitVec.neg_add, BitVec.sub_eq_add_neg, BitVec.add_assoc]
  have hoff : offset (a + BitVec.ofNat w n) x =
      (2 ^ w - n % 2 ^ w + offset a x) % 2 ^ w := by
    rw [offset, hsub, BitVec.toNat_sub, BitVec.toNat_ofNat]
    rfl
  rw [hoff]
  rcases Nat.lt_or_eq_of_le hn with hn | rfl
  · rw [Nat.mod_eq_of_lt hn]
    split
    · rw [show 2 ^ w - n + offset a x = offset a x - n + 2 ^ w by omega,
        Nat.add_mod_right, Nat.mod_eq_of_lt (by omega)]
    · rw [Nat.mod_eq_of_lt (by omega)]
      omega
  · rw [Nat.mod_self, if_neg (by omega), Nat.sub_zero, Nat.add_mod_left,
      Nat.mod_eq_of_lt hlt]
    omega

theorem offset_shift_of_le (hn : n ≤ 2 ^ w) (h : n ≤ offset a x) :
    offset (a + BitVec.ofNat w n) x = offset a x - n := by
  rw [offset_shift hn, if_pos h]

/-! ## Writes -/

@[simp] theorem write_nil : write mem a [] = mem := by
  funext x
  rfl

theorem write_of_le (h : data.length ≤ offset a x) :
    write mem a data x = mem x := by
  rw [write, List.getElem?_eq_none h, Option.none_or]

theorem write_of_lt (h : offset a x < data.length) :
    write mem a data x = some data[offset a x] := by
  rw [write, List.getElem?_eq_getElem h, Option.some_or]

theorem write_append (h : (xs ++ ys).length ≤ 2 ^ w) :
    write mem a (xs ++ ys) =
      write (write mem a xs) (a + BitVec.ofNat w xs.length) ys := by
  funext x
  rw [List.length_append] at h
  have hlen : xs.length ≤ 2 ^ w := by omega
  by_cases hx : xs.length ≤ offset a x
  · rw [write, write, write_of_le hx, offset_shift_of_le hlen hx,
      List.getElem?_append_right hx]
  · have hlt : offset a x < xs.length := by omega
    have hfar : ys.length ≤ offset (a + BitVec.ofNat w xs.length) x := by
      rw [offset_shift hlen, if_neg hx]
      omega
    rw [write_of_le hfar, write_of_lt hlt,
      write_of_lt (by rw [List.length_append]; omega),
      List.getElem_append_left hlt]

/-- Two runs that follow each other may be written in either order. -/
theorem write_front (h : (xs ++ ys).length ≤ 2 ^ w) :
    write (write mem (a + BitVec.ofNat w xs.length) ys) a xs =
      write mem a (xs ++ ys) := by
  funext x
  rw [List.length_append] at h
  have hlen : xs.length ≤ 2 ^ w := by omega
  by_cases hx : xs.length ≤ offset a x
  · rw [write_of_le hx, write, write, offset_shift_of_le hlen hx,
      List.getElem?_append_right hx]
  · have hlt : offset a x < xs.length := by omega
    rw [write_of_lt hlt, write_of_lt (by rw [List.length_append]; omega),
      List.getElem_append_left hlt]

theorem holds_write (h : data.length ≤ 2 ^ w) : Holds (write mem a data) a data := by
  intro i hi
  have hoff : offset a (a + BitVec.ofNat w i) = i := offset_add a (by omega)
  rw [write_of_lt (by omega)]
  simp only [hoff]

theorem write_eq_self (h : Holds mem a data) : write mem a data = mem := by
  funext x
  by_cases hx : offset a x < data.length
  · rw [write_of_lt hx, ← h _ hx, add_offset]
  · rw [write_of_le (by omega)]

theorem isSome_write (h : Mapped mem a data.length) :
    (write mem a data x).isSome = (mem x).isSome := by
  by_cases hx : offset a x < data.length
  · rw [write_of_lt hx, h x hx]
    rfl
  · rw [write_of_le (by omega)]

/-- A write in front of a run of cells leaves the run alone. -/
theorem Holds.write (h : Holds mem (a + BitVec.ofNat w k) data)
    (hxs : xs.length ≤ k) (hlen : k + data.length ≤ 2 ^ w) :
    Holds (write mem a xs) (a + BitVec.ofNat w k) data := by
  intro i hi
  rw [write_of_le]
  · exact h i hi
  · rw [BitVec.add_assoc, ← BitVec.ofNat_add, offset_add a (by omega)]
    omega

/-- What is behind a write is there after it if and only if it was before. -/
theorem holds_write_behind_iff (hlen : (xs ++ ys).length ≤ 2 ^ w) :
    Holds (write mem a xs) (a + BitVec.ofNat w xs.length) ys ↔
      Holds mem (a + BitVec.ofNat w xs.length) ys := by
  rw [List.length_append] at hlen
  refine forall_congr' fun i => forall_congr' fun hi => ?_
  rw [write_of_le]
  rw [BitVec.add_assoc, ← BitVec.ofNat_add, offset_add a (by omega)]
  omega

/-! ## Runs of cells -/

theorem Mapped.le (h : Mapped mem a n) (hk : k ≤ n) : Mapped mem a k :=
  fun x hx => h x (by omega)

/-- The rest of a run of cells. -/
theorem Mapped.shift (h : Mapped mem a (k + n)) (hlen : k + n ≤ 2 ^ w) :
    Mapped mem (a + BitVec.ofNat w k) n := by
  intro x hx
  refine h x ?_
  rw [offset_shift (by omega)] at hx
  split at hx <;> omega

theorem mapped_add_iff (hlen : k + n ≤ 2 ^ w) :
    Mapped mem a (k + n) ↔ Mapped mem a k ∧ Mapped mem (a + BitVec.ofNat w k) n := by
  refine ⟨fun h => ⟨h.le (by omega), h.shift hlen⟩, fun ⟨hfront, hrest⟩ x hx => ?_⟩
  by_cases hk : offset a x < k
  · exact hfront x hk
  · refine hrest x ?_
    rw [offset_shift_of_le (by omega) (by omega)]
    omega

theorem Mapped.write (h : Mapped mem a n) {b : BitVec w}
    (hb : Mapped mem b data.length) : Mapped (write mem b data) a n := by
  intro x hx
  rw [isSome_write hb, h x hx]

theorem mapped_of_total (h : ∀ x, (mem x).isSome = true) : Mapped mem a n :=
  fun x _ => h x

theorem Holds.mapped (h : Holds mem a data) : Mapped mem a data.length := by
  intro x hx
  rw [← add_offset a x, h _ hx]
  rfl

theorem holds_append :
    Holds mem a (xs ++ ys) ↔
      Holds mem a xs ∧ Holds mem (a + BitVec.ofNat w xs.length) ys := by
  have hadd : ∀ i, a + BitVec.ofNat w xs.length + BitVec.ofNat w i =
      a + BitVec.ofNat w (xs.length + i) := by
    intro i
    rw [BitVec.add_assoc, ← BitVec.ofNat_add]
  constructor
  · intro hall
    refine ⟨fun i hi => ?_, fun i hi => ?_⟩
    · rw [hall i (by rw [List.length_append]; omega), List.getElem_append_left hi]
    · rw [hadd, hall (xs.length + i) (by rw [List.length_append]; omega),
        List.getElem_append_right (by omega)]
      simp only [Nat.add_sub_cancel_left]
  · rintro ⟨hxs, hys⟩ i hi
    by_cases hlt : i < xs.length
    · rw [hxs i hlt, List.getElem_append_left hlt]
    · have hi' : i - xs.length < ys.length := by
        rw [List.length_append] at hi
        omega
      rw [List.getElem_append_right (by omega), ← hys _ hi', hadd]
      congr 3
      omega

/-- After a write of the front of a run, the run is there where its rest is. -/
theorem holds_write_front_iff (hlen : (xs ++ ys).length ≤ 2 ^ w) :
    Holds (write mem a xs) a (xs ++ ys) ↔
      Holds mem (a + BitVec.ofNat w xs.length) ys := by
  rw [holds_append, holds_write_behind_iff hlen]
  rw [List.length_append] at hlen
  exact and_iff_right (holds_write (by omega))

/-- What a memory has somewhere is told by its length. -/
theorem Holds.eq (hxs : Holds mem a xs) (hys : Holds mem a ys)
    (hlen : xs.length = ys.length) : xs = ys := by
  refine List.ext_getElem hlen fun i hi hi' => ?_
  have hcell := hxs i hi
  rw [hys i hi'] at hcell
  exact (Option.some.inj hcell).symm

theorem Holds.take (h : Holds mem a data) (k : ℕ) : Holds mem a (data.take k) := by
  have hsplit : Holds mem a (data.take k ++ data.drop k) := by
    rwa [List.take_append_drop]
  exact (holds_append.mp hsplit).1

theorem Holds.drop (h : Holds mem a data) (hk : k ≤ data.length) :
    Holds mem (a + BitVec.ofNat w k) (data.drop k) := by
  have hsplit : Holds mem a (data.take k ++ data.drop k) := by
    rwa [List.take_append_drop]
  have hdrop := (holds_append.mp hsplit).2
  rwa [List.length_take, Nat.min_eq_left hk] at hdrop

end Elfupspeed.Lib.Memory
