import Mathlib.Data.List.Basic
import Mathlib.Logic.Function.Basic

/-!
# Descriptor tables

A process has one table for everything in it. The part of the program under
study knows its files by their numbers alone, and a number it has closed may be
somebody else's a moment later. So the files are counted here as they are
opened: the table says which of them a number stands for, and the log of
closings, which of them it was that was closed. Whatever the operations and
whatever their order, a file is open under one number and was never closed, or
it is closed and was closed once; what a program can do wrong is to close a
number that is not its own, or to lose one that is.
-/

namespace Elfupspeed.Lib

/-- What a number stands for: the `id`th file that the program opened, or
anything else in the process. -/
inductive File
  | own (id : ℕ)
  | other
  deriving DecidableEq

structure Descriptors where
  file : ℕ → Option File := fun _ => none
  opened : ℕ := 0
  closed : List ℕ := []

namespace Descriptors

variable (d : Descriptors)

def openOwn (fd : ℕ) : Descriptors :=
  { d with
    file := Function.update d.file fd (some (.own d.opened))
    opened := d.opened + 1 }

def openOther (fd : ℕ) : Descriptors :=
  { d with file := Function.update d.file fd (some .other) }

def close (fd : ℕ) : Descriptors where
  file := Function.update d.file fd none
  opened := d.opened
  closed :=
    match d.file fd with
    | some (.own id) => d.closed ++ [id]
    | some .other | none => d.closed

def IsOpen (id : ℕ) : Prop := ∃ fd, d.file fd = some (.own id)

structure Kept : Prop where
  lt : ∀ fd id, d.file fd = some (.own id) → id < d.opened
  inj : ∀ fd fd' id, d.file fd = some (.own id) → d.file fd' = some (.own id) →
    fd = fd'
  fresh : ∀ id, d.opened ≤ id → d.closed.count id = 0
  here : ∀ id, d.IsOpen id → d.closed.count id = 0
  gone : ∀ id, id < d.opened → ¬ d.IsOpen id → d.closed.count id = 1

variable {d}

theorem isOpen_openOwn {fd : ℕ} (hfree : d.file fd = none) {id : ℕ} :
    (d.openOwn fd).IsOpen id ↔ id = d.opened ∨ d.IsOpen id := by
  constructor
  · intro h
    obtain ⟨fd', h⟩ := h
    by_cases hfd : fd' = fd
    · simp only [openOwn, hfd, Function.update_self, Option.some.injEq,
        File.own.injEq] at h
      exact .inl h.symm
    · simp only [openOwn, Function.update_of_ne hfd] at h
      exact .inr ⟨fd', h⟩
  · rintro (rfl | ⟨fd', h⟩)
    · exact ⟨fd, Function.update_self fd _ d.file⟩
    · have hne : fd' ≠ fd := by
        rintro rfl
        rw [hfree] at h
        cases h
      exact ⟨fd', (Function.update_of_ne hne _ d.file).trans h⟩

theorem file_openOther {fd fd' id : ℕ} (hfree : d.file fd = none) :
    (d.openOther fd).file fd' = some (.own id) ↔ d.file fd' = some (.own id) := by
  by_cases hfd : fd' = fd
  · simp [openOther, hfd, hfree]
  · simp [openOther, hfd]

theorem file_close {fd fd' id : ℕ} :
    (d.close fd).file fd' = some (.own id) ↔
      fd' ≠ fd ∧ d.file fd' = some (.own id) := by
  by_cases hfd : fd' = fd
  · simp [close, hfd]
  · simp [close, hfd]

theorem file_close_openOwn {fd : ℕ} (hfree : d.file fd = none) :
    ((d.openOwn fd).close fd).file = d.file := by
  show Function.update (Function.update d.file fd _) fd none = d.file
  rw [Function.update_idem, ← hfree, Function.update_eq_self]

theorem Kept.openOwn (h : d.Kept) {fd : ℕ} (hfree : d.file fd = none) :
    (d.openOwn fd).Kept where
  lt fd' id hid := by
    have hopen := (isOpen_openOwn hfree).mp ⟨fd', hid⟩
    change id < d.opened + 1
    rcases hopen with rfl | ⟨fd'', hid'⟩
    · omega
    · have := h.lt fd'' id hid'
      omega
  inj fd' fd'' id h₁ h₂ := by
    simp only [Descriptors.openOwn, Function.update_apply] at h₁ h₂
    split at h₁ <;> split at h₂
    · next heq heq' => rw [heq, heq']
    · injection h₁ with h₁
      injection h₁ with h₁
      have := h.lt fd'' id h₂
      omega
    · injection h₂ with h₂
      injection h₂ with h₂
      have := h.lt fd' id h₁
      omega
    · exact h.inj fd' fd'' id h₁ h₂
  fresh id hid := h.fresh id (Nat.le_of_succ_le hid)
  here id hid := by
    rcases (isOpen_openOwn hfree).mp hid with rfl | hid
    · exact h.fresh _ (Nat.le_refl _)
    · exact h.here id hid
  gone id hid hnot := by
    rw [isOpen_openOwn hfree, not_or] at hnot
    exact h.gone id (Nat.lt_of_le_of_ne (Nat.le_of_lt_succ hid) hnot.1) hnot.2

theorem Kept.openOther (h : d.Kept) {fd : ℕ} (hfree : d.file fd = none) :
    (d.openOther fd).Kept where
  lt fd' id hid := h.lt fd' id ((file_openOther hfree).mp hid)
  inj fd' fd'' id h₁ h₂ :=
    h.inj fd' fd'' id ((file_openOther hfree).mp h₁) ((file_openOther hfree).mp h₂)
  fresh := h.fresh
  here id hid := by
    obtain ⟨fd', hid⟩ := hid
    exact h.here id ⟨fd', (file_openOther hfree).mp hid⟩
  gone id hid hnot := by
    refine h.gone id hid fun ⟨fd', hopen⟩ => hnot ⟨fd', ?_⟩
    exact (file_openOther hfree).mpr hopen

theorem Kept.close (h : d.Kept) (fd : ℕ) : (d.close fd).Kept := by
  have hopen : ∀ id, (d.close fd).IsOpen id ↔
      d.IsOpen id ∧ d.file fd ≠ some (.own id) := by
    intro id
    constructor
    · intro h
      obtain ⟨fd', hid⟩ := h
      obtain ⟨hne, hid⟩ := file_close.mp hid
      exact ⟨⟨fd', hid⟩, fun heq => hne (h.inj fd' fd id hid heq)⟩
    · intro h
      obtain ⟨⟨fd', hid⟩, hnot⟩ := h
      exact ⟨fd', file_close.mpr ⟨fun heq => hnot (heq ▸ hid), hid⟩⟩
  have hcount : ∀ id, (d.close fd).closed.count id =
      d.closed.count id + if d.file fd = some (.own id) then 1 else 0 := by
    intro id
    unfold Descriptors.close
    cases hfile : d.file fd with
    | none => simp
    | some file =>
        cases file with
        | other => simp
        | own id' =>
            by_cases hid : id' = id
            · simp [hid]
            · simp [hid]
  constructor
  · intro fd' id hid
    exact h.lt fd' id (file_close.mp hid).2
  · intro fd' fd'' id h₁ h₂
    exact h.inj fd' fd'' id (file_close.mp h₁).2 (file_close.mp h₂).2
  · intro id hid
    have hnot : d.file fd ≠ some (.own id) := by
      intro heq
      have hlt := h.lt fd id heq
      exact absurd (show d.opened ≤ id from hid) (Nat.not_le.mpr hlt)
    rw [hcount, if_neg hnot, h.fresh id hid]
  · intro id hid
    obtain ⟨hid, hnot⟩ := (hopen id).mp hid
    rw [hcount, if_neg hnot, h.here id hid]
  · intro id hid hnot
    rw [hopen, not_and_not_right] at hnot
    rw [hcount]
    by_cases hwas : d.IsOpen id
    · rw [if_pos (hnot hwas), h.here id hwas]
    · rw [if_neg fun heq => hwas ⟨fd, heq⟩, h.gone id hid hwas]

end Descriptors

end Elfupspeed.Lib
