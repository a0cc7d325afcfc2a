import Elfupspeed.Lib.Lines
import Elfupspeed.Proofs.Marshalling
import Elfupspeed.Proofs.Moments
import Elfupspeed.Proofs.Returned

/-!
# The strings in the scratch mapping

The injector maps 0x4000 bytes in its target and hands four calls a string in
there, at fixed offsets and each written right before its call. So one string
may run over the place of another, whose call is over by then or whose text is
written later, and what matters is the end of the mapping alone: a string that
ends in it is handed over intact and nothing else changes but the frame of the
call. For one that does not, the pokes run out of the mapping, and they map
nothing: where there is no memory behind it, its end is missing.
-/

namespace Elfupspeed.Elfinject

open Elfupspeed.Lib Elfupspeed.Lib.CString Elfupspeed.Lib.Memory

/-! ## Four strings -/

/-- How a string gets to a call: at the stop after which call it is written,
how far from the base of the mapping, and which argument it is of how many. -/
structure Passing where
  before : Site
  offset : ℕ
  index : ℕ
  arguments : ℕ

def Site.passing? : Site → Option Passing
  | .dlopenCydia => some ⟨.mmap, 0x300, 0, 2⟩
  | .dlopenLibrary => some ⟨.dlopenCydia, 0, 0, 2⟩
  | .dlsym => some ⟨.dlopenLibrary, 0x100, 1, 2⟩
  | .hookEntry => some ⟨.dlsym, 0x200, 0, 1⟩
  | .mmap | .dlclose => none

def Site.text (libraryPath cydiaPath functionName param : List Byte) :
    Site → List Byte
  | .dlopenCydia => cydiaPath
  | .dlopenLibrary => libraryPath
  | .dlsym => functionName
  | .hookEntry => param
  | .mmap | .dlclose => []

/-- Each string ends in the mapping. -/
def Fits (libraryPath cydiaPath functionName param : List Byte) : Prop :=
  ∀ k w, Site.passing? k = some w →
    w.offset + (cstr (k.text libraryPath cydiaPath functionName param)).length <
      0x4000

/-! ## What the injector relies on -/

/-- The address is in the frame of a call with `n` arguments. -/
def Build.InFrame (b : Build) (regs : b.Regs) (n : ℕ) (x : Word) : Prop :=
  offset (b.sp regs - BitVec.ofNat 32 (4 * b.stackWords n)) x < 4 * b.stackWords n

/-- The mapping is there, and apart from it there is room on the stack for a
call with `n` arguments. -/
structure Build.Standing (b : Build) (base : Word) (n : ℕ) (s : Stop b.Regs) :
    Prop where
  mapped : Mapped s.mem base 0x4000
  room : Room s.mem (b.sp s.regs) (b.stackWords n)
  apart : ∀ x, offset base x < 0x4000 → ¬ b.InFrame s.regs n x

/-- `mmap` has mapped the bytes at `base`, and they stay there. -/
structure Build.HasScratch (b : Build) (env : Env b.Regs) (base : Word) :
    Prop where
  returned : ∀ s, env.mmap.result.stop? = some s → b.arch.ptraceRetval s.regs = base
  standing : ∀ k w s, Site.passing? k = some w →
    (env.call w.before).result.stop? = some s → b.Standing base w.arguments s

section Carries

variable (b : Build) (env : Env b.Regs) (syms : Symbols)
  (libraryPath cydiaPath functionName param : List Byte) (t : Target b.Regs)
  (base : Word)

/-- Between the stop before a call and the moment that it is made, nothing
changes out of the mapping but the frame of the call; and the pointer that it
is passed leads to its string. -/
def Build.Carries : Prop :=
  ∀ k w s t', Site.passing? k = some w →
    (env.call w.before).result.stop? = some s →
    resumedAt b.arch env syms libraryPath cydiaPath functionName param t k =
      some t' →
    (∀ x, 0x4000 ≤ offset base x → ¬ b.InFrame s.regs w.arguments x →
      t'.mem x = s.mem x) ∧
    ∃ p, b.argument t'.regs t'.mem w.index = some p ∧
      Holds t'.mem p
        (cstr (k.text libraryPath cydiaPath functionName param) ++ [0])

end Carries

/-! ## One string -/

section One

variable {b : Build} {base addr : Word} {params : List Word} {off n : ℕ}
  {s : Stop b.Regs} {data : List Byte} {mem mem' : Mem}

theorem frame_eq_mem {regs : b.Regs} (addr : Word)
    (hroom : Room mem (b.sp regs) (b.stackWords params.length)) {x : Word}
    (hx : ¬ b.InFrame regs params.length x) :
    (b.arch.enter mem regs addr params).2 x = mem x := by
  rw [enter_mem b addr hroom]
  rw [Build.InFrame, Nat.not_lt] at hx
  exact write_of_le (by rw [length_frame]; exact hx)

theorem Build.Standing.room_of_isSome (hs : b.Standing base n s)
    (h : ∀ x, (mem x).isSome = (s.mem x).isSome) :
    Room mem (b.sp s.regs) (b.stackWords n) :=
  ⟨hs.room.1, fun x hx => by rw [h]; exact hs.room.2 x hx⟩

/-- The memory of a call that is handed a string which ends in the mapping: that
of the stop, the string and the frame. -/
theorem carried_mem {regs' : b.Regs} (hs : b.Standing base params.length s)
    (henter : b.arch.enter (ptraceWritedata s.mem (base + BitVec.ofNat 32 off) data)
      s.regs addr params = (regs', mem'))
    (hoff : off % 4 = 0) (hfit : off + data.length ≤ 0x4000) :
    (∀ x, 0x4000 ≤ offset base x → ¬ b.InFrame s.regs params.length x →
      mem' x = s.mem x) ∧
    Holds mem' (base + BitVec.ofNat 32 off) data := by
  have hround : rounded data.length ≤ 0x4000 - off := by
    unfold rounded
    omega
  have hrest : Mapped s.mem (base + BitVec.ofNat 32 off) (0x4000 - off) := by
    refine Mapped.shift ?_ (by omega)
    rw [show off + (0x4000 - off) = 0x4000 by omega]
    exact hs.mapped
  have hmem : ptraceWritedata s.mem (base + BitVec.ofNat 32 off) data =
      write s.mem (base + BitVec.ofNat 32 off) data :=
    ptraceWritedata_eq (by omega) (hrest.le hround)
  have hroom := hs.room_of_isSome fun x =>
    isSome_ptraceWritedata s.mem (base + BitVec.ofNat 32 off) data x
  have hframe : ∀ x, ¬ b.InFrame s.regs params.length x →
      mem' x = write s.mem (base + BitVec.ofNat 32 off) data x := by
    intro x hx
    have hsame := frame_eq_mem addr hroom hx
    rw [henter, hmem] at hsame
    exact hsame
  refine ⟨fun x hx hout => ?_, fun i hi => ?_⟩
  · have hfar : data.length ≤ offset (base + BitVec.ofNat 32 off) x := by
      rw [offset_shift_of_le (by omega) (by omega)]
      omega
    rw [hframe x hout, write_of_le hfar]
  · have hcell : offset base (base + BitVec.ofNat 32 off + BitVec.ofNat 32 i) =
        off + i := by
      rw [BitVec.add_assoc, ← BitVec.ofNat_add, offset_add base (by omega)]
    have hout := hs.apart (base + BitVec.ofNat 32 off + BitVec.ofNat 32 i)
      (by omega)
    rw [hframe _ hout]
    exact holds_write (by omega) i hi

/-- Whatever is written, the memory of a call has the cells of the stop. -/
theorem isSome_carried {dest : Word} {regs' : b.Regs}
    (hs : b.Standing base params.length s)
    (henter : b.arch.enter (ptraceWritedata s.mem dest data) s.regs addr params =
      (regs', mem')) (x : Word) : (mem' x).isSome = (s.mem x).isSome := by
  have hsome := fun x => isSome_ptraceWritedata s.mem dest data x
  have hroom := hs.room_of_isSome hsome
  have hmem := enter_mem b addr hroom
  rw [henter] at hmem
  rw [show mem' = _ from hmem, isSome_write, hsome]
  rw [length_frame]
  exact hroom.2

end One

/-! ## What is due with a string -/

section Due

variable {R : Type} {arch : Arch R} {env : Env R} {syms : Symbols}
  {libraryPath cydiaPath functionName param : List Byte} {regs : R} {mem : Mem}
  {k : Site} {q : Pending R} {w : Passing} {s : Stop R} {base : Word}

theorem passing_offset (h : k.passing? = some w) :
    w.offset % 4 = 0 ∧ w.arguments ≤ 3 ∧ w.offset ≤ 0x4000 := by
  cases k with
  | mmap | dlclose => cases h
  | dlopenCydia | dlopenLibrary | dlsym | hookEntry =>
      obtain rfl := Option.some.inj h
      decide

theorem pending_passing
    (hbase : ∀ s, env.mmap.result.stop? = some s → arch.ptraceRetval s.regs = base)
    (hw : k.passing? = some w) (hs : (env.call w.before).result.stop? = some s)
    (hq : env.pending arch syms libraryPath cydiaPath functionName param regs mem
      k = some q) :
    q.regs = s.regs ∧
      q.mem = ptraceWritedata s.mem (base + BitVec.ofNat 32 w.offset)
        (cstr (k.text libraryPath cydiaPath functionName param) ++ [0]) ∧
      q.params.length = w.arguments ∧
      q.params[w.index]? = some (base + BitVec.ofNat 32 w.offset) := by
  cases k with
  | mmap | dlclose => cases hw
  | dlopenCydia =>
      obtain rfl := Option.some.inj hw
      obtain ⟨mmap, hmmap, hq⟩ := Option.bind_eq_some_iff.mp hq
      obtain rfl := Option.some.inj (hs.symm.trans hmmap)
      obtain rfl := Option.some.inj hq
      rw [hbase s hmmap]
      exact ⟨rfl, rfl, rfl, rfl⟩
  | dlopenLibrary =>
      obtain rfl := Option.some.inj hw
      obtain ⟨mmap, hmmap, hq⟩ := Option.bind_eq_some_iff.mp hq
      obtain ⟨cydia, hcydia, hq⟩ := Option.bind_eq_some_iff.mp hq
      obtain rfl := Option.some.inj (hs.symm.trans hcydia)
      obtain rfl := Option.some.inj hq
      rw [hbase mmap hmmap]
      refine ⟨rfl, ?_, rfl, ?_⟩ <;> simp [Site.text]
  | dlsym =>
      obtain rfl := Option.some.inj hw
      obtain ⟨mmap, hmmap, hq⟩ := Option.bind_eq_some_iff.mp hq
      obtain ⟨cydia, -, hq⟩ := Option.bind_eq_some_iff.mp hq
      obtain ⟨library, hlibrary, hq⟩ := Option.bind_eq_some_iff.mp hq
      obtain rfl := Option.some.inj (hs.symm.trans hlibrary)
      simp only [Option.ite_none_right_eq_some, Option.some.injEq] at hq
      obtain ⟨-, rfl⟩ := hq
      rw [hbase mmap hmmap]
      exact ⟨rfl, rfl, rfl, rfl⟩
  | hookEntry =>
      obtain rfl := Option.some.inj hw
      obtain ⟨mmap, hmmap, hq⟩ := Option.bind_eq_some_iff.mp hq
      obtain ⟨cydia, -, hq⟩ := Option.bind_eq_some_iff.mp hq
      obtain ⟨library, hlibrary, hq⟩ := Option.bind_eq_some_iff.mp hq
      simp only [Option.ite_none_right_eq_some] at hq
      obtain ⟨dlsym, hdlsym, hq⟩ := Option.bind_eq_some_iff.mp hq.2
      obtain rfl := Option.some.inj (hs.symm.trans hdlsym)
      obtain rfl := Option.some.inj hq
      rw [hbase mmap hmmap]
      exact ⟨rfl, rfl, rfl, rfl⟩

end Due

/-! ## A target with nothing else -/

section Bare

/-- Registers with a stack pointer and the result of a call. -/
def Build.regsAt : (b : Build) → Word → Word → b.Regs
  | .arm, sp, ret =>
      ⟨((Vector.replicate 18 0).setIfInBounds 0 ret).setIfInBounds 13 sp⟩
  | .i386, sp, ret =>
      { ebx := 0, ecx := 0, edx := 0, esi := 0, edi := 0, ebp := 0, eax := ret
        ds := 0, es := 0, fs := 0, gs := 0, origEax := 0, eip := 0, cs := 0
        eflags := 0, esp := sp, ss := 0 }

/-- The end of a stack that is not in the way of a mapping at `base`. -/
def stackEnd (base : Word) : Word := if base.toNat < 0x1000 then 0x10000 else base

def bareMem (base : Word) : Mem := fun x =>
  if offset base x < 0x4000 ∨ offset (stackEnd base - BitVec.ofNat 32 16) x < 16
  then some 0 else none

def Build.bareStop (b : Build) (base ret : Word) : Stop b.Regs :=
  ⟨0xb7f, b.regsAt (stackEnd base) ret, bareMem base⟩

def CallEnv.returnsAt {R : Type} (s : Stop R) : CallEnv R :=
  ⟨true, true, [(some s, true)], true⟩

/-- Everything works, `mmap` gives `base`, and the other calls 1. -/
def Build.bareEnv (b : Build) (base : Word) : Env b.Regs where
  selfMaps := none
  mapsBefore := none
  mapsAttached := none
  mapsMapped := none
  attachOk := true
  getregsOk := true
  mmap := .returnsAt (b.bareStop base base)
  dlopenCydia := .returnsAt (b.bareStop base 1)
  dlopenLibrary := .returnsAt (b.bareStop base 1)
  dlsym := .returnsAt (b.bareStop base 1)
  hookEntry := .returnsAt (b.bareStop base 1)
  dlclose := .returnsAt (b.bareStop base 1)
  setregsOk := true
  detachOk := true
  logOk := true

variable {b : Build} {base : Word}

theorem sp_regsAt (b : Build) (sp ret : Word) : b.sp (b.regsAt sp ret) = sp := by
  cases b with
  | arm => rfl
  | i386 => rfl

theorem ptraceRetval_regsAt (b : Build) (sp ret : Word) :
    b.arch.ptraceRetval (b.regsAt sp ret) = ret := by
  cases b with
  | arm => rfl
  | i386 => rfl

theorem stackEnd_cases (base : Word) :
    base.toNat < 0x1000 ∧ (stackEnd base).toNat = 0x10000 ∨
      0x1000 ≤ base.toNat ∧ (stackEnd base).toNat = base.toNat := by
  rw [stackEnd]
  split
  · next h => exact .inl ⟨h, rfl⟩
  · next h => exact .inr ⟨by omega, rfl⟩

theorem below_stackEnd_iff (base x : Word) {n : ℕ} (hn : n ≤ 16) :
    offset (stackEnd base - BitVec.ofNat 32 n) x < n ↔
      (stackEnd base).toNat ≤ x.toNat + n ∧ x.toNat < (stackEnd base).toNat := by
  refine offset_sub_lt_iff ?_
  rcases stackEnd_cases base with ⟨-, hend⟩ | ⟨hbase, hend⟩
  · omega
  · omega

/-- The cell behind the mapping is not there. -/
theorem bareMem_end (base : Word) :
    bareMem base (base + BitVec.ofNat 32 0x4000) = none := by
  have hlt := base.isLt
  have hend : (base + BitVec.ofNat 32 0x4000).toNat =
      (base.toNat + 0x4000) % 2 ^ 32 := by
    rw [BitVec.toNat_add]
    rfl
  rw [bareMem, if_neg]
  rw [offset_add base (by omega), below_stackEnd_iff base _ (Nat.le_refl 16), hend]
  rcases stackEnd_cases base with ⟨hbase, hstack⟩ | ⟨hbase, hstack⟩
  · omega
  · omega

theorem stackWords_le (b : Build) {n : ℕ} (hn : n ≤ 3) : 4 * b.stackWords n ≤ 16 := by
  cases b with
  | arm =>
      rw [Build.stackWords]
      omega
  | i386 =>
      rw [Build.stackWords]
      omega

theorem bareStop_standing (ret : Word) {n : ℕ} (hn : n ≤ 3) :
    b.Standing base n (b.bareStop base ret) := by
  have hwords := stackWords_le b hn
  have hsp : b.sp (b.bareStop base ret).regs = stackEnd base :=
    sp_regsAt b (stackEnd base) ret
  have hcases := stackEnd_cases base
  refine ⟨fun x hx => ?_, ⟨?_, fun x hx => ?_⟩, fun x hx hframe => ?_⟩
  · rw [show (b.bareStop base ret).mem = bareMem base from rfl, bareMem,
      if_pos (.inl hx)]
    rfl
  · rw [hsp]
    omega
  · rw [hsp, below_stackEnd_iff base x hwords] at hx
    rw [show (b.bareStop base ret).mem = bareMem base from rfl, bareMem,
      if_pos (.inr ((below_stackEnd_iff base x (Nat.le_refl 16)).mpr (by omega)))]
    rfl
  · rw [Build.InFrame, hsp, below_stackEnd_iff base x hwords] at hframe
    rcases Nat.lt_or_ge x.toNat base.toNat with hlt | hge
    · rw [offset_of_lt hlt] at hx
      omega
    · rw [offset_of_le hge] at hx
      omega

theorem returnsAt_stop {R : Type} {s : Stop R} (hs : s.stat = 0xb7f) :
    (CallEnv.returnsAt s).result.stop? = some s := by
  simp [CallEnv.returnsAt, CallEnv.result, CallEnv.stop, firstStop, hs,
    CallResult.stop?]

theorem bareEnv_stop (b : Build) (base : Word) (k : Site) :
    ∃ ret, ((b.bareEnv base).call k).result.stop? = some (b.bareStop base ret) := by
  cases k with
  | mmap => exact ⟨base, returnsAt_stop rfl⟩
  | dlopenCydia | dlopenLibrary | dlsym | hookEntry | dlclose =>
      exact ⟨1, returnsAt_stop rfl⟩

theorem bareEnv_makes (b : Build) (base : Word) (syms : Symbols)
    (libraryPath cydiaPath functionName param : List Byte) (t : Target b.Regs)
    (k : Site) :
    (b.bareEnv base).Makes b.arch syms libraryPath cydiaPath functionName param t
      k := by
  have hmmap : (b.bareEnv base).mmap.result.stop? = some (b.bareStop base base) :=
    returnsAt_stop rfl
  have hcydia : (b.bareEnv base).dlopenCydia.result.stop? =
      some (b.bareStop base 1) := returnsAt_stop rfl
  have hlibrary : (b.bareEnv base).dlopenLibrary.result.stop? =
      some (b.bareStop base 1) := returnsAt_stop rfl
  have hdlsym : (b.bareEnv base).dlsym.result.stop? = some (b.bareStop base 1) :=
    returnsAt_stop rfl
  have hhook : (b.bareEnv base).hookEntry.result.stop? =
      some (b.bareStop base 1) := returnsAt_stop rfl
  have hret : b.arch.ptraceRetval (b.bareStop base 1#32).regs = 1#32 :=
    ptraceRetval_regsAt b (stackEnd base) 1
  refine ⟨⟨⟨rfl, rfl⟩, rfl⟩, ?_, ?_⟩
  · cases k <;> exact ⟨rfl, rfl⟩
  · cases k <;> simp [Env.pending, Env.load, hmmap, hcydia, hlibrary, hdlsym,
      hhook, hret]

theorem bareEnv_hasScratch (b : Build) (base : Word) :
    b.HasScratch (b.bareEnv base) base := by
  refine ⟨fun s hs => ?_, fun k w s hw hs => ?_⟩
  · obtain rfl := Option.some.inj ((returnsAt_stop rfl).symm.trans hs)
    exact ptraceRetval_regsAt b (stackEnd base) base
  · obtain ⟨ret, hret⟩ := bareEnv_stop b base w.before
    obtain rfl := Option.some.inj (hret.symm.trans hs)
    exact bareStop_standing ret (passing_offset hw).2.1

end Bare

/-! ## All strings -/

section Carries

variable {b : Build} {env : Env b.Regs} {syms : Symbols}
  {libraryPath cydiaPath functionName param : List Byte} {t t' : Target b.Regs}
  {base : Word} {k : Site} {w : Passing} {s : Stop b.Regs}

/-- What the target is resumed with is the entered call with its string, which
is passed where it was written. -/
theorem resumed_passing (henv : b.HasScratch env base)
    (hw : k.passing? = some w) (hs : (env.call w.before).result.stop? = some s)
    (hres : resumedAt b.arch env syms libraryPath cydiaPath functionName param t k =
      some t') :
    ∃ addr params, params.length = w.arguments ∧
      b.arch.enter (ptraceWritedata s.mem (base + BitVec.ofNat 32 w.offset)
        (cstr (k.text libraryPath cydiaPath functionName param) ++ [0])) s.regs addr
        params = (t'.regs, t'.mem) ∧
      b.argument t'.regs t'.mem w.index = some (base + BitVec.ofNat 32 w.offset) := by
  obtain ⟨-, q, hq, henter⟩ := resumed_pending hres
  obtain ⟨hregs, hmem, hlen, harg⟩ := pending_passing henv.returned hw hs hq
  rw [hregs, hmem] at henter
  have hstanding := henv.standing k w s hw hs
  rw [← hlen] at hstanding
  have hcall := enter_marshalled b q.entry
    (hstanding.room_of_isSome fun x => isSome_ptraceWritedata s.mem
      (base + BitVec.ofNat 32 w.offset)
      (cstr (k.text libraryPath cydiaPath functionName param) ++ [0]) x)
  rw [henter] at hcall
  obtain ⟨hindex, hget⟩ := List.getElem?_eq_some_iff.mp harg
  refine ⟨q.entry, q.params, hlen, henter, ?_⟩
  rw [hcall.arguments w.index hindex, hget]

theorem carries_of_fits (hfits : Fits libraryPath cydiaPath functionName param)
    (henv : b.HasScratch env base) :
    b.Carries env syms libraryPath cydiaPath functionName param t base := by
  intro k w s t' hw hs hres
  obtain ⟨addr, params, hlen, henter, harg⟩ := resumed_passing henv hw hs hres
  have hstanding := henv.standing k w s hw hs
  have hfit := hfits k w hw
  rw [← hlen] at hstanding ⊢
  have hmem := carried_mem hstanding henter (passing_offset hw).1
    (by rw [List.length_append, List.length_singleton]; omega)
  exact ⟨hmem.1, _, harg, hmem.2⟩

/-- A string that does not end in the mapping ends nowhere, if there is nothing
behind the mapping. -/
theorem not_carries_of_not_fits (syms : Symbols) (t : Target b.Regs) (base : Word)
    (hfits : ¬ Fits libraryPath cydiaPath functionName param) :
    ¬ b.Carries (b.bareEnv base) syms libraryPath cydiaPath functionName param t
      base := by
  intro h
  simp only [Fits, not_forall, Nat.not_lt] at hfits
  obtain ⟨k, w, hw, hlong⟩ := hfits
  obtain ⟨ret, hs⟩ := bareEnv_stop b base w.before
  obtain ⟨t', hres⟩ := Option.isSome_iff_exists.mp (makes_iff.mp
    (bareEnv_makes b base syms libraryPath cydiaPath functionName param t k))
  have henv := bareEnv_hasScratch b base
  obtain ⟨addr, params, hlen, henter, harg⟩ := resumed_passing henv hw hs hres
  obtain ⟨-, p, hp, hholds⟩ := h k w _ t' hw hs hres
  obtain rfl := Option.some.inj (harg.symm.trans hp)
  have hoff : w.offset ≤ 0x4000 := (passing_offset hw).2.2
  have hcell := hholds (0x4000 - w.offset)
    (by rw [List.length_append, List.length_singleton]; omega)
  rw [BitVec.add_assoc, ← BitVec.ofNat_add,
    show w.offset + (0x4000 - w.offset) = 0x4000 by omega] at hcell
  have hstanding := henv.standing k w _ hw hs
  rw [← hlen] at hstanding
  have hsome := isSome_carried hstanding henter (base + BitVec.ofNat 32 0x4000)
  rw [hcell, show (b.bareStop base ret).mem = bareMem base from rfl,
    bareMem_end] at hsome
  cases hsome

end Carries

/-- The strings are carried into every target that has the mapping if and only
if each of them ends in it. -/
theorem strings_carried_iff (b : Build) (base : Word)
    (libraryPath cydiaPath functionName param : List Byte) :
    (∀ (env : Env b.Regs) (syms : Symbols) (t : Target b.Regs),
      b.HasScratch env base →
      b.Carries env syms libraryPath cydiaPath functionName param t base) ↔
    Fits libraryPath cydiaPath functionName param := by
  constructor
  · intro h
    by_contra hfits
    let t : Target b.Regs := .found (b.regsAt 0 0) (bareMem base)
    exact not_carries_of_not_fits ⟨0, 0, 0, 0, 0⟩ t base hfits
      (h _ _ t (bareEnv_hasScratch b base))
  · intro hfits env syms t henv
    exact carries_of_fits hfits henv

theorem not_fits_of_param {libraryPath cydiaPath functionName param : List Byte}
    (h : 0x3e00 ≤ (cstr param).length) :
    ¬ Fits libraryPath cydiaPath functionName param := by
  intro hfits
  have hparam : 0x200 + (cstr param).length < 0x4000 := hfits .hookEntry _ rfl
  omega

theorem length_cstr_replicate (n : ℕ) :
    (cstr (List.replicate n (97 : Byte))).length = n := by
  have hne : ∀ b ∈ List.replicate n (97 : Byte), b ≠ 0 := by
    intro b hb
    rw [List.eq_of_mem_replicate hb]
    decide
  rw [cstr_eq_self hne, List.length_replicate]

/-- A parameter of 0x3e00 bytes has no room for its NUL. -/
def longParam : List Byte := List.replicate 0x3e00 97

theorem long_param_not_carried :
    ¬ ∀ (env : Env PtRegs) (syms : Symbols) (t : Target PtRegs),
      Build.HasScratch .arm env 0x40000000 →
      Build.Carries .arm env syms [97] [98] [99] longParam t 0x40000000 := by
  intro h
  have hfits : ¬ Fits [97] [98] [99] longParam :=
    not_fits_of_param (Nat.le_of_eq (length_cstr_replicate 0x3e00).symm)
  exact not_carries_of_not_fits (b := .arm) ⟨0, 0, 0, 0, 0⟩
    (.found (pcRegs 0) fun _ => none) 0x40000000 hfits
    (h _ _ _ (bareEnv_hasScratch .arm 0x40000000))

end Elfupspeed.Elfinject
