import Elfupspeed.Proofs.Exits
import Elfupspeed.Proofs.Marshalling
import Elfupspeed.Proofs.ModuleBase
import Elfupspeed.Proofs.Moments
import Mathlib.Data.BitVec
import Mathlib.Tactic.LinearCombination

/-!
# Where the target is entered

A function has its address in the target, which is as far from the base of its
module as it is in the injector. The address of each call is read off what is
due at its place, and the registers that the target is resumed with tell which
address they enter; so the right one is entered where the two are the same.
That is so for `mmap`, `dlopen` and `dlsym` as far as the lines of the maps files
that are taken for the module's are its own, or as far from these on both sides.
`dlclose` is called at its address in the injector, and nothing asks whether a
base was found.
-/

namespace Elfupspeed.Elfinject

open Elfupspeed.Lib Elfupspeed.Lib.CString

/-! ## Modules -/

/-- What the maps files show: the injector's, and the target's once it is
attached to and once `mmap` has returned. `none` is a file that does not
open. -/
structure Layout where
  self : Option (List Mapping)
  attached : Option (List Mapping)
  mapped : Option (List Mapping)

def baseIn (maps : Option (List Mapping)) (moduleName : List Byte) : Option Word :=
  maps.bind fun ms => loadAddress ms moduleName

def PageAligned (maps : Option (List Mapping)) : Prop :=
  ∀ ms, maps = some ms → ∀ m ∈ ms, m.start.toNat % 4096 = 0

structure Layout.Aligned (l : Layout) : Prop where
  self : PageAligned l.self
  attached : PageAligned l.attached
  mapped : PageAligned l.mapped

/-- Both modules are there, in both processes. -/
structure Layout.Complete (l : Layout) : Prop where
  selfLibc : (baseIn l.self libcPath).isSome
  targetLibc : (baseIn l.attached libcPath).isSome
  selfLinker : (baseIn l.self linkerPath).isSome
  targetLinker : (baseIn l.mapped linkerPath).isSome

/-- A function of a module, and the maps of the target that tell where the
module is by the time of the call. -/
structure ModuleFunction where
  moduleName : List Byte
  localAddr : Symbols → Word
  maps : Layout → Option (List Mapping)

/-- The address that is taken for a module is its own in both processes, or as
far from that in the one as in the other. -/
def SameShift (selfMaps targetMaps : Option (List Mapping))
    (moduleName : List Byte) : Prop :=
  ∀ lb rb, baseIn selfMaps moduleName = some lb →
    baseIn targetMaps moduleName = some rb →
    ∃ shift, taken selfMaps moduleName = lb + shift ∧
      taken targetMaps moduleName = rb + shift

/-- The first line that has the name of a module is the module's own, has it in
its first 1023 bytes, and is not that of address 0x8000. -/
def OwnLineFirst (maps : Option (List Mapping)) (moduleName : List Byte) : Prop :=
  ∃ ms m, maps = some ms ∧ firstNaming ms moduleName = some m ∧
    m.path = moduleName ∧ moduleName <:+: m.line.take 1023 ∧ m.start ≠ 0x8000

def Site.function? : Site → Option ModuleFunction
  | .mmap => some ⟨libcPath, Symbols.mmap, Layout.attached⟩
  | .dlopenCydia | .dlopenLibrary =>
      some ⟨linkerPath, Symbols.dlopen, Layout.mapped⟩
  | .dlsym => some ⟨linkerPath, Symbols.dlsym, Layout.mapped⟩
  | .dlclose => some ⟨linkerPath, Symbols.dlclose, Layout.mapped⟩
  | .hookEntry => none

section Answers

variable {maps : Option (List Mapping)} {moduleName : List Byte} {base : Word}

theorem page_aligned_base (h : PageAligned maps)
    (hbase : baseIn maps moduleName = some base) : base.toNat % 4096 = 0 := by
  obtain ⟨ms, hms, hload⟩ := Option.bind_eq_some_iff.mp hbase
  obtain ⟨m, hm, rfl⟩ := Option.map_eq_some_iff.mp hload
  exact h ms hms m (List.mem_of_find?_eq_some hm)

theorem path_infix_line (m : Mapping) : m.path <:+: m.line := by
  refine ⟨hexDigits 8 m.start.toNat ++ byte '-' ::
    (hexDigits 8 m.stop.toNat ++ byte ' ' :: m.fields), [byte '\n'], ?_⟩
  simp [Mapping.line]

/-- Where the module's own line is first, its address is taken. -/
theorem taken_of_ownLineFirst (h : OwnLineFirst maps moduleName) :
    baseIn maps moduleName = some (taken maps moduleName) := by
  obtain ⟨ms, m, rfl, hfirst, hpath, hshown, hstart⟩ := h
  have hbase : ms.find? (fun m => m.path = moduleName) = some m := by
    rw [firstNaming, List.find?_eq_some_iff_append] at hfirst
    obtain ⟨-, before, behind, rfl, hbefore⟩ := hfirst
    rw [List.find?_eq_some_iff_append]
    refine ⟨by simpa using hpath, before, behind, rfl, fun m' hm' => ?_⟩
    have hname : ¬ moduleName <:+: m'.line := by simpa using hbefore m' hm'
    rw [Bool.not_eq_true', decide_eq_false_iff_not]
    rintro rfl
    exact hname (path_infix_line m')
  have hanswer := getModuleBase_getD (some ms) moduleName
  rw [Option.map_some, getModuleBase_of_named hfirst hshown, reported,
    if_neg hstart, Option.getD_some] at hanswer
  rw [baseIn, Option.bind_some, loadAddress, hbase, Option.map_some, ← hanswer]

theorem sameShift_of_ownLineFirst {selfMaps targetMaps : Option (List Mapping)}
    (hself : OwnLineFirst selfMaps moduleName)
    (htarget : OwnLineFirst targetMaps moduleName) :
    SameShift selfMaps targetMaps moduleName := by
  intro lb rb hlb hrb
  rw [taken_of_ownLineFirst hself] at hlb
  rw [taken_of_ownLineFirst htarget] at hrb
  obtain rfl := Option.some.inj hlb
  obtain rfl := Option.some.inj hrb
  exact ⟨0, (BitVec.add_zero _).symm, (BitVec.add_zero _).symm⟩

end Answers

/-! ## Addresses -/

section Addresses

variable {b : Build} {regs : b.Regs} {mem : Mem} {addr addr' : Word}

theorem entersAt_enter (b : Build) (mem : Mem) (regs : b.Regs) (addr : Word)
    (params : List Word) : b.EntersAt (b.arch.enter mem regs addr params).1 addr := by
  cases b with
  | arm =>
      show Build.EntersAt .arm (arm.enter mem regs addr params).1 addr
      simp only [arm]
      split
      · exact entersAt_setPc _ addr
      · exact entersAt_setPc _ addr
  | i386 => rfl

theorem or_of_masks (x m : Word) : x &&& ~~~m ||| x &&& m = x := by
  ext i hi
  simp only [BitVec.getElem_or, BitVec.getElem_and, BitVec.getElem_not]
  cases m[i] <;> simp

theorem and_one_toNat (addr : Word) : (addr &&& 1).toNat = addr.toNat % 2 := by
  rw [BitVec.toNat_and]
  exact Nat.and_one_is_mod addr.toNat

theorem entersAt_unique (h : b.EntersAt regs addr) (h' : b.EntersAt regs addr') :
    addr = addr' := by
  cases b with
  | i386 =>
      have heip : regs.eip = addr := h
      rw [← heip]
      exact h'
  | arm =>
      obtain ⟨hpc, hthumb⟩ := h
      obtain ⟨hpc', hthumb'⟩ := h'
      have hhigh : addr &&& ~~~1 = addr' &&& ~~~1 := hpc.symm.trans hpc'
      have hlow : addr &&& 1 = addr' &&& 1 := by
        have hiff := hthumb.symm.trans hthumb'
        have hbit := and_one_toNat addr
        have hbit' := and_one_toNat addr'
        have hzero : (0 : Word).toNat = 0 := rfl
        rw [ne_eq, ne_eq, ← BitVec.toNat_inj, ← BitVec.toNat_inj, hzero] at hiff
        apply BitVec.eq_of_toNat_eq
        omega
      calc addr = addr &&& ~~~1 ||| addr &&& 1 := (or_of_masks addr 1).symm
        _ = addr' &&& ~~~1 ||| addr' &&& 1 := by rw [hhigh, hlow]
        _ = addr' := or_of_masks addr' 1

/-- The distance of two pages does not touch the bit that asks for Thumb. -/
theorem thumb_kept {lb rb : Word} (hlb : lb.toNat % 4096 = 0)
    (hrb : rb.toNat % 4096 = 0) : (addr - lb + rb) &&& 1 = addr &&& 1 := by
  apply BitVec.eq_of_toNat_eq
  rw [and_one_toNat, and_one_toNat, BitVec.toNat_add, BitVec.toNat_sub]
  omega

end Addresses

/-! ## The calls that are made -/

structure Env.Shows {R : Type} (env : Env R) (l : Layout) : Prop where
  self : env.selfMaps = l.self.map mapsFile
  attached : env.mapsAttached = l.attached.map mapsFile
  mapped : env.mapsMapped = l.mapped.map mapsFile

section Calls

variable {R : Type} {arch : Arch R} {env : Env R} {syms : Symbols}
  {libraryPath cydiaPath functionName param : List Byte} {t t' : Target R}
  {k : Site} {q : Pending R} {f : ModuleFunction} {l : Layout}

theorem remoteAddr_maps {moduleName : List Byte}
    (h : ∃ b ∈ moduleName, b ≠ byte '-')
    (selfMaps targetMaps : Option (List Mapping)) (localAddr : Word) :
    remoteAddr (selfMaps.map mapsFile) (targetMaps.map mapsFile) moduleName
        localAddr =
      localAddr + taken targetMaps moduleName - taken selfMaps moduleName := by
  obtain ⟨a, ha⟩ := Option.ne_none_iff_exists'.mp
    (getModuleBase_ne_none h (selfMaps.map mapsFile))
  obtain ⟨b, hb⟩ := Option.ne_none_iff_exists'.mp
    (getModuleBase_ne_none h (targetMaps.map mapsFile))
  simp [remoteAddr, getRemoteAddr, ← getModuleBase_getD, ha, hb]

/-- The address of a call: that of the injector for `dlclose`, and a shifted
one for the others. -/
def ModuleFunction.entry (f : ModuleFunction) (l : Layout) (syms : Symbols)
    (k : Site) : Word :=
  if k = .dlclose then f.localAddr syms
  else f.localAddr syms + taken (f.maps l) f.moduleName -
    taken l.self f.moduleName

theorem pending_entry (hshows : env.Shows l)
    (hq : env.pending arch syms libraryPath cydiaPath functionName param t.regs
      t.mem k = some q) (hf : k.function? = some f) :
    q.entry = f.entry l syms k := by
  have hlibc := remoteAddr_maps libcPath_not_dashes l.self l.attached syms.mmap
  have hlinker := remoteAddr_maps linkerPath_not_dashes l.self l.mapped
  rw [← hshows.self, ← hshows.attached] at hlibc
  rw [← hshows.self, ← hshows.mapped] at hlinker
  cases k with
  | mmap =>
      obtain rfl := Option.some.inj hf
      obtain rfl := Option.some.inj hq
      exact hlibc
  | hookEntry => cases hf
  | dlopenCydia =>
      obtain rfl := Option.some.inj hf
      obtain ⟨mmap, -, hq⟩ := Option.bind_eq_some_iff.mp hq
      obtain rfl := Option.some.inj hq
      exact hlinker syms.dlopen
  | dlopenLibrary =>
      obtain rfl := Option.some.inj hf
      obtain ⟨mmap, -, hq⟩ := Option.bind_eq_some_iff.mp hq
      obtain ⟨cydia, -, hq⟩ := Option.bind_eq_some_iff.mp hq
      obtain rfl := Option.some.inj hq
      exact hlinker syms.dlopen
  | dlsym =>
      obtain rfl := Option.some.inj hf
      obtain ⟨mmap, -, hq⟩ := Option.bind_eq_some_iff.mp hq
      obtain ⟨cydia, -, hq⟩ := Option.bind_eq_some_iff.mp hq
      obtain ⟨library, -, hq⟩ := Option.bind_eq_some_iff.mp hq
      simp only [Option.ite_none_right_eq_some, Option.some.injEq] at hq
      obtain ⟨-, rfl⟩ := hq
      exact hlinker syms.dlsym
  | dlclose =>
      obtain rfl := Option.some.inj hf
      obtain ⟨s, -, hq⟩ := Option.bind_eq_some_iff.mp hq
      obtain rfl := Option.some.inj hq
      rfl

end Calls

/-! ## The right addresses -/

section Enters

variable (b : Build) (env : Env b.Regs) (syms : Symbols)
  (libraryPath cydiaPath functionName param : List Byte) (t : Target b.Regs)
  (l : Layout)

/-- A call is made only where both modules are there, and it enters its
function at its address in the target, with the bit that asks for Thumb. -/
def Build.EntersTarget : Prop :=
  ∀ k t', resumedAt b.arch env syms libraryPath cydiaPath functionName param t k =
      some t' →
    l.Complete ∧ ∀ f lb rb, k.function? = some f →
      baseIn l.self f.moduleName = some lb →
      baseIn (f.maps l) f.moduleName = some rb →
      b.EntersAt t'.regs (f.localAddr syms - lb + rb) ∧
        (f.localAddr syms - lb + rb) &&& 1 = f.localAddr syms &&& 1

/-- The target can be set off for a call. -/
def CallEnv.Starts {R : Type} (call : CallEnv R) : Prop :=
  call.setregsOk = true ∧ call.continueOk = true

/-- The modules are where the injector takes them to be: both are in both
processes; the lines that are taken for `libc` are as far from it in both, and
so are those for the linker, if `mmap` returns and `dlopen` is set off; and the
linker is at one address, if the run gets to `dlclose`. -/
structure Env.WellPlaced : Prop where
  complete : l.Complete
  libc : SameShift l.self l.attached libcPath
  linker : env.mmap.result.stop?.isSome → env.dlopenCydia.Starts →
    SameShift l.self l.mapped linkerPath
  dlclose : (env.load b.arch).isSome → env.dlclose.Starts →
    baseIn l.self linkerPath = baseIn l.mapped linkerPath

variable {b env syms libraryPath cydiaPath functionName param t l}

theorem enters_entry {k : Site} {t' : Target b.Regs} {f : ModuleFunction}
    (hshows : env.Shows l)
    (h : resumedAt b.arch env syms libraryPath cydiaPath functionName param t k =
      some t') (hf : k.function? = some f) (addr : Word) :
    b.EntersAt t'.regs addr ↔ f.entry l syms k = addr := by
  obtain ⟨-, q, hq, henter⟩ := resumed_pending h
  have hentry := entersAt_enter b q.mem q.regs q.entry q.params
  rw [henter, pending_entry hshows hq hf] at hentry
  constructor
  · exact entersAt_unique hentry
  · rintro rfl
    exact hentry

theorem entry_dlclose_iff (syms : Symbols) (l : Layout) (f : ModuleFunction)
    (lb rb : Word) :
    f.entry l syms .dlclose = f.localAddr syms - lb + rb ↔ lb = rb := by
  rw [ModuleFunction.entry, if_pos rfl]
  generalize f.localAddr syms = addr
  exact ⟨fun h => by linear_combination h, fun h => by linear_combination h⟩

theorem entry_eq_iff {k : Site} (hk : k ≠ .dlclose) (syms : Symbols) (l : Layout)
    (f : ModuleFunction) (lb rb : Word) :
    f.entry l syms k = f.localAddr syms - lb + rb ↔
      ∃ shift, taken l.self f.moduleName = lb + shift ∧
        taken (f.maps l) f.moduleName = rb + shift := by
  rw [ModuleFunction.entry, if_neg hk]
  generalize f.localAddr syms = addr
  generalize taken (f.maps l) f.moduleName = remote
  generalize taken l.self f.moduleName = self
  constructor
  · intro h
    exact ⟨self - lb, (add_sub_cancel lb self).symm, by linear_combination h⟩
  · intro h
    obtain ⟨shift, hself, hremote⟩ := h
    linear_combination hremote - hself

/-! ## Which calls are made -/

theorem starts_of_stop {R : Type} {call : CallEnv R}
    (h : call.result.stop?.isSome) : call.Starts := by
  rw [CallEnv.Starts]
  by_contra hno
  have hfailed : call.result = .failed := by
    rw [CallEnv.result, CallEnv.stop, if_neg (by simpa using hno)]
  rw [hfailed] at h
  cases h

theorem isSome_of_bind {α β : Type} {o : Option α} {f : α → Option β}
    (h : (o.bind f).isSome) : o.isSome ∧ ∃ a, o = some a ∧ (f a).isSome := by
  cases o with
  | none => cases h
  | some a => exact ⟨rfl, a, rfl, h⟩

theorem makes_mmap_iff :
    env.Makes b.arch syms libraryPath cydiaPath functionName param t .mmap ↔
      (env.Attaches libraryPath ∧ env.getregsOk = true) ∧ env.mmap.Starts :=
  and_congr_right fun _ => and_iff_left rfl

theorem makes_dlopen_iff :
    env.Makes b.arch syms libraryPath cydiaPath functionName param t .dlopenCydia ↔
      (env.Attaches libraryPath ∧ env.getregsOk = true) ∧
        env.dlopenCydia.Starts ∧ env.mmap.result.stop?.isSome := by
  refine and_congr_right fun _ => and_congr_right fun _ => ?_
  rw [Env.pending]
  cases env.mmap.result.stop? <;> rfl

theorem makes_dlclose_iff :
    env.Makes b.arch syms libraryPath cydiaPath functionName param t .dlclose ↔
      (env.Attaches libraryPath ∧ env.getregsOk = true) ∧
        env.dlclose.Starts ∧ (env.load b.arch).isSome := by
  refine and_congr_right fun _ => and_congr_right fun _ => ?_
  rw [Env.pending]
  cases env.load b.arch <;> rfl

/-- Behind `mmap` there is a stop of it, and the first `dlopen` was set off. -/
theorem makes_behind_mmap {k : Site} (hk : k ≠ .mmap)
    (h : env.Makes b.arch syms libraryPath cydiaPath functionName param t k) :
    env.mmap.result.stop?.isSome ∧ env.dlopenCydia.Starts := by
  obtain ⟨-, hstarts, hdue⟩ := h
  cases k with
  | mmap => exact absurd rfl hk
  | dlopenCydia => exact ⟨(isSome_of_bind hdue).1, hstarts⟩
  | dlopenLibrary | dlsym | hookEntry =>
      obtain ⟨hmmap, mmap, -, hdue⟩ := isSome_of_bind hdue
      exact ⟨hmmap, starts_of_stop (isSome_of_bind hdue).1⟩
  | dlclose =>
      have hload := (isSome_of_bind hdue).1
      rw [Env.load] at hload
      obtain ⟨hmmap, mmap, -, hload⟩ := isSome_of_bind hload
      exact ⟨hmmap, starts_of_stop (isSome_of_bind hload).1⟩

/-- The injection makes the target run at all just when it makes it run `mmap`. -/
theorem makes_mmap_of_makes {k : Site}
    (h : env.Makes b.arch syms libraryPath cydiaPath functionName param t k) :
    env.Makes b.arch syms libraryPath cydiaPath functionName param t .mmap := by
  by_cases hk : k = .mmap
  · exact hk ▸ h
  · exact makes_mmap_iff.mpr ⟨h.1, starts_of_stop (makes_behind_mmap hk h).1⟩

theorem bases_aligned {k : Site} {f : ModuleFunction} (haligned : l.Aligned)
    (hf : k.function? = some f) {lb rb : Word}
    (hlb : baseIn l.self f.moduleName = some lb)
    (hrb : baseIn (f.maps l) f.moduleName = some rb) :
    lb.toNat % 4096 = 0 ∧ rb.toNat % 4096 = 0 := by
  refine ⟨page_aligned_base haligned.self hlb, ?_⟩
  cases k with
  | hookEntry => cases hf
  | mmap =>
      obtain rfl := Option.some.inj hf
      exact page_aligned_base haligned.attached hrb
  | dlopenCydia | dlopenLibrary | dlsym | dlclose =>
      obtain rfl := Option.some.inj hf
      exact page_aligned_base haligned.mapped hrb

theorem wellPlaced_of_entersTarget (hshows : env.Shows l)
    (h : b.EntersTarget env syms libraryPath cydiaPath functionName param t l)
    (hattach : env.Attaches libraryPath) (hget : env.getregsOk = true)
    (hmmap : env.mmap.Starts) : env.WellPlaced b l := by
  have hright : ∀ {k : Site} {f : ModuleFunction} {lb rb : Word},
      env.Makes b.arch syms libraryPath cydiaPath functionName param t k →
      k.function? = some f → baseIn l.self f.moduleName = some lb →
      baseIn (f.maps l) f.moduleName = some rb →
      f.entry l syms k = f.localAddr syms - lb + rb := by
    intro k f lb rb hmakes hf hlb hrb
    obtain ⟨t', ht'⟩ := Option.isSome_iff_exists.mp (makes_iff.mp hmakes)
    exact (enters_entry hshows ht' hf _).mp ((h k t' ht').2 f lb rb hf hlb hrb).1
  have hmakes : env.Makes b.arch syms libraryPath cydiaPath functionName param t
      .mmap := makes_mmap_iff.mpr ⟨⟨hattach, hget⟩, hmmap⟩
  obtain ⟨t', ht'⟩ := Option.isSome_iff_exists.mp (makes_iff.mp hmakes)
  have hcomplete := (h .mmap t' ht').1
  refine ⟨hcomplete, fun lb rb hlb hrb => ?_, fun hstop hstarts lb rb hlb hrb => ?_,
    fun hload hstarts => ?_⟩
  · exact (entry_eq_iff (by decide) syms l
      ⟨libcPath, Symbols.mmap, Layout.attached⟩ lb rb).mp (hright hmakes rfl hlb hrb)
  · exact (entry_eq_iff (by decide) syms l
      ⟨linkerPath, Symbols.dlopen, Layout.mapped⟩ lb rb).mp
        (hright (makes_dlopen_iff.mpr ⟨hmakes.1, hstarts, hstop⟩) rfl hlb hrb)
  · obtain ⟨lb, hlb⟩ := Option.isSome_iff_exists.mp hcomplete.selfLinker
    obtain ⟨rb, hrb⟩ := Option.isSome_iff_exists.mp hcomplete.targetLinker
    rw [hlb, hrb, (entry_dlclose_iff syms l
      ⟨linkerPath, Symbols.dlclose, Layout.mapped⟩ lb rb).mp
        (hright (makes_dlclose_iff.mpr ⟨hmakes.1, hstarts, hload⟩) rfl hlb hrb)]

/-- In a well-placed run each call that is made goes to its function. -/
theorem Env.WellPlaced.entry {k : Site} {f : ModuleFunction} {lb rb : Word}
    (h : env.WellPlaced b l)
    (hmakes : env.Makes b.arch syms libraryPath cydiaPath functionName param t k)
    (hf : k.function? = some f) (hlb : baseIn l.self f.moduleName = some lb)
    (hrb : baseIn (f.maps l) f.moduleName = some rb) :
    f.entry l syms k = f.localAddr syms - lb + rb := by
  cases k with
  | hookEntry => cases hf
  | mmap =>
      obtain rfl := Option.some.inj hf
      exact (entry_eq_iff (by decide) syms l _ lb rb).mpr (h.libc lb rb hlb hrb)
  | dlopenCydia | dlopenLibrary | dlsym =>
      obtain ⟨hstop, hstarts⟩ := makes_behind_mmap Site.noConfusion hmakes
      obtain rfl := Option.some.inj hf
      exact (entry_eq_iff (by decide) syms l _ lb rb).mpr
        (h.linker hstop hstarts lb rb hlb hrb)
  | dlclose =>
      obtain rfl := Option.some.inj hf
      obtain ⟨-, hstarts, hload⟩ := makes_dlclose_iff.mp hmakes
      have hsame := h.dlclose hload hstarts
      rw [hlb, hrb] at hsame
      exact (entry_dlclose_iff syms l _ lb rb).mpr (Option.some.inj hsame)

end Enters

/-- Every call enters its function at its address in the target if and only if
the target is not made to run at all, or the modules are where the injector
takes them to be. -/
theorem entersTarget_iff (b : Build) (env : Env b.Regs) (syms : Symbols)
    (libraryPath cydiaPath functionName param : List Byte) (t : Target b.Regs)
    (l : Layout) (hshows : env.Shows l) (haligned : l.Aligned) :
    b.EntersTarget env syms libraryPath cydiaPath functionName param t l ↔
      (env.Attaches libraryPath → env.getregsOk = true → env.mmap.Starts →
        env.WellPlaced b l) := by
  constructor
  · exact wellPlaced_of_entersTarget hshows
  · intro h k t' ht'
    have hmakes := (resumed_pending ht').1
    obtain ⟨⟨hattach, hget⟩, hmmap⟩ :=
      makes_mmap_iff.mp (makes_mmap_of_makes hmakes)
    have hplaced := h hattach hget hmmap
    refine ⟨hplaced.complete, fun f lb rb hf hlb hrb => ⟨?_, ?_⟩⟩
    · rw [enters_entry hshows ht' hf]
      exact hplaced.entry hmakes hf hlb hrb
    · obtain ⟨hlb', hrb'⟩ := bases_aligned haligned hf hlb hrb
      exact thumb_kept hlb' hrb'

def modulesAt (linker libc : Word) : List Mapping :=
  [mapped linker "/system/bin/linker" (by decide),
    mapped libc "/system/lib/libc.so" (by decide)]

/-- Both modules have an address in each process. -/
def layoutAt (selfLinker targetLinker selfLibc targetLibc : Word) : Layout :=
  ⟨some (modulesAt selfLinker selfLibc), some (modulesAt targetLinker targetLibc),
    some (modulesAt targetLinker targetLibc)⟩

/-- Everything works with these maps. -/
def showing (l : Layout) : Env PtRegs :=
  { replies 0x40000000 1 2 3 0 0 with
    selfMaps := l.self.map mapsFile
    mapsAttached := l.attached.map mapsFile
    mapsMapped := l.mapped.map mapsFile }

theorem showing_shows (l : Layout) : (showing l).Shows l := ⟨rfl, rfl, rfl⟩

theorem layoutAt_aligned {selfLinker targetLinker selfLibc targetLibc : Word}
    (hselfLinker : selfLinker.toNat % 4096 = 0)
    (htargetLinker : targetLinker.toNat % 4096 = 0)
    (hselfLibc : selfLibc.toNat % 4096 = 0)
    (htargetLibc : targetLibc.toNat % 4096 = 0) :
    (layoutAt selfLinker targetLinker selfLibc targetLibc).Aligned := by
  refine ⟨?_, ?_, ?_⟩ <;> intro ms hms m hm
  all_goals
    obtain rfl := Option.some.inj hms
    rcases List.mem_pair.mp hm with rfl | rfl
    · assumption
    · assumption

/-- With both modules elsewhere in the target, and a hook that does not come
back. -/
def elsewhere : Layout := layoutAt 0x10000000 0x30000000 0x20000000 0x60000000

def hookStays : Env PtRegs :=
  { showing elsewhere with
    hookEntry := { returning 0 with waits := [] } }

theorem moved_modules_entered :
    Build.EntersTarget .arm hookStays symbolsAt [97] [98] [99] []
      (.found (r0Regs 7) fun _ => none) elsewhere := by
  have hlinker : SameShift elsewhere.self elsewhere.mapped linkerPath := by
    apply sameShift_of_ownLineFirst
    · exact ⟨_, _, rfl, List.find?_cons_of_pos (by decide +kernel), rfl,
        by decide +kernel, by decide⟩
    · exact ⟨_, _, rfl, List.find?_cons_of_pos (by decide +kernel), rfl,
        by decide +kernel, by decide⟩
  have hlibc : SameShift elsewhere.self elsewhere.attached libcPath := by
    apply sameShift_of_ownLineFirst
    · exact ⟨_, _, rfl, (List.find?_cons_of_neg (by decide +kernel)).trans
        (List.find?_cons_of_pos (by decide +kernel)), rfl, by decide +kernel,
        by decide⟩
    · exact ⟨_, _, rfl, (List.find?_cons_of_neg (by decide +kernel)).trans
        (List.find?_cons_of_pos (by decide +kernel)), rfl, by decide +kernel,
        by decide⟩
  have hcomplete : elsewhere.Complete :=
    ⟨by decide +kernel, by decide +kernel, by decide +kernel, by decide +kernel⟩
  have hnone : ¬ (hookStays.load arm).isSome := by decide +kernel
  exact (entersTarget_iff .arm hookStays symbolsAt [97] [98] [99] [] _ elsewhere
    ⟨rfl, rfl, rfl⟩ (layoutAt_aligned rfl rfl rfl rfl)).mpr fun _ _ _ =>
    ⟨hcomplete, hlibc, fun _ _ => hlinker, fun hload => absurd hload hnone⟩

/-- `dlclose` is entered at the address that it has in the injector, where the
target has its linker elsewhere. -/
theorem dlclose_entered_elsewhere :
    ¬ ∀ (l : Layout), l.Aligned →
      Build.EntersTarget .arm (showing l) symbolsAt [97] [98] [99] []
        (.found (r0Regs 7) fun _ => none) l := by
  intro h
  have hmakes : (showing (layoutAt 0x10000000 0x30000000 0x20000000 0x20000000)).Makes
      arm symbolsAt [97] [98] [99] [] (.found (r0Regs 7) fun _ => none) .dlclose :=
    ⟨⟨⟨by decide +kernel, rfl⟩, rfl⟩, ⟨rfl, rfl⟩, by decide +kernel⟩
  obtain ⟨t', ht'⟩ := Option.isSome_iff_exists.mp (makes_iff.mp hmakes)
  have henters := (h _ (layoutAt_aligned rfl rfl rfl rfl) .dlclose t' ht').2
    ⟨linkerPath, Symbols.dlclose, Layout.mapped⟩ 0x10000000 0x30000000 rfl
    (by decide +kernel) (by decide +kernel)
  have hentry := (enters_entry (b := .arm) (showing_shows _) ht' rfl _).mp henters.1
  exact absurd hentry (by decide)

end Elfupspeed.Elfinject
