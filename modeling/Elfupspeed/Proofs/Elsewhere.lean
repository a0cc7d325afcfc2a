import Elfupspeed.Proofs.PartialCopy
import Elfupspeed.Proofs.Scratch

/-!
# What an injection leaves alone

The injector writes to its target in two places: four strings in the mapping,
and the frames of its calls below the stack pointers it finds. Nothing is
asked of the target for that. Where a word is not mapped its poke fails, and
where a string ends in a word the rest of the word is written back as it was.

So a byte in neither place is the target's own. If the target leaves it alone
as well, whatever it is that stops it or that fails, it is there at the end as
it was in the beginning.
-/

namespace Elfupspeed.Elfinject

open Elfupspeed.Lib Elfupspeed.Lib.CString Elfupspeed.Lib.Memory

/-! ## One write -/

section Writes

variable {mem : Mem} {a x : Word} {data : List Byte}

theorem pokeText_of_le (val : Word) (h : 4 ≤ offset a x) :
    pokeText mem a val x = mem x := by
  by_cases hmapped : Mapped mem a 4
  · rw [pokeText_eq hmapped, write_of_le]
    rwa [length_bytesOf, List.length_singleton]
  · rw [pokeText_of_not_mapped hmapped]

/-- A copy changes nothing behind its last byte, mapped or not. -/
theorem ptraceWritedata_of_le (h : data.length ≤ offset a x) :
    ptraceWritedata mem a data x = mem x := by
  induction mem, a, data using ptraceWritedata.induct with
  | case1 mem a b₀ b₁ b₂ b₃ data ih =>
      have hlen : (b₀ :: b₁ :: b₂ :: b₃ :: data).length = 4 + data.length := by
        simp only [List.length_cons]
        omega
      rw [hlen] at h
      have hrest : data.length ≤ offset (a + 4) x := by
        rw [show (4 : Word) = BitVec.ofNat 32 4 from rfl,
          offset_shift_of_le (by omega) (by omega)]
        omega
      rw [ptraceWritedata, ih hrest, pokeText_of_le _ (by omega)]
  | case2 mem a => rw [ptraceWritedata]
  | case3 mem a data hnot hne =>
      have hlt := length_lt_four hnot
      rw [ptraceWritedata]
      · by_cases hmapped : Mapped mem a 4
        · rw [pokeText_overlay hmapped hne hlt, write_of_le h]
        · rw [pokeText_of_not_mapped hmapped]
      · exact hnot
      · exact hne

/-- Out of the frame a call changes nothing, whether there is room for it or
not. -/
theorem enter_of_not_inFrame (b : Build) {regs : b.Regs} (addr : Word)
    {params : List Word} (hx : ¬ b.InFrame regs params.length x) :
    (b.arch.enter mem regs addr params).2 x = mem x := by
  rw [Build.InFrame, Nat.not_lt] at hx
  cases b with
  | arm =>
      show (arm.enter mem regs addr params).2 x = mem x
      simp only [arm]
      split
      · rfl
      · refine ptraceWritedata_of_le ?_
        rw [length_bytesOf, List.length_drop, sp_setParams,
          Nat.mul_comm (params.length - 4)]
        exact hx
  | i386 =>
      have hlow : regs.esp - BitVec.ofNat 32 (params.length * 4) - 4 =
          regs.esp - BitVec.ofNat 32 (4 * (params.length + 1)) := by
        rw [Nat.mul_succ, Nat.mul_comm 4, BitVec.ofNat_add]
        bv_omega
      have hhigh : regs.esp - BitVec.ofNat 32 (params.length * 4) =
          regs.esp - BitVec.ofNat 32 (4 * (params.length + 1)) +
            BitVec.ofNat 32 4 := by
        rw [← hlow]
        bv_omega
      have hfar : 4 * (params.length + 1) ≤
          offset (regs.esp - BitVec.ofNat 32 (4 * (params.length + 1))) x := hx
      show (i386.enter mem regs addr params).2 x = mem x
      simp only [i386]
      rw [hlow, ptraceWritedata_of_le (by rw [length_bytesOf]; simp; omega), hhigh,
        ptraceWritedata_of_le]
      rw [length_bytesOf, offset_shift_of_le (by omega) (by omega)]
      omega

end Writes

/-! ## One call -/

/-- Where the target was seen to stop in a call, of whatever kind the stop. -/
def CallEnv.stops {R : Type} (call : CallEnv R) : List (Stop R) :=
  call.waits.filterMap Prod.fst

section Calls

variable {R : Type} {x : Word} {v : Option Byte}

theorem waitpid_leaves {wait : Option (Stop R)} (stat : ℤ)
    (hwait : ∀ s ∈ wait, s.mem x = v) :
    Prog.Triple (fun t : Target R => t.mem x = v) (waitpid wait stat)
      (fun _ t => t.mem x = v) (fun _ t => t.mem x = v) := by
  cases wait with
  | none => exact Prog.triple_pure fun _ ht => ht
  | some s =>
      refine Prog.triple_bind (Prog.triple_modify fun _ _ => ?_)
        fun _ => Prog.triple_pure fun _ ht => ht
      exact hwait s rfl

theorem waitLoop_leaves {waits : List (Option (Stop R) × Bool)} (stat : ℤ)
    (hwaits : ∀ s ∈ waits.filterMap Prod.fst, s.mem x = v) :
    Prog.Triple (fun t : Target R => t.mem x = v) (waitLoop waits stat)
      (fun _ t => t.mem x = v) (fun _ t => t.mem x = v) := by
  induction waits generalizing stat with
  | nil => exact Prog.triple_exit fun _ ht => ht
  | cons w waits ih =>
      obtain ⟨wait, continueOk⟩ := w
      have hhead : ∀ s ∈ wait, s.mem x = v := by
        intro s hs
        exact hwaits s (List.mem_filterMap.mpr
          ⟨(wait, continueOk), List.mem_cons_self, hs⟩)
      have htail : ∀ s ∈ waits.filterMap Prod.fst, s.mem x = v := by
        intro s hs
        obtain ⟨w, hw, hfst⟩ := List.mem_filterMap.mp hs
        exact hwaits s (List.mem_filterMap.mpr
          ⟨w, List.mem_cons_of_mem _ hw, hfst⟩)
      refine Prog.triple_bind (waitpid_leaves stat hhead) fun stat' => ?_
      split
      · exact Prog.triple_pure fun _ ht => ht
      · split
        · exact ih stat' htail
        · exact Prog.triple_pure fun _ ht => ht

variable {b : Build} {call : CallEnv b.Regs} {regs : b.Regs} {params : List Word}

theorem ptraceCall_leaves (addr : Word)
    (hframe : ¬ b.InFrame regs params.length x)
    (hstops : ∀ s ∈ call.stops, s.mem x = v) :
    Prog.Triple (fun t : Target b.Regs => t.mem x = v)
      (ptraceCall b.arch call addr params regs)
      (fun _ t => t.mem x = v) (fun _ t => t.mem x = v) := by
  refine Prog.triple_bind (Q := fun t t' => t = t' ∧ t.mem x = v)
    (Prog.triple_get fun _ ht => ⟨rfl, ht⟩) fun t => ?_
  refine Prog.triple_bind (Q := fun _ t => t.mem x = v)
    (Prog.triple_modify ?_) fun _ => ?_
  · intro t' ht'
    exact (enter_of_not_inFrame b addr hframe).trans ht'.2
  · split
    · refine Prog.triple_bind (Q := fun _ t => t.mem x = v)
        (Prog.triple_modify fun _ ht => ht) fun _ => ?_
      split
      · exact waitLoop_leaves 0 hstops
      · exact Prog.triple_pure fun _ ht => ht
    · exact Prog.triple_pure fun _ ht => ht

theorem ptraceCallWrapper_leaves (name : FuncName) (addr : Word)
    (hframe : ¬ b.InFrame regs params.length x)
    (hstops : ∀ s ∈ call.stops, s.mem x = v) :
    Prog.Triple (fun t : Target b.Regs => t.mem x = v)
      (ptraceCallWrapper b.arch call name addr params regs)
      (fun _ t => t.mem x = v) (fun _ t => t.mem x = v) := by
  refine Prog.triple_bind (ptraceCall_leaves addr hframe hstops) fun ok => ?_
  split
  · refine Prog.triple_bind (Q := fun _ t => t.mem x = v)
      (Prog.triple_modify fun _ ht => ht) fun _ => ?_
    refine Prog.triple_bind (Q := fun _ t => t.mem x = v)
      (Prog.triple_get fun _ ht => ht) fun t => ?_
    split
    · exact Prog.triple_pure fun _ ht => ht
    · exact Prog.triple_pure fun _ ht => ht
  · exact Prog.triple_pure fun _ ht => ht

/-- A call in the injection, with the registers it is gone on with: those of
the stop that it returned to. -/
theorem callOrExit_leaves (env : Env b.Regs) (name : FuncName) (addr : Word)
    (ret : ℤ) (hframe : ¬ b.InFrame regs params.length x)
    (hstops : ∀ s ∈ call.stops, s.mem x = v) :
    Prog.Triple (fun t : Target b.Regs => t.mem x = v)
      (callOrExit b.arch env call name addr params regs ret)
      (fun r t => t.mem x = v ∧ ∃ s, call.result.stop? = some s ∧ s.regs = r)
      (fun _ t => t.mem x = v) := by
  have hmem : Prog.Triple (fun t : Target b.Regs => t.mem x = v)
      (callOrExit b.arch env call name addr params regs ret)
      (fun _ t => t.mem x = v) (fun _ t => t.mem x = v) := by
    refine Prog.triple_bind
      (ptraceCallWrapper_leaves name addr hframe hstops) fun r => ?_
    cases r with
    | none => exact Prog.triple_exit fun _ ht => ht
    | some regs => exact Prog.triple_pure fun _ ht => ht
  intro t ht
  obtain ⟨t', hrun, -⟩ :=
    callOrExit_run b.arch env call name addr params regs ret t
  have hlast := hmem.final ht
  rw [hrun] at hlast ⊢
  cases hres : call.result with
  | returned s => exact ⟨hlast, s, rfl, rfl⟩
  | failed => exact hlast
  | waiting => exact hlast

end Calls

/-! ## The injection -/

section Injection

variable (b : Build) (env : Env b.Regs) (syms : Symbols)
  (libraryPath cydiaPath functionName param : List Byte) (t₀ : Target b.Regs)

/-- The injection of the target comes to the call at a place, which is then
`q`. -/
def Env.Due {R : Type} (arch : Arch R) (env : Env R) (syms : Symbols)
    (libraryPath cydiaPath functionName param : List Byte) (t : Target R)
    (k : Site) (q : Pending R) : Prop :=
  (env.Attaches libraryPath ∧ env.getregsOk = true) ∧
    env.pending arch syms libraryPath cydiaPath functionName param t.regs t.mem
      k = some q

/-- The byte at `x` is in no frame of a call that the injection comes to, and
in no string that is written for one. -/
structure Build.Spares (x : Word) : Prop where
  frames : ∀ k q,
    env.Due b.arch syms libraryPath cydiaPath functionName param t₀ k q →
    ¬ b.InFrame q.regs q.params.length x
  strings : ∀ k q w s,
    env.Due b.arch syms libraryPath cydiaPath functionName param t₀ k q →
    Site.passing? k = some w → env.mmap.result.stop? = some s →
    (cstr (k.text libraryPath cydiaPath functionName param)).length <
      offset (b.arch.ptraceRetval s.regs + BitVec.ofNat 32 w.offset) x

variable {b env syms libraryPath cydiaPath functionName param t₀} {regs : b.Regs}
  {x : Word} {v : Option Byte}

/-- What a call that the injection comes to does not touch. -/
theorem Build.Spares.call
    (h : b.Spares env syms libraryPath cydiaPath functionName param t₀ x)
    (hdone : env.Attaches libraryPath ∧ env.getregsOk = true) (k : Site)
    (regs : b.Regs) (n : ℕ)
    (hdue : ∃ q, env.pending b.arch syms libraryPath cydiaPath functionName param
      t₀.regs t₀.mem k = some q ∧ q.regs = regs ∧ q.params.length = n) :
    ¬ b.InFrame regs n x ∧ ∀ w s, Site.passing? k = some w →
      env.mmap.result.stop? = some s →
      (cstr (k.text libraryPath cydiaPath functionName param)).length <
        offset (b.arch.ptraceRetval s.regs + BitVec.ofNat 32 w.offset) x := by
  obtain ⟨q, hq, rfl, rfl⟩ := hdue
  exact ⟨h.frames k q ⟨hdone, hq⟩, fun w s => h.strings k q w s ⟨hdone, hq⟩⟩

theorem writeString_leaves {dest : Word} {s : List Byte}
    (h : (cstr s).length < offset dest x) :
    Prog.Triple (fun t : Target b.Regs => t.mem x = v) (writeString dest s)
      (fun _ t => t.mem x = v) (fun _ t => t.mem x = v) := by
  refine Prog.triple_modify fun t ht => ?_
  refine (ptraceWritedata_of_le ?_).trans ht
  rw [List.length_append, List.length_singleton]
  exact h

theorem deref_leaves {α : Type} (o : Option α) :
    Prog.Triple (fun t : Target b.Regs => t.mem x = v) (deref o)
      (fun _ t => t.mem x = v) (fun _ t => t.mem x = v) := by
  cases o with
  | none => exact Prog.triple_exit fun _ ht => ht
  | some a => exact Prog.triple_pure fun _ ht => ht

theorem attachTarget_leaves :
    Prog.Triple (fun t : Target b.Regs => t.mem x = v ∧ t.regs = regs)
      (attachTarget env libraryPath)
      (fun r t => (t.mem x = v ∧ r = regs) ∧
        env.Attaches libraryPath ∧ env.getregsOk = true)
      (fun _ t => t.mem x = v) := by
  refine Prog.triple_bind (Q := fun libaddr t => (t.mem x = v ∧ t.regs = regs) ∧
    getModuleBase env.mapsBefore libraryPath = some libaddr) ?_ fun libaddr => ?_
  · cases getModuleBase env.mapsBefore libraryPath with
    | none => exact Prog.triple_exit fun _ ht => ht.1
    | some a => exact Prog.triple_pure fun _ ht => ⟨ht, rfl⟩
  refine Prog.triple_of_and fun hbase => ?_
  refine Prog.triple_bind
    (Q := fun _ t => (t.mem x = v ∧ t.regs = regs) ∧ libaddr = 0)
    (Prog.triple_require (fun _ hzero ht => ⟨ht, of_decide_eq_true hzero⟩)
      fun _ _ ht => ht.1) fun _ => ?_
  refine Prog.triple_of_and fun hzero => ?_
  refine Prog.triple_bind
    (Q := fun _ t => (t.mem x = v ∧ t.regs = regs) ∧ env.attachOk = true)
    (Prog.triple_require (fun _ hok ht => ⟨ht, hok⟩) fun _ _ ht => ht.1)
    fun _ => ?_
  refine Prog.triple_of_and fun hattach => ?_
  refine Prog.triple_bind (Q := fun _ t => t.mem x = v ∧ t.regs = regs)
    (Prog.triple_modify fun _ ht => ht) fun _ => ?_
  refine Prog.triple_bind
    (Q := fun _ t => (t.mem x = v ∧ t.regs = regs) ∧ env.getregsOk = true)
    (Prog.triple_require (fun _ hok ht => ⟨ht, hok⟩) fun _ _ ht => ht.1)
    fun _ => ?_
  refine Prog.triple_of_and fun hget => ?_
  have hdone : env.Attaches libraryPath ∧ env.getregsOk = true :=
    ⟨⟨hzero ▸ hbase, hattach⟩, hget⟩
  exact Prog.triple_bind (Q := fun t t' => t'.mem x = v ∧ t.regs = regs)
    (Prog.triple_get fun _ ht => ht) fun t => Prog.triple_pure fun _ ht => ⟨ht, hdone⟩

theorem loadAndHook_leaves
    (hdone : env.Attaches libraryPath ∧ env.getregsOk = true)
    (hspares : b.Spares env syms libraryPath cydiaPath functionName param t₀ x)
    (hstops : ∀ k, ∀ s ∈ (env.call k).stops, s.mem x = v) :
    Prog.Triple (fun t : Target b.Regs => t.mem x = v)
      (loadAndHook b.arch env syms libraryPath cydiaPath functionName param t₀.regs)
      (fun r t => t.mem x = v ∧ ∃ s, env.load b.arch = some s ∧ s.hook.regs = r.2)
      (fun _ t => t.mem x = v) := by
  have hdue := hspares.call hdone
  obtain ⟨hframe, -⟩ := hdue .mmap t₀.regs 6 ⟨_, rfl, rfl, rfl⟩
  refine Prog.triple_bind
    (deref_leaves (getRemoteAddr env.selfMaps env.mapsAttached libcPath syms.mmap))
    fun mmapAddr => ?_
  refine Prog.triple_bind (callOrExit_leaves env .mmap mmapAddr (-1) hframe
    (hstops .mmap)) fun r => ?_
  refine Prog.triple_of_and fun hstop => ?_
  obtain ⟨mmap, hmmap, rfl⟩ := hstop
  refine Prog.triple_bind (deref_leaves _) fun dlopenAddr => ?_
  refine Prog.triple_bind (deref_leaves _) fun dlsymAddr => ?_
  refine Prog.triple_bind (deref_leaves _) fun _ => ?_
  refine Prog.triple_bind (deref_leaves _) fun _ => ?_
  -- a string is written right before its call, which is then due
  obtain ⟨hframe, hstring⟩ := hdue .dlopenCydia mmap.regs 2
    (by simp [Env.pending, hmmap])
  have hapart : (cstr cydiaPath).length <
      offset (b.arch.ptraceRetval mmap.regs + 0x300) x :=
    hstring ⟨.mmap, 0x300, 0, 2⟩ mmap rfl hmmap
  refine Prog.triple_bind (writeString_leaves hapart) fun _ => ?_
  refine Prog.triple_bind (callOrExit_leaves env .dlopen dlopenAddr (-1) hframe
    (hstops .dlopenCydia)) fun r => ?_
  refine Prog.triple_of_and fun hstop => ?_
  obtain ⟨cydia, hcydia, rfl⟩ := hstop
  obtain ⟨hframe, hstring⟩ := hdue .dlopenLibrary cydia.regs 2
    (by simp [Env.pending, hmmap, hcydia])
  have hapart := hstring _ mmap rfl hmmap
  rw [BitVec.add_zero] at hapart
  refine Prog.triple_bind (writeString_leaves hapart) fun _ => ?_
  refine Prog.triple_bind (callOrExit_leaves env .dlopen dlopenAddr (-1) hframe
    (hstops .dlopenLibrary)) fun r => ?_
  refine Prog.triple_of_and fun hstop => ?_
  obtain ⟨library, hlibrary, rfl⟩ := hstop
  refine Prog.triple_bind
    (Q := fun _ t => t.mem x = v ∧ b.arch.ptraceRetval library.regs ≠ 0)
    (Prog.triple_require (fun _ hne ht => ⟨ht, of_decide_eq_true hne⟩)
      fun _ _ ht => ht) fun _ => ?_
  refine Prog.triple_of_and fun hhandle => ?_
  obtain ⟨hframe, hstring⟩ := hdue .dlsym library.regs 2
    (by simpa [Env.pending, hmmap, hcydia, hlibrary] using hhandle)
  have hapart : (cstr functionName).length <
      offset (b.arch.ptraceRetval mmap.regs + 0x100) x :=
    hstring ⟨.dlopenLibrary, 0x100, 1, 2⟩ mmap rfl hmmap
  refine Prog.triple_bind (writeString_leaves hapart) fun _ => ?_
  refine Prog.triple_bind (callOrExit_leaves env .dlsym dlsymAddr (-1) hframe
    (hstops .dlsym)) fun r => ?_
  refine Prog.triple_of_and fun hstop => ?_
  obtain ⟨dlsym, hdlsym, rfl⟩ := hstop
  obtain ⟨hframe, hstring⟩ := hdue .hookEntry dlsym.regs 1
    (by simpa [Env.pending, hmmap, hcydia, hlibrary, hdlsym] using hhandle)
  have hapart : (cstr param).length <
      offset (b.arch.ptraceRetval mmap.regs + 0x200) x :=
    hstring ⟨.dlsym, 0x200, 0, 1⟩ mmap rfl hmmap
  refine Prog.triple_bind (writeString_leaves hapart) fun _ => ?_
  refine Prog.triple_bind (callOrExit_leaves env .hookEntry _ (-1) hframe
    (hstops .hookEntry)) fun r => ?_
  refine Prog.triple_of_and fun hstop => ?_
  obtain ⟨hook, hhook, rfl⟩ := hstop
  have hload : env.load b.arch = some ⟨mmap, cydia, library, dlsym, hook⟩ := by
    simpa [Env.load, hmmap, hcydia, hlibrary, hdlsym, hhook] using hhandle
  exact Prog.triple_pure fun _ ht => ⟨ht, _, hload, rfl⟩

theorem closeAndDetach_leaves (original : b.Regs) (sohandle : Word)
    (hframe : ¬ b.InFrame regs 1 x)
    (hstops : ∀ k, ∀ s ∈ (env.call k).stops, s.mem x = v) :
    Prog.Triple (fun t : Target b.Regs => t.mem x = v)
      (closeAndDetach b.arch env syms original sohandle regs)
      (fun _ t => t.mem x = v) (fun _ t => t.mem x = v) := by
  refine Prog.triple_bind (callOrExit_leaves env .dlclose syms.dlclose _
    hframe (hstops .dlclose)) fun r => ?_
  refine Prog.triple_bind (Q := fun _ t => t.mem x = v)
    (Prog.triple_modify fun t ht => ?_) fun _ => ?_
  · show (if env.setregsOk then { t with regs := original } else t).mem x = v
    split <;> exact ht.1
  · refine Prog.triple_bind (Q := fun _ t => t.mem x = v)
      (Prog.triple_modify fun t ht => ?_) fun _ => Prog.triple_pure fun _ ht => ht
    show (if env.detachOk then { t with traced := false } else t).mem x = v
    split <;> exact ht

theorem injectRemoteProcess_leaves
    (hspares : b.Spares env syms libraryPath cydiaPath functionName param t₀ x)
    (hstops : ∀ k, ∀ s ∈ (env.call k).stops, s.mem x = v) :
    Prog.Triple (fun t : Target b.Regs => t.mem x = v ∧ t.regs = t₀.regs)
      (injectRemoteProcess b.arch env syms libraryPath cydiaPath functionName param)
      (fun _ t => t.mem x = v) (fun _ t => t.mem x = v) := by
  refine Prog.triple_bind attachTarget_leaves fun original => ?_
  refine Prog.triple_of_and fun hdone => ?_
  refine Prog.triple_of_and fun horiginal => ?_
  subst horiginal
  refine Prog.triple_bind (loadAndHook_leaves hdone hspares hstops) fun loaded => ?_
  refine Prog.triple_of_and fun hhook => ?_
  obtain ⟨s, hload, hregs⟩ := hhook
  refine closeAndDetach_leaves t₀.regs loaded.1 ?_ hstops
  rw [← hregs]
  exact (hspares.call hdone .dlclose s.hook.regs 1
    (by simp [Env.pending, hload])).1

/-! ## Every moment of it -/

theorem call_pausedAt (env : Env b.Regs) (k j : Site) :
    (env.pausedAt k).call j =
      if j = k then (env.call j).paused else env.call j := by
  cases k <;> cases j <;> rfl

/-- Where answers break off there are fewer stops, and no others. -/
theorem stop?_pausedAt {k j : Site} {s : Stop b.Regs}
    (h : ((env.pausedAt k).call j).result.stop? = some s) :
    (env.call j).result.stop? = some s := by
  rw [call_pausedAt] at h
  split at h
  · simp only [CallEnv.result, CallEnv.stop, CallEnv.paused, firstStop] at h
    split at h
    · next s' heq =>
        split at heq <;> cases heq
    · cases h
    · cases h
  · exact h

theorem stops_pausedAt {k j : Site} {s : Stop b.Regs}
    (h : s ∈ ((env.pausedAt k).call j).stops) : s ∈ (env.call j).stops := by
  rw [call_pausedAt] at h
  split at h
  · exact absurd h List.not_mem_nil
  · exact h

theorem bind_some_imp {α β : Type} {o o' : Option α} {f f' : α → Option β}
    {c : β} (ho : ∀ a, o' = some a → o = some a)
    (hf : ∀ a, f' a = some c → f a = some c) (h : o'.bind f' = some c) :
    o.bind f = some c := by
  obtain ⟨a, ha, hc⟩ := Option.bind_eq_some_iff.mp h
  rw [ho a ha]
  exact hf a hc

theorem pending_pausedAt {j k : Site} {regs : b.Regs} {mem : Mem}
    {q : Pending b.Regs}
    (h : (env.pausedAt j).pending b.arch syms libraryPath cydiaPath functionName
      param regs mem k = some q) :
    env.pending b.arch syms libraryPath cydiaPath functionName param regs mem k =
      some q := by
  have hstop : ∀ i s, ((env.pausedAt j).call i).result.stop? = some s →
      (env.call i).result.stop? = some s := fun i s => stop?_pausedAt
  have hmmap := hstop .mmap
  have hcydia := hstop .dlopenCydia
  have hlibrary := hstop .dlopenLibrary
  cases k with
  | mmap => cases j <;> exact h
  | dlopenCydia =>
      refine bind_some_imp hmmap (fun mmap => ?_) h
      cases j <;> exact id
  | dlopenLibrary =>
      refine bind_some_imp hmmap (fun mmap => bind_some_imp hcydia fun cydia => ?_) h
      cases j <;> exact id
  | dlsym =>
      refine bind_some_imp hmmap (fun mmap => bind_some_imp hcydia fun _ =>
        bind_some_imp hlibrary fun library => ?_) h
      cases j <;> exact id
  | hookEntry =>
      refine bind_some_imp hmmap (fun mmap => bind_some_imp hcydia fun _ =>
        bind_some_imp hlibrary fun library => ?_) h
      intro hq
      rw [Option.ite_none_right_eq_some] at hq ⊢
      exact ⟨hq.1, bind_some_imp (hstop .dlsym) (fun dlsym => id) hq.2⟩
  | dlclose =>
      refine bind_some_imp (fun s => ?_) (fun s => id) h
      refine bind_some_imp hmmap fun mmap => bind_some_imp hcydia fun cydia =>
        bind_some_imp hlibrary fun library => ?_
      intro hq
      rw [Option.ite_none_right_eq_some] at hq ⊢
      exact ⟨hq.1, bind_some_imp (hstop .dlsym) (fun dlsym =>
        bind_some_imp (hstop .hookEntry) fun hook => id) hq.2⟩

theorem Build.Spares.pausedAt
    (h : b.Spares env syms libraryPath cydiaPath functionName param t₀ x)
    (j : Site) :
    b.Spares (env.pausedAt j) syms libraryPath cydiaPath functionName param t₀
      x := by
  have hdue : ∀ {k q},
      (env.pausedAt j).Due b.arch syms libraryPath cydiaPath functionName param t₀
        k q →
      env.Due b.arch syms libraryPath cydiaPath functionName param t₀ k q := by
    intro k q hdue
    obtain ⟨hdone, hq⟩ := hdue
    rw [pausedAt_attaches, pausedAt_getregsOk] at hdone
    exact ⟨hdone, pending_pausedAt hq⟩
  exact ⟨fun k q hq => h.frames k q (hdue hq), fun k q w s hq hw hs =>
    h.strings k q w s (hdue hq) hw (stop?_pausedAt (k := j) (j := .mmap) hs)⟩

/-- However an injection goes, a byte that is in none of its strings and in
none of its frames, and that the target leaves alone, is what it was found to
be: at the end, and whenever the target is made to run. -/
theorem nothing_else_written (t : Target b.Regs)
    (hspares : b.Spares env syms libraryPath cydiaPath functionName param t x)
    (hstops : ∀ k, ∀ s ∈ (env.call k).stops, s.mem x = t.mem x) :
    ((injectRemoteProcess b.arch env syms libraryPath cydiaPath functionName
      param).run t).2.mem x = t.mem x ∧
    ∀ k t', resumedAt b.arch env syms libraryPath cydiaPath functionName param t k =
      some t' → t'.mem x = t.mem x := by
  have hend := (injectRemoteProcess_leaves hspares hstops).final ⟨rfl, rfl⟩
  refine ⟨hend, fun k t' hres => ?_⟩
  have hpaused := (injectRemoteProcess_leaves (hspares.pausedAt k)
    fun k' s hs => hstops k' s (stops_pausedAt hs)).final ⟨rfl, rfl⟩
  rw [resumedAt] at hres
  split at hres
  · next t'' hrun =>
      rw [hrun] at hpaused
      split at hres
      · rw [← Option.some.inj hres]
        exact hpaused
      · cases hres
  · cases hres

end Injection

/-- A target with nothing but a stack and the mapping, before the injection. -/
def bareTarget : Target (Build.Regs .arm) :=
  .found (Build.regsAt .arm 0x40000000 0) (bareMem 0x40000000)

/-- Four arguments are passed in registers. -/
theorem not_inFrame_of_le_four {n : ℕ} (hn : n ≤ 4) (regs : Build.Regs .arm)
    (x : Word) : ¬ Build.InFrame .arm regs n x := by
  rw [Build.InFrame, Build.stackWords, Nat.sub_eq_zero_of_le hn]
  exact Nat.not_lt_zero _

/-- The byte 0x3000 bytes into the mapping is left over. -/
theorem bareEnv_spares :
    Build.Spares .arm (Build.bareEnv .arm 0x40000000) ⟨0, 0, 0, 0, 0⟩ [97] [98]
      [99] [100] bareTarget 0x40003000 where
  frames k q hdue := by
    obtain ⟨-, hq⟩ := hdue
    cases k with
    | mmap =>
        obtain rfl := Option.some.inj hq
        have hsp : Build.sp .arm bareTarget.regs = 0x40000000 :=
          sp_regsAt .arm 0x40000000 0
        show ¬ Build.InFrame .arm bareTarget.regs 6 0x40003000
        rw [Build.InFrame, hsp]
        decide
    | dlopenCydia | dlopenLibrary | dlsym | hookEntry | dlclose =>
        apply not_inFrame_of_le_four
        simp only [Env.pending, Option.bind_eq_some_iff,
          Option.ite_none_right_eq_some, Option.some.injEq] at hq
        grind
  strings k q w s _ hw hs := by
    obtain rfl := Option.some.inj ((returnsAt_stop rfl).symm.trans hs)
    have hret : Build.arm.arch.ptraceRetval
        (Build.bareStop .arm 0x40000000 0x40000000).regs = 0x40000000 :=
      ptraceRetval_regsAt .arm 0x40000000 0x40000000
    rw [hret]
    cases k with
    | mmap | dlclose => cases hw
    | dlopenCydia | dlopenLibrary | dlsym | hookEntry =>
        obtain rfl := Option.some.inj hw
        decide

theorem rest_of_mapping_left :
    ((injectRemoteProcess (Build.arch .arm) (Build.bareEnv .arm 0x40000000)
      ⟨0, 0, 0, 0, 0⟩ [97] [98] [99] [100]).run bareTarget).2.mem 0x40003000 =
        bareTarget.mem 0x40003000 ∧
    bareTarget.mem 0x40003000 = some 0 := by
  have hstops : ∀ k, ∀ s ∈ ((Build.bareEnv .arm 0x40000000).call k).stops,
      s.mem = bareTarget.mem := by
    intro k s hs
    cases k <;> exact congrArg Stop.mem (List.mem_singleton.mp hs)
  refine ⟨(nothing_else_written bareTarget bareEnv_spares
    fun k s hs => congrFun (hstops k s hs) _).1, ?_⟩
  show bareMem 0x40000000 0x40003000 = some 0
  decide

end Elfupspeed.Elfinject
