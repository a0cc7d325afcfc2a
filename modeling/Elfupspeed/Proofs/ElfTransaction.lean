import Elfupspeed.Lib.Assign
import Elfupspeed.Src.ElfTransaction

/-!
# Services that are replaced one by one

Every step on the way to the array is looked at, and a null reference is a -1
before anything has changed. The array itself is not looked at: the loop takes
a name and the object behind it, puts the object into the service, and goes
on. So with a name that stands for no service it has replaced those in front
of it when it writes through the null binder, and with an odd number of
elements it reads behind the last. An array of pairs whose names all stand
for services does what is asked for, and what is then returned is left to
chance.
-/

namespace Elfupspeed.ElfTransaction

open Elfupspeed.Lib Elfupspeed.Lib.CString

variable {β : Type} {registry : List Byte → Option β} {jni : Jni} {left : ℤ}
  {object : β → JObject} {array : List JObject} {s : Services β}

/-! ## The array -/

/-- Nothing on the way to the array is null. -/
def Jni.Complete (jni : Jni) : Prop :=
  jni.jvm = true ∧ jni.jniEnv = true ∧ jni.dexloaderInitMethod = true ∧
    jni.loadClassMethod = true ∧ jni.classLoader = true ∧
    jni.dexLoaderObj = true ∧ jni.entryClass = true ∧ jni.invokeMethod = true

instance (jni : Jni) : Decidable jni.Complete :=
  inferInstanceAs (Decidable (_ ∧ _))

/-- The array that the loop is given. -/
def Jni.array? (jni : Jni) : Option (List JObject) :=
  if jni.Complete then jni.objectarray else none

theorem invoke_run (jni : Jni) (s : Services β) :
    (invoke jni).run s =
      match jni.array? with
      | some array => (.ok array, s)
      | none => (.error (.exit (-1)), s) := by
  simp only [invoke, Prog.run_require_bind, Jni.array?]
  by_cases hcomplete : jni.Complete
  · rw [if_pos hcomplete]
    obtain ⟨h₁, h₂, h₃, h₄, h₅, h₆, h₇, h₈⟩ := hcomplete
    rw [if_pos h₁, if_pos h₂, if_pos h₃, if_pos h₄, if_pos h₅, if_pos h₆,
      if_pos h₇, if_pos h₈]
    cases jni.objectarray with
    | some array => rfl
    | none => rfl
  · rw [if_neg hcomplete]
    simp only [← ite_and]
    exact if_neg hcomplete

/-! ## Runs that go astray -/

/-- A run that does not come to its end, or has left the array. -/
def Astray {α : Type} (array : List JObject) (r : Except Halt α × Services β) :
    Prop :=
  r.1 = .error .crashed ∨ ∃ i ∈ r.2.accesses, array.length ≤ i

/-- A run that has gone astray does not find back. -/
theorem Astray.bind {m : Sys β PUnit} (h : Astray array (m.run s)) :
    Astray array ((m >>= fun _ => pure left).run s) := by
  cases hrun : m.run s with
  | mk r s' =>
      rw [hrun] at h
      cases r with
      | error e =>
          rw [Prog.run_bind_error hrun]
          exact h.imp_left fun heq => (by rw [Except.error.inj heq])
      | ok a =>
          rw [Prog.run_bind_ok hrun]
          exact h.imp_left fun heq => (by cases heq)

/-! ## What the law asks for -/

/-- The pairs that an array is made of. -/
def pairsOf : List JObject → Option (List (List Byte × JObject))
  | [] => some []
  | .string name :: obj :: rest => (pairsOf rest).map ((name, obj) :: ·)
  | _ => none

/-- The same with the services that the names stand for. -/
def bound (registry : List Byte → Option β) (ps : List (List Byte × JObject)) :
    List (β × JObject) :=
  ps.filterMap fun p => (registry p.1).map fun b => (b, p.2)

def Registered (registry : List Byte → Option β)
    (ps : List (List Byte × JObject)) : Prop :=
  ∀ p ∈ ps, registry p.1 ≠ none

variable [DecidableEq β]

/-- A call of the function when the services hold these objects. -/
def call (registry : List Byte → Option β) (jni : Jni) (left : ℤ)
    (object : β → JObject) : Except Halt ℤ × Services β :=
  (elfHookRunningApp registry jni left).run { object := object }

/-- All named services are there, and have the object of the last pair with
their name; the others have what they had. -/
def Replaces (registry : List Byte → Option β) (array : List JObject)
    (before after : β → JObject) : Prop :=
  ∃ ps, pairsOf array = some ps ∧ Registered registry ps ∧
    ∀ b, after b = (lastFor b (bound registry ps)).getD (before b)

structure AllOrNothing (registry : List Byte → Option β) (jni : Jni) (left : ℤ)
    (object : β → JObject) : Prop where
  inside : ∀ array, jni.objectarray = some array →
    ∀ i ∈ (call registry jni left object).2.accesses, i < array.length
  no_null_written : (call registry jni left object).2.nullWritten = false
  outcome :
    (∃ ret array, result (call registry jni left object).1 = some ret ∧ 0 ≤ ret ∧
      jni.objectarray = some array ∧
      Replaces registry array object (call registry jni left object).2.object) ∨
    result (call registry jni left object).1 = some (-1) ∧
      (call registry jni left object).2.object = object

/-! ## The loop -/

/-- The state in which a round has its two elements. -/
def Services.reads (s : Services β) (i : ℕ) : Services β :=
  { s with accesses := s.accesses ++ [i, i + 1] }

def Services.replace (s : Services β) (b : β) (newobj : JObject) : Services β :=
  { s with object := Function.update s.object b newobj }

section Rounds

variable {rounds i : ℕ} {name : List Byte} {b : β}

theorem hookLoop_succ_run :
    (hookLoop registry array (rounds + 1) i).run s =
      (getStringUTFChars (array[i]?.getD .null) >>= fun cName => do
        changObj (registry cName) (array[i + 1]?.getD .null)
        hookLoop registry array rounds (i + 2)).run (s.reads i) := by
  have hname : (getObjectArrayElement array i).run s =
      (.ok (array[i]?.getD .null), { s with accesses := s.accesses ++ [i] }) :=
    rfl
  have hobj : (getObjectArrayElement array (i + 1)).run
      { s with accesses := s.accesses ++ [i] } =
      (.ok (array[i + 1]?.getD .null), s.reads i) := by
    rw [Services.reads, List.append_cons s.accesses i [i + 1]]
    rfl
  rw [hookLoop, Prog.run_bind_ok hname, Prog.run_bind_ok hobj]

theorem hookLoop_string (hname : array[i]? = some (.string name)) :
    (hookLoop registry array (rounds + 1) i).run s =
      (changObj (registry name) (array[i + 1]?.getD .null) >>= fun _ =>
        hookLoop registry array rounds (i + 2)).run (s.reads i) := by
  rw [hookLoop_succ_run, hname]
  exact Prog.run_bind_ok (Prog.run_pure name (s.reads i))

theorem hookLoop_registered (hname : array[i]? = some (.string name))
    (hbinder : registry name = some b) :
    (hookLoop registry array (rounds + 1) i).run s =
      (hookLoop registry array rounds (i + 2)).run
        ((s.reads i).replace b (array[i + 1]?.getD .null)) := by
  rw [hookLoop_string hname, hbinder]
  rfl

theorem hookLoop_unregistered (hname : array[i]? = some (.string name))
    (hbinder : registry name = none) :
    (hookLoop registry array (rounds + 1) i).run s =
      (.error .crashed, { s.reads i with nullWritten := true }) := by
  rw [hookLoop_string hname, hbinder]
  rfl

theorem hookLoop_not_string (hname : ∀ name, array[i]? ≠ some (.string name)) :
    (hookLoop registry array (rounds + 1) i).run s =
      (.error .crashed, s.reads i) := by
  rw [hookLoop_succ_run]
  cases hget : array[i]? with
  | none => rfl
  | some obj =>
      cases obj with
      | null => rfl
      | other id => rfl
      | string name => exact absurd hget (hname name)

/-- From `i` on there are pairs with services, and the loop replaces these; or
there are not, and it goes astray. -/
theorem hookLoop_run (registry : List Byte → Option β) (array rest : List JObject)
    (i : ℕ) (s : Services β) (hrest : array.drop i = rest) :
    (∃ ps, pairsOf rest = some ps ∧ Registered registry ps ∧
      (hookLoop registry array ((rest.length + 1) / 2) i).run s =
        (.ok ⟨⟩, { s with
          object := assign s.object (bound registry ps)
          accesses := s.accesses ++ List.range' i rest.length })) ∨
    (¬ ∃ ps, pairsOf rest = some ps ∧ Registered registry ps) ∧
      Astray array ((hookLoop registry array ((rest.length + 1) / 2) i).run s) := by
  induction rest using pairsOf.induct generalizing i s with
  | case1 =>
      refine .inl ⟨[], rfl, fun p hp => (by cases hp), ?_⟩
      rw [List.length_nil, List.range'_zero, List.append_nil]
      rfl
  | case2 name obj rest ih =>
      have hname : array[i]? = some (.string name) := by
        rw [← Nat.add_zero i, ← List.getElem?_drop, hrest]
        rfl
      have hobj : array[i + 1]? = some obj := by
        rw [← List.getElem?_drop, hrest]
        rfl
      have hdrop : array.drop (i + 2) = rest := by
        rw [← List.drop_drop, hrest]
        rfl
      have hrounds : ((JObject.string name :: obj :: rest).length + 1) / 2 =
          (rest.length + 1) / 2 + 1 := by
        simp only [List.length_cons]
        omega
      rw [hrounds, pairsOf]
      cases hbinder : registry name with
      | none =>
          rw [hookLoop_unregistered hname hbinder]
          refine .inr ⟨?_, .inl rfl⟩
          intro h
          obtain ⟨ps, hps, hregistered⟩ := h
          rw [Option.map_eq_some_iff] at hps
          obtain ⟨qs, -, rfl⟩ := hps
          exact hregistered _ List.mem_cons_self hbinder
      | some b =>
          rw [hookLoop_registered hname hbinder, hobj, Option.getD_some]
          rcases ih (i + 2) ((s.reads i).replace b obj) hdrop with
            ⟨ps, hps, hregistered, hrun⟩ | ⟨hnot, hastray⟩
          · refine .inl ⟨(name, obj) :: ps, by rw [hps]; rfl, ?_, ?_⟩
            · refine List.forall_mem_cons.mpr ⟨?_, hregistered⟩
              rw [hbinder]
              exact Option.some_ne_none b
            · have hbound : bound registry ((name, obj) :: ps) =
                  (b, obj) :: bound registry ps := by
                simp [bound, hbinder]
              have hrange :
                  List.range' i (JObject.string name :: obj :: rest).length =
                  [i, i + 1] ++ List.range' (i + 2) rest.length := rfl
              rw [hrun, hbound, hrange, assign, ← List.append_assoc]
              rfl
          · refine .inr ⟨?_, hastray⟩
            intro h
            obtain ⟨ps, hps, hregistered⟩ := h
            rw [Option.map_eq_some_iff] at hps
            obtain ⟨qs, hqs, rfl⟩ := hps
            exact hnot ⟨qs, hqs,
              fun p hp => hregistered p (List.mem_cons_of_mem _ hp)⟩
  | case3 rest hnil hpair =>
      have hnone : pairsOf rest = none := by
        rw [pairsOf]
        · exact hnil
        · exact hpair
      have hnot : ¬ ∃ ps, pairsOf rest = some ps ∧ Registered registry ps := by
        intro h
        obtain ⟨ps, hps, -⟩ := h
        rw [hnone] at hps
        cases hps
      refine .inr ⟨hnot, ?_⟩
      obtain ⟨x, rest, rfl⟩ := List.exists_cons_of_ne_nil hnil
      have hget : array[i]? = some x := by
        rw [← Nat.add_zero i, ← List.getElem?_drop, hrest]
        rfl
      obtain ⟨rounds, hrounds⟩ :
          ∃ rounds, ((x :: rest).length + 1) / 2 = rounds + 1 :=
        ⟨rest.length / 2, by simp only [List.length_cons]; omega⟩
      rw [hrounds]
      cases x with
      | null =>
          rw [hookLoop_not_string fun name h => (by rw [hget] at h; cases h)]
          exact .inl rfl
      | other id =>
          rw [hookLoop_not_string fun name h => (by rw [hget] at h; cases h)]
          exact .inl rfl
      | string name =>
          cases rest with
          | cons obj rest => exact absurd rfl (hpair name obj rest)
          | nil =>
              have hlen : array.length = i + 1 := by
                have hone := congrArg List.length hrest
                rw [List.length_drop, List.length_singleton] at hone
                omega
              cases hbinder : registry name with
              | none =>
                  rw [hookLoop_unregistered hget hbinder]
                  exact .inl rfl
              | some b =>
                  have hzero : rounds = 0 := by
                    simp only [List.length_singleton] at hrounds
                    omega
                  rw [hzero, hookLoop_registered hget hbinder]
                  refine .inr ⟨i + 1, ?_, hlen.le⟩
                  exact List.mem_append_right _
                    (List.mem_cons_of_mem _ List.mem_cons_self)

end Rounds

/-! ## The law -/

/-- There is no array; or it has pairs alone, with a service for every name,
and what happens to be returned is no error, or is -1 when the services have
their new objects already. -/
def Replaceable (registry : List Byte → Option β) (jni : Jni) (left : ℤ)
    (object : β → JObject) : Prop :=
  jni.array? = none ∨
    ∃ array ps, jni.array? = some array ∧ pairsOf array = some ps ∧
      Registered registry ps ∧
      (0 ≤ left ∨ left = -1 ∧
        ∀ b obj, lastFor b (bound registry ps) = some obj → object b = obj)

theorem call_of_no_array (h : jni.array? = none) :
    call registry jni left object =
      (.error (.exit (-1)), { object := object }) := by
  have hinvoke := invoke_run jni ({ object := object } : Services β)
  rw [h] at hinvoke
  exact Prog.run_bind_error hinvoke

theorem call_of_array (h : jni.array? = some array) :
    call registry jni left object =
      (hookLoop registry array ((array.length + 1) / 2) 0 >>= fun _ =>
        pure left).run { object := object } := by
  have hinvoke := invoke_run jni ({ object := object } : Services β)
  rw [h] at hinvoke
  exact Prog.run_bind_ok hinvoke

theorem objectarray_of_array (h : jni.array? = some array) :
    jni.objectarray = some array := by
  rw [Jni.array?] at h
  split at h
  · exact h
  · cases h

theorem not_allOrNothing_of_astray (harray : jni.array? = some array)
    (h : Astray array (call registry jni left object)) :
    ¬ AllOrNothing registry jni left object := by
  intro hlaw
  rcases h with hcrashed | ⟨i, hi, hout⟩
  · have hnone : result (call registry jni left object).1 = none := by
      rw [hcrashed]
      rfl
    rcases hlaw.outcome with ⟨ret, -, hret, -⟩ | ⟨hret, -⟩
    · rw [hnone] at hret
      cases hret
    · rw [hnone] at hret
      cases hret
  · have hin := hlaw.inside array (objectarray_of_array harray) i hi
    omega

theorem allOrNothing_of_no_array (harray : jni.array? = none) :
    AllOrNothing registry jni left object := by
  have hcall : call registry jni left object = _ := call_of_no_array harray
  constructor
  · intro array _ i hi
    rw [hcall] at hi
    cases hi
  · rw [hcall]
  · rw [hcall]
    exact .inr ⟨rfl, rfl⟩

theorem allOrNothing_of_pairs {ps : List (List Byte × JObject)}
    (harray : jni.array? = some array) (hps : pairsOf array = some ps)
    (hregistered : Registered registry ps)
    (hcall : call registry jni left object =
      (.ok left, {
        object := assign object (bound registry ps)
        accesses := List.range' 0 array.length })) :
    AllOrNothing registry jni left object ↔
      0 ≤ left ∨ left = -1 ∧ assign object (bound registry ps) = object := by
  constructor
  · intro h
    rcases h.outcome with ⟨ret, -, hret, hpos, -⟩ | ⟨hret, hsame⟩
    · rw [hcall] at hret
      cases hret
      exact .inl hpos
    · rw [hcall] at hret hsame
      exact .inr ⟨Option.some.inj hret, hsame⟩
  · intro hleft
    constructor
    · intro array' harray' i hi
      rw [objectarray_of_array harray] at harray'
      cases harray'
      rw [hcall] at hi
      have hrange := List.mem_range'.mp hi
      omega
    · rw [hcall]
    · rw [hcall]
      rcases hleft with hpos | ⟨hneg, hsame⟩
      · exact .inl ⟨left, array, rfl, hpos, objectarray_of_array harray, ps, hps,
          hregistered, assign_eq object (bound registry ps)⟩
      · exact .inr ⟨congrArg some hneg, hsame⟩

/-- All or nothing is what happens exactly where nothing can go wrong. -/
theorem all_or_nothing_iff (registry : List Byte → Option β) (jni : Jni)
    (left : ℤ) (object : β → JObject) :
    AllOrNothing registry jni left object ↔
      Replaceable registry jni left object := by
  cases harray : jni.array? with
  | none => exact iff_of_true (allOrNothing_of_no_array harray) (.inl harray)
  | some array =>
      have hcall : call registry jni left object = _ := call_of_array harray
      have hcond : Replaceable registry jni left object ↔
          ∃ ps, pairsOf array = some ps ∧ Registered registry ps ∧
            (0 ≤ left ∨
              left = -1 ∧ assign object (bound registry ps) = object) := by
        simp only [Replaceable, harray, reduceCtorEq, false_or, Option.some.injEq,
          exists_and_left, exists_eq_left', assign_eq_self_iff]
      rw [hcond]
      rcases hookLoop_run registry array array 0 { object := object } rfl with
        ⟨ps, hps, hregistered, hrun⟩ | ⟨hnot, hastray⟩
      · rw [Prog.run_bind_ok hrun] at hcall
        rw [allOrNothing_of_pairs harray hps hregistered hcall]
        refine ⟨fun h => ⟨ps, hps, hregistered, h⟩, ?_⟩
        intro h
        obtain ⟨ps', hps', -, h⟩ := h
        rw [hps] at hps'
        cases hps'
        exact h
      · refine iff_of_false (not_allOrNothing_of_astray harray ?_) fun h => ?_
        · rw [hcall]
          exact hastray.bind
        · obtain ⟨ps, hps, hregistered, -⟩ := h
          exact hnot ⟨ps, hps, hregistered⟩

/-- Two names with an object each, of which only the first is a service's. -/
def halfRegistered : Jni where
  objectarray := some
    [.string (ofString "a"), .other 1, .string (ofString "b"), .other 2]

def onlyFirst (name : List Byte) : Option (Fin 1) :=
  if name = ofString "a" then some 0 else none

/-- The first service is replaced before the second is found to be none. -/
theorem half_replaced :
    (call onlyFirst halfRegistered 0 fun _ => .other 0).2.object 0 = .other 1 ∧
      ¬ AllOrNothing onlyFirst halfRegistered 0 fun _ => .other 0 := by
  refine ⟨by decide, fun h => ?_⟩
  have hwritten := h.no_null_written
  revert hwritten
  decide

end Elfupspeed.ElfTransaction
