import Elfupspeed.Proofs.ElfTransaction

/-!
# What a call has replaced when it is over

The array is taken from the front, two elements at a time, and what has been
put into a service stays there. So whatever the array is, the pairs that come
first and have services are in effect, and what is behind them decides how the
call is over: nothing, and it returns; a name alone, whose service is given
the null that is read behind the array; or anything else, and the process
crashes.
-/

namespace Elfupspeed.ElfTransaction

open Elfupspeed.Lib Elfupspeed.Lib.CString

variable {β : Type}

/-- The pairs in front whose names stand for services, and what is behind
them. -/
def leading (registry : List Byte → Option β) :
    List JObject → List (β × JObject) × List JObject
  | .string name :: obj :: rest =>
      match registry name with
      | some b => ((b, obj) :: (leading registry rest).1, (leading registry rest).2)
      | none => ([], .string name :: obj :: rest)
  | rest => ([], rest)

variable [DecidableEq β]

/-- Whether a call that has come to `rest` returns, and what the services hold
then. -/
def finish (registry : List Byte → Option β) (object : β → JObject) :
    List JObject → Bool × (β → JObject)
  | [] => (true, object)
  | [.string name] =>
      match registry name with
      | some b => (true, Function.update object b .null)
      | none => (false, object)
  | _ => (false, object)

def outcome (registry : List Byte → Option β) (object : β → JObject)
    (array : List JObject) : Bool × (β → JObject) :=
  finish registry (assign object (leading registry array).1)
    (leading registry array).2

/-- A run of the loop ends so. -/
def Ends (r : Except Halt PUnit × Services β) (o : Bool × (β → JObject)) : Prop :=
  r.1 = (if o.1 then .ok ⟨⟩ else .error .crashed) ∧ r.2.object = o.2

section Loop

variable {registry : List Byte → Option β} {array : List JObject} {i : ℕ}

/-- The last round, at an element that begins no pair. -/
theorem hookLoop_unpaired {x : JObject} {rest : List JObject} {rounds : ℕ}
    (hpair : ∀ name obj rest', x :: rest ≠ .string name :: obj :: rest')
    (hrest : array.drop i = x :: rest)
    (hrounds : ((x :: rest).length + 1) / 2 = rounds + 1) (s : Services β) :
    Ends ((hookLoop registry array (rounds + 1) i).run s)
      (finish registry s.object (x :: rest)) := by
  have hget : array[i]? = some x := by
    rw [← Nat.add_zero i, ← List.getElem?_drop, hrest]
    rfl
  cases x with
  | null =>
      rw [hookLoop_not_string fun name h => (by rw [hget] at h; cases h)]
      exact ⟨rfl, rfl⟩
  | other id =>
      rw [hookLoop_not_string fun name h => (by rw [hget] at h; cases h)]
      exact ⟨rfl, rfl⟩
  | string name =>
      cases rest with
      | cons obj rest => exact absurd rfl (hpair name obj rest)
      | nil =>
          rw [finish]
          cases hbinder : registry name with
          | none =>
              rw [hookLoop_unregistered hget hbinder]
              exact ⟨rfl, rfl⟩
          | some b =>
              have hbehind : array[i + 1]? = none := by
                rw [← List.getElem?_drop, hrest]
                rfl
              obtain rfl : rounds = 0 := by
                simp only [List.length_singleton] at hrounds
                omega
              rw [hookLoop_registered hget hbinder, hbehind]
              exact ⟨rfl, rfl⟩

theorem hookLoop_ends (rest : List JObject) (i : ℕ) (s : Services β)
    (hrest : array.drop i = rest) :
    Ends ((hookLoop registry array ((rest.length + 1) / 2) i).run s)
      (outcome registry s.object rest) := by
  induction rest using pairsOf.induct generalizing i s with
  | case1 => exact ⟨rfl, rfl⟩
  | case2 name obj rest ih =>
      have hname : array[i]? = some (.string name) := by
        rw [← Nat.add_zero i, ← List.getElem?_drop, hrest]
        rfl
      have hobj : array[i + 1]? = some obj := by
        rw [← List.getElem?_drop, hrest]
        rfl
      have hdrop : array.drop (i + 2) = rest := by
        rw [← List.drop_drop, hrest]
        rfl
      have hrounds : ((JObject.string name :: obj :: rest).length + 1) / 2 =
          (rest.length + 1) / 2 + 1 := by
        simp only [List.length_cons]
        omega
      rw [hrounds, outcome, leading]
      cases hbinder : registry name with
      | none =>
          rw [hookLoop_unregistered hname hbinder]
          exact ⟨rfl, rfl⟩
      | some b =>
          rw [hookLoop_registered hname hbinder, hobj, Option.getD_some]
          exact ih (i + 2) ((s.reads i).replace b obj) hdrop
  | case3 rest hnil hpair =>
      have hleading : leading registry rest = ([], rest) := by
        rw [leading]
        exact hpair
      obtain ⟨x, rest, rfl⟩ := List.exists_cons_of_ne_nil hnil
      obtain ⟨rounds, hrounds⟩ :
          ∃ rounds, ((x :: rest).length + 1) / 2 = rounds + 1 :=
        ⟨rest.length / 2, by simp only [List.length_cons]; omega⟩
      rw [outcome, hleading, hrounds]
      exact hookLoop_unpaired hpair hrest hrounds s

end Loop

omit [DecidableEq β] in
/-- With the loop over, what happens to be left is returned. -/
theorem Ends.bind {m : Sys β PUnit} {s : Services β} {o : Bool × (β → JObject)}
    (h : Ends (m.run s) o) (left : ℤ) :
    (result ((m >>= fun _ => pure left).run s).1,
        ((m >>= fun _ => pure left).run s).2.object) =
      (if o.1 then some left else none, o.2) := by
  obtain ⟨hresult, hobject⟩ := h
  cases hrun : m.run s with
  | mk r s' =>
      rw [hrun] at hresult hobject
      cases hreturns : o.1 with
      | true =>
          rw [hreturns, if_pos rfl] at hresult
          obtain rfl : r = .ok ⟨⟩ := hresult
          rw [Prog.run_bind_ok hrun, if_pos rfl]
          exact congrArg (Prod.mk (some left)) hobject
      | false =>
          rw [hreturns, if_neg Bool.false_ne_true] at hresult
          obtain rfl : r = .error .crashed := hresult
          rw [Prog.run_bind_error hrun, if_neg Bool.false_ne_true]
          exact congrArg (Prod.mk none) hobject

/-- What every call comes to, the ones that crash on the way included: without
an array it is a -1 and nothing has changed, and with one the loop decides. -/
theorem call_outcome (registry : List Byte → Option β) (jni : Jni) (left : ℤ)
    (object : β → JObject) :
    (result (call registry jni left object).1,
        (call registry jni left object).2.object) =
      match jni.array? with
      | none => (some (-1), object)
      | some array =>
          (if (outcome registry object array).1 then some left else none,
            (outcome registry object array).2) := by
  cases harray : jni.array? with
  | none =>
      rw [call_of_no_array harray]
      rfl
  | some array =>
      rw [call_of_array harray]
      exact (hookLoop_ends array 0 { object := object } rfl).bind left

end Elfupspeed.ElfTransaction
