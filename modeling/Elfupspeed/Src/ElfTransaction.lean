import Elfupspeed.Lib.CString
import Elfupspeed.Lib.Exit
import Mathlib.Logic.Function.Basic

/-!
# `ElfTransaction.cpp`: replacing the objects of services

The hook has a class of its own loaded, whose method gives an array: the names
of services, each with an object behind it. The services of the process are
told by their binders, and a name stands for one of these, or for none. What
JNI gives on the way to the array is an input, a `Jni`, and so is `left`: the
function has no last `return`, and its caller gets what was left where the
result is looked for.
-/

namespace Elfupspeed.ElfTransaction

open Elfupspeed.Lib

/-- What a reference stands for. -/
inductive JObject
  | null
  | string (utf : List Byte)
  | other (id : ℕ)
  deriving DecidableEq

/-- Which references on the way are not null, and the array at its end. -/
structure Jni where
  jvm : Bool := true
  jniEnv : Bool := true
  dexloaderInitMethod : Bool := true
  loadClassMethod : Bool := true
  classLoader : Bool := true
  dexLoaderObj : Bool := true
  entryClass : Bool := true
  invokeMethod : Bool := true
  objectarray : Option (List JObject)

/-- What the services hold, what was read of the array, and whether something
was written through a null pointer. -/
structure Services (β : Type) where
  object : β → JObject
  accesses : List ℕ := []
  nullWritten : Bool := false

/-- How the function ends before its last line. -/
inductive Halt
  | exit (ret : ℤ)
  | crashed

abbrev Sys (β : Type) := Prog (Services β) Halt

section

variable {β : Type}

/-- The array, or a `return -1` before there is one. -/
def invoke (jni : Jni) : Sys β (List JObject) := do
  Prog.require jni.jvm (.exit (-1))
  Prog.require jni.jniEnv (.exit (-1))
  Prog.require jni.dexloaderInitMethod (.exit (-1))
  Prog.require jni.loadClassMethod (.exit (-1))
  Prog.require jni.classLoader (.exit (-1))
  Prog.require jni.dexLoaderObj (.exit (-1))
  Prog.require jni.entryClass (.exit (-1))
  Prog.require jni.invokeMethod (.exit (-1))
  match jni.objectarray with
  | some objectarray => pure objectarray
  | none => Prog.exit (.exit (-1))

/-- Outside the array there is no object: JNI is taken to answer null there and
to go on with its exception pending, as it does without its own checks. -/
def getObjectArrayElement (objectarray : List JObject) (i : ℕ) :
    Sys β JObject := do
  Prog.modify fun s => { s with accesses := s.accesses ++ [i] }
  pure (objectarray[i]?.getD .null)

/-- `GetStringUTFChars`, for which a reference to anything but a string is the
end of the process, at the latest where the characters are used. -/
def getStringUTFChars (name : JObject) : Sys β (List Byte) :=
  match name with
  | .string utf => pure utf
  | .null | .other _ => Prog.exit .crashed

variable [DecidableEq β]

/-- `changObj` on the binder that `getService` gave, which may be null. -/
def changObj (binder : Option β) (newobj : JObject) : Sys β PUnit :=
  match binder with
  | some b =>
      Prog.modify fun s => { s with object := Function.update s.object b newobj }
  | none => do
      Prog.modify fun s => { s with nullWritten := true }
      Prog.exit .crashed

variable (registry : List Byte → Option β)

/-- The loop from `i` on, which takes a round for every two elements. -/
def hookLoop (objectarray : List JObject) : ℕ → ℕ → Sys β PUnit
  | 0, _ => pure ⟨⟩
  | rounds + 1, i => do
      let name ← getObjectArrayElement objectarray i
      let obj ← getObjectArrayElement objectarray (i + 1)
      let cName ← getStringUTFChars name
      changObj (registry cName) obj
      hookLoop objectarray rounds (i + 2)

def elfHookRunningApp (jni : Jni) (left : ℤ) : Sys β ℤ := do
  let objectarray ← invoke jni
  hookLoop registry objectarray ((objectarray.length + 1) / 2) 0
  pure left

/-- The result, if the function returned one. -/
def result : Except Halt ℤ → Option ℤ
  | .ok ret | .error (.exit ret) => some ret
  | .error .crashed => none

end

end Elfupspeed.ElfTransaction
