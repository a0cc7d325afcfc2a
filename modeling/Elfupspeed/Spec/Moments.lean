import Elfupspeed.Src.Elfinject

/-!
# The moments at which an injection resumes its target

An injection makes its target run at six places, and much of what it has to
get right is to be judged when the target is resumed there. That moment can be
looked at from outside: if the answers to the call break off right there, the
injector is left waiting, and the target is as it was resumed. What the
injection does before the call is not changed by that, as the answers that
break off are asked for after it.
-/

namespace Elfupspeed.Elfinject

open Elfupspeed.Lib

/-- The places at which the target is resumed, in their order. -/
inductive Site
  | mmap | dlopenCydia | dlopenLibrary | dlsym | hookEntry | dlclose
  deriving DecidableEq

def Site.all : List Site :=
  [.mmap, .dlopenCydia, .dlopenLibrary, .dlsym, .hookEntry, .dlclose]

def Site.index : Site → ℕ
  | .mmap => 0
  | .dlopenCydia => 1
  | .dlopenLibrary => 2
  | .dlsym => 3
  | .hookEntry => 4
  | .dlclose => 5

section Moments

variable {R : Type}

def Env.call (env : Env R) : Site → CallEnv R
  | .mmap => env.mmap
  | .dlopenCydia => env.dlopenCydia
  | .dlopenLibrary => env.dlopenLibrary
  | .dlsym => env.dlsym
  | .hookEntry => env.hookEntry
  | .dlclose => env.dlclose

/-- A target that is not heard of any more once it was resumed. -/
def CallEnv.paused (call : CallEnv R) : CallEnv R := { call with waits := [] }

def Env.pausedAt (env : Env R) : Site → Env R
  | .mmap => { env with mmap := env.mmap.paused }
  | .dlopenCydia => { env with dlopenCydia := env.dlopenCydia.paused }
  | .dlopenLibrary => { env with dlopenLibrary := env.dlopenLibrary.paused }
  | .dlsym => { env with dlsym := env.dlsym.paused }
  | .hookEntry => { env with hookEntry := env.hookEntry.paused }
  | .dlclose => { env with dlclose := env.dlclose.paused }

/-- The target as it is resumed at a place, if the injection comes there: all
calls before it have run to their end. -/
def resumedAt (arch : Arch R) (env : Env R) (syms : Symbols)
    (libraryPath cydiaPath functionName param : List Byte) (t : Target R)
    (k : Site) : Option (Target R) :=
  match (injectRemoteProcess arch (env.pausedAt k) syms libraryPath cydiaPath
    functionName param).run t with
  | (.error .waiting, t') =>
      if t'.calls.length = t.calls.length + k.index then some t' else none
  | _ => none

end Moments

end Elfupspeed.Elfinject
