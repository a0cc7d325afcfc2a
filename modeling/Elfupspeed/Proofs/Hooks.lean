import Elfupspeed.Proofs.Forward

/-!
# How often the hooks are installed

`do_speed_hook` is called from two places. `SetTimeScale` asks `IsHooked`
first; `startServer`, which every `hook_entry` starts, does not. An
installation on top of another one takes the hook for the original: from then
on `old_gettimeofday` runs the hook, and a call of it never ends.

Where the second installation can come from is read off the order of the
calls: a `startServer` that anything else came before.
-/

namespace Elfupspeed.Speed

open Elfupspeed.Lib

/-! ## What a hooked function runs -/

/-- The body of the hook calls the entry its `old_` pointer denotes. The
original calls neither. -/
inductive Redirect.Calls (r : Redirect) : Entry → Entry → Prop
  | old {e : Entry} (h : r.old = some e) : Calls r .hook e

/-- A call of the hook comes back to the hook before it returns. -/
def Redirect.Reenters (r : Redirect) : Prop :=
  Relation.TransGen r.Calls .hook .hook

/-- The pointer, once set, denotes the original. -/
def Redirect.DenotesOriginal (r : Redirect) : Prop :=
  ∀ e, r.old = some e → e = .original

theorem not_reenters_of_denotesOriginal {r : Redirect}
    (h : r.DenotesOriginal) : ¬ r.Reenters := by
  have horiginal : ∀ e, Relation.TransGen r.Calls .hook e → e = .original := by
    intro e he
    induction he with
    | single hcall =>
        obtain ⟨hold⟩ := hcall
        exact h _ hold
    | tail _ hcall _ =>
        obtain ⟨hold⟩ := hcall
        exact h _ hold
  intro hr
  cases horiginal .hook hr

/-! ## The calls that may install -/

/-- The ways into the library that lead to `do_speed_hook`. -/
inductive Entrance where
  | hookEntry (created : Bool)
  | setTimeScale (result : ℚ)
  deriving DecidableEq

/-- The library as these calls see it; the answer is whether `do_speed_hook`
ran. -/
def library : Mealy Globals Entrance Bool where
  step g
    | .hookEntry created => (hookEntry g created, created)
    | .setTimeScale result => ((setTimeScale g result).1, g.isHooked)

def Entrance.startsServer : Entrance → Bool
  | .hookEntry created => created
  | .setTimeScale _ => false

/-- All but the calls whose thread did not come about. -/
def Entrance.acts : Entrance → Bool
  | .hookEntry created => created
  | .setTimeScale _ => true

/-- The hooks are where one installation leaves them. -/
structure Installed (g : Globals) : Prop where
  isHooked : g.isHooked = false
  gettimeofday : g.gettimeofday = ⟨.hook, some .original⟩
  clockGettime : g.clockGettime = ⟨.hook, some .original⟩

/-- The hooks are where the build left them. -/
structure Untouched (g : Globals) : Prop where
  isHooked : g.isHooked = true
  gettimeofday : g.gettimeofday = {}
  clockGettime : g.clockGettime = {}

theorem denotesOriginal_of_untouched {g : Globals} (h : Untouched g) :
    g.gettimeofday.DenotesOriginal ∧ g.clockGettime.DenotesOriginal := by
  rw [h.gettimeofday, h.clockGettime]
  constructor <;> intro e he <;> cases he

theorem denotesOriginal_of_installed {g : Globals} (h : Installed g) :
    g.gettimeofday.DenotesOriginal ∧ g.clockGettime.DenotesOriginal := by
  rw [h.gettimeofday, h.clockGettime]
  constructor <;> intro e he <;> injection he with he <;> exact he.symm

theorem installed_startServer {g : Globals} (h : Untouched g) :
    Installed (startServer g) := by
  constructor
  · rfl
  · simp [startServer, doSpeedHook, mSHookFunction, h.gettimeofday]
  · simp [startServer, doSpeedHook, mSHookFunction, h.clockGettime]

theorem installed_setTimeScale_of_untouched {g : Globals} (h : Untouched g)
    (result : ℚ) : Installed (setTimeScale g result).1 := by
  have hstart := installed_startServer h
  simp only [setTimeScale, h.isHooked, if_true]
  exact ⟨rfl, hstart.gettimeofday, hstart.clockGettime⟩

theorem installed_setTimeScale {g : Globals} (h : Installed g) (result : ℚ) :
    Installed (setTimeScale g result).1 := by
  simp only [setTimeScale, h.isHooked, Bool.false_eq_true, if_false]
  exact ⟨rfl, h.gettimeofday, h.clockGettime⟩

/-- The first call that acts installs the hooks, whichever it is. -/
theorem library_step_untouched {g : Globals} (h : Untouched g) (e : Entrance) :
    (library.step g e).2 = e.acts ∧
      if e.acts then Installed (library.step g e).1
      else (library.step g e).1 = g := by
  cases e with
  | setTimeScale result =>
      exact ⟨h.isHooked, installed_setTimeScale_of_untouched h result⟩
  | hookEntry created =>
      refine ⟨rfl, ?_⟩
      cases created with
      | true => exact installed_startServer h
      | false => rfl

/-- From then on a `startServer` installs them again, and nothing else does. -/
theorem library_step_installed {g : Globals} (h : Installed g) (e : Entrance) :
    (library.step g e).2 = e.startsServer ∧
      (e.startsServer = false → Installed (library.step g e).1) := by
  cases e with
  | setTimeScale result =>
      exact ⟨h.isHooked, fun _ => installed_setTimeScale h result⟩
  | hookEntry created =>
      refine ⟨rfl, fun hcreated => ?_⟩
      cases created with
      | true => cases hcreated
      | false => exact h

theorem startsServer_of_acts {e : Entrance}
    (h : e.acts = true → e.startsServer = false) : e.startsServer = false := by
  cases e with
  | setTimeScale result => rfl
  | hookEntry created =>
      cases created with
      | true => exact h rfl
      | false => rfl

/-- How often `do_speed_hook` runs. -/
def installations (g : Globals) (es : List Entrance) : ℕ :=
  (library.run g es).count true

theorem installations_cons (g : Globals) (e : Entrance) (es : List Entrance) :
    installations g (e :: es) =
      installations (library.step g e).1 es +
        if (library.step g e).2 then 1 else 0 := by
  rw [installations, Mealy.run_cons, List.count_cons, installations]
  simp

theorem installations_of_installed {g : Globals} (h : Installed g)
    (es : List Entrance) :
    (installations g es = 0 ↔ ∀ e ∈ es, e.startsServer = false) ∧
      (installations g es = 0 → Installed (library.after g es)) := by
  induction es generalizing g with
  | nil => exact ⟨by simp [installations], fun _ => h⟩
  | cons e es ih =>
      obtain ⟨hout, hstep⟩ := library_step_installed h e
      rw [installations_cons, hout, List.forall_mem_cons]
      cases he : e.startsServer with
      | true => simp
      | false =>
          obtain ⟨hiff, hafter⟩ := ih (hstep he)
          exact ⟨by simpa using hiff, by simpa using hafter⟩

theorem installations_of_untouched {g : Globals} (h : Untouched g)
    (es : List Entrance) :
    (installations g es ≤ 1 ↔
        ∀ e ∈ (es.filter Entrance.acts).tail, e.startsServer = false) ∧
      (installations g es ≤ 1 → Untouched (library.after g es) ∨
        Installed (library.after g es)) := by
  induction es generalizing g with
  | nil => exact ⟨by simp [installations], fun _ => .inl h⟩
  | cons e es ih =>
      obtain ⟨hout, hstep⟩ := library_step_untouched h e
      rw [installations_cons, hout, Mealy.after_cons]
      cases he : e.acts with
      | false =>
          rw [he, if_neg (by decide)] at hstep
          rw [List.filter_cons_of_neg (by simp [he]), hstep]
          simpa using ih h
      | true =>
          rw [he, if_pos rfl] at hstep
          obtain ⟨hiff, hafter⟩ := installations_of_installed hstep es
          have hone : installations (library.step g e).1 es + 1 ≤ 1 ↔
              installations (library.step g e).1 es = 0 := by omega
          rw [List.filter_cons_of_pos he, List.tail_cons, if_pos rfl, hone, hiff,
            List.forall_mem_filter]
          refine ⟨forall₂_congr fun e' _ => ?_, fun hes => .inr (hafter ?_)⟩
          · exact ⟨fun hs _ => hs, fun hs => startsServer_of_acts hs⟩
          · exact hiff.mpr hes

/-- Any order of calls installs the hooks at most once, with the `old_`
pointers on the originals and no call that comes back to its hook, if and only
if no `startServer` runs after another one or after a `SetTimeScale`. -/
theorem hooked_once_iff (es : List Entrance) :
    (installations {} es ≤ 1 ∧
      ∀ r ∈ [(library.after {} es).gettimeofday, (library.after {} es).clockGettime],
        r.DenotesOriginal ∧ ¬ r.Reenters) ↔
      ∀ e ∈ (es.filter Entrance.acts).tail, e.startsServer = false := by
  obtain ⟨hiff, hafter⟩ := installations_of_untouched (g := {}) ⟨rfl, rfl, rfl⟩ es
  rw [← hiff]
  refine ⟨And.left, fun hle => ⟨hle, ?_⟩⟩
  have hdenotes : (library.after {} es).gettimeofday.DenotesOriginal ∧
      (library.after {} es).clockGettime.DenotesOriginal := by
    rcases hafter hle with h | h
    · exact denotesOriginal_of_untouched h
    · exact denotesOriginal_of_installed h
  rw [List.forall_mem_cons, List.forall_mem_singleton]
  exact ⟨⟨hdenotes.1, not_reenters_of_denotesOriginal hdenotes.1⟩,
    hdenotes.2, not_reenters_of_denotesOriginal hdenotes.2⟩

/-- The library injected a second time: the pointer then denotes the hook. -/
theorem hook_hooked :
    ¬ ∀ es : List Entrance, installations {} es ≤ 1 ∧
      ∀ r ∈ [(library.after {} es).gettimeofday, (library.after {} es).clockGettime],
        r.DenotesOriginal ∧ ¬ r.Reenters := by
  intro h
  have htwice := (h [.hookEntry true, .hookEntry true]).2 _ List.mem_cons_self
  have hold := htwice.1 .hook rfl
  cases hold

end Elfupspeed.Speed
