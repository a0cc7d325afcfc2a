import Mathlib.Data.List.Nodup
import Mathlib.Logic.Function.Basic

/-!
# Edge-triggered readiness

An epoll instance keeps the descriptors it watches and those it has something
to report on. In edge-triggered mode an arrival puts the descriptor on the
list, once, and a report takes it off, whether or not the work is done then. So
the list says nothing by itself: a program that has fetched a descriptor is
the only one that still knows of the work. What is worth keeping is that
pending work is known to one of the two, and the rules below say what each
operation has to do with it.
-/

namespace Elfupspeed.Lib

structure Epoll (δ : Type*) where
  registered : δ → Bool
  ready : List δ := []

namespace Epoll

variable {δ : Type*}

/-! ## Who knows of the work -/

/-- What is pending is to be reported, or in the part of the batch that is
still to be handled. -/
def Covers (ep : Epoll δ) (batch : List δ) (pending : δ → Prop) : Prop :=
  ∀ d, pending d → d ∈ ep.ready ∨ d ∈ batch

section Covers

variable {ep : Epoll δ} {batch : List δ} {pending pending' : δ → Prop}

theorem Covers.anti (h : ep.Covers batch pending)
    (himp : ∀ d, pending' d → pending d) : ep.Covers batch pending' :=
  fun d hd => h d (himp d hd)

/-- A descriptor may be forgotten when nothing is left on it, or something new
has come. -/
theorem Covers.tail {d : δ} (h : ep.Covers (d :: batch) pending)
    (hd : pending d → d ∈ ep.ready) : ep.Covers batch pending := by
  intro x hx
  rcases h x hx with hready | hmem
  · exact .inl hready
  · rcases List.mem_cons.mp hmem with rfl | hmem
    · exact .inl (hd hx)
    · exact .inr hmem

/-- A program that waits, with nothing to be reported on which there is
something, has done all its work. -/
theorem Covers.done (h : ep.Covers [] pending)
    (hidle : ∀ d ∈ ep.ready, ¬ pending d) (d : δ) : ¬ pending d := by
  intro hd
  exact hidle d ((h d hd).resolve_right List.not_mem_nil) hd

end Covers

/-! ## The operations -/

variable [DecidableEq δ] (ep : Epoll δ)

/-- Something arrived on `d`. -/
def signal (d : δ) : Epoll δ :=
  if ep.registered d = true ∧ d ∉ ep.ready then
    { ep with ready := ep.ready ++ [d] }
  else ep

/-- `EPOLL_CTL_ADD` -/
def add (d : δ) (pending : Bool) : Epoll δ :=
  let ep := { ep with registered := Function.update ep.registered d true }
  if pending then ep.signal d else ep

/-- The last descriptor of the open file is closed. -/
def drop (d : δ) : Epoll δ where
  registered := Function.update ep.registered d false
  ready := ep.ready.filter (· ≠ d)

/-- What an `epoll_wait` may come back with. What it reports may have been
read in the meantime, and it may keep some back. -/
def Reports (batch : List δ) : Prop :=
  batch ≠ [] ∧ batch.Nodup ∧ ∀ d ∈ batch, d ∈ ep.ready

instance (batch : List δ) : Decidable (ep.Reports batch) :=
  inferInstanceAs (Decidable (_ ∧ _ ∧ _))

def fetch (batch : List δ) : Epoll δ :=
  { ep with ready := ep.ready.filter (· ∉ batch) }

@[simp] theorem signal_registered (d : δ) :
    (ep.signal d).registered = ep.registered := by
  unfold signal
  split <;> rfl

@[simp] theorem add_registered (d : δ) (pending : Bool) :
    (ep.add d pending).registered = Function.update ep.registered d true := by
  unfold add
  split
  · exact signal_registered _ d
  · rfl

@[simp] theorem drop_registered (d : δ) :
    (ep.drop d).registered = Function.update ep.registered d false := rfl

@[simp] theorem fetch_registered (batch : List δ) :
    (ep.fetch batch).registered = ep.registered := rfl

@[simp] theorem mem_signal {d x : δ} :
    x ∈ (ep.signal d).ready ↔
      x ∈ ep.ready ∨ x = d ∧ ep.registered d = true := by
  unfold signal
  split
  · next h => simp [h.1]
  · next h =>
      constructor
      · exact Or.inl
      · rintro (hx | ⟨rfl, hreg⟩)
        · exact hx
        · by_contra hnot
          exact h ⟨hreg, hnot⟩

@[simp] theorem mem_add {d x : δ} {pending : Bool} :
    x ∈ (ep.add d pending).ready ↔
      x ∈ ep.ready ∨ x = d ∧ pending = true := by
  unfold add
  split
  · next h => simp [h]
  · next h => simp [h]

@[simp] theorem mem_drop {d x : δ} :
    x ∈ (ep.drop d).ready ↔ x ∈ ep.ready ∧ x ≠ d := by
  simp [drop]

@[simp] theorem mem_fetch {batch : List δ} {x : δ} :
    x ∈ (ep.fetch batch).ready ↔ x ∈ ep.ready ∧ x ∉ batch := by
  simp [fetch]

section Covers

variable {ep} {batch : List δ} {pending pending' : δ → Prop}

/-- New work on a registered descriptor. -/
theorem Covers.signal {d : δ} (h : ep.Covers batch pending)
    (hnew : ∀ x, pending' x → pending x ∨ x = d ∧ ep.registered d = true) :
    (ep.signal d).Covers batch pending' := by
  intro x hx
  rcases hnew x hx with hx | hx
  · exact (h x hx).imp_left fun hx => ep.mem_signal.mpr (.inl hx)
  · exact .inl (ep.mem_signal.mpr (.inr hx))

theorem Covers.add {d : δ} {there : Bool} (h : ep.Covers batch pending)
    (hnew : ∀ x, pending' x → pending x ∨ x = d ∧ there = true) :
    (ep.add d there).Covers batch pending' := by
  intro x hx
  rcases hnew x hx with hx | hx
  · exact (h x hx).imp_left fun hx => ep.mem_add.mpr (.inl hx)
  · exact .inl (ep.mem_add.mpr (.inr hx))

theorem Covers.drop {d : δ} (h : ep.Covers batch pending)
    (hrest : ∀ x, pending' x → pending x ∧ x ≠ d) :
    (ep.drop d).Covers batch pending' := by
  intro x hx
  obtain ⟨hx, hne⟩ := hrest x hx
  exact (h x hx).imp_left fun hx => ep.mem_drop.mpr ⟨hx, hne⟩

theorem Covers.fetch (h : ep.Covers [] pending) :
    (ep.fetch batch).Covers batch pending := by
  intro x hx
  by_cases hbatch : x ∈ batch
  · exact .inr hbatch
  · have hready := (h x hx).resolve_right List.not_mem_nil
    exact .inl (ep.mem_fetch.mpr ⟨hready, hbatch⟩)

end Covers

end Epoll

end Elfupspeed.Lib
