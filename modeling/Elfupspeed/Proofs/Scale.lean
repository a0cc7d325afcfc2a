import Elfupspeed.Proofs.Forward

/-!
# The scale a request leaves

`SetTimeScale` knows two kinds of request. From 0 on the scale is one more
than the request, and below it there is a table over the truncated request
with six entries. Any other request, between the entries, beyond them or
between -1 and 0, is passed over and leaves the scale to the request before.

So the scale is a function of the last request the code knows, and a monotone
one: the table is, the rounding of the sum is, and all of the table is below
the sum at 0.
-/

namespace Elfupspeed.Speed

open Elfupspeed.Lib

/-- A request that has a scale of its own. -/
def Known (result : ℚ) : Prop :=
  0 ≤ result ∨ Round.trunc result ∈ ([-1, -2, -3, -4, -5, -10] : List ℤ)

instance : DecidablePred Known := fun _ => inferInstanceAs (Decidable (_ ∨ _))

/-- The scale after a run of calls. -/
def scaleAfter (A : Arith) (es : List Call) : ℚ :=
  ((machine A).after {} es).gTimes

theorem scaleAfter_request (A : Arith) (es : List Call) (result : ℚ) :
    scaleAfter A (es ++ [.setTimeScale result]) =
      timesAfter (scaleAfter A es) result := by
  rw [scaleAfter, Mealy.after_append]
  exact gTimes_setTimeScale _ result

theorem scaleAfter_pos (A : Arith) (es : List Call) : 0 < scaleAfter A es :=
  (machine A).after_inv (I := fun g => 0 < g.gTimes) (by decide) es
    fun x _ h => gTimes_pos_step A x.1 x.2.1 h

/-! ## One request -/

theorem timesAfter_of_known {result : ℚ} (h : Known result) (gTimes gTimes' : ℚ) :
    timesAfter gTimes result = timesAfter gTimes' result := by
  unfold timesAfter
  split
  · rfl
  · rename_i hneg
    have htable := h.resolve_left hneg
    simp only [List.mem_cons, List.not_mem_nil, or_false] at htable
    rcases htable with h | h | h | h | h | h <;> rw [h] <;> rfl

theorem timesAfter_of_not_known {result : ℚ} (h : ¬ Known result) (gTimes : ℚ) :
    timesAfter gTimes result = gTimes := by
  obtain ⟨hneg, htable⟩ := not_or.mp h
  rw [timesAfter, if_neg hneg]
  unfold switchTimes
  split
  all_goals first
    | rfl
    | rename_i htrunc
      simp [htrunc] at htable

/-! ## Two requests -/

/-- The table goes up with the request, and stays below the scale of a request
of 0. -/
theorem switchTimes_mono : ∀ a ∈ ([-1, -2, -3, -4, -5, -10] : List ℤ),
    switchTimes 1 a ≤ 1 ∧ ∀ b ∈ ([-1, -2, -3, -4, -5, -10] : List ℤ), a ≤ b →
      switchTimes 1 a ≤ switchTimes 1 b := by
  decide +kernel

theorem f32_one : f32 1 = 1 := by decide +kernel

theorem one_le_f32 {x : ℚ} (h : 1 ≤ x) : 1 ≤ f32 x := by
  calc (1 : ℚ) = f32 1 := f32_one.symm
    _ ≤ f32 x := Round.sig_mono (by omega) one_pos h

theorem timesAfter_mono {x y : ℚ} (hx : Known x) (hy : Known y) (h : x ≤ y) :
    timesAfter 1 x ≤ timesAfter 1 y := by
  unfold timesAfter
  split <;> split
  · rename_i hx₀ hy₀
    exact Round.sig_mono (by omega) (by linarith) (by linarith)
  · linarith
  · rename_i hx₀ hy₀
    exact (switchTimes_mono _ (hx.resolve_left hx₀)).1.trans
      (one_le_f32 (by linarith))
  · rename_i hx₀ hy₀
    exact (switchTimes_mono _ (hx.resolve_left hx₀)).2 _
      (hy.resolve_left hy₀) (Round.trunc_mono h)

/-! ## Any history -/

/-- A request the code knows leaves a scale that does not depend on what came
before, that is positive, that goes up with the request and is no more than 1
for a negative one; a request it does not know leaves the scale alone. -/
theorem scale_of_last_request (A : Arith) (es fs : List Call) (x y : ℚ) :
    let after := fun es x => scaleAfter A (es ++ [.setTimeScale x])
    0 < after es x ∧
    (Known x → after es x = after fs x) ∧
    (¬ Known x → after es x = scaleAfter A es) ∧
    (Known x → Known y → x ≤ y → after es x ≤ after fs y) ∧
    (Known x → x < 0 → after es x ≤ 1) := by
  simp only [scaleAfter_request]
  refine ⟨timesAfter_pos (scaleAfter_pos A es) x, fun h => ?_, fun h => ?_,
    fun hx hy h => ?_, fun hx h => ?_⟩
  · exact timesAfter_of_known h _ _
  · exact timesAfter_of_not_known h _
  · rw [timesAfter_of_known hx _ 1, timesAfter_of_known hy _ 1]
    exact timesAfter_mono hx hy h
  · have hzero : timesAfter 1 0 = 1 := by decide +kernel
    rw [timesAfter_of_known hx _ 1]
    exact (timesAfter_mono hx (.inl (le_refl 0)) h.le).trans_eq hzero

/-- Two entries of the table, after different histories. -/
theorem slower_request_slower :
    scaleAfter .machine ([.setTimeScale 3] ++ [.setTimeScale (-9 / 2)]) ≤
      scaleAfter .machine ([] ++ [.setTimeScale (-2)]) :=
  (scale_of_last_request .machine [.setTimeScale 3] [] (-9 / 2) (-2)).2.2.2.1
    (by decide +kernel) (by decide +kernel) (by norm_num)

/-- A request between -1 and 0 keeps the scale of 4 that it finds. -/
theorem small_request_passed_over :
    ¬ ∀ (es fs : List Call) (x y : ℚ),
      let after := fun es x => scaleAfter .machine (es ++ [.setTimeScale x])
      after es x = after fs x ∧ 0 < after es x ∧
        (x ≤ y → after es x ≤ after fs y) := by
  intro h
  have hpast := (h [.setTimeScale 3] [] (-1 / 2) 0).1
  revert hpast
  decide +kernel

end Elfupspeed.Speed
