import Mathlib.Algebra.Order.Floor.Ring
import Mathlib.Algebra.Order.Round
import Mathlib.Data.Int.Log
import Mathlib.Data.Rat.Floor
import Mathlib.Tactic.FieldSimp
import Mathlib.Tactic.GCongr
import Mathlib.Tactic.Linarith
import Mathlib.Tactic.Positivity
import Mathlib.Tactic.Push

/-!
# Rounding to an integer and to a number of significant bits

Two roundings to the integers, towards zero and to the nearest with ties to
the even one, and from the second the rounding a binary floating-point format
of `p` significant bits performs, with the exponent left unbounded.

The format is never a type here. A value is one of its values when rounding
leaves it alone, `sig_eq_self_iff` says which ones those are, and for an
integer the answer is a divisibility: `n` has at most `p` significant bits
exactly when the power of two its lowest `log n + 1 - p` bits make up divides
it.
-/

namespace Elfupspeed.Lib.Round

variable {K : Type*} [Field K] [LinearOrder K] [FloorRing K]

/-! ## To the integers -/

def trunc (x : K) : ℤ := if 0 ≤ x then ⌊x⌋ else ⌈x⌉

/-- To the nearest integer, a tie going to the even one. -/
def halfEven (x : K) : ℤ :=
  let k := ⌊x⌋
  if x - k < 1 / 2 then k else if 1 / 2 < x - k then k + 1 else k + k % 2

theorem trunc_of_nonneg {x : K} (hx : 0 ≤ x) : trunc x = ⌊x⌋ := if_pos hx

theorem floor_le_halfEven (x : K) : ⌊x⌋ ≤ halfEven x := by
  unfold halfEven
  dsimp only
  split_ifs <;> omega

theorem halfEven_le_floor_add_one (x : K) : halfEven x ≤ ⌊x⌋ + 1 := by
  unfold halfEven
  dsimp only
  split_ifs <;> omega

theorem trunc_nonneg {x : K} (hx : 0 ≤ x) : 0 ≤ trunc x := by
  rw [trunc_of_nonneg hx]
  exact Int.floor_nonneg.mpr hx

theorem le_halfEven {x : K} {k : ℤ} (h : (k : K) ≤ x) : k ≤ halfEven x :=
  (Int.le_floor.mpr h).trans (floor_le_halfEven x)

variable [IsStrictOrderedRing K]

@[simp] theorem trunc_intCast (k : ℤ) : trunc (k : K) = k := by
  simp [trunc]

theorem abs_trunc_sub_lt (x : K) : |(trunc x : K) - x| < 1 := by
  unfold trunc
  rw [abs_lt]
  split
  · have h₁ := Int.floor_le x
    have h₂ := Int.lt_floor_add_one x
    exact ⟨by linarith, by linarith⟩
  · have h₁ := Int.le_ceil x
    have h₂ := Int.ceil_lt_add_one x
    exact ⟨by linarith, by linarith⟩

theorem trunc_mono {x y : K} (h : x ≤ y) : trunc x ≤ trunc y := by
  unfold trunc
  split <;> split
  · exact Int.floor_le_floor h
  · linarith
  · rename_i hx hy
    exact (Int.ceil_le.mpr (by push_cast; linarith)).trans (Int.floor_nonneg.mpr hy)
  · exact Int.ceil_le_ceil h

@[simp] theorem halfEven_intCast (k : ℤ) : halfEven (k : K) = k := by
  simp [halfEven]

theorem abs_halfEven_sub_le (x : K) : |(halfEven x : K) - x| ≤ 1 / 2 := by
  have hlo := Int.floor_le x
  have hhi := Int.lt_floor_add_one x
  rw [abs_le]
  unfold halfEven
  dsimp only
  split_ifs with h₁ h₂
  · constructor <;> linarith
  · push_cast
    constructor <;> linarith
  · have hhalf : x - ⌊x⌋ = 1 / 2 := le_antisymm (not_lt.mp h₂) (not_lt.mp h₁)
    rcases Int.emod_two_eq_zero_or_one ⌊x⌋ with hpar | hpar <;>
      rw [hpar] <;> push_cast <;> constructor <;> linarith

theorem halfEven_le {x : K} {k : ℤ} (h : x ≤ k) : halfEven x ≤ k := by
  rcases eq_or_lt_of_le h with rfl | hlt
  · rw [halfEven_intCast]
  · have := halfEven_le_floor_add_one x
    have := Int.floor_lt.mpr hlt
    omega

theorem halfEven_mono {x y : K} (h : x ≤ y) : halfEven x ≤ halfEven y := by
  rcases (Int.floor_le_floor h).lt_or_eq with hlt | heq
  · have := halfEven_le_floor_add_one x
    have := floor_le_halfEven y
    omega
  · unfold halfEven
    dsimp only
    rw [heq]
    have hmod := Int.emod_two_eq_zero_or_one ⌊y⌋
    split_ifs <;> first | omega | (exfalso; linarith)

theorem halfEven_eq_self_iff {x : K} :
    (halfEven x : K) = x ↔ ∃ k : ℤ, x = k := by
  constructor
  · intro h
    exact ⟨halfEven x, h.symm⟩
  · rintro ⟨k, rfl⟩
    rw [halfEven_intCast]

/-! ## To a number of significant bits -/

/-- The exponent of the last of the `p` significant bits of `x`. -/
def ulpExp (p : ℕ) (x : K) : ℤ := Int.log 2 |x| + 1 - p

/-- `x` to `p` significant bits, ties to even. -/
def sig (p : ℕ) (x : K) : K :=
  halfEven (x / 2 ^ ulpExp p x) * 2 ^ ulpExp p x

theorem two_zpow_pos (e : ℤ) : (0 : K) < 2 ^ e :=
  zpow_pos two_pos e

@[simp] theorem sig_zero (p : ℕ) : sig p (0 : K) = 0 := by
  have h : halfEven (0 : K) = 0 := by simpa using halfEven_intCast (K := K) 0
  simp [sig, h]

theorem sig_eq_self_iff {p : ℕ} {x : K} :
    sig p x = x ↔ ∃ m : ℤ, x = m * 2 ^ ulpExp p x := by
  have hu := (two_zpow_pos (K := K) (ulpExp p x)).ne'
  have hdiv : sig p x = x ↔
      (halfEven (x / 2 ^ ulpExp p x) : K) = x / 2 ^ ulpExp p x := by
    rw [sig, eq_div_iff hu]
  rw [hdiv, halfEven_eq_self_iff]
  exact exists_congr fun m => div_eq_iff hu

/-- Rounding moves a value by at most half a unit in its last place. -/
theorem abs_sig_sub_le (p : ℕ) (x : K) :
    |sig p x - x| ≤ 1 / 2 * 2 ^ ulpExp p x := by
  have hu := two_zpow_pos (K := K) (ulpExp p x)
  have hsub : sig p x - x
      = ((halfEven (x / 2 ^ ulpExp p x) : K) - x / 2 ^ ulpExp p x)
        * 2 ^ ulpExp p x := by
    rw [sig, sub_mul, div_mul_cancel₀ _ hu.ne']
  rw [hsub, abs_mul, abs_of_pos hu]
  exact mul_le_mul_of_nonneg_right (abs_halfEven_sub_le _) hu.le

theorem sig_nonneg {p : ℕ} {x : K} (hx : 0 ≤ x) : 0 ≤ sig p x := by
  have hu := two_zpow_pos (K := K) (ulpExp p x)
  have hm : (0 : ℤ) ≤ halfEven (x / 2 ^ ulpExp p x) :=
    le_halfEven (by push_cast; exact div_nonneg hx hu.le)
  exact mul_nonneg (by exact_mod_cast hm) hu.le

theorem two_zpow_log_le {x : K} (hx : x ≠ 0) :
    (2 : K) ^ Int.log 2 |x| ≤ |x| := by
  simpa using Int.zpow_log_le_self (b := 2) one_lt_two (abs_pos.mpr hx)

theorem lt_two_zpow_log (x : K) : |x| < (2 : K) ^ (Int.log 2 |x| + 1) := by
  simpa using Int.lt_zpow_succ_log_self (b := 2) one_lt_two |x|

theorem abs_sig_sub_le_div (p : ℕ) (x : K) : |sig p x - x| ≤ |x| / 2 ^ p := by
  rcases eq_or_ne x 0 with rfl | hx
  · simp
  calc |sig p x - x| ≤ 1 / 2 * 2 ^ ulpExp p x := abs_sig_sub_le p x
    _ = 2 ^ Int.log 2 |x| / 2 ^ p := by
        rw [ulpExp, zpow_sub₀ two_ne_zero, zpow_add_one₀ two_ne_zero,
          zpow_natCast]
        ring
    _ ≤ |x| / 2 ^ p := by gcongr; exact two_zpow_log_le hx

theorem sig_pos {p : ℕ} (hp : 1 ≤ p) {x : K} (hx : 0 < x) : 0 < sig p x := by
  have herr := (abs_le.mp (abs_sig_sub_le_div p x)).1
  have hhalf : |x| / 2 ^ p ≤ x / 2 := by
    rw [abs_of_pos hx]
    gcongr
    exact le_self_pow₀ one_le_two (by omega)
  linarith

theorem abs_mul_two_zpow (m k : ℤ) :
    |(m : K) * 2 ^ k| = (|m| : ℤ) * 2 ^ k := by
  rw [abs_mul, abs_of_pos (two_zpow_pos (K := K) k), Int.cast_abs]

theorem log_le_of_abs_le {p : ℕ} {m k : ℤ} (hm : |m| ≤ 2 ^ p)
    (hx : (m : K) * 2 ^ k ≠ 0) : Int.log 2 |(m : K) * 2 ^ k| ≤ p + k := by
  have hle : |(m : K) * 2 ^ k| ≤ 2 ^ ((p : ℤ) + k) := by
    rw [abs_mul_two_zpow, zpow_add₀ two_ne_zero, zpow_natCast]
    exact mul_le_mul_of_nonneg_right (by exact_mod_cast hm) (two_zpow_pos k).le
  exact (zpow_le_zpow_iff_right₀ one_lt_two).mp ((two_zpow_log_le hx).trans hle)

/-- Shifting a mantissa down to a lower last place. -/
theorem exists_mul_two_zpow {k e : ℤ} (h : e ≤ k) (m : ℤ) :
    ∃ m' : ℤ, (m : K) * 2 ^ k = m' * 2 ^ e := by
  obtain ⟨d, hd⟩ := Int.eq_ofNat_of_zero_le (sub_nonneg.mpr h)
  refine ⟨m * 2 ^ d, ?_⟩
  rw [show k = (d : ℤ) + e by omega, zpow_add₀ (two_pos (α := K)).ne', zpow_natCast]
  push_cast
  ring

/-- A value of at most `p` bits, and the power of two just past them, is
left alone: the form in which a rounding's own result is recognised. -/
theorem sig_eq_self_of_le {p : ℕ} (hp : 1 ≤ p) {m k : ℤ} (hm : |m| ≤ 2 ^ p) :
    sig p ((m : K) * 2 ^ k) = (m : K) * 2 ^ k := by
  rw [sig_eq_self_iff]
  rcases eq_or_ne ((m : K) * 2 ^ k) 0 with hx | hx
  · exact ⟨0, by simp [hx]⟩
  rcases (log_le_of_abs_le hm hx).lt_or_eq with hlt | heq
  · exact exists_mul_two_zpow (by rw [ulpExp]; omega) m
  · -- The value is the power of two just past the `p` bits, up to its sign.
    have hfull : |m| = 2 ^ p := by
      have h := two_zpow_log_le hx
      rw [heq, abs_mul_two_zpow, zpow_add₀ two_ne_zero, zpow_natCast] at h
      have h' := le_of_mul_le_mul_right h (two_zpow_pos k)
      exact le_antisymm hm (by exact_mod_cast h')
    have hulp : ulpExp p ((m : K) * 2 ^ k) = k + 1 := by rw [ulpExp, heq]; ring
    obtain ⟨q, rfl⟩ : ∃ q, p = q + 1 := ⟨p - 1, by omega⟩
    rw [hulp]
    rcases abs_choice m with hs | hs <;> rw [hs] at hfull
    · refine ⟨2 ^ q, ?_⟩
      rw [hfull, zpow_add_one₀ two_ne_zero]
      push_cast
      ring
    · refine ⟨-2 ^ q, ?_⟩
      rw [show m = -2 ^ (q + 1) by omega, zpow_add_one₀ two_ne_zero]
      push_cast
      ring

/-- The mantissa a rounding picks has `p` bits, or is the next power of two. -/
theorem abs_mantissa_le (p : ℕ) (x : K) :
    |halfEven (x / 2 ^ ulpExp p x)| ≤ 2 ^ p := by
  have hu := two_zpow_pos (K := K) (ulpExp p x)
  have hlt : |x / 2 ^ ulpExp p x| < 2 ^ p := by
    rw [abs_div, abs_of_pos hu, div_lt_iff₀ hu, ← zpow_natCast,
      ← zpow_add₀ two_ne_zero, ulpExp]
    rw [show (p : ℤ) + (Int.log 2 |x| + 1 - p) = Int.log 2 |x| + 1 by ring]
    exact lt_two_zpow_log x
  rw [abs_lt] at hlt
  rw [abs_le]
  constructor
  · exact le_halfEven (by push_cast; exact hlt.1.le)
  · exact halfEven_le (by push_cast; exact hlt.2.le)

/-- Rounding stays below the next power of two. -/
theorem sig_le_two_zpow (p : ℕ) (x : K) :
    sig p x ≤ 2 ^ (Int.log 2 |x| + 1) := by
  have hm : (halfEven (x / 2 ^ ulpExp p x) : K) ≤ 2 ^ p := by
    exact_mod_cast (abs_le.mp (abs_mantissa_le p x)).2
  calc sig p x ≤ 2 ^ p * 2 ^ ulpExp p x :=
        mul_le_mul_of_nonneg_right hm (two_zpow_pos _).le
    _ = 2 ^ (Int.log 2 |x| + 1) := by
        rw [ulpExp, ← zpow_natCast, ← zpow_add₀ two_ne_zero]
        congr 1
        ring

/-- Rounding keeps the leading bit. -/
theorem two_zpow_log_le_sig {p : ℕ} (hp : 1 ≤ p) {x : K} (hx : 0 < x) :
    2 ^ Int.log 2 |x| ≤ sig p x := by
  have hu := two_zpow_pos (K := K) (ulpExp p x)
  have hsplit : (2 : K) ^ Int.log 2 |x| = (2 ^ (p - 1) : ℤ) * 2 ^ ulpExp p x := by
    push_cast
    rw [ulpExp, ← zpow_natCast, ← zpow_add₀ two_ne_zero]
    congr 1
    omega
  have hlead : ((2 ^ (p - 1) : ℤ) : K) ≤ x / 2 ^ ulpExp p x := by
    rw [le_div_iff₀ hu, ← hsplit]
    exact (two_zpow_log_le hx.ne').trans_eq (abs_of_pos hx)
  rw [hsplit, sig]
  exact mul_le_mul_of_nonneg_right (by exact_mod_cast le_halfEven hlead) hu.le

theorem sig_mono {p : ℕ} (hp : 1 ≤ p) {x y : K} (hx : 0 < x) (h : x ≤ y) :
    sig p x ≤ sig p y := by
  have hlog : Int.log 2 |x| ≤ Int.log 2 |y| := by
    rw [abs_of_pos hx, abs_of_pos (hx.trans_le h)]
    exact Int.log_mono_right hx h
  rcases hlog.lt_or_eq with hlt | heq
  · calc sig p x ≤ 2 ^ (Int.log 2 |x| + 1) := sig_le_two_zpow p x
      _ ≤ 2 ^ Int.log 2 |y| := zpow_le_zpow_right₀ one_le_two hlt
      _ ≤ sig p y := two_zpow_log_le_sig hp (hx.trans_le h)
  · have hulp : ulpExp p x = ulpExp p y := by rw [ulpExp, ulpExp, heq]
    have hu := two_zpow_pos (K := K) (ulpExp p y)
    rw [sig, sig, hulp]
    exact mul_le_mul_of_nonneg_right
      (by exact_mod_cast halfEven_mono (div_le_div_of_nonneg_right h hu.le)) hu.le

@[simp] theorem sig_sig {p : ℕ} (hp : 1 ≤ p) (x : K) :
    sig p (sig p x) = sig p x :=
  sig_eq_self_of_le hp (abs_mantissa_le p x)

/-! ## Of an integer -/

/-- The last place of an integer is a fraction, or a natural power of two. -/
theorem sig_natCast_eq_self_iff {p n : ℕ} :
    sig p (n : K) = n ↔ 2 ^ (Nat.log 2 n + 1 - p) ∣ n := by
  have hexp : ulpExp p (n : K) = (Nat.log 2 n : ℤ) + 1 - p := by
    rw [ulpExp, abs_of_nonneg (Nat.cast_nonneg n), Int.log_natCast]
  rw [sig_eq_self_iff, hexp]
  rcases Nat.le_total p (Nat.log 2 n + 1) with hle | hle
  · rw [show (Nat.log 2 n : ℤ) + 1 - p = ((Nat.log 2 n + 1 - p : ℕ) : ℤ) by omega,
      zpow_natCast]
    constructor
    · rintro ⟨m, hm⟩
      have hz : (n : ℤ) = m * 2 ^ (Nat.log 2 n + 1 - p) := by exact_mod_cast hm
      exact_mod_cast Dvd.intro_left m hz.symm
    · rintro ⟨m, hm⟩
      refine ⟨m, ?_⟩
      have hK : (n : K) = 2 ^ (Nat.log 2 n + 1 - p) * m := by exact_mod_cast hm
      rw [hK, Int.cast_natCast, mul_comm]
  · rw [Nat.sub_eq_zero_of_le hle]
    refine iff_of_true ⟨n * 2 ^ (p - (Nat.log 2 n + 1)), ?_⟩ (by simp)
    rw [show (Nat.log 2 n : ℤ) + 1 - p = -((p - (Nat.log 2 n + 1) : ℕ) : ℤ) by omega,
      zpow_neg, zpow_natCast]
    push_cast
    field_simp

theorem sig_intCast_eq_intCast (p : ℕ) (n : ℤ) :
    ∃ k : ℤ, sig p (n : K) = k := by
  rcases le_or_gt 0 (ulpExp p (n : K)) with he | he
  · obtain ⟨d, hd⟩ := Int.eq_ofNat_of_zero_le he
    refine ⟨halfEven ((n : K) / 2 ^ ulpExp p (n : K)) * 2 ^ d, ?_⟩
    rw [sig, hd, zpow_natCast]
    push_cast
    rfl
  · obtain ⟨d, hd⟩ := Int.eq_ofNat_of_zero_le (show 0 ≤ -ulpExp p (n : K) by omega)
    refine ⟨n, sig_eq_self_iff.mpr ⟨n * 2 ^ d, ?_⟩⟩
    rw [show ulpExp p (n : K) = -(d : ℤ) by omega, zpow_neg, zpow_natCast]
    push_cast
    field_simp

end Elfupspeed.Lib.Round
