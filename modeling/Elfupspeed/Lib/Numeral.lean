import Elfupspeed.Lib.CString
import Mathlib.Data.Nat.Digits.Lemmas

/-!
# Numerals in a base

What `strtol` reads in a base up to 16, without the sign: digits that are
below the base, of either case. A numeral is written without leading zeros,
so that it is longer than the numerals of smaller numbers.
-/

namespace Elfupspeed.Lib.CString

variable {base n : ℕ} {ds : List ℕ} {xs ys : List Byte}

/-- The value of a digit; 16 is no digit's. -/
def digitVal (b : Byte) : ℕ := (hexDigit b).getD 16

/-- `"0123456789abcdef"[d]` -/
def digitChar (d : ℕ) : Byte := ((ofString "0123456789abcdef")[d]?).getD 0

def valueOf (base : ℕ) (xs : List Byte) : ℕ :=
  Nat.ofDigits base (xs.reverse.map digitVal)

structure IsNumeral (base : ℕ) (xs : List Byte) : Prop where
  ne_nil : xs ≠ []
  digits : ∀ b ∈ xs, digitVal b < base
  leading : xs.head? = some (byte '0') → xs = [byte '0']

/-- An optional sign and a numeral, for a number in a base. -/
def Spells (base : ℕ) (n : ℤ) (text : List Byte) : Prop :=
  ∃ body, IsNumeral base body ∧
    (text = body ∧ n = valueOf base body ∨
      text = byte '-' :: body ∧ n = -valueOf base body)

/-! ## Digits -/

theorem digitVal_digitChar {d : ℕ} (hd : d < 16) :
    digitVal (digitChar d) = d := by
  interval_cases d <;> decide

theorem digitChar_ne_zero {d : ℕ} (hd : d < 16) : digitChar d ≠ 0 := by
  interval_cases d <;> decide

theorem digitChar_eq_zero_iff {d : ℕ} (hd : d < 16) :
    digitChar d = byte '0' ↔ d = 0 := by
  interval_cases d <;> decide

theorem map_digitVal (h : ∀ d ∈ ds, d < 16) :
    (ds.map digitChar).map digitVal = ds := by
  have hid : ∀ d ∈ ds, (digitVal ∘ digitChar) d = id d :=
    fun d hd => digitVal_digitChar (h d hd)
  rw [List.map_map, List.map_congr_left hid, List.map_id]

/-! ## Values -/

theorem valueOf_append (base : ℕ) (xs ys : List Byte) :
    valueOf base (xs ++ ys) =
      valueOf base ys + base ^ ys.length * valueOf base xs := by
  rw [valueOf, List.reverse_append, List.map_append, Nat.ofDigits_append,
    List.length_map, List.length_reverse]
  rfl

theorem valueOf_reverse_map (h : ∀ d ∈ ds, d < 16) :
    valueOf base (ds.map digitChar).reverse = Nat.ofDigits base ds := by
  rw [valueOf, List.reverse_reverse, map_digitVal h]

/-- The numeral of a number, which is empty for 0. -/
def numeralOf (base n : ℕ) : List Byte :=
  ((Nat.digits base n).map digitChar).reverse

theorem digits_lt (h₁ : 1 < base) (h₂ : base ≤ 16) :
    ∀ d ∈ Nat.digits base n, d < 16 :=
  fun _ hd => Nat.lt_of_lt_of_le (Nat.digits_lt_base h₁ hd) h₂

theorem valueOf_numeralOf (h₁ : 1 < base) (h₂ : base ≤ 16) :
    valueOf base (numeralOf base n) = n := by
  rw [numeralOf, valueOf_reverse_map (digits_lt h₁ h₂), Nat.ofDigits_digits]

theorem isNumeral_numeralOf (h₁ : 1 < base) (h₂ : base ≤ 16) (hn : n ≠ 0) :
    IsNumeral base (numeralOf base n) where
  ne_nil := by
    rw [numeralOf, ne_eq, List.reverse_eq_nil_iff, List.map_eq_nil_iff]
    exact Nat.digits_ne_nil_iff_ne_zero.mpr hn
  digits b hb := by
    rw [numeralOf, List.mem_reverse, List.mem_map] at hb
    obtain ⟨d, hd, rfl⟩ := hb
    rw [digitVal_digitChar (digits_lt h₁ h₂ d hd)]
    exact Nat.digits_lt_base h₁ hd
  leading hhead := by
    have hne := Nat.digits_ne_nil_iff_ne_zero (b := base).mpr hn
    rw [numeralOf, List.head?_reverse, List.getLast?_map,
      List.getLast?_eq_getLast_of_ne_nil hne, Option.map_some, Option.some.injEq,
      digitChar_eq_zero_iff (digits_lt h₁ h₂ _ (List.getLast_mem hne))] at hhead
    exact absurd hhead (Nat.getLast_digit_ne_zero base hn)

/-- A numeral that goes on is one of a greater number. -/
theorem valueOf_lt_append (h : 1 < base) (hxs : 0 < valueOf base xs)
    (hys : ys ≠ []) : valueOf base xs < valueOf base (xs ++ ys) := by
  have hpow : 1 < base ^ ys.length :=
    Nat.one_lt_pow (fun hzero => hys (List.length_eq_zero_iff.mp hzero)) h
  rw [valueOf_append]
  have := Nat.mul_lt_mul_of_pos_right hpow hxs
  omega

end Elfupspeed.Lib.CString
