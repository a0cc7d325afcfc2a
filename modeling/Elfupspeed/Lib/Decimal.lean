import Elfupspeed.Lib.CString
import Mathlib.Algebra.Field.Rat
import Mathlib.Tactic.IntervalCases
import Mathlib.Tactic.Positivity
import Mathlib.Tactic.Ring

/-!
# Decimal numbers as text

`atof` reads the longest decimal number at the front of a string (the
hexadecimal numbers, infinities and NaN that C documents as well are not read
here: of these only a leading 0, if anything, is a decimal number), and `fixed`
writes a number with so many places after the point. Nothing in the text says
where it ends, so a number is read back from a longer string as it was written
when what follows does not go on with it: `Stops` is that condition, and
`atof_fixed` the round trip under it.
-/

namespace Elfupspeed.Lib.CString

/-! ## Writing -/

def digit (d : ℕ) : Byte := BitVec.ofNat 8 (48 + d)

def numeral (n : ℕ) : List Byte := (Nat.toDigits 10 n).map byte

/-- The last `k` digits of a natural number, with leading zeros. -/
def places : ℕ → ℕ → List Byte
  | 0, _ => []
  | k + 1, n => places k (n / 10) ++ [digit (n % 10)]

/-- `n / 10 ^ k` with `k` places after the point. -/
def fixed (k : ℕ) (neg : Bool) (n : ℕ) : List Byte :=
  (if neg then [byte '-'] else []) ++ numeral (n / 10 ^ k) ++ byte '.' ::
    places k n

/-! ## Reading -/

/-- The exponent that a number goes on with; 0 if there is none. -/
def exponent : List Byte → ℤ
  | e :: s =>
      if e = byte 'e' ∨ e = byte 'E' then
        let (neg, digits) := sign s
        if neg then -(readDec 0 digits : ℤ) else readDec 0 digits
      else 0
  | [] => 0

def fraction : List Byte → List Byte × List Byte
  | b :: s =>
      if b = byte '.' then (s.takeWhile isdigit, s.dropWhile isdigit)
      else ([], b :: s)
  | [] => ([], [])

/-- The value of the longest decimal number at the front of a string, without
the `0x`, `inf` and `nan` of C. -/
def atof (s : List Byte) : ℚ :=
  let (neg, s) := sign (s.dropWhile isspace)
  let int := s.takeWhile isdigit
  let (frac, rest) := fraction (s.dropWhile isdigit)
  let x : ℚ := readDec 0 (int ++ frac) / 10 ^ frac.length * 10 ^ exponent rest
  if neg then -x else x

/-- A string that goes on with a number by zeros at most, and not with an
exponent other than 0. -/
def Stops (s : List Byte) : Prop :=
  (∀ b ∈ s.takeWhile isdigit, b = digit 0) ∧
    exponent (s.dropWhile isdigit) = 0

instance : DecidablePred Stops := fun _ => inferInstanceAs (Decidable (_ ∧ _))

/-! ## The digits -/

theorem isdigit_digit {d : ℕ} (hd : d < 10) : isdigit (digit d) = true := by
  interval_cases d <;> decide

theorem toNat_digit {d : ℕ} (hd : d < 10) : (digit d).toNat - 48 = d := by
  interval_cases d <;> rfl

theorem byte_digitChar {d : ℕ} (hd : d < 10) : byte (Nat.digitChar d) = digit d := by
  interval_cases d <;> rfl

theorem numeral_eq (n : ℕ) :
    numeral n =
      (if n < 10 then [] else numeral (n / 10)) ++ [digit (n % 10)] := by
  have hmod : n % 10 < 10 := Nat.mod_lt n (by omega)
  rw [numeral, Nat.toDigits_eq_if (by omega)]
  split
  · rename_i hn
    simp [byte_digitChar hn, Nat.mod_eq_of_lt hn]
  · simp [numeral, byte_digitChar hmod]

theorem readDec_digit (acc : ℕ) {d : ℕ} (hd : d < 10) (s : List Byte) :
    readDec acc (digit d :: s) = readDec (10 * acc + d) s := by
  rw [readDec, if_pos (isdigit_digit hd), toNat_digit hd]

theorem readDec_append {ds : List Byte} (hds : ∀ b ∈ ds, isdigit b = true)
    (acc : ℕ) (s : List Byte) :
    readDec acc (ds ++ s) = readDec (readDec acc ds) s := by
  induction ds generalizing acc with
  | nil => rfl
  | cons b ds ih =>
      have hb : isdigit b = true := hds b (by simp)
      rw [List.cons_append, readDec, readDec, if_pos hb, if_pos hb]
      exact ih (fun c hc => hds c (by simp [hc])) _

theorem isdigit_of_mem_numeral {n : ℕ} : ∀ b ∈ numeral n, isdigit b = true := by
  induction n using Nat.strong_induction_on with
  | _ n ih =>
      intro b hb
      rw [numeral_eq, List.mem_append, List.mem_singleton] at hb
      rcases hb with hb | hb
      · split at hb
        · cases hb
        · exact ih (n / 10) (by omega) b hb
      · rw [hb]
        exact isdigit_digit (Nat.mod_lt n (by omega))

theorem isdigit_of_mem_places {k n : ℕ} :
    ∀ b ∈ places k n, isdigit b = true := by
  induction k generalizing n with
  | zero =>
      intro b hb
      cases hb
  | succ k ih =>
      intro b hb
      rw [places, List.mem_append, List.mem_singleton] at hb
      rcases hb with hb | hb
      · exact ih b hb
      · rw [hb]
        exact isdigit_digit (Nat.mod_lt n (by omega))

theorem length_places (k n : ℕ) : (places k n).length = k := by
  induction k generalizing n with
  | zero => rfl
  | succ k ih => rw [places, List.length_append, ih, List.length_singleton]

theorem readDec_numeral (n : ℕ) : readDec 0 (numeral n) = n := by
  induction n using Nat.strong_induction_on with
  | _ n ih =>
      have hmod : n % 10 < 10 := Nat.mod_lt n (by omega)
      rw [numeral_eq]
      split
      · rename_i hn
        rw [List.nil_append, readDec_digit 0 hmod, readDec]
        omega
      · rw [readDec_append isdigit_of_mem_numeral, ih (n / 10) (by omega),
          readDec_digit _ hmod, readDec]
        omega

theorem readDec_places (acc k n : ℕ) :
    readDec acc (places k n) = acc * 10 ^ k + n % 10 ^ k := by
  induction k generalizing n with
  | zero => simp [places, readDec, Nat.mod_one]
  | succ k ih =>
      have hmod : n % 10 < 10 := Nat.mod_lt n (by omega)
      rw [places, readDec_append isdigit_of_mem_places, ih,
        readDec_digit _ hmod, readDec, Nat.pow_succ, Nat.mul_comm (10 ^ k) 10,
        Nat.mod_mul]
      ring

/-! ## The round trip -/

theorem takeWhile_digits {ds : List Byte} (hds : ∀ b ∈ ds, isdigit b = true)
    (s : List Byte) :
    (ds ++ s).takeWhile isdigit = ds ++ s.takeWhile isdigit ∧
      (ds ++ s).dropWhile isdigit = s.dropWhile isdigit :=
  ⟨List.takeWhile_append_of_pos hds, List.dropWhile_append_of_pos hds⟩

theorem readDec_zeros (acc : ℕ) {zs : List Byte}
    (hzs : ∀ b ∈ zs, b = digit 0) : readDec acc zs = acc * 10 ^ zs.length := by
  induction zs generalizing acc with
  | nil => simp [readDec]
  | cons z zs ih =>
      rw [hzs z (by simp), readDec_digit acc (by omega),
        ih _ fun b hb => hzs b (by simp [hb]), List.length_cons, pow_succ]
      ring

theorem readDec_fixed (k n : ℕ) {zs : List Byte}
    (hzs : ∀ b ∈ zs, b = digit 0) :
    readDec 0 (numeral (n / 10 ^ k) ++ (places k n ++ zs)) =
      n * 10 ^ zs.length := by
  rw [readDec_append isdigit_of_mem_numeral, readDec_numeral,
    readDec_append isdigit_of_mem_places, readDec_places,
    readDec_zeros _ hzs, Nat.div_add_mod']

theorem exists_numeral_cons (n : ℕ) :
    ∃ b s, numeral n = b :: s ∧ isdigit b = true := by
  cases hn : numeral n with
  | nil =>
      rw [numeral_eq, List.append_eq_nil_iff] at hn
      cases hn.2
  | cons b s =>
      exact ⟨b, s, rfl, isdigit_of_mem_numeral b (by rw [hn]; simp)⟩

theorem isdigit_not_sign {b : Byte} (h : isdigit b = true) :
    isspace b = false ∧ b ≠ byte '-' ∧ b ≠ byte '+' := by
  revert b
  decide

theorem sign_numeral (n : ℕ) (s : List Byte) :
    sign ((numeral n ++ s).dropWhile isspace) = (false, numeral n ++ s) := by
  obtain ⟨b, t, hn, hb⟩ := exists_numeral_cons n
  obtain ⟨hspace, hminus, hplus⟩ := isdigit_not_sign hb
  rw [hn, List.cons_append, List.dropWhile_cons_of_neg (by rw [hspace]; decide),
    sign, if_neg hminus, if_neg hplus]

theorem fraction_places (k n : ℕ) (s : List Byte) :
    fraction (byte '.' :: (places k n ++ s)) =
      (places k n ++ s.takeWhile isdigit, s.dropWhile isdigit) := by
  obtain ⟨htake, hdrop⟩ := takeWhile_digits (isdigit_of_mem_places (k := k)
    (n := n)) s
  rw [fraction, if_pos rfl, htake, hdrop]

theorem takeWhile_numeral (n : ℕ) (s : List Byte) :
    (numeral n ++ byte '.' :: s).takeWhile isdigit = numeral n ∧
      (numeral n ++ byte '.' :: s).dropWhile isdigit = byte '.' :: s := by
  obtain ⟨htake, hdrop⟩ :=
    takeWhile_digits (isdigit_of_mem_numeral (n := n)) (byte '.' :: s)
  exact ⟨by rw [htake, List.takeWhile_cons_of_neg (by decide), List.append_nil],
    by rw [hdrop, List.dropWhile_cons_of_neg (by decide)]⟩

theorem atof_fixed (k : ℕ) (neg : Bool) (n : ℕ) {s : List Byte}
    (hs : Stops s) :
    atof (fixed k neg n ++ s) =
      if neg then -((n : ℚ) / 10 ^ k) else (n : ℚ) / 10 ^ k := by
  have hsign : sign ((fixed k neg n ++ s).dropWhile isspace) =
      (neg, numeral (n / 10 ^ k) ++ byte '.' :: (places k n ++ s)) := by
    cases neg with
    | true =>
        have hminus : (fixed k true n ++ s).dropWhile isspace =
            byte '-' :: (numeral (n / 10 ^ k) ++ byte '.' ::
              (places k n ++ s)) := by
          simp only [fixed, if_true, List.cons_append, List.nil_append,
            List.append_assoc]
          exact List.dropWhile_cons_of_neg (by decide)
        rw [hminus, sign, if_pos rfl]
    | false =>
        have hplus : fixed k false n ++ s =
            numeral (n / 10 ^ k) ++ byte '.' :: (places k n ++ s) := by
          simp [fixed]
        rw [hplus, sign_numeral]
  obtain ⟨htake, hdrop⟩ :=
    takeWhile_numeral (n / 10 ^ k) (places k n ++ s)
  have hvalue : ((n * 10 ^ (s.takeWhile isdigit).length : ℕ) : ℚ) /
      10 ^ (k + (s.takeWhile isdigit).length) = (n : ℚ) / 10 ^ k := by
    rw [pow_add]
    push_cast
    exact mul_div_mul_right _ _ (by positivity)
  simp only [atof, hsign, htake, hdrop, fraction_places, readDec_fixed k n hs.1,
    List.length_append, length_places, hs.2, zpow_zero, mul_one, hvalue]

theorem fixed_ne_nil (k : ℕ) (neg : Bool) (n : ℕ) : fixed k neg n ≠ [] := by
  simp [fixed]

theorem ne_zero_of_isdigit {b : Byte} (h : isdigit b = true) : b ≠ 0 := by
  rintro rfl
  cases h

theorem ne_zero_of_mem_fixed {k : ℕ} {neg : Bool} {n : ℕ} :
    ∀ b ∈ fixed k neg n, b ≠ 0 := by
  intro b hb
  rw [fixed, List.append_assoc, List.mem_append, List.mem_append,
    List.mem_cons] at hb
  rcases hb with hb | hb | hb | hb
  · split at hb
    · rw [List.mem_singleton.mp hb]
      decide
    · cases hb
  · exact ne_zero_of_isdigit (isdigit_of_mem_numeral b hb)
  · rw [hb]
    decide
  · exact ne_zero_of_isdigit (isdigit_of_mem_places b hb)

end Elfupspeed.Lib.CString
