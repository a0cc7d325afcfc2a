import Elfupspeed.Lib.CString
import Mathlib.Tactic.IntervalCases

/-!
# Files read by lines

`fgets` shows a file piece by piece: a line as a whole where it fits the
buffer, and otherwise so many bytes of it at a time. The pieces of a file are
those of its lines, one line after the other; no piece has anything that its
line has not, and the first one is the front of the line. The numbers at the
front of a line are hexadecimal here, with leading zeros.
-/

namespace Elfupspeed.Lib.CString

variable {size room k n : ℕ} {b : Byte} {s t line name : List Byte}

/-! ## Pieces of lines -/

/-- A line with its end, which is a string. -/
def IsLine (line : List Byte) : Prop :=
  ∃ s, line = s ++ [byte '\n'] ∧ ∀ b ∈ s, b ≠ byte '\n' ∧ b ≠ 0

theorem fgetsAll_cons_newline (size room : ℕ) (s : List Byte) :
    fgetsAll size room (byte '\n' :: s) =
      [byte '\n'] :: fgetsAll size (size - 1) s := by
  rw [fgetsAll, if_pos (.inl rfl)]

theorem fgetsAll_flatten (size room : ℕ) (s : List Byte) :
    (fgetsAll size room s).flatten = s := by
  induction s generalizing room with
  | nil => rfl
  | cons b s ih =>
      rw [fgetsAll]
      split
      · rw [List.flatten_cons, ih, List.singleton_append]
      · have hrest := ih (room - 1)
        cases hpieces : fgetsAll size (room - 1) s with
        | nil =>
            rw [hpieces] at hrest
            rw [← hrest]
            rfl
        | cons piece pieces =>
            rw [hpieces] at hrest
            rw [← hrest]
            rfl

theorem infix_of_mem_fgetsAll (h : t ∈ fgetsAll size room s) : t <:+: s := by
  have hflat := List.infix_of_mem_flatten h
  rwa [fgetsAll_flatten] at hflat

/-- A newline ends a piece, so what is behind it is read afresh. -/
theorem fgetsAll_append_newline (h : ∀ b ∈ s, b ≠ byte '\n') (t : List Byte) :
    fgetsAll size room (s ++ byte '\n' :: t) =
      fgetsAll size room (s ++ [byte '\n']) ++ fgetsAll size (size - 1) t := by
  induction s generalizing room with
  | nil =>
      rw [List.nil_append, List.nil_append, fgetsAll_cons_newline,
        fgetsAll_cons_newline, fgetsAll]
      rfl
  | cons b s ih =>
      have hb : b ≠ byte '\n' := h b List.mem_cons_self
      have hs : ∀ c ∈ s, c ≠ byte '\n' := fun c hc => h c (List.mem_cons_of_mem b hc)
      rw [List.cons_append, List.cons_append, fgetsAll, fgetsAll]
      split
      · rw [ih hs, List.cons_append]
      · rw [ih hs]
        cases hpieces : fgetsAll size (room - 1) (s ++ [byte '\n']) with
        | nil =>
            have hflat := fgetsAll_flatten size (room - 1) (s ++ [byte '\n'])
            rw [hpieces] at hflat
            exact absurd hflat.symm (by simp)
        | cons piece pieces => rfl

/-- The pieces of a file are those of its lines. -/
theorem fgetsAll_lines (size : ℕ) {lines : List (List Byte)} (h : ∀ l ∈ lines, IsLine l) :
    fgetsAll size (size - 1) lines.flatten =
      lines.flatMap fun line => fgetsAll size (size - 1) line := by
  induction lines with
  | nil => rfl
  | cons line lines ih =>
      obtain ⟨s, rfl, hs⟩ := h line List.mem_cons_self
      have hrest := ih fun l hl => h l (List.mem_cons_of_mem _ hl)
      rw [List.flatten_cons, List.append_assoc, List.singleton_append,
        fgetsAll_append_newline fun b hb => (hs b hb).1, hrest, List.flatMap_cons]

/-- The first piece of a line is as much of it as there is room for, and the
rest is read afresh. -/
theorem fgetsAll_head (size : ℕ) (h : ∀ b ∈ s, b ≠ byte '\n') (hroom : 0 < room) :
    fgetsAll size room (s ++ [byte '\n']) =
      (s ++ [byte '\n']).take room ::
        fgetsAll size (size - 1) ((s ++ [byte '\n']).drop room) := by
  induction s generalizing room with
  | nil =>
      rw [List.nil_append, fgetsAll_cons_newline, List.take_of_length_le hroom,
        List.drop_of_length_le hroom]
  | cons b s ih =>
      have hb : b ≠ byte '\n' := h b List.mem_cons_self
      obtain ⟨k, rfl⟩ : ∃ k, room = k + 1 := ⟨room - 1, by omega⟩
      rw [List.cons_append, fgetsAll, List.take_succ_cons, List.drop_succ_cons]
      by_cases hk : k = 0
      · rw [if_pos (.inr (by omega)), hk]
        rfl
      · rw [if_neg (by simp only [hb, false_or]; omega), Nat.add_sub_cancel,
          ih (fun c hc => h c (List.mem_cons_of_mem b hc)) (Nat.pos_of_ne_zero hk)]

/-- One call of `fgets` is enough to tell whether a file starts with a string
that it has room for. -/
theorem cstr_fgets_eq_iff (hlen : name.length < k)
    (hname : ∀ b ∈ name, b ≠ byte '\n' ∧ b ≠ 0) :
    cstr (fgets (k + 1) s) = name ↔ cstr s = name := by
  induction s generalizing k name with
  | nil => rfl
  | cons b s ih =>
      obtain ⟨n, rfl⟩ : ∃ n, k = n + 1 := ⟨k - 1, by omega⟩
      rw [fgets]
      by_cases hzero : b = 0
      · rw [hzero, if_neg (by decide), cstr, cstr,
          List.takeWhile_cons_of_neg (by simp), List.takeWhile_cons_of_neg (by simp)]
      · have hcons : ∀ t, cstr (b :: t) = b :: cstr t :=
          fun t => List.takeWhile_cons_of_pos (by simpa using hzero)
        by_cases hend : b = byte '\n'
        · have hne : ∀ t, b :: t ≠ name := by
            rintro t rfl
            exact (hname b List.mem_cons_self).1 hend
          rw [if_pos hend, hcons, hcons]
          exact iff_of_false (hne _) (hne _)
        · rw [if_neg hend, hcons, hcons]
          cases name with
          | nil => simp
          | cons c name =>
              rw [List.cons.injEq, List.cons.injEq]
              refine and_congr_right fun _ => ih ?_ fun c' hc' =>
                hname c' (List.mem_cons_of_mem c hc')
              simpa using hlen

theorem strstr_iff : strstr s name = true ↔ name <:+: s := by
  simp only [strstr, List.any_eq_true, List.mem_tails,
    List.isPrefixOf_iff_prefix, List.infix_iff_prefix_suffix]
  constructor
  · intro h
    obtain ⟨t, hsuffix, hprefix⟩ := h
    exact ⟨t, hprefix, hsuffix⟩
  · intro h
    obtain ⟨t, hprefix, hsuffix⟩ := h
    exact ⟨t, hsuffix, hprefix⟩

/-! ## Numbers in base 16 -/

def hexChar (d : ℕ) : Byte := BitVec.ofNat 8 (if d < 10 then 48 + d else 87 + d)

/-- The last `k` digits of a number, with leading zeros. -/
def hexDigits : ℕ → ℕ → List Byte
  | 0, _ => []
  | k + 1, n => hexDigits k (n / 16) ++ [hexChar (n % 16)]

theorem length_hexDigits (k n : ℕ) : (hexDigits k n).length = k := by
  induction k generalizing n with
  | zero => rfl
  | succ k ih => rw [hexDigits, List.length_append, ih, List.length_singleton]

theorem exists_of_mem_hexDigits (h : b ∈ hexDigits k n) :
    ∃ d, d < 16 ∧ b = hexChar d := by
  induction k generalizing n with
  | zero => cases h
  | succ k ih =>
      rw [hexDigits, List.mem_append, List.mem_singleton] at h
      rcases h with h | h
      · exact ih h
      · exact ⟨n % 16, Nat.mod_lt n (by omega), h⟩

theorem hexDigit_hexChar {d : ℕ} (h : d < 16) : hexDigit (hexChar d) = some d := by
  interval_cases d <;> decide

/-- A digit is none of the characters that mean something else in a number. -/
theorem hexChar_ne {d : ℕ} (h : d < 16) :
    ∀ c ∈ [0, byte '\n', byte '-', byte '+', byte 'x', byte 'X'],
      hexChar d ≠ c := by
  interval_cases d <;> decide

theorem not_isspace_hexChar {d : ℕ} (h : d < 16) : isspace (hexChar d) = false := by
  interval_cases d <;> decide

theorem readHex_hexDigits (acc k n : ℕ) (s : List Byte) :
    readHex acc (hexDigits k n ++ s) = readHex (acc * 16 ^ k + n % 16 ^ k) s := by
  induction k generalizing n s with
  | zero => simp [hexDigits, Nat.mod_one]
  | succ k ih =>
      have hmod : n % 16 < 16 := Nat.mod_lt n (by omega)
      have hvalue : 16 * (acc * 16 ^ k + n / 16 % 16 ^ k) + n % 16 =
          acc * 16 ^ (k + 1) + n % 16 ^ (k + 1) := by
        rw [Nat.pow_succ, Nat.mul_comm (16 ^ k) 16, Nat.mod_mul, Nat.mul_add,
          Nat.mul_left_comm]
        omega
      rw [hexDigits, List.append_assoc, List.singleton_append, ih, readHex,
        hexDigit_hexChar hmod, ← hvalue]

/-- Nothing in front of the digits is skipped. -/
theorem front_hexDigits (k n : ℕ) :
    (hexDigits k n).dropWhile isspace = hexDigits k n ∧
      sign (hexDigits k n) = (false, hexDigits k n) ∧
      skip0x (hexDigits k n) = hexDigits k n := by
  have hdigit : ∀ b ∈ hexDigits k n, isspace b = false ∧
      ∀ c ∈ [0, byte '\n', byte '-', byte '+', byte 'x', byte 'X'], b ≠ c := by
    intro b hb
    obtain ⟨d, hd, rfl⟩ := exists_of_mem_hexDigits hb
    exact ⟨not_isspace_hexChar hd, hexChar_ne hd⟩
  match hexDigits k n, hdigit with
  | [], _ => exact ⟨rfl, rfl, rfl⟩
  | b :: s, hdigit =>
      obtain ⟨hspace, hne⟩ := hdigit b List.mem_cons_self
      refine ⟨List.dropWhile_cons_of_neg (by simp [hspace]), ?_, ?_⟩
      · rw [sign, if_neg (hne _ (by simp)), if_neg (hne _ (by simp))]
      · match s, hdigit with
        | [], _ => rfl
        | x :: s, hdigit =>
            have hx := (hdigit x (by simp)).2
            rw [skip0x, if_neg]
            rintro ⟨-, hx' | hx'⟩
            · exact hx _ (by simp) hx'
            · exact hx _ (by simp) hx'

/-- `strtoul` gets a number of at most eight digits back. -/
theorem strtoul16_hexDigits (hk : k ≤ 8) (hn : n < 16 ^ k) :
    strtoul16 (hexDigits k n) = BitVec.ofNat 32 n := by
  obtain ⟨hspace, hsign, hskip⟩ := front_hexDigits k n
  have hlt : n < 16 ^ 8 :=
    Nat.lt_of_lt_of_le hn (Nat.pow_le_pow_right (by omega) hk)
  have hread : readHex 0 (hexDigits k n) = n := by
    have h := readHex_hexDigits 0 k n []
    rwa [List.append_nil, readHex, Nat.zero_mul, Nat.zero_add,
      Nat.mod_eq_of_lt hn] at h
  rw [strtoul16, hspace, hsign]
  simp only [hskip, hread]
  rw [if_neg (by omega)]
  rfl

/-- The first token, which ends at a delimiter. -/
theorem strtok_append {delim : Byte} (hs : ∀ b ∈ s, b ≠ delim) (hne : s ≠ [])
    (t : List Byte) : strtok (s ++ delim :: t) delim = some s := by
  match s, hne with
  | b :: s, _ =>
      have hb : b ≠ delim := hs b List.mem_cons_self
      have htake : (b :: s ++ delim :: t).takeWhile (· ≠ delim) = b :: s := by
        rw [List.takeWhile_append_of_pos (by simpa using hs),
          List.takeWhile_cons_of_neg (by simp), List.append_nil]
      rw [strtok, List.cons_append, List.dropWhile_cons_of_neg (by simpa using hb),
        ← List.cons_append, htake]

end Elfupspeed.Lib.CString
