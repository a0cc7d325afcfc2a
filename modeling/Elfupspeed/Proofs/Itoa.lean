import Elfupspeed.Src.ServerClient

/-!
# A number as text, without its end

`itoa` halts for every number and every base from 2 to 16, and all it writes
is in its buffer. The last of these bytes was to be a NUL, but the constant
has two characters, and the byte that is stored is a zero digit. So the text
goes on where the number ends, up to the first NUL that happens to be behind
the buffer. It then spells another number, or none: one more digit makes a
numeral that of a greater number, and a zero can be followed by nothing. Up to
that byte the text is right for every number but the most negative, whose
negation is not positive, so that it has a sign and no digits.
-/

namespace Elfupspeed.ServerClient

open Elfupspeed.Lib Elfupspeed.Lib.CString

variable {mem : ℤ → Byte} {n : BitVec 32} {base times : ℕ} {c : Cursor Byte}

/-- The law: `itoa` halts, stays in its buffer, and gives a string that is read
as the number. -/
def Undoes (mem : ℤ → Byte) (n : BitVec 32) (base : ℕ) : Prop :=
  ∃ times c, itoa times mem n base = some c ∧
    (∀ i ∈ c.writes, 0 ≤ i ∧ i < 36) ∧
    ∃ text, IsString c.mem c.p text ∧ Spells base n.toInt text

/-! ## What is pushed -/

/-- The number that the loop of `itoa` begins with, or 0 where it does not. -/
def magnitude (n : BitVec 32) : ℕ := (if n.slt 0 then -n else n).toInt.toNat

def signOf (n : BitVec 32) : List Byte := if n.slt 0 then [byte '-'] else []

def bodyOf (base : ℕ) (n : BitVec 32) : List Byte :=
  if n = 0 then [byte '0'] else numeralOf base (magnitude n)

theorem itoaLoop_eq (h : 1 < base) (m : ℤ) (c : Cursor Byte) :
    itoaLoop base times m c =
      if (Nat.digits base m.toNat).length < times then
        some (c.pushAll ((Nat.digits base m.toNat).map digitChar))
      else none := by
  induction times generalizing m c with
  | zero => simp [itoaLoop]
  | succ times ih =>
      rw [itoaLoop]
      by_cases hm : 0 < m
      · obtain ⟨k, rfl⟩ := Int.eq_ofNat_of_zero_le hm.le
        have hk : 0 < k := by omega
        have hdiv : (k : ℤ).tdiv base = ((k / base : ℕ) : ℤ) := rfl
        have hmod : (k : ℤ).tmod base = ((k % base : ℕ) : ℤ) := rfl
        rw [if_pos hm, hdiv, hmod, ih]
        simp only [Int.toNat_natCast]
        rw [Nat.digits_def' h hk, List.map_cons, Cursor.pushAll_cons]
        simp only [List.length_cons, Nat.add_lt_add_iff_right]
      · have hzero : m.toNat = 0 := by omega
        rw [if_neg hm, hzero]
        simp

theorem slashZero_eq : slashZero = byte '0' := by decide

/-- Where the loop halts, the buffer has the sign, the digits and one more
zero at its end. -/
theorem itoa_eq (h : 1 < base) :
    itoa times mem n base =
      if n = 0 ∨ (Nat.digits base (magnitude n)).length < times then
        some (Cursor.pushAll ⟨36, mem, []⟩
          (signOf n ++ bodyOf base n ++ [byte '0']).reverse)
      else none := by
  have hsign : ∀ c : Cursor Byte, c.pushAll (signOf n).reverse =
      if n.slt 0 then c.push (byte '-') else c := by
    intro c
    unfold signOf
    split
    · rfl
    · rfl
  rw [List.reverse_append, List.reverse_append, List.reverse_singleton,
    List.singleton_append, Cursor.pushAll_cons, Cursor.pushAll_append, hsign]
  by_cases hn : n = 0
  · rw [if_pos (.inl hn), bodyOf, if_pos hn, hn]
    rfl
  · have hne : (if n.slt 0 then -n else n) ≠ 0 := by
      split
      · simpa using hn
      · exact hn
    have hbody : (bodyOf base n).reverse =
        (Nat.digits base (magnitude n)).map digitChar := by
      rw [bodyOf, if_neg hn, numeralOf, List.reverse_reverse]
    have hor : (n = 0 ∨ (Nat.digits base (magnitude n)).length < times) ↔
        (Nat.digits base (magnitude n)).length < times := or_iff_right hn
    simp only [itoa, if_neg hne, itoaLoop_eq h, slashZero_eq, hbody, hor]
    rw [← magnitude]
    split
    · rfl
    · rfl

/-- The numbers with digits in base 2 are below `2 ^ 31`, and they have fewer
in a greater base. -/
theorem length_digits_le (h : 1 < base) :
    (Nat.digits base (magnitude n)).length ≤ 31 := by
  have hlt : magnitude n < 2 ^ 31 := by
    have htop := BitVec.toInt_lt (x := if n.slt 0 then -n else n)
    unfold magnitude
    omega
  rw [Nat.digits_length_le_iff h]
  exact Nat.lt_of_lt_of_le hlt (Nat.pow_le_pow_left h 31)

/-- What is right: `itoa` halts, and what it writes is in its buffer, up to the
last byte of it. -/
theorem itoa_stays_inside (h : 1 < base) :
    ∃ c, itoa 32 mem n base = some c ∧ (∀ i ∈ c.writes, 0 ≤ i ∧ i < 36) ∧
      HoldsFrom c.mem c.p (signOf n ++ bodyOf base n ++ [byte '0']) ∧
      c.p + (signOf n ++ bodyOf base n ++ [byte '0']).length = 36 := by
  have hdigits : (Nat.digits base (magnitude n)).length ≤ 31 := length_digits_le h
  have hsign : (signOf n).length ≤ 1 := by
    unfold signOf
    split
    · exact Nat.le_refl 1
    · exact Nat.zero_le 1
  have hbody : (bodyOf base n).length ≤ 31 := by
    unfold bodyOf
    split
    · exact Nat.le_add_left 1 30
    · rw [numeralOf, List.length_reverse, List.length_map]
      exact hdigits
  rw [itoa_eq h, if_pos (.inr (by omega))]
  refine ⟨_, rfl, fun i hi => ?_, Cursor.holdsFrom_reverse, ?_⟩
  · rcases Cursor.mem_writes_pushAll hi with hnil | hrange
    · cases hnil
    · rw [List.length_reverse, List.length_append, List.length_append,
        List.length_singleton] at hrange
      dsimp only at hrange
      omega
  · rw [Cursor.p_pushAll, List.length_reverse, Int.sub_add_cancel]

/-! ## What the text is -/

theorem slt_zero_iff : n.slt 0 = true ↔ n.toInt < 0 := by
  rw [BitVec.slt_iff_toInt_lt]
  rfl

theorem magnitude_eq (hn : n ≠ BitVec.intMin 32) :
    magnitude n = n.toInt.natAbs := by
  unfold magnitude
  split
  · next hneg =>
      have hlt := slt_zero_iff.mp hneg
      rw [BitVec.toInt_neg_of_ne_intMin hn]
      omega
  · next hnot =>
      have hge := mt slt_zero_iff.mpr hnot
      omega

theorem magnitude_pos (hn : n ≠ BitVec.intMin 32) (hzero : n ≠ 0) :
    0 < magnitude n := by
  rw [magnitude_eq hn, Int.natAbs_pos, ← BitVec.toInt_zero (w := 32)]
  exact fun heq => hzero (BitVec.toInt_inj.mp heq)

theorem isNumeral_zero (h : 1 < base) : IsNumeral base [byte '0'] where
  ne_nil := List.cons_ne_nil _ _
  digits b hb := by
    rw [List.mem_singleton.mp hb]
    exact Nat.lt_of_succ_lt h
  leading _ := rfl

theorem isNumeral_bodyOf (h₁ : 1 < base) (h₂ : base ≤ 16)
    (hn : n ≠ BitVec.intMin 32) : IsNumeral base (bodyOf base n) := by
  unfold bodyOf
  split
  · exact isNumeral_zero h₁
  · next hzero => exact isNumeral_numeralOf h₁ h₂ (magnitude_pos hn hzero).ne'

theorem valueOf_bodyOf (h₁ : 1 < base) (h₂ : base ≤ 16)
    (hn : n ≠ BitVec.intMin 32) : valueOf base (bodyOf base n) = n.toInt.natAbs := by
  unfold bodyOf
  split
  · next hzero =>
      have hdigit : digitVal (byte '0') = 0 := by decide
      rw [hzero, valueOf, List.reverse_singleton, List.map_singleton, hdigit,
        Nat.ofDigits_singleton]
      rfl
  · exact (valueOf_numeralOf h₁ h₂).trans (magnitude_eq hn)

/-- Up to its last byte the text is the number's, with one exception. -/
theorem spells_text (h₁ : 1 < base) (h₂ : base ≤ 16) (hn : n ≠ BitVec.intMin 32) :
    Spells base n.toInt (signOf n ++ bodyOf base n) := by
  refine ⟨bodyOf base n, isNumeral_bodyOf h₁ h₂ hn, ?_⟩
  rw [valueOf_bodyOf h₁ h₂ hn, signOf]
  split
  · next hneg =>
      have hlt := slt_zero_iff.mp hneg
      exact .inr ⟨rfl, by omega⟩
  · next hnot =>
      have hge := mt slt_zero_iff.mpr hnot
      exact .inl ⟨rfl, by omega⟩

/-- The digits with a zero and more behind them are no numeral of the number. -/
theorem valueOf_continued_ne (h₁ : 1 < base) (h₂ : base ≤ 16) {rest : List Byte}
    (hbody : IsNumeral base (bodyOf base n ++ byte '0' :: rest)) :
    valueOf base (bodyOf base n ++ byte '0' :: rest) ≠ n.toInt.natAbs := by
  by_cases hmin : n = BitVec.intMin 32
  · have hnil : bodyOf base n = [] := by
      rw [hmin, bodyOf, if_neg (by decide), numeralOf,
        show magnitude (BitVec.intMin 32) = 0 by decide]
      simp
    rw [hnil, List.nil_append] at hbody ⊢
    rw [hbody.leading rfl, hmin, valueOf, List.reverse_singleton,
      List.map_singleton, Nat.ofDigits_singleton]
    decide
  by_cases hzero : n = 0
  · rw [bodyOf, if_pos hzero] at hbody
    have hlong := hbody.leading rfl
    cases hlong
  · have hvalue := valueOf_bodyOf h₁ h₂ hmin
    have hpos := magnitude_pos hmin hzero
    rw [magnitude_eq hmin, ← hvalue] at hpos
    rw [← hvalue]
    exact (valueOf_lt_append h₁ hpos (List.cons_ne_nil _ _)).ne'

theorem minus_not_mem (h₂ : base ≤ 16) {body : List Byte}
    (hbody : IsNumeral base body) : byte '-' ∉ body := by
  intro hmem
  have hlt := hbody.digits _ hmem
  rw [show digitVal (byte '-') = 16 by decide] at hlt
  omega

theorem not_spells_continued (h₁ : 1 < base) (h₂ : base ≤ 16) (rest : List Byte) :
    ¬ Spells base n.toInt (signOf n ++ (bodyOf base n ++ byte '0' :: rest)) := by
  intro h
  obtain ⟨body, hnum, hspelt⟩ := h
  have hsame : bodyOf base n ++ byte '0' :: rest = body →
      n.toInt.natAbs ≠ valueOf base body := by
    rintro rfl
    exact (valueOf_continued_ne h₁ h₂ hnum).symm
  by_cases hneg : n.slt 0 = true
  · rw [signOf, if_pos hneg, List.singleton_append] at hspelt
    rcases hspelt with ⟨htext, -⟩ | ⟨htext, hvalue⟩
    · refine minus_not_mem h₂ hnum ?_
      rw [← htext]
      exact List.mem_cons_self
    · exact hsame (List.cons.inj htext).2 (by omega)
  · rw [signOf, if_neg hneg, List.nil_append] at hspelt
    rcases hspelt with ⟨htext, hvalue⟩ | ⟨htext, -⟩
    · exact hsame htext (by omega)
    · -- a number without a sign has a first digit, which is no sign
      have hmin : n ≠ BitVec.intMin 32 := by
        rintro rfl
        exact hneg (by decide)
      have hdigits := isNumeral_bodyOf h₁ h₂ hmin
      obtain ⟨b, bs, hcons⟩ := List.exists_cons_of_ne_nil hdigits.ne_nil
      rw [hcons, List.cons_append, List.cons.injEq] at htext
      refine minus_not_mem h₂ hdigits ?_
      rw [hcons, htext.1]
      exact List.mem_cons_self

/-! ## The law -/

theorem ne_zero_of_mem_text (h₁ : 1 < base) (h₂ : base ≤ 16) :
    ∀ b ∈ signOf n ++ bodyOf base n ++ [byte '0'], b ≠ 0 := by
  intro b hb
  rw [List.append_assoc, List.mem_append, List.mem_append,
    List.mem_singleton] at hb
  rcases hb with hb | hb | rfl
  · unfold signOf at hb
    split at hb
    · rw [List.mem_singleton.mp hb]
      decide
    · cases hb
  · unfold bodyOf at hb
    split at hb
    · rw [List.mem_singleton.mp hb]
      decide
    · rw [numeralOf, List.mem_reverse, List.mem_map] at hb
      obtain ⟨d, hd, rfl⟩ := hb
      exact digitChar_ne_zero (digits_lt h₁ h₂ d hd)
  · decide

/-- The string that `itoa` gives begins with the number and a zero. -/
theorem text_of_itoa (h₁ : 1 < base) (h₂ : base ≤ 16) {text : List Byte}
    (hitoa : itoa times mem n base = some c) (hstring : IsString c.mem c.p text) :
    ∃ rest, text = signOf n ++ (bodyOf base n ++ byte '0' :: rest) := by
  rw [itoa_eq h₁] at hitoa
  split at hitoa
  · cases hitoa
    obtain ⟨rest, rfl⟩ :=
      hstring.begins Cursor.holdsFrom_reverse (ne_zero_of_mem_text h₁ h₂)
    exact ⟨rest, by simp only [List.append_assoc, List.singleton_append]⟩
  · cases hitoa

/-- There is no number that `itoa` gives as a string. -/
theorem not_undoes (mem : ℤ → Byte) (n : BitVec 32) (base : ℕ) (h₁ : 2 ≤ base)
    (h₂ : base ≤ 16) : ¬ Undoes mem n base := by
  intro h
  obtain ⟨times, c, hitoa, -, text, hstring, hspells⟩ := h
  obtain ⟨rest, rfl⟩ := text_of_itoa h₁ h₂ hitoa hstring
  exact not_spells_continued h₁ h₂ rest hspells

/-- The most negative number, in base 2. -/
theorem most_negative_not_undone : ¬ Undoes (fun _ => 0) (BitVec.intMin 32) 2 :=
  not_undoes (fun _ => 0) (BitVec.intMin 32) 2 (by decide) (by decide)

/-- With zeros behind the buffer, 5 comes out as 50. -/
theorem five_as_fifty :
    (∃ c, itoa 32 (fun _ => 0) 5 10 = some c ∧
      IsString c.mem c.p (ofString "50")) ∧
      ¬ Undoes (fun _ => 0) 5 10 := by
  refine
    ⟨⟨Cursor.pushAll ⟨36, fun _ => 0, []⟩ (ofString "50").reverse, rfl, ?_⟩, ?_⟩
  · exact {
      holds := Cursor.holdsFrom_reverse
      ne_zero := by decide
      nul := by decide }
  · intro h
    obtain ⟨times, c, hitoa, -, text, hstring, hspells⟩ := h
    obtain ⟨rest, rfl⟩ := text_of_itoa (by omega) (by omega) hitoa hstring
    exact not_spells_continued (by omega) (by omega) rest hspells

end Elfupspeed.ServerClient
