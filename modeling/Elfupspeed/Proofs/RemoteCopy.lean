import Elfupspeed.Lib.Memory
import Elfupspeed.Src.Elfinject

/-!
# What the word-wise copies come to

`ptrace_writedata` writes whole words, and for a rest of one to three bytes it
reads the last word, replaces the front of it and writes it back. Where the
words it touches are mapped this is one store of the bytes that were asked
for: the bytes behind them are written back as they were. `ptrace_readdata`
goes over the same words and gives back what a store left there.
-/

namespace Elfupspeed.Elfinject

open Elfupspeed.Lib Elfupspeed.Lib.CString Elfupspeed.Lib.Memory

variable {mem : Mem} {a : Word} {val : Word} {data : List Byte}

/-! ## Words and their bytes -/

theorem extract_low {n : ℕ} (hi : BitVec n) (lo : Byte) :
    (hi ++ lo).extractLsb' 0 8 = lo := BitVec.extractLsb'_append_eq_right

theorem extract_high {n k : ℕ} (hi : BitVec n) (lo : Byte) (hk : 8 ≤ k) :
    (hi ++ lo).extractLsb' k 8 = hi.extractLsb' (k - 8) 8 :=
  BitVec.extractLsb'_append_eq_of_le hk

theorem extract_extract (val : Word) {s n k : ℕ} (hk : k + 8 ≤ n) :
    (val.extractLsb' s n).extractLsb' k 8 = val.extractLsb' (s + k) 8 := by
  ext i hi
  simp [Nat.add_assoc, show k + i < n by omega]

theorem bytesOf_low (hi : BitVec 24) (a : Byte) :
    bytesOf [hi ++ a] =
      [a, hi.extractLsb' 0 8, hi.extractLsb' 8 8, hi.extractLsb' 16 8] := by
  have h₁ : (hi ++ a).extractLsb' 8 8 = hi.extractLsb' 0 8 :=
    extract_high hi a (by omega)
  have h₂ : (hi ++ a).extractLsb' 16 8 = hi.extractLsb' 8 8 :=
    extract_high hi a (by omega)
  have h₃ : (hi ++ a).extractLsb' 24 8 = hi.extractLsb' 16 8 :=
    extract_high hi a (by omega)
  simp only [bytesOf, List.flatMap_cons, List.flatMap_nil, List.append_nil]
  rw [extract_low, h₁, h₂, h₃]

theorem extract_middle (hi : BitVec 16) (b : Byte) :
    (hi ++ b).extractLsb' 0 8 = b ∧
      (hi ++ b).extractLsb' 8 8 = hi.extractLsb' 0 8 ∧
      (hi ++ b).extractLsb' 16 8 = hi.extractLsb' 8 8 :=
  ⟨extract_low hi b, extract_high hi b (by omega), extract_high hi b (by omega)⟩

theorem bytesOf_append (a b c d : Byte) :
    bytesOf [d ++ c ++ b ++ a] = [a, b, c, d] := by
  obtain ⟨h₀, h₁, h₂⟩ := extract_middle (d ++ c) b
  have hd : (d ++ c).extractLsb' 8 8 = d :=
    (extract_high d c (by omega)).trans BitVec.extractLsb'_eq_self
  have hc : (d ++ c).extractLsb' 0 8 = c := extract_low d c
  rw [bytesOf_low (d ++ c ++ b) a, h₀, h₁, h₂, hc, hd]

theorem append_bytes (val : Word) :
    val.extractLsb' 24 8 ++ val.extractLsb' 16 8 ++ val.extractLsb' 8 8 ++
      val.extractLsb' 0 8 = val := by
  rw [BitVec.extractLsb'_append_extractLsb'_eq_extractLsb' (by omega),
    BitVec.extractLsb'_append_extractLsb'_eq_extractLsb' (by omega),
    BitVec.extractLsb'_append_extractLsb'_eq_extractLsb' (by omega)]
  exact BitVec.extractLsb'_eq_self

theorem length_bytesOf (params : List Word) :
    (bytesOf params).length = params.length * 4 := by
  simp [bytesOf, List.length_flatMap, Nat.mul_comm]

theorem wordAt_eq_some : wordAt mem a = some val ↔ Holds mem a (bytesOf [val]) := by
  constructor
  · intro h
    simp only [wordAt, Option.bind_eq_bind, Option.bind_eq_some_iff,
      Option.pure_def, Option.some.injEq] at h
    obtain ⟨b₀, h₀, b₁, h₁, b₂, h₂, b₃, h₃, rfl⟩ := h
    rw [bytesOf_append]
    intro i hi
    match i, hi with
    | 0, _ => simpa using h₀
    | 1, _ => exact h₁
    | 2, _ => exact h₂
    | 3, _ => exact h₃
  · intro h
    have hlen : (bytesOf [val]).length = 4 := length_bytesOf [val]
    have h₀ : mem a = some (val.extractLsb' 0 8) := by
      simpa [bytesOf] using h 0 (by omega)
    have h₁ : mem (a + 1) = some (val.extractLsb' 8 8) := h 1 (by omega)
    have h₂ : mem (a + 2) = some (val.extractLsb' 16 8) := h 2 (by omega)
    have h₃ : mem (a + 3) = some (val.extractLsb' 24 8) := h 3 (by omega)
    simp only [wordAt, h₀, h₁, h₂, h₃, Option.bind_eq_bind, Option.bind_some,
      Option.pure_def, Option.some.injEq]
    exact append_bytes val

theorem isSome_wordAt (h : Mapped mem a 4) : (wordAt mem a).isSome = true := by
  have hcell : ∀ k < 4, ∃ b, mem (a + BitVec.ofNat 32 k) = some b := by
    intro k hk
    exact Option.isSome_iff_exists.mp
      (h _ (by rw [offset_add a (by omega)]; exact hk))
  obtain ⟨b₀, h₀⟩ := hcell 0 (by omega)
  obtain ⟨b₁, h₁⟩ := hcell 1 (by omega)
  obtain ⟨b₂, h₂⟩ := hcell 2 (by omega)
  obtain ⟨b₃, h₃⟩ := hcell 3 (by omega)
  have h₀' : mem a = some b₀ := by simpa using h₀
  have h₁' : mem (a + 1) = some b₁ := h₁
  have h₂' : mem (a + 2) = some b₂ := h₂
  have h₃' : mem (a + 3) = some b₃ := h₃
  simp only [wordAt, h₀', h₁', h₂', h₃']
  rfl

theorem mapped_of_wordAt (h : (wordAt mem a).isSome = true) : Mapped mem a 4 := by
  obtain ⟨val, hval⟩ := Option.isSome_iff_exists.mp h
  have hmapped := (wordAt_eq_some.mp hval).mapped
  rwa [length_bytesOf, List.length_singleton] at hmapped

theorem holds_peekText (h : Mapped mem a 4) : Holds mem a (bytesOf [peekText mem a]) := by
  obtain ⟨val, hval⟩ := Option.isSome_iff_exists.mp (isSome_wordAt h)
  rw [peekText, hval]
  exact wordAt_eq_some.mp hval

theorem pokeText_eq (h : Mapped mem a 4) :
    pokeText mem a val = write mem a (bytesOf [val]) := by
  rw [pokeText, if_pos (isSome_wordAt h)]
  funext x
  have heq : ∀ k < 4, x = a + BitVec.ofNat 32 k ↔ offset a x = k := by
    intro k hk
    constructor
    · rintro rfl
      exact offset_add a (by omega)
    · intro hoff
      rw [← hoff, add_offset]
  have h₀ : x = a ↔ offset a x = 0 := offset_eq_zero.symm
  have h₁ : x = a + 1 ↔ offset a x = 1 := heq 1 (by omega)
  have h₂ : x = a + 2 ↔ offset a x = 2 := heq 2 (by omega)
  have h₃ : x = a + 3 ↔ offset a x = 3 := heq 3 (by omega)
  simp only [h₀, h₁, h₂, h₃, write]
  generalize offset a x = i
  obtain _ | _ | _ | _ | i := i
  · rfl
  · rfl
  · rfl
  · rfl
  · rfl

/-- The word that is written back has the new bytes in front of the old ones. -/
theorem bytesOf_overlay (val : Word) (hpos : data ≠ []) (hlen : data.length < 4) :
    bytesOf [overlay val data] = data ++ (bytesOf [val]).drop data.length := by
  match data, hpos, hlen with
  | [a], _, _ =>
      have h₀ := extract_extract val (s := 8) (n := 24) (k := 0) (by omega)
      have h₁ := extract_extract val (s := 8) (n := 24) (k := 8) (by omega)
      have h₂ := extract_extract val (s := 8) (n := 24) (k := 16) (by omega)
      rw [overlay, bytesOf_low, h₀, h₁, h₂]
      rfl
  | [a, b], _, _ =>
      have h₀ := extract_extract val (s := 16) (n := 16) (k := 0) (by omega)
      have h₁ := extract_extract val (s := 16) (n := 16) (k := 8) (by omega)
      obtain ⟨hb, hlow, hhigh⟩ := extract_middle (val.extractLsb' 16 16) b
      rw [overlay, bytesOf_low, hb, hlow, hhigh, h₀, h₁]
      rfl
  | [a, b, c], _, _ =>
      have hd : (val.extractLsb' 24 8 ++ c).extractLsb' 8 8 = val.extractLsb' 24 8 :=
        (extract_high _ c (by omega)).trans BitVec.extractLsb'_eq_self
      have hc : (val.extractLsb' 24 8 ++ c).extractLsb' 0 8 = c := extract_low _ c
      obtain ⟨hb, hlow, hhigh⟩ := extract_middle (val.extractLsb' 24 8 ++ c) b
      rw [overlay, bytesOf_low, hb, hlow, hhigh, hc, hd]
      rfl
  | _ :: _ :: _ :: _ :: _, _, hlen =>
      simp only [List.length_cons] at hlen
      omega

/-! ## The copies -/

/-- The size of the words that a copy of `size` bytes touches. -/
def rounded (size : ℕ) : ℕ := 4 * ((size + 3) / 4)

theorem rounded_add (size : ℕ) : rounded (4 + size) = 4 + rounded size := by
  unfold rounded
  omega

theorem le_rounded (size : ℕ) : size ≤ rounded size := by
  unfold rounded
  omega

theorem rounded_rest {size : ℕ} (hpos : 0 < size) (hlen : size < 4) :
    rounded size = 4 := by
  unfold rounded
  omega

/-- The rest of fewer than four bytes, which is written in the front of a word
that was there. -/
theorem pokeText_overlay (hmapped : Mapped mem a 4) (hpos : data ≠ [])
    (hlen : data.length < 4) :
    pokeText mem a (overlay (peekText mem a) data) = write mem a data := by
  have hbytes := bytesOf_overlay (peekText mem a) hpos hlen
  have hold := holds_peekText hmapped
  have hfour : (bytesOf [overlay (peekText mem a) data]).length ≤ 2 ^ 32 := by
    simp [length_bytesOf]
  rw [pokeText_eq hmapped, hbytes, write_append (by rwa [hbytes] at hfour)]
  have hrest := hold.drop (k := data.length) (by simp [length_bytesOf]; omega)
  refine write_eq_self (hrest.write (Nat.le_refl _) ?_)
  rw [List.length_drop, length_bytesOf]
  simp only [List.length_singleton]
  omega

theorem length_lt_four
    (h : ∀ b₀ b₁ b₂ b₃ rest, data = b₀ :: b₁ :: b₂ :: b₃ :: rest → False) :
    data.length < 4 := by
  match data, h with
  | [], _ | [_], _ | [_, _], _ | [_, _, _], _ => simp
  | _ :: _ :: _ :: _ :: _, h => exact absurd rfl (h _ _ _ _ _)

theorem lt_four {size : ℕ} (h : ∀ n : ℕ, size = n + 4 → False) : size < 4 := by
  by_contra hge
  exact h (size - 4) (by omega)

theorem ptraceWritedata_eq (hlen : rounded data.length ≤ 2 ^ 32)
    (hmapped : Mapped mem a (rounded data.length)) :
    ptraceWritedata mem a data = write mem a data := by
  induction mem, a, data using ptraceWritedata.induct with
  | case1 mem a b₀ b₁ b₂ b₃ data ih =>
      have hsize : rounded (b₀ :: b₁ :: b₂ :: b₃ :: data).length =
          4 + rounded data.length := by
        rw [← rounded_add]
        congr 1
        simp only [List.length_cons]
        omega
      rw [hsize] at hlen hmapped
      have hword : Mapped mem a 4 := hmapped.le (by omega)
      have hpoke : pokeText mem a (b₃ ++ b₂ ++ b₁ ++ b₀) =
          write mem a [b₀, b₁, b₂, b₃] := by
        rw [pokeText_eq hword, bytesOf_append]
      have hrest : Mapped (pokeText mem a (b₃ ++ b₂ ++ b₁ ++ b₀)) (a + 4)
          (rounded data.length) := by
        rw [hpoke]
        exact (hmapped.shift hlen).write hword
      have hdata := le_rounded data.length
      rw [ptraceWritedata, ih (by omega) hrest, hpoke]
      have hall : ([b₀, b₁, b₂, b₃] ++ data).length ≤ 2 ^ 32 := by
        simp only [List.length_append, List.length_cons, List.length_nil]
        omega
      exact (write_append hall).symm
  | case2 mem a => rw [ptraceWritedata, write_nil]
  | case3 mem a data hnot hne =>
      have hlt := length_lt_four hnot
      have hpos : 0 < data.length := List.length_pos_iff.mpr hne
      rw [rounded_rest hpos hlt] at hmapped
      rw [ptraceWritedata]
      · exact pokeText_overlay hmapped hne hlt
      · exact hnot
      · exact hne

theorem ptraceReaddata_eq {size : ℕ} (hsize : data.length = size)
    (hlen : rounded size ≤ 2 ^ 32) (hmapped : Mapped mem a (rounded size))
    (h : Holds mem a data) : ptraceReaddata mem a size = data := by
  induction a, size using ptraceReaddata.induct generalizing data with
  | case1 a size ih =>
      have hsucc : size.succ.succ.succ.succ = 4 + size := Nat.add_comm size 4
      rw [hsucc, rounded_add] at hlen hmapped
      have hword := holds_peekText (hmapped.le (k := 4) (by omega))
      have hfront : bytesOf [peekText mem a] = data.take 4 :=
        hword.eq (h.take 4) (by simp [length_bytesOf, hsize])
      have hrest : ptraceReaddata mem (a + 4) size = data.drop 4 :=
        ih (by simp [hsize]) (by omega) (hmapped.shift hlen)
          (h.drop (k := 4) (by omega))
      rw [ptraceReaddata, hfront, hrest, List.take_append_drop]
  | case2 a size hnot =>
      have hlt := lt_four hnot
      rw [ptraceReaddata]
      · rcases Nat.eq_zero_or_pos size with hzero | hpos
        · rw [hzero, List.length_eq_zero_iff] at hsize
          rw [hzero, hsize, List.take_zero]
        · rw [rounded_rest hpos hlt] at hmapped
          refine ((holds_peekText hmapped).take size).eq h ?_
          simp [length_bytesOf, hsize, hlt.le]
      · exact hnot

/-- A poke maps nothing. -/
theorem isSome_pokeText (mem : Mem) (a val x : Word) :
    (pokeText mem a val x).isSome = (mem x).isSome := by
  by_cases hword : (wordAt mem a).isSome = true
  · have hmapped := mapped_of_wordAt hword
    rw [pokeText_eq hmapped, isSome_write]
    rwa [length_bytesOf, List.length_singleton]
  · rw [pokeText, if_neg hword]

theorem isSome_ptraceWritedata (mem : Mem) (a : Word) (data : List Byte) (x : Word) :
    (ptraceWritedata mem a data x).isSome = (mem x).isSome := by
  induction mem, a, data using ptraceWritedata.induct with
  | case1 mem a b₀ b₁ b₂ b₃ data ih =>
      rw [ptraceWritedata, ih, isSome_pokeText]
  | case2 mem a => rw [ptraceWritedata]
  | case3 mem a data hnot hne =>
      rw [ptraceWritedata]
      · exact isSome_pokeText mem a _ x
      · exact hnot
      · exact hne

/-! ## The round trip -/

/-- A write puts the data where it belongs and nothing elsewhere, and a read
of that place gets it back, for every alignment and every size. The data have
to end in the address space; the last word may reach around its end. -/
theorem remote_copy_exact (m : Word → Byte) (dest : Word) (data : List Byte)
    (h : dest.toNat + data.length ≤ 2 ^ 32) :
    let mem := ptraceWritedata (fun x => some (m x)) dest data
    Holds mem dest data ∧
      (∀ x : Word, x < dest ∨ dest.toNat + data.length ≤ x.toNat →
        mem x = some (m x)) ∧
      ptraceReaddata mem dest data.length = data := by
  have htotal : ∀ x, (some (m x)).isSome = true := fun _ => rfl
  have hlen : rounded data.length ≤ 2 ^ 32 := by
    unfold rounded
    omega
  have hmem : ptraceWritedata (fun x => some (m x)) dest data =
      write (fun x => some (m x)) dest data :=
    ptraceWritedata_eq hlen (mapped_of_total htotal)
  intro mem
  have hholds : Holds mem dest data := by
    rw [show mem = write _ dest data from hmem]
    exact holds_write (by omega)
  refine ⟨hholds, fun x hx => ?_, ?_⟩
  · rw [show mem = write _ dest data from hmem]
    refine write_of_le ?_
    rw [offset, BitVec.toNat_sub]
    have hlt := x.isLt
    have hdest := dest.isLt
    rcases hx with hx | hx
    · rw [BitVec.lt_def] at hx
      rw [Nat.mod_eq_of_lt (by omega)]
      omega
    · rw [Nat.add_comm, ← Nat.add_sub_assoc (by omega), Nat.add_comm,
        Nat.add_sub_assoc (by omega), Nat.add_mod_left,
        Nat.mod_eq_of_lt (by omega)]
      omega
  · refine ptraceReaddata_eq rfl hlen ?_ hholds
    rw [show mem = write _ dest data from hmem]
    exact (mapped_of_total htotal).write (mapped_of_total htotal)

/-- Five bytes, which are no whole number of words, at an odd address. -/
theorem five_bytes_copied :
    ptraceReaddata (ptraceWritedata (fun _ => some 0xff) 0x1003 [1, 2, 3, 4, 5])
      0x1003 5 = [1, 2, 3, 4, 5] :=
  (remote_copy_exact (fun _ => 0xff) 0x1003 [1, 2, 3, 4, 5] (by decide)).2.2

end Elfupspeed.Elfinject
