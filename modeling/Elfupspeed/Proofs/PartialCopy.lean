import Elfupspeed.Proofs.RemoteCopy

/-!
# Copies where memory is missing

Neither copy looks at what `ptrace` answers, and both return 0. A word that is
not mapped whole is then left as it is, or read as -1. In the middle of a copy
this is always noticed in the bytes; in the rest of fewer than four bytes at
its end it need not be, as the word reaches up to three bytes further than the
copy does. So a copy is right where all its words are mapped, and otherwise
where the rest alone is not and happens to be there already, or to be what a
failed `PTRACE_PEEKTEXT` looks like.
-/

namespace Elfupspeed.Elfinject

open Elfupspeed.Lib Elfupspeed.Lib.Memory

variable {mem : Mem} {a val : Word} {data xs ys : List Byte} {size : ℕ}

/-- The size of the words that are copied as they are. -/
def whole (size : ℕ) : ℕ := 4 * (size / 4)

theorem whole_le (size : ℕ) : whole size ≤ size := by
  unfold whole
  omega

theorem length_take_whole (data : List Byte) :
    (data.take (whole data.length)).length = whole data.length := by
  rw [List.length_take, Nat.min_eq_left (whole_le data.length)]

/-! ## What the law asks for -/

/-- A copy that returns 0 has copied, and it does return 0 where the bytes are
mapped. -/
structure ReportsFailure (mem : Mem) (dest : Word) (data : List Byte) : Prop where
  written : (ptraceWritedataCall mem dest data).1 = 0 →
    Holds (ptraceWritedataCall mem dest data).2 dest data
  read : (ptraceReaddataCall mem dest data.length).1 = 0 →
    (ptraceReaddataCall mem dest data.length).2.length = data.length ∧
      Holds mem dest (ptraceReaddataCall mem dest data.length).2
  succeeds : Mapped mem dest data.length →
    (ptraceWritedataCall mem dest data).1 = 0 ∧
      (ptraceReaddataCall mem dest data.length).1 = 0

/-- Every word is mapped, or only the last one is not and the target has its
bytes already. -/
def WritesThrough (mem : Mem) (dest : Word) (data : List Byte) : Prop :=
  Mapped mem dest (rounded data.length) ∨
    Mapped mem dest (whole data.length) ∧
      Holds mem (dest + BitVec.ofNat 32 (whole data.length))
        (data.drop (whole data.length))

/-- Every word is mapped, or only the last one is not and its bytes are those of
-1. -/
def ReadsThrough (mem : Mem) (src : Word) (size : ℕ) : Prop :=
  Mapped mem src (rounded size) ∨
    Mapped mem src (whole size) ∧
      Holds mem (src + BitVec.ofNat 32 (whole size))
        (List.replicate (size % 4) 0xff)

/-! ## Writes -/

theorem pokeText_of_not_mapped (h : ¬ Mapped mem a 4) (val : Word) :
    pokeText mem a val = mem := by
  rw [pokeText, if_neg fun hword => h (mapped_of_wordAt hword)]

theorem ptraceWritedata_append (h : xs.length % 4 = 0) :
    ptraceWritedata mem a (xs ++ ys) =
      ptraceWritedata (ptraceWritedata mem a xs)
        (a + BitVec.ofNat 32 xs.length) ys := by
  induction mem, a, xs using ptraceWritedata.induct with
  | case1 mem a b₀ b₁ b₂ b₃ xs ih =>
      have hxs : xs.length % 4 = 0 := by
        simp only [List.length_cons] at h
        omega
      have haddr : a + BitVec.ofNat 32 (b₀ :: b₁ :: b₂ :: b₃ :: xs).length =
          a + 4 + BitVec.ofNat 32 xs.length := by
        rw [show (b₀ :: b₁ :: b₂ :: b₃ :: xs).length = 4 + xs.length by
          simp only [List.length_cons]
          omega, BitVec.ofNat_add, ← BitVec.add_assoc]
        rfl
      rw [haddr, ptraceWritedata, ← ih hxs]
      simp only [List.cons_append, ptraceWritedata]
  | case2 mem a => simp [ptraceWritedata]
  | case3 mem a xs hnot hne =>
      have hlt := length_lt_four hnot
      have hpos : 0 < xs.length := List.length_pos_iff.mpr hne
      omega

theorem ptraceWritedata_rest_of_not_mapped (h : ¬ Mapped mem a 4)
    (hlt : data.length < 4) : ptraceWritedata mem a data = mem := by
  match data, hlt with
  | [], _ => rw [ptraceWritedata]
  | [_], _ | [_, _], _ | [_, _, _], _ =>
      simp only [ptraceWritedata, pokeText_of_not_mapped h]
  | _ :: _ :: _ :: _ :: _, hlt =>
      simp only [List.length_cons] at hlt
      omega

theorem mapped_of_holds_written (h : Holds (ptraceWritedata mem a data) a data) :
    Mapped mem a data.length := by
  intro x hx
  rw [← isSome_ptraceWritedata mem a data x]
  exact h.mapped x hx

/-- The rest of a write whose last word is not mapped is not written. -/
theorem ptraceWritedata_of_rest_not_mapped (hlen : rounded data.length ≤ 2 ^ 32)
    (hwhole : Mapped mem a (whole data.length))
    (hrest : ¬ Mapped mem a (rounded data.length)) :
    ptraceWritedata mem a data = write mem a (data.take (whole data.length)) := by
  have htake := length_take_whole data
  have hround : rounded (whole data.length) = whole data.length := by
    unfold rounded whole
    omega
  have hfront : ptraceWritedata mem a (data.take (whole data.length)) =
      write mem a (data.take (whole data.length)) := by
    refine ptraceWritedata_eq ?_ ?_
    · rw [htake, hround]
      exact ((whole_le data.length).trans (le_rounded data.length)).trans hlen
    · rwa [htake, hround]
  have hsplit : rounded data.length = whole data.length + 4 := by
    by_contra hne
    have heq : rounded data.length = whole data.length := by
      unfold rounded whole at hne ⊢
      omega
    exact hrest (heq ▸ hwhole)
  have hsome : ∀ x, (write mem a (data.take (whole data.length)) x).isSome =
      (mem x).isSome := fun x => isSome_write (by rwa [htake])
  have hword : ¬ Mapped (write mem a (data.take (whole data.length)))
      (a + BitVec.ofNat 32 (whole data.length)) 4 := by
    intro h
    refine hrest ?_
    rw [hsplit, mapped_add_iff (by omega)]
    exact ⟨hwhole, fun x hx => (hsome x).symm.trans (h x hx)⟩
  have hlt : (data.drop (whole data.length)).length < 4 := by
    rw [List.length_drop]
    unfold whole
    omega
  calc ptraceWritedata mem a data
      = ptraceWritedata mem a
          (data.take (whole data.length) ++ data.drop (whole data.length)) := by
        rw [List.take_append_drop]
    _ = ptraceWritedata (write mem a (data.take (whole data.length)))
          (a + BitVec.ofNat 32 (whole data.length))
          (data.drop (whole data.length)) := by
        rw [ptraceWritedata_append (by rw [htake]; unfold whole; omega), hfront,
          htake]
    _ = write mem a (data.take (whole data.length)) :=
        ptraceWritedata_rest_of_not_mapped hword hlt

theorem holds_ptraceWritedata_iff (hlen : rounded data.length ≤ 2 ^ 32) :
    Holds (ptraceWritedata mem a data) a data ↔ WritesThrough mem a data := by
  have hle := le_rounded data.length
  have hwhole := whole_le data.length
  have htake := length_take_whole data
  by_cases hall : Mapped mem a (rounded data.length)
  · rw [ptraceWritedata_eq hlen hall]
    exact ⟨fun _ => .inl hall, fun _ => holds_write (by omega)⟩
  · have hrest : ∀ hfront : Mapped mem a (whole data.length),
        (Holds (ptraceWritedata mem a data) a data ↔
          Holds mem (a + BitVec.ofNat 32 (whole data.length))
            (data.drop (whole data.length))) := by
      intro hfront
      rw [ptraceWritedata_of_rest_not_mapped hlen hfront hall]
      have hsplit : Holds (write mem a (data.take (whole data.length))) a
          (data.take (whole data.length) ++ data.drop (whole data.length)) ↔ _ :=
        holds_write_front_iff (by rw [List.take_append_drop]; omega)
      rwa [List.take_append_drop, htake] at hsplit
    constructor
    · intro h
      have hfront : Mapped mem a (whole data.length) :=
        (mapped_of_holds_written h).le hwhole
      exact .inr ⟨hfront, (hrest hfront).mp h⟩
    · rintro (h | ⟨hfront, h⟩)
      · exact absurd h hall
      · exact (hrest hfront).mpr h

/-! ## Reads -/

theorem length_ptraceReaddata (mem : Mem) (a : Word) (size : ℕ) :
    (ptraceReaddata mem a size).length = size := by
  induction a, size using ptraceReaddata.induct with
  | case1 a size ih =>
      rw [ptraceReaddata, List.length_append, ih, length_bytesOf]
      simp only [List.length_singleton]
      omega
  | case2 a size hnot =>
      have hlt := lt_four hnot
      rw [ptraceReaddata]
      · rw [List.length_take, length_bytesOf, List.length_singleton]
        omega
      · exact hnot

theorem bytesOf_peekText_of_not_mapped (h : ¬ Mapped mem a 4) :
    bytesOf [peekText mem a] = List.replicate 4 0xff := by
  have hword : wordAt mem a = none := by
    rw [← Option.not_isSome_iff_eq_none]
    exact fun hsome => h (mapped_of_wordAt hsome)
  rw [peekText, hword]
  rfl

theorem holds_peekText_iff :
    Holds mem a (bytesOf [peekText mem a]) ↔ Mapped mem a 4 := by
  refine ⟨fun h => ?_, holds_peekText⟩
  have hmapped := h.mapped
  rwa [length_bytesOf, List.length_singleton] at hmapped

theorem readsThrough_add (hlen : rounded (4 + size) ≤ 2 ^ 32) :
    ReadsThrough mem a (4 + size) ↔
      Mapped mem a 4 ∧ ReadsThrough mem (a + 4) size := by
  have hwhole : whole (4 + size) = 4 + whole size := by
    unfold whole
    omega
  have hle : whole size ≤ rounded size := by
    unfold whole rounded
    omega
  rw [rounded_add] at hlen
  unfold ReadsThrough
  rw [rounded_add, hwhole, mapped_add_iff hlen, mapped_add_iff (by omega),
    Nat.add_mod_left, BitVec.ofNat_add, ← BitVec.add_assoc, and_assoc,
    ← and_or_left]
  rfl

theorem readsThrough_rest (hlt : size < 4) :
    ReadsThrough mem a size ↔
      Mapped mem a (rounded size) ∨ Holds mem a (List.replicate size 0xff) := by
  have hwhole : whole size = 0 := by
    unfold whole
    omega
  have hzero : Mapped mem a 0 := fun x hx => absurd hx (Nat.not_lt_zero _)
  unfold ReadsThrough
  rw [hwhole, Nat.mod_eq_of_lt hlt, and_iff_right hzero]
  simp only [BitVec.ofNat_eq_ofNat, BitVec.add_zero]

theorem holds_ptraceReaddata_iff (hlen : rounded size ≤ 2 ^ 32) :
    Holds mem a (ptraceReaddata mem a size) ↔ ReadsThrough mem a size := by
  induction a, size using ptraceReaddata.induct with
  | case1 a size ih =>
      have hsucc : size.succ.succ.succ.succ = 4 + size := Nat.add_comm size 4
      rw [hsucc] at hlen ⊢
      rw [readsThrough_add hlen, ← ih (by rw [rounded_add] at hlen; omega),
        ← holds_peekText_iff, ← hsucc, ptraceReaddata, holds_append,
        length_bytesOf]
      rfl
  | case2 a size hnot =>
      have hlt := lt_four hnot
      rw [readsThrough_rest hlt, ptraceReaddata]
      · by_cases hword : Mapped mem a 4
        · have hle : rounded size ≤ 4 := by
            unfold rounded
            omega
          exact ⟨fun _ => .inl (hword.le hle),
            fun _ => (holds_peekText hword).take size⟩
        · rw [bytesOf_peekText_of_not_mapped hword, List.take_replicate,
            Nat.min_eq_left hlt.le]
          refine ⟨.inr, fun h => h.elim (fun hmapped => ?_) id⟩
          rcases Nat.eq_zero_or_pos size with rfl | hpos
          · exact fun i hi => absurd hi (Nat.not_lt_zero i)
          · rw [rounded_rest hpos hlt] at hmapped
            exact absurd hmapped hword
      · exact hnot

/-! ## The law -/

/-- Neither copy reports a word it could not reach, so the law holds exactly
where that does not matter. -/
theorem reportsFailure_iff (mem : Mem) (dest : Word) (data : List Byte)
    (h : data.length < 2 ^ 32) :
    ReportsFailure mem dest data ↔
      WritesThrough mem dest data ∧ ReadsThrough mem dest data.length := by
  have hlen : rounded data.length ≤ 2 ^ 32 := by
    unfold rounded
    omega
  rw [← holds_ptraceWritedata_iff hlen, ← holds_ptraceReaddata_iff hlen]
  refine ⟨fun hlaw => ⟨hlaw.written rfl, (hlaw.read rfl).2⟩, fun h => ?_⟩
  obtain ⟨hwritten, hread⟩ := h
  exact {
    written := fun _ => hwritten
    read := fun _ => ⟨length_ptraceReaddata mem dest data.length, hread⟩
    succeeds := fun _ => ⟨rfl, rfl⟩ }

/-- One page, at 0x1000. -/
def onePage : Mem := fun x => if x >>> 12 = 1 then some 0 else none

theorem mapped_onePage : Mapped onePage 0x1000 (rounded 5) := by
  have hfront : Mapped onePage 0x1000 4 := mapped_of_wordAt (by decide)
  have hrest : Mapped onePage (0x1000 + 4) 4 := mapped_of_wordAt (by decide)
  exact (mapped_add_iff (by decide)).mpr ⟨hfront, hrest⟩

/-- Five bytes at the beginning of the page. -/
theorem five_bytes_reported : ReportsFailure onePage 0x1000 [1, 2, 3, 4, 5] :=
  (reportsFailure_iff onePage 0x1000 [1, 2, 3, 4, 5] (by decide)).mpr
    ⟨.inl mapped_onePage, .inl mapped_onePage⟩

/-- The last three bytes of the page, whose word ends on the next one: nothing
is written, and 0 is returned. -/
theorem end_of_page_not_reported :
    Mapped onePage 0x1ffd 3 ∧ ¬ ReportsFailure onePage 0x1ffd [1, 2, 3] := by
  constructor
  · have hword : Mapped onePage 0x1ffc (1 + 3) := mapped_of_wordAt (by decide)
    exact hword.shift (by omega)
  · intro h
    have hbyte := h.written rfl 0 (by decide)
    exact absurd hbyte (by decide)

end Elfupspeed.Elfinject
