import Elfupspeed.Spec.Maps
import Mathlib.Data.List.Find

/-!
# What `get_module_base` finds

The scan goes through the pieces that `fgets` shows, and the pieces of a maps
file are those of its lines. A line that has not got the name has no piece that
has it, whatever its length; the first line that has it is taken where it
starts, and it starts with the address.
-/

namespace Elfupspeed.Elfinject

open Elfupspeed.Lib Elfupspeed.Lib.CString

variable {m : Mapping} {ms : List Mapping} {moduleName piece : List Byte}

/-! ## Lines -/

theorem hexDigits_ne {k n : ℕ} {b : Byte} (h : b ∈ hexDigits k n) :
    ∀ c ∈ [0, byte '\n', byte '-', byte '+', byte 'x', byte 'X'], b ≠ c := by
  obtain ⟨d, hd, rfl⟩ := exists_of_mem_hexDigits h
  exact hexChar_ne hd

theorem isLine_line (m : Mapping) : IsLine m.line := by
  refine ⟨_, rfl, fun b hb => ?_⟩
  have hdigits : ∀ {k n : ℕ}, b ∈ hexDigits k n → b ≠ byte '\n' ∧ b ≠ 0 :=
    fun h => ⟨hexDigits_ne h _ (by simp), hexDigits_ne h _ (by simp)⟩
  simp only [List.mem_append, List.mem_cons] at hb
  rcases hb with hb | rfl | hb | rfl | hb
  · exact hdigits hb
  · decide
  · exact hdigits hb
  · decide
  · exact m.text b (List.mem_append.mpr hb)

theorem ne_zero_of_mem_line {b : Byte} (h : b ∈ m.line) : b ≠ 0 := by
  obtain ⟨s, hline, hs⟩ := isLine_line m
  rw [hline, List.mem_append, List.mem_singleton] at h
  rcases h with h | rfl
  · exact (hs b h).2
  · decide

theorem cstr_piece (h : piece <:+: m.line) : cstr piece = piece :=
  cstr_eq_self fun _ hb => ne_zero_of_mem_line (h.subset hb)

def pieces (m : Mapping) : List (List Byte) := fgetsAll 1024 1023 m.line

theorem pieces_eq (m : Mapping) :
    pieces m = m.line.take 1023 :: fgetsAll 1024 1023 (m.line.drop 1023) := by
  obtain ⟨s, hline, hs⟩ := isLine_line m
  rw [pieces, hline]
  exact fgetsAll_head 1024 (fun b hb => (hs b hb).1) (Nat.zero_lt_succ 1022)

theorem fgetsAll_mapsFile (ms : List Mapping) :
    fgetsAll 1024 1023 (mapsFile ms) = ms.flatMap pieces := by
  have hlines : ∀ line ∈ ms.map Mapping.line, IsLine line := by
    intro line hline
    obtain ⟨m, -, rfl⟩ := List.mem_map.mp hline
    exact isLine_line m
  have hpieces := fgetsAll_lines 1024 hlines
  rw [List.flatMap_map] at hpieces
  exact hpieces

/-! ## The scan -/

theorem find_pieces_of_not_named (h : ¬ moduleName <:+: m.line) :
    ((pieces m).find? fun line => strstr (cstr line) moduleName) = none := by
  rw [List.find?_eq_none]
  intro piece hpiece
  have hinfix := infix_of_mem_fgetsAll hpiece
  rw [cstr_piece hinfix, strstr_iff]
  exact fun hname => h (hname.trans hinfix)

theorem find_pieces_of_shown (h : moduleName <:+: m.line.take 1023) :
    ((pieces m).find? fun line => strstr (cstr line) moduleName) =
      some (m.line.take 1023) := by
  rw [pieces_eq]
  refine List.find?_cons_of_pos ?_
  rw [cstr_piece (List.take_prefix 1023 m.line).isInfix]
  exact strstr_iff.mpr h

theorem strtok_line (m : Mapping) :
    (strtok (cstr (m.line.take 1023)) (byte '-')).map strtoul16 =
      some m.start := by
  have hlen := length_hexDigits 8 m.start.toNat
  obtain ⟨t, hfront⟩ : ∃ t, m.line.take 1023 =
      hexDigits 8 m.start.toNat ++ byte '-' :: t := by
    rw [Mapping.line, List.append_assoc, List.cons_append, List.take_append, hlen,
      List.take_of_length_le (by omega)]
    exact ⟨_, rfl⟩
  have hne : hexDigits 8 m.start.toNat ≠ [] := by
    rw [← List.length_pos_iff, hlen]
    decide
  rw [cstr_piece (List.take_prefix 1023 m.line).isInfix, hfront,
    strtok_append (fun b hb => hexDigits_ne hb _ (by simp)) hne, Option.map_some,
    strtoul16_hexDigits (by omega) m.start.isLt, BitVec.ofNat_toNat,
    BitVec.setWidth_eq]

theorem getModuleBase_of_not_named (h : firstNaming ms moduleName = none) :
    getModuleBase (some (mapsFile ms)) moduleName = some 0 := by
  have hfind : ((ms.flatMap pieces).find? fun line =>
      strstr (cstr line) moduleName) = none := by
    rw [List.find?_flatMap_eq_none_iff]
    intro m hm piece hpiece
    have hname : ¬ moduleName <:+: m.line := by
      simpa using List.find?_eq_none.mp h m hm
    simpa using List.find?_eq_none.mp (find_pieces_of_not_named hname) piece hpiece
  rw [getModuleBase, fgetsAll_mapsFile, hfind]

theorem getModuleBase_of_named (h : firstNaming ms moduleName = some m)
    (hshown : moduleName <:+: m.line.take 1023) :
    getModuleBase (some (mapsFile ms)) moduleName = some (reported m.start) := by
  have hfind : ((ms.flatMap pieces).find? fun line =>
      strstr (cstr line) moduleName) = some (m.line.take 1023) := by
    induction ms with
    | nil => cases h
    | cons m' ms ih =>
        rw [List.flatMap_cons, List.find?_append]
        by_cases hname : moduleName <:+: m'.line
        · have hfirst : firstNaming (m' :: ms) moduleName = some m' :=
            List.find?_cons_of_pos (by simpa using hname)
          obtain rfl : m' = m := Option.some.inj (hfirst.symm.trans h)
          rw [find_pieces_of_shown hshown, Option.some_or]
        · have hrest : firstNaming (m' :: ms) moduleName =
              firstNaming ms moduleName :=
            List.find?_cons_of_neg (by simpa using hname)
          rw [find_pieces_of_not_named hname, Option.none_or]
          exact ih (hrest.symm.trans h)
  have hline := strtok_line m
  rw [getModuleBase, fgetsAll_mapsFile, hfind]
  cases htok : strtok (cstr (m.line.take 1023)) (byte '-') with
  | none =>
      rw [htok] at hline
      cases hline
  | some pch =>
      rw [htok] at hline
      simp only [Option.map_some, htok]
      rw [Option.some.inj hline]
      rfl

/-! ## Lines of any kind -/

theorem frontNumber_line (m : Mapping) : frontNumber (m.line.take 1023) = m.start := by
  have hline := strtok_line m
  rw [cstr_piece (List.take_prefix 1023 m.line).isInfix] at hline
  rw [frontNumber, hline, Option.getD_some]

/-- A line gives what is at the front of its first piece that has the name. -/
theorem find_pieces_eq_given (m : Mapping) (moduleName : List Byte) :
    ((pieces m).find? fun line => strstr (cstr line) moduleName).map frontNumber =
      m.given moduleName := by
  have hsame : ∀ piece ∈ pieces m,
      strstr (cstr piece) moduleName = decide (moduleName <:+: piece) := by
    intro piece hpiece
    rw [cstr_piece (infix_of_mem_fgetsAll hpiece), Bool.eq_iff_iff, strstr_iff,
      decide_eq_true_iff]
  rw [List.find?_congr hsame, pieces_eq, Mapping.given, List.find?_cons]
  by_cases hfirst : moduleName <:+: m.line.take 1023
  · rw [decide_eq_true hfirst, if_pos hfirst, Option.map_some, frontNumber_line]
  · rw [decide_eq_false hfirst, if_neg hfirst]

/-- Whatever the maps file is, `get_module_base` reports the address taken from
its lines. -/
theorem getModuleBase_getD (maps : Option (List Mapping)) (moduleName : List Byte) :
    (getModuleBase (maps.map mapsFile) moduleName).getD 0 =
      taken maps moduleName := by
  cases maps with
  | none => rfl
  | some ms =>
      have hgiven : ((ms.flatMap pieces).find? fun line =>
          strstr (cstr line) moduleName).map frontNumber =
            ms.findSome? fun m => m.given moduleName := by
        rw [List.find?_flatMap, List.map_findSome?]
        exact congrArg (List.findSome? · ms)
          (funext fun m => find_pieces_eq_given m moduleName)
      rw [Option.map_some, getModuleBase, fgetsAll_mapsFile, taken, Option.bind_some,
        ← hgiven]
      cases hfind : (ms.flatMap pieces).find? fun line =>
          strstr (cstr line) moduleName with
      | none => rfl
      | some piece =>
          obtain ⟨m, -, hpiece⟩ := List.mem_flatMap.mp (List.mem_of_find?_eq_some hfind)
          simp only [cstr_piece (infix_of_mem_fgetsAll hpiece), Option.map_some,
            Option.getD_some, frontNumber]
          cases strtok piece (byte '-') with
          | none => rfl
          | some pch => rfl

/-! ## Lines that show the name at their front -/

/-- The answer is the start of the first mapping whose line has the name in it,
and 0 if no line has. The other lines may be of any length; of the one that has
the name, it has to be in the part that one `fgets` shows. -/
theorem getModuleBase_mapsFile (ms : List Mapping) (moduleName : List Byte)
    (hshown : ∀ m, firstNaming ms moduleName = some m →
      moduleName <:+: m.line.take 1023) :
    getModuleBase (some (mapsFile ms)) moduleName =
      some (((firstNaming ms moduleName).map fun m => reported m.start).getD 0) := by
  cases hfirst : firstNaming ms moduleName with
  | none => exact getModuleBase_of_not_named hfirst
  | some m => exact getModuleBase_of_named hfirst (hshown m hfirst)

/-- A mapping at `start` of the file at `path`. -/
def mapped (start : Word) (path : String)
    (h : ∀ b ∈ ofString path, b ≠ byte '\n' ∧ b ≠ 0) : Mapping :=
  ⟨start, start + 0x1000, [], ofString path, h⟩

/-- A library is mapped behind its own backup. -/
def backupFirst : List Mapping :=
  [mapped 0x10000000 "/a.so.bak" (by decide), mapped 0x20000000 "/a.so" (by decide)]

theorem backup_found :
    getModuleBase (some (mapsFile backupFirst)) (ofString "/a.so") =
      some 0x10000000 := by
  refine (getModuleBase_mapsFile backupFirst (ofString "/a.so")
    fun m hm => ?_).trans ?_
  · have hfirst : firstNaming backupFirst (ofString "/a.so") =
        some (mapped 0x10000000 "/a.so.bak" (by decide)) :=
      List.find?_cons_of_pos (by decide +kernel)
    rw [← Option.some.inj (hfirst.symm.trans hm)]
    decide +kernel
  · decide +kernel

/-- A path that has the name in it changes the answer. -/
theorem base_of_other_module :
    ¬ ∀ (ms : List Mapping) (moduleName : List Byte),
      getModuleBase (some (mapsFile ms)) moduleName =
        some ((loadAddress ms moduleName).getD 0) := by
  intro h
  have hbackup := h backupFirst (ofString "/a.so")
  revert hbackup
  decide +kernel

end Elfupspeed.Elfinject
