import Mathlib.Algebra.Ring.Nat
import Mathlib.Data.List.Basic

/-!
# The excluded inodes

`dump/main.c` keeps the inodes that are not to be dumped in a bitmap that grows. `do_exclude_ino`
sets a bit and makes the bitmap larger where the bit lies behind its end; sizes are unsigned
numbers of 32 bits, and a byte is a signed `char` that becomes an `int` before a bit of it is
looked at. What fresh memory holds is not known: it is an argument of the functions. They have no
result where they access the bitmap outside of it; that there is no memory left is not modelled.

* `ExcludeMap.Holds` says which inodes are in a bitmap, and how long it is.
* `growMap_holds` is the step of growing, `doExcludeIno_holds` that of a call.
* `excluded_exact` is the main theorem.
-/

namespace DumpRestore

/-! ## The functions -/

/-- `iexclude_bitmap` and `iexclude_bitmap_bytes`. -/
structure ExcludeMap where
  iexcludeBitmap : Option (List (BitVec 8))
  iexcludeBitmapBytes : UInt32

/-- The map at the start of the program. -/
def ExcludeMap.empty : ExcludeMap := ⟨none, 0⟩

/-- `1 << (ino % 8)`. -/
def inoBit (ino : UInt32) : BitVec 32 := 1#32 <<< (ino % 8).toNat

/-- `exclude_ino`. -/
def excludeIno (m : ExcludeMap) (ino : UInt32) : Option Bool :=
  match m.iexcludeBitmap with
  | none => some false
  | some bitmap =>
    if m.iexcludeBitmapBytes > ino / 8 then
      bitmap[(ino / 8).toNat]?.map fun byte =>
        let idx : BitVec 32 := byte.signExtend 32
        idx &&& inoBit ino != 0
    else some false

/-- `bitmap[j] = 0` for `n` bytes from `j` on. -/
def clearBytes (bitmap : List (BitVec 8)) (j : ℕ) : ℕ → Option (List (BitVec 8))
  | 0 => some bitmap
  | n + 1 => if j < bitmap.length then clearBytes (bitmap.set j 0) (j + 1) n else none

/-- `malloc`. -/
def malloc (fresh : ℕ → BitVec 8) (size : UInt32) : List (BitVec 8) :=
  (List.range size.toNat).map fresh

/-- `realloc`. -/
def realloc (fresh : ℕ → BitVec 8) (old : List (BitVec 8)) (size : UInt32) : List (BitVec 8) :=
  (List.range size.toNat).map fun i => old.getD i (fresh i)

/-- The new size of the bitmap where it is too small for `ino`. -/
def grownBytes (bytes ino : UInt32) : UInt32 :=
  if bytes = 0 then 2 * (ino / 8 + 1) else bytes * ((ino / 8 + 1) / bytes + 1)

/-- The part of `do_exclude_ino` that makes the bitmap large enough. -/
def growMap (fresh : ℕ → BitVec 8) (m : ExcludeMap) (ino : UInt32) : Option ExcludeMap :=
  if ino / 8 + 1 > m.iexcludeBitmapBytes then
    let bytes := grownBytes m.iexcludeBitmapBytes ino
    let bitmap :=
      if m.iexcludeBitmapBytes = 0 then malloc fresh bytes
      else realloc fresh (m.iexcludeBitmap.getD []) bytes
    let oldsize := m.iexcludeBitmapBytes.toNat
    (clearBytes bitmap oldsize (bytes.toNat - oldsize)).map fun bitmap => ⟨some bitmap, bytes⟩
  else some m

/-- `iexclude_bitmap[ino / 8] |= 1 << (ino % 8)`. -/
def setIno (m : ExcludeMap) (ino : UInt32) : Option ExcludeMap :=
  match m.iexcludeBitmap with
  | none => none
  | some bitmap => bitmap[(ino / 8).toNat]?.map fun byte =>
    let byte : BitVec 8 := (byte.signExtend 32 ||| inoBit ino).setWidth 8
    { m with iexcludeBitmap := some (bitmap.set (ino / 8).toNat byte) }

/-- `do_exclude_ino`. -/
def doExcludeIno (m : ExcludeMap) (fresh : ℕ → BitVec 8) (ino : UInt32) : Option ExcludeMap := do
  if ← excludeIno m ino then return m
  let m ← growMap fresh m ino
  setIno m ino

/-- Calls of `do_exclude_ino`, one after the other. -/
def excludeRun : ExcludeMap → List ((ℕ → BitVec 8) × UInt32) → Option ExcludeMap
  | m, [] => some m
  | m, (fresh, ino) :: calls => do excludeRun (← doExcludeIno m fresh ino) calls

/-! ## Bits -/

section Bits

variable {ino y : UInt32} {byte : BitVec 8}

theorem toNat_mod_eight (ino : UInt32) : (ino % 8).toNat = ino.toNat % 8 := by
  rw [UInt32.toNat_mod]
  rfl

theorem toNat_div_eight (ino : UInt32) : (ino / 8).toNat = ino.toNat / 8 := by
  rw [UInt32.toNat_div]
  rfl

theorem toNat_div_add_one (ino : UInt32) : (ino / 8 + 1).toNat = ino.toNat / 8 + 1 := by
  have hino : ino.toNat < 2 ^ 32 := ino.toNat_lt
  rw [UInt32.toNat_add, toNat_div_eight]
  exact Nat.mod_eq_of_lt (by change ino.toNat / 8 + 1 < 2 ^ 32; omega)

theorem inoBit_eq (ino : UInt32) : inoBit ino = BitVec.twoPow 32 (ino.toNat % 8) := by
  rw [inoBit, toNat_mod_eight, BitVec.twoPow]

/-- The sign of the byte does not matter. -/
theorem and_inoBit (byte : BitVec 8) (ino : UInt32) :
    (byte.signExtend 32 &&& inoBit ino != 0) = byte.getLsbD (ino.toNat % 8) := by
  have hlt : ino.toNat % 8 < 8 := Nat.mod_lt _ (by decide)
  have hbit : (byte.signExtend 32).getLsbD (ino.toNat % 8) = byte.getLsbD (ino.toNat % 8) := by
    rw [BitVec.getLsbD_signExtend, if_pos hlt]
    simp
    omega
  have hpow : BitVec.twoPow 32 (ino.toNat % 8) ≠ 0#32 := fun hzero => by
    have := congrArg (BitVec.getLsbD · (ino.toNat % 8)) hzero
    simp at this
    omega
  rw [inoBit_eq, BitVec.and_twoPow, hbit]
  cases byte.getLsbD (ino.toNat % 8) with
  | false => simp
  | true => simpa using hpow

theorem getLsbD_or_inoBit (byte : BitVec 8) (ino : UInt32) {k : ℕ} (hk : k < 8) :
    ((byte.signExtend 32 ||| inoBit ino).setWidth 8).getLsbD k =
      (byte.getLsbD k || decide (ino.toNat % 8 = k)) := by
  have hbyte : (byte.signExtend 32).getLsbD k = byte.getLsbD k := by
    rw [BitVec.getLsbD_signExtend, if_pos hk]
    simp
    omega
  have hwide : ino.toNat % 8 < 32 := by omega
  rw [inoBit_eq, BitVec.getLsbD_setWidth, BitVec.getLsbD_or, hbyte, BitVec.getLsbD_twoPow]
  simp [hk, hwide]

end Bits

/-! ## The size -/

section Size

variable {bytes ino : UInt32}

/-- **The size** is not more than `UINT32_MAX`: it is what it would be without a bound on numbers,
and not more than `2 ^ 30`. -/
theorem toNat_grownBytes (hgrow : bytes < ino / 8 + 1) :
    (grownBytes bytes ino).toNat =
      (if bytes = 0 then 2 * (ino.toNat / 8 + 1)
        else bytes.toNat * ((ino.toNat / 8 + 1) / bytes.toNat + 1)) ∧
    ino.toNat / 8 < (grownBytes bytes ino).toNat ∧ bytes.toNat ≤ (grownBytes bytes ino).toNat ∧
    (grownBytes bytes ino).toNat ≤ 2 ^ 30 := by
  have hino : ino.toNat < 2 ^ 32 := ino.toNat_lt
  have hbyte := toNat_div_add_one ino
  have hlt : bytes.toNat < ino.toNat / 8 + 1 := hbyte ▸ UInt32.lt_iff_toNat_lt.mp hgrow
  rw [grownBytes]
  split
  case isTrue hzero =>
    have hsize : (2 * (ino / 8 + 1)).toNat = 2 * (ino.toNat / 8 + 1) := by
      rw [UInt32.toNat_mul, hbyte]
      exact Nat.mod_eq_of_lt (by change 2 * (ino.toNat / 8 + 1) < 2 ^ 32; omega)
    rw [hsize]
    omega
  case isFalse hpos =>
    have hne : 0 < bytes.toNat := Nat.pos_of_ne_zero fun h => hpos (UInt32.toNat_inj.mp h)
    set q := (ino.toNat / 8 + 1) / bytes.toNat with hq
    -- The old size times the quotient is not more than what is needed.
    have hmul : bytes.toNat * q ≤ ino.toNat / 8 + 1 := Nat.mul_div_le _ _
    have hmore : ino.toNat / 8 + 1 < bytes.toNat * (q + 1) := Nat.lt_mul_div_succ _ hne
    have hexpand : bytes.toNat * (q + 1) = bytes.toNat * q + bytes.toNat := Nat.mul_succ _ _
    have hquot : ((ino / 8 + 1) / bytes + 1).toNat = q + 1 := by
      rw [UInt32.toNat_add, UInt32.toNat_div, hbyte, ← hq]
      have hle : q ≤ ino.toNat / 8 + 1 := Nat.div_le_self _ _
      exact Nat.mod_eq_of_lt (by change q + 1 < 2 ^ 32; omega)
    have hsize : (bytes * ((ino / 8 + 1) / bytes + 1)).toNat = bytes.toNat * (q + 1) := by
      rw [UInt32.toNat_mul, hquot]
      exact Nat.mod_eq_of_lt (by omega)
    rw [hsize]
    omega

end Size

/-! ## The map -/

section Maps

variable {m : ExcludeMap} {ms : List UInt32}

/-- The bytes of the bitmap. -/
def ExcludeMap.area (m : ExcludeMap) : List (BitVec 8) := m.iexcludeBitmap.getD []

/-- The bit for an inode. -/
def inoBitOf (area : List (BitVec 8)) (ino : UInt32) : Bool :=
  area[ino.toNat / 8]?.any fun byte => byte.getLsbD (ino.toNat % 8)

/-- A map has the inodes of a list, and as many bytes as it says. -/
structure ExcludeMap.Holds (m : ExcludeMap) (ms : List UInt32) : Prop where
  sized : m.area.length = m.iexcludeBitmapBytes.toNat
  small : m.iexcludeBitmapBytes.toNat ≤ 2 ^ 30
  bits : ∀ y, inoBitOf m.area y = true ↔ y ∈ ms

theorem holds_empty : ExcludeMap.empty.Holds [] :=
  ⟨rfl, by decide, fun y => by simp [ExcludeMap.empty, ExcludeMap.area, inoBitOf]⟩

theorem excludeIno_eq (h : m.Holds ms) (y : UInt32) : excludeIno m y = some (decide (y ∈ ms)) := by
  have hbits : inoBitOf m.area y = decide (y ∈ ms) := by
    rw [Bool.eq_iff_iff, h.bits, decide_eq_true_iff]
  have hsized := h.sized
  rw [← hbits, excludeIno]
  cases hm : m.iexcludeBitmap with
  | none => simp [ExcludeMap.area, hm, inoBitOf]
  | some bitmap =>
    have harea : m.area = bitmap := by rw [ExcludeMap.area, hm, Option.getD_some]
    rw [harea] at hsized ⊢
    dsimp only
    rw [toNat_div_eight]
    split
    case isTrue hlt =>
      have hidx : y.toNat / 8 < bitmap.length := by
        rw [hsized, ← toNat_div_eight]
        exact UInt32.lt_iff_toNat_lt.mp hlt
      rw [inoBitOf, List.getElem?_eq_getElem hidx, Option.map_some, and_inoBit, Option.any_some]
    case isFalse hge =>
      have hidx : bitmap.length ≤ y.toNat / 8 := by
        rw [hsized, ← toNat_div_eight]
        exact Nat.le_of_not_lt fun h => hge (UInt32.lt_iff_toNat_lt.mpr h)
      rw [inoBitOf, List.getElem?_eq_none hidx, Option.any_none]

/-- The loop that clears the new end of the bitmap. -/
theorem clearBytes_eq {bitmap : List (BitVec 8)} {j n : ℕ} (hlen : j + n = bitmap.length) :
    clearBytes bitmap j n = some (bitmap.take j ++ List.replicate n 0) := by
  induction n generalizing bitmap j with
  | zero =>
    rw [clearBytes, List.replicate_zero, List.append_nil, List.take_of_length_le (by omega)]
  | succ n ih =>
    have hj : j < bitmap.length := by omega
    rw [clearBytes, if_pos hj, ih (by rw [List.length_set]; omega), List.take_set,
      List.take_succ_eq_append_getElem hj,
      List.set_append_right _ _ (by rw [List.length_take]; omega),
      List.length_take_of_le (Nat.le_of_lt hj), Nat.sub_self, List.set_cons_zero, List.append_assoc,
      List.singleton_append, ← List.replicate_succ]

theorem take_realloc (fresh : ℕ → BitVec 8) (old : List (BitVec 8)) {size : UInt32}
    (hle : old.length ≤ size.toNat) : (realloc fresh old size).take old.length = old := by
  refine List.ext_getElem? fun i => ?_
  rw [List.getElem?_take]
  split
  case isTrue hi =>
    rw [realloc, List.getElem?_map, List.getElem?_range (by omega), Option.map_some,
      List.getD_eq_getElem?_getD, List.getElem?_eq_getElem hi, Option.getD_some]
  case isFalse hi => rw [List.getElem?_eq_none (Nat.le_of_not_lt hi)]

/-- Bytes of zero at the end. -/
theorem inoBitOf_append_replicate (area : List (BitVec 8)) (n : ℕ) (y : UInt32) :
    inoBitOf (area ++ List.replicate n 0) y = inoBitOf area y := by
  rw [inoBitOf, inoBitOf]
  by_cases hlt : y.toNat / 8 < area.length
  · rw [List.getElem?_append_left hlt]
  · rw [List.getElem?_append_right (Nat.le_of_not_lt hlt),
      List.getElem?_eq_none (Nat.le_of_not_lt hlt), List.getElem?_replicate]
    split <;> simp

/-- **Growing** makes room for an inode, and keeps the others. -/
theorem growMap_holds (h : m.Holds ms) (fresh : ℕ → BitVec 8) (ino : UInt32) :
    ∃ m', growMap fresh m ino = some m' ∧ m'.Holds ms ∧
      ino.toNat / 8 < m'.iexcludeBitmapBytes.toNat := by
  rw [growMap]
  split
  case isTrue hgrow =>
    obtain ⟨-, hroom, hle, hsmall⟩ := toNat_grownBytes hgrow
    dsimp only
    set bytes := grownBytes m.iexcludeBitmapBytes ino
    set bitmap := if m.iexcludeBitmapBytes = 0 then malloc fresh bytes
      else realloc fresh (m.iexcludeBitmap.getD []) bytes with hbitmap
    have hlength : bitmap.length = bytes.toNat := by
      rw [hbitmap]
      split <;> simp [malloc, realloc]
    have hold : bitmap.take m.iexcludeBitmapBytes.toNat = m.area := by
      rw [hbitmap]
      split
      case isTrue hzero =>
        have hnil := h.sized
        rw [hzero] at hnil ⊢
        rw [List.eq_nil_of_length_eq_zero hnil]
        rfl
      case isFalse =>
        rw [← h.sized] at hle ⊢
        exact take_realloc fresh m.area hle
    rw [clearBytes_eq (by omega), hold]
    refine ⟨_, rfl, ⟨?_, hsmall, fun y => ?_⟩, hroom⟩
    · have hsized := h.sized
      simp only [ExcludeMap.area, Option.getD_some] at hsized ⊢
      rw [List.length_append, List.length_replicate]
      omega
    · rw [ExcludeMap.area, Option.getD_some, inoBitOf_append_replicate, h.bits]
  case isFalse hfits =>
    refine ⟨m, rfl, h, ?_⟩
    have hle := Nat.le_of_not_lt fun hlt => hfits (UInt32.lt_iff_toNat_lt.mpr hlt)
    rw [toNat_div_add_one] at hle
    omega

/-- A bit is set. -/
theorem setIno_holds (h : m.Holds ms) {ino : UInt32}
    (hroom : ino.toNat / 8 < m.iexcludeBitmapBytes.toNat) :
    ∃ m', setIno m ino = some m' ∧ m'.Holds (ino :: ms) := by
  have hidx : ino.toNat / 8 < m.area.length := h.sized ▸ hroom
  rw [setIno]
  cases hm : m.iexcludeBitmap with
  | none => simp [ExcludeMap.area, hm] at hidx
  | some bitmap =>
    have harea : m.area = bitmap := by rw [ExcludeMap.area, hm, Option.getD_some]
    rw [harea] at hidx
    dsimp only
    rw [toNat_div_eight, List.getElem?_eq_getElem hidx, Option.map_some]
    refine ⟨_, rfl, ⟨?_, h.small, fun y => ?_⟩⟩
    · rw [ExcludeMap.area, Option.getD_some, List.length_set]
      exact harea ▸ h.sized
    · have hbit := h.bits y
      rw [harea, inoBitOf] at hbit
      rw [ExcludeMap.area, Option.getD_some, inoBitOf, List.mem_cons, ← hbit, List.getElem?_set]
      by_cases hbyte : ino.toNat / 8 = y.toNat / 8
      · have hy : y.toNat % 8 < 8 := Nat.mod_lt _ (by decide)
        have hsame : ino.toNat % 8 = y.toNat % 8 ↔ y = ino := by
          rw [← UInt32.toNat_inj]
          omega
        rw [if_pos hbyte, if_pos hidx, Option.any_some, getLsbD_or_inoBit _ _ hy, ← hbyte,
          List.getElem?_eq_getElem hidx, Option.any_some, Bool.or_eq_true, decide_eq_true_iff,
          hsame, or_comm]
      · have hne : y ≠ ino := fun heq => hbyte (heq ▸ rfl)
        rw [if_neg hbyte, or_iff_right hne]

/-- **A call** of `do_exclude_ino`. -/
theorem doExcludeIno_holds (h : m.Holds ms) (fresh : ℕ → BitVec 8) (ino : UInt32) :
    ∃ m', doExcludeIno m fresh ino = some m' ∧ m'.Holds (ino :: ms) := by
  rw [doExcludeIno, excludeIno_eq h]
  by_cases hmem : ino ∈ ms
  · refine ⟨m, by simp [hmem], h.sized, h.small, fun y => ?_⟩
    rw [h.bits, List.mem_cons]
    exact ⟨.inr, fun hy => hy.elim (fun heq => heq ▸ hmem) id⟩
  · obtain ⟨m', hm', h', hroom⟩ := growMap_holds h fresh ino
    obtain ⟨m'', hm'', h''⟩ := setIno_holds h' hroom
    exact ⟨m'', by simp [hmem, hm', hm''], h''⟩

/-- Any sequence of calls. -/
theorem excludeRun_holds (h : m.Holds ms) (calls : List ((ℕ → BitVec 8) × UInt32)) :
    ∃ m', excludeRun m calls = some m' ∧ m'.Holds ((calls.map Prod.snd).reverse ++ ms) := by
  induction calls generalizing m ms with
  | nil => exact ⟨m, rfl, h⟩
  | cons call calls ih =>
    obtain ⟨fresh, ino⟩ := call
    obtain ⟨m₁, hm₁, h₁⟩ := doExcludeIno_holds h fresh ino
    obtain ⟨m₂, hm₂, h₂⟩ := ih h₁
    refine ⟨m₂, by rw [excludeRun, hm₁]; exact hm₂, ?_⟩
    rw [List.map_cons, List.reverse_cons, List.append_assoc, List.singleton_append]
    exact h₂

end Maps

/-- The size that the program computes is the one that is meant, with numbers of any size. -/
def SizeExact (bytes ino : UInt32) : Prop :=
  (grownBytes bytes ino).toNat =
    if bytes = 0 then 2 * (ino.toNat / 8 + 1)
    else bytes.toNat * ((ino.toNat / 8 + 1) / bytes.toNat + 1)

/-- **The excluded inodes.** After any calls of `do_exclude_ino` the map has exactly the inodes of
the calls, and no call accesses the bitmap outside of it. Where the map is made larger for another
inode, the size is exact, and no inode is lost or added. -/
theorem excluded_exact (calls : List ((ℕ → BitVec 8) × UInt32)) :
    ∃ m, excludeRun .empty calls = some m ∧
      (∀ y, excludeIno m y = some (decide (y ∈ calls.map Prod.snd))) ∧
      ∀ fresh ino, m.iexcludeBitmapBytes < ino / 8 + 1 →
        SizeExact m.iexcludeBitmapBytes ino ∧
        ∃ m', growMap fresh m ino = some m' ∧ ∀ y, excludeIno m' y = excludeIno m y := by
  obtain ⟨m, hm, h⟩ := excludeRun_holds holds_empty calls
  refine ⟨m, hm, fun y => ?_, fun fresh ino hgrow => ⟨(toNat_grownBytes hgrow).1, ?_⟩⟩
  · rw [excludeIno_eq h]
    simp
  · obtain ⟨m', hm', h', -⟩ := growMap_holds h fresh ino
    exact ⟨m', hm', fun y => by rw [excludeIno_eq h', excludeIno_eq h]⟩

end DumpRestore
