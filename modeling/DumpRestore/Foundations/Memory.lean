import DumpRestore.Foundations.ByteOrder
import Mathlib.Data.List.GetD

/-!
# Byte memory

Memory is a function from addresses to bytes. It has a value at every address, so that a buffer
with undefined contents is a memory about which nothing is assumed. `read` and `write` move lists of
bytes; `num` reads an unsigned little-endian number.
-/

namespace DumpRestore

open ByteOrder

/-- The contents of memory. -/
abbrev Mem := ℕ → UInt8

namespace Mem

/-- The `n` bytes from address `a` on. -/
def read (m : Mem) (a n : ℕ) : List UInt8 := (List.range' a n).map m

/-- Store bytes from address `a` on. -/
def write (m : Mem) (a : ℕ) (bs : List UInt8) : Mem := fun i =>
  if a ≤ i ∧ i < a + bs.length then bs.getD (i - a) 0 else m i

/-- The unsigned number in the `w` bytes from address `a` on. -/
def num (m : Mem) (a w : ℕ) : ℕ := ofBytesLE (m.read a w)

/-- Memory that starts with the given bytes. -/
def ofList (bs : List UInt8) : Mem := fun i => bs.getD i 0

/-- The memory from address `a` on. -/
def shift (m : Mem) (a : ℕ) : Mem := fun i => m (a + i)

/-- Two memories have the same bytes from address `a` to address `b`. -/
def Agree (m m' : Mem) (a b : ℕ) : Prop := ∀ i, a ≤ i → i < b → m i = m' i

variable {m m' m'' : Mem} {a b n : ℕ} {bs : List UInt8}

@[simp] theorem length_read (m : Mem) (a n : ℕ) : (m.read a n).length = n := by simp [read]

theorem read_add (m : Mem) (a n k : ℕ) : m.read a (n + k) = m.read a n ++ m.read (a + n) k := by
  rw [read, read, read, ← List.map_append, List.range'_append_1]

theorem take_read (m : Mem) (a : ℕ) {n k : ℕ} (h : k ≤ n) : (m.read a n).take k = m.read a k := by
  obtain ⟨d, rfl⟩ := Nat.exists_eq_add_of_le h
  rw [read_add, List.take_left' (length_read ..)]

theorem getElem_read (m : Mem) {a n i : ℕ} (hi : i < (m.read a n).length) :
    (m.read a n)[i] = m (a + i) := by
  simp [read]

theorem read_shift (m : Mem) (x a n : ℕ) : (m.shift x).read a n = m.read (x + a) n := by
  refine List.ext_getElem (by simp) fun i _ _ => ?_
  rw [getElem_read, getElem_read, shift, Nat.add_assoc]

/-! ## Agreement -/

theorem Agree.refl (m : Mem) (a b : ℕ) : Agree m m a b := fun _ _ _ => rfl

theorem Agree.symm (h : Agree m m' a b) : Agree m' m a b := fun i hi hb => (h i hi hb).symm

theorem Agree.trans (h : Agree m m' a b) (h' : Agree m' m'' a b) : Agree m m'' a b :=
  fun i hi hb => (h i hi hb).trans (h' i hi hb)

theorem Agree.mono {a' b' : ℕ} (h : Agree m m' a b) (ha : a ≤ a') (hb : b' ≤ b) :
    Agree m m' a' b' :=
  fun i hi hib => h i (ha.trans hi) (hib.trans_le hb)

theorem Agree.read (h : Agree m m' a b) {c : ℕ} (ha : a ≤ c) (hb : c + n ≤ b) :
    m.read c n = m'.read c n := by
  refine List.map_congr_left fun i hi => h i ?_ ?_
  all_goals
    rw [List.mem_range'_1] at hi
    omega

/-! ## Writes -/

/-- A write changes nothing below its address. -/
theorem agree_write_below (m : Mem) (bs : List UInt8) (a b : ℕ) (h : b ≤ n) :
    Agree (m.write n bs) m a b := by
  intro i _ hib
  exact if_neg (by omega)

/-- A write changes nothing above its last address. -/
theorem agree_write_above (m : Mem) (bs : List UInt8) (a b : ℕ) (h : n + bs.length ≤ a) :
    Agree (m.write n bs) m a b := by
  intro i hi _
  exact if_neg (by omega)

theorem read_write (m : Mem) (a : ℕ) (bs : List UInt8) : (m.write a bs).read a bs.length = bs := by
  refine List.ext_getElem (by simp) fun i hi hi' => ?_
  rw [getElem_read, write, if_pos ⟨by omega, by omega⟩, Nat.add_sub_cancel_left,
    List.getD_eq_getElem _ _ hi']

/-- Two writes, the second where the first ends. -/
theorem read_write_append (m : Mem) (a : ℕ) (bs cs : List UInt8) :
    ((m.write a bs).write (a + bs.length) cs).read a (bs ++ cs).length = bs ++ cs := by
  rw [List.length_append, read_add, read_write,
    (agree_write_below _ cs a (a + bs.length) le_rfl).read le_rfl le_rfl, read_write]

theorem read_ofList (bs : List UInt8) (h : a + n ≤ bs.length) :
    (ofList bs).read a n = (bs.drop a).take n := by
  refine List.ext_getElem (by simp; omega) fun i hi hi' => ?_
  rw [getElem_read, ofList, List.getElem_take, List.getElem_drop, List.getD_eq_getElem]

theorem ofList_append_left (as bs : List UInt8) :
    Agree (ofList (as ++ bs)) (ofList as) 0 as.length := by
  intro i _ hi
  rw [ofList, ofList, List.getD_append _ _ _ _ hi]

theorem shift_ofList_append (as bs : List UInt8) :
    (ofList (as ++ bs)).shift as.length = ofList bs := by
  funext i
  rw [shift, ofList, ofList, List.getD_append_right _ _ _ _ (Nat.le_add_right ..),
    Nat.add_sub_cancel_left]

theorem agree_ofList_read (m : Mem) (n : ℕ) : Agree (ofList (m.read 0 n)) m 0 n := by
  intro i _ hi
  rw [ofList, List.getD_eq_getElem _ _ (by simpa using hi), getElem_read, Nat.zero_add]

end Mem

end DumpRestore
