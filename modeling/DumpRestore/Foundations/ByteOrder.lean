import Mathlib.Tactic.Ring
import Mathlib.Tactic.NormNum
import Mathlib.Data.List.Basic
import Mathlib.Algebra.BigOperators.Group.List.Basic

/-!
# Byte images of records in either byte order

A record is a list of unsigned scalars, each with its width in bytes. `image o fs` is the memory
image of the record `fs` on a machine of byte order `o`. The two laws used above this module are

* `decode_image`: reading the widths back from the little-endian image returns the values, each
  modulo what its width holds;
* `swab_image`: reversing the bytes of every scalar turns the image of one byte order into the
  image of the other.
-/

namespace DumpRestore.ByteOrder

/-! ## One scalar -/

/-- The `w` bytes of `n`, least significant first. -/
def bytesLE : ℕ → ℕ → List UInt8
  | 0, _ => []
  | w + 1, n => UInt8.ofNat (n % 256) :: bytesLE w (n / 256)

/-- The number with the given bytes, least significant first. -/
def ofBytesLE : List UInt8 → ℕ
  | [] => 0
  | b :: bs => b.toNat + 256 * ofBytesLE bs

@[simp] theorem length_bytesLE (w n : ℕ) : (bytesLE w n).length = w := by
  induction w generalizing n with
  | zero => rfl
  | succ w ih => simp only [bytesLE, List.length_cons, ih]

theorem ofBytesLE_bytesLE (w n : ℕ) : ofBytesLE (bytesLE w n) = n % 256 ^ w := by
  induction w generalizing n with
  | zero => simp [bytesLE, ofBytesLE, Nat.mod_one]
  | succ w ih =>
    have low : (UInt8.ofNat (n % 256)).toNat = n % 256 := by simp
    simp only [bytesLE, ofBytesLE, ih, low]
    rw [Nat.pow_succ', Nat.mod_mul]

theorem bytesLE_ofBytesLE (bs : List UInt8) : bytesLE bs.length (ofBytesLE bs) = bs := by
  induction bs with
  | nil => rfl
  | cons b bs ih =>
    have hb : b.toNat < 256 := b.toNat_lt
    rw [List.length_cons, ofBytesLE, bytesLE, Nat.add_mul_mod_self_left, Nat.mod_eq_of_lt hb,
      Nat.add_mul_div_left _ _ (by decide), Nat.div_eq_of_lt hb, Nat.zero_add, ih]
    simp

theorem ofBytesLE_lt (bs : List UInt8) : ofBytesLE bs < 256 ^ bs.length := by
  induction bs with
  | nil => simp [ofBytesLE]
  | cons b bs ih =>
    have hb : b.toNat < 256 := b.toNat_lt
    rw [ofBytesLE, List.length_cons, pow_succ]
    omega

/-! ## Records -/

/-- A machine's byte order. -/
inductive Order
  | little
  | big
  deriving DecidableEq, Repr

/-- A scalar member of a record: its width in bytes and its value. -/
structure Scalar where
  width : ℕ
  val : ℕ
  deriving DecidableEq, Repr

/-- The bytes of one scalar on a machine of byte order `o`. -/
def Scalar.bytes (o : Order) (s : Scalar) : List UInt8 :=
  match o with
  | .little => bytesLE s.width s.val
  | .big => (bytesLE s.width s.val).reverse

@[simp] theorem Scalar.length_bytes (o : Order) (s : Scalar) : (s.bytes o).length = s.width := by
  cases o <;> simp [Scalar.bytes]

/-- The memory image of a record. -/
def image (o : Order) (fs : List Scalar) : List UInt8 :=
  fs.flatMap (Scalar.bytes o)

/-- The size of a record. -/
def size (ws : List ℕ) : ℕ := ws.sum

@[simp] theorem length_image (o : Order) (fs : List Scalar) :
    (image o fs).length = size (fs.map Scalar.width) := by
  induction fs with
  | nil => rfl
  | cons f fs ih =>
    simp only [image, List.flatMap_cons, List.length_append, Scalar.length_bytes] at ih ⊢
    simp only [List.map_cons, size, List.sum_cons, ih]

theorem image_append (o : Order) (fs gs : List Scalar) :
    image o (fs ++ gs) = image o fs ++ image o gs :=
  List.flatMap_append

/-- The values of the scalars of widths `ws` at the start of `bs`, read in little-endian order. -/
def decode : List ℕ → List UInt8 → List ℕ
  | [], _ => []
  | w :: ws, bs => ofBytesLE (bs.take w) :: decode ws (bs.drop w)

@[simp] theorem length_decode (ws : List ℕ) (bs : List UInt8) :
    (decode ws bs).length = ws.length := by
  induction ws generalizing bs with
  | nil => rfl
  | cons w ws ih => simp only [decode, List.length_cons, ih]

theorem size_replicate (n w : ℕ) : size (List.replicate n w) = n * w := by
  rw [size, List.sum_replicate, nsmul_eq_mul, Nat.cast_id]

theorem decode_append (ws vs : List ℕ) (as bs : List UInt8) (h : as.length = size ws) :
    decode (ws ++ vs) (as ++ bs) = decode ws as ++ decode vs bs := by
  induction ws generalizing as with
  | nil =>
    rw [List.eq_nil_of_length_eq_zero h]
    rfl
  | cons w ws ih =>
    rw [size, List.sum_cons] at h
    have hw : w ≤ as.length := by omega
    have hrest : (as.drop w).length = size ws := by
      rw [List.length_drop, size]
      omega
    rw [List.cons_append, decode, decode, List.take_append_of_le_length hw,
      List.drop_append_of_le_length hw, ih _ hrest, List.cons_append]

/-- Reading back the little-endian image of a record. -/
theorem decode_image (fs : List Scalar) (rest : List UInt8) :
    decode (fs.map Scalar.width) (image .little fs ++ rest) =
      fs.map fun f => f.val % 256 ^ f.width := by
  induction fs with
  | nil => rfl
  | cons f fs ih =>
    have hlen : (f.bytes .little).length = f.width := Scalar.length_bytes ..
    simp only [image, List.flatMap_cons, List.map_cons, decode, List.append_assoc] at ih ⊢
    rw [List.take_left' hlen, List.drop_left' hlen, ih]
    simp only [Scalar.bytes, ofBytesLE_bytesLE]

/-! ## Swapping -/

/-- Reverse the bytes of every scalar of widths `ws` at the start of `bs`; the rest stays. -/
def swab : List ℕ → List UInt8 → List UInt8
  | [], bs => bs
  | w :: ws, bs => (bs.take w).reverse ++ swab ws (bs.drop w)

@[simp] theorem length_swab (ws : List ℕ) (bs : List UInt8) :
    (swab ws bs).length = bs.length := by
  induction ws generalizing bs with
  | nil => rfl
  | cons w ws ih =>
    simp only [swab, List.length_append, List.length_reverse, List.length_take, ih,
      List.length_drop]
    omega

theorem swab_append (ws vs : List ℕ) (bs : List UInt8) :
    swab (ws ++ vs) bs = swab ws (bs.take (size ws)) ++ swab vs (bs.drop (size ws)) := by
  induction ws generalizing bs with
  | nil => simp [swab, size]
  | cons w ws ih =>
    simp only [List.cons_append, swab, size, List.sum_cons, ih, List.append_assoc]
    simp only [List.take_take, List.drop_drop, List.drop_take]
    congr 2
    · rw [Nat.min_eq_left (by omega)]
    · congr 2
      omega

/-- Swapping twice changes nothing. -/
theorem swab_swab (ws : List ℕ) (bs : List UInt8) (h : size ws ≤ bs.length) :
    swab ws (swab ws bs) = bs := by
  induction ws generalizing bs with
  | nil => rfl
  | cons w ws ih =>
    rw [size, List.sum_cons] at h
    have hw : (bs.take w).reverse.length = w := by
      simp only [List.length_reverse, List.length_take]
      omega
    have hrest : size ws ≤ (bs.drop w).length := by
      rw [List.length_drop, size]
      omega
    rw [swab, swab, List.take_left' hw, List.drop_left' hw, ih _ hrest, List.reverse_reverse,
      List.take_append_drop]

/-- Swapping a record turns its big-endian image into its little-endian one. -/
theorem swab_image (fs : List Scalar) (rest : List UInt8) :
    swab (fs.map Scalar.width) (image .big fs ++ rest) = image .little fs ++ rest := by
  induction fs with
  | nil => rfl
  | cons f fs ih =>
    have hlen : (f.bytes .big).length = f.width := Scalar.length_bytes ..
    simp only [image, List.flatMap_cons, List.map_cons, swab, List.append_assoc] at ih ⊢
    rw [List.take_left' hlen, List.drop_left' hlen, ih]
    simp only [Scalar.bytes, List.reverse_reverse]

/-- The other byte order. -/
def Order.other : Order → Order
  | .little => .big
  | .big => .little

/-- Swapping a record turns its image in one byte order into that in the other. -/
theorem swab_image_other (o : Order) (fs : List Scalar) (rest : List UInt8) :
    swab (fs.map Scalar.width) (image o fs ++ rest) = image o.other fs ++ rest := by
  cases o with
  | big => exact swab_image fs rest
  | little =>
    induction fs with
    | nil => rfl
    | cons f fs ih =>
      have hlen : (f.bytes .little).length = f.width := Scalar.length_bytes ..
      simp only [image, List.flatMap_cons, List.map_cons, swab, List.append_assoc] at ih ⊢
      rw [List.take_left' hlen, List.drop_left' hlen, ih]
      rfl

/-- The values of the scalars of widths `ws` at the start of `bs`, on a machine of byte order
`o`. -/
def read (o : Order) (ws : List ℕ) (bs : List UInt8) : List ℕ :=
  match o with
  | .little => decode ws bs
  | .big => decode ws (swab ws bs)

/-- The value that a scalar of this width holds. -/
def Scalar.stored (s : Scalar) : ℕ := s.val % 256 ^ s.width

/-- A machine reads back its own image of a record. -/
theorem read_image (o : Order) (fs : List Scalar) (rest : List UInt8) :
    read o (fs.map Scalar.width) (image o fs ++ rest) = fs.map Scalar.stored := by
  cases o with
  | little => exact decode_image fs rest
  | big =>
    rw [read, swab_image_other]
    exact decode_image fs rest

end DumpRestore.ByteOrder
