import DumpRestore.Protocol.Spcl
import Mathlib.Algebra.Ring.Nat

/-!
# The checksum of a header

`mkchecksum` chooses `c_checksum` so that the 32-bit words of the header add up to `CHECKSUM`, and
`checksum` of restore verifies that sum. Both add machine words, so the sum is taken modulo `2^32`.
-/

namespace DumpRestore

open ByteOrder

/-- The words of a record, as a machine of byte order `o` reads `n` of them. -/
def words (o : Order) (n : ℕ) (bs : List UInt8) : List ℕ :=
  let ws := List.replicate n 4
  match o with
  | .little => decode ws bs
  | .big => decode ws (swab ws bs)

/-- The sum of the 32-bit words of a record, as a machine of byte order `o` reads them. -/
def wordSum (o : Order) (bs : List UInt8) : ℕ := (words o (tpBsize / 4) bs).sum

/-- `mkchecksum`. -/
def mkchecksum (o : Order) (h : Spcl) : Spcl :=
  let h := { h with cChecksum := 0 }
  { h with cChecksum := (checksumTotal - wordSum o (h.image o)).bmod (2 ^ 32) }

/-- `checksum` on a record in the byte order of the machine. -/
def checksum (o : Order) (bs : List UInt8) : Bool := (wordSum o bs - checksumTotal) % 2 ^ 32 = 0

/-- What `converthead` verifies: the magic number and the checksum. -/
def Spcl.accepted (h : Spcl) : Bool :=
  decide (h.cMagic = nfsMagic) && checksum .little (h.image .little)

/-! ## Splitting a sum -/

theorem words_append (o : Order) (n m : ℕ) (as bs : List UInt8) (h : as.length = n * 4) :
    words o (n + m) (as ++ bs) = words o n as ++ words o m bs := by
  have hsize : as.length = size (List.replicate n 4) := by rw [size_replicate, h]
  cases o with
  | little =>
    simp only [words]
    rw [List.replicate_add, decode_append _ _ _ _ hsize]
  | big =>
    have hlen : (swab (List.replicate n 4) as).length = size (List.replicate n 4) := by
      rw [length_swab, hsize]
    simp only [words]
    rw [List.replicate_add, swab_append, List.take_left' hsize, List.drop_left' hsize,
      decode_append _ _ _ _ hlen]

/-- The word that a scalar of four bytes takes. -/
theorem words_image_singleton (o : Order) (n : ℕ) :
    words o 1 (image o [⟨4, n⟩]) = [n % 2 ^ 32] := by
  have h := decode_image [⟨4, n⟩] []
  have hs := swab_image [⟨4, n⟩] []
  simp only [List.map_cons, List.map_nil, List.append_nil] at h hs
  cases o with
  | little => exact h
  | big => exact (congrArg _ hs).trans h

/-! ## The members around `c_checksum` -/

/-- The members of a header before `c_checksum`. -/
def Spcl.scalarsBefore (h : Spcl) : List Scalar :=
  [uint 4 h.cType.code, sint 4 h.cDate, sint 4 h.cDdate, sint 4 h.cVolume, uint 4 h.cTapea,
    uint 4 h.cInumber, sint 4 h.cMagic]

/-- The members of a header after `c_checksum`. -/
def Spcl.scalarsAfter (h : Spcl) : List Scalar := h.scalars.drop 8

theorem Spcl.scalars_eq (h : Spcl) :
    h.scalars = h.scalarsBefore ++ ([sint 4 h.cChecksum] ++ h.scalarsAfter) := rfl

/-- The words of a header other than its checksum. -/
def Spcl.otherWords (o : Order) (h : Spcl) : ℕ :=
  (words o 7 (ByteOrder.image o h.scalarsBefore)).sum +
    (words o 248 (ByteOrder.image o h.scalarsAfter)).sum

theorem Spcl.wordSum_image (o : Order) (h : Spcl) :
    wordSum o (h.image o) = h.otherWords o + (h.cChecksum % 2 ^ 32).toNat := by
  have hbefore : (ByteOrder.image o h.scalarsBefore).length = 7 * 4 := by
    rw [ByteOrder.length_image]
    rfl
  have hone : (ByteOrder.image o [sint 4 h.cChecksum]).length = 1 * 4 := by
    rw [ByteOrder.length_image]
    rfl
  have hword : words o 1 (ByteOrder.image o [sint 4 h.cChecksum]) =
      [(h.cChecksum % 2 ^ 32).toNat] := by
    rw [sint, words_image_singleton]
    congr 1
    omega
  rw [wordSum, show tpBsize / 4 = 7 + (1 + 248) from rfl, Spcl.image, Spcl.scalars_eq,
    ByteOrder.image_append, words_append _ _ _ _ _ hbefore, ByteOrder.image_append,
    words_append _ _ _ _ _ hone, hword, otherWords]
  simp only [List.sum_append, List.sum_singleton]
  omega

/-- **A header with the checksum of `mkchecksum` passes `checksum`** on a machine of the same
byte order. -/
theorem checksum_mkchecksum (o : Order) (h : Spcl) :
    checksum o ((mkchecksum o h).image o) = true := by
  have hzero : ({ h with cChecksum := 0 } : Spcl).otherWords o = h.otherWords o := rfl
  have hsum : ((mkchecksum o h)).otherWords o = h.otherWords o := rfl
  have hcheck : (mkchecksum o h).cChecksum =
      (checksumTotal - (h.otherWords o : ℤ)).bmod (2 ^ 32) := by
    simp only [mkchecksum, Spcl.wordSum_image, hzero]
    rfl
  have hmod : (checksumTotal - (h.otherWords o : ℤ)).bmod (2 ^ 32) % 2 ^ 32 =
      (checksumTotal - (h.otherWords o : ℤ)) % 2 ^ 32 :=
    Int.bmod_emod ..
  rw [checksum, decide_eq_true_iff, Spcl.wordSum_image, hsum, hcheck, hmod]
  omega

end DumpRestore
