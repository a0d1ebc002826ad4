import DumpRestore.Protocol.Spcl

/-!
# The prefix of compressed blocks

`struct tapebuf` is a word of three bit fields. A little-endian machine puts the first field at the
low end of the word, a big-endian one at the high end, so that the other machine sees the fields in
reverse: that is `struct tb` of `converttapebuf`.

* `TapeBuf.image` are the bytes of the prefix.
* `ofTb_word` says that `struct tb` is right.
* `CompressLib` is what both programs rely on in the compression libraries.
-/

namespace DumpRestore

open ByteOrder

/-- The members of `struct tapebuf` before its data. -/
structure TapeBuf where
  compressed : Bool
  flags : ℕ
  length : ℕ
  deriving DecidableEq

namespace TapeBuf

/-- `PREFIXSIZE`. -/
def prefixSize : ℕ := 4

/-- The values that fit the fields of three and of 28 bits. -/
structure Valid (b : TapeBuf) : Prop where
  flags_lt : b.flags < 8
  length_lt : b.length < 2 ^ 28

/-- The word with these fields, on a machine of byte order `t`. -/
def word (t : Order) (b : TapeBuf) : ℕ :=
  match t with
  | .little => b.compressed.toNat + 2 * (b.flags % 8) + 16 * (b.length % 2 ^ 28)
  | .big => b.compressed.toNat * 2 ^ 31 + b.flags % 8 * 2 ^ 28 + b.length % 2 ^ 28

/-- The bytes of the prefix. -/
def image (t : Order) (b : TapeBuf) : List UInt8 := ByteOrder.image t [⟨prefixSize, b.word t⟩]

/-- The fields of a word, as `struct tapebuf` has them. -/
def ofWord (m : Order) (w : ℕ) : TapeBuf :=
  match m with
  | .little => ⟨w % 2 == 1, w / 2 % 8, w / 16⟩
  | .big => ⟨w / 2 ^ 31 == 1, w / 2 ^ 28 % 8, w % 2 ^ 28⟩

/-- The fields of a word, as `struct tb` has them. -/
def ofTb (m : Order) (w : ℕ) : TapeBuf :=
  match m with
  | .little => ⟨w / 2 ^ 31 == 1, w / 2 ^ 28 % 8, w % 2 ^ 28⟩
  | .big => ⟨w % 2 == 1, w / 2 % 8, w / 16⟩

@[simp] theorem length_image (t : Order) (b : TapeBuf) : (b.image t).length = prefixSize := by
  simp [image, size]

theorem word_lt (t : Order) (b : TapeBuf) : b.word t < 256 ^ prefixSize := by
  have := Bool.toNat_le b.compressed
  have := Nat.mod_lt b.flags (show 0 < 8 by decide)
  have := Nat.mod_lt b.length (show 0 < 2 ^ 28 by decide)
  rw [prefixSize]
  cases t <;> simp only [word] <;> omega

/-- A machine sees the fields that it wrote. -/
theorem ofWord_word {b : TapeBuf} (h : b.Valid) (m : Order) : ofWord m (b.word m) = b := by
  obtain ⟨hf, hl⟩ := h
  obtain ⟨c, f, l⟩ := b
  simp only at hf hl
  cases m <;> cases c <;>
    simp only [ofWord, word, Bool.toNat_true, Bool.toNat_false, Nat.mod_eq_of_lt hf,
      Nat.mod_eq_of_lt hl, TapeBuf.mk.injEq, beq_iff_eq, beq_eq_false_iff_ne] <;>
    omega

/-- `struct tb` has the fields that a machine of the other byte order wrote. -/
theorem ofTb_word {b : TapeBuf} (h : b.Valid) (m : Order) : ofTb m (b.word m.other) = b :=
  match m with
  | .little => ofWord_word h .big
  | .big => ofWord_word h .little

end TapeBuf

/-! ## The compression libraries -/

/-- The algorithms, `COMPRESS_ZLIB`, `COMPRESS_BZLIB` and `COMPRESS_LZO`. -/
inductive Zip where
  | zlib | bzlib | lzo
  deriving DecidableEq

namespace Zip

/-- The value of `flags` for an algorithm. -/
def code : Zip → ℕ
  | .zlib => 0
  | .bzlib => 1
  | .lzo => 2

/-- The algorithm with this value of `flags`. -/
def ofCode : ℕ → Option Zip
  | 0 => some .zlib
  | 1 => some .bzlib
  | 2 => some .lzo
  | _ => none

@[simp] theorem ofCode_code (z : Zip) : ofCode z.code = some z := by cases z <;> rfl

theorem code_lt (z : Zip) : z.code < 8 := by cases z <;> decide

end Zip

/-- The compression libraries. Both functions get the room at the destination. Whether a compression
succeeds may differ from call to call, so that `compress` gets the number of the call as well. To
decompress a successful compression, with room for it, gives back the input. -/
structure CompressLib where
  compress : Zip → (call : ℕ) → ℕ → List UInt8 → Option (List UInt8)
  decompress : Zip → ℕ → List UInt8 → Option (List UInt8)
  decompress_of_compress : ∀ {z : Zip} {call n m : ℕ} {src out : List UInt8},
    compress z call n src = some out → src.length ≤ m → decompress z m out = some src

/-- Every compressed block has some bytes. -/
def CompressLib.NeverEmpty (lib : CompressLib) : Prop :=
  ∀ z call n src, lib.compress z call n src ≠ some []

end DumpRestore
