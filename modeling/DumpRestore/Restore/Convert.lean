import DumpRestore.Restore.Tape
import Mathlib.Data.List.GetD

/-!
# Converting headers

`converthead` of `restore/tape.c` turns the bytes of a record into a header in the byte order of
the machine. It decides from the magic number whether the tape was written on a machine of the
other byte order, and from the size of a directory whether the halves of `di_size` are exchanged.
Both decisions stick.

* `swabst_swabFormat`: the format string lists the members of the structure.
* `convertheadBytes_image`: what one call makes of a header that `writeheader` wrote.
* `decoded_header`: what comes out after any other headers of the same dump, and
  `decoded_header_iff`: when that is what the writer put in.
* `convertheadBytes_refines`: `converthead` of `Restore.Tape` is what happens to headers while no
  halves are exchanged.
-/

namespace DumpRestore

open ByteOrder

/-! ## Swapping by a format string -/

/-- `swabst`. The number read so far is `n`. A character other than these stands for bytes. -/
def swabst : List Char → (n : ℕ) → List UInt8 → List UInt8
  | [], _, sp => sp
  | c :: cp, n, sp =>
    if c.isDigit then swabst cp (n * 10 + (c.toNat - 48)) sp
    else
      let n := if n = 0 then 1 else n
      let w := if c = 's' ∨ c = 'w' ∨ c = 'h' then 2 else if c = 'i' then 4 else
        if c = 'l' then 8 else 1
      swab (List.replicate n w) (sp.take (n * w)) ++ swabst cp 0 (sp.drop (n * w))

/-- `swabi`. -/
def swabi (x : ℕ) : ℕ := ofBytesLE (bytesLE 4 x).reverse

/-- The format string for a header. -/
def swabFormat : List Char := "8i4s1l29i528bi192b4i".toList

/-- The widths of the members before `c_spare`. -/
def swabWidths : List ℕ :=
  List.replicate 8 4 ++ (List.replicate 4 2 ++ [8] ++ List.replicate 28 4) ++ [4] ++
    List.replicate 512 1 ++ List.replicate 16 1 ++ [4] ++ List.replicate 64 1 ++
    List.replicate 64 1 ++ List.replicate 64 1 ++ List.replicate 4 4

/-- The format string swaps every member but `c_spare`. -/
theorem swabst_swabFormat (bs : List UInt8) : swabst swabFormat 0 bs = swab swabWidths bs := by
  have hwidths : swabWidths = List.replicate 8 4 ++ (List.replicate 4 2 ++ (List.replicate 1 8 ++
      (List.replicate 29 4 ++ (List.replicate 528 1 ++ (List.replicate 1 4 ++
        (List.replicate 192 1 ++ (List.replicate 4 4 ++ []))))))) := by
    rw [List.replicate_add 28 1, List.replicate_add 512 16, List.replicate_add 128 64,
      List.replicate_add 64 64]
    simp only [swabWidths, List.append_assoc, List.append_nil, List.replicate_one]
  rw [hwidths]
  simp only [swab_append, size_replicate]
  rfl

/-! ## The structure in memory -/

/-- The members of `struct s_spcl` before `c_spare`. -/
def Spcl.scalarsMain (h : Spcl) : List Scalar :=
  [uint 4 h.cType.code, sint 4 h.cDate, sint 4 h.cDdate, sint 4 h.cVolume, uint 4 h.cTapea,
    uint 4 h.cInumber, sint 4 h.cMagic, sint 4 h.cChecksum] ++
  h.cDinode.scalars ++
  [sint 4 h.cCount] ++
  List.ofFn (fun i : Fin 512 => uint 1 (h.cAddr i)) ++
  List.ofFn (fun i => uint 1 (h.cLabel i)) ++
  [sint 4 h.cLevel] ++
  List.ofFn (fun i => uint 1 (h.cFilesys i)) ++
  List.ofFn (fun i => uint 1 (h.cDev i)) ++
  List.ofFn (fun i => uint 1 (h.cHost i)) ++
  [uint 4 h.cFlags.toNat, sint 4 h.cFirstrec, sint 4 h.cNtrec, sint 4 h.cExtattributes]

theorem Spcl.image_eq (o : Order) (h : Spcl) :
    h.image o = ByteOrder.image o h.scalarsMain ++
      ByteOrder.image o (List.ofFn fun i => sint 4 (h.cSpare i)) :=
  ByteOrder.image_append o h.scalarsMain _

theorem Spcl.map_width_scalarsMain (h : Spcl) :
    h.scalarsMain.map Scalar.width = swabWidths := by
  simp only [Spcl.scalarsMain, List.map_append, NewBsdInode.map_width_scalars,
    map_width_ofFn (fun i : Fin 512 => uint 1 (h.cAddr i)) (fun _ => uint_width ..),
    map_width_ofFn (fun i => uint 1 (h.cLabel i)) (fun _ => uint_width ..),
    map_width_ofFn (fun i => uint 1 (h.cFilesys i)) (fun _ => uint_width ..),
    map_width_ofFn (fun i => uint 1 (h.cDev i)) (fun _ => uint_width ..),
    map_width_ofFn (fun i => uint 1 (h.cHost i)) (fun _ => uint_width ..)]
  rfl

/-- A signed member of width `w`, read as an unsigned number. -/
def toSigned (w n : ℕ) : ℤ := (n : ℤ).bmod (256 ^ w)

/-- The structure `new_bsd_inode` with the members `v`. -/
def NewBsdInode.ofVals (v : List ℕ) : NewBsdInode where
  diMode := v.getD 0 0
  diNlink := toSigned 2 (v.getD 1 0)
  diOuid := v.getD 2 0
  diOgid := v.getD 3 0
  diSize := v.getD 4 0
  diAtime := ⟨v.getD 5 0, v.getD 6 0⟩
  diMtime := ⟨v.getD 7 0, v.getD 8 0⟩
  diCtime := ⟨v.getD 9 0, v.getD 10 0⟩
  diDb := fun i => (v.drop 11).getD i 0
  diFlags := (v.drop 26).getD 0 0
  diBlocks := toSigned 4 ((v.drop 26).getD 1 0)
  diGen := toSigned 4 ((v.drop 26).getD 2 0)
  diUid := (v.drop 26).getD 3 0
  diGid := (v.drop 26).getD 4 0
  diSpare := fun i => toSigned 4 ((v.drop 31).getD i 0)

/-- The structure `s_spcl` with the members `v` and `spare`, where `after` is the memory from
`c_addr` on. It is read only if its type is one of the record types. -/
def Spcl.ofVals (v spare : List ℕ) (after : ℕ → ℕ) : Option Spcl :=
  (SpclType.ofCode (v.getD 0 0)).map fun type => {
    cType := type
    cDate := toSigned 4 (v.getD 1 0)
    cDdate := toSigned 4 (v.getD 2 0)
    cVolume := toSigned 4 (v.getD 3 0)
    cTapea := v.getD 4 0
    cInumber := v.getD 5 0
    cMagic := toSigned 4 (v.getD 6 0)
    cChecksum := toSigned 4 (v.getD 7 0)
    cDinode := .ofVals (v.drop 8)
    cCount := toSigned 4 ((v.drop 41).getD 0 0)
    cAddr := fun i => if i < tpNindir then (v.drop 42).getD i 0 else after i
    cLabel := fun i => (v.drop 554).getD i 0
    cLevel := toSigned 4 ((v.drop 570).getD 0 0)
    cFilesys := fun i => (v.drop 571).getD i 0
    cDev := fun i => (v.drop 635).getD i 0
    cHost := fun i => (v.drop 699).getD i 0
    cFlags := BitVec.ofNat 32 ((v.drop 763).getD 0 0)
    cFirstrec := toSigned 4 ((v.drop 763).getD 1 0)
    cNtrec := toSigned 4 ((v.drop 763).getD 2 0)
    cExtattributes := toSigned 4 ((v.drop 763).getD 3 0)
    cSpare := fun i => toSigned 4 (spare.getD i 0) }

/-- The header that a machine of byte order `m` sees in a record. -/
def Spcl.read (m : Order) (bs : List UInt8) : Option Spcl :=
  Spcl.ofVals (ByteOrder.read m swabWidths bs)
    (ByteOrder.read m (List.replicate 30 4) (bs.drop (size swabWidths)))
    (fun i => (bs.getD (164 + i) 0).toNat)

/-- The values that fit a signed member of width `w`. -/
def FitsInt (w : ℕ) (x : ℤ) : Prop := -(256 ^ w / 2) ≤ x ∧ x < 256 ^ w / 2

theorem toSigned_sint {w : ℕ} {x : ℤ} (h : FitsInt w x) :
    toSigned w (sint w x).stored = x := by
  have hpos : (0 : ℤ) < 256 ^ w := by positivity
  have hstored : ((sint w x).stored : ℤ) = x % 256 ^ w := by
    rw [Scalar.stored, sint, Int.natCast_emod, Int.toNat_of_nonneg (Int.emod_nonneg _ hpos.ne')]
    push_cast
    exact Int.emod_emod_of_dvd _ dvd_rfl
  obtain ⟨hlow, hhigh⟩ := h
  have hcast : ((256 ^ w : ℕ) : ℤ) = 256 ^ w := by push_cast; rfl
  rw [toSigned, hstored, ← hcast, Int.emod_bmod]
  exact Int.bmod_eq_of_le (by omega) (by omega)

/-- The values that fit the members of the inode. -/
structure NewBsdInode.Fits (d : NewBsdInode) : Prop where
  diMode : d.diMode < 256 ^ 2
  diNlink : FitsInt 2 d.diNlink
  diOuid : d.diOuid < 256 ^ 2
  diOgid : d.diOgid < 256 ^ 2
  diSize : d.diSize < 256 ^ 8
  diAtime : d.diAtime.tvSec < 256 ^ 4 ∧ d.diAtime.tvUsec < 256 ^ 4
  diMtime : d.diMtime.tvSec < 256 ^ 4 ∧ d.diMtime.tvUsec < 256 ^ 4
  diCtime : d.diCtime.tvSec < 256 ^ 4 ∧ d.diCtime.tvUsec < 256 ^ 4
  diDb : ∀ i, d.diDb i < 256 ^ 4
  diFlags : d.diFlags < 256 ^ 4
  diBlocks : FitsInt 4 d.diBlocks
  diGen : FitsInt 4 d.diGen
  diUid : d.diUid < 256 ^ 4
  diGid : d.diGid < 256 ^ 4
  diSpare : ∀ i, FitsInt 4 (d.diSpare i)

/-- The values that fit the members of a header. -/
structure Spcl.Fits (h : Spcl) : Prop where
  cDate : FitsInt 4 h.cDate
  cDdate : FitsInt 4 h.cDdate
  cVolume : FitsInt 4 h.cVolume
  cTapea : h.cTapea < 256 ^ 4
  cInumber : h.cInumber < 256 ^ 4
  cMagic : FitsInt 4 h.cMagic
  cChecksum : FitsInt 4 h.cChecksum
  cDinode : h.cDinode.Fits
  cCount : FitsInt 4 h.cCount
  cAddr : ∀ i < tpNindir, h.cAddr i < 256
  cLabel : ∀ i, h.cLabel i < 256
  cLevel : FitsInt 4 h.cLevel
  cFilesys : ∀ i, h.cFilesys i < 256
  cDev : ∀ i, h.cDev i < 256
  cHost : ∀ i, h.cHost i < 256
  cFirstrec : FitsInt 4 h.cFirstrec
  cNtrec : FitsInt 4 h.cNtrec
  cExtattributes : FitsInt 4 h.cExtattributes

theorem stored_uint {w n : ℕ} (h : n < 256 ^ w) : (uint w n).stored = n :=
  Nat.mod_eq_of_lt h

theorem getD_map_ofFn_append {n : ℕ} (f : Fin n → Scalar) (rest : List ℕ) (i : ℕ) (hi : i < n) :
    ((List.ofFn f).map Scalar.stored ++ rest).getD i 0 = (f ⟨i, hi⟩).stored := by
  rw [List.getD_append _ _ _ _ (by simpa using hi)]
  simp [hi]

theorem drop_map_ofFn_append {n : ℕ} (f : Fin n → Scalar) (rest : List ℕ) :
    ((List.ofFn f).map Scalar.stored ++ rest).drop n = rest :=
  List.drop_left' (by simp)

theorem NewBsdInode.ofVals_stored {d : NewBsdInode} (hd : d.Fits) (rest : List ℕ) :
    NewBsdInode.ofVals (d.scalars.map Scalar.stored ++ rest) = d := by
  let spare := (List.ofFn fun i => sint 4 (d.diSpare i)).map Scalar.stored ++ rest
  let last := [uint 4 d.diFlags, sint 4 d.diBlocks, sint 4 d.diGen, uint 4 d.diUid,
    uint 4 d.diGid].map Scalar.stored ++ spare
  let db := (List.ofFn fun i => uint 4 (d.diDb i)).map Scalar.stored ++ last
  let v := [uint 2 d.diMode, sint 2 d.diNlink, uint 2 d.diOuid, uint 2 d.diOgid, uint 8 d.diSize,
    uint 4 d.diAtime.tvSec, uint 4 d.diAtime.tvUsec, uint 4 d.diMtime.tvSec,
    uint 4 d.diMtime.tvUsec, uint 4 d.diCtime.tvSec, uint 4 d.diCtime.tvUsec].map
      Scalar.stored ++ db
  have hv : d.scalars.map Scalar.stored ++ rest = v := by
    simp only [v, db, last, spare, NewBsdInode.scalars, List.map_append, List.append_assoc]
  have hdb : v.drop 11 = db := rfl
  have hlast : v.drop 26 = last := by
    rw [show 26 = 11 + 15 from rfl, ← List.drop_drop, hdb, drop_map_ofFn_append]
  have hspare : v.drop 31 = spare := by
    rw [show 31 = 26 + 5 from rfl, ← List.drop_drop, hlast]
    rfl
  have hd11 : ∀ i : Fin 15, db.getD i 0 = d.diDb i := fun i => by
    rw [getD_map_ofFn_append _ _ _ i.isLt, stored_uint (hd.diDb _)]
  have hd31 : ∀ i : Fin 2, toSigned 4 (spare.getD i 0) = d.diSpare i := fun i => by
    rw [getD_map_ofFn_append _ _ _ i.isLt, toSigned_sint (hd.diSpare _)]
  rw [hv, NewBsdInode.ofVals, hdb, hlast, hspare]
  simp only [v, last, List.map_cons, List.cons_append, List.getD_cons_succ, List.getD_cons_zero,
    toSigned_sint hd.diNlink, toSigned_sint hd.diBlocks, toSigned_sint hd.diGen,
    stored_uint hd.diMode, stored_uint hd.diOuid, stored_uint hd.diOgid, stored_uint hd.diSize,
    stored_uint hd.diAtime.1, stored_uint hd.diAtime.2, stored_uint hd.diMtime.1,
    stored_uint hd.diMtime.2, stored_uint hd.diCtime.1, stored_uint hd.diCtime.2,
    stored_uint hd.diFlags, stored_uint hd.diUid, stored_uint hd.diGid, hd11, hd31]

theorem length_scalars (d : NewBsdInode) : (d.scalars.map Scalar.stored).length = 33 := by
  simp [NewBsdInode.scalars]

/-- A header without its spare members, and with `c_addr` up to its end. -/
def Spcl.members (h : Spcl) : Spcl :=
  { h with
    cSpare := fun _ => 0
    cAddr := fun i => if i < tpNindir then h.cAddr i else 0 }

theorem Spcl.ofVals_stored {h : Spcl} (hh : h.Fits) (spare : List ℕ) (after : ℕ → ℕ) :
    ∃ h', Spcl.ofVals (h.scalarsMain.map Scalar.stored) spare after = some h' ∧
      h'.members = h.members := by
  let last := [uint 4 h.cFlags.toNat, sint 4 h.cFirstrec, sint 4 h.cNtrec,
    sint 4 h.cExtattributes].map Scalar.stored
  let host := (List.ofFn fun i => uint 1 (h.cHost i)).map Scalar.stored ++ last
  let dev := (List.ofFn fun i => uint 1 (h.cDev i)).map Scalar.stored ++ host
  let filesys := (List.ofFn fun i => uint 1 (h.cFilesys i)).map Scalar.stored ++ dev
  let level := (sint 4 h.cLevel).stored :: filesys
  let label := (List.ofFn fun i => uint 1 (h.cLabel i)).map Scalar.stored ++ level
  let addr := (List.ofFn fun i : Fin 512 => uint 1 (h.cAddr i)).map Scalar.stored ++ label
  let count := (sint 4 h.cCount).stored :: addr
  let dinode := h.cDinode.scalars.map Scalar.stored ++ count
  let v := [uint 4 h.cType.code, sint 4 h.cDate, sint 4 h.cDdate, sint 4 h.cVolume,
    uint 4 h.cTapea, uint 4 h.cInumber, sint 4 h.cMagic, sint 4 h.cChecksum].map Scalar.stored ++
    dinode
  have hv : h.scalarsMain.map Scalar.stored = v := by
    simp only [v, dinode, count, addr, label, level, filesys, dev, host, last, Spcl.scalarsMain,
      List.map_append, List.map_cons, List.map_nil, List.append_assoc, List.cons_append,
      List.nil_append]
  have hdinode : v.drop 8 = dinode := rfl
  have hcount : v.drop 41 = count := by
    rw [show 41 = 8 + 33 from rfl, ← List.drop_drop, hdinode]
    exact List.drop_left' (length_scalars _)
  have haddr : v.drop 42 = addr := by
    rw [show 42 = 41 + 1 from rfl, ← List.drop_drop, hcount]
    rfl
  have hlabel : v.drop 554 = label := by
    rw [show 554 = 42 + 512 from rfl, ← List.drop_drop, haddr, drop_map_ofFn_append]
  have hlevel : v.drop 570 = level := by
    rw [show 570 = 554 + 16 from rfl, ← List.drop_drop, hlabel, drop_map_ofFn_append]
  have hfilesys : v.drop 571 = filesys := by
    rw [show 571 = 570 + 1 from rfl, ← List.drop_drop, hlevel]
    rfl
  have hdev : v.drop 635 = dev := by
    rw [show 635 = 571 + 64 from rfl, ← List.drop_drop, hfilesys, drop_map_ofFn_append]
  have hhost : v.drop 699 = host := by
    rw [show 699 = 635 + 64 from rfl, ← List.drop_drop, hdev, drop_map_ofFn_append]
  have hlast : v.drop 763 = last := by
    rw [show 763 = 699 + 64 from rfl, ← List.drop_drop, hhost, drop_map_ofFn_append]
  have htype : SpclType.ofCode (v.getD 0 0) = some h.cType := by
    rw [show v.getD 0 0 = h.cType.code from
      stored_uint (h.cType.code_lt.trans (by decide)), SpclType.ofCode_code]
  have haddrs : (fun i => if i < tpNindir then if i < tpNindir then addr.getD i 0 else after i
      else 0) = fun i => if i < tpNindir then h.cAddr i else 0 := by
    funext i
    split
    case isTrue hi =>
      exact (getD_map_ofFn_append (n := 512) (fun i => uint 1 (h.cAddr i)) label i hi).trans
        (stored_uint (hh.cAddr i hi))
    case isFalse => rfl
  have hlabels : ∀ i : Fin 16, label.getD i 0 = h.cLabel i := fun i => by
    rw [getD_map_ofFn_append _ _ _ i.isLt, stored_uint (hh.cLabel _)]
  have hfilesyss : ∀ i : Fin 64, filesys.getD i 0 = h.cFilesys i := fun i => by
    rw [getD_map_ofFn_append _ _ _ i.isLt, stored_uint (hh.cFilesys _)]
  have hdevs : ∀ i : Fin 64, dev.getD i 0 = h.cDev i := fun i => by
    rw [getD_map_ofFn_append _ _ _ i.isLt, stored_uint (hh.cDev _)]
  have hhosts : ∀ i : Fin 64, host.getD i 0 = h.cHost i := fun i => by
    rw [getD_map_ofFn_append _ _ _ i.isLt, stored_uint (hh.cHost _)]
  have hflags : BitVec.ofNat 32 (uint 4 h.cFlags.toNat).stored = h.cFlags := by
    rw [stored_uint h.cFlags.isLt, BitVec.ofNat_toNat, BitVec.setWidth_eq]
  rw [hv, Spcl.ofVals, htype, hdinode, hcount, haddr, hlabel, hlevel, hfilesys, hdev, hhost, hlast]
  refine ⟨_, rfl, ?_⟩
  simp only [Spcl.members, v, dinode, count, level, last, List.map_cons, List.cons_append,
    List.getD_cons_succ, List.getD_cons_zero, toSigned_sint hh.cDate, toSigned_sint hh.cDdate,
    toSigned_sint hh.cVolume, toSigned_sint hh.cMagic, toSigned_sint hh.cChecksum,
    toSigned_sint hh.cCount, toSigned_sint hh.cLevel, toSigned_sint hh.cFirstrec,
    toSigned_sint hh.cNtrec, toSigned_sint hh.cExtattributes, stored_uint hh.cTapea,
    stored_uint hh.cInumber, NewBsdInode.ofVals_stored hh.cDinode, hlabels, hfilesyss, hdevs,
    hhosts, hflags, haddrs]

theorem Spcl.read_image {h : Spcl} (hh : h.Fits) (m : Order) (rest : List UInt8) :
    ∃ h', Spcl.read m (ByteOrder.image m h.scalarsMain ++ rest) = some h' ∧
      h'.members = h.members := by
  have hread := ByteOrder.read_image m h.scalarsMain rest
  rw [h.map_width_scalarsMain] at hread
  rw [Spcl.read, hread]
  exact ofVals_stored hh _ _

/-! ## The magic number and the checksum -/

theorem swabi_ofBytesLE {bs : List UInt8} (h : bs.length = 4) :
    swabi (ofBytesLE bs) = ofBytesLE bs.reverse := by
  rw [swabi, ← h, bytesLE_ofBytesLE]

/-- The words of a machine of the other byte order. -/
theorem map_swabi_words (m : Order) (n : ℕ) (bs : List UInt8) (h : n * 4 ≤ bs.length) :
    (words m n bs).map swabi = words m.other n bs := by
  have hdecode : ∀ (n : ℕ) (bs : List UInt8), n * 4 ≤ bs.length →
      (decode (List.replicate n 4) bs).map swabi =
        decode (List.replicate n 4) (swab (List.replicate n 4) bs) := by
    intro n
    induction n with
    | zero => intro _ _; rfl
    | succ n ih =>
      intro bs hbs
      have htake : (bs.take 4).length = 4 := by
        rw [List.length_take]
        omega
      have hrev : (bs.take 4).reverse.length = 4 := by rw [List.length_reverse, htake]
      rw [List.replicate_succ, decode, swab, decode, List.take_left' hrev, List.drop_left' hrev,
        List.map_cons, swabi_ofBytesLE htake, ih _ (by rw [List.length_drop]; omega)]
  cases m with
  | little => exact hdecode n bs h
  | big =>
    have hswab := hdecode n (swab (List.replicate n 4) bs) (by rwa [length_swab])
    rw [swab_swab _ _ (by rwa [size_replicate])] at hswab
    exact hswab

/-- `checksum` of restore, on a machine of byte order `m`. -/
def checksumCvt (m : Order) (bcvt : Bool) (bs : List UInt8) : Bool :=
  ((((words m (tpBsize / 4) bs).map fun x => if bcvt then swabi x else x).sum : ℤ) -
    checksumTotal) % 2 ^ 32 = 0

theorem checksumCvt_eq (m : Order) (bcvt : Bool) {bs : List UInt8} (h : bs.length = tpBsize) :
    checksumCvt m bcvt bs = checksum (if bcvt then m.other else m) bs := by
  rw [checksumCvt, checksum, wordSum]
  cases bcvt with
  | false => simp
  | true =>
    have hwords := map_swabi_words m (tpBsize / 4) bs (by rw [h]; decide)
    simp [← hwords]

/-- `buf->c_magic`. -/
def magic (m : Order) (buf : List UInt8) : ℕ := (ByteOrder.read m [4] (buf.drop 24)).headD 0

theorem magic_image {h : Spcl} (hmagic : h.cMagic = nfsMagic) (m : Order) :
    magic m (h.image m) = nfsMagic ∧ magic m (h.image m.other) = swabi nfsMagic := by
  have hdrop : ∀ t : Order, ∃ rest, (h.image t).drop 24 =
      ByteOrder.image t [sint 4 nfsMagic] ++ rest := by
    intro t
    let before := [uint 4 h.cType.code, sint 4 h.cDate, sint 4 h.cDdate, sint 4 h.cVolume,
      uint 4 h.cTapea, uint 4 h.cInumber]
    have hscalars : h.scalars =
        before ++ ([sint 4 nfsMagic] ++ sint 4 h.cChecksum :: h.scalarsAfter) := by
      rw [← hmagic]
      rfl
    have hlen : (ByteOrder.image t before).length = 24 := by
      rw [ByteOrder.length_image]
      rfl
    refine ⟨ByteOrder.image t (sint 4 h.cChecksum :: h.scalarsAfter), ?_⟩
    rw [Spcl.image, hscalars, ByteOrder.image_append, List.drop_left' hlen,
      ByteOrder.image_append]
  have hwords : ∀ t : Order, words t 1 ((h.image t).drop 24) = [nfsMagic] := by
    intro t
    obtain ⟨rest, hrest⟩ := hdrop t
    have hread := ByteOrder.read_image t [sint 4 nfsMagic] rest
    rw [hrest]
    exact hread
  have hother := map_swabi_words m.other 1 ((h.image m.other).drop 24)
    (by rw [List.length_drop, Spcl.length_image]; decide)
  rw [hwords m.other, show m.other.other = m by cases m <;> rfl] at hother
  have hmagic_eq : ∀ bs, magic m bs = (words m 1 (bs.drop 24)).headD 0 := fun _ => rfl
  rw [hmagic_eq, hmagic_eq, hwords m, ← hother]
  exact ⟨rfl, rfl⟩

/-! ## The conversion -/

/-- The globals that `converthead` keeps from one header to the next. -/
structure Cvt where
  bcvt : Bool
  qcvt : Bool
  oldinofmt : Bool
  readmapflag : Bool
  deriving Inhabited

/-- The exchange of the halves of a quad. -/
def quadSwap (n : ℕ) : ℕ := n / 2 ^ 32 + n % 2 ^ 32 * 2 ^ 32

/-- What makes `converthead` think that the halves of `di_size` are exchanged. -/
def Spcl.QuadSwapped (h : Spcl) : Prop :=
  (h.cDinode.diSize = 0 ∨ 0xfffffff < h.cDinode.diSize) ∧ ifmt h.cDinode.diMode = ifDir ∧
    h.cDinode.diSize ≠ 0

instance (h : Spcl) : Decidable h.QuadSwapped := inferInstanceAs (Decidable (_ ∧ _ ∧ _))

/-- `buf->c_dinode.di_size = n`. -/
def Spcl.setSize (h : Spcl) (n : ℕ) : Spcl := { h with cDinode := { h.cDinode with diSize := n } }

/-- The header with the halves of `di_size` exchanged. -/
def Spcl.quadSwap (h : Spcl) : Spcl := h.setSize (DumpRestore.quadSwap h.cDinode.diSize)

/-- `converthead` from the label `good` on. -/
def convertheadGood (h : Spcl) (g : Cvt) : Spcl × Cvt :=
  let g := if h.QuadSwapped ∧ g.qcvt = false then { g with qcvt := true } else g
  let h := if g.qcvt then h.quadSwap else h
  let g := { g with
    readmapflag := h.isLongMap
    oldinofmt := g.oldinofmt || (decide (h.cType = .tape) && h.cFlags &&& drNewinodefmt == 0) }
  let h := h.patch
  if g.oldinofmt then
    ({ h with cDinode := { h.cDinode with diUid := h.cDinode.diOuid, diGid := h.cDinode.diOgid } },
      g)
  else (h, g)

/-- `converthead` on a record of a tape that is not in the old format (`cvtflag` is clear), on a
machine of byte order `m`. The run stops at a header of none of the record types. -/
def convertheadBytes (m : Order) (buf : List UInt8) (g : Cvt) : Option Spcl × Cvt :=
  if magic m buf ≠ nfsMagic ∧ swabi (magic m buf) ≠ nfsMagic then (none, g)
  else
    let g := if magic m buf ≠ nfsMagic then { g with bcvt := true } else g
    if checksumCvt m g.bcvt buf then
      match Spcl.read m (if g.bcvt then swabst swabFormat 0 buf else buf) with
      | some h =>
        let p := convertheadGood h g
        (some p.1, p.2)
      | none => (none, g)
    else (none, g)

/-- The test of the magic number and the checksum. -/
def headerPasses (m : Order) (bcvt : Bool) (buf : List UInt8) : Bool :=
  (magic m buf == nfsMagic || swabi (magic m buf) == nfsMagic) &&
    checksumCvt m (bcvt || magic m buf != nfsMagic) buf

/-- The structure that `converthead` sees behind this test, unless its type is unknown. -/
def headerOf (m : Order) (bcvt : Bool) (buf : List UInt8) : Option Spcl :=
  Spcl.read m (if bcvt || magic m buf != nfsMagic then swabst swabFormat 0 buf else buf)

theorem isSome_convertheadBytes (m : Order) (buf : List UInt8) (g : Cvt) :
    (convertheadBytes m buf g).1.isSome =
      (headerPasses m g.bcvt buf && (headerOf m g.bcvt buf).isSome) := by
  unfold convertheadBytes headerPasses headerOf
  by_cases hnfs : magic m buf = nfsMagic
  · simp only [hnfs, ne_eq, not_true_eq_false, false_and, if_false, beq_self_eq_true, Bool.true_or,
      Bool.true_and, bne_self_eq_false, Bool.or_false]
    cases checksumCvt m g.bcvt buf with
    | false => rfl
    | true =>
      simp only [if_true, Bool.true_and]
      cases Spcl.read m (if g.bcvt = true then swabst swabFormat 0 buf else buf) <;> rfl
  · by_cases hother : swabi (magic m buf) = nfsMagic
    · simp only [hnfs, hother, ne_eq, not_false_eq_true, not_true_eq_false, and_false, if_false,
        if_true, beq_self_eq_true, Bool.or_true, Bool.true_and]
      have hbne : (magic m buf != nfsMagic) = true := bne_iff_ne.mpr hnfs
      rw [hbne, Bool.or_true]
      cases checksumCvt m true buf with
      | false => rfl
      | true =>
        simp only [if_true, Bool.true_and]
        cases Spcl.read m (swabst swabFormat 0 buf) <;> rfl
    · simp [hnfs, hother]

/-- What `converthead` does to a record: it may set `Bcvt` by the magic number, and then refuses the
record, or goes on to the label `good`. -/
theorem convertheadBytes_cases (m : Order) (buf : List UInt8) (g : Cvt) :
    ∃ g', (g' = g ∨ swabi (magic m buf) = nfsMagic ∧ g' = { g with bcvt := true }) ∧
      (convertheadBytes m buf g = (none, g') ∨
        ∃ h, convertheadBytes m buf g =
          (some (convertheadGood h g').1, (convertheadGood h g').2)) := by
  unfold convertheadBytes
  split
  · exact ⟨g, .inl rfl, .inl rfl⟩
  · next hmagic =>
    generalize hg' : (if magic m buf ≠ nfsMagic then { g with bcvt := true } else g) = g'
    refine ⟨g', ?_, ?_⟩
    · by_cases hnfs : magic m buf = nfsMagic
      · exact .inl (hg'.symm.trans (if_neg (not_not.mpr hnfs)))
      · exact .inr ⟨by_contra fun hne => hmagic ⟨hnfs, hne⟩, hg'.symm.trans (if_pos hnfs)⟩
    · dsimp only
      split
      · split
        · next h _ => exact .inr ⟨h, rfl⟩
        · exact .inl rfl
      · exact .inl rfl

/-- Swapping bytes is for good. -/
theorem bcvt_convertheadGood (h : Spcl) (g : Cvt) : (convertheadGood h g).2.bcvt = g.bcvt := by
  simp only [convertheadGood, apply_ite Prod.snd, apply_ite Cvt.bcvt, ite_self]

theorem isLongMap_patch (h : Spcl) : h.patch.isLongMap = h.isLongMap := by
  cases htype : h.cType <;> simp only [Spcl.patch, Spcl.isLongMap, htype]

theorem readmapflag_convertheadGood (h : Spcl) (g : Cvt) :
    (convertheadGood h g).2.readmapflag = (convertheadGood h g).1.isLongMap := by
  unfold convertheadGood
  generalize (if h.QuadSwapped ∧ g.qcvt = false then { g with qcvt := true } else g) = g'
  dsimp only
  generalize (if g'.qcvt = true then h.quadSwap else h) = h'
  split
  · exact (isLongMap_patch _).symm
  · exact (isLongMap_patch _).symm

/-- The flag is kept, or set by the magic number of the other byte order. -/
theorem bcvt_convertheadBytes (m : Order) (buf : List UInt8) (g : Cvt) :
    (convertheadBytes m buf g).2.bcvt = g.bcvt ∨
      swabi (magic m buf) = nfsMagic ∧ (convertheadBytes m buf g).2.bcvt = true := by
  obtain ⟨g', hg', hcases⟩ := convertheadBytes_cases m buf g
  have hbcvt : (convertheadBytes m buf g).2.bcvt = g'.bcvt := by
    rcases hcases with heq | ⟨h, heq⟩
    · rw [heq]
    · rw [heq, bcvt_convertheadGood]
  rw [hbcvt]
  rcases hg' with rfl | ⟨hmagic, rfl⟩
  · exact .inl rfl
  · exact .inr ⟨hmagic, rfl⟩

/-- `readmapflag` is that of the header that was accepted last. -/
theorem readmapflag_convertheadBytes {m : Order} {buf : List UInt8} {g : Cvt} {h : Spcl}
    (hconv : (convertheadBytes m buf g).1 = some h) :
    (convertheadBytes m buf g).2.readmapflag = h.isLongMap := by
  obtain ⟨g', -, heq | ⟨h₀, heq⟩⟩ := convertheadBytes_cases m buf g
  · rw [heq] at hconv
    cases hconv
  · rw [heq] at hconv ⊢
    obtain rfl := Option.some.inj hconv
    exact readmapflag_convertheadGood h₀ g'

/-! ## Headers of a dump -/

/-- A header in the state in which `writeheader` finds it, on a machine of byte order `t`: the
members have values of their types, and `main` has set `DR_NEWINODEFMT`. -/
structure Emitted where
  spcl : Spcl
  ino : ℕ
  fits : spcl.Fits
  ino_lt : ino < 2 ^ 32
  newinodefmt : spcl.cFlags &&& drNewinodefmt ≠ 0

/-- The header that `writeheader` puts on tape. -/
def Emitted.header (t : Order) (e : Emitted) : Spcl :=
  mkchecksum t { e.spcl with cInumber := e.ino, cMagic := nfsMagic }

theorem Emitted.fits_header (t : Order) (e : Emitted) : (e.header t).Fits := by
  have hmagic : FitsInt 4 (nfsMagic : ℤ) := by constructor <;> decide
  have hchecksum : ∀ x : ℤ, FitsInt 4 (x.bmod (2 ^ 32)) := by
    intro x
    rw [FitsInt]
    have := Int.le_bmod (x := x) (m := 2 ^ 32) (by decide)
    have := Int.bmod_lt (x := x) (m := 2 ^ 32) (by decide)
    omega
  exact { e.fits with
    cInumber := e.ino_lt
    cMagic := hmagic
    cChecksum := hchecksum _ }

/-- What comes out of the conversion of the header `h`. Headers of volumes and of maps have no inode
number, and `di_size` of a map is that of its records. The other members are those of `h`, up to
the halves of `di_size`. -/
structure Decoded (swapped : Prop) (h h' : Spcl) : Prop where
  cType : h'.cType = h.cType
  cVolume : h'.cVolume = h.cVolume
  cTapea : h'.cTapea = h.cTapea
  cCount : h'.cCount = h.cCount
  cFlags : h'.cFlags = h.cFlags
  cFirstrec : h'.cFirstrec = h.cFirstrec
  cNtrec : h'.cNtrec = h.cNtrec
  cExtattributes : h'.cExtattributes = h.cExtattributes
  cInumber : h'.cInumber = if h.cType = .inode ∨ h.cType = .addr then h.cInumber else 0
  cAddr : h.cType = .inode ∨ h.cType = .addr → ∀ i < tpNindir, h'.cAddr i = h.cAddr i
  cDinode : { h'.cDinode with diSize := 0 } = { h.cDinode with diSize := 0 }
  diSize_map : h.cType.isMap = true → h'.cDinode.diSize = (h.cCount * tpBsize % 2 ^ 64).toNat
  diSize : h.cType.isMap = false → ¬swapped → h'.cDinode.diSize = h.cDinode.diSize
  diSize_swapped : h.cType.isMap = false → swapped → h'.cDinode.diSize = quadSwap h.cDinode.diSize

theorem decoded_patch (h : Spcl) : Decoded False h h.patch := by
  rw [Spcl.patch]
  cases htype : h.cType <;> constructor <;> simp [htype, SpclType.isMap]

theorem decoded_setSize_patch (h : Spcl) {n : ℕ} (hn : n = quadSwap h.cDinode.diSize) :
    Decoded True h (h.setSize n).patch := by
  rw [Spcl.patch]
  cases htype : h.cType <;> constructor <;> simp [htype, SpclType.isMap, Spcl.setSize, hn]

theorem cFlags_setSize (h : Spcl) (n : ℕ) : (h.setSize n).cFlags = h.cFlags := rfl

theorem isLongMap_setSize (h : Spcl) (n : ℕ) : (h.setSize n).isLongMap = h.isLongMap := rfl

theorem cFlags_ite_quadSwap (h : Spcl) (q : Bool) :
    (if q then h.quadSwap else h).cFlags = h.cFlags := by
  cases q with
  | false => rfl
  | true => exact cFlags_setSize ..

theorem isLongMap_ite_quadSwap (h : Spcl) (q : Bool) :
    (if q then h.quadSwap else h).isLongMap = h.isLongMap := by
  cases q with
  | false => rfl
  | true => exact isLongMap_setSize ..

theorem convertheadGood_eq {h : Spcl} (hfmt : h.cFlags &&& drNewinodefmt ≠ 0) {g : Cvt}
    (hold : g.oldinofmt = false) :
    convertheadGood h g =
      ((if g.qcvt || decide h.QuadSwapped then h.quadSwap else h).patch,
        { g with qcvt := g.qcvt || decide h.QuadSwapped, readmapflag := h.isLongMap }) := by
  have hq : (if h.QuadSwapped ∧ g.qcvt = false then { g with qcvt := true } else g) =
      { g with qcvt := g.qcvt || decide h.QuadSwapped } := by
    obtain ⟨b, q, old, r⟩ := g
    by_cases hswap : h.QuadSwapped
    · rw [decide_eq_true hswap, Bool.or_true]
      cases q with
      | false => rw [if_pos ⟨hswap, rfl⟩]
      | true => rw [if_neg (by simp)]
    · rw [decide_eq_false hswap, Bool.or_false, if_neg (fun hand => hswap hand.1)]
  have hfmt' : (h.cFlags &&& drNewinodefmt == 0) = false := beq_eq_false_iff_ne.mpr hfmt
  simp only [convertheadGood, hq]
  simp only [cFlags_ite_quadSwap, isLongMap_ite_quadSwap, hold, hfmt', Bool.and_false,
    Bool.or_false, Bool.false_eq_true, if_false]

theorem eq_of_members {α : Type*} {g h : Spcl} (hm : g.members = h.members) (f : Spcl → α)
    (hf : ∀ h : Spcl, f h.members = f h) : f g = f h := by
  rw [← hf, hm, hf]

/-- What comes out depends on the members only. -/
theorem Decoded.congr {swapped : Prop} {g h h' : Spcl} (hd : Decoded swapped g h')
    (hm : g.members = h.members) : Decoded swapped h h' := by
  have htype : g.cType = h.cType := eq_of_members hm Spcl.cType fun _ => rfl
  have hdinode : g.cDinode = h.cDinode := eq_of_members hm Spcl.cDinode fun _ => rfl
  have hcount : g.cCount = h.cCount := eq_of_members hm Spcl.cCount fun _ => rfl
  exact {
    cType := hd.cType.trans htype
    cVolume := hd.cVolume.trans (eq_of_members hm Spcl.cVolume fun _ => rfl)
    cTapea := hd.cTapea.trans (eq_of_members hm Spcl.cTapea fun _ => rfl)
    cCount := hd.cCount.trans hcount
    cFlags := hd.cFlags.trans (eq_of_members hm Spcl.cFlags fun _ => rfl)
    cFirstrec := hd.cFirstrec.trans (eq_of_members hm Spcl.cFirstrec fun _ => rfl)
    cNtrec := hd.cNtrec.trans (eq_of_members hm Spcl.cNtrec fun _ => rfl)
    cExtattributes := hd.cExtattributes.trans
      (eq_of_members hm Spcl.cExtattributes fun _ => rfl)
    cInumber := by
      rw [hd.cInumber, htype, eq_of_members hm Spcl.cInumber fun _ => rfl]
    cAddr := fun ht i hi => (hd.cAddr (htype ▸ ht) i hi).trans
      (eq_of_members hm (fun h => h.cAddr i) fun _ => if_pos hi)
    cDinode := hdinode ▸ hd.cDinode
    diSize_map := fun ht => hcount ▸ hd.diSize_map (htype ▸ ht)
    diSize := fun ht => hdinode ▸ hd.diSize (htype ▸ ht)
    diSize_swapped := fun ht => hdinode ▸ hd.diSize_swapped (htype ▸ ht) }

theorem Spcl.QuadSwapped.congr {g h : Spcl} (hm : g.members = h.members) :
    g.QuadSwapped ↔ h.QuadSwapped := by
  rw [Spcl.QuadSwapped, Spcl.QuadSwapped, eq_of_members hm Spcl.cDinode fun _ => rfl]

theorem swabi_nfsMagic : swabi nfsMagic ≠ nfsMagic ∧ swabi (swabi nfsMagic) = nfsMagic := by
  decide

theorem eq_of_ne_other {m t : Order} (h : t ≠ m.other) : t = m := by
  cases m <;> cases t <;> first | rfl | exact absurd rfl h

/-- The bytes of the members, in the byte order of the machine. -/
theorem exists_members_image (m t : Order) (h : Spcl) :
    ∃ rest, (if decide (t = m.other) then swabst swabFormat 0 (h.image t) else h.image t) =
      ByteOrder.image m h.scalarsMain ++ rest := by
  refine ⟨ByteOrder.image t (List.ofFn fun i => sint 4 (h.cSpare i)), ?_⟩
  rw [h.image_eq]
  by_cases ht : t = m.other
  · rw [if_pos (decide_eq_true ht), swabst_swabFormat, ← h.map_width_scalarsMain, swab_image_other,
      show t.other = m by cases ht; cases m <;> rfl]
  · rw [if_neg (by simpa using ht), eq_of_ne_other ht]

/-- `converthead` sees the members of a header, whichever byte order they were written in. -/
theorem convertheadBytes_eq (m t : Order) (e : Emitted) {g : Cvt}
    (hg : g.bcvt = true → t = m.other) :
    ∃ h, h.members = (e.header t).members ∧
      convertheadBytes m ((e.header t).image t) g =
        (some (convertheadGood h { g with bcvt := decide (t = m.other) }).1,
          (convertheadGood h { g with bcvt := decide (t = m.other) }).2) := by
  have hsum : checksumCvt m (decide (t = m.other)) ((e.header t).image t) = true := by
    rw [checksumCvt_eq _ _ (Spcl.length_image ..),
      show (if decide (t = m.other) then m.other else m) = t by
        cases m <;> cases t <;> rfl]
    exact checksum_mkchecksum ..
  obtain ⟨rest, hbytes⟩ := exists_members_image m t (e.header t)
  obtain ⟨h, hread, hmembers⟩ := Spcl.read_image (e.fits_header t) m rest
  rw [← hbytes] at hread
  refine ⟨h, hmembers, ?_⟩
  have hm : (e.header t).cMagic = nfsMagic := rfl
  have hother (ht : t = m.other) : magic m ((e.header t).image t) = swabi nfsMagic := by
    have hmagic := (magic_image hm m).2
    rwa [← ht] at hmagic
  have hsame (ht : t ≠ m.other) : magic m ((e.header t).image t) = nfsMagic := by
    have hmagic := (magic_image hm m).1
    rwa [eq_of_ne_other ht] at hmagic ⊢
  have hbcvt : (if magic m ((e.header t).image t) ≠ nfsMagic then { g with bcvt := true } else g) =
      { g with bcvt := decide (t = m.other) } := by
    by_cases ht : t = m.other
    · rw [if_pos (by rw [hother ht]; exact swabi_nfsMagic.1), decide_eq_true ht]
    · have hnot : g.bcvt = false := by simpa using mt hg ht
      rw [if_neg (not_not.mpr (hsame ht)), decide_eq_false ht, ← hnot]
  have hgood : ¬(magic m ((e.header t).image t) ≠ nfsMagic ∧
      swabi (magic m ((e.header t).image t)) ≠ nfsMagic) := by
    rintro ⟨hne, hne'⟩
    by_cases ht : t = m.other
    · rw [hother ht] at hne'
      exact hne' swabi_nfsMagic.2
    · exact hne (hsame ht)
  rw [convertheadBytes, if_neg hgood, hbcvt]
  simp only [hsum, if_true, hread]

/-! ## Headers of the same dump -/

/-- The globals after the headers `es` of a dump from a machine of byte order `t`. -/
def cvtAfter (m t : Order) (es : List Emitted) : Cvt :=
  es.foldl (fun g e => (convertheadBytes m ((e.header t).image t) g).2)
    ⟨false, false, false, false⟩

/-- Some header looks as if the halves of its `di_size` were exchanged. -/
def SomeQuadSwapped (es : List Emitted) : Prop := ∃ e ∈ es, e.spcl.QuadSwapped

/-- One header: the member `bcvt` says how the tape was written, and `qcvt` whether some header
so far looked exchanged. -/
theorem convertheadBytes_image (m t : Order) (e : Emitted) {g : Cvt}
    (hg : g.bcvt = true → t = m.other) (hold : g.oldinofmt = false) :
    ∃ h', (convertheadBytes m ((e.header t).image t) g).1 = some h' ∧
      Decoded (g.qcvt = true ∨ e.spcl.QuadSwapped) (e.header t) h' ∧
      (convertheadBytes m ((e.header t).image t) g).2 =
        ⟨decide (t = m.other), g.qcvt || decide e.spcl.QuadSwapped, false,
          (e.header t).isLongMap⟩ := by
  obtain ⟨h, hmembers, heq⟩ := convertheadBytes_eq m t e hg
  have hflags : h.cFlags = e.spcl.cFlags := eq_of_members hmembers Spcl.cFlags fun _ => rfl
  have hswap : decide h.QuadSwapped = decide e.spcl.QuadSwapped :=
    decide_eq_decide.mpr ((Spcl.QuadSwapped.congr hmembers).trans Iff.rfl)
  have hlong : h.isLongMap = (e.header t).isLongMap :=
    eq_of_members hmembers Spcl.isLongMap fun _ => rfl
  rw [heq, convertheadGood_eq (g := { g with bcvt := decide (t = m.other) })
    (by rw [hflags]; exact e.newinodefmt) hold]
  dsimp only
  rw [hswap, hlong]
  refine ⟨_, rfl, ?_, by rw [hold]⟩
  cases hq : g.qcvt || decide e.spcl.QuadSwapped with
  | false =>
    have hnot : ¬(g.qcvt = true ∨ e.spcl.QuadSwapped) := by simpa using hq
    rw [eq_false hnot]
    exact (decoded_patch h).congr hmembers
  | true =>
    have hyes : g.qcvt = true ∨ e.spcl.QuadSwapped := by simpa using hq
    rw [eq_true hyes]
    exact (decoded_setSize_patch h rfl).congr hmembers

/-- None of the types of a record is one of the other byte order. -/
theorem ofCode_swabi {n : ℕ} {type : SpclType} (h : SpclType.ofCode n = some type) :
    SpclType.ofCode (swabi n) = none := by
  have hcode : type.code = n := by
    rw [SpclType.ofCode] at h
    exact beq_iff_eq.mp (List.find?_some (p := fun t : SpclType => t.code == n) h)
  rw [← hcode]
  cases type <;> decide

/-- The first member of a structure whose bytes are swapped. -/
theorem read_swab_cons (m : Order) (ws : List ℕ) {bs : List UInt8} (h : 4 ≤ bs.length) :
    (ByteOrder.read m (4 :: ws) (swab (4 :: ws) bs)).getD 0 0 =
      swabi ((ByteOrder.read m (4 :: ws) bs).getD 0 0) := by
  have htake : (bs.take 4).length = 4 := by rw [List.length_take]; omega
  have hrev : (bs.take 4).reverse.length = 4 := by rw [List.length_reverse, htake]
  cases m with
  | little =>
    change ofBytesLE (((bs.take 4).reverse ++ swab ws (bs.drop 4)).take 4) =
      swabi (ofBytesLE (bs.take 4))
    rw [List.take_left' hrev, swabi_ofBytesLE htake]
  | big =>
    change ofBytesLE (((((bs.take 4).reverse ++ swab ws (bs.drop 4)).take 4).reverse ++
        swab ws (((bs.take 4).reverse ++ swab ws (bs.drop 4)).drop 4)).take 4) =
      swabi (ofBytesLE (((bs.take 4).reverse ++ swab ws (bs.drop 4)).take 4))
    rw [List.take_left' hrev, List.reverse_reverse, List.take_left' htake, swabi_ofBytesLE hrev,
      List.reverse_reverse]

/-- A record that is a structure of a known type is none with its bytes swapped. -/
theorem read_swabst_of_read {m : Order} {buf : List UInt8} {h : Spcl} (hlen : 4 ≤ buf.length)
    (hread : Spcl.read m buf = some h) : Spcl.read m (swabst swabFormat 0 buf) = none := by
  rw [Spcl.read, Spcl.ofVals, Option.map_eq_some_iff] at hread
  obtain ⟨type, htype, -⟩ := hread
  rw [swabst_swabFormat, Spcl.read, Spcl.ofVals, Option.map_eq_none_iff,
    show swabWidths = 4 :: swabWidths.tail from rfl, read_swab_cons m _ hlen]
  rw [show swabWidths = 4 :: swabWidths.tail from rfl] at htype
  exact ofCode_swabi htype

/-- `converthead` refuses a header once it swaps bytes, if it has accepted it before. -/
theorem convertheadBytes_of_bcvt {m : Order} {buf : List UInt8} {g g' : Cvt}
    (hlen : 4 ≤ buf.length) (hbcvt : g.bcvt = false) (hmagic : swabi (magic m buf) ≠ nfsMagic)
    (hsome : (convertheadBytes m buf g).1.isSome = true) (hg : g'.bcvt = true) :
    (convertheadBytes m buf g').1 = none := by
  rw [isSome_convertheadBytes, hbcvt, Bool.and_eq_true] at hsome
  obtain ⟨hpasses, hheader⟩ := hsome
  have hnfs : magic m buf = nfsMagic := by
    rw [headerPasses, beq_false_of_ne hmagic, Bool.or_false, Bool.and_eq_true] at hpasses
    exact eq_of_beq hpasses.1
  obtain ⟨h, hread⟩ := Option.isSome_iff_exists.mp hheader
  rw [headerOf, hnfs, bne_self_eq_false, Bool.or_false, if_neg Bool.false_ne_true] at hread
  have hnone : headerOf m true buf = none := by
    rw [headerOf, Bool.true_or, if_pos rfl]
    exact read_swabst_of_read hlen hread
  rw [← Option.isNone_iff_eq_none, ← Option.not_isSome, isSome_convertheadBytes, hg, hnone]
  simp

/-- `converthead` refuses a header of its own byte order once it swaps bytes. -/
theorem convertheadBytes_image_of_bcvt (m : Order) (e : Emitted) {g : Cvt} (hg : g.bcvt = true) :
    (convertheadBytes m ((e.header m).image m) g).1 = none := by
  have hmagic : magic m ((e.header m).image m) = nfsMagic :=
    (magic_image (rfl : (e.header m).cMagic = nfsMagic) m).1
  have hlen : 4 ≤ ((e.header m).image m).length := by
    rw [Spcl.length_image]
    decide
  obtain ⟨h, -, heq⟩ := convertheadBytes_eq m m e (g := default) nofun
  refine convertheadBytes_of_bcvt (g := default) hlen rfl
    (by rw [hmagic]; exact swabi_nfsMagic.1) ?_ hg
  rw [heq]
  rfl

/-- The law of the globals, from one header of the dump to the next. -/
theorem cvtAfter_law (m t : Order) (es : List Emitted) :
    ((cvtAfter m t es).bcvt = true → t = m.other) ∧ (cvtAfter m t es).oldinofmt = false ∧
      ((cvtAfter m t es).qcvt = true ↔ SomeQuadSwapped es) := by
  induction es using List.reverseRecOn with
  | nil => exact ⟨nofun, rfl, by simp [cvtAfter, SomeQuadSwapped]⟩
  | append_singleton es e ih =>
    obtain ⟨hb, hold, hq⟩ := ih
    obtain ⟨h', -, -, hg⟩ := convertheadBytes_image m t e hb hold
    rw [cvtAfter, List.foldl_append, List.foldl_cons, List.foldl_nil]
    rw [cvtAfter] at hg hq
    rw [hg]
    refine ⟨fun hdec => of_decide_eq_true hdec, rfl, ?_⟩
    rw [Bool.or_eq_true, hq, decide_eq_true_iff]
    simp only [SomeQuadSwapped, List.mem_append, List.mem_singleton, or_and_right, exists_or,
      exists_eq_left]

/-- **The round trip of a header.** After any headers of the same dump, `converthead` accepts a
header that `writeheader` wrote on a machine of either byte order, and returns its members, with
the halves of `di_size` exchanged once some directory had more than `0xfffffff` bytes. -/
theorem decoded_header (m t : Order) (es : List Emitted) (e : Emitted) :
    ∃ h', (convertheadBytes m ((e.header t).image t) (cvtAfter m t es)).1 = some h' ∧
      Decoded (SomeQuadSwapped (es ++ [e])) (e.header t) h' := by
  obtain ⟨hb, hold, hq⟩ := cvtAfter_law m t es
  obtain ⟨h', hget, hdecoded, -⟩ := convertheadBytes_image m t e hb hold
  refine ⟨h', hget, ?_⟩
  have hsome : SomeQuadSwapped (es ++ [e]) ↔
      (cvtAfter m t es).qcvt = true ∨ e.spcl.QuadSwapped := by
    rw [hq]
    simp only [SomeQuadSwapped, List.mem_append, List.mem_singleton, or_and_right, exists_or,
      exists_eq_left]
  rwa [hsome]

/-- The exchange does nothing just to equal halves. -/
theorem quadSwap_eq_iff (n : ℕ) : quadSwap n = n ↔ n / 2 ^ 32 = n % 2 ^ 32 := by
  have := Nat.div_add_mod n (2 ^ 32)
  rw [quadSwap]
  omega

/-- **The round trip of a header, exactly.** After any headers of the same dump, `converthead`
accepts a header that `writeheader` wrote on a machine of either byte order, and returns its
members, just if it is the header of a map, or no header so far, this one included, is that of a
directory of more than `0xfffffff` bytes, or its `di_size` has equal halves. -/
theorem decoded_header_iff (m t : Order) (es : List Emitted) (e : Emitted) :
    (∃ h', (convertheadBytes m ((e.header t).image t) (cvtAfter m t es)).1 = some h' ∧
      Decoded False (e.header t) h') ↔
    e.spcl.cType.isMap = true ∨ ¬SomeQuadSwapped (es ++ [e]) ∨
      e.spcl.cDinode.diSize / 2 ^ 32 = e.spcl.cDinode.diSize % 2 ^ 32 := by
  obtain ⟨h, hget, hdecoded⟩ := decoded_header m t es e
  have hsize : (e.header t).cDinode.diSize = e.spcl.cDinode.diSize := rfl
  constructor
  · rintro ⟨h', hget', hrestored⟩
    obtain rfl : h = h' := Option.some.inj (hget.symm.trans hget')
    by_contra hnone
    obtain ⟨hmap, hswapped, hhalves⟩ : ¬e.spcl.cType.isMap = true ∧ SomeQuadSwapped (es ++ [e]) ∧
        ¬e.spcl.cDinode.diSize / 2 ^ 32 = e.spcl.cDinode.diSize % 2 ^ 32 := by
      simpa [not_or] using hnone
    have hnotMap : (e.header t).cType.isMap = false := Bool.eq_false_iff.mpr hmap
    have hexchanged := hdecoded.diSize_swapped hnotMap hswapped
    rw [hrestored.diSize hnotMap not_false, hsize] at hexchanged
    exact hhalves ((quadSwap_eq_iff _).mp hexchanged.symm)
  · intro hcond
    refine ⟨h, hget, { hdecoded with diSize := ?_, diSize_swapped := ?_ }⟩
    · intro hnotMap _
      by_cases hswapped : SomeQuadSwapped (es ++ [e])
      · obtain hmap | hnone | hhalves := hcond
        · exact absurd hmap (Bool.eq_false_iff.mp hnotMap)
        · exact absurd hswapped hnone
        · rw [hdecoded.diSize_swapped hnotMap hswapped, hsize]
          exact (quadSwap_eq_iff _).mpr hhalves
      · exact hdecoded.diSize hnotMap hswapped
    · exact fun _ hfalse => hfalse.elim

/-! ## Headers without their bytes -/

theorem members_patch {g h : Spcl} (hm : g.members = h.members) :
    g.patch.members = h.patch.members := by
  have hpatch : ∀ h : Spcl, h.patch.members = h.members.patch.members := by
    intro h
    have htype : h.members.cType = h.cType := rfl
    rw [Spcl.patch, Spcl.patch, htype]
    cases h.cType <;> simp only [Spcl.members] <;> congr 1 <;> funext i <;> split <;> simp_all
  rw [hpatch, hm, ← hpatch]

/-- Without exchanged halves, the conversion of the bytes is that of the header itself. -/
theorem convertheadBytes_refines (m : Order) (e : Emitted) {g : Cvt}
    (hg : g.bcvt = true → Order.little = m.other) (hold : g.oldinofmt = false)
    (hq : g.qcvt = false) (hswap : ¬e.spcl.QuadSwapped) (t : Tape) :
    ∃ h h', (convertheadBytes m ((e.header .little).image .little) g).1 = some h ∧
      (converthead (.spcl (e.header .little)) t).1 = some h' ∧ h.members = h'.members := by
  obtain ⟨h, hmembers, heq⟩ := convertheadBytes_eq m .little e hg
  have hflags : h.cFlags = e.spcl.cFlags := eq_of_members hmembers Spcl.cFlags fun _ => rfl
  have hnot : decide h.QuadSwapped = false :=
    decide_eq_false (mt ((Spcl.QuadSwapped.congr hmembers).trans Iff.rfl).mp hswap)
  have haccepted : (e.header .little).accepted = true := by
    rw [Spcl.accepted, Bool.and_eq_true]
    exact ⟨decide_eq_true rfl, checksum_mkchecksum ..⟩
  rw [heq, convertheadGood_eq (g := { g with bcvt := decide (Order.little = m.other) })
    (by rw [hflags]; exact e.newinodefmt) hold]
  dsimp only
  rw [hnot, hq, converthead, if_pos haccepted]
  exact ⟨_, _, rfl, rfl, members_patch hmembers⟩

/-! ## Headers that come back different -/

/-- The natural numbers that fit. -/
theorem fitsInt_natCast {w n : ℕ} (hn : n < 256 ^ w / 2) : FitsInt w n := by
  have hlt : (n : ℤ) < 256 ^ w / 2 := by exact_mod_cast hn
  rw [FitsInt]
  omega

theorem zero_lt_size : 0 < 256 ^ 8 := by decide

/-- A header of inode 2, a directory of `size` bytes. -/
def directoryHeader (type : SpclType) (size : ℕ) (hsize : size < 256 ^ 8) : Emitted where
  spcl := { (default : Spcl) with
    cType := type
    cDinode := { (default : NewBsdInode) with diMode := 0o040755, diSize := size }
    cFlags := drNewinodefmt }
  ino := 2
  fits := by
    have hint : FitsInt 4 0 := fitsInt_natCast (n := 0) (by decide)
    have hword : 0 < 256 ^ 4 := by decide
    have hshort : 0 < 256 ^ 2 := by decide
    have hmode : 0o040755 < 256 ^ 2 := by decide
    have hdinode : ({ (default : NewBsdInode) with
        diMode := 0o040755, diSize := size } : NewBsdInode).Fits :=
      ⟨hmode, fitsInt_natCast (n := 0) (by decide), hshort, hshort, hsize, ⟨hword, hword⟩,
        ⟨hword, hword⟩, ⟨hword, hword⟩, fun _ => hword, hword, hint, hint, hword, hword,
        fun _ => hint⟩
    have hbyte : 0 < 256 := by decide
    exact ⟨hint, hint, hint, hword, hword, hint, hint, hdinode, hint, fun _ _ => hbyte,
      fun _ => hbyte, hint, fun _ => hbyte, fun _ => hbyte, fun _ => hbyte, hint, hint, hint⟩
  ino_lt := by decide
  newinodefmt := (by decide : drNewinodefmt &&& drNewinodefmt ≠ 0)

/-- A directory of 256 MiB comes back with another size. -/
theorem header_changed : ¬∃ h', (convertheadBytes .little
    (((directoryHeader .inode (2 ^ 28) (by decide)).header .little).image .little)
    (cvtAfter .little .little [])).1 = some h' ∧ h'.cDinode.diSize = 2 ^ 28 := by
  obtain ⟨h, hget, hdecoded, -⟩ := convertheadBytes_image .little .little
    (directoryHeader .inode (2 ^ 28) (by decide)) (g := cvtAfter .little .little []) nofun rfl
  rintro ⟨h', hget', hsize⟩
  obtain rfl : h = h' := Option.some.inj (hget.symm.trans hget')
  rw [hdecoded.diSize_swapped rfl (.inr (by decide))] at hsize
  exact absurd hsize (by decide)

end DumpRestore
