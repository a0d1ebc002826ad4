import DumpRestore.Restore.Convert

/-!
# Rejected headers

The whole of `converthead`, with the tapes in the old format and in that of UFS2. It keeps what it
has found out about the tape in globals, and reads later headers by them.

* `decode` is `converthead` on one record after the other.
* `rejected_iff` is the main theorem: the one kind of rejected record that changes the globals is
  one with the magic number in the other byte order and a checksum that does not hold.
-/

namespace DumpRestore

open ByteOrder (Order)

/-! ## The globals -/

/-- The globals that `converthead` reads and sets. -/
structure Decoder extends Cvt where
  cvtflag : Bool
  ufs2flag : Bool
  volinfo : List ℕ

/-- `OFS_MAGIC`. -/
def ofsMagic : ℕ := 60011

/-- `FS_UFS2_MAGIC`. -/
def fsUfs2Magic : ℕ := 0x19540119

/-- `DR_INODEINFO`. -/
def drInodeinfo : BitVec 32 := 0x0002#32

/-- `TP_NINOS`. -/
def tpNinos : ℕ := 128

/-- The number of `w` bytes at an offset of a record. -/
def member (m : Order) (w : ℕ) (buf : List UInt8) (off : ℕ) : ℕ :=
  (ByteOrder.read m [w] (buf.drop off)).headD 0

/-- `c_inos`, which lies where `c_addr` does. -/
def Spcl.cInos (m : Order) (h : Spcl) : List ℕ :=
  ByteOrder.read m (List.replicate tpNinos 4)
    ((List.range tpNindir).map fun i => UInt8.ofNat (h.cAddr i))

namespace Decoder

variable (m : Order)

/-! ## converthead -/

/-- The header made of a header in the old format. -/
def ofOspcl (buf : List UInt8) : Option Spcl :=
  (SpclType.ofCode (member m 4 buf 0)).map fun type =>
    { (default : Spcl) with
      cType := type
      cDate := toSigned 4 (member m 4 buf 4)
      cDdate := toSigned 4 (member m 4 buf 8)
      cVolume := toSigned 4 (member m 4 buf 12)
      cTapea := member m 4 buf 16
      cInumber := member m 2 buf 20
      cMagic := nfsMagic
      cChecksum := toSigned 4 (member m 4 buf 28)
      cDinode := { (default : NewBsdInode) with
        diMode := member m 2 buf 32
        diNlink := toSigned 2 (member m 2 buf 34)
        diUid := member m 2 buf 36
        diGid := member m 2 buf 38
        diSize := (toSigned 4 (member m 4 buf 40) % 2 ^ 64).toNat
        diDb := fun i => if i = 0 then member m 4 buf 44 else 0
        diAtime := ⟨member m 4 buf 84, 0⟩
        diMtime := ⟨member m 4 buf 88, 0⟩
        diCtime := ⟨member m 4 buf 92, 0⟩ }
      cCount := toSigned 4 (member m 4 buf 96)
      cAddr := fun i => if i < 256 then (buf.getD (100 + i) 0).toNat else 0 }

/-- The header made of a header of UFS2. -/
def ofUfs2 (buf : List UInt8) : Option Spcl :=
  (Spcl.read m buf).map fun h =>
    { h with
      cDate := toSigned 4 (member m 8 buf 896 % 2 ^ 32)
      cDdate := toSigned 4 (member m 8 buf 904 % 2 ^ 32)
      cTapea := member m 8 buf 912 % 2 ^ 32
      cFirstrec := toSigned 4 (member m 8 buf 920 % 2 ^ 32)
      cNtrec := 0
      cExtattributes := 0
      cFlags := h.cFlags ||| drNewinodefmt
      cMagic := nfsMagic }

/-- What `converthead` makes of a record: `FAIL`, `GOOD` with a header, or a header of an unknown
type, at which it panics. -/
inductive Outcome where
  | fail
  | good (h : Spcl)
  | panic

/-- `converthead` from the label `good` on. -/
def good (h : Option Spcl) (d : Decoder) : Outcome × Decoder :=
  match h with
  | none => (.panic, d)
  | some h =>
    let p := convertheadGood h d.toCvt
    let inodeinfo := (h.cType = .tape ∨ h.cType = .end_) ∧ h.cFlags &&& drInodeinfo ≠ 0#32
    (.good p.1, { d with
      toCvt := p.2
      volinfo := if inodeinfo then h.cInos (if d.bcvt then m.other else m) else d.volinfo })

/-- `converthead`. -/
def converthead (buf : List UInt8) (d : Decoder) : Outcome × Decoder :=
  if d.cvtflag = false then
    if magic m buf ≠ nfsMagic ∧ swabi (magic m buf) ≠ nfsMagic then (.fail, d)
    else
      let d := if magic m buf ≠ nfsMagic then { d with bcvt := true } else d
      if checksumCvt m d.bcvt buf then
        good m (Spcl.read m (if d.bcvt then swabst swabFormat 0 buf else buf)) d
      else (.fail, d)
  else if checksumCvt m d.bcvt buf then
    if magic m buf = ofsMagic then good m (ofOspcl m buf) d
    else if magic m buf = fsUfs2Magic then good m (ofUfs2 m buf) { d with ufs2flag := true }
    else (.fail, d)
  else (.fail, d)

/-- One record after the other. A panic ends the run. -/
def decode : List Block → Decoder → List Outcome × Decoder
  | [], d => ([], d)
  | r :: rs, d =>
    match converthead m r.bytes d with
    | (.panic, d) => ([.panic], d)
    | (o, d) => (o :: (decode rs d).1, (decode rs d).2)

/-! ## What a rejected record leaves -/

/-- The record has the magic number of the other byte order and not its checksum, on a tape on which
no header of the other byte order was seen. -/
def Leaks (buf : List UInt8) (d : Decoder) : Prop :=
  d.cvtflag = false ∧ d.bcvt = false ∧ swabi (magic m buf) = nfsMagic ∧
    checksumCvt m true buf = false

variable {m}

theorem good_ne_fail (h : Option Spcl) (d : Decoder) : (good m h d).1 ≠ .fail := by
  cases h <;> nofun

theorem magic_ne {buf : List UInt8} (h : swabi (magic m buf) = nfsMagic) :
    magic m buf ≠ nfsMagic := fun heq => swabi_nfsMagic.1 (heq ▸ h)

theorem converthead_of_leaks {buf : List UInt8} {d : Decoder} (h : Leaks m buf d) :
    converthead m buf d = (.fail, { d with bcvt := true }) := by
  obtain ⟨hcvt, -, hswab, hsum⟩ := h
  rw [converthead, if_pos hcvt, if_neg fun hand => hand.2 hswab]
  simp only [if_pos (magic_ne hswab), hsum, Bool.false_eq_true, if_false]

/-- Any other record that is rejected leaves the globals as they are. -/
theorem converthead_snd_of_not_leaks {buf : List UInt8} {d : Decoder} (h : ¬Leaks m buf d)
    (hfail : (converthead m buf d).1 = .fail) : (converthead m buf d).2 = d := by
  unfold converthead at hfail ⊢
  by_cases hcvt : d.cvtflag = false
  · rw [if_pos hcvt] at hfail ⊢
    by_cases hmagic : magic m buf ≠ nfsMagic ∧ swabi (magic m buf) ≠ nfsMagic
    · rw [if_pos hmagic]
    rw [if_neg hmagic] at hfail ⊢
    dsimp only at hfail ⊢
    by_cases hnfs : magic m buf = nfsMagic
    · rw [if_neg (not_not.2 hnfs)] at hfail ⊢
      split at hfail
      · exact absurd hfail (good_ne_fail _ _)
      · next hsum => rw [if_neg hsum]
    rw [if_pos hnfs] at hfail ⊢
    have hswab : swabi (magic m buf) = nfsMagic := not_not.1 fun hne => hmagic ⟨hnfs, hne⟩
    split at hfail
    · exact absurd hfail (good_ne_fail _ _)
    next hsum =>
      rw [if_neg hsum]
      -- the flag was set before, as the record would leak otherwise
      have hbcvt : d.bcvt = true := by
        by_contra hb
        exact h ⟨hcvt, by simpa using hb, hswab, by simpa using hsum⟩
      obtain ⟨⟨b, q, o, r⟩, c, u, v⟩ := d
      obtain rfl : b = true := hbcvt
      rfl
  · rw [if_neg hcvt] at hfail ⊢
    split_ifs at hfail ⊢ with hsum hofs hufs2
    · exact absurd hfail (good_ne_fail _ _)
    · exact absurd hfail (good_ne_fail _ _)
    · rfl
    · rfl

theorem good_of_some {h : Option Spcl} {h' : Spcl} {d : Decoder} {g : Cvt}
    (heq : (match h with
      | some h => (some (convertheadGood h d.toCvt).1, (convertheadGood h d.toCvt).2)
      | none => (none, d.toCvt)) = (some h', g)) :
    (good m h d).1 = .good h' ∧ (good m h d).2.toCvt = g := by
  cases h with
  | none => cases heq
  | some h =>
    obtain ⟨hh, rfl⟩ := Prod.mk.inj heq
    obtain rfl := Option.some.inj hh
    exact ⟨rfl, rfl⟩

/-- On a tape that is not in the old format this is `convertheadBytes`. -/
theorem converthead_of_some {buf : List UInt8} {d : Decoder} {h : Spcl} {g : Cvt}
    (hcvt : d.cvtflag = false) (hconv : convertheadBytes m buf d.toCvt = (some h, g)) :
    (converthead m buf d).1 = .good h ∧ (converthead m buf d).2.toCvt = g := by
  rw [convertheadBytes] at hconv
  rw [converthead, if_pos hcvt]
  by_cases hmagic : magic m buf ≠ nfsMagic ∧ swabi (magic m buf) ≠ nfsMagic
  · rw [if_pos hmagic] at hconv
    cases hconv
  rw [if_neg hmagic] at hconv ⊢
  dsimp only at hconv ⊢
  by_cases hnfs : magic m buf = nfsMagic
  · rw [if_neg (not_not.2 hnfs)] at hconv ⊢
    by_cases hsum : checksumCvt m d.bcvt buf = true
    · rw [if_pos hsum] at hconv ⊢
      exact good_of_some hconv
    · rw [if_neg hsum] at hconv
      cases hconv
  · rw [if_pos hnfs] at hconv ⊢
    by_cases hsum : checksumCvt m true buf = true
    · rw [if_pos hsum] at hconv ⊢
      exact good_of_some (d := { d with bcvt := true }) hconv
    · rw [if_neg hsum] at hconv
      cases hconv

/-! ## The records after it -/

/-- A header in the byte order of the machine. -/
def plain : Emitted := directoryHeader .end_ 0 zero_lt_size

variable (m) in
def plainRecord : Block := ⟨(plain.header m).image m, Spcl.length_image ..⟩

theorem plainRecord_checksum (m : Order) : checksumCvt m true (plainRecord m).bytes = false := by
  cases m <;> decide +kernel

theorem converthead_plainRecord {d : Decoder} (hcvt : d.cvtflag = false) (hb : d.bcvt = false) :
    ∃ h, (converthead m (plainRecord m).bytes d).1 = .good h := by
  obtain ⟨h, -, hconv⟩ := convertheadBytes_eq m m plain (g := d.toCvt) fun hb' => by
    rw [hb] at hb'
    cases hb'
  exact ⟨_, (converthead_of_some hcvt hconv).1⟩

theorem converthead_plainRecord_swapped {d : Decoder} (hcvt : d.cvtflag = false)
    (hb : d.bcvt = true) : (converthead m (plainRecord m).bytes d).1 = .fail := by
  have hmagic : magic m (plainRecord m).bytes = nfsMagic := (magic_image rfl m).1
  rw [converthead, if_pos hcvt, if_neg fun hand => hand.1 hmagic]
  simp only [hmagic, ne_eq, not_true_eq_false, if_false, hb, plainRecord_checksum,
    Bool.false_eq_true]

theorem converthead_snd_ne {buf : List UInt8} {d : Decoder} (h : Leaks m buf d) :
    (converthead m buf d).2 ≠ d := by
  intro hsame
  rw [converthead_of_leaks h] at hsame
  have hb : true = d.bcvt := congrArg (fun d : Decoder => d.bcvt) hsame
  rw [h.2.1] at hb
  cases hb

theorem head?_decode (r : Block) (rs : List Block) (d : Decoder) :
    (decode m (r :: rs) d).1.head? = some (converthead m r.bytes d).1 := by
  rw [decode]
  split
  · next heq => rw [heq, List.head?_cons]
  · next heq => rw [heq, List.head?_cons]

/-- It shows: a header in the byte order of the machine is not recognised any more. -/
theorem exists_decode_ne {buf : List UInt8} {d : Decoder} (h : Leaks m buf d) :
    ∃ rs, (decode m rs (converthead m buf d).2).1 ≠ (decode m rs d).1 := by
  refine ⟨[plainRecord m], ?_⟩
  rw [converthead_of_leaks h]
  obtain ⟨g, hgood⟩ := converthead_plainRecord (m := m) h.1 h.2.1
  have hfail := converthead_plainRecord_swapped (m := m) (d := { d with bcvt := true }) h.1 rfl
  intro heq
  have hhead := congrArg List.head? heq
  rw [head?_decode, head?_decode, hgood, hfail] at hhead
  cases hhead

/-- **A record that `converthead` rejects leaves all the globals alone if and only if it is not one
with the magic number of the other byte order and a checksum that does not hold, on a tape that so
far had headers of the machine's byte order. The same goes for the decoding of any records after
it.** -/
theorem rejected_iff (m : Order) (buf : List UInt8) (d : Decoder) :
    (((converthead m buf d).1 = .fail → (converthead m buf d).2 = d) ↔ ¬Leaks m buf d) ∧
      (((converthead m buf d).1 = .fail →
        ∀ rs, decode m rs (converthead m buf d).2 = decode m rs d) ↔ ¬Leaks m buf d) := by
  have hfail (hleaks : Leaks m buf d) : (converthead m buf d).1 = .fail := by
    rw [converthead_of_leaks hleaks]
  refine ⟨⟨fun h hleaks => ?_, converthead_snd_of_not_leaks⟩, fun h hleaks => ?_,
    fun hleaks hfail rs => ?_⟩
  · exact converthead_snd_ne hleaks (h (hfail hleaks))
  · obtain ⟨rs, hrs⟩ := exists_decode_ne hleaks
    exact hrs (congrArg Prod.fst (h (hfail hleaks) rs))
  · rw [converthead_snd_of_not_leaks hleaks hfail]

/-- A record with a magic number in the other byte order and zeros otherwise. -/
def swappedMagic : Block where
  bytes := List.replicate 26 0 ++ [0xea, 0x6c] ++ List.replicate 996 0
  length_bytes := by decide +kernel

/-- The globals at the start. -/
def initial : Decoder :=
  { bcvt := false, qcvt := false, oldinofmt := false, readmapflag := false, cvtflag := false,
    ufs2flag := false, volinfo := [] }

theorem rejected_changes : ¬∀ (m : Order) (r : Block) (d : Decoder),
    (converthead m r.bytes d).1 = .fail → (converthead m r.bytes d).2 = d ∧
      ∀ rs, decode m rs (converthead m r.bytes d).2 = decode m rs d := by
  intro h
  have hleaks : Leaks .little swappedMagic.bytes initial :=
    ⟨rfl, rfl, by decide +kernel, by decide +kernel⟩
  have hsame := h .little swappedMagic initial (by rw [converthead_of_leaks hleaks])
  exact converthead_snd_ne hleaks hsame.1

end Decoder

end DumpRestore
