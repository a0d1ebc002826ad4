import DumpRestore.Restore.Convert
import DumpRestore.Restore.GetFile

/-!
# A tape of bytes

Any record can come where restore looks for a header: data may begin with a magic number, and the
header of a tape from another machine may stand in the data of a file. Here the records are bytes,
and `gethead` converts them with the flags that `converthead` keeps.

* `ByteTape` is the mounted volume as the functions of `restore/tape.c` read it.
* `SteadyTape` is a volume of which restore would skip the records that derail it. A run on it that
  has not looked at such a record is the run on the volume itself (`Mirrored`).
-/

namespace DumpRestore

open ByteOrder (Order)

variable {m : Order}

/-! ## The volume -/

/-- The records left on the mounted volume, for a machine of byte order `m`, and the globals that
`gethead` reads and writes. -/
structure ByteTape (m : Order) where
  recs : List Block
  cvt : Cvt
  dumpdate : ℤ

/-- A record with the right magic number and checksum, and of an unknown type. -/
def unknownType (m : Order) (bcvt : Bool) (b : Block) : Bool :=
  headerPasses m bcvt b.bytes && (headerOf m bcvt b.bytes).isNone

namespace ByteTape

/-- The tape without its first `k` records. -/
def drop (k : ℕ) (t : ByteTape m) : ByteTape m := { t with recs := t.recs.drop k }

/-- `readtape`, up to the end of the volume. -/
def readtape (t : ByteTape m) : Option (Block × ByteTape m) :=
  t.recs.head?.map fun b => (b, t.drop 1)

/-- `gethead`. The run stops at a header of an unknown type. -/
def gethead (t : ByteTape m) : Option (Option Spcl × ByteTape m) :=
  t.readtape.bind fun p =>
    if unknownType m t.cvt.bcvt p.1 then none
    else
      let q := convertheadBytes m p.1.bytes t.cvt
      some (q.1, { p.2 with cvt := q.2 })

instance source : TapeSource (ByteTape m) where
  readBlock := readtape
  gethead := gethead
  readmapflag t := t.cvt.readmapflag
  dumpdate := ByteTape.dumpdate
  total t := t.recs.length

end ByteTape

/-! ## Records that derail restore -/

/-- The record makes `converthead` swap bytes from now on, before it is seen to be a header. -/
def Turns (m : Order) (bcvt : Bool) (b : Block) : Prop :=
  bcvt = false ∧ swabi (magic m b.bytes) = nfsMagic

/-- What `gethead` makes of the record is not for this record alone: it turns `Bcvt` on, or stops
restore. -/
def Derails (m : Order) (bcvt : Bool) (b : Block) : Prop :=
  Turns m bcvt b ∨ unknownType m bcvt b = true

instance (bcvt : Bool) (b : Block) : Decidable (Derails m bcvt b) :=
  inferInstanceAs (Decidable ((_ ∧ _) ∨ _))

/-- No header for a restore that swaps bytes. -/
def Silent (m : Order) (b : Block) : Prop :=
  ∀ g : Cvt, g.bcvt = true → (convertheadBytes m b.bytes g).1 = none

/-- A volume of which restore skips the records that derail it, and the records that it has looked
at for a header. -/
structure SteadyTape (m : Order) extends ByteTape m where
  looked : List Block

namespace SteadyTape

/-- The tape without its first `k` records. -/
def drop (k : ℕ) (t : SteadyTape m) : SteadyTape m :=
  { t with toByteTape := t.toByteTape.drop k }

/-- `readtape`. -/
def readtape (t : SteadyTape m) : Option (Block × SteadyTape m) :=
  t.toByteTape.readtape.map fun p => (p.1, { t with toByteTape := p.2 })

/-- `gethead`, on a record that does not derail restore. -/
def gethead (t : SteadyTape m) : Option (Option Spcl × SteadyTape m) :=
  t.readtape.map fun p =>
    let t' := { p.2 with looked := t.looked ++ [p.1] }
    if Derails m t.cvt.bcvt p.1 then (none, t')
    else
      let q := convertheadBytes m p.1.bytes t.cvt
      (q.1, { t' with cvt := q.2 })

instance source : TapeSource (SteadyTape m) where
  readBlock := readtape
  gethead := gethead
  readmapflag t := t.cvt.readmapflag
  dumpdate t := t.dumpdate
  total t := t.recs.length

end SteadyTape

/-! ## Two runs -/

/-- A step on the steady tape leads from `t` to `t'`, looks at the records `new`, and returns `v`;
on the tape itself the step returns `r`. This is the same, unless one of the records derails
restore. Then there is no result, if no record is a header for a restore that swaps bytes. -/
structure Mirrored {β : Type} (t : SteadyTape m) (new : List Block) (t' : SteadyTape m)
    (r : Option β) (v : β) : Prop where
  bcvt : t'.cvt.bcvt = t.cvt.bcvt
  dumpdate : t'.dumpdate = t.dumpdate
  recs : t'.recs <:+ t.recs
  looked : t'.looked = t.looked ++ new
  same : (∀ b ∈ new, ¬Derails m t.cvt.bcvt b) → r = some v
  lost : (∃ b ∈ new, Derails m t.cvt.bcvt b) →
    ((∃ b ∈ new, Turns m t.cvt.bcvt b) → ∀ b ∈ t.recs, Silent m b) → r = none

section Mirrored

variable {β γ : Type} {t t₁ t₂ : SteadyTape m} {new new' : List Block} {r : Option β} {v : β}

theorem Mirrored.bind {f : β → Option γ} {w : γ} (h : Mirrored t new t₁ r v)
    (h' : Mirrored t₁ new' t₂ (f v) w) : Mirrored t (new ++ new') t₂ (r.bind f) w where
  bcvt := h'.bcvt.trans h.bcvt
  dumpdate := h'.dumpdate.trans h.dumpdate
  recs := h'.recs.trans h.recs
  looked := by rw [h'.looked, h.looked, List.append_assoc]
  same hall := by
    obtain ⟨hnew, hnew'⟩ := List.forall_mem_append.mp hall
    rw [h.same hnew]
    exact h'.same (by rwa [h.bcvt])
  lost := by
    rintro ⟨b, hb, hderails⟩ hsilent
    by_cases hfirst : ∃ b ∈ new, Derails m t.cvt.bcvt b
    · rw [h.lost hfirst, Option.bind_none]
      rintro ⟨c, hc, hturns⟩
      exact hsilent ⟨c, List.mem_append_left _ hc, hturns⟩
    · have hnew : ∀ b ∈ new, ¬Derails m t.cvt.bcvt b := fun c hc hd => hfirst ⟨c, hc, hd⟩
      have hb' : b ∈ new' := (List.mem_append.mp hb).resolve_left fun hb => hnew b hb hderails
      rw [h.same hnew, Option.bind_some]
      refine h'.lost ⟨b, hb', by rwa [h.bcvt]⟩ ?_
      rintro ⟨c, hc, hturns⟩ d hd
      exact hsilent ⟨c, List.mem_append_right _ hc, by rwa [← h.bcvt]⟩ d (h.recs.subset hd)

theorem Mirrored.map (f : β → γ) (h : Mirrored t new t₁ r v) :
    Mirrored t new t₁ (r.map f) (f v) where
  bcvt := h.bcvt
  dumpdate := h.dumpdate
  recs := h.recs
  looked := h.looked
  same hall := by rw [h.same hall, Option.map_some]
  lost hd hs := by rw [h.lost hd hs, Option.map_none]

end Mirrored

/-! ## Looking for a header -/

section Header

variable {t : ByteTape m} {b : Block} {rs : List Block}

/-- A record that turns `Bcvt` on is accepted just if it is accepted with other flags. -/
theorem Turns.isSome {g : Cvt} (h : Turns m g.bcvt b) (g' : Cvt) :
    (convertheadBytes m b.bytes g).1.isSome = (convertheadBytes m b.bytes g').1.isSome := by
  have hnfs : (magic m b.bytes != nfsMagic) = true :=
    bne_iff_ne.mpr fun heq => swabi_nfsMagic.1 (heq ▸ h.2)
  rw [isSome_convertheadBytes, isSome_convertheadBytes, headerPasses, headerPasses, headerOf,
    headerOf, hnfs, Bool.or_true, Bool.or_true]

theorem Turns.bcvt {g : Cvt} (h : Turns m g.bcvt b) :
    (convertheadBytes m b.bytes g).2.bcvt = true := by
  have hnfs : magic m b.bytes ≠ nfsMagic := fun heq => swabi_nfsMagic.1 (heq ▸ h.2)
  unfold convertheadBytes
  rw [if_neg fun hno => hno.2 h.2, if_pos hnfs]
  dsimp only
  split
  · split
    · exact bcvt_convertheadGood _ _
    · rfl
  · rfl

variable {t : SteadyTape m}

/-- The steady tape after a record that derails restore. -/
def SteadyTape.skip (t : SteadyTape m) (b : Block) : SteadyTape m :=
  { t.drop 1 with looked := t.looked ++ [b] }

end Header

end DumpRestore
