import DumpRestore.Protocol.Segment
import DumpRestore.Restore.Tape

/-!
# Reading a file

`getfile` of `restore/tape.c` reads the data of the file whose header is in `spcl`, hands it to the
functions `fill` and `skip` of its caller, and goes on to the next header. It gathers allocated
blocks in a buffer, which it empties when it is full, at a hole, and at the end of the file.
-/

namespace DumpRestore

/-! ## What getfile does with a file -/

/-- A call of `fill` or `skip`, or of `ftruncate` on the output. A call of `fill` is given the
blocks gathered in the buffer. -/
inductive Call
  | fill (buf : List Block) (size : ℤ)
  | skip (size : ℤ)
  | ftruncate (size : ℤ)

/-- The bytes that a call adds to the output. -/
def Call.bytes : Call → List UInt8
  | .fill buf size => (buf.flatMap Block.bytes).take size.toNat
  | .skip size => List.replicate size.toNat 0
  | .ftruncate _ => []

/-- The bytes that a list of calls delivers. -/
def delivered (calls : List Call) : List UInt8 := calls.flatMap Call.bytes

theorem delivered_append (cs ds : List Call) :
    delivered (cs ++ ds) = delivered cs ++ delivered ds :=
  List.flatMap_append

@[simp] theorem delivered_singleton (c : Call) : delivered [c] = c.bytes := by
  simp [delivered]

@[simp] theorem delivered_nil : delivered [] = [] := rfl

/-- The local variables of `getfile`: the first `curblk` blocks of `buf`, `size` and
`last_write_was_hole`; and the calls made so far. -/
structure FileState where
  buf : List Block
  size : ℤ
  lastWriteWasHole : Bool
  calls : List Call

namespace FileState

/-- `curblk`. -/
def curblk (s : FileState) : ℕ := s.buf.length

/-- An allocated block goes to the buffer, which is emptied when it has `fssize` bytes. -/
def store (fssize : ℕ) (s : FileState) (b : Block) : FileState :=
  let s := { s with buf := s.buf ++ [b] }
  if s.curblk = fssize / tpBsize then
    { s with
      calls := s.calls ++ [.fill s.buf
        (if s.size > tpBsize then fssize else (s.curblk - 1 : ℤ) * tpBsize + s.size)]
      buf := []
      lastWriteWasHole := false }
  else s

/-- A hole: the buffer is emptied, and the hole skipped. -/
def hole (s : FileState) : FileState :=
  let s := if s.curblk > 0 then
      { s with
        calls := s.calls ++ [.fill s.buf (if s.size > tpBsize then (s.curblk : ℤ) * tpBsize
          else (s.curblk - 1 : ℤ) * tpBsize + s.size)]
        buf := [] }
    else s
  { s with
    calls := s.calls ++ [.skip (if s.size > tpBsize then tpBsize else s.size)]
    lastWriteWasHole := true }

/-- `size -= TP_BSIZE`. -/
def advance (s : FileState) : FileState := { s with size := s.size - tpBsize }

/-- One turn of the loop over the entries of `c_addr`. -/
def block (fssize : ℕ) (s : FileState) : Option Block → FileState
  | some b => (s.store fssize b).advance
  | none => s.hole.advance

/-- The holes assumed where blocks are missing at the end of a file. -/
def missing (size : ℕ) : List Call :=
  (List.range (howmany size tpBsize)).map fun i => .skip (min tpBsize (size - i * tpBsize) : ℕ)

/-- What is left in the buffer when the last block is read. -/
def lastFlush (s : FileState) : FileState :=
  if s.curblk > 0 then
    { s with
      calls := s.calls ++ [.fill s.buf ((s.curblk : ℤ) * tpBsize + s.size)]
      lastWriteWasHole := false }
  else s

/-- A hole for the blocks that are missing. -/
def assumeHole (s : FileState) : FileState :=
  if s.size > 0 then
    { s with calls := s.calls ++ missing s.size.toNat, lastWriteWasHole := true }
  else s

/-- The calls of `getfile` when its last block is read. -/
def finish (origsize : ℤ) (s : FileState) : List Call :=
  let s := s.lastFlush.assumeHole
  if s.lastWriteWasHole then s.calls ++ [.ftruncate origsize] else s.calls

end FileState

/-! ## The input -/

/-- What the loops ask of the input: `readtape` into a buffer, `gethead(&spcl)`, the globals
`readmapflag` and `dumpdate`, and a bound on the number of records. -/
class TapeSource (τ : Type) where
  readBlock : τ → Option (Block × τ)
  gethead : τ → Option (Option Spcl × τ)
  readmapflag : τ → Bool
  dumpdate : τ → ℤ
  total : τ → ℕ

/-- The number of records on the mounted volume and on those that follow. -/
def Tape.total (t : Tape) : ℕ := t.recs.length + (t.vols.map List.length).sum

instance Tape.source : TapeSource Tape where
  readBlock t := (readtape t).map fun p => (p.1.block, p.2)
  gethead := gethead
  readmapflag := Tape.readmapflag
  dumpdate := Tape.dumpdate
  total := Tape.total

namespace TapeSource

@[simp] theorem readBlock_tape (t : Tape) :
    readBlock t = (readtape t).map fun p => (p.1.block, p.2) := rfl

@[simp] theorem gethead_tape (t : Tape) : gethead t = DumpRestore.gethead t := rfl

@[simp] theorem readmapflag_tape (t : Tape) : readmapflag t = t.readmapflag := rfl

@[simp] theorem dumpdate_tape (t : Tape) : dumpdate t = t.dumpdate := rfl

@[simp] theorem total_tape (t : Tape) : total t = t.total := rfl

end TapeSource

/-! ## The loops -/

section Loops

variable {τ : Type} [TapeSource τ]

/-- The block of entry `i` of `c_addr`, which is read if it is allocated. `findinode`
(`map = false`) does not look at `readmapflag`. -/
def readEntry (map : Bool) (h : Spcl) (i : ℕ) (t : τ) : Option (Option Block × τ) :=
  if (map && TapeSource.readmapflag t) || h.cAddr i != 0 then
    (TapeSource.readBlock t).map fun p => (some p.1, p.2)
  else some (none, t)

/-- Read and drop the blocks of entries `i` to `i + n`. -/
def discard (map : Bool) (h : Spcl) : (n i : ℕ) → τ → Option τ
  | 0, _, t => some t
  | n + 1, i, t => (readEntry map h i t).bind fun p => discard map h n (i + 1) p.2

/-- The loop over entries `i` to `i + n`. -/
def fileBlocks (fssize : ℕ) (h : Spcl) : (n i : ℕ) → FileState × τ → Option (FileState × τ)
  | 0, _, d => some d
  | n + 1, i, (s, t) => (readEntry true h i t).bind fun p =>
    let s := s.block fssize p.1
    if s.size ≤ 0 then (discard true h n (i + 1) p.2).map fun t => (s, t)
    else fileBlocks fssize h n (i + 1) (s, p.2)

/-- The loop `while (gethead(&spcl) != GOOD)`; with `date` set, `findinode` also asks for the date
of the dump. -/
def nextHeader (date : Bool) : (fuel : ℕ) → τ → Option (Spcl × τ)
  | 0, _ => none
  | fuel + 1, t => do
    let (h, t) ← TapeSource.gethead t
    match h with
    | some h =>
      if date ∧ h.cDate ≠ TapeSource.dumpdate t then nextHeader date fuel t else some (h, t)
    | none => nextHeader date fuel t

/-- `getfile` from the label `loop` to the header after the data. -/
def fileLoop (fssize : ℕ) : (fuel : ℕ) → Spcl → FileState × τ → Option (Spcl × FileState × τ)
  | 0, _, _ => none
  | fuel + 1, h, d => do
    let (s, t) ← fileBlocks fssize h h.cCount.toNat 0 d
    let (h, t) ← nextHeader false (TapeSource.total t + 1) t
    if s.size > 0 ∧ h.cType = .addr then fileLoop fssize fuel h (s, t) else some (h, s, t)

/-- `findinode` looks for another header if this one has not the right magic number. -/
def resync (h : Spcl) (t : τ) : Option (Spcl × τ) :=
  if h.cMagic = nfsMagic then some (h, t) else nextHeader true (TapeSource.total t + 1) t

/-- `findinode`: skip what is left of a file. The loop goes on as long as the header it has come to
is of type `TS_ADDR`. -/
def findinode : (fuel : ℕ) → Spcl → τ → Option (Spcl × τ)
  | 0, _, _ => none
  | fuel + 1, h, t => do
    let (h, t) ← resync h t
    match h.cType with
    | .addr => do
      let t ← discard false h h.cCount.toNat 0 t
      let (h, t) ← nextHeader true (TapeSource.total t + 1) t
      if h.cType = .addr then findinode fuel h t else some (h, t)
    | .tape => none
    | .inode | .end_ | .clri | .bits => some (h, t)

/-- `getfile` on the file whose header is `h`: the calls it makes, the header it stops at and the
rest of the input. -/
def getfile (fssize : ℕ) (readingmaps : Bool) (h : Spcl) (t : τ) :
    Option (List Call × Spcl × τ) :=
  if h.cType = .end_ ∨ h.cMagic ≠ nfsMagic then none
  else do
    let origsize : ℤ := (h.cDinode.diSize : ℤ).bmod (2 ^ 64)
    let (h, s, t) ← fileLoop fssize (TapeSource.total t + 1) h (⟨[], origsize, false, []⟩, t)
    let (h, t) ← if readingmaps then some (h, t) else findinode (TapeSource.total t + 1) h t
    some (s.finish origsize, h, t)

/-- `gethead`, and `getfile` on the header it returns. -/
def extract (fssize : ℕ) (t : τ) : Option (List Call × Spcl × τ) := do
  let (h, t) ← TapeSource.gethead t
  let h ← h
  getfile fssize false h t

section Header

variable {t t' : τ} {h : Spcl} {date : Bool} {fuel : ℕ}

end Header

section Findinode

variable {h : Spcl} (hmagic : h.cMagic = nfsMagic)

include hmagic

/-- `findinode` stops at a header that neither continues a file nor starts a volume. -/
theorem findinode_of_type (htype : h.cType ≠ .addr ∧ h.cType ≠ .tape) (fuel : ℕ) (t : τ) :
    findinode (fuel + 1) h t = some (h, t) := by
  rw [findinode, resync, if_pos hmagic]
  simp only [Option.bind_eq_bind, Option.bind_some]
  cases hty : h.cType
  case addr => exact absurd hty htype.1
  case tape => exact absurd hty htype.2
  all_goals rfl

/-- `findinode` skips the blocks of a header that continues a file. -/
theorem findinode_of_addr (htype : h.cType = .addr) (fuel : ℕ) (t : τ) :
    findinode (fuel + 1) h t =
      (discard false h h.cCount.toNat 0 t).bind fun t =>
        (nextHeader true (TapeSource.total t + 1) t).bind fun q =>
          if q.1.cType = .addr then findinode fuel q.1 q.2 else some q := by
  rw [findinode, resync, if_pos hmagic]
  simp only [Option.bind_eq_bind, Option.bind_some, htype]

/-- The loop of `findinode` ends where it would end with another turn. -/
theorem findinode_again (htape : h.cType ≠ .tape) {fuel : ℕ} {t : τ} {r : Spcl × τ}
    (hfind : findinode fuel h t = some r) :
    (if h.cType = .addr then findinode fuel h t else some (h, t)) = some r := by
  by_cases haddr : h.cType = .addr
  · rw [if_pos haddr, hfind]
  · rw [if_neg haddr]
    cases fuel with
    | zero => cases hfind
    | succ fuel => rw [← hfind, findinode_of_type hmagic ⟨haddr, htape⟩]

end Findinode

end Loops

/-- Reading an entry from a tape. -/
theorem readEntry_tape (map : Bool) (h : Spcl) (i : ℕ) (t : Tape) :
    readEntry map h i t = if (map && t.readmapflag) || h.cAddr i != 0 then
      (readtape t).map fun p => (some p.1.block, p.2) else some (none, t) := by
  rw [readEntry, TapeSource.readBlock_tape, Option.map_map]
  rfl

end DumpRestore
