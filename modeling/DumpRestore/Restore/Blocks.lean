import DumpRestore.Foundations.Memory
import DumpRestore.Protocol.TapeBuf
import DumpRestore.Restore.Convert

/-!
# Reading blocks

Restore reads a volume in blocks and hands out their records. `findtapeblksize` finds out from the
first record whether the volume is compressed, and how long its blocks are. After that
`readtape_uncompr` reads blocks of `ntrec` records, and `readtape_comprfile` reads blocks that say
in a prefix how long they are.

The input is a file or a pipe. The functions return `none` at the end of the volume, where they call
`getvol` or `terminateinput`, and where they end the run.
-/

namespace DumpRestore

open ByteOrder (Order)

/-! ## The input -/

/-- The bytes that are left of a volume. A `read` from a file returns what was asked for, one from a
pipe may return less: `shorts` has the numbers of bytes, less one, that come with the next ones. -/
inductive Input where
  | file (bytes : List UInt8)
  | pipe (shorts : List ℕ) (bytes : List UInt8)

namespace Input

/-- `pipein`. -/
def pipein : Input → Bool
  | .file _ => false
  | .pipe _ _ => true

/-- What has not been read. -/
def bytes : Input → List UInt8
  | .file bs => bs
  | .pipe _ bs => bs

/-- `read`. -/
def read (n : ℕ) : Input → List UInt8 × Input
  | .file bs => (bs.take n, .file (bs.drop n))
  | .pipe [] bs => (bs.take n, .pipe [] (bs.drop n))
  | .pipe (k :: ks) bs => (bs.take (min n (k + 1)), .pipe ks (bs.drop (min n (k + 1))))

/-- `read_a_block`: read until `size` bytes have come, or the input ends. The number of steps is
bounded by `fuel`. -/
def readABlock : (fuel size : ℕ) → Input → List UInt8 × Input
  | 0, _, input => ([], input)
  | fuel + 1, size, input =>
    if size = 0 then ([], input)
    else
      let (got, input) := input.read size
      if got = [] then ([], input)
      else
        let (rest, input) := readABlock fuel (size - got.length) input
        (got ++ rest, input)

/-- A `read` takes some bytes from the front, none only if the input has ended. -/
theorem read_spec (n : ℕ) (input : Input) :
    ∃ got input', input.read n = (got, input') ∧ input.bytes = got ++ input'.bytes ∧
      got.length ≤ n ∧ (got = [] → n = 0 ∨ input'.bytes = []) ∧
      input'.pipein = input.pipein := by
  have htake (k : ℕ) (bs : List UInt8) (h : bs.take k = []) : k = 0 ∨ bs.drop k = [] :=
    (List.take_eq_nil_iff.mp h).imp id fun h => by simp [h]
  match input with
  | .file bs =>
    exact ⟨_, _, rfl, (List.take_append_drop n bs).symm, List.length_take_le .., htake n bs, rfl⟩
  | .pipe [] bs =>
    exact ⟨_, _, rfl, (List.take_append_drop n bs).symm, List.length_take_le .., htake n bs, rfl⟩
  | .pipe (k :: ks) bs =>
    refine ⟨_, _, rfl, (List.take_append_drop (min n (k + 1)) bs).symm,
      (List.length_take_le ..).trans (min_le_left ..), fun h => ?_, rfl⟩
    exact (htake _ _ h).imp (fun h => by omega) id

/-- `read_a_block` gets all the bytes there are, up to `size`. -/
theorem readABlock_spec {fuel : ℕ} (size : ℕ) (h : size ≤ fuel) (input : Input) :
    ∃ input', readABlock fuel size input = (input.bytes.take size, input') ∧
      input'.bytes = input.bytes.drop size ∧ input'.pipein = input.pipein := by
  induction fuel generalizing size input with
  | zero =>
    obtain rfl : size = 0 := by omega
    exact ⟨input, by simp [readABlock], by simp, rfl⟩
  | succ fuel ih =>
    rw [readABlock]
    by_cases hsize : size = 0
    · subst hsize
      exact ⟨input, by simp, by simp, rfl⟩
    obtain ⟨got, input', hread, hbytes, hlen, hend, hpipe⟩ := read_spec size input
    simp only [if_neg hsize, hread]
    by_cases hgot : got = []
    · have hnil : input'.bytes = [] := (hend hgot).resolve_left hsize
      subst hgot
      rw [if_pos rfl, hbytes, hnil]
      exact ⟨input', by simp, by simp [hnil], hpipe⟩
    · have hpos := List.length_pos_of_ne_nil hgot
      obtain ⟨input'', hread', hrest, hpipe'⟩ := ih (size - got.length) (by omega) input'
      rw [if_neg hgot, hread', hbytes, List.take_append, List.drop_append,
        List.take_of_length_le hlen, List.drop_of_length_le hlen]
      exact ⟨input'', rfl, hrest, hpipe'.trans hpipe⟩

end Input

/-! ## The state -/

/-- Where `tbufptr` points to. -/
inductive BufPtr where
  | tapebuf (off : ℕ)
  | comprbuf

/-- The values of `readtape_func`. -/
inductive ReadtapeFunc where
  | set | uncompr | comprfile
  deriving DecidableEq

/-- The globals of `restore/tape.c` that these functions read and write. `goOn` says whether `-y` or
the operator makes restore continue after a read error. -/
structure Reader where
  input : Input
  vflag : Bool
  goOn : Bool
  cvt : Cvt
  zflag : Bool
  ntrec : ℕ
  bufsize : ℕ
  comprlen : ℕ
  tapebuf : Mem
  comprbuf : Mem
  tbufptr : BufPtr
  blkcnt : ℕ
  numtrec : ℕ
  blksread : ℕ
  tpblksread : ℕ
  readtapeFunc : ReadtapeFunc

namespace Reader

/-- The state in which `setup` opens the first volume, after `newtapebuf(ntrec)`. -/
def start (vflag goOn : Bool) (ntrec : ℕ) (tapebuf : Mem) (input : Input) : Reader where
  input := input
  vflag := vflag
  goOn := goOn
  cvt := ⟨false, false, false, false⟩
  zflag := false
  ntrec := ntrec
  bufsize := ntrec * tpBsize
  comprlen := 0
  tapebuf := tapebuf
  comprbuf := fun _ => 0
  tbufptr := .tapebuf 0
  blkcnt := 0
  numtrec := 0
  blksread := 0
  tpblksread := 0
  readtapeFunc := .set

/-- The bytes at `tbufptr`. -/
def active (r : Reader) : Mem :=
  match r.tbufptr with
  | .tapebuf off => r.tapebuf.shift off
  | .comprbuf => r.comprbuf

/-- The address of `c_magic` in a header. -/
def magicOff : ℕ := 24

/-- The loop that clears `c_magic` in each record of the buffer. -/
def clearMagic (n : ℕ) (buf : Mem) : Mem :=
  (List.range n).foldl (fun buf i => buf.write (i * tpBsize + magicOff) [0, 0, 0, 0]) buf

/-- The next record of the buffer. -/
def take (r : Reader) : List UInt8 × Reader :=
  (r.active.read (r.blkcnt * tpBsize) tpBsize,
    { r with
      blkcnt := r.blkcnt + 1
      blksread := r.blksread + 1
      tpblksread := r.tpblksread + 1 })

/-! ## Uncompressed blocks -/

/-- `readtape_uncompr`. The loop `getmore` reads as `read_a_block` does. -/
def readtapeUncompr (r : Reader) : Option (List UInt8 × Reader) :=
  if r.blkcnt < r.numtrec then some r.take
  else
    let numtrec := if r.numtrec = 0 then r.ntrec else r.numtrec
    let cnt := r.ntrec * tpBsize
    let (got, input) := if r.input.pipein then r.input.readABlock cnt cnt else r.input.read cnt
    if got = [] then none
    else
      let numtrec :=
        if r.input.pipein then numtrec
        else if got.length ≠ cnt then got.length / tpBsize
        else max numtrec r.ntrec
      some ({ r with
        input
        tbufptr := .tapebuf 0
        tapebuf := (clearMagic r.ntrec r.tapebuf).write 0 got
        numtrec
        blkcnt := 0 } : Reader).take

/-! ## Compressed blocks -/

/-- `newcomprbuf(ntrec)`. -/
def newcomprbuf (r : Reader) : Reader :=
  { r with comprlen := max r.comprlen ((r.ntrec + 1) * tpBsize + TapeBuf.prefixSize) }

/-- `converttapebuf`, on the four bytes at the start of a block. -/
def converttapebuf (m : Order) (bcvt : Bool) (bs : List UInt8) : TapeBuf :=
  if bcvt then
    .ofTb m ((ByteOrder.read m [TapeBuf.prefixSize] (swabst ['i'] 0 bs)).headD 0)
  else .ofWord m ((ByteOrder.read m [TapeBuf.prefixSize] bs).headD 0)

section Compressed

variable (lib : CompressLib) (m : Order)

/-- `decompress_tapebuf`. The first component is the returned pointer. -/
def decompressTapebuf (tpbin : TapeBuf) (r : Reader) : Option BufPtr × Reader :=
  if tpbin.compressed then
    match Zip.ofCode tpbin.flags with
    | some z =>
      match lib.decompress z r.comprlen (r.tapebuf.read TapeBuf.prefixSize tpbin.length) with
      | some out =>
        (some .comprbuf,
          { r with comprbuf := r.comprbuf.write 0 out, numtrec := out.length / tpBsize })
      | none => (none, r)
    | none => (none, { r with numtrec := r.comprlen / tpBsize })
  else (some (.tapebuf TapeBuf.prefixSize), { r with numtrec := tpbin.length / tpBsize })

/-- `readtape_comprfile`. -/
def readtapeComprfile (r : Reader) : Option (List UInt8 × Reader) :=
  if r.blkcnt < r.numtrec then some r.take
  else
    let (got, input) := r.input.readABlock TapeBuf.prefixSize TapeBuf.prefixSize
    let tpb := converttapebuf m r.cvt.bcvt got
    if got.length < TapeBuf.prefixSize ∨ (r.vflag ∧ tpb.length = 0) then none
    else
      let tpb := { tpb with length := min tpb.length r.bufsize }
      let (data, input) := input.readABlock tpb.length tpb.length
      if data.length < tpb.length then none
      else
        let r := { r with
          input
          tapebuf := ((clearMagic r.ntrec r.tapebuf).write 0 (tpb.image m)).write
            TapeBuf.prefixSize data
          numtrec := r.ntrec }
        match decompressTapebuf lib tpb r with
        | (some tbufptr, r) => some ({ r with tbufptr, blkcnt := 0 } : Reader).take
        | (none, r) =>
          if r.goOn then
            some ({ r with
              tapebuf := r.tapebuf.write 0 (List.replicate r.bufsize 0)
              tbufptr := .tapebuf 0
              blkcnt := 0 } : Reader).take
          else none

/-! ## The first record -/

/-- `findtapeblksize` for a file or a pipe. It stops where it would look for a header in the old
format. -/
def findtapeblksize (r : Reader) : Option Reader := do
  let buf := clearMagic r.ntrec r.tapebuf
  let (got, input) := r.input.readABlock tpBsize tpBsize
  if got.length < tpBsize then none
  else
    let buf := buf.write 0 got
    let (spclpt, cvt) := convertheadBytes m (buf.read 0 tpBsize) r.cvt
    let spclpt ← spclpt
    let compressed := spclpt.cType = .tape ∧ spclpt.cFlags &&& drCompressed ≠ 0
    if compressed ∧ r.ntrec < spclpt.cNtrec then none
    else
      let ntrec := if compressed then spclpt.cNtrec.toNat else r.ntrec
      let len := if compressed then (ntrec - 1) * tpBsize else r.bufsize - tpBsize
      let (rest, input) := input.readABlock len len
      if rest.length ≠ len ∧ rest.length % tpBsize ≠ 0 then none
      else
        some { r with
          input
          cvt
          zflag := r.zflag || decide compressed
          ntrec
          tapebuf := buf.write tpBsize rest
          tbufptr := .tapebuf 0
          blkcnt := 0
          numtrec := ntrec }

/-- `readtape_set`: which function to call. -/
def readtapeSet (r : Reader) : Reader :=
  if r.zflag then { r.newcomprbuf with readtapeFunc := .comprfile }
  else { r with readtapeFunc := .uncompr }

/-- `readtape`. -/
def readtape (r : Reader) : Option (List UInt8 × Reader) :=
  let r := if r.readtapeFunc = .set then r.readtapeSet else r
  match r.readtapeFunc with
  | .comprfile => readtapeComprfile lib m r
  | _ => r.readtapeUncompr

/-- The next `n` records. -/
def readRecs : (n : ℕ) → Reader → Option (List (List UInt8) × Reader)
  | 0, r => some ([], r)
  | n + 1, r => do
    let (rec, r) ← readtape lib m r
    let (recs, r) ← readRecs n r
    return (rec :: recs, r)

/-- The first `n` records of a volume that has just been opened. -/
def readVolume (n : ℕ) (r : Reader) : Option (List (List UInt8) × Reader) := do
  let r ← findtapeblksize m { r with readtapeFunc := .set }
  readRecs lib m n r

end Compressed

end Reader

end DumpRestore
