import DumpRestore.Foundations.Keeps
import DumpRestore.Restore.Convert

/-!
# Positioning on a header

Restore finds its place on a tape by the headers. `gethead` reads a record into a buffer and says
whether it is a header; if not, the buffer keeps the record as it lies on tape. `findinode` takes
the header in the buffer `spcl` and makes `curfile` describe its inode. The records here are bytes,
so that any of them can look like a header.

* `findinode`, `getvol`, `getfile` and the two `ReRead` functions read from a tape of any content.
* `State.places` are the places where a record was read, and `State.described` are the headers that
  `curfile` was set from.
-/

namespace DumpRestore

open ByteOrder (Order)

namespace Resync

/-! ## The state -/

/-- A buffer after `gethead`: a record that is no header, or one that `converthead` accepted, with
what it has made of it. -/
inductive Buffer where
  | raw (r : Block)
  | good (r : Block) (h : Spcl)

namespace Buffer

variable (m : Order)

/-- The members of the structure in the buffer, unless `c_type` is not one of the types. -/
def view : Buffer → Option Spcl
  | raw r => Spcl.read m r.bytes
  | good _ h => some h

/-- `header->c_magic == NFS_MAGIC`. -/
def hasMagic : Buffer → Bool
  | raw r => magic m r.bytes == nfsMagic
  | good _ h => decide (h.cMagic = nfsMagic)

/-- `header->c_type == TS_ADDR`. -/
def isAddr (b : Buffer) : Bool := (b.view m).any fun h => decide (h.cType = .addr)

end Buffer

/-- The values of `curfile.action`. -/
inductive Action where
  | using | skip | unknown
  deriving DecidableEq

/-- What happens when restore asks for a volume: there are no more, or the tape with these records
is mounted. Restore asks for the number of the volume too if it does not want a certain one. -/
inductive Answer where
  | none
  | tape (newvol : ℤ) (recs : List Block)

/-- What does not change in a run: the byte order of the machine, the dates of the dump, whether
`-a`, `-r`, `-R` or `-C` asks for the volumes in order, whether restore goes on after `panic`, and a
bound on the turns of a loop. -/
structure Env where
  order : Order
  dumpdate : ℤ
  dumptime : ℤ
  aflag : Bool
  goOn : Bool
  fuel : ℕ

/-- Where restore is: the number of the mounted volume, or 0, how many of its records are left, and
`tpblksread`. It is not placed while it reads the header of a volume, and when it has changed the
position of the tape by itself, until it finds the header it looks for. -/
structure Place where
  volno : ℤ
  left : ℕ
  tpblksread : ℤ
  placed : Bool
  deriving DecidableEq

/-- The globals: the records left on the mounted volume, the answers there will be to requests for a
volume, and `restarted` while `siglongjmp` is on its way to `getfile`. The last four members are no
globals: whether restore is placed, whether it reads the header of a volume, the places where it has
read a record, and the headers that `curfile` was set from. -/
structure State where
  recs : List Block
  answers : List Answer
  volno : ℤ
  tpblksread : ℤ
  cvt : Cvt
  maxino : ℕ
  spcl : Buffer
  action : Action
  dip : Option NewBsdInode
  ino : ℕ
  gettingfile : Bool
  restarted : Bool
  placed : Bool
  inHeader : Bool
  places : List Place
  described : List Buffer

/-- Where restore is. -/
def State.place (s : State) : Place :=
  ⟨s.volno, s.recs.length, s.tpblksread, s.placed && !s.inHeader⟩

/-- The state after a record has been read. -/
def State.take (s : State) (rs : List Block) : State :=
  { s with recs := rs, tpblksread := s.tpblksread + 1, places := s.places ++ [s.place] }

end Resync

/-- Programs that read the tape. -/
abbrev Resync (α : Type) := OptionT (StateM Resync.State) α

namespace Resync

variable (env : Env)

/-- `if (c) x;`. -/
def when (c : Prop) [Decidable c] (x : Resync Unit) : Resync Unit := if c then x else pure ()

/-- `panic`. -/
def panic : Resync Unit := if env.goOn then pure () else failure

/-! ## Headers -/

/-- The test of the magic number and the checksum in `converthead`. -/
def passes (g : Cvt) (r : Block) : Bool := headerPasses env.order g.bcvt r.bytes

section Reading

variable (readtape : Resync Block)

/-- `readtape` into a buffer that nothing looks at. -/
def skiprecWith : Resync Unit := do
  let _ ← readtape
  return

/-- `gethead`. The run stops at a header of an unknown type. -/
def getheadWith : Resync Buffer := do
  let r ← readtape
  let s ← get
  let p := convertheadBytes env.order r.bytes s.cvt
  set { s with cvt := p.2 }
  match p.1 with
  | some h => return .good r h
  | none => if passes env s.cvt r then failure else return .raw r

/-- `gethead(&spcl)`. -/
def getspclWith : Resync Unit := do
  let b ← getheadWith env readtape
  modify fun s => { s with spcl := b }

/-- The loop `while (gethead(header) == FAIL || header->c_date != dumpdate)`. -/
def resyncWith : (fuel : ℕ) → Resync Unit
  | 0 => failure
  | fuel + 1 => do
    getspclWith env readtape
    let s ← get
    match s.spcl with
    | .good _ h => when (h.cDate ≠ env.dumpdate) (resyncWith fuel)
    | .raw _ => resyncWith fuel

/-- The blocks of a header of type `TS_ADDR`, from entry `i` on. -/
def skipAddrWith : (fuel i : ℕ) → Resync Unit
  | 0, _ => failure
  | fuel + 1, i => do
    let s ← get
    match s.spcl.view env.order with
    | none => pure ()
    | some h =>
      when ((i : ℤ) < h.cCount) do
        when (h.cAddr i ≠ 0) (skiprecWith readtape)
        skipAddrWith fuel (i + 1)

/-- The loop `while (--i >= 0) readtape(buf)`. -/
def skiprecsWith (n : ℕ) : Resync Unit :=
  (List.range n).forM fun _ => skiprecWith readtape

/-! ## findinode -/

/-- The header in `spcl` becomes that of `curfile`. -/
def describe (h : Spcl) : Resync Unit :=
  modify fun s => { s with
    dip := some h.cDinode
    ino := h.cInumber
    described := s.described ++ [s.spcl] }

/-- The switch of `findinode`. If it has skipped the blocks of a header of type `TS_ADDR`, the loop
goes on just if the header behind them is of this type too. -/
def findinodeSwitch (again : Resync Unit) : Resync Unit := do
  let s ← get
  match s.spcl.view env.order with
  | none => panic env
  | some h =>
    match h.cType with
    | .addr =>
      skipAddrWith env readtape env.fuel 0
      resyncWith env readtape env.fuel
      let s ← get
      when (s.spcl.isAddr env.order = true) again
    | .inode => describe h
    | .end_ => modify fun s => { s with ino := s.maxino }
    | .clri | .bits => pure ()
    | .tape => panic env

/-- The loop of `findinode`. -/
def findinodeLoop : (fuel : ℕ) → Resync Unit
  | 0 => failure
  | fuel + 1 => do
    let s ← get
    when (s.spcl.hasMagic env.order = false) (resyncWith env readtape env.fuel)
    findinodeSwitch env readtape (findinodeLoop fuel)

/-- `findinode(&spcl)`. -/
def findinodeWith : Resync Unit := do
  modify fun s => { s with action := .unknown, dip := none, ino := 0 }
  findinodeLoop env readtape (env.fuel + 1)

/-! ## getvol -/

/-- A volume change while `getfile` reads a file that is not wanted takes it to another header. -/
def restartFile : Resync Unit := do
  let s ← get
  when (s.gettingfile = true) do
    set { s with gettingfile := false, restarted := true }
    failure

/-- `terminateinput`. -/
def terminateinput : Resync Unit := do
  modify fun s => { s with action := .unknown, dip := none, ino := s.maxino }
  restartFile

/-- The header of a volume says how many of the records after it restore has to skip. -/
def isNewheader (h : Spcl) : Prop := h.cType = .tape ∧ h.cFlags &&& drNewheader ≠ 0#32

instance (h : Spcl) : Decidable (isNewheader h) := inferInstanceAs (Decidable (_ ∧ _))

/-- The records at the head of a volume that were read at the end of the last one. At a volume that
the operator chose, those before the next header. -/
def skipDuplicates (wantnext : Bool) (h : Spcl) : Resync Unit := do
  let s ← get
  if wantnext then
    when (0 < h.cFirstrec ∧ h.cFirstrec < s.tpblksread - 1)
      (skiprecsWith readtape (s.tpblksread - h.cFirstrec - 1).toNat)
  else
    set { s with tpblksread := h.cFirstrec + 1 }
    skiprecsWith readtape h.cCount.toNat

/-- `getvol` after the header `h` of the volume: on to the next header unless a file is in use. -/
def enterVolume (wantnext : Bool) (h : Spcl) : Resync Unit := do
  when (isNewheader h) (skipDuplicates readtape wantnext h)
  let s ← get
  if s.action = .using then
    when (s.volno = 1) (panic env)
  else
    when (isNewheader h) (skiprecsWith readtape h.cCount.toNat)
    getspclWith env readtape
    findinodeWith env readtape
    restartFile

/-- `getvol` from the label `again` on. -/
def getvolWith (nextvol : ℤ) : (fuel : ℕ) → Resync Unit
  | 0 => failure
  | fuel + 1 => do
    let s ← get
    let wantnext := env.aflag || s.action != .skip
    -- without a number of a volume restore asks for one in any case
    let asked := wantnext && decide (0 < nextvol)
    if asked = true ∧ nextvol = s.volno then
      return
    else
      match s.answers with
      | [] => failure
      | .none :: as =>
        -- the tape is closed by then if restore has asked for the name of the tape only
        set { s with answers := as, recs := if asked then [] else s.recs }
        terminateinput
      | .tape newvol recs :: as =>
        let newvol := if asked then nextvol else newvol
        if newvol = s.volno then
          set { s with answers := as }
        else
          set { s with answers := as, recs, volno := newvol, inHeader := true }
          let b ← getheadWith env readtape
          modify fun t => { t with inHeader := s.inHeader }
          match b with
          | .good _ h =>
            if h.cVolume = newvol ∧ h.cDate = env.dumpdate ∧ h.cDdate = env.dumptime then
              enterVolume env readtape wantnext h
            else
              modify fun t => { t with volno := 0, tpblksread := s.tpblksread }
              getvolWith nextvol fuel
          | .raw _ =>
            modify fun t => { t with volno := 0, tpblksread := s.tpblksread }
            getvolWith nextvol fuel

end Reading

/-- The next record of the mounted volume. -/
def next : Resync Block := do
  let s ← get
  match s.recs with
  | r :: rs =>
    set (s.take rs)
    return r
  | [] => failure

/-- `readtape`, where at most `n` requests for a volume are answered. -/
def readtapeN : (n : ℕ) → Resync Block
  | 0 => next
  | n + 1 => do
    let s ← get
    match s.recs with
    | _ :: _ => next
    | [] =>
      set { s with volno := 0 }
      getvolWith env (readtapeN n) (s.volno + 1) (n + 1)
      readtapeN n

/-- `readtape`. -/
def readtape : Resync Block := do
  let s ← get
  readtapeN env s.answers.length

/-- `gethead(&spcl)`, `findinode(&spcl)`. -/
def getspcl : Resync Unit := getspclWith env (readtape env)

def findinode : Resync Unit := findinodeWith env (readtape env)

/-- `getvol`. -/
def getvol (nextvol : ℤ) : Resync Unit := do
  modify fun s => { s with gettingfile := s.gettingfile && nextvol != 1 }
  let s ← get
  getvolWith env (readtape env) nextvol (s.answers.length + 1)

/-! ## getfile -/

/-- The blocks of the file of header `h`, from entry `i` on; `size` is what is left of it. -/
def readBlocks (h : Spcl) : (n i : ℕ) → (size : ℤ) → Resync ℤ
  | 0, _, size => return size
  | n + 1, i, size => do
    let s ← get
    when (s.cvt.readmapflag = true ∨ h.cAddr i ≠ 0) (skiprecWith (readtape env))
    -- when the file ends the other blocks of the header are read all the same
    readBlocks h n (i + 1) (if size ≤ 0 then size else size - tpBsize)

/-- The loop `while (gethead(&spcl) != GOOD)`. -/
def searchHeader : (fuel : ℕ) → Resync Unit
  | 0 => failure
  | fuel + 1 => do
    getspcl env
    let s ← get
    match s.spcl with
    | .good _ _ => pure ()
    | .raw _ => searchHeader fuel

/-- `getfile` from the label `loop` on. -/
def fileLoop : (fuel : ℕ) → (size : ℤ) → Resync Unit
  | 0, _ => failure
  | fuel + 1, size => do
    let s ← get
    match s.spcl.view env.order with
    | none => failure
    | some h =>
      let size ← readBlocks env h h.cCount.toNat 0 size
      searchHeader env env.fuel
      let s ← get
      match s.spcl.view env.order with
      | none => pure ()
      | some h => when (0 < size ∧ h.cType = .addr) (fileLoop fuel size)

/-- `sigsetjmp(restart, 1)`: a volume change has brought restore to another header. -/
def catchRestart (x : Resync Unit) : Resync Unit := fun s =>
  match x s with
  | (none, s) => if s.restarted then (some (), { s with restarted := false }) else (none, s)
  | res => res

/-- `getfile`. -/
def getfile (readingmaps : Bool) (action : Action) : Resync Unit := do
  modify fun s => { s with action }
  let s ← get
  match s.spcl.view env.order with
  | none => failure
  | some h =>
    when (h.cType = .end_) (panic env)
    when (s.spcl.hasMagic env.order = false) (panic env)
    catchRestart do
      modify fun s => { s with gettingfile := true }
      fileLoop env env.fuel ((h.cDinode.diSize : ℤ).bmod (2 ^ 64))
      when (readingmaps = false) (findinode env)
      modify fun s => { s with gettingfile := false }

/-! ## Other ways to a header -/

/-- The place in `setup` where the first map is looked for. -/
def setup : Resync Unit := do
  getspcl env
  let s ← get
  match s.spcl with
  | .good _ _ => pure ()
  | .raw _ => panic env
  findinode env

/-- `ReReadFromTape`. -/
def reReadFromTape : Resync Unit := do
  getspcl env
  findinode env

/-- The loop of `ReReadInodeFromTape`. The result of `gethead` is not looked at. -/
def reReadLoop (theino : ℕ) : (fuel : ℕ) → Resync Unit
  | 0 => failure
  | fuel + 1 => do
    getspcl env
    let s ← get
    match s.spcl.view env.order with
    | some h =>
      if h.cInumber = theino ∧ h.cType = .inode ∧ h.cDate = env.dumpdate then
        set { s with tpblksread := (h.cTapea : ℤ) + h.cVolume, placed := true }
      else reReadLoop theino fuel
    | none => reReadLoop theino fuel

/-- `ReReadInodeFromTape`. -/
def reReadInodeFromTape (theino : ℕ) : Resync Unit := do
  reReadLoop env theino env.fuel
  findinode env

/-! ## Runs -/

/-- `GotoTapePos`, to where these records of the mounted volume are next. -/
def gotoTapePos (recs : List Block) : Resync Unit :=
  modify fun s => { s with recs, placed := false }

/-- The operations that position restore on a header or move the tape. The call of `findinode` by
itself is that at the end of `setup`. -/
inductive Op where
  | setup
  | findinode
  | getvol (nextvol : ℤ)
  | getfile (readingmaps : Bool) (action : Action)
  | reReadFromTape
  | reReadInodeFromTape (theino : ℕ)
  | gotoTapePos (recs : List Block)

def Op.call : Op → Resync Unit
  | .setup => Resync.setup env
  | .findinode => Resync.findinode env
  | .getvol nextvol => Resync.getvol env nextvol
  | .getfile readingmaps action => Resync.getfile env readingmaps action
  | .reReadFromTape => Resync.reReadFromTape env
  | .reReadInodeFromTape theino => Resync.reReadInodeFromTape env theino
  | .gotoTapePos recs => Resync.gotoTapePos recs

/-- The state after a run, which may have ended early. -/
def run : List Op → State → State
  | [], s => s
  | op :: ops, s =>
    match (OptionT.run (op.call env)).run s with
    | (some _, s) => run ops s
    | (none, s) => s

end Resync

end DumpRestore
