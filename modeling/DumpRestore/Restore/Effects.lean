import DumpRestore.Foundations.Keeps
import DumpRestore.Restore.GetFile

/-!
# What restore does to the target

The functions of restore that change the target tree, with the system calls that they make. A
program of type `Restore` ends early where restore exits.

* `SysCall` are the calls, `World` the state that the functions share.
* `extractfile` reads a file from tape and creates it. `setdirmodes` gives the directories their
  owners, modes and times at the end.
-/

namespace DumpRestore

namespace Restore

/-! ## System calls -/

/-- The system calls of these functions, with their arguments. `create` is `open` with
`O_CREAT | O_TRUNC`. A descriptor is given by the name that it was opened with. -/
inductive SysCall where
  | unlink (path : String)
  | rmdir (path : String)
  | rename (old new : String)
  | mkdir (path : String)
  | link (existing new : String)
  | symlink (existing : List UInt8) (new : String)
  | mknod (path : String) (mode : ℕ) (rdev : ℕ)
  | mkfifo (path : String) (mode : ℕ)
  | create (path : String)
  | write (fd : Option String) (data : List UInt8)
  | ftruncate (fd : Option String) (size : ℤ)
  | chown (path : String) (uid gid : ℕ)
  | lchown (path : String) (uid gid : ℕ)
  | chmod (path : String) (mode : ℕ)
  | utimes (path : String) (atime mtime : BsdTimeval)
  | lgetflags (path : String)
  | lsetflags (path : String) (flags : ℕ)
  | lsetxattr (path : String) (name : String)

/-- The calls that change an object in the target tree. The descriptor `none` is the standard input,
which is not in it. -/
def SysCall.Modifies : SysCall → Prop
  | .write none _ | .ftruncate none _ | .lgetflags _ => False
  | _ => True

instance : DecidablePred SysCall.Modifies := fun c => by
  unfold SysCall.Modifies
  split <;> infer_instance

/-! ## The state -/

/-- The commands of restore. -/
inductive Command where
  | compare | interactive | incremental | resume | list | extract | tapepos
  deriving DecidableEq

/-- The flags that these functions test. `mflag` is set unless restore was given `-m`. -/
structure Flags where
  command : Command
  nflag : Bool
  mflag : Bool
  uflag : Bool
  vflag : Bool

/-- What is outside of the program: the file system, which answers a call according to the calls
before it and has the flags that `lgetflags` finds, the operator, who answers whether to set the
mode of `.` and whether to go on after `panic`, and `st_blksize`. The names that `xattr_walk` finds
in a buffer that `xattr_verify` has passed are given by `xattrs`. -/
structure Env where
  fs : List SysCall → SysCall → Bool
  flags : List SysCall → String → ℕ
  setRoot : Bool
  goOn : Bool
  fssize : ℕ
  xattrs : List UInt8 → List String

/-- The globals that these functions read and write, and the calls made so far. The directories
on tape, as the directory file has them, are in `inotab`. -/
structure World where
  spcl : Spcl
  tape : Tape
  inotab : ℕ → Option (List UInt8)
  ofile : Option String
  lnkbuf : List UInt8
  pathlen : ℤ
  xattrbuf : List UInt8
  calls : List SysCall

inductive EntryType where
  | node | leaf
  deriving DecidableEq

/-- An entry of the symbol table, with the name that `myname` gives it and the flags that are
tested here. `empty` says that a directory has no entries. -/
structure Entry where
  name : String
  type : EntryType
  extract : Bool
  existed : Bool
  empty : Bool

end Restore

/-- Programs of restore. -/
abbrev Restore (α : Type) := OptionT (StateM Restore.World) α

namespace Restore

variable (o : Flags) (env : Env)

/-- A system call. The result says whether it succeeded. -/
def sys (c : SysCall) : Restore Bool := do
  let w ← get
  set { w with calls := w.calls ++ [c] }
  return env.fs w.calls c

/-- `panic`, after which the operator may go on. -/
def panic : Restore Unit := if env.goOn then pure () else failure

/-! ## Names -/

/-- `removeleaf`. -/
def removeleaf (ep : Entry) : Restore Unit := do
  if o.command = .compare then return
  if ep.type ≠ .leaf then panic env
  if o.nflag = false then
    let _ ← sys env (.unlink ep.name)

/-- `removenode`. -/
def removenode (ep : Entry) : Restore Unit := do
  if ep.type ≠ .node then panic env
  if ep.empty = false then panic env
  if o.nflag = false then
    let _ ← sys env (.rmdir ep.name)

/-- `renameit`. -/
def renameit (old new : String) : Restore Unit := do
  if o.nflag = false then
    let _ ← sys env (.rename old new)

/-- `newnode`. The result says whether the entry gets the flag `EXISTED`. -/
def newnode (np : Entry) : Restore Bool := do
  if np.type ≠ .node then panic env
  if o.command = .compare then return false
  if o.nflag = false then
    let made ← sys env (.mkdir np.name)
    return !made && !o.uflag
  return false

/-- `linkit` with the type `SYMLINK`. -/
def symlinkit (existing : List UInt8) (new : String) : Restore Bool := do
  if o.uflag && !o.nflag then
    let _ ← sys env (.unlink new)
  if o.nflag = false then
    sys env (.symlink existing new)
  else return true

/-- `linkit` with the type `HARDLINK`. Where the link fails, it is tried again without the flags of
the file. -/
def hardlinkit (existing new : String) : Restore Bool := do
  if o.uflag && !o.nflag then
    let _ ← sys env (.unlink new)
  if o.nflag = false then
    if ← sys env (.link existing new) then return true
    let w ← get
    let flags := env.flags w.calls existing
    if ← sys env (.lgetflags existing) then
      if ← sys env (.lsetflags existing 0) then
        let made ← sys env (.link existing new)
        let _ ← sys env (.lsetflags existing flags)
        return made
    return false
  else return true

/-! ## Reading the tape -/

/-- A call that `getfile` makes, with the functions `fill` and `skip` of its caller. -/
def deliver (fill : List UInt8 → ℤ → Restore Unit) (skip : ℤ → Restore Unit) : Call → Restore Unit
  | .fill buf size => fill (Call.fill buf size).bytes size
  | .skip size => skip size
  | .ftruncate size => do
    let w ← get
    let _ ← sys env (.ftruncate w.ofile size)

/-- `getfile`. Where it does not return, the calls before that are left out. -/
def getfileWith (readingmaps : Bool) (fill : List UInt8 → ℤ → Restore Unit)
    (skip : ℤ → Restore Unit) : Restore Unit := do
  let w ← get
  match getfile env.fssize readingmaps w.spcl w.tape with
  | none => failure
  | some (calls, h, t) =>
    set { w with spcl := h, tape := t }
    calls.forM (deliver env fill skip)

/-- `skipfile`. Its two functions do nothing. -/
def skipfile : Restore Unit := getfileWith env false (fun _ _ => pure ()) fun _ => pure ()

/-- `MAXPATHLEN`. -/
def maxpathlen : ℤ := 4096

/-- `xtrlnkfile`. -/
def xtrlnkfile (buf : List UInt8) (size : ℤ) : Restore Unit := do
  let w ← get
  let w := { w with pathlen := w.pathlen + size }
  set w
  if w.pathlen > maxpathlen then failure
  set { w with lnkbuf := w.lnkbuf ++ buf }

/-- `xtrfile`. -/
def xtrfile (buf : List UInt8) (_size : ℤ) : Restore Unit := do
  if o.nflag then return
  let w ← get
  if ← sys env (.write w.ofile buf) then return
  failure

/-- `EXT_MACOSFNDRINFO` and `EXT_MACOSRESFORK`. -/
def extMacos : List ℤ := [1, 2]

/-- `XATTR_MAXSIZE`. -/
def xattrMaxsize : ℕ := 4096

/-- `xtrxattr`. The buffer here is the first `xattrlen` bytes of `xattrbuf`. -/
def xtrxattr (buf : List UInt8) (size : ℤ) : Restore Unit :=
  modify fun w =>
    if w.xattrbuf.length + size.toNat > xattrMaxsize then w
    else { w with xattrbuf := w.xattrbuf ++ buf }

/-- `readxattr`. -/
def readxattr : Restore Bool := do
  let w ← get
  if w.spcl.cDinode.diSize > xattrMaxsize then
    skipfile env
    return false
  set { w with xattrbuf := [], tape := { w.tape with readmapflag := true } }
  getfileWith env false xtrxattr fun _ => pure ()
  modify fun w => { w with
    xattrbuf := w.xattrbuf ++ List.replicate (xattrMaxsize - w.xattrbuf.length) 0
    tape := { w.tape with readmapflag := false } }
  return true

/-- `xattr_walk` with `xattr_cb_set`. -/
def xattrWalk (path : String) : List String → Restore Unit
  | [] => pure ()
  | name :: names => do
    if o.nflag then xattrWalk path names
    else if ← sys env (.lsetxattr path name) then xattrWalk path names
    else return

/-- `xattr_extract`. -/
def xattrExtract (path : String) (buffer : List UInt8) : Restore Unit :=
  xattrWalk o env path (env.xattrs buffer)

/-- A turn of the loop of `extractattr`. -/
def extractattrTurn (path : String) : Restore Unit := do
  let w ← get
  if w.spcl.cExtattributes ∈ extMacos then skipfile env
  else if w.spcl.cExtattributes = extXattr then
    if ← readxattr env then
      let w ← get
      xattrExtract o env path w.xattrbuf
    -- There is no break here, and the default case follows.
    else skipfile env
  else skipfile env

/-- The loop of `extractattr`. -/
def extractattrLoop (path : String) : (fuel : ℕ) → Restore Unit
  | 0 => failure
  | fuel + 1 => do
    let w ← get
    if w.spcl.cFlags &&& drExtattributes = 0#32 then return
    extractattrTurn o env path
    extractattrLoop path fuel

/-- `extractattr`. Each turn of its loop reads a header. -/
def extractattr (path : String) : Restore Unit := do
  let w ← get
  extractattrLoop o env path (w.tape.total + 1)

/-! ## Files -/

/-- What `extractfile` does at the end with a file that is neither a directory nor a symbolic
link. -/
def setattrs (name : String) (dip : NewBsdInode) : Restore Unit := do
  let _ ← sys env (.chown name dip.diUid dip.diGid)
  let _ ← sys env (.chmod name dip.diMode)
  extractattr o env name
  let _ ← sys env (.utimes name dip.diAtime dip.diMtime)
  if dip.diFlags ≠ 0 then
    let _ ← sys env (.lsetflags name dip.diFlags)

/-- `BUFSIZ`. -/
def bufsiz : ℕ := 8192

/-- `genliteraldir`. -/
def genliteraldir (name : String) (ino : ℕ) : Restore Bool := do
  let w ← get
  match w.inotab ino with
  | none => failure
  | some dir =>
    if ← sys env (.create name) then
      (dir.toChunks bufsiz).forM fun buf => do
        if o.nflag then return
        if ← sys env (.write (some name) buf) then return
        failure
      return true
    else return false

/-- The flag `DR_METAONLY` of the header in `spcl`. -/
def metaonly : Restore Bool := do
  let w ← get
  return w.spcl.cFlags &&& drMetaonly ≠ 0#32

/-- `extractfile` for a file that is made by one call, `make`, which `-u` precedes with `unlink`
where `replace` says so. The next header is in `spcl` when its flag is tested. -/
def extractSpecial (name : String) (replace : Bool) (make : SysCall) : Restore Bool := do
  let w ← get
  let dip := w.spcl.cDinode
  skipfile env
  if o.nflag then return true
  if !(← metaonly) then
    if replace && o.uflag then
      let _ ← sys env (.unlink name)
    if !(← sys env make) then return false
  setattrs o env name dip
  return true

/-- `extractfile` for a regular file. -/
def extractReg (name : String) : Restore Bool := do
  let w ← get
  let dip := w.spcl.cDinode
  if o.nflag then
    skipfile env
    return true
  if !(← metaonly) then
    if o.uflag then
      let _ ← sys env (.unlink name)
    if !(← sys env (.create name)) then
      skipfile env
      return false
    modify fun w => { w with ofile := some name }
    getfileWith env false (xtrfile o env) fun _ => pure ()
  else skipfile env
  setattrs o env name dip
  return true

/-- `extractfile` for a symbolic link. -/
def extractLnk (name : String) : Restore Bool := do
  let w ← get
  let dip := w.spcl.cDinode
  if !(← metaonly) then
    set { w with lnkbuf := [], pathlen := 0 }
    getfileWith env false xtrlnkfile fun _ => failure
    let w ← get
    if w.pathlen = 0 then return true
    if !(← symlinkit o env w.lnkbuf name) then return false
  else skipfile env
  let _ ← sys env (.lchown name dip.diUid dip.diGid)
  extractattr o env name
  return true

/-- `extractfile` for a directory. -/
def extractDir (ep : Entry) : Restore Bool := do
  let w ← get
  if o.mflag then
    if ep.extract then panic env
    skipfile env
    return true
  let ret ← genliteraldir o env ep.name w.spcl.cInumber
  extractattr o env ep.name
  return ret

/-- The switch of `extractfile` over the type of the file. -/
def extractMode (ep : Entry) : Restore Bool := do
  let w ← get
  let dip := w.spcl.cDinode
  let type := ifmt dip.diMode
  if type = ifSock then extractSpecial o env ep.name false (.mknod ep.name (ifSock ||| 0o600) 0)
  else if type = ifDir then extractDir o env ep
  else if type = ifLnk then extractLnk o env ep.name
  else if type = ifIfo then extractSpecial o env ep.name true (.mkfifo ep.name dip.diMode)
  else if type = ifChr ∨ type = ifBlk then
    extractSpecial o env ep.name true (.mknod ep.name dip.diMode (dip.diDb 0))
  else if type = ifReg then extractReg o env ep.name
  else
    skipfile env
    return false

/-- `extractfile`. -/
def extractfile (ep : Entry) (doremove : Bool) : Restore Bool := do
  if !(← metaonly) && doremove then removeleaf o env ep
  extractMode o env ep

/-! ## Directories -/

/-- `struct modeinfo`, with the buffer of extended attributes that may follow it in the mode
file. -/
structure ModeInfo where
  ino : ℕ
  atime : BsdTimeval
  mtime : BsdTimeval
  mode : ℕ
  uid : ℕ
  gid : ℕ
  flags : ℕ
  xattr : Option (List UInt8)

/-- Whether `setdirmodes` passes over the record `node` of the directory `ep`. -/
def passesOver (force : Bool) (node : ModeInfo) (ep : Entry) : Bool :=
  (o.command == .interactive || o.command == .extract) && !force &&
    (ep.existed || (node.ino == rootino && !env.setRoot))

/-- What `setdirmodes` does with a record. -/
def dirmode (force : Bool) (lookupino : ℕ → Option Entry) (node : ModeInfo) : Restore Unit :=
  match lookupino node.ino with
  | none =>
    if o.command = .interactive ∨ o.command = .extract then pure () else panic env
  | some ep =>
    if passesOver o env force node ep then pure ()
    else do
      let _ ← sys env (.chown ep.name node.uid node.gid)
      let _ ← sys env (.chmod ep.name node.mode)
      let _ ← sys env (.utimes ep.name node.atime node.mtime)
      match node.xattr with
      | some buffer => xattrExtract o env ep.name buffer
      | none => pure ()
      if node.flags ≠ 0 then
        let _ ← sys env (.lsetflags ep.name node.flags)

/-- `setdirmodes`. The mode file has the records `modes`. -/
def setdirmodes (force : Bool) (lookupino : ℕ → Option Entry) (modes : List ModeInfo) :
    Restore Unit :=
  modes.forM (dirmode o env force lookupino)

/-! ## Requests and checkpoints -/

/-- `addfile`. The entries of the inode, by `lookupino` and `e_links`, are `links`. -/
def addfile (name : String) (ino : ℕ) (type : EntryType) (onTape : Bool) (links : List Entry) :
    Restore Unit := do
  if onTape = false then return
  if ino = wino ∧ o.command = .interactive ∧ o.vflag = false then return
  let name := if o.mflag then name else "./" ++ toString ino
  if o.mflag = false ∧ type = .node then
    let _ ← genliteraldir o env name ino
  else if links.any (·.name == name) then return
  else if links.isEmpty ∧ type = .node ∧ o.command ≠ .tapepos then
    let _ ← newnode o env ⟨name, type, false, false, true⟩

/-- `mktempname`, where `gentempname` gives the name `tmpname`. -/
def mktempname (ep : Entry) (tmpname : String) : Restore Unit := renameit o env ep.name tmpname

/-- `dumpsymtable`, which writes the bytes `table`. -/
def dumpsymtable (filename : String) (table : List UInt8) : Restore Unit := do
  if o.nflag then return
  if ← sys env (.create filename) then
    let _ ← sys env (.write (some filename) table)

end Restore

end DumpRestore
