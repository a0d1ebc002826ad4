import DumpRestore.Restore.SymtabOps

/-!
# Incremental restore

What `restore -r` does to the symbol table when it reads an incremental tape: `removeoldleaves`
takes the names of unused inodes away, `nodeupdates` is called for every name on the tape,
`findunreflinks` looks for names that no call has seen, and `removeoldnodes` removes the directories
on `removelist`. Directories cannot be removed at once, as other files may have to be moved out of
them first.

The calls `rename`, `unlink`, `mkdir` and `rmdir` are left out. Their arguments are the names that
`myname` returns, which may panic. `compare` says that the command is `C`, and `existed` that
`mkdir` has failed where this matters.
-/

namespace DumpRestore

namespace Symtab

/-! ## Flags -/

def extractFlag : BitVec 16 := 0x0001

def keepFlag : BitVec 16 := 0x0004

def existedFlag : BitVec 16 := 0x0040

/-- The inodes that are in use, and those that are on the tape. -/
structure Maps where
  usedinomap : ℕ → Bool
  dumpmap : ℕ → Bool

/-- An assignment to the flags of an entry. -/
def Store.setFlags (s : Store) (ep : ℕ) (f : BitVec 16 → BitVec 16) : Store :=
  s.modify ep fun e => { e with eFlags := f e.eFlags }

section Functions

variable (size fuel : ℕ) (compare : Bool)

/-! ## Leaves and nodes -/

/-- `removeleaf`. -/
def removeleaf (ep : ℕ) (s : Store) : Run Store :=
  if compare then return s
  else do
    let e ← s.cell ep
    if e.eEntries.isSome then .error (.panic "removeleaf: not a leaf")
    else do
      let s := s.setFlags ep fun flags => (flags ||| removedFlag) &&& ~~~tmpnameFlag
      let _ ← myname fuel ep s
      return s

/-- `removeleaf` and `freeentry`. -/
def dropleaf (ep : ℕ) (s : Store) : Run Store := do
  let s ← removeleaf fuel compare ep s
  freeentry size fuel ep s

/-- `newnode`. -/
def newnode (existed : Bool) (np : ℕ) (s : Store) : Run Store := do
  let e ← s.cell np
  if e.eEntries.isNone then .error (.panic "newnode: not a node")
  else do
    let _ ← myname fuel np s
    if compare then return s
    else if existed then return s.setFlags np (· ||| existedFlag)
    else return s

/-! ## removeoldleaves -/

/-- The loop of `removeoldleaves` over the whiteouts. -/
def whiteouts (m : Maps) : (n : ℕ) → (ep : Option ℕ) → Store → Run Store
  | _, none, s => return s
  | 0, some _, _ => .error .stuck
  | n + 1, some ep, s => do
    let e ← s.cell ep
    let d ← s.cell e.eParent
    if m.usedinomap d.eIno ∧ ¬ m.dumpmap d.eIno then whiteouts m n e.eLinks s
    else do
      let s ← freeentry size fuel ep s
      whiteouts m n e.eLinks s

/-- A name of an unused inode. -/
def oldName (ep : ℕ) (s : Store) : Run Store := do
  let e ← s.cell ep
  if e.eEntries.isSome then do
    let (s, _) ← mktempname fuel ep s
    retire fuel ep s
  else dropleaf size fuel compare ep s

/-- The loop of `removeoldleaves` over the names of an inode. -/
def oldLinks : (n : ℕ) → (ep : Option ℕ) → Store → Run Store
  | _, none, s => return s
  | 0, some _, _ => .error .stuck
  | n + 1, some ep, s => do
    let s ← oldName size fuel compare ep s
    let e ← s.cell ep
    oldLinks n e.eLinks s

/-- The loop of `removeoldleaves` over the inode numbers. -/
def oldInodes (m : Maps) : List ℕ → Store → Run Store
  | [], s => return s
  | i :: is, s => do
    match ← ofOption (s.lookupino fuel i) with
    | none => oldInodes m is s
    | some ep =>
      if m.usedinomap i then oldInodes m is s
      else do
        let s ← oldLinks size fuel compare fuel (some ep) s
        oldInodes m is s

/-- `removeoldleaves`. -/
def removeoldleaves (m : Maps) (s : Store) : Run Store := do
  let s ← whiteouts size fuel m fuel (← ofOption (s.lookupino fuel wino)) s
  oldInodes size fuel compare m (List.range' (rootino + 1) (s.maxino - (rootino + 1))) s

/-! ## nodeupdates -/

/-- A name that is in the way: a link is removed, and another entry gets a temporary name. -/
def displace (link : Bool) (np : ℕ) (s : Store) : Run Store :=
  if link then dropleaf size fuel compare np s
  else do
    let (s, _) ← mktempname fuel np s
    return s

/-- The loop that removes the names of an inode that becomes a directory. -/
def leafLinks : (n : ℕ) → (ip : Option ℕ) → Store → Run Store
  | _, none, s => return s
  | 0, some _, _ => .error .stuck
  | n + 1, some ip, s => do
    let e ← s.cell ip
    if e.eEntries.isSome then .error (.panic "NODE and LEAF links to same inode")
    else do
      let s ← dropleaf size fuel compare ip s
      let e ← s.cell ip
      leafLinks n e.eLinks s

/-- A directory whose inode becomes a leaf. -/
def oldNode (ip : ℕ) (s : Store) : Run Store := do
  let e ← s.cell ip
  if e.eFlags &&& tmpnameFlag = 0 then do
    let s ← displace size fuel compare false ip s
    retire fuel ip s
  else retire fuel ip s

/-- The entry of the name, and whether it is a link: not the first entry of its inode. -/
def findName (name : List UInt8) (s : Store) : Run (Option (ℕ × Bool)) := do
  match ← ofOption (s.lookupname size fuel name) with
  | none => return none
  | some np => do
    let e ← s.cell np
    match ← ofOption (s.lookupino fuel e.eIno) with
    | none => .error (.panic "corrupted symbol table\n")
    | some ip => return some (np, ip ≠ np)

/-- The entry of the inode: the link `np` if it is one of its links. -/
def findInode (ino : ℕ) (np : Option ℕ) (s : Store) : Run (Option ℕ) := do
  match ← ofOption (s.lookupino fuel ino) with
  | none => return none
  | some ip => do
    let e ← s.cell ip
    let ep ← ofOption (chainFind s.links (fun ep => some ep == np) fuel e.eLinks)
    return some (ep.getD ip)

/-- Whether the type of an entry is not the one on the tape. -/
def typeDiffers (node : Bool) (ep : Option ℕ) (s : Store) : Run Bool :=
  match ep with
  | none => return false
  | some ep => do
    let e ← s.cell ep
    return e.eEntries.isSome ≠ node

/-- `addentry`, `newnode` for a directory, and the flags `NEW|KEEP`. -/
def addName (existed : Bool) (new : ℕ) (name : List UInt8) (ino : ℕ) (node link : Bool)
    (s : Store) : Run Store := do
  let (ep, s) ← addentry size fuel new name ino node link s
  if node then do
    let s ← newnode fuel compare existed ep s
    return s.setFlags ep (· ||| (newFlag ||| keepFlag))
  else return s.setFlags ep (· ||| (newFlag ||| keepFlag))

/-- The case `INOFND`: another name of the inode is known. The result is false where the directory
must not be entered. -/
def otherName (new : ℕ) (name : List UInt8) (ino : ℕ) (node : Bool) (ip : ℕ) (s : Store) :
    Run (Bool × Store) := do
  let e ← s.cell ip
  if e.eFlags &&& keepFlag = 0 then do
    let _ ← myname fuel ip s
    let s ← moveentry size fuel ip name s
    return (true, s.setFlags ip (· ||| keepFlag))
  else if e.eEntries.isSome then do
    let _ ← myname fuel ip s
    return (false, s)
  else do
    let (ep, s) ← addentry size fuel new name ino node true s
    return (true, s.setFlags ep (· ||| newFlag))

/-- The case `MODECHG`: a leaf becomes a directory, or a directory a leaf. -/
def changeMode (existed : Bool) (new : ℕ) (name : List UInt8) (ino : ℕ) (node : Bool) (ip : ℕ)
    (s : Store) : Run Store := do
  let e ← s.cell ip
  if e.eFlags &&& keepFlag ≠ 0 then .error (.panic "cannot KEEP and change modes")
  else if e.eEntries.isNone then do
    let s ← leafLinks size fuel compare fuel (some ip) s
    let (ep, s) ← addentry size fuel new name ino node false s
    let s ← newnode fuel compare existed ep s
    return s.setFlags ep (· ||| (newFlag ||| keepFlag))
  else do
    let s ← oldNode size fuel compare ip s
    let (ep, s) ← addentry size fuel new name ino node false s
    return s.setFlags ep (· ||| (newFlag ||| keepFlag))

/-- If the name and the inode belong to different files, the name is freed for the inode. -/
def conflict (found : Option (ℕ × Bool)) (ip : Option ℕ) (s : Store) :
    Run (Option ℕ × Store) :=
  match ip, found with
  | some i, some (np, link) =>
    if i ≠ np then do
      let s ← displace size fuel compare link np s
      return (none, s)
    else return (some np, s)
  | _, _ => return (found.map (·.1), s)

/-- The disposition of the name. -/
def dispose (existed : Bool) (new : ℕ) (name : List UInt8) (ino : ℕ) (node ontape link : Bool)
    (ip np : Option ℕ) (modechg : Bool) (s : Store) : Run (Bool × Store) :=
  match ontape, ip, np, modechg with
  | false, some ip, some _, false => return (true, s.setFlags ip (· ||| keepFlag))
  | true, none, some np, _ => do
    let s ← displace size fuel compare link np s
    return (true, ← addName size fuel compare existed new name ino node false s)
  | true, none, none, false => do
    return (true, ← addName size fuel compare existed new name ino node false s)
  | true, some ip, none, false =>
    otherName size fuel new name ino node ip <| if node then s else s.setFlags ip fun flags =>
      if flags &&& keepFlag = 0 then flags ||| extractFlag else flags
  | false, some ip, none, false => otherName size fuel new name ino node ip s
  | true, some _, some np, false =>
    if link then do
      let s ← dropleaf size fuel compare np s
      return (true, ← addName size fuel compare existed new name ino node true s)
    else
      return (true, s.setFlags np fun flags =>
        (if node then flags else flags ||| extractFlag) ||| keepFlag)
  | true, some ip, _, true => do
    return (true, ← changeMode size fuel compare existed new name ino node ip s)
  | false, none, some _, false => return (false, s)
  | false, none, none, false => return (true, s)
  | false, some _, _, true => return (true, s)
  | false, none, some _, true => return (true, s)
  | _, none, none, true => .error (.panic "[%s] %s: impossible state\n")

/-- `nodeupdates`. -/
def nodeupdates (m : Maps) (existed : Bool) (new : ℕ) (name : List UInt8) (ino : ℕ) (node : Bool)
    (s : Store) : Run (Bool × Store) := do
  let ontape := m.dumpmap ino
  let found ← findName size fuel name s
  let ip ← findInode fuel ino (found.map (·.1)) s
  let (np, s) ← conflict size fuel compare found ip s
  let inodeDiffers ← typeDiffers node ip s
  let nameDiffers ← typeDiffers node np s
  dispose size fuel compare existed new name ino node ontape (found.any (·.2)) ip np
    (ontape && (inodeDiffers || nameDiffers)) s

/-! ## findunreflinks -/

/-- A loop over the list of a directory that starts at `np`. The next entry is read after the
function `body` has been called. -/
def eachSibling (body : ℕ → Store → Run Store) : (n : ℕ) → (np : Option ℕ) → Store → Run Store
  | _, none, s => return s
  | 0, some _, _ => .error .stuck
  | n + 1, some np, s => do
    let s ← body np s
    let e ← s.cell np
    eachSibling body n e.eSibling s

/-- A loop over all entries of the directory `ep`. -/
def eachChild (body : ℕ → Store → Run Store) (ep : ℕ) : List ℕ → Store → Run Store
  | [], s => return s
  | j :: js, s => do
    let d ← s.cell ep
    match d.eEntries with
    | none => return s
    | some eps => do
      let s ← eachSibling body fuel (eps.getD j none) s
      eachChild body ep js s

/-- A name in a directory of the tape that no call has seen. -/
def unreferenced (np : ℕ) (s : Store) : Run Store := do
  let e ← s.cell np
  if e.eFlags &&& ~~~tmpnameFlag = 0 then
    if e.eEntries.isNone then dropleaf size fuel compare np s
    else if e.eIno ≠ 0 then retire fuel np (s.setFlags np (· ||| tmpnameFlag))
    else return s
  else return s

/-- The first loop of `findunreflinks`, over the inode numbers. -/
def unreferencedInodes (m : Maps) : List ℕ → Store → Run Store
  | [], s => return s
  | i :: is, s => do
    match ← ofOption (s.lookupino fuel i) with
    | none => unreferencedInodes m is s
    | some ep => do
      let e ← s.cell ep
      if e.eEntries.isNone ∨ ¬ m.dumpmap i then unreferencedInodes m is s
      else do
        let s ← eachChild fuel (unreferenced size fuel compare) ep (List.range size) s
        unreferencedInodes m is s

/-- `np` comes behind `ep` on `removelist`. -/
def adopt (ep np : ℕ) (s : Store) : Run Store := do
  let e ← s.cell ep
  let s := s.modify np fun p => { p with eNext := e.eNext }
  return s.modify ep fun p => { p with eNext := some np }

/-- A name in the directory `ep` on `removelist`. -/
def leftover (ep np : ℕ) (s : Store) : Run Store := do
  let e ← s.cell np
  if e.eEntries.isNone then
    if e.eFlags ≠ 0 then .error (.panic "unreferenced with flags")
    else dropleaf size fuel compare np s
  else if e.eFlags &&& ~~~tmpnameFlag ≠ 0 then .error (.panic "unreferenced with flags")
  else if e.eFlags = 0 then adopt ep np s
  else return s

/-- The second loop of `findunreflinks`, over `removelist`. -/
def leftovers : (n : ℕ) → (ep : Option ℕ) → Store → Run Store
  | _, none, s => return s
  | 0, some _, _ => .error .stuck
  | n + 1, some ep, s => do
    let s ← eachChild fuel (leftover size fuel compare ep) ep (List.range size) s
    let e ← s.cell ep
    leftovers n e.eNext s

/-- `findunreflinks`. -/
def findunreflinks (m : Maps) (s : Store) : Run Store := do
  let s ← unreferencedInodes size fuel compare m
    (List.range' rootino (s.maxino - rootino)) s
  leftovers size fuel compare fuel s.removelist s

end Functions

end Symtab

end DumpRestore
