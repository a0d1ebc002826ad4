import DumpRestore.Foundations.Decimal
import DumpRestore.Foundations.Linked
import DumpRestore.Restore.SymbolTable

/-!
# Changing the symbol table

The functions of `restore/symtab.c` that change the table, and what the callers in
`restore/restore.c` do to its lists themselves. The field `e_next` of an entry is for three kinds of
lists: the hash chains of inode numbers, the list `removelist` of directories that are to be removed
later, and the list `freelist` of entries that are to be used again.

* A run of a function stops at a `panic`, also where restore would go on when it is told to. It is
  `stuck` where the code would follow a pointer to no entry, or where a loop does not end within
  `fuel` turns. `SymtabRep` shows that it never is.
* The address that `calloc` returns for a new entry is an argument. Names are values here; their
  memory is the subject of `Names`.
-/

namespace DumpRestore

namespace Symtab

open Decimal

/-! ## The store -/

/-- The table and the two lists beside it. -/
structure Store extends Table where
  freelist : Option ℕ
  removelist : Option ℕ

/-- Why a run stopped. -/
inductive Stop
  | panic (text : String)
  | stuck
  deriving DecidableEq, Repr

/-- A run of a function. -/
abbrev Run := Except Stop

/-- A search that may not end. -/
def ofOption {α : Type} : Option α → Run α
  | some a => .ok a
  | none => .error .stuck

/-- The flags of an entry. -/
def newFlag : BitVec 16 := 0x0002

def removedFlag : BitVec 16 := 0x0010

def tmpnameFlag : BitVec 16 := 0x0020

namespace Store

variable (s : Store)

/-- The entry at an address. -/
def cell (a : ℕ) : Run Entry := ofOption (s.mem a)

/-- An assignment to a member of the entry at an address. -/
def modify (a : ℕ) (f : Entry → Entry) : Store :=
  { s with mem := Function.update s.mem a ((s.mem a).map f) }

/-- An entry of zeros, with a table of lists if it is a directory. -/
def blank (size : ℕ) (node : Bool) : Entry :=
  { eName := [], eFlags := 0, eIno := 0, eIndex := 0, eParent := 0, eSibling := none,
    eLinks := none, eEntries := if node then some (List.replicate size none) else none,
    eNext := none }

/-- A new entry, from the free list or from `calloc`. -/
def alloc (size : ℕ) (node : Bool) (new : ℕ) : Run (ℕ × Store) :=
  match s.freelist with
  | some np => do
    let e ← s.cell np
    return (np, { s with
      freelist := e.eNext
      mem := Function.update s.mem np (some (blank size node)) })
  | none => return (new, { s with mem := Function.update s.mem new (some (blank size node)) })

end Store

section Functions

variable (size fuel : ℕ)

/-! ## Inode numbers -/

/-- `addino`. -/
def addino (inum np : ℕ) (s : Store) : Run Store :=
  if inum < wino ∨ s.maxino ≤ inum then .error (.panic "addino: out of range %d\n")
  else do
    let _ ← s.cell np
    let i := inum % s.entry.length
    let next := s.entry.getD i none
    let s := s.modify np fun e => { e with eIno := inum, eNext := next }
    return { s with entry := s.entry.set i (some np) }

/-- `deleteino`. -/
def deleteino (inum : ℕ) (s : Store) : Run Store :=
  if inum < wino ∨ s.maxino ≤ inum then .error (.panic "deleteino: out of range %d\n")
  else do
    let i := inum % s.entry.length
    match ← ofOption (findPrev s.next (s.hasIno inum) fuel none (s.entry.getD i none)) with
    | none => .error (.panic "deleteino: %d not found\n")
    | some (prev, next) => do
      let e ← s.cell next
      let s := s.modify next fun e => { e with eIno := 0 }
      match prev with
      | none => return { s with entry := s.entry.set i e.eNext }
      | some prev => return s.modify prev fun p => { p with eNext := e.eNext }

/-! ## Names -/

/-- What stands before and behind the last `/`. -/
def splitName : List UInt8 → Option (List UInt8 × List UInt8)
  | [] => none
  | c :: cs =>
    match splitName cs with
    | some (dir, base) => some (c :: dir, base)
    | none => if c = 47 then some ([], cs) else none

/-- What stands behind the last `/`. -/
def baseName (name : List UInt8) : List UInt8 := (splitName name).elim name Prod.snd

/-- `lookupparent`. -/
def lookupparent (name : List UInt8) (s : Store) : Run (Option ℕ) :=
  match splitName name with
  | none => return none
  | some (dir, _) => do
    match ← ofOption (s.lookupname size fuel dir) with
    | none => return none
    | some ep => do
      let e ← s.cell ep
      if e.eEntries.isSome then return some ep
      else .error (.panic "%s is not a directory\n")

/-- The loop of `myname`. -/
def mynameLoop (s : Store) : (n ep cp : ℕ) → List UInt8 → Run (List UInt8)
  | 0, _, _, _ => .error .stuck
  | n + 1, ep, cp, name => do
    let e ← s.cell ep
    let namlen := e.eName.length % 2 ^ 8
    if namlen < cp then
      let name := e.eName.take namlen ++ name
      let root ← ofOption (s.lookupino fuel rootino)
      if some ep = root then return name
      else mynameLoop s n e.eParent (cp - namlen - 1) (47 :: name)
    else .error (.panic "%s: pathname too long\n")

/-- `myname`. -/
def myname (ep : ℕ) (s : Store) : Run (List UInt8) :=
  mynameLoop fuel s Table.maxpathlen ep (Table.maxpathlen - 2) []

/-- The loop of `gentempname`. -/
def linkIndex (s : Store) (ep : ℕ) : (fuel : ℕ) → Option ℕ → (i : ℕ) → Option (Option ℕ)
  | _, none, _ => some none
  | 0, some _, _ => none
  | fuel + 1, some np, i => do
    let next ← s.links np
    if np = ep then return some i else linkIndex s ep fuel next (i + 1)

/-- `TMPHDR`. -/
def tmphdr : List UInt8 := [82, 83, 84, 84, 77, 80]

/-- `gentempname`. -/
def gentempname (ep : ℕ) (s : Store) : Run (List UInt8) := do
  let e ← s.cell ep
  let np ← ofOption (s.lookupino fuel e.eIno)
  match ← ofOption (linkIndex s ep fuel np 0) with
  | none => .error (.panic "not on ino list")
  | some i => return tmphdr ++ decimal i ++ decimal e.eIno

/-! ## The lists of a directory -/

/-- `np` becomes the first entry on the list `h` of the directory `ep`. -/
def hang (np ep h : ℕ) (s : Store) : Run Store := do
  let d ← s.cell ep
  let _ ← s.cell np
  match d.eEntries with
  | none => .error .stuck
  | some eps =>
    let s := s.modify np fun e => { e with eParent := ep, eSibling := eps.getD h none }
    return s.modify ep fun d => { d with eEntries := d.eEntries.map (·.set h (some np)) }

/-- `ep` is taken from the list `h` of its directory, if it is there. -/
def removeFrom (ep h : ℕ) (s : Store) : Run (Option Store) := do
  let e ← s.cell ep
  let d ← s.cell e.eParent
  let eps ← ofOption d.eEntries
  let entry := eps.getD h none
  if entry = some ep then
    return some (s.modify e.eParent fun d =>
      { d with eEntries := d.eEntries.map (·.set h e.eSibling) })
  else
    match ← ofOption (chainFind s.sibling (fun np => s.sibling np == some (some ep)) fuel
      entry) with
    | none => return none
    | some np => return some (s.modify np fun p => { p with eSibling := e.eSibling })

/-- The loop of `removeentry` over all the lists of the directory. -/
def removeLoop (ep : ℕ) (s : Store) : List ℕ → Run Store
  | [] => .error (.panic "cannot find entry in parent list")
  | j :: js => do
    match ← removeFrom fuel ep j s with
    | some s => return s
    | none => removeLoop ep s js

/-- `removeentry`. -/
def removeentry (ep : ℕ) (s : Store) : Run Store := do
  let e ← s.cell ep
  match ← removeFrom fuel ep (dirHash size e.eName) s with
  | some s => return s
  | none => removeLoop fuel ep s (List.range size)

/-! ## Entries -/

/-- What `addentry` does with the inode number. -/
def enterIno (np inum : ℕ) (link : Bool) (s : Store) : Run Store :=
  if link then do
    match ← ofOption (s.lookupino fuel inum) with
    | none => .error (.panic "link to non-existent name\n")
    | some ep => do
      let e ← s.cell ep
      let s := s.modify np fun n => { n with eIno := inum, eLinks := e.eLinks }
      return s.modify ep fun e => { e with eLinks := some np }
  else if inum = 0 then return s
  else do
    if (← ofOption (s.lookupino fuel inum)).isSome then .error (.panic "duplicate entry\n")
    else addino inum np s

/-- `addentry` for the types `LEAF` and `NODE`, each with or without `LINK`. -/
def addentry (new : ℕ) (name : List UInt8) (inum : ℕ) (node link : Bool) (s : Store) :
    Run (ℕ × Store) := do
  let (np, s) ← s.alloc size node new
  match ← lookupparent size fuel name s with
  | none =>
    if inum ≠ rootino then .error (.panic "bad name to addentry %s\n")
    else if (← ofOption (s.lookupino fuel rootino)).isSome then
      .error (.panic "bad name to addentry %s\n")
    else do
      let s ← addino rootino np (s.modify np fun e => { e with eName := name, eParent := np })
      return (np, s)
  | some ep => do
    let base := baseName name
    let s ← hang np ep (dirHash size base) (s.modify np fun e => { e with eName := base })
    let s ← enterIno fuel np inum link s
    return (np, s)

/-- What `freeentry` does with the inode number. -/
def leaveIno (ep : ℕ) (e : Entry) (s : Store) : Run Store :=
  if e.eIno = 0 then return s
  else do
    match ← ofOption (s.lookupino fuel e.eIno) with
    | none => .error (.panic "lookupino failed")
    | some np =>
      if np = ep then do
        let s ← deleteino fuel e.eIno s
        match e.eLinks with
        | none => return s
        | some link => addino e.eIno link s
      else do
        match ← ofOption (chainFind s.links (fun np => s.links np == some (some ep)) fuel
          (some np)) with
        | none => .error (.panic "link not found")
        | some np => return s.modify np fun p => { p with eLinks := e.eLinks }

/-- `freeentry`. -/
def freeentry (ep : ℕ) (s : Store) : Run Store := do
  let e ← s.cell ep
  if e.eFlags ≠ removedFlag then .error (.panic "not marked REMOVED")
  else if e.eEntries.isSome ∧ e.eLinks ≠ none then .error (.panic "freeing referenced directory")
  else if e.eEntries.any (fun eps => (eps.take size).any Option.isSome) then
    .error (.panic "freeing non-empty directory")
  else do
    let s ← leaveIno fuel ep e s
    let s ← removeentry size fuel ep s
    let next := s.freelist
    let s := s.modify ep fun e => { e with eNext := next }
    return { s with freelist := some ep }

/-- `moveentry`. -/
def moveentry (ep : ℕ) (newname : List UInt8) (s : Store) : Run Store := do
  match ← lookupparent size fuel newname s with
  | none => .error (.panic "cannot move ROOT")
  | some np => do
    let e ← s.cell ep
    let s ← if np ≠ e.eParent then do
        let s ← removeentry size fuel ep s
        hang ep np (dirHash size e.eName) s
      else pure s
    let cp := baseName newname
    let s := s.modify ep fun e => { e with eName := cp }
    let temp ← gentempname fuel ep s
    return s.modify ep fun e => { e with
      eFlags := if temp = cp then e.eFlags ||| tmpnameFlag else e.eFlags &&& ~~~tmpnameFlag }

/-- `mktempname`, with the names that it gives to `rename`. -/
def mktempname (ep : ℕ) (s : Store) : Run (Store × List UInt8 × List UInt8) := do
  let e ← s.cell ep
  if e.eFlags &&& tmpnameFlag ≠ 0 then .error (.panic "mktempname: called with TMPNAME")
  else do
    let s := s.modify ep fun e => { e with eFlags := e.eFlags ||| tmpnameFlag }
    let oldname ← myname fuel ep s
    let temp ← gentempname fuel ep s
    let s := s.modify ep fun e => { e with eName := temp }
    let newname ← myname fuel ep s
    return (s, oldname, newname)

/-! ## Directories to be removed -/

/-- `deleteino(ep->e_ino)`, and `ep` becomes the first directory on `removelist`. -/
def retire (ep : ℕ) (s : Store) : Run Store := do
  let e ← s.cell ep
  let s ← deleteino fuel e.eIno s
  let next := s.removelist
  let s := s.modify ep fun e => { e with eNext := next }
  return { s with removelist := some ep }

/-- `removenode`, with the name that it gives to `rmdir`. -/
def removenode (ep : ℕ) (s : Store) : Run (Store × List UInt8) := do
  let e ← s.cell ep
  match e.eEntries with
  | none => .error (.panic "removenode: not a node")
  | some eps =>
    if (eps.take size).any Option.isSome then .error (.panic "removenode: non-empty directory")
    else do
      let s := s.modify ep fun e =>
        { e with eFlags := (e.eFlags ||| removedFlag) &&& ~~~tmpnameFlag }
      let cp ← myname fuel ep s
      return (s, cp)

/-- `*prev` for the pointers that go along `removelist`. -/
def readPrev (prev : Option ℕ) (s : Store) : Run (Option ℕ) :=
  match prev with
  | none => return s.removelist
  | some a => return (← s.cell a).eNext

/-- `*prev = next`. -/
def writePrev (prev next : Option ℕ) (s : Store) : Store :=
  match prev with
  | none => { s with removelist := next }
  | some a => s.modify a fun p => { p with eNext := next }

/-- The inner loop of `removeoldnodes`. The result counts the directories that it removed. -/
def removePass : (n : ℕ) → (prev ep : Option ℕ) → (change : ℕ) → Store → Run (ℕ × Store)
  | _, _, none, change, s => return (change, s)
  | 0, _, some _, _, _ => .error .stuck
  | n + 1, prev, some ep, change, s => do
    let e ← s.cell ep
    if e.eEntries.any (fun eps => (eps.take size).any Option.isSome) then
      removePass n (some ep) (← readPrev (some ep) s) change s
    else do
      let (s, _) ← removenode size fuel ep (writePrev prev e.eNext s)
      let s ← freeentry size fuel ep s
      removePass n prev (← readPrev prev s) (change + 1) s

/-- The loop of `removeoldnodes`. -/
def removeoldnodesLoop : (n : ℕ) → Store → Run Store
  | 0, _ => .error .stuck
  | n + 1, s => do
    let (change, s) ← removePass size fuel fuel none s.removelist 0 s
    if change ≠ 0 then removeoldnodesLoop n s
    else if s.removelist.isSome then .error (.panic "cannot remove, non-empty")
    else return s

/-- `removeoldnodes`. -/
def removeoldnodes (s : Store) : Run Store := removeoldnodesLoop size fuel fuel s

/-! ## The first table -/

/-- `HASHFACTOR`. -/
def hashfactor : ℕ := 5

/-- `initsymtable` without a file. -/
def initsymtable (maxino new : ℕ) : Run (ℕ × Store) := do
  let s : Store :=
    { mem := fun _ => none, entry := List.replicate (maxino / hashfactor) none, maxino := maxino,
      freelist := none, removelist := none }
  let (ep, s) ← addentry size fuel new [46] rootino true false s
  return (ep, s.modify ep fun e => { e with eFlags := e.eFlags ||| newFlag })

end Functions

end Symtab

end DumpRestore
