import DumpRestore.Foundations.Chain
import DumpRestore.Protocol.Spcl
import Mathlib.Logic.Relation

/-!
# The symbol table

The symbol table of restore is a graph of entries that lie anywhere in memory. An entry is on up to
three lists: the list of a hash value of inode numbers (`e_next`), the links of its inode
(`e_links`), and the list of a hash value of names in its directory (`e_sibling`). The size of the
last kind of hash table is `dirhash_size`, which `-H` sets.

* `Table.lookupino` and `Table.lookupname` as in the source. A list may be circular, so that the
  searches take fuel.
* `Table.Live`: the entries that make up the table.
-/

namespace DumpRestore

namespace Symtab

/-! ## Entries -/

/-- `struct entry`. The entries of type `NODE` are those to which `addentry` has given a table
`e_entries`. -/
structure Entry where
  eName : List UInt8
  eFlags : BitVec 16
  eIno : ℕ
  eIndex : ℕ
  eParent : ℕ
  eSibling : Option ℕ
  eLinks : Option ℕ
  eEntries : Option (List (Option ℕ))
  eNext : Option ℕ
  deriving Inhabited

/-- The addresses in an entry. -/
def Entry.pointers (size : ℕ) (e : Entry) : List (Option ℕ) :=
  some e.eParent :: e.eSibling :: e.eLinks :: e.eNext :: (e.eEntries.getD []).take size

/-- The entries at their addresses, the table `entry` of `entrytblsize` lists, and `maxino`. -/
structure Table where
  mem : ℕ → Option Entry
  entry : List (Option ℕ)
  maxino : ℕ

/-- One turn of the loop of `dir_hash`; characters are signed. -/
def hashStep (h : BitVec 64 × BitVec 64) (c : UInt8) : BitVec 64 × BitVec 64 :=
  let hash := h.2 + (h.1 ^^^ BitVec.ofInt 64 (c.toBitVec.toInt * 7152373))
  (if hash &&& 0x80000000#64 ≠ 0 then hash - 0x7fffffff#64 else hash, h.1)

/-- `dir_hash`, where `size` is `dirhash_size`. -/
def dirHash (size : ℕ) (name : List UInt8) : ℕ :=
  (name.foldl hashStep (0x12a3fe2d#64, 0x37abe8f9#64)).1.toNat % size

theorem dirHash_lt {size : ℕ} (hsize : 0 < size) (name : List UInt8) : dirHash size name < size :=
  Nat.mod_lt _ hsize

namespace Table

variable (t : Table)

/-! ## Searches -/

/-- The lists by `e_next`, `e_links` and `e_sibling`. -/
def next (ep : ℕ) : Option (Option ℕ) := (t.mem ep).map (·.eNext)

def links (ep : ℕ) : Option (Option ℕ) := (t.mem ep).map (·.eLinks)

def sibling (ep : ℕ) : Option (Option ℕ) := (t.mem ep).map (·.eSibling)

/-- `ep->e_ino == inum`. -/
def hasIno (inum ep : ℕ) : Bool := (t.mem ep).any (·.eIno == inum)

/-- `strcmp(ep->e_name, buf) == 0`. -/
def hasName (buf : List UInt8) (ep : ℕ) : Bool := (t.mem ep).any (·.eName == buf)

/-- `lookupino`. -/
def lookupino (fuel inum : ℕ) : Option (Option ℕ) :=
  if inum < wino ∨ t.maxino ≤ inum then some none
  else chainFind t.next (t.hasIno inum) fuel (t.entry.getD (inum % t.entry.length) none)

/-- The loop over all the lists of a directory. -/
def searchAll (fuel : ℕ) (buf : List UInt8) : List (Option ℕ) → Option (Option ℕ)
  | [] => some none
  | ep :: eps => do
    match ← chainFind t.sibling (t.hasName buf) fuel ep with
    | some ep => return some ep
    | none => searchAll fuel buf eps

/-- The search for one component of a path. A leaf has no lists and stands for whatever is below
it. -/
def lookupin (size fuel ep : ℕ) (buf : List UInt8) : Option (Option ℕ) := do
  let e ← t.mem ep
  match e.eEntries with
  | none => return some ep
  | some eps =>
    match ← chainFind t.sibling (t.hasName buf) fuel (eps.getD (dirHash size buf) none) with
    | some ep => return some ep
    | none => t.searchAll fuel buf (eps.take size)

/-- `MAXPATHLEN`. -/
def maxpathlen : ℕ := 4096

/-- The loop of `lookupname`, which takes at least one character of the path each time. -/
def walk (size fuel : ℕ) : (n ep : ℕ) → (cp : List UInt8) → Option (Option ℕ)
  | 0, _, _ => some none
  | n + 1, ep, cp =>
    let buf := cp.takeWhile (· ≠ 47)
    if maxpathlen ≤ buf.length then some none
    else do
      match ← t.lookupin size fuel ep buf with
      | none => return none
      | some ep =>
        match cp.drop buf.length with
        | [] => return some ep
        | _ :: cp => walk size fuel n ep cp

/-- The path without the `.` and the `/` at its head. -/
def pathStart (name : List UInt8) : List UInt8 :=
  let cp := if name.head? = some 46 then name.tail else name
  if cp.head? = some 47 then cp.tail else cp

/-- `lookupname`. -/
def lookupname (size fuel : ℕ) (name : List UInt8) : Option (Option ℕ) := do
  match ← t.lookupino fuel rootino with
  | none => return none
  | some ep =>
    let cp := pathStart name
    if cp = [] then return some ep else t.walk size fuel (cp.length + 1) ep cp

/-! ## The graph -/

/-- The children of a directory: the entries on its lists. -/
def Child (size d c : ℕ) : Prop :=
  ∃ e eps ep, t.mem d = some e ∧ e.eEntries = some eps ∧ some ep ∈ eps.take size ∧
    Relation.ReflTransGen (fun a b => t.sibling a = some (some b)) ep c

/-- The entries of the table: those that pointers lead to from the table `entry`. -/
inductive Live (size : ℕ) : ℕ → Prop
  | entry {ep : ℕ} : some ep ∈ t.entry → Live size ep
  | pointer {ep p : ℕ} {e : Entry} : Live size ep → t.mem ep = some e → some p ∈ e.pointers size →
      Live size p

end Table

end Symtab

end DumpRestore
