import DumpRestore.Foundations.Memory
import DumpRestore.Restore.Effects

/-!
# Walking the extended attributes of a file

`restore/xattr.c` gets the attributes of a file in a buffer of `XATTR_MAXSIZE` bytes, in the format
of ext2: a header, entries one after the other up to a word of zero, and values at offsets that the
entries give. `xattr_verify` goes along the entries before `xattr_count` and `xattr_walk` do.

The buffer is a memory of which only the bytes below `XATTR_MAXSIZE` may be read: a `Run` ends at an
access outside of it, or outside of the arrays `name` and `value`. The messages of the callbacks are
left out: those of `xattr_cb_set` and `xattr_cb_compare` print `value`, which no zero ends, with
`%s`. The machine is little-endian, and restore is built without support for SELinux.

* `Guarded` is what the verification is for;
* `Chain` are the entries of a buffer, `ValuesInside` what their values must be like;
* `guarded_iff` is the main theorem.
-/

namespace DumpRestore.Xattr

open ByteOrder
open Restore (xattrMaxsize)

/-! ## Memory -/

/-- Why a run stopped: at an access outside of an array, or out of fuel. -/
inductive Stop
  | outside
  | unfinished
  deriving DecidableEq, Repr

/-- A run of a function. -/
abbrev Run := Except Stop

/-- The `n` bytes at offset `a` of the buffer. -/
def load (m : Mem) (a n : ℕ) : Run (List UInt8) :=
  if n = 0 ∨ a + n ≤ xattrMaxsize then .ok (m.read a n) else .error .outside

/-- The unsigned number of `w` bytes at offset `a` of the buffer. -/
def field (m : Mem) (a w : ℕ) : Run ℕ := do
  let bs ← load m a w
  return ofBytesLE bs

/-- A copy into an array of `XATTR_MAXSIZE` bytes. -/
def store (bs : List UInt8) : Run (List UInt8) :=
  if bs.length ≤ xattrMaxsize then .ok bs else .error .outside

/-! ## Entries -/

/-- `EXT2_XATTR_MAGIC`. -/
def ext2XattrMagic : ℕ := 0xEA020000

/-- `EXT2_XATTR_MAGIC2`. -/
def ext2XattrMagic2 : ℕ := 0xEA020001

/-- `EXT2_XATTR_LEN`: an entry and its name take a multiple of four bytes. -/
def ext2XattrLen (nameLen : ℕ) : ℕ := (nameLen + 3 + 16) / 4 * 4

/-- `FIRST_ENTRY`. -/
def firstEntry (m : Mem) : Run ℕ := do
  let hMagic ← field m 0 4
  return if hMagic = ext2XattrMagic2 then 4 else 32

/-- `IS_LAST_ENTRY`. -/
def isLastEntry (m : Mem) (entry : ℕ) : Run Bool := do
  let word ← field m entry 4
  return word == 0

/-- `EXT2_XATTR_NEXT`. -/
def ext2XattrNext (m : Mem) (entry : ℕ) : Run ℕ := do
  let eNameLen ← field m entry 1
  return entry + ext2XattrLen eNameLen

/-- `VALUE_OFFSET`. -/
def valueOffset (m : Mem) (entry : ℕ) : Run ℕ := do
  let hMagic ← field m 0 4
  let eValueOffs ← field m (entry + 2) 2
  return if hMagic = ext2XattrMagic2 then eValueOffs + 4 else eValueOffs

/-- The loop of `xattr_verify`. -/
def verifyLoop (m : Mem) : (fuel entry : ℕ) → Run Bool
  | 0, _ => .error .unfinished
  | fuel + 1, entry => do
    if ← isLastEntry m entry then return true
    let next ← ext2XattrNext m entry
    if next ≥ xattrMaxsize then return false
    verifyLoop m fuel next

/-- `xattr_verify`. -/
def xattrVerify (m : Mem) : Run Bool := do
  let hMagic ← field m 0 4
  if hMagic ≠ ext2XattrMagic ∧ hMagic ≠ ext2XattrMagic2 then return false
  let entry ← firstEntry m
  verifyLoop m xattrMaxsize entry

/-- The loop of `xattr_count`. -/
def countLoop (m : Mem) : (fuel entry result : ℕ) → Run ℕ
  | 0, _, _ => .error .unfinished
  | fuel + 1, entry, result => do
    if ← isLastEntry m entry then return result
    let next ← ext2XattrNext m entry
    countLoop m fuel next (result + 1)

/-- `xattr_count`. -/
def xattrCount (m : Mem) : Run ℕ := do
  let entry ← firstEntry m
  countLoop m xattrMaxsize entry 0

/-! ## Access control lists -/

/-- `struct posix_acl_entry`. -/
structure PosixAclEntry where
  eTag : ℕ
  ePerm : ℕ
  eId : ℕ
  deriving DecidableEq, Repr

/-- `ext3_acl_count`. -/
def ext3AclCount (size : ℕ) : Option ℕ :=
  let size := size - 4
  if size < 4 * 4 then
    if size % 4 ≠ 0 then none else some (size / 4)
  else
    if (size - 4 * 4) % 8 ≠ 0 then none else some ((size - 4 * 4) / 8 + 4)

/-- The loop of `ext3_acl_from_disk` over `n` entries, the first at `value`, in a list of `size`
bytes. The result is what it read, and where it stopped. -/
def aclEntries (m : Mem) (size : ℕ) : (n value : ℕ) → Option (List PosixAclEntry × ℕ)
  | 0, value => some ([], value)
  | n + 1, value =>
    if value + 4 > size then none
    else
      let eTag := m.num value 2
      let ePerm := m.num (value + 2) 2
      if eTag = 0x01 ∨ eTag = 0x04 ∨ eTag = 0x10 ∨ eTag = 0x20 then do
        let (es, value) ← aclEntries m size n (value + 4)
        some (⟨eTag, ePerm, 2 ^ 32 - 1⟩ :: es, value)
      else if eTag = 0x02 ∨ eTag = 0x08 then
        if value + 8 > size then none
        else do
          let eId := m.num (value + 4) 4
          let (es, value) ← aclEntries m size n (value + 8)
          some (⟨eTag, ePerm, eId⟩ :: es, value)
      else none

/-- `ext3_acl_from_disk`. -/
def ext3AclFromDisk (value : List UInt8) : Option (List PosixAclEntry) :=
  let size := value.length
  let m := Mem.ofList value
  if size < 4 then none
  else if m.num 0 4 ≠ 1 then none
  else
    match ext3AclCount size with
    | none | some 0 => none
    | some count => do
      let (acl, value) ← aclEntries m size count 4
      if value ≠ size then none else some acl

/-- `posix_acl_to_xattr`, into an array of `XATTR_MAXSIZE` bytes. -/
def posixAclToXattr (acl : List PosixAclEntry) : Option (List UInt8) :=
  let realSize := 4 + acl.length * 8
  if realSize > xattrMaxsize then none
  else some (bytesLE 4 2 ++ acl.flatMap fun e => bytesLE 2 e.eTag ++ bytesLE 2 e.ePerm ++
    bytesLE 4 e.eId)

/-! ## The walk -/

/-- What the callbacks ask of the system, and what they are told. -/
structure Env where
  lsetxattr : (path : String) → (name value : List UInt8) → Bool
  lgetxattr : (path : String) → (name : List UInt8) → Option (List UInt8)
  llistxattr : (path : String) → Option (List (List UInt8))
  deriving Inhabited

/-- A callback, given the name with its terminating NUL and the `valuelen` bytes of the value that
lie at the start of the array `value`. -/
abbrev Callback := List UInt8 → List UInt8 → Run Bool

/-- `xattr_cb_list` writes a NUL after the value. -/
def xattrCbList : Callback := fun _ value =>
  if value.length < xattrMaxsize then .ok true else .error .outside

/-- `xattr_cb_set`. -/
def xattrCbSet (env : Env) (nflag : Bool) (path : String) : Callback := fun name value =>
  .ok (nflag || env.lsetxattr path name value)

/-- `xattr_cb_compare`. -/
def xattrCbCompare (env : Env) (path : String) : Callback := fun name value =>
  match env.lgetxattr path name with
  | none => .ok false
  | some valuef => .ok (valuef == value)

/-- The first part of a name, by `e_name_index`, and whether the value is an access control list. -/
def namePrefix : ℕ → Option (String × Bool)
  | 1 => some ("user.", false)
  | 2 => some ("system.posix_acl_access", true)
  | 3 => some ("system.posix_acl_default", true)
  | 4 => some ("trusted.", false)
  | 5 => some ("lustre.", false)
  | 6 => some ("security.", false)
  | _ => none

/-- The name in the array `name`: the prefix, `e_name` and a NUL. -/
def fullName (pre : String) (eName : List UInt8) : List UInt8 :=
  pre.toList.map (fun c => UInt8.ofNat c.toNat) ++ eName ++ [0]

/-- The number of bytes that `memcpy` is told to copy for a value of size `e_value_size`, which goes
through an `int`. -/
def copySize (eValueSize : ℕ) : ℕ := ((eValueSize : ℤ).bmod (2 ^ 32) % 2 ^ 64).toNat

/-- The name and the value that `xattr_walk` hands to the callback for an entry, or `none` where it
returns `FAIL`. -/
def walkEntry (m : Mem) (entry : ℕ) : Run (Option (List UInt8 × List UInt8)) := do
  let eNameIndex ← field m (entry + 1) 1
  match namePrefix eNameIndex with
  | none => return none
  | some (pre, convertacl) => do
    let eNameLen ← field m entry 1
    let eName ← load m (entry + 16) eNameLen
    let name ← store (fullName pre eName)
    let eValueSize ← field m (entry + 8) 4
    let offset ← valueOffset m entry
    let value ← load m offset (copySize eValueSize)
    let value ← store value
    if convertacl then return (ext3AclFromDisk value >>= posixAclToXattr).map fun acl => (name, acl)
    else return some (name, value)

/-- The loop of `xattr_walk`. -/
def walkLoop (m : Mem) (xattrCb : Callback) : (fuel entry : ℕ) → Run Bool
  | 0, _ => .error .unfinished
  | fuel + 1, entry => do
    if ← isLastEntry m entry then return true
    match ← walkEntry m entry with
    | none => return false
    | some (name, value) => do
      if !(← xattrCb name value) then return false
      let next ← ext2XattrNext m entry
      walkLoop m xattrCb fuel next

/-- `xattr_walk`. -/
def xattrWalk (m : Mem) (xattrCb : Callback) : Run Bool := do
  let entry ← firstEntry m
  walkLoop m xattrCb xattrMaxsize entry

/-! ## The callers -/

/-- What `xattr_compare` and `xattr_extract` call on the buffer: `xattr_verify`, with its result, or
one of the functions that go along the entries. -/
inductive Event
  | verify (good : Bool)
  | walker
  deriving DecidableEq, Repr

/-- A run with the calls that it makes. -/
structure Traced (α : Type) where
  calls : List Event
  result : Run α

/-- One run after another. -/
def Traced.andThen {α β : Type} (x : Traced α) (f : α → Traced β) : Traced β :=
  match x.result with
  | .error e => ⟨x.calls, .error e⟩
  | .ok a => ⟨x.calls ++ (f a).calls, (f a).result⟩

instance : Monad Traced where
  pure a := ⟨[], .ok a⟩
  bind := Traced.andThen

/-- A call of `xattr_verify`. -/
def callVerify (m : Mem) : Traced Bool :=
  match xattrVerify m with
  | .ok good => ⟨[.verify good], .ok good⟩
  | .error e => ⟨[], .error e⟩

/-- A call of `xattr_count` or `xattr_walk`. -/
def callWalker {α : Type} (walker : Run α) : Traced α := ⟨[.walker], walker⟩

/-- `xattr_compare`. -/
def xattrCompare (env : Env) (path : String) (buffer : Option Mem) : Traced Bool :=
  match env.llistxattr path with
  | none => return false
  | some names => do
    let countf := (names.filter (· ≠ [])).length
    match buffer with
    | none => return countf == 0
    | some m => do
      if !(← callVerify m) then return false
      let countt ← callWalker (xattrCount m)
      if countf ≠ countt then return false
      callWalker (xattrWalk m (xattrCbCompare env path))

/-- `xattr_extract`. -/
def xattrExtract (env : Env) (dflag nflag : Bool) (path : String) (m : Mem) : Traced Bool := do
  if dflag then
    let _ ← callWalker (xattrWalk m xattrCbList)
  if !(← callVerify m) then return false
  callWalker (xattrWalk m (xattrCbSet env nflag path))

/-- The calls before `xattr_verify` returns `GOOD` are calls of `xattr_verify`. -/
def VerifiedFirst (events : List Event) : Prop :=
  ∀ e ∈ events.takeWhile (· ≠ Event.verify true), e ≠ Event.walker

/-- The callbacks. -/
inductive IsCallback : Callback → Prop
  | list : IsCallback xattrCbList
  | set (env : Env) (nflag : Bool) (path : String) : IsCallback (xattrCbSet env nflag path)
  | compare (env : Env) (path : String) : IsCallback (xattrCbCompare env path)

/-- The verification guards the walkers, on a buffer and with a setting of the debug flag: it ends
and reads only inside of the buffer, when it returns `GOOD` this holds of the walkers with any
callback, and no walker runs before it did. -/
structure Guarded (dflag : Bool) (m : Mem) : Prop where
  verify : ∃ good, xattrVerify m = .ok good
  count : xattrVerify m = .ok true → ∃ n, xattrCount m = .ok n
  walk : xattrVerify m = .ok true → ∀ cb, IsCallback cb → ∃ good, xattrWalk m cb = .ok good
  extract : ∀ env nflag path, VerifiedFirst (xattrExtract env dflag nflag path m).calls
  compare : ∀ env path, VerifiedFirst (xattrCompare env path (some m)).calls

/-! ## What is in a buffer -/

/-- The entries from offset `p` on, up to a word of zero in the buffer. -/
inductive Chain (m : Mem) : ℕ → List ℕ → Prop
  | last {p : ℕ} (hin : p + 4 ≤ xattrMaxsize) (hzero : m.num p 4 = 0) : Chain m p []
  | entry {p : ℕ} {ps : List ℕ} (hword : m.num p 4 ≠ 0)
      (hnext : p + ext2XattrLen (m.num p 1) < xattrMaxsize)
      (hrest : Chain m (p + ext2XattrLen (m.num p 1)) ps) : Chain m p (p :: ps)

/-- The buffer has a magic number, and these entries. -/
def HasEntries (m : Mem) (ps : List ℕ) : Prop :=
  m.num 0 4 = ext2XattrMagic ∧ Chain m 32 ps ∨ m.num 0 4 = ext2XattrMagic2 ∧ Chain m 4 ps

/-- Where the value of an entry starts. -/
def valueStart (m : Mem) (p : ℕ) : ℕ :=
  if m.num 0 4 = ext2XattrMagic2 then m.num (p + 2) 2 + 4 else m.num (p + 2) 2

/-- `e_value_size`. -/
def valueSize (m : Mem) (p : ℕ) : ℕ := m.num (p + 8) 4

/-- The value of an entry lies in the buffer. -/
def ValueInside (m : Mem) (p : ℕ) : Prop :=
  valueSize m p = 0 ∨ valueStart m p + valueSize m p ≤ xattrMaxsize

/-- An access control list that is converted. -/
def Converts (m : Mem) (p : ℕ) : Prop :=
  (ext3AclFromDisk (m.read (valueStart m p) (valueSize m p)) >>= posixAclToXattr).isSome

/-- The values of the entries, as far as the walk can get: up to an unknown name index or an access
control list that cannot be converted. -/
def ValuesInside (m : Mem) : List ℕ → Prop
  | [] => True
  | p :: ps => ∀ pre acl, namePrefix (m.num (p + 1) 1) = some (pre, acl) →
    ValueInside m p ∧ (acl = false → valueSize m p < xattrMaxsize) ∧
      ((acl = true → Converts m p) → ValuesInside m ps)

/-! ## Reads inside of the buffer -/

section Reads

variable {m : Mem} {p : ℕ}

theorem load_eq {a n : ℕ} (h : n = 0 ∨ a + n ≤ xattrMaxsize) : load m a n = .ok (m.read a n) :=
  if_pos h

theorem field_eq {a w : ℕ} (h : a + w ≤ xattrMaxsize) : field m a w = .ok (m.num a w) := by
  rw [field, load_eq (.inr h)]
  rfl

theorem num_lt (m : Mem) (a w : ℕ) : m.num a w < 256 ^ w := by
  have := ofBytesLE_lt (m.read a w)
  rwa [Mem.length_read] at this

theorem ok_bind {α β : Type} (x : α) (f : α → Run β) : (Except.ok x >>= f : Run β) = f x := rfl

theorem error_bind {α β : Type} (e : Stop) (f : α → Run β) :
    (Except.error e >>= f : Run β) = .error e := rfl

theorem firstEntry_eq (m : Mem) :
    firstEntry m = .ok (if m.num 0 4 = ext2XattrMagic2 then 4 else 32) := by
  rw [firstEntry, field_eq (by decide)]
  rfl

theorem isLastEntry_eq (h : p + 4 ≤ xattrMaxsize) : isLastEntry m p = .ok (m.num p 4 == 0) := by
  rw [isLastEntry, field_eq h]
  rfl

theorem ext2XattrNext_eq (h : p + 1 ≤ xattrMaxsize) :
    ext2XattrNext m p = .ok (p + ext2XattrLen (m.num p 1)) := by
  rw [ext2XattrNext, field_eq h]
  rfl

theorem ext2XattrLen_ge (n : ℕ) : n + 16 ≤ ext2XattrLen n ∧ 4 ∣ ext2XattrLen n := by
  rw [ext2XattrLen]
  omega

theorem valueOffset_eq (h : p + 4 ≤ xattrMaxsize) :
    valueOffset m p = .ok (valueStart m p) := by
  rw [valueOffset, field_eq (by decide), field_eq (by omega)]
  rfl

end Reads

/-! ## Verifying and counting -/

section Verify

variable {m : Mem} {p : ℕ} {ps : List ℕ}

/-- The loop of `xattr_verify` accepts exactly the entries that end in the buffer. -/
theorem verifyLoop_eq (fuel : ℕ) (hin : p + 4 ≤ xattrMaxsize) (halign : 4 ∣ p)
    (hfuel : xattrMaxsize ≤ p + fuel) :
    ∃ good, verifyLoop m fuel p = .ok good ∧ (good = true ↔ ∃ ps, Chain m p ps) := by
  induction fuel generalizing p with
  | zero => omega
  | succ fuel ih =>
    simp only [verifyLoop, isLastEntry_eq hin]
    by_cases hzero : m.num p 4 = 0
    · exact ⟨true, by simp [hzero]; rfl, iff_of_true rfl ⟨[], .last hin hzero⟩⟩
    · have hlen := ext2XattrLen_ge (m.num p 1)
      by_cases hnext : p + ext2XattrLen (m.num p 1) < xattrMaxsize
      · have halign' : 4 ∣ p + ext2XattrLen (m.num p 1) := by omega
        obtain ⟨good, hloop, hgood⟩ := ih (p := p + ext2XattrLen (m.num p 1))
          (by rw [xattrMaxsize] at *; omega) halign' (by omega)
        refine ⟨good, ?_, hgood.trans ⟨fun ⟨ps, hps⟩ => ⟨p :: ps, .entry hzero hnext hps⟩, ?_⟩⟩
        · rw [ext2XattrNext_eq (by omega)]
          simp [hzero, hnext, hloop, bind, Except.bind]
        · rintro ⟨ps, hps⟩
          cases hps with
          | last _ h => exact absurd h hzero
          | entry _ _ hrest => exact ⟨_, hrest⟩
      · refine ⟨false, ?_, iff_of_false Bool.false_ne_true ?_⟩
        · rw [ext2XattrNext_eq (by omega)]
          simp [hzero, Nat.not_lt.mp hnext, bind, Except.bind]
          rfl
        · rintro ⟨ps, hps⟩
          cases hps with
          | last _ h => exact hzero h
          | entry _ h _ => exact hnext h

/-- `xattr_verify` reads only inside of the buffer, and accepts exactly what has entries in it. -/
theorem xattrVerify_eq (m : Mem) :
    ∃ good, xattrVerify m = .ok good ∧ (good = true ↔ ∃ ps, HasEntries m ps) := by
  have hne : ext2XattrMagic ≠ ext2XattrMagic2 := by decide
  simp only [xattrVerify, field_eq (show 0 + 4 ≤ xattrMaxsize by decide), firstEntry_eq]
  by_cases h₁ : m.num 0 4 = ext2XattrMagic
  · obtain ⟨good, hloop, hgood⟩ := verifyLoop_eq (m := m) (p := 32) xattrMaxsize
      (by decide) (by decide) (by omega)
    refine ⟨good, ?_, hgood.trans (exists_congr fun ps => ?_)⟩
    · simp [h₁, hne, hloop, bind, Except.bind]
    · simp [HasEntries, h₁, hne]
  · by_cases h₂ : m.num 0 4 = ext2XattrMagic2
    · obtain ⟨good, hloop, hgood⟩ := verifyLoop_eq (m := m) (p := 4) xattrMaxsize
        (by decide) (by decide) (by omega)
      refine ⟨good, ?_, hgood.trans (exists_congr fun ps => ?_)⟩
      · simp [h₂, hloop, bind, Except.bind]
      · simp [HasEntries, h₂, hne.symm]
    · refine ⟨false, ?_, iff_of_false Bool.false_ne_true ?_⟩
      · simp [h₁, h₂, bind, Except.bind]
        rfl
      · rintro ⟨ps, h | h⟩
        · exact h₁ h.1
        · exact h₂ h.1

/-- The loop of `xattr_count` counts the entries. -/
theorem countLoop_eq (hchain : Chain m p ps) (fuel n : ℕ) (hfuel : xattrMaxsize ≤ p + fuel) :
    countLoop m fuel p n = .ok (n + ps.length) := by
  induction hchain generalizing fuel n with
  | @last p hin hzero =>
    obtain ⟨fuel, rfl⟩ : ∃ k, fuel = k + 1 := ⟨fuel - 1, by omega⟩
    simp [countLoop, isLastEntry_eq hin, hzero, bind, Except.bind]
    rfl
  | @entry p ps hword hnext hrest ih =>
    have hlen := ext2XattrLen_ge (m.num p 1)
    obtain ⟨fuel, rfl⟩ : ∃ k, fuel = k + 1 := ⟨fuel - 1, by omega⟩
    have hcount := ih fuel (n + 1) (by omega)
    simp [countLoop, isLastEntry_eq (show p + 4 ≤ xattrMaxsize by omega),
      ext2XattrNext_eq (show p + 1 ≤ xattrMaxsize by omega), hword, hcount, bind, Except.bind]
    omega

end Verify

/-! ## Walking -/

section Walk

variable {m : Mem} {p : ℕ} {ps : List ℕ}

theorem copySize_of_lt {n : ℕ} (hlt : n < 2147483648) : copySize n = n := by
  have hbmod : (n : ℤ).bmod (2 ^ 32) = n := Int.bmod_eq_of_le (by omega) (by omega)
  unfold copySize
  rw [hbmod, Int.emod_eq_of_lt (by omega) (by omega)]
  exact Int.toNat_natCast n

/-- A size that does not fit an `int` makes `memcpy` copy more than any array has. -/
theorem copySize_of_ge {n : ℕ} (hn : n < 4294967296) (hge : 2147483648 ≤ n) :
    copySize n = n + 18446744069414584320 := by
  have hbmod : (n : ℤ).bmod (2 ^ 32) = n - 4294967296 := by
    rw [Int.bmod_def]
    omega
  have hmod : (((n : ℤ) - 4294967296) % 2 ^ 64).toNat = n + 18446744069414584320 := by omega
  unfold copySize
  rw [hbmod, hmod]

theorem copySize_of_inside (h : ValueInside m p) : copySize (valueSize m p) = valueSize m p := by
  refine copySize_of_lt ?_
  rw [ValueInside, xattrMaxsize] at h
  omega

/-- When the value does not lie in the buffer, what is copied does not either. -/
theorem copySize_of_outside (h : ¬ValueInside m p) :
    ¬(copySize (valueSize m p) = 0 ∨
      valueStart m p + copySize (valueSize m p) ≤ xattrMaxsize) := by
  rcases Nat.lt_or_ge (valueSize m p) 2147483648 with hlt | hge
  · rwa [copySize_of_lt hlt]
  · have hlt : valueSize m p < 4294967296 := by
      have := num_lt m (p + 8) 4
      rw [valueSize]
      omega
    rw [copySize_of_ge hlt hge, xattrMaxsize]
    omega

theorem length_namePrefix {i : ℕ} {pre : String} {acl : Bool}
    (h : namePrefix i = some (pre, acl)) : pre.toList.length ≤ 24 := by
  unfold namePrefix at h
  split at h <;> simp only [Option.some.injEq, Prod.mk.injEq, reduceCtorEq] at h <;>
    obtain ⟨rfl, -⟩ := h <;> decide

/-- What `posix_acl_to_xattr` makes never fills the array. -/
theorem length_posixAclToXattr {acl : List PosixAclEntry} {v : List UInt8}
    (h : posixAclToXattr acl = some v) : v.length < xattrMaxsize := by
  rw [posixAclToXattr] at h
  split at h
  · exact nomatch h
  · obtain rfl := Option.some.inj h
    simp only [List.length_append, length_bytesLE, List.length_flatMap, List.map_const',
      List.sum_replicate, nsmul_eq_mul, Nat.cast_id]
    rw [xattrMaxsize] at *
    omega

/-- The value that is handed on for an entry. -/
def handed (m : Mem) (p : ℕ) (acl : Bool) : Option (List UInt8) :=
  if acl then ext3AclFromDisk (m.read (valueStart m p) (valueSize m p)) >>= posixAclToXattr
  else some (m.read (valueStart m p) (valueSize m p))

theorem walkEntry_of_unknown (hin : p + 2 ≤ xattrMaxsize)
    (hpre : namePrefix (m.num (p + 1) 1) = none) : walkEntry m p = .ok none := by
  rw [walkEntry, field_eq (by omega)]
  simp [hpre, bind, Except.bind]
  rfl

theorem length_fullName {pre : String} {acl : Bool} (hpre : namePrefix (m.num (p + 1) 1) =
    some (pre, acl)) : (fullName pre (m.read (p + 16) (m.num p 1))).length ≤ xattrMaxsize := by
  have hlen := length_namePrefix hpre
  have hbyte := num_lt m p 1
  simp only [fullName, List.length_append, List.length_map, Mem.length_read, List.length_singleton]
  rw [xattrMaxsize]
  omega

/-- The header and the name of an entry that is not the last one lie in the buffer, and the name
fits its array. -/
theorem walkEntry_of_known (hnext : p + ext2XattrLen (m.num p 1) < xattrMaxsize) {pre : String}
    {acl : Bool} (hpre : namePrefix (m.num (p + 1) 1) = some (pre, acl)) :
    walkEntry m p =
      (load m (valueStart m p) (copySize (valueSize m p)) >>= store) >>= fun value =>
        .ok ((if acl then ext3AclFromDisk value >>= posixAclToXattr else some value).map
          fun v => (fullName pre (m.read (p + 16) (m.num p 1)), v)) := by
  have hlen := ext2XattrLen_ge (m.num p 1)
  have hname : store (fullName pre (m.read (p + 16) (m.num p 1))) = .ok _ :=
    if_pos (length_fullName hpre)
  have hload : load m (p + 16) (m.num p 1) = .ok _ := load_eq (.inr (by omega))
  rw [walkEntry, field_eq (by omega), ok_bind, hpre]
  dsimp only
  rw [field_eq (by omega), ok_bind, hload, ok_bind, hname, ok_bind, field_eq (by omega), ok_bind,
    valueOffset_eq (by omega), ok_bind, bind_assoc]
  refine bind_congr fun value => bind_congr fun value => ?_
  cases acl <;> rfl

theorem walkEntry_of_inside (hnext : p + ext2XattrLen (m.num p 1) < xattrMaxsize) {pre : String}
    {acl : Bool} (hpre : namePrefix (m.num (p + 1) 1) = some (pre, acl)) (h : ValueInside m p) :
    walkEntry m p = .ok ((handed m p acl).map fun v =>
      (fullName pre (m.read (p + 16) (m.num p 1)), v)) := by
  have hstore : store (m.read (valueStart m p) (valueSize m p)) = .ok _ := if_pos (by
    rw [Mem.length_read]
    rw [ValueInside] at h
    omega)
  rw [walkEntry_of_known hnext hpre, copySize_of_inside h, load_eq h]
  simp only [bind, Except.bind, hstore]
  rfl

theorem walkEntry_of_outside (hnext : p + ext2XattrLen (m.num p 1) < xattrMaxsize) {pre : String}
    {acl : Bool} (hpre : namePrefix (m.num (p + 1) 1) = some (pre, acl)) (h : ¬ValueInside m p) :
    walkEntry m p = .error .outside := by
  have hload : load m (valueStart m p) (copySize (valueSize m p)) = .error .outside :=
    if_neg (copySize_of_outside h)
  rw [walkEntry_of_known hnext hpre, hload]
  rfl

theorem isSome_handed (acl : Bool) :
    (handed m p acl).isSome ↔ (acl = true → Converts m p) := by
  cases acl with
  | false => simp [handed]
  | true => simp [handed, Converts]

/-- What is handed on is shorter than the array. -/
theorem length_handed {acl : Bool} {v : List UInt8}
    (hsize : acl = false → valueSize m p < xattrMaxsize) (h : handed m p acl = some v) :
    v.length < xattrMaxsize := by
  cases acl with
  | false =>
    obtain rfl := Option.some.inj h
    rw [Mem.length_read]
    exact hsize rfl
  | true =>
    obtain ⟨a, -, ha⟩ := Option.bind_eq_some_iff.mp h
    exact length_posixAclToXattr ha

/-- The loop at an entry that is not the last one. -/
theorem walkLoop_entry (xattrCb : Callback) (fuel : ℕ) (hword : m.num p 4 ≠ 0)
    (hnext : p + ext2XattrLen (m.num p 1) < xattrMaxsize) :
    walkLoop m xattrCb (fuel + 1) p = walkEntry m p >>= fun found =>
      match found with
      | none => .ok false
      | some (name, value) => xattrCb name value >>= fun good =>
        if !good then .ok false
        else walkLoop m xattrCb fuel (p + ext2XattrLen (m.num p 1)) := by
  have hlen := ext2XattrLen_ge (m.num p 1)
  have hlast : (m.num p 4 == 0) = false := beq_eq_false_iff_ne.mpr hword
  rw [walkLoop, isLastEntry_eq (by omega), ok_bind, hlast]
  refine bind_congr fun found => ?_
  cases found with
  | none => rfl
  | some x =>
    refine bind_congr fun good => ?_
    cases good with
    | false => rfl
    | true =>
      rw [ext2XattrNext_eq (by omega)]
      rfl

theorem walkLoop_last (xattrCb : Callback) (fuel : ℕ) (hin : p + 4 ≤ xattrMaxsize)
    (hzero : m.num p 4 = 0) : walkLoop m xattrCb (fuel + 1) p = .ok true := by
  rw [walkLoop, isLastEntry_eq hin, ok_bind, hzero]
  rfl

/-- With their values in the buffer, the walk along the entries ends with any callback that takes
values shorter than its array. -/
theorem walkLoop_of_inside (hchain : Chain m p ps) (hinside : ValuesInside m ps)
    {xattrCb : Callback} (hcb : ∀ name value, value.length < xattrMaxsize →
      ∃ good, xattrCb name value = .ok good) (fuel : ℕ) (hfuel : xattrMaxsize ≤ p + fuel) :
    ∃ good, walkLoop m xattrCb fuel p = .ok good := by
  induction hchain generalizing fuel with
  | @last p hin hzero =>
    obtain ⟨fuel, rfl⟩ : ∃ k, fuel = k + 1 := ⟨fuel - 1, by omega⟩
    exact ⟨true, walkLoop_last xattrCb fuel hin hzero⟩
  | @entry p ps hword hnext hrest ih =>
    have hlen := ext2XattrLen_ge (m.num p 1)
    obtain ⟨fuel, rfl⟩ : ∃ k, fuel = k + 1 := ⟨fuel - 1, by omega⟩
    rw [walkLoop_entry xattrCb fuel hword hnext]
    cases hpre : namePrefix (m.num (p + 1) 1) with
    | none => exact ⟨false, by rw [walkEntry_of_unknown (by omega) hpre]; rfl⟩
    | some pre =>
      obtain ⟨pre, acl⟩ := pre
      obtain ⟨hvalue, hsize, hrest'⟩ := hinside pre acl hpre
      rw [walkEntry_of_inside hnext hpre hvalue, ok_bind]
      cases hhanded : handed m p acl with
      | none => exact ⟨false, rfl⟩
      | some v =>
        obtain ⟨good, hgood⟩ := hcb (fullName pre (m.read (p + 16) (m.num p 1))) v
          (length_handed hsize hhanded)
        simp only [Option.map_some, hgood, ok_bind]
        cases good with
        | false => exact ⟨false, rfl⟩
        | true =>
          have hconv : acl = true → Converts m p :=
            (isSome_handed acl).mp (by rw [hhanded]; rfl)
          exact ih (hrest' hconv) fuel (by omega)

/-- The walk that lists the attributes goes as far as it can. -/
theorem valuesInside_of_walkLoop (hchain : Chain m p ps) {fuel : ℕ} {good : Bool}
    (hwalk : walkLoop m xattrCbList fuel p = .ok good) : ValuesInside m ps := by
  induction hchain generalizing fuel with
  | last => trivial
  | @entry p ps hword hnext hrest ih =>
    obtain _ | fuel := fuel
    · exact nomatch hwalk
    rw [walkLoop_entry xattrCbList fuel hword hnext] at hwalk
    intro pre acl hpre
    by_cases hvalue : ValueInside m p
    · rw [walkEntry_of_inside hnext hpre hvalue, ok_bind] at hwalk
      have hlist : ∀ v, handed m p acl = some v → v.length < xattrMaxsize ∧
          walkLoop m xattrCbList fuel (p + ext2XattrLen (m.num p 1)) = .ok good := by
        intro v hv
        simp only [hv, Option.map_some, xattrCbList] at hwalk
        split at hwalk
        · exact ⟨‹_›, hwalk⟩
        · exact nomatch hwalk
      refine ⟨hvalue, ?_, fun hconv => ?_⟩
      · rintro rfl
        simpa [Mem.length_read] using (hlist _ rfl).1
      · obtain ⟨v, hv⟩ := Option.isSome_iff_exists.mp ((isSome_handed acl).mpr hconv)
        exact ih (hlist v hv).2
    · rw [walkEntry_of_outside hnext hpre hvalue, error_bind] at hwalk
      exact nomatch hwalk

end Walk

/-! ## The guard -/

section Guard

variable {m : Mem}

theorem exists_ok_of_isCallback {cb : Callback} (hcb : IsCallback cb) (name value : List UInt8)
    (hlen : value.length < xattrMaxsize) : ∃ good, cb name value = .ok good := by
  cases hcb with
  | list => exact ⟨true, if_pos hlen⟩
  | set env nflag path => exact ⟨_, rfl⟩
  | compare env path =>
    rw [xattrCbCompare]
    split <;> exact ⟨_, rfl⟩

/-- The chain of entries starts at the first one. -/
theorem HasEntries.chain {ps : List ℕ} (h : HasEntries m ps) :
    ∃ p, firstEntry m = .ok p ∧ Chain m p ps := by
  have hne : ext2XattrMagic ≠ ext2XattrMagic2 := by decide
  rw [firstEntry_eq]
  obtain ⟨hmagic, hchain⟩ | ⟨hmagic, hchain⟩ := h
  · exact ⟨32, by rw [hmagic, if_neg hne], hchain⟩
  · exact ⟨4, by rw [hmagic, if_pos rfl], hchain⟩

/-- A function that calls `xattr_verify`, and nothing more when the buffer is rejected. -/
theorem verifiedFirst_callVerify {f : Bool → Traced Bool} (hfalse : (f false).calls = []) :
    VerifiedFirst (callVerify m >>= f).calls := by
  obtain ⟨good, hverify, -⟩ := xattrVerify_eq m
  have hcalls : (callVerify m >>= f).calls = .verify good :: (f good).calls := by
    simp only [bind, Traced.andThen, callVerify, hverify]
    rfl
  cases good with
  | false => simp [VerifiedFirst, hcalls, hfalse]
  | true => simp [VerifiedFirst, hcalls]

theorem verifiedFirst_xattrCompare (env : Env) (path : String) (m : Mem) :
    VerifiedFirst (xattrCompare env path (some m)).calls := by
  rw [xattrCompare]
  cases env.llistxattr path with
  | none => exact fun e he => nomatch he
  | some names => exact verifiedFirst_callVerify rfl

theorem verifiedFirst_xattrExtract (env : Env) (dflag nflag : Bool) (path : String) (m : Mem) :
    VerifiedFirst (xattrExtract env dflag nflag path m).calls ↔ dflag = false := by
  cases dflag with
  | false => exact iff_of_true (verifiedFirst_callVerify rfl) rfl
  | true =>
    refine iff_of_false (fun h => ?_) (fun h => nomatch h)
    -- The first call is the one that lists the attributes.
    have hfirst : ∃ events,
        (xattrExtract env true nflag path m).calls = .walker :: events := by
      simp only [xattrExtract, if_true, bind, Traced.andThen, callWalker]
      split <;> exact ⟨_, rfl⟩
    obtain ⟨events, hevents⟩ := hfirst
    exact h .walker (by simp [hevents]) rfl

theorem Guarded.valuesInside {dflag : Bool} (h : Guarded dflag m) {ps : List ℕ}
    (hps : HasEntries m ps) : ValuesInside m ps := by
  obtain ⟨good, hverify, hgood⟩ := xattrVerify_eq m
  obtain ⟨p, hfirst, hchain⟩ := hps.chain
  obtain ⟨good', hwalk⟩ := h.walk (by rw [hverify, hgood.mpr ⟨ps, hps⟩]) _ .list
  rw [xattrWalk, hfirst, ok_bind] at hwalk
  exact valuesInside_of_walkLoop hchain hwalk

/-- **The verification guards the walkers** if and only if the debug flag is off, and the values of
the entries that it accepts lie in the buffer. -/
theorem guarded_iff (dflag : Bool) (m : Mem) :
    Guarded dflag m ↔ dflag = false ∧ ∀ ps, HasEntries m ps → ValuesInside m ps := by
  obtain ⟨good, hverify, hgood⟩ := xattrVerify_eq m
  constructor
  · intro h
    exact ⟨(verifiedFirst_xattrExtract default dflag false "" m).mp (h.extract default false ""),
      fun _ hps => h.valuesInside hps⟩
  · rintro ⟨rfl, hinside⟩
    have hchain : xattrVerify m = .ok true →
        ∃ ps p, HasEntries m ps ∧ firstEntry m = .ok p ∧ Chain m p ps := by
      intro hok
      rw [hverify] at hok
      obtain ⟨ps, hps⟩ := hgood.mp (Except.ok.inj hok)
      obtain ⟨p, hfirst, hchain⟩ := hps.chain
      exact ⟨ps, p, hps, hfirst, hchain⟩
    refine ⟨⟨good, hverify⟩, fun hok => ?_, fun hok cb hcb => ?_, fun env nflag path =>
      (verifiedFirst_xattrExtract env false nflag path m).mpr rfl,
      fun env path => verifiedFirst_xattrCompare env path m⟩
    · obtain ⟨ps, p, -, hfirst, hchain⟩ := hchain hok
      refine ⟨0 + ps.length, ?_⟩
      rw [xattrCount, hfirst, ok_bind]
      exact countLoop_eq hchain xattrMaxsize 0 (by omega)
    · obtain ⟨ps, p, hps, hfirst, hchain⟩ := hchain hok
      obtain ⟨good', hwalk⟩ := walkLoop_of_inside hchain (hinside ps hps)
        (exists_ok_of_isCallback hcb) xattrMaxsize (by omega)
      refine ⟨good', ?_⟩
      rw [xattrWalk, hfirst, ok_bind]
      exact hwalk

/-- A buffer with the attribute `user.a`, whose value is said to have 8192 bytes. -/
def longValue : Mem := Mem.ofList (bytesLE 4 ext2XattrMagic ++ List.replicate 28 0 ++
  bytesLE 1 1 ++ bytesLE 1 1 ++ bytesLE 2 64 ++ bytesLE 4 0 ++ bytesLE 4 8192 ++ bytesLE 4 0 ++
  bytesLE 4 97)

theorem hasEntries_longValue : HasEntries longValue [32] :=
  .inl ⟨by decide, .entry (by decide) (by decide) (.last (by decide) (by decide))⟩

/-- `xattr_verify` does not look at the values. -/
theorem not_guarded : ¬∀ (dflag : Bool) (m : Mem), Guarded dflag m := by
  intro h
  have hvalue := ((h false longValue).valuesInside hasEntries_longValue "user." false (by decide)).1
  have hsize : valueSize longValue 32 = 8192 := by decide
  have hstart : valueStart longValue 32 = 64 := by decide
  rw [ValueInside, hsize, hstart, xattrMaxsize] at hvalue
  omega

end Guard

end DumpRestore.Xattr
