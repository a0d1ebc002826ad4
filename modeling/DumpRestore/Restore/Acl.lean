import DumpRestore.Restore.Convert
import DumpRestore.Restore.Xattr

/-!
# The conversion of access control lists

An attribute that is an access control list has the format of ext3: a version, and entries of four
bytes (owner, group, mask and others) or eight bytes (named users and groups). `ext3_acl_from_disk`
guesses the number of entries from the size, and then goes along them; `posix_acl_to_xattr` writes
the list in the format of the system call. On a big-endian machine both exchange bytes in place,
and `ext3_acl_from_disk` does so before it compares the position with the end.

The pointer `value` is the rest of the string from where it points. A run stops at an access behind
the end of the string. The module `Restore.Xattr` has the same functions for a little-endian machine
(`ext3AclFromDisk_little`).

* `Shaped` are the lists that the format can hold, `encode` is their encoding.
* `aclEntries_encode` and `encode_of_aclEntries` are the two directions of the law of the loop,
  and `ext3AclCount_eq` is the guess.
* `aclConversion_iff` is the main theorem.
-/

namespace DumpRestore.Acl

open ByteOrder
open Xattr (Run Stop PosixAclEntry ext3AclCount aclEntries)

/-! ## The functions -/

section Functions

variable (o : Order)

/-- `swabst(fmt, sp)` for the `n` bytes at `value`, on a big-endian machine. -/
def toHost (fmt : String) (n : ℕ) (value : List UInt8) : Run (List UInt8) :=
  match o with
  | .little => .ok value
  | .big =>
    if n ≤ value.length then .ok (swabst fmt.toList 0 (value.take n) ++ value.drop n)
    else .error .outside

/-- A number of `w` bytes in the order of the machine. -/
def hostNum (bs : List UInt8) : ℕ :=
  match o with
  | .little => ofBytesLE bs
  | .big => ofBytesLE bs.reverse

/-- The member of `w` bytes at offset `i` from `value`. -/
def member (value : List UInt8) (i w : ℕ) : Run ℕ :=
  if i + w ≤ value.length then .ok (hostNum o ((value.drop i).take w)) else .error .outside

/-- `ACL_USER_OBJ`, `ACL_GROUP_OBJ`, `ACL_MASK` and `ACL_OTHER`. -/
def Short (eTag : ℕ) : Prop := eTag = 0x01 ∨ eTag = 0x04 ∨ eTag = 0x10 ∨ eTag = 0x20

/-- `ACL_USER` and `ACL_GROUP`. -/
def Long (eTag : ℕ) : Prop := eTag = 0x02 ∨ eTag = 0x08

instance (eTag : ℕ) : Decidable (Short eTag) := inferInstanceAs (Decidable (_ ∨ _))

instance (eTag : ℕ) : Decidable (Long eTag) := inferInstanceAs (Decidable (_ ∨ _))

/-- `ACL_UNDEFINED_ID`. -/
def aclUndefinedId : ℕ := 2 ^ 32 - 1

/-- The loop of `ext3_acl_from_disk`: the entries, and `value` after them. -/
def aclLoop : (n : ℕ) → (value : List UInt8) → Run (Option (List PosixAclEntry × List UInt8))
  | 0, value => .ok (some ([], value))
  | n + 1, value => do
    let entry ← toHost o "2s" 4 value
    if entry.length < 4 then return none
    let eTag ← member o entry 0 2
    let ePerm ← member o entry 2 2
    if Short eTag then
      let r ← aclLoop n (entry.drop 4)
      return r.map fun (es, value) => (⟨eTag, ePerm, aclUndefinedId⟩ :: es, value)
    else if Long eTag then
      let entry ← toHost o "4b1i" 8 entry
      if entry.length < 8 then return none
      let eId ← member o entry 4 4
      let r ← aclLoop n (entry.drop 8)
      return r.map fun (es, value) => (⟨eTag, ePerm, eId⟩ :: es, value)
    else return none

/-- `ext3_acl_from_disk`. -/
def ext3AclFromDisk (value : List UInt8) : Run (Option (List PosixAclEntry)) := do
  if value.length < 4 then return none
  let header ← toHost o "1i" 4 value
  let aVersion ← member o header 0 4
  if aVersion ≠ 1 then return none
  match ext3AclCount value.length with
  | none | some 0 => return none
  | some count =>
    let r ← aclLoop o count (header.drop 4)
    return r.bind fun (acl, value) => if value ≠ [] then none else some acl

/-- A record that is stored in the order of the machine, and exchanged by `swabst` where that is not
the order of the format. -/
def stored (fmt : String) (fs : List Scalar) : List UInt8 :=
  match o with
  | .little => image .little fs
  | .big => swabst fmt.toList 0 (image .big fs)

/-- `posix_acl_to_xattr` into a buffer of `size` bytes. -/
def posixAclToXattr (acl : List PosixAclEntry) (size : ℕ) : Option (List UInt8) :=
  let realSize := 4 + acl.length * 8
  if realSize > size then none
  else some (stored o "1i" [⟨4, 2⟩] ++ acl.flatMap fun e =>
    stored o "2s1i" [⟨2, e.eTag⟩, ⟨2, e.ePerm⟩, ⟨4, e.eId⟩])

end Functions

/-! ## The format -/

/-- An entry that the format can hold. -/
def Wellformed (e : PosixAclEntry) : Prop :=
  e.ePerm < 2 ^ 16 ∧ (Short e.eTag ∧ e.eId = aclUndefinedId ∨ Long e.eTag ∧ e.eId < 2 ^ 32)

/-- An entry in the format of ext3. -/
def encodeEntry (e : PosixAclEntry) : List UInt8 :=
  bytesLE 2 e.eTag ++ bytesLE 2 e.ePerm ++ if Long e.eTag then bytesLE 4 e.eId else []

/-- A list in the format of ext3. -/
def encode (acl : List PosixAclEntry) : List UInt8 := bytesLE 4 1 ++ acl.flatMap encodeEntry

/-- The numbers of short and of long entries. -/
def shorts (acl : List PosixAclEntry) : ℕ := acl.countP fun e => Short e.eTag

def longs (acl : List PosixAclEntry) : ℕ := acl.countP fun e => Long e.eTag

/-- One to three short entries, or four short entries and any number of long ones. -/
structure Shaped (acl : List PosixAclEntry) : Prop where
  wellformed : ∀ e ∈ acl, Wellformed e
  counts : longs acl = 0 ∧ 1 ≤ shorts acl ∧ shorts acl ≤ 3 ∨ shorts acl = 4

/-- An access control list: the owner, named users, the group, named groups, a mask, which must be
there with names, and the others. -/
inductive Valid : List PosixAclEntry → Prop
  | mk {owner group other : PosixAclEntry} {users groups : List PosixAclEntry}
      {mask : Option PosixAclEntry} (hmask : users ≠ [] ∨ groups ≠ [] → mask.isSome)
      (howner : owner.eTag = 0x01) (husers : ∀ e ∈ users, e.eTag = 0x02)
      (hgroup : group.eTag = 0x04) (hgroups : ∀ e ∈ groups, e.eTag = 0x08)
      (htag : ∀ e ∈ mask, e.eTag = 0x10) (hother : other.eTag = 0x20)
      (hall : ∀ e ∈ owner :: users ++ group :: groups ++ mask.toList ++ [other], Wellformed e) :
      Valid (owner :: users ++ group :: groups ++ mask.toList ++ [other])

/-- The entries of a list in the format of the system call. -/
def xattrEntries : (n : ℕ) → List UInt8 → List PosixAclEntry
  | 0, _ => []
  | n + 1, bs => ⟨ofBytesLE (bs.take 2), ofBytesLE ((bs.drop 2).take 2),
      ofBytesLE ((bs.drop 4).take 4)⟩ :: xattrEntries n (bs.drop 8)

/-- The bytes are a list in the format of the system call. -/
def EncodesXattr (acl : List PosixAclEntry) (bs : List UInt8) : Prop :=
  bs.length = 4 + acl.length * 8 ∧ ofBytesLE (bs.take 4) = 2 ∧
    xattrEntries acl.length (bs.drop 4) = acl

/-- What is to hold of the conversion of a string: it ends inside of the string, it accepts exactly
the encodings of lists of the right shape, those of the access control lists among them, and the
result can be written in the other format. -/
structure Exact (o : Order) (value : List UInt8) : Prop where
  inside : ∃ r, ext3AclFromDisk o value = .ok r
  accepts : ∀ acl, ext3AclFromDisk o value = .ok (some acl) ↔ Shaped acl ∧ value = encode acl
  valid : ∀ acl, Valid acl → value = encode acl → ext3AclFromDisk o value = .ok (some acl)
  toXattr : ∀ acl size, ext3AclFromDisk o value = .ok (some acl) → 4 + acl.length * 8 ≤ size →
    ∃ bs, posixAclToXattr o acl size = some bs ∧ EncodesXattr acl bs

/-- The first `n` entries of a string, up to one with an unknown tag, lie inside of it. -/
def EntriesInside : (n : ℕ) → List UInt8 → Prop
  | 0, _ => True
  | n + 1, value => 4 ≤ value.length ∧
    (Short (ofBytesLE (value.take 2)) → EntriesInside n (value.drop 4)) ∧
    (Long (ofBytesLE (value.take 2)) → 8 ≤ value.length ∧ EntriesInside n (value.drop 8))

/-- If a string has the version of the format and a size that can be right, the entries of which
there should be so many lie inside of it. -/
def Inside (value : List UInt8) : Prop :=
  4 ≤ value.length → ofBytesLE (value.take 4) = 1 →
    ∀ count, ext3AclCount value.length = some count → EntriesInside count (value.drop 4)

/-! ## The runs -/

section Runs

variable {o : Order} {a b c d x y z w : UInt8} {rest value bs : List UInt8}

theorem ok_bind {α β : Type} (r : α) (f : α → Run β) : (Except.ok r >>= f : Run β) = f r := rfl

theorem error_bind {α β : Type} (e : Stop) (f : α → Run β) :
    (Except.error e >>= f : Run β) = .error e := rfl

/-- The members that every entry has. -/
theorem entry_short (o : Order) (a b c d : UInt8) (rest : List UInt8) :
    ∃ a' b' c' d', toHost o "2s" 4 (a :: b :: c :: d :: rest) = .ok (a' :: b' :: c' :: d' :: rest) ∧
      member o (a' :: b' :: c' :: d' :: rest) 0 2 = .ok (ofBytesLE [a, b]) ∧
      member o (a' :: b' :: c' :: d' :: rest) 2 2 = .ok (ofBytesLE [c, d]) := by
  cases o with
  | little => exact ⟨a, b, c, d, rfl, by simp [member, hostNum], by simp [member, hostNum]⟩
  | big =>
    refine ⟨b, a, d, c, ?_, by simp [member, hostNum], by simp [member, hostNum]⟩
    rw [toHost, if_pos (by simp)]
    rfl

/-- The identifier of a long entry. -/
theorem entry_long (o : Order) (a b c d x y z w : UInt8) (rest : List UInt8) :
    ∃ x' y' z' w', toHost o "4b1i" 8 (a :: b :: c :: d :: x :: y :: z :: w :: rest) =
        .ok (a :: b :: c :: d :: x' :: y' :: z' :: w' :: rest) ∧
      member o (a :: b :: c :: d :: x' :: y' :: z' :: w' :: rest) 4 4 =
        .ok (ofBytesLE [x, y, z, w]) := by
  cases o with
  | little => exact ⟨x, y, z, w, rfl, by simp [member, hostNum]⟩
  | big =>
    refine ⟨w, z, y, x, ?_, by simp [member, hostNum]⟩
    rw [toHost, if_pos (by simp)]
    rfl

theorem num_ofList {v n : ℕ} (h : v + n ≤ bs.length) :
    (Mem.ofList bs).num v n = ofBytesLE ((bs.drop v).take n) := by
  rw [Mem.num, Mem.read_ofList bs h]

/-- The turn of the loop for a short entry. -/
theorem aclLoop_short (n : ℕ) (hshort : Short (ofBytesLE [a, b])) :
    aclLoop o (n + 1) (a :: b :: c :: d :: rest) = (aclLoop o n rest >>= fun r =>
      .ok (r.map fun (es, value) =>
        (⟨ofBytesLE [a, b], ofBytesLE [c, d], aclUndefinedId⟩ :: es, value))) := by
  obtain ⟨a', b', c', d', hhost, htag, hperm⟩ := entry_short o a b c d rest
  rw [aclLoop, hhost, ok_bind, if_neg (by simp), htag, ok_bind, hperm, ok_bind, if_pos hshort]
  rfl

/-- The turn of the loop for a long entry. -/
theorem aclLoop_long (n : ℕ) (hshort : ¬Short (ofBytesLE [a, b]))
    (hlong : Long (ofBytesLE [a, b])) :
    aclLoop o (n + 1) (a :: b :: c :: d :: x :: y :: z :: w :: rest) =
      (aclLoop o n rest >>= fun r => .ok (r.map fun (es, value) =>
        (⟨ofBytesLE [a, b], ofBytesLE [c, d], ofBytesLE [x, y, z, w]⟩ :: es, value))) := by
  obtain ⟨a', b', c', d', hhost, htag, hperm⟩ := entry_short o a b c d (x :: y :: z :: w :: rest)
  obtain ⟨x', y', z', w', hlhost, hid⟩ := entry_long o a' b' c' d' x y z w rest
  rw [aclLoop, hhost, ok_bind, if_neg (by simp), htag, ok_bind, hperm, ok_bind, if_neg hshort,
    if_pos hlong, hlhost, ok_bind, if_neg (by simp), hid, ok_bind]
  rfl

/-- The turn of the loop for an entry with an unknown tag. -/
theorem aclLoop_unknown (n : ℕ) (hshort : ¬Short (ofBytesLE [a, b]))
    (hlong : ¬Long (ofBytesLE [a, b])) :
    aclLoop o (n + 1) (a :: b :: c :: d :: rest) = .ok none := by
  obtain ⟨a', b', c', d', hhost, htag, hperm⟩ := entry_short o a b c d rest
  rw [aclLoop, hhost, ok_bind, if_neg (by simp), htag, ok_bind, hperm, ok_bind, if_neg hshort,
    if_neg hlong]
  rfl

/-- What a machine does where the loop looks at bytes behind the end. -/
def behindEnd (o : Order) : Run (Option (List PosixAclEntry × List UInt8)) :=
  match o with
  | .little => .ok none
  | .big => .error .outside

theorem aclLoop_end (o : Order) (n : ℕ) (hlen : value.length < 4) :
    aclLoop o (n + 1) value = behindEnd o := by
  cases o with
  | little =>
    rw [aclLoop, toHost, ok_bind, if_pos hlen]
    rfl
  | big =>
    rw [aclLoop, toHost, if_neg (by omega)]
    rfl

theorem aclLoop_longEnd (o : Order) (n : ℕ) (hshort : ¬Short (ofBytesLE [a, b]))
    (hlong : Long (ofBytesLE [a, b])) (hlen : rest.length < 4) :
    aclLoop o (n + 1) (a :: b :: c :: d :: rest) = behindEnd o := by
  obtain ⟨a', b', c', d', hhost, htag, hperm⟩ := entry_short o a b c d rest
  rw [aclLoop, hhost, ok_bind, if_neg (by simp), htag, ok_bind, hperm, ok_bind, if_neg hshort,
    if_pos hlong]
  cases o with
  | little =>
    rw [toHost, ok_bind, if_pos (by simp only [List.length_cons]; omega)]
    rfl
  | big =>
    rw [toHost, if_neg (by simp only [List.length_cons]; omega)]
    rfl

theorem not_short_of_long {t : ℕ} (h : Long t) : ¬Short t := by
  rcases h with rfl | rfl <;> decide

/-- An access behind the end. -/
theorem aclLoop_outside {n : ℕ} (hoff : ¬EntriesInside n value) :
    aclLoop .big n value = .error .outside := by
  induction n generalizing value with
  | zero => exact absurd trivial hoff
  | succ n ih =>
    match value with
    | a :: b :: c :: d :: rest =>
      by_cases hshort : Short (ofBytesLE [a, b])
      · have hrest : ¬EntriesInside n rest := fun h => hoff
          ⟨by simp, fun _ => h, fun hlong => absurd hshort (not_short_of_long hlong)⟩
        rw [aclLoop_short n hshort, ih hrest, error_bind]
      by_cases hlong : Long (ofBytesLE [a, b])
      · match rest with
        | x :: y :: z :: w :: rest =>
          have hrest : ¬EntriesInside n rest := fun h => hoff
            ⟨by simp, fun hs => absurd hs hshort, fun _ => ⟨by simp, h⟩⟩
          rw [aclLoop_long n hshort hlong, ih hrest, error_bind]
        | [] | [_] | [_, _] | [_, _, _] => exact aclLoop_longEnd .big n hshort hlong (by simp)
      · exact absurd ⟨by simp, fun h => absurd h hshort, fun h => absurd h hlong⟩ hoff
    | [] | [_] | [_, _] | [_, _, _] => exact aclLoop_end .big n (by simp)

/-- A turn of the loop in the other module. -/
theorem aclEntries_succ (m : Mem) (size n v : ℕ) : aclEntries m size (n + 1) v =
    if v + 4 > size then none
    else if Short (m.num v 2) then (aclEntries m size n (v + 4)).map fun p =>
      (⟨m.num v 2, m.num (v + 2) 2, aclUndefinedId⟩ :: p.1, p.2)
    else if Long (m.num v 2) then
      if v + 8 > size then none
      else (aclEntries m size n (v + 8)).map fun p =>
        (⟨m.num v 2, m.num (v + 2) 2, m.num (v + 4) 4⟩ :: p.1, p.2)
    else none := by
  rw [aclEntries]
  cases aclEntries m size n (v + 4) <;> cases aclEntries m size n (v + 8) <;> rfl

/-- **The loop of a little-endian machine** is that of any machine, as long as no entry is cut
off. -/
theorem aclLoop_eq {n v : ℕ} (hside : o = .little ∨ EntriesInside n value)
    (hdrop : bs.drop v = value) (hv : v + value.length = bs.length) :
    aclLoop o n value =
      .ok ((aclEntries (.ofList bs) bs.length n v).map fun p => (p.1, bs.drop p.2)) := by
  induction n generalizing value v with
  | zero => rw [aclLoop, aclEntries, Option.map_some, hdrop]
  | succ n ih =>
    match value with
    | a :: b :: c :: d :: rest =>
      simp only [List.length_cons] at hv
      have hnext : bs.drop (v + 4) = rest := by rw [← List.drop_drop, hdrop]; rfl
      have htag : (Mem.ofList bs).num v 2 = ofBytesLE [a, b] := by
        rw [num_ofList (by omega), hdrop]; rfl
      have hperm : (Mem.ofList bs).num (v + 2) 2 = ofBytesLE [c, d] := by
        rw [num_ofList (by omega), ← List.drop_drop, hdrop]; rfl
      rw [aclEntries_succ, if_neg (by omega), htag, hperm]
      by_cases hshort : Short (ofBytesLE [a, b])
      · have hrest : o = .little ∨ EntriesInside n rest := hside.imp_right fun h => h.2.1 hshort
        rw [aclLoop_short n hshort, ih hrest hnext (by omega), if_pos hshort]
        cases aclEntries (.ofList bs) bs.length n (v + 4) with
        | none => rfl
        | some p => rfl
      by_cases hlong : Long (ofBytesLE [a, b])
      · rw [if_neg hshort, if_pos hlong]
        match rest with
        | x :: y :: z :: w :: rest =>
          simp only [List.length_cons] at hv
          have hrest : o = .little ∨ EntriesInside n rest :=
            hside.imp_right fun h => (h.2.2 hlong).2
          have hlast : bs.drop (v + 8) = rest := by rw [← List.drop_drop, hdrop]; rfl
          have hid : (Mem.ofList bs).num (v + 4) 4 = ofBytesLE [x, y, z, w] := by
            rw [num_ofList (by omega), ← List.drop_drop, hdrop]; rfl
          rw [aclLoop_long n hshort hlong, ih hrest hlast (by omega), if_neg (by omega), hid]
          cases aclEntries (.ofList bs) bs.length n (v + 8) with
          | none => rfl
          | some p => rfl
        | [] | [_] | [_, _] | [_, _, _] =>
          have hlittle : o = .little := hside.resolve_right fun h => by
            have := (h.2.2 hlong).1
            simp at this
          simp only [List.length_cons, List.length_nil] at hv
          rw [aclLoop_longEnd o n hshort hlong (by simp), if_pos (by omega), hlittle]
          rfl
      · rw [aclLoop_unknown n hshort hlong, if_neg hshort, if_neg hlong]
        rfl
    | [] | [_] | [_, _] | [_, _, _] =>
      have hlittle : o = .little := hside.resolve_right fun h => by
        have := h.1
        simp at this
      simp only [List.length_cons, List.length_nil] at hv
      rw [aclLoop_end o n (by simp), aclEntries_succ, if_pos (by omega), hlittle]
      rfl

end Runs

/-! ## The law of the loop -/

section Law

variable {bs : List UInt8} {acl es : List PosixAclEntry} {e : PosixAclEntry} {n v : ℕ}

theorem Wellformed.eTag_lt (h : Wellformed e) : e.eTag < 256 ^ 2 := by
  rcases h.2 with ⟨hs | hs | hs | hs, -⟩ | ⟨hl | hl, -⟩ <;> omega

theorem num_bytesLE {w x : ℕ} {rest : List UInt8} (hdrop : bs.drop v = bytesLE w x ++ rest)
    (hv : v ≤ bs.length) (hx : x < 256 ^ w) : (Mem.ofList bs).num v w = x := by
  have hlen := congrArg List.length hdrop
  rw [List.length_drop, List.length_append, length_bytesLE] at hlen
  rw [num_ofList (by omega), hdrop, List.take_left' (length_bytesLE w x), ofBytesLE_bytesLE,
    Nat.mod_eq_of_lt hx]

theorem drop_bytesLE {w x : ℕ} {rest : List UInt8} (hdrop : bs.drop v = bytesLE w x ++ rest) :
    bs.drop (v + w) = rest := by
  rw [← List.drop_drop, hdrop, List.drop_left' (length_bytesLE w x)]

/-- **From the entries to their encoding and back.** -/
theorem aclEntries_encode (hes : ∀ e ∈ es, Wellformed e)
    (hdrop : bs.drop v = es.flatMap encodeEntry) (hv : v ≤ bs.length) :
    aclEntries (.ofList bs) bs.length es.length v = some (es, bs.length) := by
  induction es generalizing v with
  | nil =>
    have hend : v = bs.length :=
      Nat.le_antisymm hv (List.drop_eq_nil_iff.mp hdrop)
    rw [List.length_nil, aclEntries, hend]
  | cons e es ih =>
    obtain ⟨he, hes⟩ := List.forall_mem_cons.mp hes
    have hlen := congrArg List.length hdrop
    rw [List.flatMap_cons, encodeEntry, List.append_assoc, List.append_assoc] at hdrop
    have htag := num_bytesLE hdrop hv he.eTag_lt
    have hafter := drop_bytesLE hdrop
    have hperm := num_bytesLE hafter (by
      simp only [List.flatMap_cons, encodeEntry, List.length_append, List.length_drop,
        length_bytesLE] at hlen
      omega) he.1
    have hrest := drop_bytesLE hafter
    rw [List.length_drop, List.flatMap_cons, encodeEntry, List.length_append, List.length_append,
      List.length_append, length_bytesLE, length_bytesLE] at hlen
    rw [List.length_cons, aclEntries_succ, htag, hperm, if_neg (by omega)]
    obtain ⟨hshort, hid⟩ | ⟨hlong, hid⟩ := he.2
    · have hnot : ¬Long e.eTag := fun hlong => not_short_of_long hlong hshort
      rw [if_neg hnot, List.nil_append] at hrest
      rw [if_pos hshort, ih hes hrest (by omega), Option.map_some, ← hid]
    · rw [if_pos hlong] at hrest hlen
      rw [length_bytesLE] at hlen
      have hnum := num_bytesLE hrest (by omega) hid
      rw [if_neg (not_short_of_long hlong), if_pos hlong, if_neg (by omega), hnum,
        ih hes (drop_bytesLE hrest) (by omega), Option.map_some]

theorem bytesLE_num (bs : List UInt8) {v w : ℕ} (h : v + w ≤ bs.length) :
    bs.drop v = bytesLE w ((Mem.ofList bs).num v w) ++ bs.drop (v + w) := by
  have hlen : ((bs.drop v).take w).length = w := by
    rw [List.length_take, List.length_drop]
    omega
  have hbytes := bytesLE_ofBytesLE ((bs.drop v).take w)
  rw [hlen] at hbytes
  rw [num_ofList h, hbytes, ← List.drop_drop, List.take_append_drop]

/-- What the loop accepts is the encoding of what it returns. -/
theorem encode_of_aclEntries {v' : ℕ} (hv : v ≤ bs.length)
    (h : aclEntries (.ofList bs) bs.length n v = some (es, v')) :
    es.length = n ∧ (∀ e ∈ es, Wellformed e) ∧ v' ≤ bs.length ∧
      bs.drop v = es.flatMap encodeEntry ++ bs.drop v' := by
  induction n generalizing v es with
  | zero =>
    rw [aclEntries] at h
    obtain ⟨rfl, rfl⟩ := Prod.mk.inj (Option.some.inj h)
    exact ⟨rfl, fun e he => absurd he List.not_mem_nil, hv, rfl⟩
  | succ n ih =>
    rw [aclEntries_succ] at h
    split at h
    · cases h
    rename_i hlt
    have htag := bytesLE_num bs (v := v) (w := 2) (by omega)
    have hperm := bytesLE_num bs (v := v + 2) (w := 2) (by omega)
    have hpermlt : (Mem.ofList bs).num (v + 2) 2 < 2 ^ 16 := Xattr.num_lt _ _ 2
    split at h
    case isTrue hshort =>
      obtain ⟨⟨es', v''⟩, hes, heq⟩ := Option.map_eq_some_iff.mp h
      obtain ⟨rfl, rfl⟩ := Prod.mk.inj heq
      obtain ⟨hlength, hwell, hle, hdrop⟩ := ih (by omega) hes
      refine ⟨by rw [List.length_cons, hlength], ?_, hle, ?_⟩
      · exact List.forall_mem_cons.mpr ⟨⟨hpermlt, .inl ⟨hshort, rfl⟩⟩, hwell⟩
      · have hnot : ¬Long ((Mem.ofList bs).num v 2) := fun hlong =>
          not_short_of_long hlong hshort
        rw [List.flatMap_cons, encodeEntry, if_neg hnot, List.append_nil, htag, hperm, hdrop]
        simp only [List.append_assoc]
    case isFalse hshort =>
      split at h
      case isFalse => cases h
      case isTrue hlong =>
        split at h
        · cases h
        obtain ⟨⟨es', v''⟩, hes, heq⟩ := Option.map_eq_some_iff.mp h
        obtain ⟨rfl, rfl⟩ := Prod.mk.inj heq
        obtain ⟨hlength, hwell, hle, hdrop⟩ := ih (by omega) hes
        have hid := bytesLE_num bs (v := v + 4) (w := 4) (by omega)
        have hidlt : (Mem.ofList bs).num (v + 4) 4 < 2 ^ 32 := Xattr.num_lt _ _ 4
        refine ⟨by rw [List.length_cons, hlength], ?_, hle, ?_⟩
        · exact List.forall_mem_cons.mpr ⟨⟨hpermlt, .inr ⟨hlong, hidlt⟩⟩, hwell⟩
        · rw [List.flatMap_cons, encodeEntry, if_pos hlong, htag, hperm, hid, hdrop]
          simp only [List.append_assoc]

/-- Every entry of the format is short or long, but not both. -/
theorem length_encode (hes : ∀ e ∈ es, Wellformed e) :
    es.length = shorts es + longs es ∧
      (es.flatMap encodeEntry).length = 4 * shorts es + 8 * longs es := by
  induction es with
  | nil => exact ⟨rfl, rfl⟩
  | cons e es ih =>
    obtain ⟨he, hes⟩ := List.forall_mem_cons.mp hes
    obtain ⟨hlength, hbytes⟩ := ih hes
    rw [shorts, longs] at hlength hbytes ⊢
    rw [List.flatMap_cons, List.length_append, hbytes, List.length_cons, hlength, encodeEntry]
    obtain ⟨hshort, -⟩ | ⟨hlong, -⟩ := he.2
    · have hnot : ¬Long e.eTag := fun hlong => not_short_of_long hlong hshort
      rw [List.countP_cons_of_pos (by simpa using hshort),
        List.countP_cons_of_neg (by simpa using hnot), if_neg hnot]
      simp only [List.length_append, length_bytesLE, List.length_nil]
      omega
    · rw [List.countP_cons_of_neg (by simpa using not_short_of_long hlong),
        List.countP_cons_of_pos (by simpa using hlong), if_pos hlong]
      simp only [List.length_append, length_bytesLE]
      omega

/-- **The guess** is right for a list with at most three short entries and no long one, and for a
list with four short entries. -/
theorem ext3AclCount_eq (s l : ℕ) :
    ext3AclCount (4 + (4 * s + 8 * l)) = some (s + l) ↔ l = 0 ∧ s ≤ 3 ∨ s = 4 := by
  rw [ext3AclCount]
  split
  · split
    · simp only [reduceCtorEq, false_iff]
      omega
    · rw [Option.some.injEq]
      omega
  · split
    · simp only [reduceCtorEq, false_iff]
      omega
    · rw [Option.some.injEq]
      omega

/-- The strings that a little-endian machine accepts. -/
theorem ext3AclFromDisk_iff (value : List UInt8) (acl : List PosixAclEntry) :
    Xattr.ext3AclFromDisk value = some acl ↔ Shaped acl ∧ value = encode acl := by
  constructor
  · intro h
    rw [Xattr.ext3AclFromDisk] at h
    dsimp only at h
    split at h
    · cases h
    rename_i hlen
    split at h
    · cases h
    rename_i hversion
    split at h
    · cases h
    · cases h
    rename_i count hcount hne
    obtain ⟨⟨es, v'⟩, hes, hend⟩ := Option.bind_eq_some_iff.mp h
    dsimp only at hend
    split at hend
    · cases hend
    rename_i hv
    obtain rfl := Option.some.inj hend
    obtain ⟨hlength, hwell, -, hdrop⟩ := encode_of_aclEntries (by omega) hes
    have hvend : v' = value.length := Classical.not_not.mp hv
    rw [hvend, List.drop_length, List.append_nil] at hdrop
    obtain ⟨hsum, hbytes⟩ := length_encode hwell
    have hsize : value.length = 4 + (4 * shorts es + 8 * longs es) := by
      rw [← hbytes, ← hdrop, List.length_drop]
      omega
    rw [hsize, ← hlength, hsum, ext3AclCount_eq] at hne
    refine ⟨⟨hwell, ?_⟩, ?_⟩
    · have hpos : count ≠ 0 := fun h0 => hcount (h0 ▸ rfl)
      omega
    · have hhead := bytesLE_num value (v := 0) (w := 4) (by omega)
      rw [List.drop_zero, Classical.not_not.mp hversion, Nat.zero_add, hdrop] at hhead
      exact hhead
  · rintro ⟨⟨hwell, hcounts⟩, rfl⟩
    obtain ⟨hsum, hbytes⟩ := length_encode hwell
    have hsize : (encode acl).length = 4 + (4 * shorts acl + 8 * longs acl) := by
      rw [encode, List.length_append, length_bytesLE, hbytes]
    have hversion : (Mem.ofList (encode acl)).num 0 4 = 1 :=
      num_bytesLE rfl (Nat.zero_le _) (by decide)
    have hdrop : (encode acl).drop 4 = acl.flatMap encodeEntry := rfl
    have hcount : ext3AclCount (encode acl).length = some (shorts acl + longs acl) := by
      rw [hsize, ext3AclCount_eq]
      omega
    have hentries := aclEntries_encode hwell hdrop (by omega)
    obtain ⟨k, hk⟩ : ∃ k, shorts acl + longs acl = k + 1 := ⟨shorts acl + longs acl - 1, by omega⟩
    rw [hsum, hk] at hentries
    rw [Xattr.ext3AclFromDisk]
    dsimp only
    rw [if_neg (by omega), if_neg (by omega), hcount, hk]
    change (aclEntries (.ofList (encode acl)) (encode acl).length (k + 1) 4 >>= fun p =>
      if p.2 ≠ (encode acl).length then none else some p.1) = some acl
    rw [hentries]
    exact if_neg (Classical.not_not.mpr rfl)

end Law

/-! ## The function on either machine -/

section Machines

variable {o : Order} {value : List UInt8} {acl : List PosixAclEntry}

/-- The version. -/
theorem header_version (o : Order) (a b c d : UInt8) (rest : List UInt8) :
    ∃ a' b' c' d', toHost o "1i" 4 (a :: b :: c :: d :: rest) = .ok (a' :: b' :: c' :: d' :: rest) ∧
      member o (a' :: b' :: c' :: d' :: rest) 0 4 = .ok (ofBytesLE [a, b, c, d]) := by
  cases o with
  | little => exact ⟨a, b, c, d, rfl, by simp [member, hostNum]⟩
  | big =>
    refine ⟨d, c, b, a, ?_, by simp [member, hostNum]⟩
    rw [toHost, if_pos (by simp)]
    rfl

/-- The function with the loop taken apart. -/
theorem ext3AclFromDisk_eq (o : Order) (value : List UInt8) : ext3AclFromDisk o value =
    if value.length < 4 then .ok none
    else if ofBytesLE (value.take 4) ≠ 1 then .ok none
    else match ext3AclCount value.length with
      | none | some 0 => .ok none
      | some count => aclLoop o count (value.drop 4) >>= fun r =>
        .ok (r.bind fun (acl, value) => if value ≠ [] then none else some acl) := by
  match value with
  | a :: b :: c :: d :: rest =>
    obtain ⟨a', b', c', d', hhost, hversion⟩ := header_version o a b c d rest
    rw [ext3AclFromDisk, if_neg (by simp), if_neg (by simp), hhost, ok_bind, hversion, ok_bind]
    rfl
  | [] | [_] | [_, _] | [_, _, _] => rfl

/-- Where no entry is cut off, the machine does not matter. -/
theorem ext3AclFromDisk_inside (hside : o = .little ∨ Inside value) :
    ext3AclFromDisk o value = .ok (Xattr.ext3AclFromDisk value) := by
  rw [ext3AclFromDisk_eq, Xattr.ext3AclFromDisk]
  dsimp only
  by_cases hlen : value.length < 4
  · rw [if_pos hlen, if_pos hlen]
  have hnum : (Mem.ofList value).num 0 4 = ofBytesLE (value.take 4) := by
    rw [num_ofList (by omega), List.drop_zero]
  rw [if_neg hlen, if_neg hlen, hnum]
  by_cases hversion : ofBytesLE (value.take 4) ≠ 1
  · rw [if_pos hversion, if_pos hversion]
  rw [if_neg hversion, if_neg hversion]
  match hcount : ext3AclCount value.length with
  | none => rfl
  | some 0 => rfl
  | some (k + 1) =>
    have hentries : o = .little ∨ EntriesInside (k + 1) (value.drop 4) :=
      hside.imp_right fun h => h (by omega) (Classical.not_not.mp hversion) _ hcount
    change (aclLoop o (k + 1) (value.drop 4) >>= fun r => .ok (r.bind fun p =>
      if p.2 ≠ [] then none else some p.1)) =
      .ok (aclEntries (.ofList value) value.length (k + 1) 4 >>= fun p =>
        if p.2 ≠ value.length then none else some p.1)
    rw [aclLoop_eq (v := 4) hentries rfl (by rw [List.length_drop]; omega), ok_bind]
    cases hes : aclEntries (.ofList value) value.length (k + 1) 4 with
    | none => rfl
    | some p =>
      obtain ⟨-, -, hle, -⟩ := encode_of_aclEntries (by omega) hes
      have hend : value.drop p.2 ≠ [] ↔ p.2 ≠ value.length := by
        rw [Ne, List.drop_eq_nil_iff]
        omega
      simp only [Option.map_some, Option.bind_some, hend]
      rfl

/-- A little-endian machine. -/
theorem ext3AclFromDisk_little (value : List UInt8) :
    ext3AclFromDisk .little value = .ok (Xattr.ext3AclFromDisk value) :=
  ext3AclFromDisk_inside (.inl rfl)

/-- A big-endian machine looks behind the end of a string that cuts an entry off. -/
theorem ext3AclFromDisk_outside (hout : ¬Inside value) :
    ext3AclFromDisk .big value = .error .outside := by
  simp only [Inside, Classical.not_imp, not_forall] at hout
  obtain ⟨hlen, hversion, count, hcount, hoff⟩ := hout
  rw [ext3AclFromDisk_eq, if_neg (by omega), if_neg (Classical.not_not.mpr hversion), hcount]
  match count with
  | 0 => exact absurd trivial hoff
  | k + 1 =>
    change (aclLoop .big (k + 1) (value.drop 4) >>= fun r => .ok (r.bind fun p =>
      if p.2 ≠ [] then none else some p.1)) = .error .outside
    rw [aclLoop_outside hoff, error_bind]

end Machines

/-! ## The other format -/

section ToXattr

variable {o : Order} {acl : List PosixAclEntry}

/-- The bytes that are written do not depend on the machine. -/
theorem stored_eq (o : Order) {fmt : String} {fs : List Scalar}
    (hfmt : ∀ bs, bs.length = size (fs.map Scalar.width) →
      swabst fmt.toList 0 bs = swab (fs.map Scalar.width) bs) :
    stored o fmt fs = image .little fs := by
  cases o with
  | little => rfl
  | big =>
    rw [stored, hfmt _ (length_image .big fs)]
    have hswab := swab_image fs []
    rwa [List.append_nil, List.append_nil] at hswab

/-- **What is written** is the version and the entries in little-endian order. -/
theorem posixAclToXattr_eq (o : Order) (acl : List PosixAclEntry) {size : ℕ}
    (hsize : 4 + acl.length * 8 ≤ size) : posixAclToXattr o acl size =
      some (bytesLE 4 2 ++ acl.flatMap fun e =>
        bytesLE 2 e.eTag ++ (bytesLE 2 e.ePerm ++ bytesLE 4 e.eId)) := by
  have hversion : stored o "1i" [⟨4, 2⟩] = bytesLE 4 2 := by
    rw [stored_eq o fun bs hbs => ?_]
    · rfl
    · obtain ⟨a, b, c, d, rfl⟩ := List.length_eq_four.mp hbs
      rfl
  have hentry : ∀ e : PosixAclEntry, stored o "2s1i" [⟨2, e.eTag⟩, ⟨2, e.ePerm⟩, ⟨4, e.eId⟩] =
      bytesLE 2 e.eTag ++ (bytesLE 2 e.ePerm ++ bytesLE 4 e.eId) := by
    intro e
    rw [stored_eq o fun bs hbs => ?_]
    · simp [image, Scalar.bytes]
    · obtain ⟨a, b, c, d, hfirst⟩ : ∃ a b c d, bs.take 4 = [a, b, c, d] :=
        List.length_eq_four.mp (by rw [List.length_take, hbs]; rfl)
      obtain ⟨a', b', c', d', hlast⟩ : ∃ a b c d, bs.drop 4 = [a, b, c, d] :=
        List.length_eq_four.mp (by rw [List.length_drop, hbs]; rfl)
      rw [← List.take_append_drop 4 bs, hfirst, hlast]
      rfl
  rw [posixAclToXattr, if_neg (by omega), hversion]
  simp only [hentry]

/-- The entries are read back from what is written. -/
theorem xattrEntries_eq (hacl : ∀ e ∈ acl, Wellformed e) :
    xattrEntries acl.length (acl.flatMap fun e =>
      bytesLE 2 e.eTag ++ (bytesLE 2 e.ePerm ++ bytesLE 4 e.eId)) = acl := by
  induction acl with
  | nil => rfl
  | cons e acl ih =>
    obtain ⟨he, hacl⟩ := List.forall_mem_cons.mp hacl
    have hid : e.eId < 256 ^ 4 := by
      obtain ⟨-, h⟩ | ⟨-, h⟩ := he.2
      · rw [h]
        decide
      · exact h
    have hperm : e.ePerm < 256 ^ 2 := he.1
    set rest := acl.flatMap fun e =>
      bytesLE 2 e.eTag ++ (bytesLE 2 e.ePerm ++ bytesLE 4 e.eId) with hrest
    rw [List.length_cons, List.flatMap_cons, List.append_assoc, List.append_assoc]
    set bs := bytesLE 2 e.eTag ++ (bytesLE 2 e.ePerm ++ (bytesLE 4 e.eId ++ rest)) with hbs
    have htwo : bs.drop 2 = bytesLE 2 e.ePerm ++ (bytesLE 4 e.eId ++ rest) :=
      List.drop_left' (length_bytesLE 2 e.eTag)
    have hfour : bs.drop 4 = bytesLE 4 e.eId ++ rest := by
      rw [← List.drop_drop (i := 2) (j := 2), htwo, List.drop_left' (length_bytesLE 2 e.ePerm)]
    have height : bs.drop 8 = rest := by
      rw [← List.drop_drop (i := 4) (j := 4), hfour, List.drop_left' (length_bytesLE 4 e.eId)]
    rw [xattrEntries, htwo, hfour, height, ih hacl, hbs, List.take_left' (length_bytesLE 2 e.eTag),
      List.take_left' (length_bytesLE 2 e.ePerm), List.take_left' (length_bytesLE 4 e.eId),
      ofBytesLE_bytesLE, ofBytesLE_bytesLE, ofBytesLE_bytesLE, Nat.mod_eq_of_lt he.eTag_lt,
      Nat.mod_eq_of_lt hperm, Nat.mod_eq_of_lt hid]

end ToXattr

/-! ## The conversion -/

section Conversion

variable {o : Order} {acl : List PosixAclEntry}

/-- An access control list has a shape that the format can hold. -/
theorem Valid.shaped (h : Valid acl) : Shaped acl := by
  cases h with
  | @mk owner group other users groups mask hmask howner husers hgroup hgroups htag hother hall =>
    refine ⟨hall, ?_⟩
    have hnamed : ∀ {t : ℕ} {es : List PosixAclEntry}, (∀ e ∈ es, e.eTag = t) → Long t →
        shorts es = 0 ∧ longs es = es.length := by
      intro t es hes hlong
      constructor
      · rw [shorts, List.countP_eq_zero]
        intro e he
        simpa [hes e he] using not_short_of_long hlong
      · rw [longs, List.countP_eq_length]
        intro e he
        simpa [hes e he] using hlong
    obtain ⟨husers, hulongs⟩ := hnamed husers (.inl rfl)
    obtain ⟨hgroups, hglongs⟩ := hnamed hgroups (.inr rfl)
    have hshorts : shorts (owner :: users ++ group :: groups ++ mask.toList ++ [other]) =
        3 + shorts mask.toList := by
      have howner : Short owner.eTag := .inl howner
      have hgroup : Short group.eTag := .inr (.inl hgroup)
      have hother : Short other.eTag := .inr (.inr (.inr hother))
      simp only [shorts] at husers hgroups ⊢
      simp only [List.countP_append, List.countP_cons, List.countP_nil, husers, hgroups, howner,
        hgroup, hother, decide_true, if_true]
      omega
    have hlongs : longs (owner :: users ++ group :: groups ++ mask.toList ++ [other]) =
        users.length + groups.length + longs mask.toList := by
      have howner : ¬Long owner.eTag := by rw [howner]; decide
      have hgroup : ¬Long group.eTag := by rw [hgroup]; decide
      have hother : ¬Long other.eTag := by rw [hother]; decide
      simp only [longs] at hulongs hglongs ⊢
      simp [List.countP_append, hulongs, hglongs, howner, hgroup, hother, Nat.add_assoc]
    rw [hshorts, hlongs]
    cases mask with
    | none =>
      -- Without a mask there are no names.
      have hnone : users = [] ∧ groups = [] := by
        by_contra hne
        exact absurd (hmask (Classical.not_and_iff_not_or_not.mp hne)) (by simp)
      exact .inl ⟨by rw [hnone.1, hnone.2]; rfl, by decide, by decide⟩
    | some m =>
      have hm : Short m.eTag := .inr (.inr (.inl (htag m rfl)))
      right
      simp [shorts, hm]

/-- **The conversion is exact** on a little-endian machine, and on a big-endian machine for the
strings that do not cut off an entry. -/
theorem aclConversion_iff (o : Order) (value : List UInt8) :
    Exact o value ↔ o = .little ∨ Inside value := by
  constructor
  · intro h
    cases o with
    | little => exact .inl rfl
    | big =>
      refine .inr (Classical.byContradiction fun hout => ?_)
      obtain ⟨r, hr⟩ := h.inside
      rw [ext3AclFromDisk_outside hout] at hr
      cases hr
  · intro hside
    have hrun := ext3AclFromDisk_inside hside
    have haccepts : ∀ acl, ext3AclFromDisk o value = .ok (some acl) ↔
        Shaped acl ∧ value = encode acl := by
      intro acl
      rw [hrun, Except.ok.injEq, ext3AclFromDisk_iff]
    refine ⟨⟨_, hrun⟩, haccepts, fun acl hvalid hencode => ?_, fun acl size hacl hsize => ?_⟩
    · exact (haccepts acl).mpr ⟨hvalid.shaped, hencode⟩
    · have hshaped := ((haccepts acl).mp hacl).1
      refine ⟨_, posixAclToXattr_eq o acl hsize, ?_, rfl, ?_⟩
      · simp
      · exact xattrEntries_eq hshaped.wellformed

/-- Two entries of named users in the place of four entries of the first kind. -/
def twoNamed : List UInt8 := [1, 0, 0, 0, 2, 0, 7, 0, 232, 3, 0, 0, 2, 0, 7, 0, 233, 3, 0, 0]

theorem not_inside_twoNamed : ¬Inside twoNamed := by
  intro h
  have hentries := h (by decide) (by decide) 4 (by decide)
  have hfirst := (hentries.2.2 (by decide)).2
  have hsecond := (hfirst.2.2 (by decide)).2
  exact absurd hsecond.1 (by decide)

theorem not_exact_twoNamed : ¬∀ o value, Exact o value := by
  intro h
  obtain ⟨r, hr⟩ := (h .big twoNamed).inside
  rw [ext3AclFromDisk_outside not_inside_twoNamed] at hr
  cases hr

end Conversion

end DumpRestore.Acl
