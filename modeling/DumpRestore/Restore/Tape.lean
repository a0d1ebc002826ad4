import DumpRestore.Protocol.Checksum

/-!
# Reading records

`restore/tape.c` takes records from the mounted volume with `readtape` and mounts the next volume
with `getvol` at its end. `gethead` reads a record that has to be a header.

`Tape` is the state they share: the records left on the mounted volume, the volumes that will be
mounted after it, and the globals that the functions read and write. The tape is of restore's own
byte order and has inodes in the new format; the byte order is the subject of `Restore.Convert`.
While a file is in use (`curfile.action == USING`) `getvol` returns to the reader in the middle of
it, and this is the case embedded here.
-/

namespace DumpRestore

/-- The state of the input. `vols` has the volumes that follow, in the order of mounting. -/
structure Tape where
  recs : List Rec
  vols : List (List Rec)
  volno : ℤ
  tpblksread : ℤ
  readmapflag : Bool
  dumpdate : ℤ
  dumptime : ℤ
  deriving Inhabited

/-! ## Headers -/

/-- The record types whose headers announce a map. -/
def SpclType.isMap : SpclType → Bool
  | .clri | .bits => true
  | _ => false

/-- What `converthead` makes of a header that it accepts: missing information in the headers of
maps is patched up, and headers of volumes have no inode number. -/
def Spcl.patch (h : Spcl) : Spcl :=
  match h.cType with
  | .clri | .bits =>
    { h with
      cInumber := 0
      cDinode := { h.cDinode with diSize := (h.cCount * tpBsize % 2 ^ 64).toNat }
      cAddr := fun i =>
        if h.cCount ≤ tpNindir ∧ (i : ℤ) < h.cCount then (h.cAddr i + 1) % 256 else h.cAddr i }
  | .tape | .end_ => { h with cInumber := 0 }
  | .inode | .addr => h

theorem cType_patch (h : Spcl) : h.patch.cType = h.cType := by
  rw [Spcl.patch]
  split <;> simp_all

theorem cMagic_of_accepted {h : Spcl} (hacc : h.accepted = true) : h.cMagic = nfsMagic := by
  rw [Spcl.accepted, Bool.and_eq_true, decide_eq_true_iff] at hacc
  exact hacc.1

theorem Spcl.patch_cMagic (h : Spcl) : h.patch.cMagic = h.cMagic := by
  rw [Spcl.patch]
  split <;> rfl

theorem cMagic_patch {h : Spcl} (hacc : h.accepted = true) : h.patch.cMagic = nfsMagic :=
  h.patch_cMagic.trans (cMagic_of_accepted hacc)

/-- The value that `converthead` leaves in `readmapflag`. -/
def Spcl.isLongMap (h : Spcl) : Bool := h.cType.isMap && decide ((tpNindir : ℤ) < h.cCount)

/-- `converthead`. A block of data is not a header. -/
def converthead (r : Rec) (t : Tape) : Option Spcl × Tape :=
  match r with
  | .spcl h =>
    if h.accepted then (some h.patch, { t with readmapflag := h.isLongMap }) else (none, t)
  | .data _ => (none, t)

/-! ## Records and volumes -/

section Reading

variable (readtape : Tape → Option (Rec × Tape))

/-- `gethead`, over a given `readtape`. -/
def getheadWith (t : Tape) : Option (Option Spcl × Tape) := do
  let (r, t) ← readtape t
  return converthead r t

/-- The loop `while (--i >= 0) readtape(buf)`. -/
def skiprecs : (i : ℕ) → Tape → Option Tape
  | 0, t => some t
  | i + 1, t => do
    let (_, t) ← readtape t
    skiprecs i t

/-- `getvol`, over a given `readtape`, after the tape of volume `newvol` is mounted: verify the
volume header, and skip the records that were read already at the end of the previous volume. The
run stops where the operator is asked for another tape. -/
def getvol (newvol : ℤ) (t : Tape) : Option Tape := do
  let t := { t with volno := newvol }
  let (h, t) ← getheadWith readtape t
  let h ← h
  if h.cVolume ≠ t.volno ∨ h.cDate ≠ t.dumpdate ∨ h.cDdate ≠ t.dumptime then none
  else if h.cType = .tape ∧ h.cFlags &&& drNewheader ≠ 0 ∧
      0 < h.cFirstrec ∧ h.cFirstrec < t.tpblksread - 1 then
    skiprecs readtape (t.tpblksread - h.cFirstrec - 1).toNat t
  else some t

end Reading

/-- The next record of the mounted volume. -/
def Tape.next (t : Tape) : Option (Rec × Tape) :=
  match t.recs with
  | r :: rs => some (r, { t with recs := rs, tpblksread := t.tpblksread + 1 })
  | [] => none

/-- `readtape`, where at most `n` more volumes can be mounted. -/
def readtapeN : (n : ℕ) → Tape → Option (Rec × Tape)
  | 0, t => t.next
  | n + 1, t =>
    match t.recs, t.vols with
    | [], v :: vs => do
      let t ← getvol (readtapeN n) (t.volno + 1) { t with recs := v, vols := vs }
      readtapeN n t
    | _, _ => t.next

/-- `readtape`. -/
def readtape (t : Tape) : Option (Rec × Tape) := readtapeN t.vols.length t

/-- `gethead`. -/
def gethead (t : Tape) : Option (Option Spcl × Tape) := getheadWith readtape t

theorem readtape_of_recs {t : Tape} {r : Rec} {rs : List Rec} (h : t.recs = r :: rs) :
    readtape t = some (r, { t with recs := rs, tpblksread := t.tpblksread + 1 }) := by
  rw [readtape]
  cases t.vols.length with
  | zero => simp only [readtapeN, Tape.next, h]
  | succ n => simp only [readtapeN, Tape.next, h]

end DumpRestore
