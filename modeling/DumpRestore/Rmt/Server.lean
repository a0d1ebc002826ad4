import DumpRestore.Protocol.Spcl
import DumpRestore.Rmt.OpenFlags

/-!
# The remote tape server

`rmt` reads commands from its standard input and answers each on its standard output. A command is
a letter and its arguments: lines, which `getstring` reads into 64 bytes, and for `W` data.

The system calls of the machine with the tape are the functions of `Host`.

* `Server.openTape` and the functions after it: what each command does.
* `Server.command`: one turn of the loop in `main`.
-/

namespace DumpRestore

namespace Rmt

open Decimal

/-! ## The machine with the tape -/

/-- `struct mtget`. -/
structure Mtget where
  mtType : ℤ
  mtResid : ℤ
  mtDsreg : ℤ
  mtGstat : ℤ
  mtErreg : ℤ
  mtFileno : ℤ
  mtBlkno : ℤ

/-- The memory image of a `struct mtget`. -/
def Mtget.image (m : Mtget) : List UInt8 := ByteOrder.image .little
  [sint 8 m.mtType, sint 8 m.mtResid, sint 8 m.mtDsreg, sint 8 m.mtGstat, sint 8 m.mtErreg,
    sint 4 m.mtFileno, sint 4 m.mtBlkno]

/-- `sizeof (struct mtget)`. -/
def sizeofMtget : ℕ := 48

theorem Mtget.length_image (m : Mtget) : m.image.length = sizeofMtget := by
  rw [Mtget.image, ByteOrder.length_image]
  rfl

/-- A value of `errno`, an `int`. -/
abbrev Errno := Fin (2 ^ 31)

instance neZeroErrno : NeZero (2 ^ 31) := ⟨by decide⟩

/-- A value of `lseek` or a position of a tape, an `off_t`. -/
abbrev Position := Fin (2 ^ 63)

/-- The most that one `read` or `write` of Linux transfers. -/
def maxRwCount : ℕ := 0x7ffff000

/-- The system calls on the tape, which return a value or an error, and the functions of the C
library. `none` is the file descriptor `-1`. -/
structure Host (σ : Type) where
  openTape : (device : List UInt8) → (oflags : ℕ) → σ → Except Errno ℕ × σ
  close : (tape : Option ℕ) → σ → Except Errno Unit × σ
  lseek : (tape : Option ℕ) → (offset whence : ℤ) → σ → Except Errno Position × σ
  /-- `read` returns at most as many bytes as it was asked for. -/
  read : (tape : Option ℕ) → (n : ℤ) → σ →
    Except Errno {data : List UInt8 // (data.length : ℤ) ≤ n ∧ data.length ≤ maxRwCount} × σ
  /-- `write` writes at most the bytes it was given. -/
  write : (tape : Option ℕ) → (data : List UInt8) → σ → Except Errno {n : ℕ // n ≤ data.length} × σ
  mtioctop : (tape : Option ℕ) → (op count : ℤ) → σ → Except Errno Unit × σ
  mtiocget : (tape : Option ℕ) → σ → Except Errno Mtget × σ
  mtiocpos : (tape : Option ℕ) → σ → Except Errno Position × σ
  swaplong : ℤ → ℤ
  /-- `strerror` returns a short line. -/
  strerror : Errno → {text : List UInt8 // 10 ∉ text ∧ text.length ≤ 1024}

/-- The variables of `main`. -/
structure Server (σ : Type) where
  tape : Option ℕ
  magtape : Bool
  rmtVersion : Bool
  host : σ

/-- What `main` does at the end of a command: `respond`, data after the status line, and
`ioerror`. -/
inductive Reply where
  | respond (rval : ℤ)
  | data (bytes : List UInt8)
  | ioerror (errno : Errno)

/-! ## The commands -/

namespace Server

variable {σ : Type} (host : Host σ) (s : Server σ)

/-- `O`. -/
def openTape (device : List UInt8) (oflags : ℕ) : Reply × Server σ :=
  let h := if s.tape.isSome then (host.close s.tape s.host).2 else s.host
  match host.openTape device oflags h with
  | (.error e, h) => (.ioerror e, { s with tape := none, host := h })
  | (.ok fd, h) =>
    let (mt, h) := host.mtiocget (some fd) h
    (.respond 0, { s with tape := some fd, magtape := mt.isOk, host := h })

/-- `C`. -/
def closeTape : Reply × Server σ :=
  match host.close s.tape s.host with
  | (.error e, h) => (.ioerror e, { s with host := h })
  | (.ok _, h) => (.respond 0, { s with tape := none, host := h })

/-- `lseek` for `L`. -/
def lseek (offset whence : ℤ) : Reply × Server σ :=
  match host.lseek s.tape offset whence s.host with
  | (.error e, h) => (.ioerror e, { s with host := h })
  | (.ok n, h) => (.respond n.val, { s with host := h })

/-- An operation of a tape drive, with the value `rval` if it succeeds. -/
def mtop (op count rval : ℤ) : Reply × Server σ :=
  match host.mtioctop s.tape op count s.host with
  | (.error e, h) => (.ioerror e, { s with host := h })
  | (.ok _, h) => (if rval < 0 then .ioerror 0 else .respond rval, { s with host := h })

/-- `EINVAL`. -/
def einval : Errno := 22

/-- `L`. The positions 10 and 11 are those of the QFA code, on a tape drive and elsewhere. -/
def seek (count pos : ℤ) : Reply × Server σ :=
  if pos = 0 ∨ pos = 1 ∨ pos = 2 then s.lseek host count pos
  else if pos = 10 ∨ pos = 11 then
    if s.magtape then
      -- `MTSETDRVBUFFER` with `MT_ST_BOOLEANS | MT_ST_SCSI2LOGICAL`
      match s.mtop host 24 0x10000800 0 with
      | (.respond _, s) =>
        if pos = 10 then
          match host.mtiocpos s.tape s.host with
          | (.error e, h) => (.ioerror e, { s with host := h })
          | (.ok n, h) => (.respond n.val, { s with host := h })
        else s.mtop host 22 (count.bmod (2 ^ 32)) (count.bmod (2 ^ 32))
      | (reply, s) => (reply, s)
    else if pos = 10 then s.lseek host 0 1 else s.lseek host count 0
  else (.ioerror einval, s)

/-- `W`. -/
def write (record : List UInt8) : Reply × Server σ :=
  match host.write s.tape record s.host with
  | (.error e, h) => (.ioerror e, { s with host := h })
  | (.ok n, h) => (.respond n.val, { s with host := h })

/-- `R`. -/
def read (n : ℤ) : Reply × Server σ :=
  match host.read s.tape n s.host with
  | (.error e, h) => (.ioerror e, { s with host := h })
  | (.ok bytes, h) => (.data bytes.val, { s with host := h })

/-- The operations of a Linux tape drive for those of other clients. -/
def unixOps : List ℤ := [5, 1, 2, 3, 4, 6, 7, 8, 9, 13, 12]

/-- An operation of a tape drive that answers with its count. `mt_op` is a `short`. -/
def mtcount (op count : ℤ) : Reply × Server σ :=
  match host.mtioctop s.tape (op.bmod (2 ^ 16)) count s.host with
  | (.error e, h) => (.ioerror e, { s with host := h })
  | (.ok _, h) => (.respond count, { s with host := h })

/-- `I`. -/
def ioctl (op count : ℤ) : Reply × Server σ :=
  if op = -1 then (.respond 1, { s with rmtVersion := true })
  else if s.rmtVersion then
    match if 0 ≤ op then unixOps[op.toNat]? else none with
    | none => (.ioerror einval, s)
    | some op => s.mtcount host op count
  else s.mtcount host op count

/-- `i`, of which Linux has the operations `RMTI_RETEN`, `RMTI_ERASE` and `RMTI_EOM`. -/
def extended (op count : ℤ) : Reply × Server σ :=
  let mtOp :=
    if op = 2 then some 9 else if op = 3 then some 13 else if op = 4 then some 12 else none
  match mtOp with
  | none => (.ioerror einval, s)
  | some op => s.mtcount host op count

/-- `S`. -/
def status : Reply × Server σ :=
  match host.mtiocget s.tape s.host with
  | (.error e, h) => (.ioerror e, { s with host := h })
  | (.ok m, h) =>
    let m := if s.rmtVersion then
        { mtType := host.swaplong m.mtType
          mtResid := host.swaplong m.mtResid
          mtDsreg := host.swaplong m.mtDsreg
          mtGstat := host.swaplong m.mtGstat
          mtErreg := host.swaplong m.mtErreg
          mtFileno := host.swaplong m.mtFileno
          mtBlkno := host.swaplong m.mtBlkno }
      else m
    (.data m.image, { s with host := h })

/-- The member of a `struct mtget` for a letter. -/
def mtsField (c : UInt8) (m : Mtget) : Option ℤ :=
  if c = 84 then some m.mtType
  else if c = 68 then some m.mtDsreg
  else if c = 69 then some m.mtErreg
  else if c = 82 then some m.mtResid
  else if c = 70 then some m.mtFileno
  else if c = 66 then some m.mtBlkno
  else if c = 102 then some m.mtGstat
  else if c = 98 then some 0
  else none

/-- `s`. -/
def statusField (c : UInt8) : Reply × Server σ :=
  match host.mtiocget s.tape s.host with
  | (.error e, h) => (.ioerror e, { s with host := h })
  | (.ok m, h) =>
    match mtsField c m with
    | some rval => (.respond rval, { s with host := h })
    | none => (.ioerror einval, { s with host := h })

end Server

/-! ## The loop -/

/-- `SSIZE`. -/
def ssize : ℕ := 64

/-- The loop of `getstring`: it stops after a newline, or after `n` characters. It waits for more
input where it returns `none`. -/
def getstringLoop : (n : ℕ) → List UInt8 → Option (List UInt8 × List UInt8)
  | 0, input => some ([], input)
  | _ + 1, [] => none
  | n + 1, c :: input =>
    if c = 10 then some ([], input) else (getstringLoop n input).map fun p => (c :: p.1, p.2)

/-- `getstring`: the string and the rest of the input. -/
def getstring (input : List UInt8) : Option (List UInt8 × List UInt8) :=
  getstringLoop (ssize - 1) input

/-- `sprintf(resp, "A%lld\n", rval)`. -/
def statusLine (rval : ℤ) : List UInt8 := str "A" ++ decimal rval ++ str "\n"

/-- `BUFSIZ`. -/
def bufsiz : ℕ := 8192

/-- `error`, which has a buffer for its lines. -/
def errorLines {σ : Type} (host : Host σ) (e : Errno) : List UInt8 :=
  (str "E" ++ decimal e.val ++ str "\n" ++ (host.strerror e).val ++ str "\n").take (bufsiz - 1)

/-- The bytes of a reply. Data that one `write` does not take is cut off, and an error follows it,
with the `errno` of the beginning of the command. -/
def Reply.bytes {σ : Type} (host : Host σ) : Reply → List UInt8
  | .respond rval => statusLine rval
  | .data bytes => statusLine bytes.length ++
    if bytes.length ≤ maxRwCount then bytes else bytes.take maxRwCount ++ errorLines host 0
  | .ioerror e => errorLines host e

/-- One turn of the loop: the server has written `out` and has `rest` to read, or has exited. -/
inductive Turn (σ : Type) where
  | exit
  | top (out rest : List UInt8) (s : Server σ)

namespace Server

variable {σ : Type} (host : Host σ)

/-- The reply to a command, and what is left of the input. -/
def answer (rest : List UInt8) (p : Reply × Server σ) : Turn σ := .top (p.1.bytes host) rest p.2

/-- One turn of the loop in `main`, `none` where it waits for input. -/
def command (s : Server σ) : List UInt8 → Option (Turn σ)
  | [] => none
  | 79 :: input => do
    let (device, input) ← getstring input
    let (filemode, input) ← getstring input
    return answer host input (s.openTape host device (rmtflagsToint filemode))
  | 67 :: input => do
    let (_, input) ← getstring input
    return answer host input (s.closeTape host)
  | 76 :: input => do
    let (count, input) ← getstring input
    let (pos, input) ← getstring input
    return answer host input (s.seek host (strtol count) (atoi pos))
  | 87 :: input => do
    let (count, input) ← getstring input
    let n := atoi count
    if n < 1 then return .exit
    else if input.length < n.toNat then none
    else return answer host (input.drop n.toNat) (s.write host (input.take n.toNat))
  | 82 :: input => do
    let (count, input) ← getstring input
    return answer host input (s.read host (atoi count))
  | 73 :: input => do
    let (op, input) ← getstring input
    let (count, input) ← getstring input
    return answer host input (s.ioctl host (atoi op) (atoi count))
  | 105 :: input => do
    let (op, input) ← getstring input
    let (count, input) ← getstring input
    return answer host input (s.extended host (atoi op) (atoi count))
  | 83 :: input => some (answer host input (s.status host))
  | 115 :: input =>
    match input with
    | [] => none
    | c :: input => some (answer host input (s.statusField host c))
  | 86 :: input => do
    let (_, input) ← getstring input
    return answer host input (.respond 2, s)
  | _ => some .exit

end Server

end Rmt

end DumpRestore
