import DumpRestore.Rmt.Server

/-!
# The remote tape client

`rmtopen` and the functions beside it send the server a request each and read its reply. Both ends
of the connection make up a `Session`. The server runs whenever the client waits for a reply: it
reads its input in order and so answers the same whenever it runs.

* `Session.serve` runs the server until it waits or has exited.
* `Session.rmtreply` reads a reply.
* `Call.remote`: a call of the client, `none` where the connection is given up.
* `Call.direct`: what the call is for, the server's system calls with the arguments of the client.
* `remotes`, `directs`: sequences of calls.
-/

namespace DumpRestore

namespace Rmt

open Decimal

/-! ## The connection -/

/-- The two ends, what is on its way between them, and whether `rmtstate` is `TS_OPEN`. -/
structure Session (σ : Type) where
  server : Option (Server σ)
  toServer : List UInt8
  toClient : List UInt8
  opened : Bool

/-- A connection with nothing on its way. -/
def boundary {σ : Type} (s : Server σ) (opened : Bool) : Session σ := ⟨some s, [], [], opened⟩

namespace Session

variable {σ : Type} (host : Host σ)

/-- The loop of the server on the input there is. -/
def serveLoop : (fuel : ℕ) → Session σ → Session σ
  | 0, c => c
  | fuel + 1, c =>
    match c.server with
    | none => c
    | some s =>
      match s.command host c.toServer with
      | none => c
      | some .exit => { c with server := none }
      | some (.top out rest s) =>
        serveLoop fuel { c with server := some s, toServer := rest, toClient := c.toClient ++ out }

/-- The server runs until it waits or has exited. Every turn takes a byte. -/
def serve (c : Session σ) : Session σ := serveLoop host c.toServer.length c

/-- `write` to the server: how many bytes it took, and the connection after it. -/
def send (data : List UInt8) (c : Session σ) : ℕ × Session σ :=
  (min data.length maxRwCount, { c with toServer := c.toServer ++ data.take maxRwCount })

/-! ## Replies -/

/-- `rmtgets` with a buffer of `len` bytes: the line and the rest of the input. -/
def rmtgets : (len : ℕ) → List UInt8 → Option (List UInt8 × List UInt8)
  | 0, _ => none
  | 1, _ => none
  | _ + 2, [] => none
  | len + 2, c :: input =>
    if c = 10 then some ([c], input) else (rmtgets (len + 1) input).map fun p => (c :: p.1, p.2)

/-- `rmtreply`: the value, or `errno`. -/
def rmtreply (c : Session σ) : Option (Except ℤ ℤ × Session σ) := do
  let c := c.serve host
  let (code, input) ← rmtgets 30 c.toClient
  match code with
  | 69 :: num =>
    let (_, input) ← rmtgets bufsiz input
    return (.error (atoi num), { c with toClient := input })
  | 70 :: num =>
    let (_, input) ← rmtgets bufsiz input
    return (.error (atoi num), { c with toClient := input, opened := false })
  | 65 :: num => return (.ok (strtol num), { c with toClient := input })
  | _ => none

/-- `rmtcall`. -/
def rmtcall (buf : List UInt8) (c : Session σ) : Option (Except ℤ ℤ × Session σ) :=
  let (n, c) := c.send buf
  if n ≠ buf.length then none else c.rmtreply host

end Session

/-! ## Calls -/

/-- What a call returns: a value, the data it has read, `-1` with `errno`, an error of its own
without a request, or `-1` after a `write` that did not take all of the request. -/
inductive Result where
  | value (n : ℤ)
  | data (bytes : List UInt8)
  | fail (errno : ℤ)
  | refused
  | short
deriving DecidableEq

/-- The value of `rmtcall`, cut to an `int`. -/
def Result.ofReply : Except ℤ ℤ → Result
  | .ok n => .value (n.bmod (2 ^ 32))
  | .error e => .fail e

/-- `MAXPATHLEN`. -/
def maxpathlen : ℕ := 4096

namespace Session

variable {σ : Type} (host : Host σ)

/-- `rmtopen`. -/
def rmtopen (tape : List UInt8) (mode : ℕ) (c : Session σ) : Option (Result × Session σ) := do
  let rmtflags ← rmtflagsTochar mode
  let buf := (str "O" ++ tape ++ str "\n" ++ filemode mode rmtflags ++ str "\n").take
    (maxpathlen - 1)
  let (reply, c) ← rmtcall host buf { c with opened := true }
  return (.ofReply reply, c)

/-- `rmtclose`, with the result of its `rmtcall`. -/
def rmtclose (c : Session σ) : Option (Result × Session σ) :=
  if c.opened then do
    let (reply, c) ← rmtcall host (str "C\n") c
    return (.ofReply reply, { c with opened := false })
  else some (.refused, c)

/-- `rmtread`. On an error it sets `errno` to the value of `rmtcall`, which is `-1`. -/
def rmtread (count : ℕ) (c : Session σ) : Option (Result × Session σ) := do
  let (reply, c) ← rmtcall host (str "R" ++ decimal (count % 2 ^ 32 : ℕ) ++ str "\n") c
  match reply with
  | .error _ => return (.fail (-1), c)
  | .ok n =>
    let n := n.bmod (2 ^ 32)
    if n < 0 then return (.fail n, c)
    else if c.toClient.length < n.toNat then none
    else return (.data (c.toClient.take n.toNat), { c with toClient := c.toClient.drop n.toNat })

/-- `rmtwrite`. -/
def rmtwrite (buf : List UInt8) (c : Session σ) : Option (Result × Session σ) :=
  let line := str "W" ++ decimal buf.length ++ str "\n"
  let (n, c) := c.send line
  if n ≠ line.length then some (.short, c)
  else
    let (n, c) := c.send buf
    if n ≠ buf.length then some (.short, c)
    else do
      let (reply, c) ← rmtreply host c
      return (.ofReply reply, c)

/-- `rmtseek`, which returns an `off_t`. -/
def rmtseek (offset pos : ℤ) (c : Session σ) : Option (Result × Session σ) := do
  let (reply, c) ← rmtcall host (str "L" ++ decimal offset ++ str "\n" ++ decimal pos ++ str "\n") c
  match reply with
  | .ok n => return (.value n, c)
  | .error e => return (.fail e, c)

/-- `rmtstatus`. -/
def rmtstatus (c : Session σ) : Option (Result × Session σ) :=
  if c.opened then do
    let (reply, c) ← rmtcall host (str "S") c
    match reply with
    | .error e => return (.fail e, c)
    | .ok n =>
      let i := n.bmod (2 ^ 32)
      if i < 0 then return (.refused, c)
      else if c.toClient.length < i.toNat then none
      else
        let rest := { c with toClient := c.toClient.drop i.toNat }
        if i = sizeofMtget then return (.data (c.toClient.take i.toNat), rest)
        else return (.refused, rest)
  else some (.refused, c)

/-- `rmtioctl`. -/
def rmtioctl (cmd count : ℤ) (c : Session σ) : Option (Result × Session σ) :=
  if count < 0 then some (.refused, c)
  else do
    let (reply, c) ←
      rmtcall host (str "I" ++ decimal cmd ++ str "\n" ++ decimal count ++ str "\n") c
    return (.ofReply reply, c)

end Session

/-- A call of the client. -/
inductive Call where
  | rmtopen (tape : List UInt8) (mode : ℕ)
  | rmtclose
  | rmtread (count : ℕ)
  | rmtwrite (buf : List UInt8)
  | rmtseek (offset pos : ℤ)
  | rmtstatus
  | rmtioctl (cmd count : ℤ)

namespace Call

variable {σ : Type} (host : Host σ)

/-- A call over the connection. -/
def remote (c : Session σ) : Call → Option (Result × Session σ)
  | rmtopen tape mode => c.rmtopen host tape mode
  | rmtclose => c.rmtclose host
  | rmtread count => c.rmtread host count
  | rmtwrite buf => c.rmtwrite host buf
  | rmtseek offset pos => c.rmtseek host offset pos
  | rmtstatus => c.rmtstatus host
  | rmtioctl cmd count => c.rmtioctl host cmd count

/-- The arguments are values of their C types: a device is a path without newline, a mode and the
arguments of `rmtioctl` are of type `int`. Nothing is written without data. -/
def Typed : Call → Prop
  | rmtopen tape mode => 10 ∉ tape ∧ 0 ∉ tape ∧ tape.length < maxpathlen ∧ mode < 2 ^ 31
  | rmtread count => count < 2 ^ 64
  | rmtwrite buf => 1 ≤ buf.length ∧ buf.length < 2 ^ 63
  | rmtseek offset pos =>
    -2 ^ 63 ≤ offset ∧ offset < 2 ^ 63 ∧ -2 ^ 31 ≤ pos ∧ pos < 2 ^ 31
  | rmtioctl cmd count =>
    -2 ^ 31 ≤ cmd ∧ cmd < 2 ^ 31 ∧ -2 ^ 31 ≤ count ∧ count < 2 ^ 31
  | rmtclose => True
  | rmtstatus => True

/-! ## What a call is for -/

/-- Whether a call makes a request. -/
def asks (opened : Bool) : Call → Bool
  | rmtclose => opened
  | rmtstatus => opened
  | rmtioctl _ count => 0 ≤ count
  | _ => true

/-- `rmtstate` after a call. -/
def opens (opened : Bool) : Call → Bool
  | rmtopen _ _ => true
  | rmtclose => false
  | _ => opened

/-- The command of a call with the arguments of the call. -/
def handle (s : Server σ) : Call → Reply × Server σ
  | rmtopen tape mode => s.openTape host tape mode
  | rmtclose => s.closeTape host
  | rmtread count => s.read host count
  | rmtwrite buf => s.write host buf
  | rmtseek offset pos => s.seek host offset pos
  | rmtstatus => s.status host
  | rmtioctl cmd count => s.ioctl host cmd count

end Call

/-- The result a reply is for. -/
def Reply.result : Reply → Result
  | .respond n => .value n
  | .data bytes => .data bytes
  | .ioerror e => .fail e.val

namespace Call

variable {σ : Type} (host : Host σ)

/-- A call that reaches the server with its arguments and returns the server's result: the result,
the server and `rmtstate`. -/
def direct (s : Server σ) (opened : Bool) (call : Call) : Result × Server σ × Bool :=
  if call.asks opened then
    let (reply, s) := call.handle host s
    (reply.result, s, call.opens opened)
  else (.refused, s, call.opens opened)

end Call

/-! ## Sequences of calls -/

section Sequences

variable {σ : Type} (host : Host σ)

/-- A sequence of calls over a connection: the result of each call and the connection after it. -/
def remotes : List Call → Session σ → Option (List (Result × Session σ))
  | [], _ => some []
  | call :: calls, c => do
    let r ← call.remote host c
    let rs ← remotes calls r.2
    return r :: rs

/-- What a sequence of calls is for. Between two calls nothing is on its way. -/
def directs : List Call → Server σ → Bool → List (Result × Session σ)
  | [], _, _ => []
  | call :: calls, s, opened =>
    let (result, s, opened) := call.direct host s opened
    (result, boundary s opened) :: directs calls s opened

end Sequences

end Rmt

end DumpRestore
