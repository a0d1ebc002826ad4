import Mathlib.Algebra.BigOperators.Group.Finset.Piecewise
import Mathlib.Data.Fintype.Basic
import Mathlib.Data.List.Range

/-!
# The ring of slaves

The master hands blocks to the slaves in turn. A slave waits for `SIGUSR1` before it reads a block
and for `SIGUSR2` before it writes it, and hands both on to the next slave. The handlers jump out
of the wait for their own signal and count in any other place. A block is the number of its
`flushtape`.

* `deliver` is what happens when `sigsuspend` lets pending signals in: the handlers run in some
  order, and one that jumps leaves those after it behind.
* `Safe` is what the two tokens are for, and `Orderly` the condition on a `sigsuspend`.
-/

namespace DumpRestore

/-- `SIGUSR1` and `SIGUSR2`. -/
inductive Sig where
  | usr1
  | usr2
  deriving DecidableEq

/-- Where a slave is in `doslave`. -/
inductive SlavePc where
  /-- In `dump_atomic_read`, for the next request. -/
  | idle
  /-- Before the `sigsuspend` for a signal. -/
  | wait (k : Sig) (block : ℕ)
  | reading (block : ℕ)
  | compress (block : ℕ)
  | writing (block : ℕ)
  /-- After the write, before the result is passed back. -/
  | wrote (block : ℕ)
  /-- Before `SIGUSR2` is sent to the next slave. -/
  | done (block : ℕ)
  deriving DecidableEq

/-- A slave: its counters `caught1` and `caught2`, the signals that are pending, and both directions
of its pipe. -/
structure Slave where
  pc : SlavePc
  caught : Sig → ℕ
  pending : Sig → Bool
  cmd : List ℕ
  results : List ℕ

/-- The number of slaves, and `slp` when `enslave` starts them. -/
structure Ring where
  slaves : ℕ
  slaves_pos : 0 < slaves
  slp : ℕ

namespace Ring

variable (R : Ring)

/-- The slave that gets a block. -/
def slave (block : ℕ) : Fin R.slaves := ⟨(R.slp + block) % R.slaves, Nat.mod_lt _ R.slaves_pos⟩

/-- `nextslave`. -/
def nextslave (i : Fin R.slaves) : Fin R.slaves := ⟨(i + 1) % R.slaves, Nat.mod_lt _ R.slaves_pos⟩

/-- The slaves, the master and the tape. The master has sent `flushed` blocks, and `collect` says
that it has still to read back the result of the next slave. -/
structure State where
  slave : Fin R.slaves → Slave
  sent : Fin R.slaves → Bool
  flushed : ℕ
  collect : Bool
  tape : List ℕ

/-! ## Signals -/

/-- `proceed1` and `proceed2`. The flag says that the handler jumps. -/
def proceed (k : Sig) (ready : Sig → Bool) (caught : Sig → ℕ) : Bool × (Sig → ℕ) :=
  if ready k then (true, caught) else (false, Function.update caught k (caught k + 1))

/-- Handlers run in this order; one that jumps leaves the others behind. -/
def deliver (ready : Sig → Bool) : List Sig → (Sig → ℕ) → Sig → ℕ
  | [], caught => caught
  | k :: ks, caught =>
    let (jump, caught) := proceed k ready caught
    if jump then caught else deliver ready ks caught

/-- The flags `ready1` and `ready2` in the wait for a signal. -/
def ready (k : Sig) : Sig → Bool := fun j => j = k

/-- What a slave goes on to after a wait. -/
def afterWait : Sig → ℕ → SlavePc
  | .usr1, block => .reading block
  | .usr2, block => .writing block

/-- The slave leaves the wait: `ready = 0; caught = 0`. -/
def leaveWait (k : Sig) (block : ℕ) (x : Slave) : Slave :=
  { x with pc := afterWait k block, caught := Function.update x.caught k 0 }

/-- A signal becomes pending. -/
def kill (k : Sig) (x : Slave) : Slave := { x with pending := Function.update x.pending k true }

/-! ## Steps -/

/-- What can happen. -/
inductive Label where
  /-- The master sends a request. -/
  | send
  /-- The master reads a result back, if it has to. -/
  | collect
  /-- The slave reads a request. -/
  | take (i : Fin R.slaves)
  /-- The slave has caught the signal that it is to wait for. -/
  | pass (i : Fin R.slaves)
  /-- The slave suspends, and the pending signals are handled in this order. -/
  | suspend (i : Fin R.slaves) (order : List Sig)
  /-- The slave has read its block and signals the next one. -/
  | signalRead (i : Fin R.slaves)
  | compressed (i : Fin R.slaves)
  | write (i : Fin R.slaves)
  /-- The slave passes the result back. -/
  | result (i : Fin R.slaves)
  /-- The slave signals the next one that the tape is free. -/
  | signalWritten (i : Fin R.slaves)

variable {R}

/-- A slave changes. -/
def State.set (s : R.State) (i : Fin R.slaves) (x : Slave) : R.State :=
  { s with slave := Function.update s.slave i x }

/-- A slave goes on to `pc` and signals the next one. -/
def State.signal (s : R.State) (i : Fin R.slaves) (pc : SlavePc) (k : Sig) : R.State :=
  let s := s.set i { s.slave i with pc := pc }
  s.set (R.nextslave i) (kill k (s.slave (R.nextslave i)))

/-- One step, if it is possible. -/
def exec (s : R.State) : R.Label → Option R.State
  | .send =>
    if s.collect then none
    else
      let i := R.slave s.flushed
      let x := s.slave i
      some { s.set i { x with cmd := x.cmd ++ [s.flushed] } with
        sent := Function.update s.sent i true
        flushed := s.flushed + 1
        collect := true }
  | .collect =>
    let i := R.slave s.flushed
    let x := s.slave i
    if !s.collect then none
    else if !s.sent i then some { s with collect := false }
    else
      match x.results with
      | [] => none
      | _ :: results => some { s.set i { x with results := results } with
          sent := Function.update s.sent i false
          collect := false }
  | .take i =>
    let x := s.slave i
    match x.pc, x.cmd with
    | .idle, block :: cmd => some (s.set i { x with pc := .wait .usr1 block, cmd := cmd })
    | _, _ => none
  | .pass i =>
    let x := s.slave i
    match x.pc with
    | .wait k block => if x.caught k = 0 then none else some (s.set i (leaveWait k block x))
    | _ => none
  | .suspend i order =>
    let x := s.slave i
    match x.pc with
    | .wait k block =>
      if x.caught k = 0 ∧ order ≠ [] ∧ order.Nodup ∧
          (.usr1 ∈ order ↔ x.pending .usr1 = true) ∧ (.usr2 ∈ order ↔ x.pending .usr2 = true) then
        some (s.set i (leaveWait k block
          { x with caught := deliver (ready k) order x.caught, pending := fun _ => false }))
      else none
    | _ => none
  | .signalRead i =>
    match (s.slave i).pc with
    | .reading block => some (s.signal i (.compress block) .usr1)
    | _ => none
  | .compressed i =>
    let x := s.slave i
    match x.pc with
    | .compress block => some (s.set i { x with pc := .wait .usr2 block })
    | _ => none
  | .write i =>
    let x := s.slave i
    match x.pc with
    | .writing block =>
      some { s.set i { x with pc := .wrote block } with tape := s.tape ++ [block] }
    | _ => none
  | .result i =>
    let x := s.slave i
    match x.pc with
    | .wrote block =>
      some (s.set i { x with pc := .done block, results := x.results ++ [block] })
    | _ => none
  | .signalWritten i =>
    match (s.slave i).pc with
    | .done _ => some (s.signal i .idle .usr2)
    | _ => none

variable (R) in
/-- The state after `enslave`: the first slave has caught both signals. -/
def init : R.State where
  slave i := ⟨.idle, fun _ => if i = R.slave 0 then 1 else 0, fun _ => false, [], []⟩
  sent _ := false
  flushed := 0
  collect := false
  tape := []

variable (R) in
/-- The state after some steps. -/
def run (ls : List R.Label) : Option R.State := ls.foldlM exec R.init

/-! ## Safety -/

/-- What a slave holds of a token while it is at work. -/
def held : Sig → SlavePc → ℕ
  | .usr1, .reading _ => 1
  | .usr2, .writing _ => 1
  | .usr2, .wrote _ => 1
  | .usr2, .done _ => 1
  | _, _ => 0

/-- The tokens of a kind at a slave: held, caught or pending. -/
def tokensAt (k : Sig) (x : Slave) : ℕ := held k x.pc + x.caught k + (x.pending k).toNat

/-- The tokens of a kind. -/
def tokens (k : Sig) (s : R.State) : ℕ := ∑ i, tokensAt k (s.slave i)

/-- At most one slave is in its tape write, the blocks on the tape are those that the master sent
first, in order, and there is one token of each kind. -/
structure Safe (s : R.State) : Prop where
  one_writer : ∀ i j b c, (s.slave i).pc = .writing b → (s.slave j).pc = .writing c → i = j
  in_order : s.tape = List.range s.tape.length ∧ s.tape.length ≤ s.flushed
  conserved : ∀ k, tokens k s = 1

/-- The wait is not ended by the other signal alone. -/
def OwnSignal (s : R.State) : R.Label → Prop
  | .suspend i order => ∀ k b, (s.slave i).pc = .wait k b → k ∈ order
  | _ => True

/-- When two signals are handled, the awaited one is not the first. -/
def Orderly (s : R.State) : R.Label → Prop
  | .suspend i (j :: _ :: _) => ∀ k b, (s.slave i).pc = .wait k b → j ≠ k
  | _ => True

end Ring

end DumpRestore
