import DumpRestore.Dump.SlaveRing
import Mathlib.Data.Nat.ModEq

/-!
# Where the tokens of the ring are

`Inv` says where both tokens are, in terms of the next block to be read and the next to be written:
a block that is read and not yet written keeps its slave, so the read token is at most one round
ahead of the write token.

* `Inv.own_pending`: a slave that waits for one token and has the other pending has both.
* `Inv.exec`: every step keeps the invariant, unless the awaited signal is the first of two to be
  handled.
-/

namespace DumpRestore

namespace Ring

variable {R : Ring}

/-! ## The invariant -/

theorem slave_inj {a b : ℕ} (hab : a ≤ b) (hb : b < a + R.slaves) (h : R.slave a = R.slave b) :
    a = b := by
  have hmod : R.slp + a ≡ R.slp + b [MOD R.slaves] := congrArg Fin.val h
  have hmod' : a ≡ b [MOD R.slaves] := Nat.ModEq.add_left_cancel' _ hmod
  have hdvd : R.slaves ∣ b - a := (Nat.modEq_iff_dvd' hab).mp hmod'
  have hzero := Nat.eq_zero_of_dvd_of_lt hdvd (by omega)
  omega

theorem slave_add_slaves (b : ℕ) : R.slave (b + R.slaves) = R.slave b := by
  refine Fin.ext ?_
  simp only [slave, ← Nat.add_assoc, Nat.add_mod_right]

theorem nextslave_slave (b : ℕ) : R.nextslave (R.slave b) = R.slave (b + 1) := by
  refine Fin.ext ?_
  simp only [nextslave, slave, Nat.mod_add_mod, Nat.add_assoc]

/-- Where a token is: `r` is the next block to be read, and `w` the next to be written. -/
def turn (r w : ℕ) : Sig → ℕ
  | .usr1 => r
  | .usr2 => w

/-- The token that is due at `j`, as a slave `i` has it. -/
def due (i j : Fin R.slaves) : ℕ := if i = j then 1 else 0

/-- Where a slave can be with its block. -/
def InPhase (r w block : ℕ) : SlavePc → Prop
  | .idle => r ≤ block
  | .wait .usr1 b => b = block ∧ r ≤ block
  | .reading b => b = block ∧ r = block
  | .compress b => b = block ∧ block < r
  | .wait .usr2 b => b = block ∧ block < r
  | .writing b => b = block ∧ block < r ∧ block = w
  | .wrote b => b = block ∧ block < r ∧ block = w
  | .done b => b = block ∧ block < r ∧ block = w

/-- The block of the slave is on the tape. -/
def written : SlavePc → ℕ
  | .wrote _ => 1
  | .done _ => 1
  | _ => 0

/-- The block that a slave takes next. -/
def nextBlock (R : Ring) (block : ℕ) : SlavePc → ℕ
  | .idle => block
  | _ => block + R.slaves

/-- The requests for a slave are those that it has not taken yet. -/
def Queue (R : Ring) (flushed block : ℕ) (x : Slave) : Prop :=
  ∃ k, x.cmd = (List.range k).map (fun j => nextBlock R block x.pc + j * R.slaves) ∧
    flushed ≤ nextBlock R block x.pc + k * R.slaves ∧
    nextBlock R block x.pc + k * R.slaves < flushed + R.slaves

/-- The invariant of the ring: `blk` has the block that every slave works on, or takes next. -/
structure Inv (s : R.State) (r w : ℕ) (blk : Fin R.slaves → ℕ) : Prop where
  window : ∀ i, w ≤ blk i ∧ blk i < w + R.slaves ∧ R.slave (blk i) = i
  order : w ≤ r ∧ r ≤ w + R.slaves
  phase : ∀ i, InPhase r w (blk i) (s.slave i).pc
  token : ∀ k i, tokensAt k (s.slave i) = due i (R.slave (turn r w k))
  queue : ∀ i, Queue R s.flushed (blk i) (s.slave i)
  tape : s.tape = List.range (w + written (s.slave (R.slave w)).pc)
  flushed : w ≤ s.flushed

variable {s : R.State} {r w : ℕ} {blk : Fin R.slaves → ℕ}

theorem inv_init (R : Ring) :
    Inv R.init 0 0 fun i => (i + (R.slaves - R.slp % R.slaves)) % R.slaves where
  window i := by
    have hlt := Nat.mod_lt (i + (R.slaves - R.slp % R.slaves)) R.slaves_pos
    have hslp := Nat.mod_lt R.slp R.slaves_pos
    refine ⟨Nat.zero_le _, by omega, Fin.ext ?_⟩
    simp only [slave, Nat.add_mod_mod]
    rw [← Nat.mod_add_mod, show R.slp % R.slaves + (i + (R.slaves - R.slp % R.slaves)) =
      i + R.slaves by omega, Nat.add_mod_right, Nat.mod_eq_of_lt i.isLt]
  order := ⟨le_rfl, Nat.zero_le _⟩
  phase _ := Nat.zero_le _
  token k i := by cases k <;> exact Nat.zero_add _
  queue i := by
    have hlt := Nat.mod_lt (i + (R.slaves - R.slp % R.slaves)) R.slaves_pos
    exact ⟨0, rfl, Nat.zero_le _, by simpa [nextBlock, init] using hlt⟩
  tape := rfl
  flushed := le_rfl

/-- A slave that holds, caught or waits for a token has its turn. -/
theorem Inv.of_token (h : Inv s r w blk) {k : Sig} {i : Fin R.slaves}
    (hi : tokensAt k (s.slave i) ≠ 0) : i = R.slave (turn r w k) := by
  by_contra hne
  rw [h.token, due, if_neg hne] at hi
  exact hi rfl

/-- The block of the slave that waits for a token and has its turn. -/
theorem Inv.blk_of_turn (h : Inv s r w blk) {k : Sig} {i : Fin R.slaves} {b : ℕ}
    (hpc : (s.slave i).pc = .wait k b) (hi : i = R.slave (turn r w k)) :
    b = blk i ∧ (k = .usr1 → blk i = r) ∧ (k = .usr2 → blk i = w ∧ blk i < r) := by
  obtain ⟨hlo, hhi, hslave⟩ := h.window i
  obtain ⟨hwr, hrw⟩ := h.order
  have hphase := h.phase i
  rw [hpc] at hphase
  cases k with
  | usr1 =>
    obtain ⟨hb, hle⟩ := hphase
    refine ⟨hb, fun _ => ?_, fun hk => by cases hk⟩
    exact (slave_inj (R := R) hle (by omega) (by rw [hslave, hi, turn])).symm
  | usr2 =>
    obtain ⟨hb, hlt⟩ := hphase
    refine ⟨hb, fun hk => (by cases hk), fun _ => ⟨?_, hlt⟩⟩
    exact (slave_inj (R := R) hlo (by omega) (by rw [hslave, hi, turn])).symm

/-- **A slave changes alone**: it keeps its tokens and its requests. -/
theorem Inv.set (h : Inv s r w blk) {i : Fin R.slaves} {x : Slave}
    (hphase : InPhase r w (blk i) x.pc) (htoken : ∀ k, tokensAt k x = tokensAt k (s.slave i))
    (hqueue : Queue R s.flushed (blk i) x) {tape : List ℕ}
    (htape : tape = List.range (w + written ((s.set i x).slave (R.slave w)).pc)) :
    Inv { s.set i x with tape := tape } r w blk where
  window := h.window
  order := h.order
  phase j := by
    by_cases hj : j = i
    · subst hj
      simpa [State.set] using hphase
    · simpa [State.set, hj] using h.phase j
  token k j := by
    by_cases hj : j = i
    · subst hj
      simpa [State.set, htoken] using h.token k j
    · simpa [State.set, hj] using h.token k j
  queue j := by
    by_cases hj : j = i
    · subst hj
      simpa [State.set] using hqueue
    · simpa [State.set, hj] using h.queue j
  tape := htape
  flushed := h.flushed

/-- The tape when a slave changes that is not at its write. -/
theorem Inv.tape_set (h : Inv s r w blk) {i : Fin R.slaves} {x : Slave}
    (hwritten : written x.pc = written (s.slave i).pc) :
    s.tape = List.range (w + written ((s.set i x).slave (R.slave w)).pc) := by
  rw [h.tape]
  by_cases hi : R.slave w = i
  · simp [State.set, hi, hwritten]
  · simp [State.set, hi]

/-! ## Every step keeps the invariant -/

theorem Inv.take (h : Inv s r w blk) {i : Fin R.slaves} {b : ℕ} {cmd : List ℕ}
    (hpc : (s.slave i).pc = .idle) (hcmd : (s.slave i).cmd = b :: cmd) :
    Inv (s.set i { s.slave i with pc := .wait .usr1 b, cmd := cmd }) r w blk := by
  obtain ⟨k, hk, hle, hlt⟩ := h.queue i
  have hphase : r ≤ blk i := by simpa [hpc, InPhase] using h.phase i
  simp only [hpc, nextBlock] at hk hle hlt
  cases k with
  | zero => simp [hcmd] at hk
  | succ k =>
    rw [hcmd, List.range_succ_eq_map, List.map_cons, List.map_map] at hk
    obtain ⟨hb, hrest⟩ := List.cons.inj hk
    have hmul : (k + 1) * R.slaves = R.slaves + k * R.slaves := by rw [Nat.succ_mul, Nat.add_comm]
    refine h.set ?_ (fun k => ?_) ⟨k, ?_, ?_, ?_⟩ (h.tape_set ?_)
    · exact ⟨by simpa using hb, hphase⟩
    · cases k <;> simp [tokensAt, held, hpc]
    · rw [hrest]
      refine List.map_congr_left fun j _ => ?_
      simp only [Function.comp_apply, nextBlock, Nat.succ_eq_add_one, Nat.succ_mul]
      omega
    · simp only [nextBlock]
      omega
    · simp only [nextBlock]
      omega
    · simp [written, hpc]

/-- A slave that leaves a wait in its turn has the token. -/
theorem Inv.leave (h : Inv s r w blk) {i : Fin R.slaves} {k : Sig} {b : ℕ} {x : Slave}
    (hpc : (s.slave i).pc = .wait k b) (hi : i = R.slave (turn r w k))
    (hx : x.pc = (s.slave i).pc ∧ x.cmd = (s.slave i).cmd) (hpending : x.pending k = false)
    (hothers : ∀ j ≠ k, x.caught j + (x.pending j).toNat =
      (s.slave i).caught j + ((s.slave i).pending j).toNat) :
    Inv (s.set i (leaveWait k b x)) r w blk := by
  obtain ⟨hb, husr1, husr2⟩ := h.blk_of_turn hpc hi
  refine h.set ?_ (fun j => ?_) ?_ (h.tape_set ?_)
  · cases k with
    | usr1 => exact ⟨hb, (husr1 rfl).symm⟩
    | usr2 => exact ⟨hb, (husr2 rfl).2, (husr2 rfl).1⟩
  · by_cases hj : j = k
    · subst hj
      have hone : tokensAt j (s.slave i) = 1 := by rw [h.token, due, if_pos hi]
      rw [hone]
      cases j <;> simp [tokensAt, leaveWait, afterWait, held, hpending]
    · have hsame := hothers j hj
      have hheld : held j (afterWait k b) = held j (s.slave i).pc := by
        rw [hpc]
        cases j <;> cases k <;> first | rfl | exact absurd rfl hj
      simp only [tokensAt, leaveWait, hheld, Function.update_of_ne hj]
      omega
  · obtain ⟨n, hn⟩ := h.queue i
    refine ⟨n, ?_⟩
    rw [hpc] at hn
    simp only [leaveWait, hx.2]
    cases k <;> exact hn
  · rw [hpc]
    cases k <;> rfl

theorem Inv.pass (h : Inv s r w blk) {i : Fin R.slaves} {k : Sig} {b : ℕ}
    (hpc : (s.slave i).pc = .wait k b) (hcaught : (s.slave i).caught k ≠ 0) :
    Inv (s.set i (leaveWait k b (s.slave i))) r w blk := by
  have hne : tokensAt k (s.slave i) ≠ 0 := by
    simp only [tokensAt]
    omega
  have hi := h.of_token hne
  have hone : tokensAt k (s.slave i) = 1 := by rw [h.token, due, if_pos hi]
  refine h.leave hpc hi ⟨rfl, rfl⟩ ?_ fun _ _ => rfl
  cases hpend : (s.slave i).pending k with
  | false => rfl
  | true =>
    simp only [tokensAt, hpend, Bool.toNat_true] at hone
    omega

/-- **A wait is not ended by the other signal alone.** A slave that waits for one token and has the
other pending has both. -/
theorem Inv.own_pending (h : Inv s r w blk) {i : Fin R.slaves} {k j : Sig} {b : ℕ}
    (hpc : (s.slave i).pc = .wait k b) (hcaught : (s.slave i).caught k = 0)
    (hpending : (s.slave i).pending j = true) : (s.slave i).pending k = true := by
  have hj : i = R.slave (turn r w j) := h.of_token (by
    simp only [tokensAt, hpending, Bool.toNat_true]
    omega)
  obtain ⟨hlo, hhi, hslave⟩ := h.window i
  obtain ⟨hwr, hrw⟩ := h.order
  have hphase := h.phase i
  have hk : i = R.slave (turn r w k) := by
    rw [hpc] at hphase
    cases k <;> cases j
    · exact hj
    · obtain ⟨-, hle⟩ := hphase
      have hblk : w = blk i := slave_inj (R := R) hlo hhi (by rw [hslave]; exact hj.symm)
      have hr : r = w := by omega
      rw [turn, hr]
      exact hj
    · obtain ⟨-, hlt⟩ := hphase
      have hblk : r = blk i + R.slaves := by
        have hsame : R.slave (blk i + R.slaves) = R.slave r := by
          rw [slave_add_slaves, hslave]
          exact hj
        exact slave_inj (R := R) (by omega) (by omega) hsame.symm
      have hw : blk i = w := by omega
      rw [turn, ← hw, hslave]
    · exact hj
  have hone : tokensAt k (s.slave i) = 1 := by rw [h.token, due, if_pos hk]
  have hheld : held k (s.slave i).pc = 0 := by
    rw [hpc]
    cases k <;> rfl
  simp only [tokensAt, hheld, hcaught, Nat.zero_add] at hone
  exact Bool.toNat_eq_one.mp hone

/-- The other signal. -/
def other : Sig → Sig
  | .usr1 => .usr2
  | .usr2 => .usr1

theorem eq_other {j k : Sig} (h : j ≠ k) : j = other k := by
  cases j <;> cases k <;> first | rfl | exact absurd rfl h

/-- The order in which handlers run: one, or both. -/
theorem order_cases {order : List Sig} (hne : order ≠ []) (hnodup : order.Nodup) :
    (∃ j, order = [j]) ∨ ∃ j, order = [j, other j] := by
  match order with
  | [] => exact absurd rfl hne
  | [j] => exact .inl ⟨j, rfl⟩
  | [j, l] =>
    have hjl : l ≠ j := by
      rintro rfl
      simp at hnodup
    exact .inr ⟨j, by rw [eq_other hjl]⟩
  | j :: l :: m :: rest =>
    exfalso
    simp only [List.nodup_cons, List.mem_cons, not_or] at hnodup
    obtain ⟨⟨hjl, hjm, -⟩, ⟨hlm, -⟩, -⟩ := hnodup
    cases j <;> cases l <;> cases m <;> simp at hjl hjm hlm

/-- What the handlers count when the awaited signal is handled last. -/
theorem deliver_orderly (k : Sig) (caught : Sig → ℕ) :
    deliver (ready k) [k] caught = caught ∧ deliver (ready k) [other k, k] caught =
      Function.update caught (other k) (caught (other k) + 1) := by
  cases k <;> simp [deliver, proceed, ready, other]

theorem Inv.suspend (h : Inv s r w blk) {i : Fin R.slaves} {k : Sig} {b : ℕ} {order : List Sig}
    (hpc : (s.slave i).pc = .wait k b) (hcaught : (s.slave i).caught k = 0) (hne : order ≠ [])
    (hnodup : order.Nodup) (horder : ∀ j, j ∈ order ↔ (s.slave i).pending j = true)
    (ho : ∀ j l rest, order = j :: l :: rest → j ≠ k) :
    Inv (s.set i (leaveWait k b { s.slave i with
      caught := deliver (ready k) order (s.slave i).caught,
      pending := fun _ => false })) r w blk := by
  obtain ⟨j, hj⟩ := List.exists_mem_of_ne_nil order hne
  have hpend := h.own_pending hpc hcaught ((horder j).mp hj)
  have hi : i = R.slave (turn r w k) := h.of_token (by
    simp only [tokensAt, hpend, Bool.toNat_true]
    omega)
  refine h.leave hpc hi ⟨rfl, rfl⟩ rfl fun j hjk => ?_
  obtain rfl := eq_other hjk
  rcases order_cases hne hnodup with ⟨l, rfl⟩ | ⟨l, rfl⟩
  · obtain rfl : k = l := List.mem_singleton.mp ((horder k).mpr hpend)
    have hnot : (s.slave i).pending (other k) = false := by
      rw [← Bool.not_eq_true, ← horder, List.mem_singleton]
      exact hjk
    simp [(deliver_orderly k _).1, hnot]
  · obtain rfl := eq_other (ho l (other l) [] rfl)
    have hpend' : (s.slave i).pending (other k) = true := (horder _).mp List.mem_cons_self
    have hkk : other (other k) = k := by cases k <;> rfl
    simp [hkk, (deliver_orderly k _).2, hpend']

theorem signal_slave (s : R.State) (i j : Fin R.slaves) (pc : SlavePc) (k : Sig) :
    ((s.signal i pc k).slave j).pc = (if j = i then pc else (s.slave j).pc) ∧
    ((s.signal i pc k).slave j).caught = (s.slave j).caught ∧
    ((s.signal i pc k).slave j).pending = (if j = R.nextslave i then
      Function.update (s.slave j).pending k true else (s.slave j).pending) ∧
    ((s.signal i pc k).slave j).cmd = (s.slave j).cmd := by
  have hset : ∀ j, (s.set i { s.slave i with pc := pc }).slave j =
      { s.slave j with pc := if j = i then pc else (s.slave j).pc } := by
    intro j
    by_cases hi : j = i
    · subst hi
      simp [State.set]
    · simp [State.set, hi]
  have hkill : (s.signal i pc k).slave j =
      if j = R.nextslave i then kill k ((s.set i { s.slave i with pc := pc }).slave j)
      else (s.set i { s.slave i with pc := pc }).slave j := by
    by_cases hj : j = R.nextslave i
    · subst hj
      simp [State.signal, State.set]
    · simp [State.signal, State.set, hj]
  rw [hkill, hset]
  split <;> simp [kill]

theorem signal_tokens (s : R.State) {i : Fin R.slaves} (j : Fin R.slaves) {pc : SlavePc} {k : Sig}
    (l : Sig) (hpending : (s.slave (R.nextslave i)).pending k = false) :
    tokensAt l ((s.signal i pc k).slave j) =
      held l (if j = i then pc else (s.slave j).pc) + (s.slave j).caught l +
        ((s.slave j).pending l).toNat + if l = k then due j (R.nextslave i) else 0 := by
  obtain ⟨hpc, hcaught, hpend, -⟩ := signal_slave s i j pc k
  rw [tokensAt, hpc, hcaught, hpend, Nat.add_assoc _ (Bool.toNat _)]
  congr 1
  by_cases hj : j = R.nextslave i
  · subst hj
    by_cases hl : l = k
    · subst hl
      simp [hpending, due]
    · simp [hl]
  · simp [hj, due]

/-- **A token goes to the next slave.** -/
theorem Inv.signal_token (h : Inv s r w blk) {i : Fin R.slaves} {k : Sig} (pc : SlavePc)
    (hheld : held k (s.slave i).pc = 1) (hgone : held k pc = 0)
    (hothers : ∀ l ≠ k, held l pc = held l (s.slave i).pc) (r' w' : ℕ)
    (hnext : turn r' w' k = turn r w k + 1) (hsame : ∀ l ≠ k, turn r' w' l = turn r w l) :
    i = R.slave (turn r w k) ∧
      ∀ l j, tokensAt l ((s.signal i pc k).slave j) = due j (R.slave (turn r' w' l)) := by
  have hi : i = R.slave (turn r w k) := h.of_token (by
    simp only [tokensAt, hheld]
    omega)
  have hone : tokensAt k (s.slave i) = 1 := by rw [h.token, due, if_pos hi]
  have hnone : ∀ j, j ≠ i → tokensAt k (s.slave j) = 0 := fun j hj => by
    rw [h.token, due, if_neg (hi ▸ hj)]
  simp only [tokensAt, hheld] at hone hnone
  have hpending : (s.slave (R.nextslave i)).pending k = false := by
    rw [← Bool.toNat_eq_zero]
    by_cases hj : R.nextslave i = i
    · rw [hj]
      omega
    · have hzero := hnone _ hj
      omega
  refine ⟨hi, fun l j => ?_⟩
  rw [signal_tokens s j l hpending]
  by_cases hl : l = k
  · subst hl
    rw [if_pos rfl, hnext, ← nextslave_slave, ← hi]
    by_cases hj : j = i
    · subst hj
      rw [if_pos rfl, hgone]
      omega
    · have hzero := hnone j hj
      rw [if_neg hj]
      omega
  · have hold := h.token l j
    rw [if_neg hl, hsame l hl, ← hold]
    by_cases hj : j = i
    · subst hj
      rw [if_pos rfl, hothers l hl, tokensAt, Nat.add_zero]
    · rw [if_neg hj, tokensAt, Nat.add_zero]

/-- **The read token** goes to the next slave. -/
theorem Inv.signalRead (h : Inv s r w blk) {i : Fin R.slaves} {b : ℕ}
    (hpc : (s.slave i).pc = .reading b) :
    Inv (s.signal i (.compress b) .usr1) (r + 1) w blk := by
  obtain ⟨hi, htoken⟩ := h.signal_token (k := .usr1) (.compress b) (by rw [hpc]; rfl) rfl
    (fun l hl => by rw [hpc]; cases l <;> first | rfl | exact absurd rfl hl) (r + 1) w rfl
    (fun l hl => by cases l <;> first | rfl | exact absurd rfl hl)
  obtain ⟨hlo, hhi, -⟩ := h.window i
  have hphase := h.phase i
  rw [hpc] at hphase
  obtain ⟨hb, hr⟩ := hphase
  refine ⟨h.window, ⟨by omega, by omega⟩, fun j => ?_, htoken, fun j => ?_, ?_, h.flushed⟩
  · rw [(signal_slave s i j _ _).1]
    by_cases hj : j = i
    · rw [if_pos hj, hj]
      exact ⟨hb, by omega⟩
    · have hne : blk j ≠ r := fun heq => hj (by rw [← (h.window j).2.2, heq, hi, turn])
      have hphase := h.phase j
      rw [if_neg hj]
      cases hpcj : (s.slave j).pc with
      | wait k c =>
        rw [hpcj] at hphase
        cases k <;> simp only [InPhase] at hphase ⊢ <;> omega
      | _ =>
        rw [hpcj] at hphase
        simp only [InPhase] at hphase ⊢
        omega
  · obtain ⟨n, hn⟩ := h.queue j
    refine ⟨n, ?_⟩
    rw [(signal_slave s i j _ _).2.2.2, (signal_slave s i j _ _).1]
    by_cases hj : j = i
    · rw [hj, hpc] at hn
      rw [if_pos hj, hj]
      exact hn
    · rw [if_neg hj]
      exact hn
  · have hwritten : written ((s.signal i (.compress b) .usr1).slave (R.slave w)).pc =
        written (s.slave (R.slave w)).pc := by
      rw [(signal_slave s i _ _ _).1]
      by_cases hj : R.slave w = i
      · rw [if_pos hj, hj, hpc]
        rfl
      · rw [if_neg hj]
    rw [hwritten]
    exact h.tape

/-- **The write token** goes to the next slave. -/
theorem Inv.signalWritten (h : Inv s r w blk) {i : Fin R.slaves} {b : ℕ}
    (hpc : (s.slave i).pc = .done b) :
    Inv (s.signal i .idle .usr2) r (w + 1) (Function.update blk i (w + R.slaves)) := by
  obtain ⟨hi, htoken⟩ := h.signal_token (k := .usr2) .idle (by rw [hpc]; rfl) rfl
    (fun l hl => by rw [hpc]; cases l <;> first | rfl | exact absurd rfl hl) r (w + 1) rfl
    (fun l hl => by cases l <;> first | rfl | exact absurd rfl hl)
  obtain ⟨hwr, hrw⟩ := h.order
  have hphase := h.phase i
  rw [hpc] at hphase
  obtain ⟨hb, hlt, hw⟩ := hphase
  have hne : ∀ j, j ≠ i → blk j ≠ w := fun j hj heq =>
    hj (by rw [← (h.window j).2.2, heq, hi, turn])
  refine ⟨fun j => ?_, ⟨by omega, by omega⟩, fun j => ?_, htoken, fun j => ?_, ?_, ?_⟩
  · by_cases hj : j = i
    · subst hj
      have hpos := R.slaves_pos
      rw [Function.update_self, slave_add_slaves]
      exact ⟨by omega, by omega, hi.symm⟩
    · have := hne j hj
      obtain ⟨hlo, hhi, hslave⟩ := h.window j
      rw [Function.update_of_ne hj]
      exact ⟨by omega, by omega, hslave⟩
  · rw [(signal_slave s i j _ _).1]
    by_cases hj : j = i
    · subst hj
      rw [if_pos rfl, Function.update_self]
      exact hrw
    · have hnot := hne j hj
      have hphase := h.phase j
      rw [if_neg hj, Function.update_of_ne hj]
      cases hpcj : (s.slave j).pc with
      | wait k c =>
        rw [hpcj] at hphase
        cases k <;> simp only [InPhase] at hphase ⊢ <;> omega
      | _ =>
        rw [hpcj] at hphase
        simp only [InPhase] at hphase ⊢
        omega
  · obtain ⟨n, hn⟩ := h.queue j
    refine ⟨n, ?_⟩
    rw [(signal_slave s i j _ _).2.2.2, (signal_slave s i j _ _).1]
    by_cases hj : j = i
    · subst hj
      rw [hpc] at hn
      rw [if_pos rfl, Function.update_self, ← hw]
      exact hn
    · rw [if_neg hj, Function.update_of_ne hj]
      exact hn
  · have hwritten : written ((s.signal i .idle .usr2).slave (R.slave (w + 1))).pc = 0 := by
      rw [(signal_slave s i _ _ _).1]
      by_cases hj : R.slave (w + 1) = i
      · rw [if_pos hj]
        rfl
      · have hphase := h.phase (R.slave (w + 1))
        have hnot := hne _ hj
        rw [if_neg hj]
        cases hpcj : (s.slave (R.slave (w + 1))).pc with
        | wrote c =>
          rw [hpcj] at hphase
          exact absurd hphase.2.2 hnot
        | done c =>
          rw [hpcj] at hphase
          exact absurd hphase.2.2 hnot
        | _ => rfl
    have hone : written (s.slave (R.slave w)).pc = 1 := by
      have hiw : i = R.slave w := hi
      rw [← hiw, hpc]
      rfl
    rw [hwritten, Nat.add_zero, ← hone]
    exact h.tape
  · obtain ⟨n, -, -, hn⟩ := h.queue i
    rw [hpc] at hn
    simp only [nextBlock] at hn
    change w + 1 ≤ s.flushed
    omega

/-- A slave goes on with its block. -/
theorem Inv.move (h : Inv s r w blk) {i : Fin R.slaves} {pc : SlavePc} {results : List ℕ}
    (hphase : InPhase r w (blk i) pc) (hheld : ∀ k, held k pc = held k (s.slave i).pc)
    (hnext : nextBlock R (blk i) pc = nextBlock R (blk i) (s.slave i).pc) {tape : List ℕ}
    (htape : tape = List.range (w + written ((s.set i { s.slave i with
      pc := pc, results := results }).slave (R.slave w)).pc)) :
    Inv { s.set i { s.slave i with pc := pc, results := results } with tape := tape } r w blk := by
  refine h.set hphase (fun k => ?_) ?_ htape
  · simp only [tokensAt, hheld]
  · obtain ⟨n, hn⟩ := h.queue i
    refine ⟨n, ?_⟩
    simp only [hnext]
    exact hn

theorem Inv.compressed (h : Inv s r w blk) {i : Fin R.slaves} {b : ℕ}
    (hpc : (s.slave i).pc = .compress b) :
    Inv (s.set i { s.slave i with pc := .wait .usr2 b }) r w blk := by
  have hphase := h.phase i
  rw [hpc] at hphase
  have hphase' : InPhase r w (blk i) (.wait .usr2 b) := hphase
  refine h.move hphase' (fun k => ?_) ?_ (h.tape_set ?_) <;>
    rw [hpc]
  · cases k <;> rfl
  · rfl
  · rfl

theorem Inv.write (h : Inv s r w blk) {i : Fin R.slaves} {b : ℕ}
    (hpc : (s.slave i).pc = .writing b) :
    Inv { s.set i { s.slave i with pc := .wrote b } with tape := s.tape ++ [b] } r w blk := by
  have hphase := h.phase i
  rw [hpc] at hphase
  obtain ⟨hb, hlt, hw⟩ := hphase
  have hi : i = R.slave w := h.of_token (k := .usr2) (by simp [tokensAt, hpc, held])
  have hphase' : InPhase r w (blk i) (.wrote b) := ⟨hb, hlt, hw⟩
  refine h.move hphase' (fun k => ?_) ?_ ?_
  · rw [hpc]
    cases k <;> rfl
  · rw [hpc]
    rfl
  · rw [h.tape, ← hi, hpc, hb, hw]
    simp [State.set, written, List.range_succ]

theorem Inv.result (h : Inv s r w blk) {i : Fin R.slaves} {b : ℕ}
    (hpc : (s.slave i).pc = .wrote b) :
    Inv (s.set i { s.slave i with pc := .done b, results := (s.slave i).results ++ [b] }) r w
      blk := by
  have hphase := h.phase i
  rw [hpc] at hphase
  have hphase' : InPhase r w (blk i) (.done b) := hphase
  refine h.move hphase' (fun k => ?_) ?_ (h.tape_set ?_) <;>
    rw [hpc]
  · cases k <;> rfl
  · rfl
  · rfl

theorem Inv.send (h : Inv s r w blk) :
    Inv { s.set (R.slave s.flushed) { s.slave (R.slave s.flushed) with
        cmd := (s.slave (R.slave s.flushed)).cmd ++ [s.flushed] } with
      sent := Function.update s.sent (R.slave s.flushed) true
      flushed := s.flushed + 1
      collect := true } r w blk := by
  have hslave : ∀ j, ((s.set (R.slave s.flushed) { s.slave (R.slave s.flushed) with
      cmd := (s.slave (R.slave s.flushed)).cmd ++ [s.flushed] }).slave j) = { s.slave j with
        cmd := if j = R.slave s.flushed then (s.slave j).cmd ++ [s.flushed]
          else (s.slave j).cmd } := by
    intro j
    by_cases hj : j = R.slave s.flushed
    · subst hj
      simp [State.set]
    · simp [State.set, hj]
  have hpos := R.slaves_pos
  refine ⟨h.window, h.order, fun j => ?_, fun k j => ?_, fun j => ?_, ?_, h.flushed.trans
    (Nat.le_succ _)⟩
  · simp only [hslave]
    exact h.phase j
  · simp only [hslave]
    exact h.token k j
  · simp only [hslave]
    obtain ⟨n, hcmd, hle, hlt⟩ := h.queue j
    have hmod : R.slave (nextBlock R (blk j) (s.slave j).pc + n * R.slaves) = j := by
      have hadd : ∀ b n, R.slave (b + n * R.slaves) = R.slave b := by
        intro b n
        induction n with
        | zero => rw [Nat.zero_mul, Nat.add_zero]
        | succ n ih => rw [Nat.succ_mul, ← Nat.add_assoc, slave_add_slaves, ih]
      rw [hadd]
      have hblk := (h.window j).2.2
      cases (s.slave j).pc <;> simp only [nextBlock, slave_add_slaves, hblk]
    by_cases hj : j = R.slave s.flushed
    · have heq : s.flushed = nextBlock R (blk j) (s.slave j).pc + n * R.slaves :=
        slave_inj (R := R) hle (by omega) (by rw [hmod, hj])
      refine ⟨n + 1, ?_, ?_, ?_⟩
      · rw [if_pos hj, List.range_succ, List.map_append, ← hcmd, List.map_singleton, ← heq]
      · change s.flushed + 1 ≤ nextBlock R (blk j) (s.slave j).pc + (n + 1) * R.slaves
        rw [Nat.succ_mul]
        omega
      · change nextBlock R (blk j) (s.slave j).pc + (n + 1) * R.slaves < s.flushed + 1 + R.slaves
        rw [Nat.succ_mul]
        omega
    · have hne : s.flushed ≠ nextBlock R (blk j) (s.slave j).pc + n * R.slaves := fun heq =>
        hj (by rw [heq, hmod])
      refine ⟨n, by rw [if_neg hj]; exact hcmd, ?_, ?_⟩
      · change s.flushed + 1 ≤ nextBlock R (blk j) (s.slave j).pc + n * R.slaves
        omega
      · change nextBlock R (blk j) (s.slave j).pc + n * R.slaves < s.flushed + 1 + R.slaves
        omega
  · simp only [hslave]
    exact h.tape

/-- **Every orderly step keeps the invariant.** -/
theorem Inv.exec (h : Inv s r w blk) {l : R.Label} {s' : R.State} (hl : exec s l = some s')
    (ho : Orderly s l) : ∃ r' w' blk', Inv s' r' w' blk' := by
  cases l with
  | send =>
    simp only [Ring.exec] at hl
    split at hl
    · cases hl
    · exact ⟨r, w, blk, Option.some.inj hl ▸ h.send⟩
  | collect =>
    simp only [Ring.exec] at hl
    split at hl
    · cases hl
    · split at hl
      · rw [← Option.some.inj hl]
        exact ⟨r, w, blk, h.window, h.order, h.phase, h.token, h.queue, h.tape, h.flushed⟩
      · split at hl
        · cases hl
        · rename_i results hresults
          rw [← Option.some.inj hl]
          have hset : Inv (s.set (R.slave s.flushed) { s.slave (R.slave s.flushed) with
              results := results }) r w blk :=
            h.move (h.phase _) (fun _ => rfl) rfl (h.tape_set rfl)
          exact ⟨r, w, blk, hset.window, hset.order, hset.phase, hset.token, hset.queue, hset.tape,
            hset.flushed⟩
  | take i =>
    simp only [Ring.exec] at hl
    split at hl
    · rename_i hpc hcmd
      exact ⟨r, w, blk, Option.some.inj hl ▸ h.take hpc hcmd⟩
    · cases hl
  | pass i =>
    simp only [Ring.exec] at hl
    split at hl
    · rename_i hpc
      split at hl
      · cases hl
      · rename_i hcaught
        exact ⟨r, w, blk, Option.some.inj hl ▸ h.pass hpc hcaught⟩
    · cases hl
  | suspend i order =>
    simp only [Ring.exec] at hl
    split at hl
    · rename_i k b hpc
      split at hl
      · rename_i hcond
        obtain ⟨hcaught, hne, hnodup, h1, h2⟩ := hcond
        have hok : ∀ j m rest, order = j :: m :: rest → j ≠ k := by
          rintro j m rest rfl
          exact ho k b hpc
        exact ⟨r, w, blk, Option.some.inj hl ▸ h.suspend hpc hcaught hne hnodup
          (fun j => by cases j <;> assumption) hok⟩
      · cases hl
    · cases hl
  | signalRead i =>
    simp only [Ring.exec] at hl
    split at hl
    · rename_i hpc
      exact ⟨r + 1, w, blk, Option.some.inj hl ▸ h.signalRead hpc⟩
    · cases hl
  | compressed i =>
    simp only [Ring.exec] at hl
    split at hl
    · rename_i hpc
      exact ⟨r, w, blk, Option.some.inj hl ▸ h.compressed hpc⟩
    · cases hl
  | write i =>
    simp only [Ring.exec] at hl
    split at hl
    · rename_i hpc
      exact ⟨r, w, blk, Option.some.inj hl ▸ h.write hpc⟩
    · cases hl
  | result i =>
    simp only [Ring.exec] at hl
    split at hl
    · rename_i hpc
      exact ⟨r, w, blk, Option.some.inj hl ▸ h.result hpc⟩
    · cases hl
  | signalWritten i =>
    simp only [Ring.exec] at hl
    split at hl
    · rename_i hpc
      exact ⟨r, w + 1, _, Option.some.inj hl ▸ h.signalWritten hpc⟩
    · cases hl

end Ring

end DumpRestore
