import DumpRestore.Dump.RingInvariant

/-!
# When the ring of slaves is safe

* `Inv.lost`: when the awaited signal is the first of two to be handled then the token of the other
  one is lost.
* `safe_iff`: a run is safe if and only if this does not happen.
-/

namespace DumpRestore

namespace Ring

variable {R : Ring} {s : R.State} {r w : ℕ} {blk : Fin R.slaves → ℕ}

/-! ## Runs -/

theorem Inv.safe (h : Inv s r w blk) : Safe s where
  one_writer i j b c hi hj := by
    have hi := h.of_token (i := i) (k := .usr2) (by simp [tokensAt, hi, held])
    have hj := h.of_token (i := j) (k := .usr2) (by simp [tokensAt, hj, held])
    rw [hi, hj]
  in_order := by
    have hflushed := h.flushed
    have hpos := R.slaves_pos
    obtain ⟨n, -, -, hlt⟩ := h.queue (R.slave w)
    obtain ⟨hlo, -, -⟩ := h.window (R.slave w)
    rw [h.tape, List.length_range]
    refine ⟨rfl, ?_⟩
    cases hpc : (s.slave (R.slave w)).pc <;> simp only [hpc, nextBlock, written] at hlt ⊢ <;> omega
  conserved k := by
    simp only [tokens, h.token, due]
    rw [Finset.sum_ite_eq' Finset.univ (R.slave (turn r w k)) fun _ => 1]
    simp

theorem Inv.ownSignal (h : Inv s r w blk) {l : R.Label} {s' : R.State}
    (hl : Ring.exec s l = some s') : OwnSignal s l := by
  cases l with
  | suspend i order =>
    intro k b hpc
    simp only [Ring.exec, hpc] at hl
    split at hl
    · rename_i hcond
      obtain ⟨hcaught, hne, -, h1, h2⟩ := hcond
      have horder : ∀ j, j ∈ order ↔ (s.slave i).pending j = true := fun j => by
        cases j <;> assumption
      obtain ⟨j, hj⟩ := List.exists_mem_of_ne_nil order hne
      exact (horder k).mpr (h.own_pending hpc hcaught ((horder j).mp hj))
    · cases hl
  | _ => trivial

/-- **The other token is lost** when the awaited signal is handled first. -/
theorem Inv.lost (h : Inv s r w blk) {l : R.Label} {s' : R.State} (hl : Ring.exec s l = some s')
    (ho : ¬Orderly s l) : ¬Safe s' := by
  intro hsafe
  match l with
  | .suspend i (j :: m :: rest) =>
    simp only [Orderly, not_forall, not_not] at ho
    obtain ⟨k, b, hpc, rfl⟩ := ho
    simp only [Ring.exec, hpc] at hl
    split at hl
    case isFalse => cases hl
    case isTrue hcond =>
      obtain ⟨hcaught, hne, hnodup, h1, h2⟩ := hcond
      have horder : j :: m :: rest = [j, other j] := by
        rcases order_cases hne hnodup with ⟨c, hc⟩ | ⟨c, hc⟩
        · simp at hc
        · obtain ⟨rfl, -⟩ := List.cons.inj hc
          exact hc
      rw [horder] at hl h1 h2
      have hpend : (s.slave i).pending (other j) = true := by
        cases j
        · exact h2.mp (by simp [other])
        · exact h1.mp (by simp [other])
      have hi := h.of_token (i := i) (k := other j) (by
        simp only [tokensAt, hpend, Bool.toNat_true]
        omega)
      have hone : tokensAt (other j) (s.slave i) = 1 := by rw [h.token, due, if_pos hi]
      have hnone : ∀ c, tokensAt (other j) (s'.slave c) = 0 := by
        intro c
        rw [← Option.some.inj hl]
        by_cases hc : c = i
        · subst hc
          simp only [tokensAt, hpend, Bool.toNat_true] at hone
          have hzero : (s.slave c).caught (other j) = 0 := by omega
          cases j <;> simpa [State.set, tokensAt, leaveWait, afterWait, held, other,
            deliver, proceed, ready] using hzero
        · simp only [State.set, Function.update_of_ne hc]
          rw [h.token, due, if_neg (hi ▸ hc)]
      have htokens := hsafe.conserved (other j)
      simp only [tokens, hnone, Finset.sum_const_zero] at htokens
      cases htokens
  | .suspend _ [] | .suspend _ [_] => exact ho trivial
  | .send | .collect | .take _ | .pass _ | .signalRead _ | .compressed _ | .write _ | .result _
  | .signalWritten _ => exact ho trivial

/-- Every state of the run is safe. -/
def SafeRun (ls : List R.Label) : Prop :=
  ∀ ls₁ s, ls₁ <+: ls → R.run ls₁ = some s → Safe s

/-- No wait is ended by the other signal alone. -/
def OwnSignals (ls : List R.Label) : Prop :=
  ∀ ls₁ l s s', ls₁ ++ [l] <+: ls → R.run ls₁ = some s → exec s l = some s' → OwnSignal s l

/-- Whenever two signals are handled, the awaited one is not the first. -/
def OrderlyRun (ls : List R.Label) : Prop :=
  ∀ ls₁ l s s', ls₁ ++ [l] <+: ls → R.run ls₁ = some s → exec s l = some s' → Orderly s l

theorem run_concat (ls : List R.Label) (l : R.Label) :
    R.run (ls ++ [l]) = (R.run ls).bind fun s => exec s l := by
  simp only [run, List.foldlM_append, List.foldlM_cons, List.foldlM_nil]
  cases ls.foldlM exec R.init with
  | none => rfl
  | some s => cases hexec : exec s l <;> simp [hexec]

/-- The invariant holds as long as all steps are orderly. -/
theorem inv_run {ls ls₁ : List R.Label} (hpre : ls₁ <+: ls)
    (horderly : ∀ ls₁ l s s' r w blk, ls₁ ++ [l] <+: ls → R.run ls₁ = some s → Inv s r w blk →
      exec s l = some s' → Orderly s l) (hrun : R.run ls₁ = some s) :
    ∃ r w blk, Inv s r w blk := by
  induction ls₁ using List.reverseRecOn generalizing s with
  | nil =>
    obtain rfl : R.init = s := Option.some.inj hrun
    exact ⟨0, 0, _, inv_init R⟩
  | append_singleton ls₁ l ih =>
    rw [run_concat] at hrun
    obtain ⟨s₁, hs₁, hexec⟩ := Option.bind_eq_some_iff.mp hrun
    obtain ⟨r, w, blk, h⟩ := ih ((List.prefix_append _ _).trans hpre) hs₁
    exact h.exec hexec (horderly ls₁ l s₁ s r w blk hpre hs₁ h hexec)

/-- **When the ring is safe.** In every state of a run at most one slave writes, the tape has the
blocks in the order of the master and no token is lost, and no wait is ended by the other signal
alone, if and only if the awaited signal is never the first of two that are handled together. -/
theorem safe_iff (ls : List R.Label) : SafeRun ls ∧ OwnSignals ls ↔ OrderlyRun ls := by
  constructor
  · rintro ⟨hsafe, -⟩
    have hstep : ∀ ls₁ l s s' r w blk, ls₁ ++ [l] <+: ls → R.run ls₁ = some s → Inv s r w blk →
        exec s l = some s' → Orderly s l := by
      intro ls₁ l s s' r w blk hpre hrun h hexec
      by_contra ho
      exact h.lost hexec ho (hsafe _ s' hpre (by rw [run_concat, hrun]; exact hexec))
    intro ls₁ l s s' hpre hrun hexec
    obtain ⟨r, w, blk, h⟩ := inv_run ((List.prefix_append _ _).trans hpre) hstep hrun
    exact hstep ls₁ l s s' r w blk hpre hrun h hexec
  · intro ho
    have hstep : ∀ ls₁ l s s' r w blk, ls₁ ++ [l] <+: ls → R.run ls₁ = some s → Inv s r w blk →
        exec s l = some s' → Orderly s l :=
      fun ls₁ l s s' _ _ _ hpre hrun _ hexec => ho ls₁ l s s' hpre hrun hexec
    refine ⟨fun ls₁ s hpre hrun => ?_, fun ls₁ l s s' hpre hrun hexec => ?_⟩
    · obtain ⟨r, w, blk, h⟩ := inv_run hpre hstep hrun
      exact h.safe
    · obtain ⟨r, w, blk, h⟩ := inv_run ((List.prefix_append _ _).trans hpre) hstep hrun
      exact h.ownSignal hexec

/-- The ring of `SLAVES` slaves. -/
def three : Ring := ⟨3, by decide, 0⟩

/-- Slave 1 compresses block 1 until the write token comes from slave 0, and the read token too,
round the ring. -/
def slowSlave : List three.Label :=
  [.send, .collect, .send, .collect, .take ⟨0, by decide⟩, .pass ⟨0, by decide⟩,
    .signalRead ⟨0, by decide⟩, .take ⟨1, by decide⟩, .suspend ⟨1, by decide⟩ [.usr1],
    .signalRead ⟨1, by decide⟩, .send, .take ⟨2, by decide⟩, .suspend ⟨2, by decide⟩ [.usr1],
    .signalRead ⟨2, by decide⟩, .compressed ⟨0, by decide⟩, .pass ⟨0, by decide⟩,
    .write ⟨0, by decide⟩, .result ⟨0, by decide⟩, .signalWritten ⟨0, by decide⟩, .collect, .send,
    .take ⟨0, by decide⟩, .suspend ⟨0, by decide⟩ [.usr1], .signalRead ⟨0, by decide⟩,
    .compressed ⟨1, by decide⟩, .suspend ⟨1, by decide⟩ [.usr2, .usr1]]

/-- **The read token is lost.** -/
theorem not_safe_slowSlave :
    ¬∀ (R : Ring) (ls : List R.Label), SafeRun ls ∧ OwnSignals ls := by
  intro h
  have hlost : (three.run slowSlave).map (tokens .usr1) = some 0 := by decide
  obtain ⟨s, hrun, hzero⟩ := Option.map_eq_some_iff.mp hlost
  have hone := ((h three slowSlave).1 slowSlave s (List.prefix_refl _) hrun).conserved .usr1
  rw [hzero] at hone
  cases hone

end Ring

end DumpRestore
