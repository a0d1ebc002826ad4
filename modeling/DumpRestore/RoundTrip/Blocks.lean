import DumpRestore.Dump.Compress
import DumpRestore.Restore.Blocks

/-!
# Readers of blocks

What the two functions behind `readtape` have in common, and the one for uncompressed blocks.

* `Delivers` says of an invariant that a reader with it returns the records in order.
* `Uncompr` is the invariant of `readtape_uncompr`.
-/

namespace DumpRestore

open ByteOrder

namespace Reader

/-! ## Records in the buffer -/

/-- The records `rs` follow in the buffer. -/
def Holds (r : Reader) (rs : List Block) : Prop :=
  r.active.read (r.blkcnt * tpBsize) (rs.length * tpBsize) = bytes rs

theorem Holds.take {r : Reader} {c : Block} {cs : List Block} (h : r.Holds (c :: cs)) :
    r.take.1 = c.bytes ∧ r.take.2.Holds cs := by
  rw [Holds, List.length_cons, Nat.add_comm, Nat.add_mul, one_mul, Mem.read_add, bytes_cons] at h
  obtain ⟨hc, hcs⟩ := List.append_inj h (by simp)
  refine ⟨hc, ?_⟩
  rw [Holds, ← hcs, Reader.take, Nat.add_mul, one_mul]
  rfl

/-! ## Runs -/

section Run

variable (lib : CompressLib) (m : Order)

/-- The invariant `inv` of a reader that has delivered `k` records and will deliver `rs`: the next
record is the first of `rs`. -/
def Delivers (inv : ℕ → List Block → Reader → Prop) : Prop :=
  ∀ k c cs r, inv k (c :: cs) r → ∃ s, readtape lib m r = some (c.bytes, s) ∧ inv (k + 1) cs s ∧
    s.blksread = r.blksread + 1 ∧ s.tpblksread = r.tpblksread + 1

/-- A reader with such an invariant reads the records in order. -/
theorem Delivers.readRecs {inv : ℕ → List Block → Reader → Prop} (hinv : Delivers lib m inv)
    {n k : ℕ} {rs : List Block} {r : Reader} (hr : inv k rs r) (hn : n ≤ rs.length) :
    ∃ s, readRecs lib m n r = some ((rs.take n).map Block.bytes, s) ∧ inv (k + n) (rs.drop n) s ∧
      s.blksread = r.blksread + n ∧ s.tpblksread = r.tpblksread + n := by
  induction n generalizing k rs r with
  | zero => exact ⟨r, rfl, hr, rfl, rfl⟩
  | succ n ih =>
    cases rs with
    | nil => simp at hn
    | cons c cs =>
      obtain ⟨r', hread, hr', hb, htp⟩ := hinv k c cs r hr
      obtain ⟨s, hrest, hs, hb', htp'⟩ := ih hr' (by simpa using hn)
      refine ⟨s, ?_, by rwa [List.drop_succ_cons, Nat.add_comm n, ← Nat.add_assoc], by omega,
        by omega⟩
      simp only [Reader.readRecs, hread, hrest, Option.bind_eq_bind, Option.bind_some]
      rfl

end Run

/-- The position in blocks of `n` records after `k` records. -/
def position (n k : ℕ) : ℕ := if k = 0 then 0 else (k - 1) % n + 1

theorem position_succ {n k : ℕ} (h : position n k < n) : position n (k + 1) = position n k + 1 := by
  rw [position, if_neg (Nat.succ_ne_zero k), Nat.add_sub_cancel]
  cases k with
  | zero => simp [position]
  | succ k =>
    rw [position, if_neg (Nat.succ_ne_zero k), Nat.add_sub_cancel] at h ⊢
    rw [Nat.add_mod, Nat.mod_eq_of_lt (show 1 < n by omega), Nat.mod_eq_of_lt h]

/-- At the end of a block a new one begins. -/
theorem position_succ_of_le {n k : ℕ} (hn : 0 < n) (h : n ≤ position n k) :
    n ∣ k ∧ position n (k + 1) = 1 := by
  have hdvd : n ∣ k := by
    cases k with
    | zero => exact Nat.dvd_zero n
    | succ k =>
      rw [position, if_neg (Nat.succ_ne_zero k), Nat.add_sub_cancel] at h
      have hlt := Nat.mod_lt k hn
      have hmod : k % n = n - 1 := by omega
      rw [Nat.dvd_iff_mod_eq_zero, ← Nat.mod_add_mod, hmod, Nat.sub_add_cancel hn, Nat.mod_self]
  refine ⟨hdvd, ?_⟩
  rw [position, if_neg (Nat.succ_ne_zero k), Nat.add_sub_cancel, Nat.mod_eq_zero_of_dvd hdvd]

/-! ## The choice of the function -/

/-- The reader after `readtape_set`, if that is still to be called. -/
def ready (r : Reader) : Reader := if r.readtapeFunc = .set then r.readtapeSet else r

theorem ready_of_ne_set {r : Reader} (h : r.readtapeFunc ≠ .set) : r.ready = r := if_neg h

/-- The choice changes no counter. -/
theorem ready_counters (r : Reader) : r.ready.blkcnt = r.blkcnt ∧ r.ready.numtrec = r.numtrec ∧
    r.ready.blksread = r.blksread ∧ r.ready.tpblksread = r.tpblksread := by
  rw [ready, readtapeSet, newcomprbuf]
  split
  · split <;> exact ⟨rfl, rfl, rfl, rfl⟩
  · exact ⟨rfl, rfl, rfl, rfl⟩

/-- It is enough to look at the reader after that choice, and at the state `r'` in which it takes
the record from its buffer. -/
theorem delivers_ready {lib : CompressLib} {m : Order} (inv : ℕ → List Block → Reader → Prop)
    (hset : ∀ k rs r, inv k rs r → r.readtapeFunc ≠ .set)
    (hnext : ∀ k c cs r, inv k (c :: cs) r → ∃ r' : Reader, readtape lib m r = some r'.take ∧
      r'.take.1 = c.bytes ∧ inv (k + 1) cs r'.take.2 ∧ r'.blksread = r.blksread ∧
      r'.tpblksread = r.tpblksread) :
    Delivers lib m fun k rs r => inv k rs r.ready := by
  intro k c cs r h
  obtain ⟨-, -, hb, htp⟩ := ready_counters r
  obtain ⟨r', hread, hc, hs, hb', htp'⟩ := hnext k c cs r.ready h
  have hready : readtape lib m r = readtape lib m r.ready := by
    rw [readtape, readtape, if_neg (hset _ _ _ h)]
    rfl
  refine ⟨r'.take.2, by rw [hready, hread, ← hc], ?_, ?_, ?_⟩
  · dsimp only
    rwa [ready_of_ne_set (hset _ _ _ hs)]
  · rw [← hb, ← hb']
    rfl
  · rw [← htp, ← htp']
    rfl

/-! ## The reader of uncompressed blocks -/

section Uncompr

variable (n : ℕ)

/-- Between two records of an uncompressed volume, read in blocks of `n` records, when `k` records
have been read and `rs` are left. Only the last block of a file may be short. -/
structure Uncompr (k : ℕ) (rs : List Block) (r : Reader) : Prop where
  func : r.readtapeFunc = .uncompr
  holds : r.Holds (rs.take (r.numtrec - r.blkcnt))
  input : r.input.bytes = bytes (rs.drop (r.numtrec - r.blkcnt))
  ntrec : r.ntrec = n
  numtrec_le : r.numtrec ≤ n
  short : r.numtrec < n → r.input.bytes = []
  full : n ∣ k + rs.length → r.numtrec = n

variable {n}

/-- A record from the buffer. -/
theorem Uncompr.take {k : ℕ} {c : Block} {cs : List Block} {r : Reader}
    (h : Uncompr n k (c :: cs) r) (hcnt : r.blkcnt < r.numtrec) :
    r.take.1 = c.bytes ∧ Uncompr n (k + 1) cs r.take.2 := by
  have hsub : r.numtrec - r.blkcnt = r.numtrec - (r.blkcnt + 1) + 1 := by omega
  have hholds := h.holds
  have hinput := h.input
  rw [hsub, List.take_succ_cons] at hholds
  rw [hsub, List.drop_succ_cons] at hinput
  refine ⟨hholds.take.1, { h with
    holds := hholds.take.2
    input := hinput
    full := fun hdvd => h.full ?_ }⟩
  rwa [List.length_cons, Nat.add_comm cs.length, ← Nat.add_assoc]

/-- One block of an uncompressed volume, or what is left of it. -/
theorem read_block (n : ℕ) (input : Input) (rs : List Block) (h : input.bytes = bytes rs) :
    ∃ input' : Input, (if input.pipein then input.readABlock (n * tpBsize) (n * tpBsize)
        else input.read (n * tpBsize)) = (bytes (rs.take n), input') ∧
      input'.bytes = bytes (rs.drop n) ∧ input'.pipein = input.pipein := by
  rw [bytes_take, bytes_drop, ← h]
  cases input with
  | file bs => exact ⟨_, rfl, rfl, rfl⟩
  | pipe ks bs => exact Input.readABlock_spec _ le_rfl _

/-- Before the end of the volume only whole blocks are used up. -/
theorem Uncompr.numtrec_eq {k : ℕ} {rs : List Block} {r : Reader} (h : Uncompr n k rs r)
    (hrs : rs ≠ []) (hcnt : r.numtrec ≤ r.blkcnt) : r.numtrec = n := by
  have hpos := List.length_pos_of_ne_nil hrs
  have hinput := h.input
  rw [Nat.sub_eq_zero_of_le hcnt, List.drop_zero] at hinput
  have hle := h.numtrec_le
  by_contra hne
  have hnil := congrArg List.length (hinput.symm.trans (h.short (by omega)))
  rw [length_bytes, List.length_nil, tpBsize] at hnil
  omega

/-- The next block: what `readtape_uncompr` has in its buffer when it takes the first record. -/
theorem Uncompr.refill {k : ℕ} {rs : List Block} {r : Reader} (hn : 0 < n) (hrs : rs ≠ [])
    (h : Uncompr n k rs r) (hcnt : r.numtrec ≤ r.blkcnt) (hdvd : n ∣ k) :
    ∃ r' : Reader, r.readtapeUncompr = some r'.take ∧ Uncompr n k rs r' ∧ r'.blkcnt = 0 ∧
      0 < r'.numtrec ∧ r'.blksread = r.blksread ∧ r'.tpblksread = r.tpblksread := by
  have hpos := List.length_pos_of_ne_nil hrs
  have hnum := h.numtrec_eq hrs hcnt
  have hinput := h.input
  rw [Nat.sub_eq_zero_of_le hcnt, List.drop_zero] at hinput
  obtain ⟨input', heq, hin, -⟩ := read_block n r.input rs hinput
  have hgot : bytes (rs.take n) ≠ [] := by
    refine List.ne_nil_of_length_pos ?_
    rw [length_bytes, List.length_take, tpBsize]
    omega
  -- how many records have come: a block, or what is left of a file
  obtain ⟨num, hnumtrec, hcase⟩ : ∃ num, (if r.input.pipein then n else
      if (bytes (rs.take n)).length ≠ n * tpBsize then (bytes (rs.take n)).length / tpBsize
      else max n n) = num ∧ (num = n ∨ num = rs.length ∧ rs.length < n) := by
    refine ⟨_, rfl, ?_⟩
    rw [length_bytes, List.length_take, max_self, Nat.mul_div_cancel _ (by decide : 0 < tpBsize)]
    split
    · exact .inl rfl
    · split
      · next hne => exact .inr (by have := mt (congrArg (· * tpBsize)) hne; omega)
      · exact .inl rfl
  have htake : rs.take num = rs.take n ∧ rs.drop num = rs.drop n := by
    rcases hcase with rfl | ⟨rfl, hlt⟩
    · exact ⟨rfl, rfl⟩
    · rw [List.take_length, List.take_of_length_le hlt.le, List.drop_length,
        List.drop_of_length_le hlt.le]
      exact ⟨rfl, rfl⟩
  rw [readtapeUncompr, if_neg (by omega), h.ntrec, hnum, if_neg (by omega)]
  simp only [heq, if_neg hgot, hnumtrec]
  refine ⟨_, rfl, { h with
    holds := ?_
    input := ?_
    ntrec := rfl
    numtrec_le := ?_
    short := fun hlt => ?_
    full := fun hfull => ?_ }, rfl, ?_, rfl, rfl⟩
  · change (Mem.shift (Mem.write _ 0 (bytes (rs.take n))) 0).read (0 * tpBsize) _ = _
    rw [Nat.sub_zero, htake.1, Nat.zero_mul, Mem.read_shift, ← length_bytes, Mem.read_write]
  · change input'.bytes = bytes (rs.drop (num - 0))
    rw [Nat.sub_zero, htake.2, hin]
  · change num ≤ n
    omega
  · change num < n at hlt
    change input'.bytes = []
    rw [hin, List.drop_of_length_le (by omega)]
    rfl
  · change num = n
    have := Nat.le_of_dvd hpos ((Nat.dvd_add_right hdvd).mp hfull)
    omega
  · change 0 < num
    omega

/-- The next record of an uncompressed volume. -/
theorem Uncompr.next {lib : CompressLib} {m : Order} {k : ℕ} {c : Block} {cs : List Block}
    {r : Reader} (hn : 0 < n) (h : Uncompr n k (c :: cs) r) (hpos : r.blkcnt = position n k) :
    ∃ r' : Reader, readtape lib m r = some r'.take ∧ Uncompr n k (c :: cs) r' ∧
      r'.blkcnt < r'.numtrec ∧ r'.blkcnt + 1 = position n (k + 1) ∧
      r'.blksread = r.blksread ∧ r'.tpblksread = r.tpblksread := by
  have hread : readtape lib m r = r.readtapeUncompr := by
    rw [readtape, if_neg (by rw [h.func]; decide)]
    simp only [h.func]
  have hle := h.numtrec_le
  by_cases hcnt : r.blkcnt < r.numtrec
  · refine ⟨r, ?_, h, hcnt, ?_, rfl, rfl⟩
    · rw [hread, readtapeUncompr, if_pos hcnt]
    · rw [position_succ (by omega), hpos]
  · have hnum := h.numtrec_eq (List.cons_ne_nil c cs) (by omega)
    obtain ⟨hdvd, hone⟩ := position_succ_of_le hn (k := k) (by omega)
    obtain ⟨r', heq, hr', hzero, hnum, hb, htp⟩ :=
      h.refill hn (List.cons_ne_nil c cs) (by omega) hdvd
    refine ⟨r', hread.trans heq, hr', by omega, ?_, hb, htp⟩
    rw [hzero, hone]

/-- The records of the buffer and of the input are delivered. -/
theorem delivers_uncompr {lib : CompressLib} {m : Order} (hn : 0 < n) :
    Delivers lib m fun k rs r => r.ready.blkcnt = position n k ∧ Uncompr n k rs r.ready := by
  refine delivers_ready (fun k rs r => r.blkcnt = position n k ∧ Uncompr n k rs r) ?_ ?_
  · rintro k rs r ⟨-, h⟩
    rw [h.func]
    decide
  · rintro k c cs r ⟨hpos, h⟩
    obtain ⟨r', hread, h', hcnt, hpos', hb, htp⟩ := h.next hn hpos
    exact ⟨r', hread, (h'.take hcnt).1, ⟨hpos', (h'.take hcnt).2⟩, hb, htp⟩

end Uncompr

end Reader

end DumpRestore
