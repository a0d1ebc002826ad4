import DumpRestore.RoundTrip.Compressed

/-!
# Volumes of any length

`readtape_uncompr` knows from `numtrec` how many records its buffer has. `findtapeblksize` sets
`numtrec` to the records of a block, whatever it has read, and at the end of a pipe
`readtape_uncompr` leaves it there. A file that ends less than a record after a block gives one more
record.

* `Counting` and `pending`: the number of the records that come, for any volume.
* `Aligned`: where a volume may end.
* `exact_iff`: the records of a volume come once each if and only if it ends there.
-/

namespace DumpRestore

open ByteOrder

namespace Reader

/-! ## Blocks and what they give -/

/-- The value of `numtrec` after a block of `n` records was read from `len` bytes of input. -/
def blockRecords (pipein : Bool) (n len : ℕ) : ℕ :=
  if pipein ∨ n * tpBsize ≤ len then n else len / tpBsize

/-- The number of records that are taken from `len` bytes of input, in blocks of `n` records. -/
def recordsOf (pipein : Bool) (n len : ℕ) : ℕ :=
  if pipein then (len + (n * tpBsize - 1)) / (n * tpBsize) * n
  else len / (n * tpBsize) * n +
    if len % (n * tpBsize) = 0 then 0 else max 1 (len % (n * tpBsize) / tpBsize)

/-- Where a volume of `len` bytes may end: a pipe after a block, a file after a block or a record
of a block, with less than a record after that. -/
def Aligned (pipein : Bool) (n len : ℕ) : Prop :=
  if pipein then n * tpBsize ∣ len
  else len % (n * tpBsize) = 0 ∨ tpBsize ≤ len % (n * tpBsize)

instance (pipein : Bool) (n len : ℕ) : Decidable (Aligned pipein n len) := by
  unfold Aligned
  infer_instance

section Counts

variable {pipein : Bool} {n len : ℕ}

theorem recordsOf_zero (hn : 0 < n) : recordsOf pipein n 0 = 0 := by
  have hpos : 0 < n * tpBsize := Nat.mul_pos hn (by decide)
  have hdiv : (0 + (n * tpBsize - 1)) / (n * tpBsize) = 0 := Nat.div_eq_of_lt (by omega)
  cases pipein
  · simp [recordsOf]
  · simp only [recordsOf, if_true, hdiv, Nat.zero_mul]

/-- The records of the next block, of which at least one is taken, and those of the rest. -/
theorem recordsOf_block (hn : 0 < n) (hlen : 0 < len) :
    recordsOf pipein n len =
      max 1 (blockRecords pipein n len) + recordsOf pipein n (len - n * tpBsize) := by
  have hpos : 0 < n * tpBsize := Nat.mul_pos hn (by decide)
  by_cases hle : n * tpBsize ≤ len
  · obtain ⟨k, rfl⟩ := Nat.exists_eq_add_of_le' hle
    rw [blockRecords, if_pos (.inr hle), Nat.add_sub_cancel, Nat.max_eq_right hn]
    cases pipein
    · simp only [recordsOf, Bool.false_eq_true, if_false, Nat.add_div_right k hpos,
        Nat.add_mod_right, Nat.succ_mul]
      omega
    · have hdiv : (k + n * tpBsize + (n * tpBsize - 1)) / (n * tpBsize) =
          (k + (n * tpBsize - 1)) / (n * tpBsize) + 1 := by
        rw [Nat.add_right_comm, Nat.add_div_right _ hpos]
      simp only [recordsOf, if_true, hdiv, Nat.add_mul, one_mul]
      omega
  · rw [Nat.sub_eq_zero_of_le (Nat.le_of_not_le hle), recordsOf_zero hn, Nat.add_zero]
    cases pipein
    · simp only [recordsOf, blockRecords, Bool.false_eq_true, if_false, false_or, if_neg hle,
        Nat.div_eq_of_lt (Nat.lt_of_not_le hle), Nat.mod_eq_of_lt (Nat.lt_of_not_le hle),
        if_neg hlen.ne', Nat.zero_mul, Nat.zero_add]
    · have hdiv : (len + (n * tpBsize - 1)) / (n * tpBsize) = 1 :=
        Nat.div_eq_of_lt_le (by omega) (by omega)
      simp only [recordsOf, blockRecords, if_true, true_or, hdiv, one_mul, Nat.max_eq_right hn]

/-- The first block, of which all the records are taken, and the others make the whole records of
the volume only if that ends at a good place. -/
theorem aligned_of_recordsOf (hn : 0 < n)
    (h : n + recordsOf pipein n (len - n * tpBsize) = len / tpBsize) :
    n * tpBsize ≤ len ∧ Aligned pipein n len := by
  have hpos : 0 < n * tpBsize := Nat.mul_pos hn (by decide)
  have hle : n * tpBsize ≤ len := by
    by_contra hlt
    have := (Nat.div_lt_iff_lt_mul (by decide)).mpr (Nat.lt_of_not_le hlt)
    omega
  refine ⟨hle, ?_⟩
  obtain ⟨k, rfl⟩ := Nat.exists_eq_add_of_le' hle
  have hlt := Nat.mod_lt k hpos
  have hrec : k % (n * tpBsize) / tpBsize < n := (Nat.div_lt_iff_lt_mul (by decide)).mpr hlt
  have hk : k / tpBsize = k / (n * tpBsize) * n + k % (n * tpBsize) / tpBsize := by
    conv_lhs => rw [← Nat.div_add_mod' k (n * tpBsize), ← Nat.mul_assoc, Nat.add_comm]
    rw [Nat.add_mul_div_right _ _ (by decide), Nat.add_comm]
  rw [Nat.add_sub_cancel, Nat.add_mul_div_right _ _ (by decide), Nat.add_comm, hk] at h
  have h := Nat.add_right_cancel h
  rw [Aligned, Nat.add_mod_right, Nat.dvd_add_self_right, Nat.dvd_iff_mod_eq_zero]
  cases pipein
  · simp only [recordsOf, Bool.false_eq_true, if_false] at h ⊢
    split at h
    · next hzero => exact .inl hzero
    · have hone : 1 ≤ k % (n * tpBsize) / tpBsize := by omega
      exact .inr (by simpa using (Nat.le_div_iff_mul_le (by decide)).mp hone)
  · by_contra hne
    simp only [if_true] at hne
    have hdiv : (k + (n * tpBsize - 1)) / (n * tpBsize) = k / (n * tpBsize) + 1 := by
      have hk := Nat.div_add_mod' k (n * tpBsize)
      refine Nat.div_eq_of_lt_le ?_ ?_
      all_goals
        simp only [Nat.add_mul, one_mul]
        omega
    simp only [recordsOf, if_true, hdiv, Nat.add_mul, one_mul] at h
    omega

end Counts

/-! ## One block -/

/-- Between two records of an uncompressed volume that is read in blocks of `n` records. -/
structure Counting (n : ℕ) (r : Reader) : Prop where
  func : r.readtapeFunc = .uncompr
  ntrec : r.ntrec = n
  numtrec_le : r.numtrec ≤ n
  pipe : r.input.pipein = true → r.numtrec = n

variable {n : ℕ}

theorem Counting.take {r : Reader} (h : Counting n r) : Counting n r.take.2 :=
  ⟨h.func, h.ntrec, h.numtrec_le, h.pipe⟩

/-- The state in which `readtape_uncompr` takes the first record of the next block. -/
structure Refilled (n : ℕ) (r r' : Reader) : Prop extends Counting n r' where
  blkcnt : r'.blkcnt = 0
  numtrec : r'.numtrec = blockRecords r.input.pipein n r.input.bytes.length
  buffer : r'.active.read 0 (min (n * tpBsize) r.input.bytes.length) =
    r.input.bytes.take (n * tpBsize)
  input : r'.input.bytes = r.input.bytes.drop (n * tpBsize)
  pipein : r'.input.pipein = r.input.pipein

/-- The next bytes of the input, as the two ways of reading them. -/
theorem read_bytes (len : ℕ) (input : Input) :
    ∃ input' : Input, (if input.pipein then input.readABlock len len else input.read len) =
        (input.bytes.take len, input') ∧
      input'.bytes = input.bytes.drop len ∧ input'.pipein = input.pipein := by
  cases input with
  | file bs => exact ⟨_, rfl, rfl, rfl⟩
  | pipe ks bs => exact Input.readABlock_spec _ le_rfl _

/-- `readtape_uncompr` ends the volume where the input ends, and fills its buffer otherwise. -/
theorem Counting.refill {r : Reader} (hn : 0 < n) (h : Counting n r)
    (hcnt : r.numtrec ≤ r.blkcnt) :
    (r.input.bytes = [] ∧ r.readtapeUncompr = none) ∨
      r.input.bytes ≠ [] ∧ ∃ r', r.readtapeUncompr = some r'.take ∧ Refilled n r r' := by
  have hpos : 0 < n * tpBsize := Nat.mul_pos hn (by decide)
  obtain ⟨input, hread, hinput, hpipein⟩ := read_bytes (n * tpBsize) r.input
  have hle := h.numtrec_le
  rw [readtapeUncompr, if_neg (Nat.not_lt.mpr hcnt), h.ntrec]
  simp only [hread]
  by_cases hend : r.input.bytes = []
  · exact .inl ⟨hend, by simp [hend]⟩
  refine .inr ⟨hend, ?_⟩
  have hgot : r.input.bytes.take (n * tpBsize) ≠ [] := by
    simp only [ne_eq, List.take_eq_nil_iff, hend, or_false]
    omega
  rw [if_neg hgot]
  -- the value of `numtrec`: after a whole block and in a pipe it is `n`
  have hnum : (if r.input.pipein then if r.numtrec = 0 then n else r.numtrec
      else if (r.input.bytes.take (n * tpBsize)).length ≠ n * tpBsize
        then (r.input.bytes.take (n * tpBsize)).length / tpBsize
        else max (if r.numtrec = 0 then n else r.numtrec) n) =
      blockRecords r.input.pipein n r.input.bytes.length := by
    rw [List.length_take, blockRecords]
    cases hpipe : r.input.pipein with
    | true =>
      have := h.pipe hpipe
      simp only [if_true, true_or]
      split <;> omega
    | false =>
      simp only [Bool.false_eq_true, if_false, false_or]
      by_cases hwhole : n * tpBsize ≤ r.input.bytes.length
      · rw [Nat.min_eq_left hwhole, if_neg (not_not.mpr rfl), if_pos hwhole]
        split <;> omega
      · rw [Nat.min_eq_right (Nat.le_of_not_le hwhole), if_pos (by omega), if_neg hwhole]
  rw [hnum]
  refine ⟨_, rfl, ⟨h.func, rfl, ?_, fun hpipe => ?_⟩, rfl, rfl, ?_, hinput, hpipein⟩
  · change blockRecords _ _ _ ≤ n
    rw [blockRecords]
    split
    · exact le_rfl
    · next hnot =>
      exact ((Nat.div_lt_iff_lt_mul (by decide)).mpr (Nat.lt_of_not_le (not_or.mp hnot).2)).le
  · change blockRecords _ _ _ = n
    rw [blockRecords, if_pos (.inl (hpipein.symm.trans hpipe))]
  · change (Mem.shift (Mem.write _ 0 _) 0).read 0 _ = _
    rw [Mem.read_shift, ← List.length_take, Mem.read_write]

/-! ## The number of the records -/

/-- The number of records that the reader still returns. -/
def pending (n : ℕ) (r : Reader) : ℕ :=
  r.numtrec - r.blkcnt + recordsOf r.input.pipein n r.input.bytes.length

/-- One call of `readtape_uncompr` uses up one of them. -/
theorem Counting.step {r : Reader} (hn : 0 < n) (h : Counting n r) :
    (r.pending n = 0 ∧ r.readtapeUncompr = none) ∨
      ∃ rec r', r.readtapeUncompr = some (rec, r') ∧ Counting n r' ∧
        r'.pending n + 1 = r.pending n := by
  by_cases hcnt : r.blkcnt < r.numtrec
  · refine .inr ⟨_, _, by rw [readtapeUncompr, if_pos hcnt], h.take, ?_⟩
    simp only [pending, Reader.take]
    omega
  · obtain ⟨hend, hnone⟩ | ⟨hne, r', heq, hr'⟩ := h.refill hn (Nat.le_of_not_lt hcnt)
    · refine .inl ⟨?_, hnone⟩
      rw [pending, hend, List.length_nil, recordsOf_zero hn]
      omega
    · refine .inr ⟨_, _, heq, hr'.toCounting.take, ?_⟩
      have hlen := List.length_pos_of_ne_nil hne
      simp only [pending, hr'.blkcnt, hr'.numtrec, hr'.input, hr'.pipein,
        List.length_drop, recordsOf_block hn hlen]
      omega

section Run

variable (lib : CompressLib) (m : Order)

/-- `readtape` chooses the function first. -/
theorem readtape_ready (r : Reader) : readtape lib m r = readtape lib m r.ready := by
  have hne : r.ready.readtapeFunc ≠ .set := by
    rw [ready, readtapeSet]
    split
    · split
      · exact ReadtapeFunc.noConfusion
      · exact ReadtapeFunc.noConfusion
    · assumption
  rw [readtape, readtape, if_neg hne]
  rfl

theorem Counting.readtape_eq {r : Reader} (h : Counting n r) :
    readtape lib m r = r.readtapeUncompr := by
  rw [readtape, if_neg (by rw [h.func]; decide)]
  simp only [h.func]

/-- A run of `k` calls uses up `k` of them. -/
theorem Counting.run {k : ℕ} {r s : Reader} {recs : List (List UInt8)} (hn : 0 < n)
    (h : Counting n r) (hrun : readRecs lib m k r = some (recs, s)) :
    Counting n s ∧ s.pending n + k = r.pending n := by
  induction k generalizing r recs with
  | zero =>
    obtain ⟨-, rfl⟩ := Prod.mk.inj (Option.some.inj hrun)
    exact ⟨h, rfl⟩
  | succ k ih =>
    rw [readRecs, h.readtape_eq lib m] at hrun
    obtain ⟨-, hnone⟩ | ⟨rec, r', heq, hr', hpending⟩ := h.step hn
    · simp [hnone] at hrun
    · simp only [heq, Option.bind_eq_bind, Option.bind_some] at hrun
      obtain ⟨⟨recs', s'⟩, hrun', hs⟩ := Option.bind_eq_some_iff.mp hrun
      obtain ⟨-, rfl⟩ := Prod.mk.inj (Option.some.inj hs)
      obtain ⟨hcount, hsum⟩ := ih hr' hrun'
      exact ⟨hcount, by omega⟩

/-- When the volume has ended, there are none. -/
theorem Counting.pending_of_none {r : Reader} (hn : 0 < n) (h : Counting n r)
    (hnone : readtape lib m r = none) : r.pending n = 0 := by
  rw [h.readtape_eq lib m] at hnone
  obtain ⟨hzero, -⟩ | ⟨_, _, heq, -⟩ := h.step hn
  · exact hzero
  · rw [hnone] at heq
    cases heq

end Run

/-! ## The records themselves -/

/-- The record at position `k` of a volume. -/
def record (vol : List UInt8) (k : ℕ) : List UInt8 := (vol.drop (k * tpBsize)).take tpBsize

/-- The whole records of a volume, in order. -/
def wholeRecords (vol : List UInt8) : List (List UInt8) :=
  (List.range (vol.length / tpBsize)).map (record vol)

/-- Between two records of the volume `vol`, which ends at a good place: `k` records have been
returned. What follows the last whole record is dropped with its block. -/
structure Whole (n : ℕ) (vol : List UInt8) (k : ℕ) (r : Reader) : Prop extends Counting n r where
  le_length : k * tpBsize ≤ vol.length
  buffer : r.active.read (r.blkcnt * tpBsize) ((r.numtrec - r.blkcnt) * tpBsize) =
    (vol.drop (k * tpBsize)).take ((r.numtrec - r.blkcnt) * tpBsize)
  input : r.input.bytes = vol.drop ((k + (r.numtrec - r.blkcnt)) * tpBsize) ∨
    r.input.bytes = [] ∧ vol.length < (k + (r.numtrec - r.blkcnt) + 1) * tpBsize
  aligned : Aligned r.input.pipein n r.input.bytes.length

section Whole

variable {vol : List UInt8} {k : ℕ} {r : Reader}

/-- The buffer has whole records only. -/
theorem Whole.buffer_le (h : Whole n vol k r) :
    (k + (r.numtrec - r.blkcnt)) * tpBsize ≤ vol.length := by
  have hlen := congrArg List.length h.buffer
  rw [Mem.length_read, List.length_take, List.length_drop] at hlen
  have := h.le_length
  rw [Nat.add_mul]
  omega

/-- A record from the buffer. -/
theorem Whole.take (h : Whole n vol k r) (hcnt : r.blkcnt < r.numtrec) :
    r.take.1 = record vol k ∧ Whole n vol (k + 1) r.take.2 := by
  have hle := h.buffer_le
  have hbuffer := h.buffer
  have hinput := h.input
  obtain ⟨d, hd, hd'⟩ : ∃ d, r.numtrec - r.blkcnt = d + 1 ∧ r.numtrec - (r.blkcnt + 1) = d :=
    ⟨_, by omega, rfl⟩
  rw [hd, Nat.add_comm d] at hbuffer hinput hle
  rw [Nat.add_mul, one_mul, Mem.read_add, List.take_add, List.drop_drop] at hbuffer
  rw [Nat.add_mul, Nat.add_mul, one_mul] at hle
  obtain ⟨hrec, hrest⟩ := List.append_inj hbuffer (by simp; omega)
  refine ⟨hrec, h.toCounting.take, ?_, ?_, ?_, h.aligned⟩
  · rw [Nat.add_mul, one_mul]
    omega
  · change r.active.read ((r.blkcnt + 1) * tpBsize) ((r.numtrec - (r.blkcnt + 1)) * tpBsize) =
      (vol.drop ((k + 1) * tpBsize)).take ((r.numtrec - (r.blkcnt + 1)) * tpBsize)
    rw [hd', Nat.add_mul, Nat.add_mul, one_mul]
    exact hrest
  · change r.input.bytes = vol.drop ((k + 1 + (r.numtrec - (r.blkcnt + 1))) * tpBsize) ∨
      r.input.bytes = [] ∧ vol.length < (k + 1 + (r.numtrec - (r.blkcnt + 1)) + 1) * tpBsize
    rwa [hd', Nat.add_assoc k]

/-- The next block of such a volume. -/
theorem Whole.refill {r' : Reader} (hn : 0 < n) (h : Whole n vol k r)
    (hcnt : r.numtrec ≤ r.blkcnt) (hvol : (k + 1) * tpBsize ≤ vol.length) (hr' : Refilled n r r') :
    Whole n vol k r' ∧ r'.blkcnt < r'.numtrec := by
  have hpos : 0 < n * tpBsize := Nat.mul_pos hn (by decide)
  rw [Nat.add_mul, one_mul] at hvol
  have hbytes : r.input.bytes = vol.drop (k * tpBsize) := by
    have hinput := h.input
    rw [Nat.sub_eq_zero_of_le hcnt, Nat.add_zero, Nat.add_mul, one_mul] at hinput
    exact hinput.resolve_right fun hend => by omega
  have hlen : r.input.bytes.length = vol.length - k * tpBsize := by rw [hbytes, List.length_drop]
  have hlen' : 0 < r.input.bytes.length := by
    have : 0 < tpBsize := by decide
    omega
  have hbuffer := hr'.buffer
  have haligned := h.aligned
  -- a whole block, or what is left of a file
  obtain ⟨hnum, hmin, hinput, haligned'⟩ : (0 < r'.numtrec) ∧
      r'.numtrec * tpBsize ≤ min (n * tpBsize) r.input.bytes.length ∧
      (r'.input.bytes = vol.drop ((k + r'.numtrec) * tpBsize) ∨
        r'.input.bytes = [] ∧ vol.length < (k + r'.numtrec + 1) * tpBsize) ∧
      Aligned r'.input.pipein n r'.input.bytes.length := by
    rw [hr'.numtrec, hr'.input, hr'.pipein, List.length_drop]
    by_cases hle : n * tpBsize ≤ r.input.bytes.length
    · rw [blockRecords, if_pos (.inr hle), hbytes, List.drop_drop, ← Nat.add_mul, Nat.min_eq_left]
      · refine ⟨hn, le_rfl, .inl rfl, ?_⟩
        rw [← hbytes]
        obtain ⟨d, hd⟩ := Nat.exists_eq_add_of_le' hle
        rw [Aligned, hd, Nat.add_mod_right, Nat.dvd_add_self_right] at haligned
        rwa [Aligned, hd, Nat.add_sub_cancel]
      · rwa [← hbytes]
    · have hlt := Nat.lt_of_not_le hle
      rw [Aligned, Nat.mod_eq_of_lt hlt] at haligned
      cases hpipe : r.input.pipein with
      | true =>
        rw [hpipe, if_pos rfl] at haligned
        exact absurd (Nat.le_of_dvd hlen' haligned) hle
      | false =>
        rw [hpipe, if_neg (by decide)] at haligned
        have hdiv := Nat.div_add_mod' r.input.bytes.length tpBsize
        have hmod := Nat.mod_lt r.input.bytes.length (show 0 < tpBsize by decide)
        rw [blockRecords, if_neg (by simpa using hle), Nat.min_eq_right hlt.le,
          List.drop_of_length_le hlt.le, Nat.sub_eq_zero_of_le hlt.le]
        refine ⟨Nat.div_pos (by omega) (by decide), by omega, .inr ⟨rfl, ?_⟩, .inl (Nat.zero_mod _)⟩
        rw [Nat.add_mul, Nat.add_mul, one_mul]
        omega
  have hblkcnt := hr'.blkcnt
  refine ⟨⟨hr'.toCounting, h.le_length, ?_, ?_, haligned'⟩, by omega⟩
  · rw [hblkcnt, Nat.sub_zero, Nat.zero_mul, ← Mem.take_read _ _ hmin, hbuffer, hbytes,
      List.take_take, Nat.min_eq_left (hmin.trans (min_le_left ..))]
  · rwa [hblkcnt, Nat.sub_zero]

/-- The next record. -/
theorem Whole.step (hn : 0 < n) (h : Whole n vol k r) (hvol : (k + 1) * tpBsize ≤ vol.length) :
    ∃ r', r.readtapeUncompr = some (record vol k, r') ∧ Whole n vol (k + 1) r' := by
  by_cases hcnt : r.blkcnt < r.numtrec
  · refine ⟨_, ?_, (h.take hcnt).2⟩
    rw [readtapeUncompr, if_pos hcnt, ← (h.take hcnt).1]
  · have hcnt := Nat.le_of_not_lt hcnt
    obtain ⟨hend, -⟩ | ⟨-, r', heq, hr'⟩ := h.toCounting.refill hn hcnt
    · have hinput := h.input
      rw [hend, Nat.sub_eq_zero_of_le hcnt, Nat.add_zero] at hinput
      rw [Nat.add_mul, one_mul] at hvol hinput
      rcases hinput with hdrop | ⟨-, hlt⟩
      · have := congrArg List.length hdrop
        rw [List.length_nil, List.length_drop] at this
        simp only [tpBsize] at *
        omega
      · omega
    · obtain ⟨hwhole, hpos⟩ := h.refill hn hcnt hvol hr'
      exact ⟨_, by rw [heq, ← (hwhole.take hpos).1], (hwhole.take hpos).2⟩

/-- After the last whole record the volume ends. -/
theorem Whole.end (hn : 0 < n) (h : Whole n vol k r) (hvol : vol.length < (k + 1) * tpBsize) :
    r.readtapeUncompr = none := by
  have hpos : tpBsize ≤ n * tpBsize := Nat.le_mul_of_pos_left _ hn
  have hle := h.buffer_le
  rw [Nat.add_mul] at hle
  rw [Nat.add_mul, one_mul] at hvol
  have hzero : r.numtrec - r.blkcnt = 0 := by
    by_contra hne
    have := Nat.le_mul_of_pos_left tpBsize (Nat.pos_of_ne_zero hne)
    omega
  have hcnt : r.numtrec ≤ r.blkcnt := Nat.sub_eq_zero_iff_le.mp hzero
  obtain ⟨-, hnone⟩ | ⟨hne, -⟩ := h.toCounting.refill hn hcnt
  · exact hnone
  · have hlen := List.length_pos_of_ne_nil hne
    have hinput := h.input
    rw [hzero, Nat.add_zero] at hinput
    have hbytes := hinput.resolve_right fun hend => hne hend.1
    have haligned := h.aligned
    have hlt : r.input.bytes.length < tpBsize := by
      rw [hbytes, List.length_drop]
      omega
    rw [Aligned, Nat.mod_eq_of_lt (by omega)] at haligned
    split at haligned
    · have := Nat.le_of_dvd hlen haligned
      omega
    · omega

variable (lib : CompressLib) (m : Order)

/-- A run returns the records in order. -/
theorem Whole.run {j : ℕ} (hn : 0 < n) (h : Whole n vol k r)
    (hvol : (k + j) * tpBsize ≤ vol.length) :
    ∃ s, readRecs lib m j r = some ((List.range' k j).map (record vol), s) ∧
      Whole n vol (k + j) s := by
  induction j generalizing k r with
  | zero => exact ⟨r, rfl, h⟩
  | succ j ih =>
    have hle : k + 1 ≤ k + (j + 1) := by omega
    have hfirst : (k + 1) * tpBsize ≤ vol.length := (Nat.mul_le_mul_right tpBsize hle).trans hvol
    obtain ⟨r', heq, hr'⟩ := h.step hn hfirst
    have hsum : k + 1 + j = k + (j + 1) := by omega
    obtain ⟨s, hrest, hs⟩ := ih hr' (hsum.symm ▸ hvol)
    rw [hsum] at hs
    refine ⟨s, ?_, hs⟩
    rw [readRecs, h.toCounting.readtape_eq lib m, heq]
    simp only [Option.bind_eq_bind, Option.bind_some, hrest]
    rfl

end Whole

/-! ## From the first record -/

/-- The volume starts with the header of a dump that is not compressed. -/
def StartsUncompressed (m : Order) (r : Reader) : Prop :=
  ∃ h g, convertheadBytes m (r.input.bytes.take tpBsize) r.cvt = (some h, g) ∧ h.cType = .tape ∧
    h.cFlags &&& drCompressed = 0

/-- A reader that is about to open a volume in blocks of `n` records. -/
structure Opening (n : ℕ) (r : Reader) : Prop where
  ntrec : r.ntrec = n
  bufsize : r.bufsize = n * tpBsize
  zflag : r.zflag = false

/-- What `findtapeblksize` reads of the first block, and where it ends the run. -/
theorem findtapeblksize_uncompressed {m : Order} {r : Reader} (hn : 0 < n) (h : Opening n r)
    (hlen : tpBsize ≤ r.input.bytes.length) (hhead : StartsUncompressed m r) :
    ∃ input cvt buf, findtapeblksize m r =
        (if r.input.bytes.length < n * tpBsize ∧ r.input.bytes.length % tpBsize ≠ 0 then none
        else some (r.found false n input cvt buf)) ∧
      input.bytes = r.input.bytes.drop (n * tpBsize) ∧ input.pipein = r.input.pipein ∧
      buf.read 0 (min (n * tpBsize) r.input.bytes.length) = r.input.bytes.take (n * tpBsize) := by
  obtain ⟨spcl, cvt, hconv, -, hflag⟩ := hhead
  obtain ⟨input₁, hread₁, hbytes₁, hpipe₁⟩ := Input.readABlock_spec tpBsize le_rfl r.input
  obtain ⟨input₂, hread₂, hbytes₂, hpipe₂⟩ :=
    Input.readABlock_spec (r.bufsize - tpBsize) le_rfl input₁
  have hsize : r.bufsize - tpBsize = (n - 1) * tpBsize := by
    rw [h.bufsize, Nat.sub_mul, one_mul]
  have hblock : tpBsize + (n - 1) * tpBsize = n * tpBsize := by
    rw [Nat.add_comm, ← Nat.succ_mul, Nat.succ_eq_add_one, Nat.sub_add_cancel hn]
  have hfirst : (r.input.bytes.take tpBsize).length = tpBsize := List.length_take_of_le hlen
  have htake : r.input.bytes.take (n * tpBsize) =
      r.input.bytes.take tpBsize ++ (r.input.bytes.drop tpBsize).take ((n - 1) * tpBsize) := by
    rw [← hblock, List.take_add]
  have hbuf (buf : Mem) (bs : List UInt8) (hbs : bs.length = tpBsize) :
      (buf.write 0 bs).read 0 tpBsize = bs := by
    rw [← hbs, Mem.read_write]
  -- the run ends when the rest of the block is short, and not by whole records
  have hcond : (¬((r.input.bytes.drop tpBsize).take ((n - 1) * tpBsize)).length =
        (n - 1) * tpBsize ∧
      ¬((r.input.bytes.drop tpBsize).take ((n - 1) * tpBsize)).length % tpBsize = 0) ↔
      r.input.bytes.length < n * tpBsize ∧ ¬r.input.bytes.length % tpBsize = 0 := by
    obtain ⟨l, hl⟩ := Nat.exists_eq_add_of_le hlen
    rw [List.length_take, List.length_drop, hl, Nat.add_sub_cancel_left, Nat.add_mod_left, ← hblock,
      Nat.add_lt_add_iff_left]
    rcases Nat.lt_or_ge l ((n - 1) * tpBsize) with hlt | hge
    · rw [Nat.min_eq_right hlt.le]
      exact and_congr_left fun _ => ⟨fun _ => hlt, fun _ => hlt.ne⟩
    · rw [Nat.min_eq_left hge]
      exact ⟨fun h => absurd rfl h.1, fun h => absurd h.1 (Nat.not_lt.mpr hge)⟩
  rw [hbytes₁, hsize] at hread₂
  refine ⟨input₂, cvt, ((clearMagic r.ntrec r.tapebuf).write 0 (r.input.bytes.take tpBsize)).write
    tpBsize ((r.input.bytes.drop tpBsize).take ((n - 1) * tpBsize)), ?_, ?_,
    hpipe₂.trans hpipe₁, ?_⟩
  · simp only [findtapeblksize, hread₁, hfirst, lt_irrefl, if_false, hbuf, hconv,
      Option.bind_eq_bind, Option.bind_some, hflag, ne_eq, not_true_eq_false, and_false, false_and,
      hsize, hread₂, h.ntrec]
    rw [if_congr hcond rfl rfl]
    rfl
  · rw [hbytes₂, hbytes₁, hsize, List.drop_drop, hblock]
  · rw [← List.length_take, htake]
    simpa only [hfirst, Nat.zero_add] using Mem.read_write_append (clearMagic r.ntrec r.tapebuf) 0
      (r.input.bytes.take tpBsize) ((r.input.bytes.drop tpBsize).take ((n - 1) * tpBsize))

section Volume

variable (lib : CompressLib) (m : Order)

theorem readRecs_ready {k : ℕ} (hk : 0 < k) (r : Reader) :
    readRecs lib m k r = readRecs lib m k r.ready := by
  obtain ⟨k, rfl⟩ := Nat.exists_eq_succ_of_ne_zero hk.ne'
  rw [readRecs, readRecs, readtape_ready]

/-- The reader with the first block, when `readtape` has chosen its function. -/
theorem counting_found {r : Reader} (input : Input) (cvt : Cvt) (buf : Mem)
    (hset : r.readtapeFunc = .set) (hzflag : r.zflag = false) :
    Counting n (r.found false n input cvt buf).ready ∧
      (r.found false n input cvt buf).ready.active = buf.shift 0 ∧
      (r.found false n input cvt buf).ready.blkcnt = 0 ∧
      (r.found false n input cvt buf).ready.numtrec = n ∧
      (r.found false n input cvt buf).ready.input = input := by
  have hset' : (r.found false n input cvt buf).readtapeFunc = .set := hset
  rw [ready, if_pos hset', readtapeSet, if_neg (by simp [found, hzflag])]
  exact ⟨⟨rfl, rfl, le_rfl, fun _ => rfl⟩, rfl, rfl, rfl, rfl⟩

/-- `readtape` returns the whole records of the volume in order, each once, and then ends the
volume. -/
def Exact (r : Reader) : Prop :=
  ∃ s, readVolume lib m (r.input.bytes.length / tpBsize) r = some (wholeRecords r.input.bytes, s) ∧
    readtape lib m s = none

/-- A volume that is read exactly ends at a good place: the number of the records is right. -/
theorem Exact.aligned {r : Reader} (hexact : Exact lib m r) (hn : 0 < n) (h : Opening n r)
    (hlen : tpBsize ≤ r.input.bytes.length) (hhead : StartsUncompressed m r) :
    n * tpBsize ≤ r.input.bytes.length ∧ Aligned r.input.pipein n r.input.bytes.length := by
  obtain ⟨s, hread, hend⟩ := hexact
  obtain ⟨input, cvt, buf, hfind, hinput, hpipein, -⟩ :=
    findtapeblksize_uncompressed (r := { r with readtapeFunc := .set }) hn
      ⟨h.ntrec, h.bufsize, h.zflag⟩ hlen hhead
  rw [readVolume, hfind] at hread
  split at hread
  · cases hread
  obtain ⟨hcounting, -, hblkcnt, hnumtrec, hin⟩ := counting_found (n := n)
    (r := { r with readtapeFunc := .set }) input cvt buf rfl h.zflag
  rw [Option.bind_eq_bind, Option.bind_some,
    readRecs_ready lib m (Nat.div_pos hlen (by decide))] at hread
  obtain ⟨hs, hsum⟩ := hcounting.run lib m hn hread
  rw [hs.pending_of_none lib m hn hend, Nat.zero_add, pending, hnumtrec, hblkcnt, hin, hpipein,
    hinput, List.length_drop, Nat.sub_zero] at hsum
  exact aligned_of_recordsOf hn hsum.symm

/-- A volume that ends at a good place is read exactly. -/
theorem exact_of_aligned {r : Reader} (hn : 0 < n) (h : Opening n r)
    (hlen : tpBsize ≤ r.input.bytes.length) (hhead : StartsUncompressed m r)
    (hle : n * tpBsize ≤ r.input.bytes.length)
    (haligned : Aligned r.input.pipein n r.input.bytes.length) : Exact lib m r := by
  obtain ⟨input, cvt, buf, hfind, hinput, hpipein, hbuf⟩ :=
    findtapeblksize_uncompressed (r := { r with readtapeFunc := .set }) hn
      ⟨h.ntrec, h.bufsize, h.zflag⟩ hlen hhead
  obtain ⟨hcounting, hactive, hblkcnt, hnumtrec, hin⟩ := counting_found (n := n)
    (r := { r with readtapeFunc := .set }) input cvt buf rfl h.zflag
  rw [Exact, readVolume, hfind, if_neg fun hlt => absurd hlt.1 (Nat.not_lt.mpr hle),
    Option.bind_eq_bind, Option.bind_some, readRecs_ready lib m (Nat.div_pos hlen (by decide))]
  generalize found _ false n input cvt buf = first at *
  have hwhole : Whole n r.input.bytes 0 first.ready := by
    refine ⟨hcounting, by simp, ?_, .inl ?_, ?_⟩
    · rw [hactive, hblkcnt, hnumtrec, Nat.sub_zero, Mem.read_shift, Nat.zero_mul, List.drop_zero,
        ← hbuf, Nat.min_eq_left hle]
    · rw [hin, hinput, hblkcnt, hnumtrec, Nat.sub_zero, Nat.zero_add]
    · obtain ⟨d, hd⟩ := Nat.exists_eq_add_of_le' hle
      rw [Aligned, hd, Nat.add_mod_right, Nat.dvd_add_self_right] at haligned
      rw [hin, hpipein, hinput, List.length_drop]
      change Aligned _ _ (r.input.bytes.length - _)
      rwa [Aligned, hd, Nat.add_sub_cancel]
  have hmul := Nat.div_mul_le_self r.input.bytes.length tpBsize
  obtain ⟨s, hread, hs⟩ := hwhole.run lib m hn (hmul.trans_eq' (by rw [Nat.zero_add]))
  refine ⟨s, ?_, ?_⟩
  · rw [hread, wholeRecords, List.range_eq_range']
  · rw [hs.toCounting.readtape_eq lib m]
    refine hs.end hn ?_
    rw [Nat.zero_add]
    exact Nat.lt_mul_of_div_lt (Nat.lt_succ_self _) (by decide)

/-- **The volumes that are read exactly.** The volume has at least a block. A pipe ends with a
block, and a file ends with a block or has at least a record after the last one. -/
theorem exact_iff {r : Reader} (hn : 0 < n) (h : Opening n r)
    (hlen : tpBsize ≤ r.input.bytes.length) (hhead : StartsUncompressed m r) :
    Exact lib m r ↔
      n * tpBsize ≤ r.input.bytes.length ∧ Aligned r.input.pipein n r.input.bytes.length :=
  ⟨fun hexact => hexact.aligned lib m hn h hlen hhead,
    fun ⟨hle, haligned⟩ => exact_of_aligned lib m hn h hlen hhead hle haligned⟩

end Volume

/-! ## Short volumes -/

/-- The first record of a volume. -/
def headerRecord : List UInt8 :=
  ((directoryHeader .tape 0 zero_lt_size).header .little).image .little

theorem length_headerRecord : headerRecord.length = tpBsize := Spcl.length_image ..

/-- The first record and `k` bytes of zeros. -/
def headerVolume (k : ℕ) : List UInt8 := headerRecord ++ List.replicate k 0

theorem length_headerVolume (k : ℕ) : (headerVolume k).length = tpBsize + k := by
  rw [headerVolume, List.length_append, length_headerRecord, List.length_replicate]

theorem startsUncompressed_headerVolume {r : Reader} {k : ℕ}
    (hbytes : r.input.bytes = headerVolume k)
    (hcvt : r.cvt = ⟨false, false, false, false⟩) : StartsUncompressed .little r := by
  obtain ⟨h, hget, hdecoded, -⟩ := convertheadBytes_image .little .little
    (directoryHeader .tape 0 zero_lt_size) (g := ⟨false, false, false, false⟩) nofun rfl
  have htake : r.input.bytes.take tpBsize = headerRecord := by
    rw [hbytes, headerVolume, List.take_left' length_headerRecord]
  have hflags : h.cFlags = drNewinodefmt := hdecoded.cFlags
  rw [← hcvt, ← headerRecord] at hget
  refine ⟨h, (convertheadBytes .little headerRecord r.cvt).2, ?_, hdecoded.cType, ?_⟩
  · rw [htake]
    generalize convertheadBytes .little headerRecord r.cvt = p at hget ⊢
    exact Prod.ext hget rfl
  · rw [hflags]
    decide

/-- A file of three and a half records, in blocks of two. -/
theorem exact_half :
    Exact zeroLib .little
      (start false false 2 (fun _ => 0) (.file (headerVolume (2 * tpBsize + 512)))) := by
  refine (exact_iff zeroLib .little (n := 2) (by decide) ⟨rfl, rfl, rfl⟩ ?_
    (startsUncompressed_headerVolume rfl rfl)).mpr ?_
  all_goals
    simp only [start, Input.bytes, length_headerVolume]
    decide

/-- A volume of one record that is read in blocks of ten, a file that ends within the record after
a block, and a pipe that ends within a block. -/
theorem not_exact :
    ¬Exact zeroLib .little (start false false 10 (fun _ => 0) (.file (headerVolume 0))) ∧
      ¬Exact zeroLib .little (start false false 1 (fun _ => 0) (.file (headerVolume 512))) ∧
      ¬Exact zeroLib .little
        (start false false 2 (fun _ => 0) (.pipe [99] (headerVolume (2 * tpBsize)))) := by
  refine ⟨fun h => ?_, fun h => ?_, fun h => ?_⟩
  all_goals
    have haligned := h.aligned zeroLib .little (by decide) ⟨rfl, rfl, rfl⟩
      (by simp [start, Input.bytes, length_headerVolume])
      (startsUncompressed_headerVolume rfl rfl)
    simp only [start, Input.bytes, length_headerVolume] at haligned
    revert haligned
    decide

end Reader

end DumpRestore
