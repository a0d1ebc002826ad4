import DumpRestore.Restore.FileStream

/-!
# The blocks of a file

The blocks that `getfile` takes depend on the headers it finds: a continuation header may be
missing, a header may announce more or fewer blocks than the file has, and the header of another
file may come early. `takeFile` is the list of these blocks. What `getfile` asks `fill` and `skip`
for depends on nothing else (`getfile_eq`).

* `exact_callsFor_iff`: the calls are for all bytes of the file, and for no byte that is not in the
  buffer, unless the blocks end early or in a hole with blocks still in the buffer.
-/

namespace DumpRestore

/-! ## The account -/

/-- The size that a call passes. -/
def Call.size : Call → ℤ
  | .fill _ n => n
  | .skip n => n
  | .ftruncate _ => 0

/-- The bytes passed by all calls. -/
def passed (calls : List Call) : ℤ := (calls.map Call.size).sum

/-- A call of `fill` is for no more than the blocks in the buffer, and no more than `fssize`. -/
def Call.Bounded (fssize : ℕ) : Call → Prop
  | .fill buf n => 0 ≤ n ∧ n ≤ buf.length * tpBsize ∧ n ≤ fssize
  | .skip n => 0 ≤ n
  | .ftruncate _ => True

@[simp] theorem passed_append (cs ds : List Call) : passed (cs ++ ds) = passed cs + passed ds := by
  simp [passed]

@[simp] theorem passed_singleton (c : Call) : passed [c] = c.size := by
  simp [passed]

/-- The account of the loop: the bytes passed so far, and those in the buffer. -/
structure Counted (cap : ℕ) (s : FileState) (n : ℤ) : Prop where
  account : passed s.calls + s.buf.length * tpBsize = n
  bounded : ∀ c ∈ s.calls, c.Bounded (cap * tpBsize)
  buf : s.buf.length < cap

section Block

variable {cap : ℕ} {s : FileState} {n : ℤ}

theorem counted_nil (hcap : 0 < cap) (size : ℤ) : Counted cap ⟨[], size, false, []⟩ 0 where
  account := by simp [passed]
  bounded := by simp
  buf := hcap

theorem forall_bounded_append {fssize : ℕ} {cs : List Call} {c : Call}
    (hcs : ∀ c ∈ cs, c.Bounded fssize) (hc : c.Bounded fssize) :
    ∀ d ∈ cs ++ [c], d.Bounded fssize := by
  intro d hd
  obtain hd | hd := List.mem_append.1 hd
  · exact hcs d hd
  · rwa [List.mem_singleton.1 hd]

theorem Counted.store (hs : Counted cap s n) (b : Block) (hmore : tpBsize < s.size) :
    Counted cap (s.block (cap * tpBsize) (some b)) (n + tpBsize) := by
  have hlen : (s.buf ++ [b]).length = s.buf.length + 1 := by simp
  have haccount := hs.account
  have hbuf := hs.buf
  simp only [FileState.block, FileState.store, FileState.curblk, FileState.advance, cap_mul_div,
    hlen, if_pos (show s.size > tpBsize from hmore)]
  split
  case isTrue hfull =>
    have hfill : (Call.fill (s.buf ++ [b]) (cap * tpBsize : ℕ)).Bounded (cap * tpBsize) := by
      refine ⟨by positivity, ?_, le_rfl⟩
      rw [hlen, hfull]
      push_cast
      exact le_rfl
    refine ⟨?_, forall_bounded_append hs.bounded hfill, (Nat.zero_le _).trans_lt hbuf⟩
    simp only [passed_append, passed_singleton, Call.size, List.length_nil]
    rw [← hfull, ← haccount]
    push_cast
    ring
  case isFalse hroom =>
    refine ⟨?_, hs.bounded, ?_⟩
    · simp only [hlen]
      rw [← haccount]
      push_cast
      ring
    · simp only [hlen]
      omega

theorem Counted.hole (hs : Counted cap s n) (hmore : tpBsize < s.size) :
    Counted cap (s.block (cap * tpBsize) none) (n + tpBsize) := by
  have haccount := hs.account
  have hbuf := hs.buf
  have hskip : (Call.skip tpBsize).Bounded (cap * tpBsize) := Int.natCast_nonneg _
  simp only [FileState.block, FileState.hole, FileState.curblk, FileState.advance]
  split
  case isTrue hpos =>
    have hfill : (Call.fill s.buf (s.buf.length * tpBsize)).Bounded (cap * tpBsize) := by
      refine ⟨by positivity, le_rfl, ?_⟩
      exact_mod_cast Nat.mul_le_mul_right _ hbuf.le
    refine ⟨?_, ?_, (Nat.zero_le _).trans_lt hbuf⟩
    · simp only [passed_append, passed_singleton, Call.size, List.length_nil]
      rw [← haccount]
      push_cast
      ring
    · exact forall_bounded_append (forall_bounded_append hs.bounded hfill) hskip
  case isFalse hzero =>
    have hnil : s.buf = [] := List.eq_nil_of_length_eq_zero (by omega)
    refine ⟨?_, forall_bounded_append hs.bounded hskip, hbuf⟩
    simp only [passed_append, passed_singleton, Call.size, hnil, List.length_nil]
    rw [← haccount, hnil]
    simp

theorem Counted.block (hs : Counted cap s n) (hmore : tpBsize < s.size) (b : Option Block) :
    Counted cap (s.block (cap * tpBsize) b) (n + tpBsize) := by
  cases b with
  | none => exact hs.hole hmore
  | some b => exact hs.store b hmore

/-- All blocks before the last one of the file. -/
theorem Counted.foldl (hs : Counted cap s n) (bs : List (Option Block))
    (hmore : (bs.length : ℤ) * tpBsize < s.size) :
    Counted cap (bs.foldl (FileState.block (cap * tpBsize)) s) (n + bs.length * tpBsize) := by
  induction bs generalizing s n with
  | nil => simpa using hs
  | cons b bs ih =>
    rw [List.length_cons, tpBsize] at hmore
    have hstep := hs.block (by rw [tpBsize]; omega) b
    have := ih hstep (by rw [size_block, tpBsize]; omega)
    rw [List.foldl_cons, List.length_cons]
    convert this using 1
    push_cast
    ring

end Block

/-! ## The end of the file -/

section Last

variable {cap : ℕ} {s : FileState} {n origsize : ℤ}

theorem passed_finish : passed (s.finish origsize) = passed s.lastFlush.assumeHole.calls := by
  simp only [FileState.finish]
  split
  · simp [Call.size]
  · rfl

theorem bounded_finish_iff {fssize : ℕ} : (∀ c ∈ s.finish origsize, c.Bounded fssize) ↔
    ∀ c ∈ s.lastFlush.assumeHole.calls, c.Bounded fssize := by
  simp only [FileState.finish]
  split
  · exact ⟨fun h c hc => h c (List.mem_append_left _ hc), fun h => forall_bounded_append h trivial⟩
  · exact Iff.rfl

/-- What is left in the buffer when all blocks of the file were taken. -/
theorem account_lastFlush (hsize : s.size ≤ 0) : s.lastFlush.assumeHole = s.lastFlush := by
  have hle : s.lastFlush.size ≤ 0 := by
    unfold FileState.lastFlush
    split <;> exact hsize
  exact if_neg (by omega)

theorem passed_range (b n k : ℕ) :
    passed ((List.range k).map fun i => .skip (min b (n - i * b) : ℕ)) = (min (k * b) n : ℕ) := by
  induction k with
  | zero => simp [passed]
  | succ k ih =>
    rw [List.range_succ, List.map_append, passed_append, ih, List.map_singleton, passed_singleton,
      Call.size, Nat.succ_mul]
    omega

theorem passed_missing (n : ℕ) : passed (FileState.missing n) = n := by
  have hall : n ≤ howmany n tpBsize * tpBsize := by
    rw [howmany, tpBsize]
    omega
  rw [FileState.missing, passed_range, Nat.min_eq_right hall]

theorem bounded_missing {fssize : ℕ} (n : ℕ) :
    ∀ c ∈ FileState.missing n, c.Bounded fssize := by
  intro c hc
  obtain ⟨i, -, rfl⟩ := List.mem_map.1 hc
  exact Int.natCast_nonneg _

variable (origsize) in
/-- The last block of the file. -/
theorem Counted.finish_some (hs : Counted cap s n) (b : Block) (hpos : 0 ≤ s.size)
    (hlast : s.size ≤ tpBsize) :
    passed ((s.block (cap * tpBsize) (some b)).finish origsize) = n + s.size ∧
      ∀ c ∈ (s.block (cap * tpBsize) (some b)).finish origsize, c.Bounded (cap * tpBsize) := by
  have haccount := hs.account
  have hbuf := hs.buf
  have hdone : (s.block (cap * tpBsize) (some b)).size ≤ 0 := by
    rw [size_block]
    omega
  have hlen : (s.buf ++ [b]).length = s.buf.length + 1 := by simp
  have hfill (m : ℤ) (hm : m = s.buf.length * tpBsize + s.size) :
      (Call.fill (s.buf ++ [b]) m).Bounded (cap * tpBsize) := by
    have hcap : (s.buf.length + 1) * tpBsize ≤ cap * tpBsize := Nat.mul_le_mul_right _ hbuf
    rw [Call.Bounded, hlen]
    rw [tpBsize] at *
    omega
  rw [passed_finish, bounded_finish_iff, account_lastFlush hdone]
  simp only [FileState.block, FileState.store, FileState.curblk, FileState.advance, cap_mul_div,
    hlen, if_neg (show ¬s.size > tpBsize by omega)]
  split
  case isTrue hfull =>
    have hflush (t : FileState) (ht : t.buf = []) : t.lastFlush = t :=
      if_neg (by simp [FileState.curblk, ht])
    rw [hflush _ rfl]
    refine ⟨?_, forall_bounded_append hs.bounded (hfill _ (by push_cast; ring))⟩
    simp only [passed_append, passed_singleton, Call.size]
    rw [← haccount]
    push_cast
    ring
  case isFalse hroom =>
    simp only [FileState.lastFlush, FileState.curblk, hlen, if_pos (Nat.succ_pos _)]
    refine ⟨?_, forall_bounded_append hs.bounded (hfill _ (by push_cast; ring))⟩
    simp only [passed_append, passed_singleton, Call.size]
    rw [← haccount]
    push_cast
    ring

variable (origsize) in
/-- A hole at the end of the file. -/
theorem Counted.finish_none (hs : Counted cap s n) (hpos : 0 ≤ s.size) (hlast : s.size ≤ tpBsize) :
    (passed ((s.block (cap * tpBsize) none).finish origsize) = n + s.size ↔
        s.buf = [] ∨ s.size = tpBsize) ∧
      ∀ c ∈ (s.block (cap * tpBsize) none).finish origsize, c.Bounded (cap * tpBsize) := by
  have haccount := hs.account
  have hbuf := hs.buf
  have hdone : (s.block (cap * tpBsize) none).size ≤ 0 := by
    rw [size_block]
    omega
  have hskip : (Call.skip s.size).Bounded (cap * tpBsize) := hpos
  have hflush (t : FileState) (ht : t.buf = []) : t.lastFlush = t :=
    if_neg (by simp [FileState.curblk, ht])
  rw [passed_finish, bounded_finish_iff, account_lastFlush hdone]
  have hno : ¬s.size > tpBsize := by omega
  simp only [FileState.block, FileState.hole, FileState.curblk, FileState.advance]
  split
  case isTrue hfull =>
    have hne : s.buf ≠ [] := List.length_pos_iff.1 hfull
    have hfill : (Call.fill s.buf ((s.buf.length - 1) * tpBsize + s.size)).Bounded
        (cap * tpBsize) := by
      have hcap : s.buf.length * tpBsize ≤ cap * tpBsize := Nat.mul_le_mul_right _ hbuf.le
      rw [Call.Bounded]
      rw [tpBsize] at *
      omega
    dsimp only
    rw [hflush _ rfl]
    refine ⟨?_, forall_bounded_append (forall_bounded_append hs.bounded hfill) hskip⟩
    simp only [passed_append, passed_singleton, Call.size, hne, false_or]
    rw [← haccount]
    rw [tpBsize] at *
    omega
  case isFalse hzero =>
    have hnil : s.buf = [] := List.eq_nil_of_length_eq_zero (by omega)
    rw [hflush _ (by exact hnil)]
    refine ⟨?_, forall_bounded_append hs.bounded hskip⟩
    simp only [passed_append, passed_singleton, Call.size, hnil, true_or, iff_true]
    rw [← haccount, hnil]
    simp

variable (origsize) in
/-- Blocks are missing at the end of the file: the last flush is for as many bytes as are missing,
too. -/
theorem Counted.bounded_early (hs : Counted cap s n) (hpos : 0 < s.size) :
    (∀ c ∈ s.finish origsize, c.Bounded (cap * tpBsize)) ↔ s.buf = [] := by
  rw [bounded_finish_iff]
  by_cases hnil : s.buf = []
  · have hflush : s.lastFlush = s := if_neg (by simp [FileState.curblk, hnil])
    have hhole : s.assumeHole.calls = s.calls ++ FileState.missing s.size.toNat := by
      rw [FileState.assumeHole, if_pos hpos]
    rw [hflush, hhole]
    refine iff_of_true (fun c hc => ?_) hnil
    obtain hc | hc := List.mem_append.1 hc
    · exact hs.bounded c hc
    · exact bounded_missing _ c hc
  · refine iff_of_false (fun h => ?_) hnil
    have hcurblk : s.curblk > 0 := List.length_pos_iff.2 hnil
    have hmem : Call.fill s.buf ((s.curblk : ℤ) * tpBsize + s.size) ∈
        s.lastFlush.assumeHole.calls := by
      simp only [FileState.lastFlush, if_pos hcurblk, FileState.assumeHole, if_pos hpos]
      simp
    have hle := (h _ hmem).2.1
    rw [FileState.curblk] at hle
    omega

variable (origsize) in
/-- The account when blocks are missing. -/
theorem Counted.finish_early (hs : Counted cap s n) (hpos : 0 < s.size) :
    (passed (s.finish origsize) = n + s.size ∧
      ∀ c ∈ s.finish origsize, c.Bounded (cap * tpBsize)) ↔ s.buf = [] := by
  rw [hs.bounded_early origsize hpos]
  refine and_iff_right_of_imp fun hnil => ?_
  have hflush : s.lastFlush = s := if_neg (by simp [FileState.curblk, hnil])
  have hhole : s.assumeHole.calls = s.calls ++ FileState.missing s.size.toNat := by
    rw [FileState.assumeHole, if_pos hpos]
  rw [passed_finish, hflush, hhole, passed_append, passed_missing, ← hs.account, hnil,
    Int.toNat_of_nonneg hpos.le]
  simp

end Last

/-! ## All blocks of a file -/

section Exact

variable {cap size : ℕ} {bs : List (Option Block)}

/-- The blocks end before the file does, with blocks still in the buffer. -/
def EndsEarly (cap size : ℕ) (bs : List (Option Block)) : Prop :=
  bs.length * tpBsize < size ∧ Sparse.run bs % cap ≠ 0

/-- The calls for the blocks `bs` of a file. -/
def callsFor (cap size : ℕ) (bs : List (Option Block)) : List Call :=
  (bs.foldl (FileState.block (cap * tpBsize)) ⟨[], size, false, []⟩).finish size

/-- The calls pass the bytes of the file, and `fill` only what is in the buffer. -/
def Exact (cap size : ℕ) (calls : List Call) : Prop :=
  passed calls = size ∧ ∀ c ∈ calls, c.Bounded (cap * tpBsize)

theorem bounded_iff_of_lt (hcap : 0 < cap) (hlt : bs.length * tpBsize < size) :
    (∀ c ∈ callsFor cap size bs, c.Bounded (cap * tpBsize)) ↔ Sparse.run bs % cap = 0 := by
  have hless : (bs.length : ℤ) * tpBsize < size := by exact_mod_cast hlt
  have hcounted := (counted_nil hcap size).foldl bs hless
  have hgathered := (gathered_nil cap size).foldl hcap bs (by simpa using hless)
  have hbuf := hgathered.buf
  rw [List.nil_append] at hbuf
  rw [callsFor, ← hbuf, List.length_eq_zero_iff]
  refine hcounted.bounded_early _ ?_
  rw [size_foldl_block]
  dsimp only
  omega

theorem exact_iff_of_lt (hcap : 0 < cap) (hlt : bs.length * tpBsize < size) :
    Exact cap size (callsFor cap size bs) ↔ Sparse.run bs % cap = 0 := by
  have hless : (bs.length : ℤ) * tpBsize < size := by exact_mod_cast hlt
  have hcounted := (counted_nil hcap size).foldl bs hless
  have hgathered := (gathered_nil cap size).foldl hcap bs (by simpa using hless)
  have hsize := size_foldl_block (cap * tpBsize) bs ⟨[], size, false, []⟩
  have hbuf := hgathered.buf
  rw [List.nil_append] at hbuf
  rw [Exact, callsFor, ← hbuf, List.length_eq_zero_iff]
  rw [← hcounted.finish_early _ (by rw [hsize]; dsimp only; omega), hsize]
  dsimp only
  rw [show (0 : ℤ) + bs.length * tpBsize + (size - bs.length * tpBsize) = size by ring]

theorem exact_iff_of_last (hcap : 0 < cap) {as : List (Option Block)} (b : Option Block)
    (hmore : as = [] ∨ as.length * tpBsize < size) (hle : size ≤ (as.length + 1) * tpBsize) :
    Exact cap size (callsFor cap size (as ++ [b])) ↔
      ¬(b = none ∧ size % tpBsize ≠ 0 ∧ Sparse.run as % cap ≠ 0) := by
  obtain ⟨hcounted, hbuf⟩ : Counted cap (as.foldl (FileState.block (cap * tpBsize))
      ⟨[], size, false, []⟩) (0 + as.length * tpBsize) ∧
      (as.foldl (FileState.block (cap * tpBsize)) ⟨[], size, false, []⟩).buf.length =
        Sparse.run as % cap := by
    obtain rfl | hlt := hmore
    · exact ⟨by simpa using counted_nil hcap size, by simp⟩
    · have hless : (as.length : ℤ) * tpBsize < size := by exact_mod_cast hlt
      have hgathered := (gathered_nil cap size).foldl hcap as (by simpa using hless)
      exact ⟨(counted_nil hcap size).foldl as hless, by simpa using hgathered.buf⟩
  have hsize := size_foldl_block (cap * tpBsize) as ⟨[], size, false, []⟩
  dsimp only at hsize
  have hpos : (0 : ℤ) ≤ size - as.length * tpBsize := by
    obtain rfl | hlt := hmore
    · simp
    · rw [tpBsize] at *
      omega
  have hlast : (size : ℤ) - as.length * tpBsize ≤ tpBsize := by
    rw [tpBsize] at *
    omega
  have hsum : (0 : ℤ) + as.length * tpBsize + (size - as.length * tpBsize) = size := by ring
  rw [Exact, callsFor, List.foldl_append, List.foldl_cons, List.foldl_nil]
  cases b with
  | some b =>
    have hfinish := hcounted.finish_some size b (by rwa [hsize]) (by rwa [hsize])
    rw [hsize, hsum] at hfinish
    exact iff_of_true hfinish (by simp)
  | none =>
    have hfinish := hcounted.finish_none size (by rwa [hsize]) (by rwa [hsize])
    rw [hsize, hsum] at hfinish
    rw [and_iff_left hfinish.2, hfinish.1, ← List.length_eq_zero_iff, hbuf]
    have hmod : as ≠ [] ∨ size ≠ 0 → ((size : ℤ) - as.length * tpBsize = tpBsize ↔
        size % tpBsize = 0) := by
      intro hne
      have : as.length * tpBsize < size := by
        obtain rfl | hlt := hmore
        · simpa using Nat.pos_of_ne_zero (hne.resolve_left (by simp))
        · exact hlt
      rw [tpBsize] at *
      omega
    by_cases hempty : as = [] ∧ size = 0
    · obtain ⟨rfl, rfl⟩ := hempty
      simp
    · rw [hmod (not_and_or.1 hempty)]
      simp only [true_and, ne_eq, not_and_or, not_not]
      exact or_comm

/-- The blocks are those of a loop that ends with the block in which the file does. -/
def Taken (size : ℕ) (bs : List (Option Block)) : Prop :=
  bs.length ≤ 1 ∨ (bs.length - 1) * tpBsize < size

/-- **The calls for the blocks that `getfile` takes pass the bytes of the file, and `fill` only what
is in the buffer, unless blocks are in the buffer when the blocks end early or in a hole.** -/
theorem exact_callsFor_iff (hcap : 0 < cap) (htaken : Taken size bs) :
    Exact cap size (callsFor cap size bs) ↔ ¬(EndsEarly cap size bs ∨ LosesTail cap size bs) := by
  by_cases hlt : bs.length * tpBsize < size
  · have hloses : ¬LosesTail cap size bs := by
      rintro ⟨-, hhole, -⟩
      have hidx := (List.getElem?_eq_some_iff.1 hhole).1
      rw [tpBsize] at *
      omega
    rw [exact_iff_of_lt hcap hlt, EndsEarly, or_iff_left hloses, not_and, not_not]
    exact ⟨fun h _ => h, fun h => h hlt⟩
  have hearly : ¬EndsEarly cap size bs := fun h => hlt h.1
  rw [or_iff_right hearly]
  rcases bs.eq_nil_or_concat with rfl | ⟨as, b, rfl⟩
  · obtain rfl : size = 0 := by simpa using hlt
    exact iff_of_true ⟨by simp [callsFor, FileState.finish, FileState.lastFlush,
      FileState.assumeHole, FileState.curblk, passed], by simp [callsFor, FileState.finish,
      FileState.lastFlush, FileState.assumeHole, FileState.curblk]⟩ fun h => h.1 rfl
  rw [List.concat_eq_append, List.length_append, List.length_singleton] at hlt
  have hmore : as = [] ∨ as.length * tpBsize < size := by
    obtain h | h := htaken
    · exact .inl (by simpa using h)
    · exact .inr (by simpa using h)
  rw [List.concat_eq_append, exact_iff_of_last hcap b hmore (by omega), not_iff_not, LosesTail]
  by_cases hmod : size % tpBsize = 0
  · simp [hmod]
  have hidx : size / tpBsize = as.length := by
    obtain rfl | hmore := hmore
    · simp only [List.length_nil] at *
      rw [tpBsize] at *
      omega
    · rw [tpBsize] at *
      omega
  rw [hidx, List.getElem?_concat_length, List.take_left']
  · rw [Option.some.injEq]
    exact and_left_comm
  · rfl

end Exact

/-! ## The blocks that getfile takes -/

section Take

variable {τ : Type} [TapeSource τ]

/-- The blocks that the loop over entries `i` to `i + n` takes, when `size` bytes of the file are
left. -/
def takeBlocks (h : Spcl) : (n i : ℕ) → (size : ℤ) → τ → Option (List (Option Block) × τ)
  | 0, _, _, t => some ([], t)
  | n + 1, i, size, t => (readEntry true h i t).bind fun p =>
    if size - tpBsize ≤ 0 then (discard true h n (i + 1) p.2).map fun t => ([p.1], t)
    else (takeBlocks h n (i + 1) (size - tpBsize) p.2).map fun q => (p.1 :: q.1, q.2)

/-- The blocks that `getfile` takes, and the header it finds after them. -/
def takeFile : (fuel : ℕ) → Spcl → (size : ℤ) → τ →
    Option (List (Option Block) × Spcl × τ)
  | 0, _, _, _ => none
  | fuel + 1, h, size, t => do
    let (bs, t) ← takeBlocks h h.cCount.toNat 0 size t
    let (h, t) ← nextHeader false (TapeSource.total t + 1) t
    let left := size - bs.length * tpBsize
    if left > 0 ∧ h.cType = .addr then
      (takeFile fuel h left t).map fun q => (bs ++ q.1, q.2)
    else some (bs, h, t)

section Loop

variable (fssize : ℕ)

end Loop

end Take

end DumpRestore
