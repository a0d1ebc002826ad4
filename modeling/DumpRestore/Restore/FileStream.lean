import DumpRestore.Restore.GetFile

/-!
# What getfile delivers

The loop of `getfile` keeps the law `Gathered`: what was delivered, followed by what is in the
buffer, is the file as far as it was read, and the number of blocks in the buffer is the run of
allocated blocks read last, modulo the size of the buffer. The last block is treated apart: its
size is used to cut the last flush, and at a hole that flush does not contain the last block.

* `delivered_finish` is what the calls for a list of blocks deliver;
* `getfile_segments` is the run of `getfile` over segments followed by another header.
-/

namespace DumpRestore

/-! ## The buffer -/

/-- The law of the loop, after the blocks `bs` of a file of size `size`. -/
structure Gathered (cap : ℕ) (size : ℤ) (bs : List (Option Block)) (s : FileState) : Prop where
  bytes : delivered s.calls ++ s.buf.flatMap Block.bytes = expand bs
  buf : s.buf.length = Sparse.run bs % cap
  size : s.size = size - bs.length * tpBsize

theorem expand_concat_some (bs : List (Option Block)) (b : Block) :
    expand (bs ++ [some b]) = expand bs ++ b.bytes :=
  Sparse.expand_concat ..

theorem expand_concat_none (bs : List (Option Block)) :
    expand (bs ++ [none]) = expand bs ++ List.replicate tpBsize 0 :=
  Sparse.expand_concat ..

theorem length_bytes_buf (buf : List Block) :
    (buf.flatMap Block.bytes).length = buf.length * tpBsize :=
  Sparse.length_flatMap_bytes Block.length_bytes buf

/-- A flush that asks for all of the buffer. -/
theorem bytes_fill_all (buf : List Block) :
    (Call.fill buf ((buf.length : ℤ) * tpBsize)).bytes = buf.flatMap Block.bytes := by
  rw [Call.bytes, List.take_of_length_le]
  rw [length_bytes_buf]
  omega

theorem succ_mod_of_eq {n cap : ℕ} (h : n % cap + 1 = cap) : (n + 1) % cap = 0 := by
  rw [← Nat.mod_add_mod, h, Nat.mod_self]

theorem succ_mod_of_ne {n cap : ℕ} (hcap : 0 < cap) (h : n % cap + 1 ≠ cap) :
    (n + 1) % cap = n % cap + 1 := by
  have := Nat.mod_lt n hcap
  rw [← Nat.mod_add_mod, Nat.mod_eq_of_lt]
  omega

theorem cap_mul_div (cap : ℕ) : cap * tpBsize / tpBsize = cap :=
  Nat.mul_div_cancel _ (by decide)

section Step

variable {cap : ℕ} {size : ℤ} {bs : List (Option Block)} {s : FileState}

/-- The law holds before the first block. -/
theorem gathered_nil (cap : ℕ) (size : ℤ) : Gathered cap size [] ⟨[], size, false, []⟩ where
  bytes := rfl
  buf := by simp
  size := by simp

theorem Gathered.store (hcap : 0 < cap) (hs : Gathered cap size bs s) (hmore : tpBsize < s.size)
    (b : Block) : Gathered cap size (bs ++ [some b]) (s.block (cap * tpBsize) (some b)) := by
  have hlen : (s.buf ++ [b]).length = s.buf.length + 1 := by simp
  have hsize : s.size - tpBsize = size - ((bs.length + 1 : ℕ) : ℤ) * tpBsize := by
    rw [hs.size]
    push_cast
    ring
  simp only [FileState.block, FileState.store, FileState.curblk, FileState.advance, cap_mul_div,
    hlen]
  split
  case isTrue hfull =>
    refine ⟨?_, ?_, by simpa using hsize⟩
    · have hall : (cap * tpBsize : ℕ) = ((s.buf ++ [b]).length : ℤ) * tpBsize := by
        rw [hlen, hfull]
        push_cast
        ring
      simp only [delivered_append, delivered_singleton]
      rw [hall, bytes_fill_all, expand_concat_some, ← hs.bytes]
      simp
    · rw [Sparse.run_concat_some, succ_mod_of_eq (by rw [← hs.buf, hfull])]
      rfl
  case isFalse hroom =>
    refine ⟨?_, ?_, by simpa using hsize⟩
    · rw [expand_concat_some, ← hs.bytes]
      simp
    · rw [Sparse.run_concat_some, succ_mod_of_ne hcap (by rwa [← hs.buf]), ← hs.buf, hlen]

theorem Gathered.hole (hs : Gathered cap size bs s) (hmore : tpBsize < s.size) :
    Gathered cap size (bs ++ [none]) (s.block (cap * tpBsize) none) := by
  have hsize : s.size - tpBsize = size - ((bs ++ [none]).length : ℤ) * tpBsize := by
    rw [hs.size, List.length_append, List.length_singleton]
    push_cast
    ring
  have hskip : (Call.skip tpBsize).bytes = List.replicate tpBsize 0 := rfl
  simp only [FileState.block, FileState.hole, FileState.curblk, FileState.advance]
  split
  case isTrue hbuf =>
    refine ⟨?_, by simp, hsize⟩
    simp only [delivered_append, delivered_singleton, bytes_fill_all, hskip]
    rw [expand_concat_none, ← hs.bytes]
    simp
  case isFalse hbuf =>
    have hnil : s.buf = [] := List.eq_nil_of_length_eq_zero (by omega)
    refine ⟨?_, by simp [hnil], hsize⟩
    simp only [delivered_append, delivered_singleton, hskip]
    rw [expand_concat_none, ← hs.bytes, hnil]
    simp

/-- One turn of the loop, before the last block. -/
theorem Gathered.block (hcap : 0 < cap) (hs : Gathered cap size bs s) (hmore : tpBsize < s.size)
    (b : Option Block) : Gathered cap size (bs ++ [b]) (s.block (cap * tpBsize) b) := by
  cases b with
  | none => exact hs.hole hmore
  | some b => exact hs.store hcap hmore b

/-- All turns of the loop before the last block. -/
theorem Gathered.foldl (hcap : 0 < cap) (hs : Gathered cap size bs s) (more : List (Option Block))
    (hmore : ((bs ++ more).length : ℤ) * tpBsize < size) :
    Gathered cap size (bs ++ more) (more.foldl (FileState.block (cap * tpBsize)) s) := by
  induction more generalizing bs s with
  | nil => simpa using hs
  | cons b more ih =>
    have hlen : (bs ++ b :: more).length = bs.length + 1 + more.length := by
      simp only [List.length_append, List.length_cons]
      omega
    have hstep : (tpBsize : ℤ) < s.size := by
      rw [hlen] at hmore
      rw [hs.size]
      rw [tpBsize] at *
      omega
    have := ih (hs.block hcap hstep b) (by simpa using hmore)
    simpa using this

end Step

/-! ## The last block -/

section Last

variable {cap : ℕ} {size : ℤ} {bs : List (Option Block)} {s : FileState} {origsize : ℤ}

theorem delivered_finish_of_le (hsize : s.lastFlush.size ≤ 0) :
    delivered (s.finish origsize) = delivered s.lastFlush.calls := by
  have hno : ¬ s.lastFlush.size > 0 := by omega
  simp only [FileState.finish, FileState.assumeHole, if_neg hno]
  split
  · simp [delivered_append, Call.bytes]
  · rfl

theorem delivered_finish_of_nil (hbuf : s.buf = []) (hsize : s.size ≤ 0) :
    delivered (s.finish origsize) = delivered s.calls := by
  have hflush : s.lastFlush = s := if_neg (by simp [FileState.curblk, hbuf])
  rw [delivered_finish_of_le (by rwa [hflush]), hflush]

theorem delivered_finish_of_ne_nil (hbuf : s.buf ≠ []) (hsize : s.size ≤ 0) :
    delivered (s.finish origsize) = delivered s.calls ++
      (Call.fill s.buf ((s.buf.length : ℤ) * tpBsize + s.size)).bytes := by
  have hflush : s.lastFlush = _ := if_pos (List.length_pos_iff.mpr hbuf)
  rw [delivered_finish_of_le (by rwa [hflush]), hflush, delivered_append, delivered_singleton]
  rfl

/-- Cutting the flush of the last block cuts the file. -/
theorem Gathered.take (hs : Gathered cap size bs s) (hrem : 0 < s.size) (x : List UInt8) :
    delivered s.calls ++
      (s.buf.flatMap Block.bytes ++ x).take (s.buf.length * tpBsize + s.size.toNat) =
      (expand bs ++ x).take size.toNat := by
  have hlen := congrArg List.length hs.bytes
  rw [List.length_append, length_bytes_buf, length_expand] at hlen
  have hsize : size.toNat = (delivered s.calls).length +
      (s.buf.length * tpBsize + s.size.toNat) := by
    have := hs.size
    rw [tpBsize] at *
    omega
  rw [← hs.bytes, List.append_assoc, hsize, List.take_length_add_append]

/-- At the end of the file an allocated block is delivered as far as the file goes. -/
theorem Gathered.finish_some (hs : Gathered cap size bs s) (hrem : 0 < s.size)
    (hlast : s.size ≤ tpBsize) (b : Block) :
    delivered ((s.block (cap * tpBsize) (some b)).finish origsize) =
      (expand (bs ++ [some b])).take size.toNat := by
  have hlen : (s.buf ++ [b]).length = s.buf.length + 1 := by simp
  have hno : ¬ s.size > tpBsize := by omega
  have hcut : ∀ n : ℤ, n = s.buf.length * tpBsize + s.size →
      delivered s.calls ++ (Call.fill (s.buf ++ [b]) n).bytes =
        (expand (bs ++ [some b])).take size.toNat := by
    intro n hn
    have hn' : n.toNat = s.buf.length * tpBsize + s.size.toNat := by omega
    rw [expand_concat_some, ← hs.take hrem, Call.bytes, hn']
    simp
  simp only [FileState.block, FileState.store, FileState.curblk, cap_mul_div, hlen, if_neg hno]
  split
  case isTrue hfull =>
    rw [delivered_finish_of_nil rfl (by simp only [FileState.advance]; omega)]
    simp only [FileState.advance, delivered_append, delivered_singleton]
    exact hcut _ (by push_cast; ring)
  case isFalse hroom =>
    rw [delivered_finish_of_ne_nil (by simp [FileState.advance])
      (by simp only [FileState.advance]; omega)]
    simp only [FileState.advance]
    exact hcut _ (by rw [hlen]; push_cast; ring)

/-- At the end of the file a hole is delivered as far as the file goes, if the buffer is empty. -/
theorem Gathered.finish_none (hs : Gathered cap size bs s) (hrem : 0 < s.size)
    (hlast : s.size ≤ tpBsize) (hbuf : s.buf = [] ∨ s.size = tpBsize) :
    delivered ((s.block (cap * tpBsize) none).finish origsize) =
      (expand (bs ++ [none])).take size.toNat := by
  have hno : ¬ s.size > tpBsize := by omega
  have htake := hs.take hrem (List.replicate tpBsize 0)
  have hcut : (s.buf.flatMap Block.bytes ++ List.replicate tpBsize 0).take
      (s.buf.length * tpBsize + s.size.toNat) =
        s.buf.flatMap Block.bytes ++ List.replicate s.size.toNat 0 := by
    rw [← length_bytes_buf, List.take_length_add_append, List.take_replicate,
      Nat.min_eq_left (by omega)]
  rw [hcut] at htake
  simp only [FileState.block, FileState.hole, FileState.curblk, if_neg hno]
  split
  case isTrue hpos =>
    have hfull : s.size = tpBsize := hbuf.resolve_left (List.length_pos_iff.mp hpos)
    have hall : ((s.buf.length : ℤ) - 1) * tpBsize + s.size = (s.buf.length : ℤ) * tpBsize := by
      rw [hfull]
      ring
    rw [delivered_finish_of_nil rfl (by simp only [FileState.advance]; omega)]
    simp only [FileState.advance, delivered_append, delivered_singleton, hall, bytes_fill_all]
    rw [expand_concat_none, ← htake, List.append_assoc]
    rfl
  case isFalse hzero =>
    have hnil : s.buf = [] := List.eq_nil_of_length_eq_zero (by omega)
    rw [delivered_finish_of_nil (by simpa [FileState.advance] using hnil)
      (by simp only [FileState.advance]; omega)]
    simp only [FileState.advance, delivered_append, delivered_singleton]
    rw [expand_concat_none, ← htake, hnil]
    simp [Call.bytes]

/-- At a hole at the end of the file the last flush is cut by the size of the hole. -/
theorem Gathered.length_finish_none (hs : Gathered cap size bs s) (origsize : ℤ) (hrem : 0 < s.size)
    (hlast : s.size ≤ tpBsize) (hbuf : s.buf ≠ []) :
    (delivered ((s.block (cap * tpBsize) none).finish origsize)).length + tpBsize =
      size.toNat + s.size.toNat := by
  have hno : ¬ s.size > tpBsize := by omega
  have hpos : s.buf.length > 0 := List.length_pos_iff.mpr hbuf
  have hlen := congrArg List.length hs.bytes
  rw [List.length_append, length_bytes_buf, length_expand] at hlen
  simp only [FileState.block, FileState.hole, FileState.curblk, if_neg hno, if_pos hpos]
  rw [delivered_finish_of_nil rfl (by simp only [FileState.advance]; omega)]
  simp only [FileState.advance, delivered_append, delivered_singleton, List.length_append,
    Call.bytes, List.length_take, List.length_replicate, length_bytes_buf]
  have := hs.size
  rw [tpBsize] at *
  omega

end Last

/-! ## Reading segments -/

/-- The tape after `rest` is all that is left of the mounted volume, `n` records later. -/
def Tape.at (t : Tape) (n : ℕ) (rest : List Rec) : Tape :=
  { t with recs := rest, tpblksread := t.tpblksread + n }

@[simp] theorem Tape.at_recs (t : Tape) (n : ℕ) (rest : List Rec) : (t.at n rest).recs = rest := rfl

@[simp] theorem Tape.at_at (t : Tape) (n m : ℕ) (as bs : List Rec) :
    (t.at n as).at m bs = t.at (n + m) bs := by
  simp [Tape.at, Int.add_assoc]

theorem Tape.at_zero (t : Tape) {rest : List Rec} (h : t.recs = rest) : t.at 0 rest = t := by
  simp [Tape.at, ← h]

theorem readtape_at {t : Tape} {r : Rec} {rest : List Rec} (h : t.recs = r :: rest) :
    readtape t = some (r, t.at 1 rest) :=
  readtape_of_recs h

section Segments

variable {t : Tape} {h : Spcl} {rest : List Rec}

theorem readEntry_dataRecs (map : Bool) (hmap : t.readmapflag = false) {b : Option Block}
    {bs : List (Option Block)} {i : ℕ} (haddr : AddrMap h.cAddr i (b :: bs))
    (hrecs : t.recs = dataRecs (b :: bs) ++ rest) :
    readEntry map h i t = some (b, t.at (dataRecs [b]).length (dataRecs bs ++ rest)) := by
  cases b with
  | none =>
    have hzero : h.cAddr i = 0 := by simpa using haddr.head
    simpa [readEntry_tape, hmap, hzero] using (t.at_zero hrecs).symm
  | some b =>
    have hone : h.cAddr i ≠ 0 := by simpa using haddr.head
    simp only [readEntry_tape, hmap, Bool.and_false, Bool.false_or, bne_iff_ne, ne_eq, hone,
      not_false_eq_true, if_true, readtape_at hrecs]
    rfl

theorem length_dataRecs_cons (b : Option Block) (bs : List (Option Block)) :
    (dataRecs (b :: bs)).length = (dataRecs [b]).length + (dataRecs bs).length := by
  rw [← List.length_append, ← dataRecs_append, List.singleton_append]

theorem discard_dataRecs (map : Bool) (hmap : t.readmapflag = false) {bs : List (Option Block)}
    {i : ℕ} (haddr : AddrMap h.cAddr i bs) (hrecs : t.recs = dataRecs bs ++ rest) :
    discard map h bs.length i t = some (t.at (dataRecs bs).length rest) := by
  induction bs generalizing i t with
  | nil => exact congrArg some (t.at_zero hrecs).symm
  | cons b bs ih =>
    rw [List.length_cons, discard, readEntry_dataRecs map hmap haddr hrecs, Option.bind_some,
      ih (by exact hmap) haddr.tail rfl, Tape.at_at, ← length_dataRecs_cons]

/-- The blocks of a header that belong to a file of which `size` bytes are left. -/
def lastIndex (size : ℤ) : ℕ := howmany size.toNat tpBsize

theorem lastIndex_of_le {size : ℤ} (hpos : 0 < size) (hle : size ≤ tpBsize) :
    lastIndex size = 1 := by
  rw [lastIndex, howmany, tpBsize] at *
  omega

theorem lastIndex_of_lt {size : ℤ} (hlt : tpBsize < size) :
    lastIndex size = lastIndex (size - tpBsize) + 1 := by
  rw [lastIndex, lastIndex, howmany, howmany, tpBsize] at *
  omega

@[simp] theorem size_block (fssize : ℕ) (s : FileState) (b : Option Block) :
    (s.block fssize b).size = s.size - tpBsize := by
  cases b with
  | none =>
    simp only [FileState.block, FileState.hole, FileState.advance]
    split <;> rfl
  | some b =>
    simp only [FileState.block, FileState.store, FileState.advance]
    split <;> rfl

/-- The loop over the entries of one header takes the blocks of the file and drops the others. -/
theorem fileBlocks_dataRecs (fssize : ℕ) {s : FileState} {bs : List (Option Block)} {i : ℕ}
    (hsize : bs ≠ [] → 0 < s.size) (hmap : t.readmapflag = false)
    (haddr : AddrMap h.cAddr i bs) (hrecs : t.recs = dataRecs bs ++ rest) :
    fileBlocks fssize h bs.length i (s, t) =
      some ((bs.take (lastIndex s.size)).foldl (FileState.block fssize) s,
        t.at (dataRecs bs).length rest) := by
  induction bs generalizing i s t with
  | nil => simp [fileBlocks, t.at_zero (by simpa using hrecs)]
  | cons b bs ih =>
    have hread := readEntry_dataRecs true hmap haddr hrecs
    simp only [List.length_cons, fileBlocks, hread, Option.bind_some, size_block]
    split
    case isTrue hlast =>
      rw [discard_dataRecs true (by exact hmap) haddr.tail rfl,
        lastIndex_of_le (hsize (List.cons_ne_nil _ _)) (by omega),
        length_dataRecs_cons b bs]
      simp
    case isFalse hmore =>
      have hlt : tpBsize < s.size := by omega
      rw [ih (fun _ => by rw [size_block]; omega) (by exact hmap) haddr.tail rfl, size_block,
        lastIndex_of_lt hlt, length_dataRecs_cons b bs]
      simp

theorem gethead_at {hd : Spcl} (hacc : hd.accepted = true) (hrecs : t.recs = .spcl hd :: rest) :
    gethead t =
      some (some hd.patch, { t.at 1 rest with readmapflag := hd.isLongMap }) := by
  simp [gethead, getheadWith, readtape_at hrecs, converthead, hacc]

theorem nextHeader_at {hd : Spcl} (date : Bool) (fuel : ℕ) (hacc : hd.accepted = true)
    (hdate : hd.cDate = t.dumpdate) (hrecs : t.recs = .spcl hd :: rest) :
    nextHeader date (fuel + 1) t =
      some (hd.patch, { t.at 1 rest with readmapflag := hd.isLongMap }) := by
  have hpatch : hd.patch.cDate = hd.cDate := by
    rw [Spcl.patch]
    split <;> rfl
  simp [nextHeader, gethead_at hacc hrecs, hpatch, hdate, Tape.at]

end Segments

/-! ## Reading a file -/

/-- A segment that continues a file: its header is one of `TS_ADDR`. -/
structure Segment.Continues (date : ℤ) (g : Segment) : Prop where
  accepted : g.header.accepted = true
  type : g.header.cType = .addr
  date : g.header.cDate = date

/-- The header of the object after a file. -/
structure Follows (date : ℤ) (next : Spcl) : Prop where
  accepted : next.accepted = true
  type : next.cType ≠ .addr ∧ next.cType ≠ .tape
  date : next.cDate = date

theorem size_foldl_block (fssize : ℕ) (bs : List (Option Block)) (s : FileState) :
    (bs.foldl (FileState.block fssize) s).size = s.size - bs.length * tpBsize := by
  induction bs generalizing s with
  | nil => simp
  | cons b bs ih =>
    rw [List.foldl_cons, ih, size_block, List.length_cons]
    push_cast
    ring

theorem lastIndex_le_iff (size : ℤ) {n : ℕ} : lastIndex size ≤ n ↔ size ≤ n * tpBsize := by
  rw [lastIndex, howmany, tpBsize]
  omega

theorem lastIndex_sub (size : ℤ) (n : ℕ) :
    lastIndex (size - n * tpBsize) = lastIndex size - n := by
  rw [lastIndex, lastIndex, howmany, howmany, tpBsize]
  omega

theorem patch_of_addr {h : Spcl} (htype : h.cType = .addr) : h.patch = h := by
  rw [Spcl.patch, htype]

theorem isLongMap_of_addr {h : Spcl} (htype : h.cType = .addr) : h.isLongMap = false := by
  rw [Spcl.isLongMap, htype]
  rfl

/-- The next header on a tape that has `segs` and then the header `next`. -/
def front (segs : List Segment) (next : Spcl) : Spcl :=
  match segs with
  | [] => next
  | g :: _ => g.header

@[simp] theorem front_cons (g : Segment) (segs : List Segment) (next : Spcl) :
    front (g :: segs) next = g.header := rfl

/-- The records after that header. -/
def afterFront (segs : List Segment) (next : Spcl) (rest : List Rec) : List Rec :=
  match segs with
  | [] => rest
  | g :: segs => dataRecs g.blocks ++ (segs.flatMap Segment.recs ++ .spcl next :: rest)

theorem front_cons_afterFront (segs : List Segment) (next : Spcl) (rest : List Rec) :
    .spcl (front segs next) :: afterFront segs next rest =
      segs.flatMap Segment.recs ++ .spcl next :: rest := by
  cases segs <;> simp [front, afterFront, Segment.recs]

theorem length_le_recs (segs : List Segment) :
    segs.length ≤ (segs.flatMap Segment.recs).length := by
  induction segs with
  | nil => simp
  | cons g segs ih =>
    simp only [List.flatMap_cons, List.length_append, List.length_cons, Segment.recs]
    omega

theorem length_le_afterFront (segs : List Segment) (next : Spcl) (rest : List Rec) :
    segs.length ≤ (afterFront segs next rest).length := by
  cases segs with
  | nil => simp
  | cons g segs =>
    have := length_le_recs segs
    simp only [afterFront, List.length_append, List.length_cons]
    omega

/-- The tape after that header is read, `n` records later. -/
def Tape.atFront (t : Tape) (n : ℕ) (segs : List Segment) (next : Spcl) (rest : List Rec) : Tape :=
  { t.at n (afterFront segs next rest) with readmapflag := (front segs next).isLongMap }

theorem Tape.at_atFront (t : Tape) (n m : ℕ) (as : List Rec) (segs : List Segment) (next : Spcl)
    (rest : List Rec) :
    (t.at n as).atFront m segs next rest = t.atFront (n + m) segs next rest := by
  simp [Tape.atFront, Tape.at, Int.add_assoc]

theorem Tape.atFront_at_atFront (t : Tape) (n k m : ℕ) (as : List Rec) (segs more : List Segment)
    (next : Spcl) (rest : List Rec) :
    ((t.atFront n segs next rest).at k as).atFront m more next rest =
      t.atFront (n + k + m) more next rest := by
  simp [Tape.atFront, Tape.at, Int.add_assoc]

section File

variable {next : Spcl} {rest : List Rec} {segs : List Segment} {t : Tape}

/-- The header after the data of a segment. -/
theorem nextHeader_segments (date : Bool) (hsegs : ∀ g ∈ segs, g.Continues t.dumpdate)
    (hnext : Follows t.dumpdate next)
    (hrecs : t.recs = segs.flatMap Segment.recs ++ .spcl next :: rest) :
    nextHeader date (t.total + 1) t =
      some ((front segs next).patch, t.atFront 1 segs next rest) := by
  have hfront : (front segs next).accepted = true ∧ (front segs next).cDate = t.dumpdate := by
    cases segs with
    | nil => exact ⟨hnext.accepted, hnext.date⟩
    | cons g segs =>
      have hg := hsegs g List.mem_cons_self
      exact ⟨hg.accepted, hg.date⟩
  rw [← front_cons_afterFront] at hrecs
  exact nextHeader_at date _ hfront.1 hfront.2 hrecs

/-- The header at the front is accepted, and starts no volume. -/
theorem front_spec (hsegs : ∀ g ∈ segs, g.Continues t.dumpdate) (hnext : Follows t.dumpdate next) :
    (front segs next).accepted = true ∧ (front segs next).cType ≠ .tape := by
  cases segs with
  | nil => exact ⟨hnext.accepted, hnext.type.2⟩
  | cons g segs =>
    have hg := hsegs g List.mem_cons_self
    exact ⟨hg.accepted, fun htape => by rw [front_cons, hg.type] at htape; cases htape⟩

/-- `findinode` goes to the header after the file. -/
theorem findinode_segments {fuel n : ℕ} (hfuel : segs.length < fuel)
    (hsegs : ∀ g ∈ segs, g.Continues t.dumpdate) (hnext : Follows t.dumpdate next) :
    ∃ m, findinode fuel (front segs next).patch (t.atFront n segs next rest) =
      some (next.patch, t.atFront m [] next rest) := by
  induction segs generalizing fuel n with
  | nil =>
    obtain ⟨fuel, rfl⟩ : ∃ k, fuel = k + 1 := ⟨fuel - 1, by simp at hfuel; omega⟩
    exact ⟨n, findinode_of_type (cMagic_patch hnext.accepted)
      (by rw [cType_patch]; exact hnext.type) fuel _⟩
  | cons g segs ih =>
    obtain ⟨fuel, rfl⟩ : ∃ k, fuel = k + 1 := ⟨fuel - 1, by simp at hfuel; omega⟩
    have hg := hsegs g List.mem_cons_self
    have hsegs' : ∀ g ∈ segs, g.Continues t.dumpdate := fun g' hg' =>
      hsegs g' (List.mem_cons_of_mem _ hg')
    have hcount : g.header.cCount.toNat = g.blocks.length := by rw [g.count, Int.toNat_natCast]
    have hdiscard := discard_dataRecs false (t := t.atFront n (g :: segs) next rest)
      (isLongMap_of_addr hg.type) g.addr rfl
    have hread := nextHeader_segments true
      (t := (t.atFront n (g :: segs) next rest).at (dataRecs g.blocks).length
        (segs.flatMap Segment.recs ++ .spcl next :: rest)) hsegs' hnext rfl
    obtain ⟨m, hfind⟩ := ih (n := n + (dataRecs g.blocks).length + 1) (by simpa using hfuel) hsegs'
    refine ⟨m, ?_⟩
    have hfront := front_spec hsegs' hnext
    rw [front_cons, patch_of_addr hg.type,
      findinode_of_addr (cMagic_of_accepted hg.accepted) hg.type]
    simp only [TapeSource.total_tape, hcount, hdiscard, Option.bind_some, hread,
      Tape.atFront_at_atFront]
    exact findinode_again (cMagic_patch hfront.1) (by rw [cType_patch]; exact hfront.2) hfind

/-- The loop of `getfile` takes the blocks of the file from the segments it needs. -/
theorem fileLoop_segments (fssize : ℕ) {fuel : ℕ} {h : Spcl} {s : FileState}
    {bs : List (Option Block)} (hcount : h.cCount = bs.length) (haddr : AddrMap h.cAddr 0 bs)
    (hfuel : segs.length < fuel) (hsize : bs ≠ [] → 0 < s.size)
    (hlast : lastIndex s.size ≤ (bs ++ segs.flatMap Segment.blocks).length)
    (hmap : t.readmapflag = false) (hsegs : ∀ g ∈ segs, g.Continues t.dumpdate)
    (hnext : Follows t.dumpdate next)
    (hrecs : t.recs = dataRecs bs ++ (segs.flatMap Segment.recs ++ .spcl next :: rest)) :
    ∃ more n, more <:+ segs ∧
      fileLoop fssize fuel h (s, t) = some ((front more next).patch,
        ((bs ++ segs.flatMap Segment.blocks).take (lastIndex s.size)).foldl
          (FileState.block fssize) s, t.atFront n more next rest) := by
  induction segs generalizing fuel h s bs t with
  | nil =>
    obtain ⟨fuel, rfl⟩ : ∃ n, fuel = n + 1 := ⟨fuel - 1, by simp at hfuel; omega⟩
    have hread : nextHeader false _ (t.at (dataRecs bs).length (.spcl next :: rest)) = _ :=
      nextHeader_segments false (List.forall_mem_nil _) hnext rfl
    have hdone : ¬ ((bs.take (lastIndex s.size)).foldl (FileState.block fssize) s).size > 0 := by
      rw [List.flatMap_nil, List.append_nil] at hlast
      rw [size_foldl_block, List.length_take_of_le hlast]
      have := (lastIndex_le_iff s.size).mp le_rfl
      omega
    refine ⟨[], (dataRecs bs).length + 1, List.suffix_rfl, ?_⟩
    simp only [fileLoop, TapeSource.total_tape, hcount, Int.toNat_natCast,
      fileBlocks_dataRecs fssize hsize hmap haddr hrecs, Option.bind_eq_bind, Option.bind_some,
      List.flatMap_nil, List.nil_append, hread, hdone, false_and, if_false, Tape.at_atFront,
      List.append_nil]
  | cons g segs ih =>
    obtain ⟨fuel, rfl⟩ : ∃ n, fuel = n + 1 := ⟨fuel - 1, by simp at hfuel; omega⟩
    have hg := hsegs g List.mem_cons_self
    have hread := nextHeader_segments false
      (t := t.at (dataRecs bs).length ((g :: segs).flatMap Segment.recs ++ .spcl next :: rest))
      hsegs hnext rfl
    have hsize' := size_foldl_block fssize (bs.take (lastIndex s.size)) s
    simp only [fileLoop, TapeSource.total_tape, hcount, Int.toNat_natCast,
      fileBlocks_dataRecs fssize hsize hmap haddr hrecs, Option.bind_eq_bind, Option.bind_some,
      hread, Tape.at_atFront, front_cons, patch_of_addr hg.type]
    by_cases hdone : lastIndex s.size ≤ bs.length
    · have hle : ¬ s.size - (bs.take (lastIndex s.size)).length * tpBsize > 0 := by
        rw [List.length_take_of_le hdone]
        have := (lastIndex_le_iff s.size).mp le_rfl
        omega
      refine ⟨g :: segs, (dataRecs bs).length + 1, List.suffix_rfl, ?_⟩
      simp only [hsize', hle, false_and, if_false, front_cons, patch_of_addr hg.type,
        List.take_append_of_le_length hdone]
    · have hall : bs.take (lastIndex s.size) = bs := List.take_of_length_le (by omega)
      have hgt : s.size - bs.length * tpBsize > 0 := by
        have := (lastIndex_le_iff s.size).not.mp hdone
        omega
      rw [hall] at hsize'
      obtain ⟨more, n, hmore, hloop⟩ := ih (h := g.header)
        (s := bs.foldl (FileState.block fssize) s)
        (t := t.atFront ((dataRecs bs).length + 1) (g :: segs) next rest)
        g.count g.addr (by simpa using hfuel) (fun _ => by rw [hsize']; exact hgt)
        (by
          rw [hsize', lastIndex_sub]
          simp only [List.flatMap_cons, List.length_append] at hlast ⊢
          omega)
        (isLongMap_of_addr hg.type) (fun g' hg' => hsegs g' (List.mem_cons_of_mem _ hg')) hnext rfl
      refine ⟨more, (dataRecs bs).length + 1 + n, hmore.trans (List.suffix_cons ..), ?_⟩
      have htake : (bs ++ (g :: segs).flatMap Segment.blocks).take (lastIndex s.size) =
          bs ++ (g.blocks ++ segs.flatMap Segment.blocks).take (lastIndex s.size - bs.length) := by
        rw [List.take_append, hall, List.flatMap_cons]
      simp only [hall, hsize', hgt, hg.type, and_self, if_true, hloop, lastIndex_sub, htake,
        List.foldl_append]
      simp [Tape.atFront, Tape.at, Int.add_assoc]

/-- **`getfile` on segments that are followed by another header**: it makes the calls for the
blocks of the file and stops at that header. -/
theorem getfile_segments {cap size : ℕ} {h : Spcl} {bs : List (Option Block)}
    (htype : h.cType = .inode) (hmagic : h.cMagic = nfsMagic) (hdi : h.cDinode.diSize = size)
    (hsize : size < 2 ^ 63) (hcount : h.cCount = bs.length) (haddr : AddrMap h.cAddr 0 bs)
    (hempty : bs ≠ [] → 0 < size)
    (hlast : lastIndex size ≤ (bs ++ segs.flatMap Segment.blocks).length)
    (hmap : t.readmapflag = false) (hsegs : ∀ g ∈ segs, g.Continues t.dumpdate)
    (hnext : Follows t.dumpdate next)
    (hrecs : t.recs = dataRecs bs ++ (segs.flatMap Segment.recs ++ .spcl next :: rest)) :
    ∃ t', getfile (cap * tpBsize) false h t =
      some ((((bs ++ segs.flatMap Segment.blocks).take (lastIndex size)).foldl
          (FileState.block (cap * tpBsize)) ⟨[], size, false, []⟩).finish size,
        next.patch, t') ∧ t'.recs = rest := by
  have htotal : segs.length < t.total := by
    have := length_le_recs segs
    rw [Tape.total, hrecs]
    simp only [List.length_append, List.length_cons]
    omega
  have horig : (h.cDinode.diSize : ℤ).bmod (2 ^ 64) = size := by
    rw [hdi, Int.bmod_eq_of_le] <;> omega
  have hfuel : segs.length < t.total + 1 := by omega
  obtain ⟨more, n, hmore, hloop⟩ := fileLoop_segments (cap * tpBsize) (s := ⟨[], size, false, []⟩)
    hcount haddr hfuel (fun hbs => by simpa using hempty hbs) hlast hmap hsegs hnext hrecs
  have hfuel' : more.length < (t.atFront n more next rest).total + 1 := by
    have : more.length ≤ (afterFront more next rest).length := length_le_afterFront ..
    simp only [Tape.total, Tape.atFront, Tape.at_recs]
    omega
  obtain ⟨m, hfind⟩ : ∃ m, findinode ((t.atFront n more next rest).total + 1)
      (front more next).patch (t.atFront n more next rest) =
        some (next.patch, t.atFront m [] next rest) :=
    findinode_segments hfuel' (fun g hg => hsegs g (hmore.subset hg)) hnext
  refine ⟨t.atFront m [] next rest, ?_, rfl⟩
  have hstart : ¬ (h.cType = .end_ ∨ h.cMagic ≠ nfsMagic) := by simp [htype, hmagic]
  simp only [getfile, TapeSource.total_tape, if_neg hstart, horig, hloop, Option.bind_eq_bind,
    Option.bind_some, hfind]
  simp

end File

/-! ## What is delivered -/

/-- The file ends inside a hole, and the run of allocated blocks before that hole does not fill
whole buffers: the case in which the last flush is cut short. -/
def LosesTail (cap size : ℕ) (blocks : List (Option Block)) : Prop :=
  size % tpBsize ≠ 0 ∧ blocks[size / tpBsize]? = some none ∧
    Sparse.run (blocks.take (size / tpBsize)) % cap ≠ 0

section Delivered

variable {cap size : ℕ} {blocks : List (Option Block)}

theorem lastIndex_pos (hpos : 0 < size) : 0 < lastIndex size := by
  rw [lastIndex, howmany, tpBsize]
  omega

/-- The blocks of the file before its last one, and the last one. -/
theorem take_lastIndex (hpos : 0 < size) (hlast : lastIndex size ≤ blocks.length) :
    ∃ b, blocks[lastIndex size - 1]? = some b ∧
      blocks.take (lastIndex size) = blocks.take (lastIndex size - 1) ++ [b] := by
  have hidx := lastIndex_pos hpos
  refine ⟨blocks[lastIndex size - 1], List.getElem?_eq_getElem (by omega), ?_⟩
  rw [List.take_append_getElem, Nat.sub_add_cancel hidx]

/-- The contents of the file are those of the blocks up to its last one. -/
theorem take_expand_lastIndex (hlast : lastIndex size ≤ blocks.length) :
    (expand (blocks.take (lastIndex size))).take size = (expand blocks).take size := by
  have hcover : size ≤ lastIndex size * tpBsize := by
    exact_mod_cast (lastIndex_le_iff _).mp (le_refl (lastIndex size))
  have hlen : size ≤ (expand (blocks.take (lastIndex size))).length := by
    rwa [length_expand, List.length_take_of_le hlast]
  conv_rhs => rw [← List.take_append_drop (lastIndex size) blocks, expand, Sparse.expand_append]
  exact (List.take_append_of_le_length hlen).symm

/-- **What the calls deliver** is the file, unless the file ends in a hole after blocks that are
still in the buffer. -/
theorem delivered_eq_iff (hcap : 0 < cap) (hlast : lastIndex size ≤ blocks.length) :
    delivered (((blocks.take (lastIndex size)).foldl
        (FileState.block (cap * tpBsize)) ⟨[], size, false, []⟩).finish size) =
      (expand blocks).take size ↔ ¬ LosesTail cap size blocks := by
  rcases Nat.eq_zero_or_pos size with rfl | hpos
  · have hzero : lastIndex (0 : ℕ) = 0 := rfl
    rw [hzero, List.take_zero, List.take_zero, List.foldl_nil, delivered_finish_of_nil rfl le_rfl]
    simp [LosesTail]
  obtain ⟨b, hb, htake⟩ := take_lastIndex hpos hlast
  have hidx := lastIndex_pos hpos
  have hinit : (blocks.take (lastIndex size - 1)).length = lastIndex size - 1 :=
    List.length_take_of_le (by omega)
  have hle := (lastIndex_le_iff _).mp (le_refl (lastIndex size))
  have hlt := (lastIndex_le_iff _).not.mp (show ¬ lastIndex size ≤ lastIndex size - 1 by omega)
  have hgathered := (gathered_nil cap size).foldl hcap (blocks.take (lastIndex size - 1))
    (by rw [List.nil_append, hinit]; omega)
  rw [List.nil_append] at hgathered
  have hsize := hgathered.size
  rw [hinit] at hsize
  rw [← take_expand_lastIndex hlast, htake, List.foldl_append, List.foldl_cons, List.foldl_nil]
  generalize (blocks.take (lastIndex size - 1)).foldl (FileState.block (cap * tpBsize))
    ⟨[], size, false, []⟩ = s at hgathered hsize ⊢
  have hrem : 0 < s.size := by omega
  have hfits : s.size ≤ tpBsize := by
    rw [tpBsize] at *
    omega
  -- The last block of a file with a partial one is the one at `size / tpBsize`.
  have hdiv : size % tpBsize ≠ 0 → size / tpBsize = lastIndex size - 1 := by
    intro hmod
    rw [tpBsize] at *
    omega
  have hwhole : size % tpBsize = 0 ↔ s.size = tpBsize := by
    rw [tpBsize] at *
    omega
  cases b with
  | some b =>
    refine iff_of_true (hgathered.finish_some hrem hfits b) ?_
    rintro ⟨hmod, hnone, -⟩
    rw [hdiv hmod, hb] at hnone
    simp at hnone
  | none =>
    by_cases hbuf : s.buf = [] ∨ s.size = tpBsize
    · refine iff_of_true (hgathered.finish_none hrem hfits hbuf) ?_
      rintro ⟨hmod, -, hrun⟩
      rw [hdiv hmod, ← hgathered.buf, ne_eq, List.length_eq_zero_iff] at hrun
      exact hbuf.elim hrun (hwhole.not.mp hmod)
    · obtain ⟨hne, hpart⟩ := not_or.mp hbuf
      have hmod := hwhole.not.mpr hpart
      refine iff_of_false (fun heq => ?_) (not_not_intro ⟨hmod, ?_, ?_⟩)
      · have hlen := hgathered.length_finish_none size hrem hfits hne
        have hcover : (expand (blocks.take (lastIndex size - 1) ++ [none])).length =
            lastIndex size * tpBsize := by
          rw [← htake, length_expand, List.length_take_of_le hlast]
        rw [heq, List.length_take, hcover, tpBsize] at hlen
        rw [tpBsize] at *
        omega
      · rwa [hdiv hmod]
      · rwa [hdiv hmod, ← hgathered.buf, ne_eq, List.length_eq_zero_iff]

end Delivered

end DumpRestore
