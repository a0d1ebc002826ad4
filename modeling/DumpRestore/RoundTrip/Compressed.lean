import DumpRestore.RoundTrip.Blocks

/-!
# Reading a compressed volume

A compressed volume has the same records as the uncompressed one, but for the flag `DR_COMPRESSED`
and the checksums of the headers. `readtape_comprfile` hands them out in the order in which
`readtape_uncompr` does.

* `Comprfile` is the invariant of `readtape_comprfile`.
* `compressed_as_uncompressed` is the main theorem.
-/

namespace DumpRestore

open ByteOrder

/-! ## The prefix -/

/-- The prefix comes back, whichever machine wrote it. -/
theorem converttapebuf_image (m t : Order) {b : TapeBuf} (hb : b.Valid) :
    Reader.converttapebuf m (decide (t = m.other)) (b.image t) = b := by
  have hswab (bs : List UInt8) (h : bs.length = 4) : swabst ['i'] 0 bs = swab [4] (bs ++ []) := by
    have htake : bs.take 4 = bs := List.take_of_length_le h.le
    simp [swabst, swab, htake, List.drop_of_length_le h.le]
  have hread (o : Order) (w : ℕ) (hw : w < 256 ^ TapeBuf.prefixSize) :
      (ByteOrder.read o [TapeBuf.prefixSize] (ByteOrder.image o [⟨TapeBuf.prefixSize, w⟩])).headD 0
        = w := by
    have h := read_image o [⟨TapeBuf.prefixSize, w⟩] []
    rw [List.append_nil, List.map_singleton] at h
    rw [h, List.map_singleton, List.headD_cons, Scalar.stored, Nat.mod_eq_of_lt hw]
  rw [Reader.converttapebuf]
  by_cases ht : t = m.other
  · have himage :
        swabst ['i'] 0 (b.image t) = ByteOrder.image m [⟨TapeBuf.prefixSize, b.word t⟩] := by
      have h := swab_image_other t [⟨TapeBuf.prefixSize, b.word t⟩] []
      rw [show t.other = m by rw [ht]; cases m <;> rfl, List.append_nil, List.append_nil] at h
      rw [hswab _ (TapeBuf.length_image t b), List.append_nil]
      exact h
    rw [if_pos (decide_eq_true ht), himage, hread m _ (TapeBuf.word_lt t b), ht,
      TapeBuf.ofTb_word hb]
  · obtain rfl := eq_of_ne_other ht
    rw [if_neg (by simpa using ht), TapeBuf.image, hread t _ (TapeBuf.word_lt t b),
      TapeBuf.ofWord_word hb]

section Slave

variable (lib : CompressLib) (zipflag : Zip) (t : Order)

/-- The two forms of a block with a prefix. -/
theorem compressBlock_cases (call : ℕ) (tblock : List UInt8) :
    (∃ out, lib.compress zipflag call (tpBsize + tblock.length) tblock = some out ∧
        out.length ≤ tblock.length - 16 ∧
        compressBlock lib zipflag t call tblock =
          TapeBuf.image t ⟨true, zipflag.code, out.length⟩ ++ out) ∨
      compressBlock lib zipflag t call tblock =
        TapeBuf.image t ⟨false, zipflag.code, tblock.length⟩ ++ tblock := by
  rw [compressBlock]
  cases hout : lib.compress zipflag call (tpBsize + tblock.length) tblock with
  | none => exact .inr rfl
  | some out =>
    by_cases hlen : out.length ≤ tblock.length - 16
    · exact .inl ⟨out, rfl, hlen, if_pos hlen⟩
    · exact .inr (if_neg hlen)

end Slave

namespace Reader

/-! ## The reader of compressed blocks -/

section Comprfile

variable (lib : CompressLib) (m : Order) (zipflag : Zip) (t : Order) (n : ℕ)

/-- Between two records of a compressed volume with blocks of `n` records: `cur` are left in the
buffer, and `bs` are the blocks left in the input. -/
structure Comprfile (cur : List Block) (bs : List (List Block × ℕ)) (r : Reader) : Prop where
  func : r.readtapeFunc = .comprfile
  holds : r.Holds cur
  input : r.input.bytes = bs.flatMap fun b => compressBlock lib zipflag t b.2 (bytes b.1)
  length_blocks : ∀ b ∈ bs, b.1.length = n
  ntrec : r.ntrec = n
  numtrec : r.numtrec = n
  blkcnt : r.blkcnt + cur.length = n
  bufsize : n * tpBsize ≤ r.bufsize
  comprlen : n * tpBsize ≤ r.comprlen
  bcvt : r.cvt.bcvt = decide (t = m.other)
  neverEmpty : r.vflag = true → lib.NeverEmpty

variable {lib m zipflag t n}

/-- A record from the buffer. -/
theorem Comprfile.take {c : Block} {cs : List Block} {bs : List (List Block × ℕ)} {r : Reader}
    (h : Comprfile lib m zipflag t n (c :: cs) bs r) :
    r.take.1 = c.bytes ∧ Comprfile lib m zipflag t n cs bs r.take.2 := by
  have hcnt := h.blkcnt
  rw [List.length_cons] at hcnt
  exact ⟨h.holds.take.1, { h with
    holds := h.holds.take.2
    blkcnt := by rw [← hcnt]; simp only [Reader.take]; omega }⟩

variable (lib) in
/-- `readtape_comprfile` on a block with prefix `tb`, up to the call of `decompress_tapebuf`. -/
theorem readtapeComprfile_eq {r : Reader} {tb : TapeBuf} {data rest : List UInt8}
    (hcnt : r.numtrec ≤ r.blkcnt) (hbcvt : r.cvt.bcvt = decide (t = m.other)) (htb : tb.Valid)
    (hinput : r.input.bytes = tb.image t ++ data ++ rest) (hlen : tb.length = data.length)
    (hbuf : tb.length ≤ r.bufsize) (hempty : r.vflag = true → tb.length ≠ 0) :
    ∃ input tapebuf, input.bytes = rest ∧ tapebuf.read TapeBuf.prefixSize tb.length = data ∧
      readtapeComprfile lib m r =
        match decompressTapebuf lib tb { r with input, tapebuf, numtrec := r.ntrec } with
        | (some tbufptr, r) => some ({ r with tbufptr, blkcnt := 0 } : Reader).take
        | (none, r) =>
          if r.goOn then
            some ({ r with
              tapebuf := r.tapebuf.write 0 (List.replicate r.bufsize 0)
              tbufptr := .tapebuf 0
              blkcnt := 0 } : Reader).take
          else none := by
  obtain ⟨input₁, hread₁, hbytes₁, -⟩ :=
    Input.readABlock_spec TapeBuf.prefixSize le_rfl r.input
  obtain ⟨input₂, hread₂, hbytes₂, -⟩ := Input.readABlock_spec tb.length le_rfl input₁
  have himage : (tb.image t).length = TapeBuf.prefixSize := TapeBuf.length_image t tb
  rw [hinput, List.append_assoc, List.take_left' himage] at hread₁
  rw [hinput, List.append_assoc, List.drop_left' himage] at hbytes₁
  rw [hbytes₁, List.take_left' hlen.symm] at hread₂
  rw [hbytes₁, List.drop_left' hlen.symm] at hbytes₂
  refine ⟨input₂, ((clearMagic r.ntrec r.tapebuf).write 0 (tb.image m)).write
    TapeBuf.prefixSize data, hbytes₂, by rw [hlen, Mem.read_write], ?_⟩
  rw [readtapeComprfile, if_neg (by omega), hread₁]
  dsimp only
  rw [hbcvt, converttapebuf_image m t htb, if_neg (by rw [himage]; simpa using hempty)]
  simp only [min_eq_left hbuf, hread₂]
  exact (if_neg (by omega)).trans rfl

/-- The next block: what `readtape_comprfile` has in its buffer when it takes the first record. -/
theorem Comprfile.refill {b : List Block} {call : ℕ} {bs : List (List Block × ℕ)} {r : Reader}
    (hn : 0 < n) (hn' : n ≤ 1024) (h : Comprfile lib m zipflag t n [] ((b, call) :: bs) r) :
    ∃ r', readtapeComprfile lib m r = some r'.take ∧ Comprfile lib m zipflag t n b bs r' ∧
      r'.blkcnt = 0 ∧ r'.blksread = r.blksread ∧ r'.tpblksread = r.tpblksread := by
  have hb := h.length_blocks (b, call) (List.mem_cons_self ..)
  have hbs : ∀ b ∈ bs, b.1.length = n := fun b hb => h.length_blocks b (List.mem_cons_of_mem _ hb)
  have hlen : (bytes b).length = n * 1024 := by rw [length_bytes, hb]; rfl
  have hbuf : n * 1024 ≤ r.bufsize := h.bufsize
  have hnumtrec : (bytes b).length / tpBsize = n := by
    rw [hlen]
    exact Nat.mul_div_cancel n (by decide)
  have hcnt : r.numtrec ≤ r.blkcnt := by
    have := h.blkcnt
    have := h.numtrec
    simp only [List.length_nil] at *
    omega
  have hinput := h.input
  rw [List.flatMap_cons] at hinput
  rcases compressBlock_cases lib zipflag t call (bytes b) with ⟨out, hout, hshort, hblock⟩ | hblock
  · rw [hblock] at hinput
    have hvalid : (⟨true, zipflag.code, out.length⟩ : TapeBuf).Valid :=
      ⟨zipflag.code_lt, by simp only; omega⟩
    obtain ⟨input, tapebuf, hin, hdata, heq⟩ := readtapeComprfile_eq lib hcnt h.bcvt hvalid
      hinput rfl (by simp only; omega) fun hv h0 =>
        h.neverEmpty hv _ _ _ _ (List.length_eq_zero_iff.mp h0 ▸ hout)
    have hroom : (bytes b).length ≤ r.comprlen := hlen.le.trans h.comprlen
    rw [heq, decompressTapebuf, if_pos rfl, Zip.ofCode_code]
    dsimp only
    rw [hdata, lib.decompress_of_compress hout hroom]
    refine ⟨_, rfl, { h with
      holds := ?_
      input := hin
      length_blocks := hbs
      numtrec := hnumtrec
      blkcnt := (Nat.zero_add _).trans hb }, rfl, rfl, rfl⟩
    change (r.comprbuf.write 0 (bytes b)).read (0 * tpBsize) (b.length * tpBsize) = bytes b
    rw [Nat.zero_mul, ← length_bytes, Mem.read_write]
  · rw [hblock] at hinput
    have hvalid : (⟨false, zipflag.code, (bytes b).length⟩ : TapeBuf).Valid :=
      ⟨zipflag.code_lt, by simp only; omega⟩
    obtain ⟨input, tapebuf, hin, hdata, heq⟩ := readtapeComprfile_eq lib hcnt h.bcvt hvalid
      hinput rfl (by simp only; omega) fun _ => by simp only; omega
    rw [heq, decompressTapebuf, if_neg (by simp)]
    refine ⟨_, rfl, { h with
      holds := ?_
      input := hin
      length_blocks := hbs
      numtrec := hnumtrec
      blkcnt := (Nat.zero_add _).trans hb }, rfl, rfl, rfl⟩
    change (tapebuf.shift TapeBuf.prefixSize).read (0 * tpBsize) (b.length * tpBsize) = bytes b
    rw [Nat.zero_mul, Mem.read_shift, Nat.add_zero, ← length_bytes]
    exact hdata

/-- The next record of a compressed volume. -/
theorem Comprfile.next {k : ℕ} {c : Block} {cs cur : List Block} {bs : List (List Block × ℕ)}
    {r : Reader} (hn : 0 < n) (hn' : n ≤ 1024) (h : Comprfile lib m zipflag t n cur bs r)
    (hpos : r.blkcnt = position n k) (hcs : c :: cs = cur ++ (bs.map Prod.fst).flatten) :
    ∃ r' cur bs, readtape lib m r = some r'.take ∧ Comprfile lib m zipflag t n (c :: cur) bs r' ∧
      cs = cur ++ (bs.map Prod.fst).flatten ∧ r'.blkcnt + 1 = position n (k + 1) ∧
      r'.blksread = r.blksread ∧ r'.tpblksread = r.tpblksread := by
  have hread : readtape lib m r = readtapeComprfile lib m r := by
    rw [readtape, if_neg (by rw [h.func]; decide)]
    simp only [h.func]
  have hcnt := h.blkcnt
  have hnum := h.numtrec
  rcases cur with _ | ⟨c', cur⟩
  rotate_left
  · obtain ⟨rfl, rfl⟩ : c = c' ∧ cs = cur ++ (bs.map Prod.fst).flatten := by simpa using hcs
    rw [List.length_cons] at hcnt
    refine ⟨r, cur, bs, ?_, h, rfl, ?_, rfl, rfl⟩
    · rw [hread, readtapeComprfile, if_pos (by omega)]
    · rw [position_succ (by omega), hpos]
  rcases bs with _ | ⟨⟨b, call⟩, bs⟩
  · simp at hcs
  · obtain ⟨r', heq, hr', hzero, hb, htp⟩ := h.refill hn hn'
    have hlen : b.length = n := h.length_blocks (b, call) (List.mem_cons_self ..)
    obtain ⟨c', cur, rfl⟩ := List.exists_cons_of_length_pos (hlen.symm ▸ hn)
    obtain ⟨rfl, rfl⟩ : c = c' ∧ cs = cur ++ (bs.map Prod.fst).flatten := by simpa using hcs
    rw [List.length_nil] at hcnt
    refine ⟨r', cur, bs, hread.trans heq, hr', rfl, ?_, hb, htp⟩
    rw [hzero, (position_succ_of_le hn (by omega)).2]

/-- The records of the buffer and of the blocks in the input are delivered. -/
theorem delivers_comprfile (hn : 0 < n) (hn' : n ≤ 1024) :
    Delivers lib m fun k rs r => r.ready.blkcnt = position n k ∧
      ∃ cur bs, rs = cur ++ (bs.map Prod.fst).flatten ∧
        Comprfile lib m zipflag t n cur bs r.ready := by
  refine delivers_ready (fun k rs r => r.blkcnt = position n k ∧
    ∃ cur bs, rs = cur ++ (bs.map Prod.fst).flatten ∧ Comprfile lib m zipflag t n cur bs r) ?_ ?_
  · rintro k rs r ⟨-, cur, bs, -, h⟩
    rw [h.func]
    decide
  · rintro k c cs r ⟨hpos, cur, bs, hcs, h⟩
    obtain ⟨r', cur, bs, hread, h', rfl, hpos', hb, htp⟩ := h.next hn hn' hpos hcs
    exact ⟨r', hread, h'.take.1, ⟨hpos', cur, bs, rfl, h'.take.2⟩, hb, htp⟩

end Comprfile

/-! ## The first record -/

theorem cFlags_setCompressed (c : Bool) (e : Emitted) :
    (e.setCompressed c).spcl.cFlags &&& drCompressed ≠ 0 ↔ c = true := by
  cases c
  · have hzero : e.spcl.cFlags &&& ~~~drCompressed &&& drCompressed = 0#32 := by
      rw [BitVec.and_assoc, show ~~~drCompressed &&& drCompressed = 0#32 by decide, BitVec.and_zero]
    simp [Emitted.setCompressed, hzero]
  · have hself : (e.spcl.cFlags ||| drCompressed) &&& drCompressed = drCompressed := by
      ext i
      simp
      tauto
    simp [Emitted.setCompressed, hself]
    decide

/-- The state that `findtapeblksize` leaves. -/
def found (r : Reader) (compressed : Bool) (ntrec : ℕ) (input : Input) (cvt : Cvt) (buf : Mem) :
    Reader :=
  { r with
    input
    cvt
    zflag := r.zflag || compressed
    ntrec
    tapebuf := buf
    tbufptr := .tapebuf 0
    blkcnt := 0
    numtrec := ntrec }

theorem holds_found {r : Reader} {c : Bool} {ntrec : ℕ} {input : Input} {cvt : Cvt} {buf : Mem}
    {rs : List Block} (h : buf.read 0 (rs.length * tpBsize) = bytes rs) :
    (r.found c ntrec input cvt buf).Holds rs := by
  change (buf.shift 0).read (0 * tpBsize) (rs.length * tpBsize) = bytes rs
  rwa [Mem.read_shift, Nat.zero_mul, Nat.zero_add]

theorem Holds.ready {r : Reader} {rs : List Block} (h : r.Holds rs) : r.ready.Holds rs := by
  rw [Reader.ready, readtapeSet, newcomprbuf]
  split
  · split <;> exact h
  · exact h

/-- `findtapeblksize` at the header of a volume: how many records a block has, and what it has read
of the volume. -/
theorem findtapeblksize_eq {m t : Order} {c : Bool} {e : Emitted} {r : Reader} (ntrec len : ℕ)
    {rest : List UInt8} {cur : List Block}
    (hin : r.input.bytes = (Written.block t c (.header e)).bytes ++ rest)
    (hb : r.cvt.bcvt = true → t = m.other) (hold : r.cvt.oldinofmt = false)
    (htype : e.spcl.cType = .tape)
    (hntrec : if c then e.spcl.cNtrec = ntrec ∧ ntrec ≤ r.ntrec else ntrec = r.ntrec)
    (hlen : len = if c then (ntrec - 1) * tpBsize else r.bufsize - tpBsize)
    (hcur : rest.take len = bytes cur) :
    ∃ input cvt buf, findtapeblksize m r = some (r.found c ntrec input cvt buf) ∧
      input.bytes = rest.drop len ∧ cvt.bcvt = decide (t = m.other) ∧
      (r.found c ntrec input cvt buf).Holds (Written.block t c (.header e) :: cur) := by
  obtain ⟨input₁, hread₁, hbytes₁, -⟩ := Input.readABlock_spec tpBsize le_rfl r.input
  obtain ⟨input₂, hread₂, hbytes₂, -⟩ := Input.readABlock_spec len le_rfl input₁
  obtain ⟨h', hhead, hdecoded, hcvt⟩ := convertheadBytes_image m t (e.setCompressed c) hb hold
  have himage := (Written.block t c (.header e)).length_bytes
  rw [hin, List.take_left' himage] at hread₁
  rw [hin, List.drop_left' himage] at hbytes₁
  rw [hbytes₁] at hread₂ hbytes₂
  rw [hcur] at hread₂
  change (convertheadBytes m (Written.block t c (.header e)).bytes r.cvt).1 = _ at hhead
  change (convertheadBytes m (Written.block t c (.header e)).bytes r.cvt).2 = _ at hcvt
  generalize Written.block t c (.header e) = img at *
  have hfirst (buf : Mem) : (buf.write 0 img.bytes).read 0 tpBsize = img.bytes := by
    simpa only [himage] using Mem.read_write buf 0 img.bytes
  obtain ⟨cvt, hconv, hbcvt⟩ : ∃ cvt, convertheadBytes m img.bytes r.cvt = (some h', cvt) ∧
      cvt.bcvt = decide (t = m.other) :=
    ⟨_, Prod.ext hhead rfl, congrArg Cvt.bcvt hcvt⟩
  have hcompressed : (h'.cType = .tape ∧ h'.cFlags &&& drCompressed ≠ 0) ↔ c = true := by
    rw [hdecoded.cType, hdecoded.cFlags]
    exact (and_iff_right htype).trans (cFlags_setCompressed c e)
  have hcNtrec : h'.cNtrec = e.spcl.cNtrec := hdecoded.cNtrec
  have hadmit : ¬(c = true ∧ (r.ntrec : ℤ) < h'.cNtrec) := by
    rintro ⟨rfl, hlt⟩
    rw [hcNtrec, hntrec.1] at hlt
    have := hntrec.2
    omega
  have hn : (if c = true then h'.cNtrec.toNat else r.ntrec) = ntrec := by
    cases c
    · exact hntrec.symm
    · rw [if_pos rfl, hcNtrec, hntrec.1, Int.toNat_natCast]
  refine ⟨input₂, cvt, ((clearMagic r.ntrec r.tapebuf).write 0 img.bytes).write tpBsize (bytes cur),
    ?_, hbytes₂, hbcvt, ?_⟩
  rotate_left
  · refine holds_found ?_
    rw [List.length_cons, Nat.add_comm cur.length, Nat.add_mul, one_mul, Mem.read_add,
      Nat.zero_add, ← length_bytes, Mem.read_write,
      (Mem.agree_write_below _ (bytes cur) 0 tpBsize le_rfl).read le_rfl (by omega), hfirst,
      bytes_cons]
  · simp only [findtapeblksize, hread₁, himage, lt_irrefl, if_false, hfirst]
    rw [hconv]
    simp only [Option.bind_eq_bind, Option.bind_some, hcompressed, if_neg hadmit, hn, ← hlen,
      hread₂, length_bytes, Nat.mul_mod_left]
    rw [if_neg (by simp)]
    simp only [Bool.decide_eq_true, found]

/-! ## Volumes -/

/-- The volume with the bytes `tape` from a machine of byte order `t` has just been opened. No
header in the old format has been seen. -/
structure Opened (m t : Order) (tape : List UInt8) (r : Reader) : Prop where
  input : r.input.bytes = tape
  bcvt : r.cvt.bcvt = true → t = m.other
  newinodefmt : r.cvt.oldinofmt = false

section Volumes

variable {lib : CompressLib} {m t : Order} {zipflag : Zip} {v : Volume} {r : Reader} {n : ℕ}

/-- The records of a compressed volume. `findtapeblksize` admits blocks of up to the `ntrec` records
that restore was started with, and an empty block would end a volume with `-V`. -/
theorem readVolume_true (hr : Opened m t (v.tape lib zipflag t true) r)
    (hntrec : v.ntrec ≤ r.ntrec) (hbufsize : r.ntrec * tpBsize ≤ r.bufsize)
    (hempty : r.vflag = true → lib.NeverEmpty) (hn : n ≤ v.written.length) :
    ∃ s, readVolume lib m n r = some (((v.recs t true).take n).map Block.bytes, s) ∧
      s.blksread = r.blksread + n ∧ s.tpblksread = r.tpblksread + n ∧
      s.blkcnt = position v.ntrec n ∧ s.numtrec = v.ntrec := by
  have hfirst := v.length_first
  have hin := hr.input
  rw [v.tape_true, List.map_cons, bytes_cons, List.append_assoc] at hin
  have hcur : (v.first.map (Written.block t true)).length = v.ntrec - 1 := by
    rw [List.length_map]
    omega
  have hlen : (bytes (v.first.map (Written.block t true))).length = (v.ntrec - 1) * tpBsize := by
    rw [length_bytes, hcur]
  obtain ⟨input, cvt, buf, heq, hinput, hbcvt, hholds⟩ := findtapeblksize_eq (c := true)
    (r := { r with readtapeFunc := .set }) v.ntrec ((v.ntrec - 1) * tpBsize)
    hin hr.bcvt hr.newinodefmt v.cType ⟨v.cNtrec, hntrec⟩ rfl (List.take_left' hlen)
  rw [List.drop_left' hlen] at hinput
  have hstart : Comprfile lib m zipflag t v.ntrec
      ((.header v.header :: v.first).map (Written.block t true)) (v.later t)
      (found { r with readtapeFunc := .set } true v.ntrec input cvt buf).ready := by
    have hset : (found { r with readtapeFunc := .set } true v.ntrec input cvt buf).readtapeFunc =
        .set := rfl
    have hready := hholds.ready
    rw [ready, if_pos hset, readtapeSet, if_pos (by simp [found])] at hready ⊢
    exact {
      func := rfl
      holds := hready
      input := hinput
      length_blocks := by
        intro b hb
        have hmem := v.map_fst_later t ▸ List.mem_map_of_mem (f := Prod.fst) hb
        obtain ⟨ws, hws, heq⟩ := List.mem_map.mp hmem
        rw [← heq, List.length_map, v.length_blocks ws hws]
      ntrec := rfl
      numtrec := rfl
      blkcnt := by
        rw [List.length_map, List.length_cons, hfirst]
        exact Nat.zero_add _
      bufsize := (Nat.mul_le_mul_right tpBsize hntrec).trans hbufsize
      comprlen := le_max_of_le_right (by simp only [found, tpBsize]; omega)
      bcvt := hbcvt
      neverEmpty := hempty }
  have hrecs : v.recs t true = (.header v.header :: v.first).map (Written.block t true) ++
      ((v.later t).map Prod.fst).flatten := by
    rw [v.map_fst_later, Volume.recs, Volume.written, List.map_append, List.map_flatten]
  have hinv : (found { r with readtapeFunc := .set } true v.ntrec input cvt buf).ready.blkcnt =
      position v.ntrec 0 := (ready_counters _).1
  obtain ⟨s, hread, ⟨hpos, cur, bs, -, hs⟩, hb, htp⟩ :=
    Delivers.readRecs lib m (delivers_comprfile (by omega) v.ntrec_le)
      ⟨hinv, _, _, hrecs, hstart⟩ (hn.trans_eq (List.length_map ..).symm)
  refine ⟨s, ?_, hb, htp, ?_, ?_⟩
  · rw [readVolume, heq]
    exact hread
  · rw [← (ready_counters s).1, hpos, Nat.zero_add]
  · rw [← (ready_counters s).2.1]
    exact hs.numtrec

/-- The records of an uncompressed volume, with blocks of the `ntrec` records that restore was
started with. -/
theorem readVolume_false (hr : Opened m t (v.tape lib zipflag t false) r) (hntrec : 0 < r.ntrec)
    (hbufsize : r.bufsize = r.ntrec * tpBsize) (hzflag : r.zflag = false)
    (hn : n ≤ v.written.length) :
    ∃ s, readVolume lib m n r = some (((v.recs t false).take n).map Block.bytes, s) ∧
      s.blksread = r.blksread + n ∧ s.tpblksread = r.tpblksread + n ∧
      s.blkcnt = position r.ntrec n ∧ (r.ntrec = v.ntrec → s.numtrec = v.ntrec) := by
  have hrecs : v.recs t false = Written.block t false (.header v.header) ::
      (v.first ++ v.blocks.flatten).map (Written.block t false) := rfl
  have hlen : (v.recs t false).length = v.written.length := List.length_map ..
  have hdvd : v.ntrec ∣ v.written.length := by
    rw [Volume.written, List.cons_append, List.length_cons, List.length_append,
      List.length_flatten]
    have hsum : (v.blocks.map List.length).sum = v.blocks.length * v.ntrec := by
      rw [List.map_congr_left v.length_blocks, List.map_const', List.sum_replicate_nat]
    have := v.length_first
    exact ⟨v.blocks.length + 1, by rw [hsum, Nat.mul_add, Nat.mul_comm v.ntrec]; omega⟩
  have hin := hr.input
  rw [v.tape_false, hrecs, bytes_cons] at hin
  obtain ⟨input, cvt, buf, heq, hinput, -, hholds⟩ := findtapeblksize_eq (c := false)
    (r := { r with readtapeFunc := .set }) r.ntrec ((r.ntrec - 1) * tpBsize)
    hin hr.bcvt hr.newinodefmt v.cType rfl
    (by change _ = r.bufsize - tpBsize; rw [hbufsize, Nat.sub_mul, one_mul]) (bytes_take ..).symm
  have hstart : Uncompr r.ntrec 0 (v.recs t false)
      (found { r with readtapeFunc := .set } false r.ntrec input cvt buf).ready := by
    have htake : (v.recs t false).take (r.ntrec - 0) = Written.block t false (.header v.header) ::
        ((v.first ++ v.blocks.flatten).map (Written.block t false)).take (r.ntrec - 1) := by
      rw [hrecs, Nat.sub_zero, ← Nat.sub_add_cancel hntrec, List.take_succ_cons,
        Nat.add_sub_cancel]
    have hdrop : (v.recs t false).drop (r.ntrec - 0) =
        ((v.first ++ v.blocks.flatten).map (Written.block t false)).drop (r.ntrec - 1) := by
      rw [hrecs, Nat.sub_zero, ← Nat.sub_add_cancel hntrec, List.drop_succ_cons,
        Nat.add_sub_cancel]
    rw [← htake] at hholds
    rw [← bytes_drop, ← hdrop] at hinput
    have hset : (found { r with readtapeFunc := .set } false r.ntrec input cvt buf).readtapeFunc =
        .set := rfl
    have hready := hholds.ready
    rw [ready, if_pos hset, readtapeSet, if_neg (by simp [found, hzflag])] at hready ⊢
    exact {
      func := rfl
      holds := hready
      input := hinput
      ntrec := rfl
      numtrec_le := le_rfl
      short := fun h => absurd h (lt_irrefl _)
      full := fun _ => rfl }
  have hinv : (found { r with readtapeFunc := .set } false r.ntrec input cvt buf).ready.blkcnt =
      position r.ntrec 0 := (ready_counters _).1
  obtain ⟨s, hread, ⟨hpos, hs⟩, hb, htp⟩ :=
    Delivers.readRecs lib m (delivers_uncompr hntrec) ⟨hinv, hstart⟩ (hn.trans_eq hlen.symm)
  refine ⟨s, ?_, hb, htp, ?_, fun h => ?_⟩
  · rw [readVolume, heq]
    exact hread
  · rw [← (ready_counters s).1, hpos, Nat.zero_add]
  · rw [← (ready_counters s).2.1, ← h]
    refine hs.full ?_
    rw [List.length_drop, hlen, Nat.zero_add, Nat.add_sub_cancel' hn, h]
    exact hdvd

/-- **A compressed volume reads back as the uncompressed one.** Whatever the compressor does with
each block, and whichever byte order the machines have, `r` reads from the compressed volume the
records that `r'` reads from the uncompressed one, and counts them alike. They are those of
`v.written`, whose headers have `DR_COMPRESSED` in the one and not in the other. -/
theorem compressed_as_uncompressed {r' : Reader} (hr : Opened m t (v.tape lib zipflag t true) r)
    (hntrec : v.ntrec ≤ r.ntrec) (hbufsize : r.ntrec * tpBsize ≤ r.bufsize)
    (hempty : r.vflag = true → lib.NeverEmpty)
    (hr' : Opened m t (v.tape lib zipflag t false) r') (hntrec' : 0 < r'.ntrec)
    (hbufsize' : r'.bufsize = r'.ntrec * tpBsize) (hzflag' : r'.zflag = false)
    (hn : n ≤ v.written.length) :
    ∃ s s', readVolume lib m n r =
        some ((v.written.take n).map fun w => (w.block t true).bytes, s) ∧
      readVolume lib m n r' =
        some ((v.written.take n).map fun w => (w.block t false).bytes, s') ∧
      (s.blksread = r.blksread + n ∧ s'.blksread = r'.blksread + n) ∧
      (s.tpblksread = r.tpblksread + n ∧ s'.tpblksread = r'.tpblksread + n) ∧
      (s.blkcnt = position v.ntrec n ∧ s'.blkcnt = position r'.ntrec n) ∧
      s.numtrec = v.ntrec ∧ (r'.ntrec = v.ntrec → s'.numtrec = v.ntrec) := by
  obtain ⟨s, hread, hb, htp, hcnt, hnum⟩ := readVolume_true hr hntrec hbufsize hempty hn
  obtain ⟨s', hread', hb', htp', hcnt', hnum'⟩ := readVolume_false hr' hntrec' hbufsize' hzflag' hn
  refine ⟨s, s', ?_, ?_, ⟨hb, hb'⟩, ⟨htp, htp'⟩, ⟨hcnt, hcnt'⟩, hnum, hnum'⟩
  · rw [hread, Volume.recs, ← List.map_take, List.map_map]
    rfl
  · rw [hread', Volume.recs, ← List.map_take, List.map_map]
    rfl

end Volumes

/-! ## Blocks of zeros -/

/-- A library that compresses blocks of zeros, into the number of the zeros. -/
def zeroLib : CompressLib where
  compress _ _ _ src :=
    if src.length < 256 ^ 4 ∧ src = List.replicate src.length 0 then some (bytesLE 4 src.length)
    else none
  decompress _ m out :=
    if ofBytesLE out ≤ m then some (List.replicate (ofBytesLE out) 0) else none
  decompress_of_compress := by
    intro z call n m src out hout hm
    split at hout
    · next h =>
      obtain rfl := Option.some.inj hout
      have hlen : ofBytesLE (bytesLE 4 src.length) = src.length := by
        rw [ofBytesLE_bytesLE, Nat.mod_eq_of_lt h.1]
      rw [hlen, if_pos hm, ← h.2]
    · cases hout

/-- The header of a volume whose blocks have one record. -/
def oneRecordHeader : Spcl := { (directoryHeader .tape 0 zero_lt_size).spcl with cNtrec := 1 }

theorem oneRecordHeader_fits : oneRecordHeader.Fits :=
  { (directoryHeader .tape 0 zero_lt_size).fits with
    cNtrec := fitsInt_natCast (n := 1) (by decide) }

/-- A volume of two blocks of one record: the header and a block of zeros. -/
def zeroVolume : Volume where
  ntrec := 1
  header := { directoryHeader .tape 0 zero_lt_size with
    spcl := oneRecordHeader
    fits := oneRecordHeader_fits }
  first := []
  blocks := [[.data default]]
  ntrec_le := by decide
  cType := rfl
  cNtrec := rfl
  length_first := rfl
  length_blocks := by simp

/-- The two records of this volume, written on a big-endian machine and read through a pipe on a
little-endian one. -/
theorem zeroVolume_read :
    ∃ s s', readVolume zeroLib .little 2 (start false false 20 (fun _ => 0)
          (.pipe [99] (zeroVolume.tape zeroLib .zlib .big true))) =
        some ((zeroVolume.written.take 2).map fun w => (w.block .big true).bytes, s) ∧
      readVolume zeroLib .little 2 (start false false 20 (fun _ => 0)
          (.file (zeroVolume.tape zeroLib .zlib .big false))) =
        some ((zeroVolume.written.take 2).map fun w => (w.block .big false).bytes, s') ∧
      s.tpblksread = 2 ∧ s'.tpblksread = 2 := by
  have hr : Opened .little .big (zeroVolume.tape zeroLib .zlib .big true)
      (start false false 20 (fun _ => 0) (.pipe [99] (zeroVolume.tape zeroLib .zlib .big true))) :=
    ⟨rfl, nofun, rfl⟩
  have hr' : Opened .little .big (zeroVolume.tape zeroLib .zlib .big false)
      (start false false 20 (fun _ => 0) (.file (zeroVolume.tape zeroLib .zlib .big false))) :=
    ⟨rfl, nofun, rfl⟩
  obtain ⟨s, s', hread, hread', -, ⟨htp, htp'⟩, -⟩ := compressed_as_uncompressed (n := 2) hr
    (by decide) le_rfl nofun hr' (by decide) rfl rfl (by decide)
  exact ⟨s, s', hread, hread', htp, htp'⟩

end Reader

end DumpRestore
