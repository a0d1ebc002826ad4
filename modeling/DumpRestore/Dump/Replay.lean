import DumpRestore.Dump.Writer
import Mathlib.Data.List.Perm.Basic

/-!
# What an end of tape sends again

Each slave has a block whose result has not been read, and when one of them finds the end of the
tape none of these blocks is on it. `rollforward` sends the requests again that are in the buffers
of the slaves, shifted by the header of the new volume. It does not store the shifted requests in
the buffers: until a slave has got a new block its buffer is not what it was sent, and the next end
of tape sends the wrong requests.

* `numbersOf_shiftBlocks`: the shifted blocks have the records of the old ones, in their order.
* `RingState` says which blocks the slaves have, and what is in their buffers.
* `Whole`: each record is in one place, as long as no end of tape was early. `Lost`: the others lose
  one.
-/

namespace DumpRestore

/-! ## Requests and their records -/

/-- The records that some requests stand for. -/
def numbersOf (reqs : List Req) : List ℕ := reqs.flatMap Req.numbers

@[simp] theorem numbersOf_nil : numbersOf [] = [] := rfl

@[simp] theorem numbersOf_cons (q : Req) (reqs : List Req) :
    numbersOf (q :: reqs) = q.numbers ++ numbersOf reqs := rfl

@[simp] theorem numbersOf_append (reqs reqs' : List Req) :
    numbersOf (reqs ++ reqs') = numbersOf reqs ++ numbersOf reqs' := List.flatMap_append

theorem mem_numbersOf {reqs : List Req} {n : ℕ} :
    n ∈ numbersOf reqs ↔ ∃ q ∈ reqs, n ∈ q.numbers := List.mem_flatMap

/-- The request stands for records before the `n`-th. -/
def Req.Below (q : Req) (n : ℕ) : Prop := 0 < q.count ∧ q.first + q.count ≤ n

section Below

variable {q q' : Req} {n m : ℕ}

theorem Req.Below.mono (h : q.Below n) (hle : n ≤ m) : q.Below m := ⟨h.1, h.2.trans hle⟩

theorem Req.Below.last (h : q.Below n) : q.last.Below n := by
  obtain ⟨hpos, hle⟩ := h
  rw [Req.last]
  split
  · exact ⟨hpos, hle⟩
  · exact ⟨Nat.one_pos, by simp only; omega⟩

theorem Req.Below.init (h : q.Below n) (hq : q' ∈ q.init) : q'.Below n := by
  obtain ⟨hpos, hle⟩ := h
  rw [Req.init] at hq
  split at hq
  · exact absurd hq List.not_mem_nil
  · split at hq
    · exact absurd hq List.not_mem_nil
    · rw [List.mem_singleton.mp hq]
      exact ⟨by simp only; omega, by simp only; omega⟩

theorem Req.Below.first_mem (h : q.Below n) : q.first ∈ q.numbers :=
  List.mem_range'_1.mpr ⟨le_rfl, Nat.lt_add_of_pos_right h.1⟩

theorem Req.Below.lt (h : q.Below n) (hm : m ∈ q.numbers) : m < n :=
  (List.mem_range'_1.mp hm).2.trans_le h.2

/-- A request is cut before its last record. -/
theorem Req.Below.numbers_init_last (h : q.Below n) :
    numbersOf q.init ++ q.last.numbers = q.numbers := by
  obtain ⟨hpos, -⟩ := h
  rw [Req.init, Req.last]
  cases q.src with
  | buffer r => rfl
  | device dblk =>
    dsimp only
    obtain ⟨m, hm⟩ : ∃ m, q.count = m + 1 := ⟨q.count - 1, by omega⟩
    rw [hm, Nat.add_sub_cancel]
    split
    case isTrue hzero =>
      simp only [Req.numbers, hm, hzero, numbersOf_nil, List.nil_append, Nat.add_zero, Nat.zero_add]
    case isFalse =>
      simp only [Req.numbers, hm, numbersOf_cons, numbersOf_nil, List.append_nil]
      rw [List.range'_append_1]

end Below

section Shift

variable {n : ℕ} {carry : Req} {blk : List Req} {blks : List (List Req)}
  {p : List (List Req) × Req}

theorem eq_of_getLast? {q : Req} (hq : blk.getLast? = some q) : blk = blk.dropLast ++ [q] := by
  have hne : blk ≠ [] := by
    rintro rfl
    cases hq
  rw [List.getLast?_eq_some_getLast hne] at hq
  rw [← Option.some.inj hq, List.dropLast_concat_getLast]

/-- The first block that is sent again. -/
theorem shiftBlocks_cons (hp : shiftBlocks carry (blk :: blks) = some p) :
    ∃ q p', blk.getLast? = some q ∧ shiftBlocks q.last blks = some p' ∧
      p = ((carry :: (blk.dropLast ++ q.init)) :: p'.1, p'.2) := by
  rw [shiftBlocks] at hp
  cases hq : blk.getLast? with
  | none => simp [hq] at hp
  | some q =>
    simp only [hq] at hp
    obtain ⟨p', hp', rfl⟩ := Option.map_eq_some_iff.mp hp
    exact ⟨q, p', rfl, hp', rfl⟩

theorem length_shiftBlocks (hp : shiftBlocks carry blks = some p) :
    p.1.length = blks.length := by
  induction blks generalizing carry p with
  | nil =>
    obtain rfl := Option.some.inj hp
    rfl
  | cons blk blks ih =>
    obtain ⟨q, p', -, hp', rfl⟩ := shiftBlocks_cons hp
    exact congrArg (· + 1) (ih hp')

/-- **The blocks that are sent again** have the records of the old ones behind the header, in their
order. The last one is left. -/
theorem numbersOf_shiftBlocks (hblks : ∀ blk ∈ blks, ∀ q ∈ blk, q.Below n)
    (hp : shiftBlocks carry blks = some p) :
    numbersOf p.1.flatten ++ p.2.numbers = carry.numbers ++ numbersOf blks.flatten := by
  induction blks generalizing carry p with
  | nil =>
    obtain rfl := Option.some.inj hp
    simp
  | cons blk blks ih =>
    obtain ⟨q, p', hq, hp', rfl⟩ := shiftBlocks_cons hp
    have hrest := ih (fun b hb => hblks b (List.mem_cons_of_mem _ hb)) hp'
    have hcut := (hblks blk List.mem_cons_self q (List.mem_of_getLast? hq)).numbers_init_last
    have hblk : numbersOf blk = numbersOf blk.dropLast ++ q.numbers := by
      conv_lhs => rw [eq_of_getLast? hq]
      simp
    simp only [List.flatten_cons, numbersOf_append, numbersOf_cons, List.append_assoc]
    rw [hrest, hblk, ← hcut]
    simp only [List.append_assoc]

/-- A property of the requests of all blocks but the last one, and of those of the last one without
the very last, is one of all requests that are sent again. -/
theorem forall_shiftBlocks {P : Req → Prop} (hlast : ∀ q, P q → P q.last)
    (hinit : ∀ q, P q → ∀ q' ∈ q.init, P q') {end_ : Req} {final : List Req}
    (hcarry : P carry) (hblks : ∀ blk ∈ blks, ∀ q ∈ blk, P q) (hfinal : ∀ q ∈ final, P q)
    (hend : ∀ q ∈ end_.init, P q) (hp : shiftBlocks carry (blks ++ [final ++ [end_]]) = some p) :
    (∀ blk ∈ p.1, ∀ q ∈ blk, P q) ∧ p.2 = end_.last := by
  induction blks generalizing carry p with
  | nil =>
    obtain ⟨q, p', hq, hp', rfl⟩ := shiftBlocks_cons hp
    obtain rfl := Option.some.inj hp'
    rw [List.getLast?_concat] at hq
    obtain rfl := Option.some.inj hq
    refine ⟨fun blk hblk r hr => ?_, rfl⟩
    obtain rfl := List.mem_singleton.mp hblk
    rw [List.dropLast_concat] at hr
    rcases List.mem_cons.mp hr with rfl | hr
    · exact hcarry
    · rcases List.mem_append.mp hr with hr | hr
      · exact hfinal r hr
      · exact hend r hr
  | cons blk blks ih =>
    obtain ⟨q, p', hq, hp', rfl⟩ := shiftBlocks_cons hp
    have hblk := hblks blk List.mem_cons_self
    have hPq := hblk q (List.mem_of_getLast? hq)
    obtain ⟨hrest, hleft⟩ := ih (hlast q hPq) (fun b hb => hblks b (List.mem_cons_of_mem _ hb)) hp'
    refine ⟨List.forall_mem_cons.mpr ⟨fun r hr => ?_, hrest⟩, hleft⟩
    rcases List.mem_cons.mp hr with rfl | hr
    · exact hcarry
    · rcases List.mem_append.mp hr with hr | hr
      · exact hblk r (List.mem_of_mem_dropLast hr)
      · exact hinit q hPq r hr

/-- The requests of the last block but the very last are sent again. -/
theorem mem_shiftBlocks {end_ q : Req} {final : List Req} (hq : q ∈ final)
    (hp : shiftBlocks carry (blks ++ [final ++ [end_]]) = some p) : ∃ blk ∈ p.1, q ∈ blk := by
  induction blks generalizing carry p with
  | nil =>
    obtain ⟨r, p', hr, hp', rfl⟩ := shiftBlocks_cons hp
    refine ⟨_, List.mem_cons_self, List.mem_cons_of_mem _ (List.mem_append_left _ ?_)⟩
    rwa [List.dropLast_concat]
  | cons blk blks ih =>
    obtain ⟨r, p', -, hp', rfl⟩ := shiftBlocks_cons hp
    obtain ⟨b, hb, hmem⟩ := ih hp'
    exact ⟨b, List.mem_cons_of_mem _ hb, hmem⟩

/-- The blocks that are sent again stand for the records of the old blocks and the carry. -/
theorem shiftBlocks_below (hcarry : carry.Below n) (hblks : ∀ blk ∈ blks, ∀ q ∈ blk, q.Below n)
    (hp : shiftBlocks carry blks = some p) :
    (∀ blk ∈ p.1, ∀ q ∈ blk, q.Below n) ∧ p.2.Below n := by
  induction blks generalizing carry p with
  | nil =>
    obtain rfl := Option.some.inj hp
    exact ⟨by simp, hcarry⟩
  | cons blk blks ih =>
    obtain ⟨q, p', hq, hp', rfl⟩ := shiftBlocks_cons hp
    have hbelow := hblks blk List.mem_cons_self
    have hlast := hbelow q (List.mem_of_getLast? hq)
    obtain ⟨hrest, hleft⟩ := ih hlast.last (fun b hb => hblks b (List.mem_cons_of_mem _ hb)) hp'
    refine ⟨List.forall_mem_cons.mpr ⟨fun r hr => ?_, hrest⟩, hleft⟩
    rcases List.mem_cons.mp hr with rfl | hr
    · exact hcarry
    · rcases List.mem_append.mp hr with hr | hr
      · exact hbelow r (List.mem_of_mem_dropLast hr)
      · exact hlast.init hr

end Shift

/-! ## A step of the ring -/

/-- The slaves in the order of the ring, from the current one on, after a block was sent. -/
theorem ring_send (w : Writer) : w.send.slp :: w.send.others =
    w.others ++ [{ w.slp with req := w.req, sent := true }] := by
  simp only [Writer.send]
  cases w.others <;> rfl

theorem slp_send {w : Writer} (hne : w.others ≠ []) : w.send.slp = w.others.head hne := by
  obtain ⟨s, rest, hothers⟩ := List.exists_cons_of_ne_nil hne
  have hring := ring_send w
  rw [hothers, List.cons_append, List.cons.injEq] at hring
  rw [hring.1]
  simp only [hothers, List.head_cons]

/-- What `rollforward` does after the buffer was sent, with the reports that are still to come. -/
structure Rolled (o : DumpOptions) (d : Spcl × Writer) (rest : List Report) (hdr : Req)
    (p : List (List Req) × Req) (d' : Spcl × Writer) : Prop where
  ntrec : 1 < o.ntrec
  header : ∃ v : Spcl, hdr.src = .buffer (.spcl v) ∧ v.cType = .tape
  count : hdr.count = 1
  first : hdr.first = d.2.handed
  shift : shiftBlocks hdr (d.2.others.map SlaveBuf.req ++ [d.2.req]) = some p
  cTapea : d'.1.cTapea = d.1.cTapea
  req : d'.2.req = [p.2]
  trecno : d'.2.trecno = 1
  handed : d'.2.handed = d.2.handed + 1
  eots : d'.2.eots = d.2.eots + 1
  live : d'.2.live =
    (d.2.live ++ [d.2.req]).take (d.2.live.length - d.2.others.length) ++ p.1
  since : d'.2.since = 0
  early : d'.2.early = if d.2.since < d.2.others.length then d.2.early + 1 else d.2.early
  others : d'.2.others.map SlaveBuf.req = (d.2.others.map SlaveBuf.req ++ [d.2.req]).tail
  sent : ∀ s ∈ d'.2.others, s.sent = true
  slp : d'.2.slp.req = (d.2.send.slp).req
  reports : d'.2.reports = rest

theorem rolled_of_rollforward {o : DumpOptions} {d d' : Spcl × Writer} {curino : ℕ}
    {rest : List Report} (hd : rollforward o curino (d.1, { d.2.send with reports := rest }) =
      some d') : ∃ hdr p, Rolled o d rest hdr p d' := by
  rw [rollforward] at hd
  split at hd
  · cases hd
  · rename_i hntrec
    obtain ⟨p, hp, rfl⟩ := Option.map_eq_some_iff.mp hd
    have hlen : (d.2.send.slp :: d.2.send.others).length = d.2.others.length + 1 := by
      rw [ring_send, List.length_append, List.length_singleton]
    rw [ring_send, List.map_append] at hp
    refine ⟨_, p, by omega, ⟨_, rfl, rfl⟩, rfl, rfl, hp, rfl, rfl, rfl, rfl, rfl, ?_, rfl, ?_, ?_,
      ?_, rfl, rfl⟩
    · dsimp only
      rw [hlen]
      simp only [Writer.send, List.length_append, List.length_singleton, Nat.add_sub_add_right]
    · dsimp only
      rw [hlen]
      simp only [Writer.send, Nat.add_lt_add_iff_right]
    · have hmap := congrArg (fun l => (l.map SlaveBuf.req).tail) (ring_send d.2)
      simp only [List.map_cons, List.tail_cons, List.map_append, List.map_nil] at hmap
      rw [← hmap]
      simp only [newtapeHeader, putrec, Writer.put, Writer.enslave, Writer.clear, List.map_map]
      rfl
    · intro s hs
      obtain ⟨t, -, rfl⟩ := List.mem_map.mp hs
      rfl

/-! ## What the slaves have -/

/-- Which blocks the slaves behind the current one have. First come those that have none, `idle`,
and then those whose results have not been read, `busy`. The last blocks of `live` are theirs: those
of the last end of tape, `acts`, and the later ones, `fresh`. The buffers have the later blocks, but
instead of `acts` what these were made of: `stale`, behind `carry`. -/
structure RingState (w : Writer) (carry left : Req) (idle busy : List SlaveBuf)
    (pre acts stale fresh : List (List Req)) : Prop where
  others : w.others = idle ++ busy
  length : w.others.length + 1 = slavesMax
  unsent : ∀ s ∈ idle, s.sent = false
  sent : ∀ s ∈ busy, s.sent = true
  buffers : busy.map SlaveBuf.req = stale ++ fresh
  live : w.live = pre ++ (acts ++ fresh)
  shift : shiftBlocks carry stale = some (acts, left)
  left : stale = [] ∨ left ∈ fresh.flatten ++ w.req
  all : idle = [] ∨ stale = []
  old : busy.length ≤ w.since + stale.length
  recent : stale = [] ∨ stale.length + w.since + 1 = slavesMax

/-- The slaves have blocks as `RingState` says, and the oldest block that is not in its buffer
starts with `carry`. -/
def Replays (w : Writer) (carry : Req) : Prop :=
  ∃ left idle busy pre acts stale fresh, RingState w carry left idle busy pre acts stale fresh

/-- The requests of the writer stand for records that it was handed. -/
structure Bounded (w : Writer) : Prop where
  live : ∀ blk ∈ w.live, ∀ q ∈ blk, q.Below w.handed
  req : ∀ q ∈ w.req, q.Below w.handed
  others : ∀ s ∈ w.others, ∀ q ∈ s.req, q.Below w.handed

/-- Each record is in one place. -/
def Whole (w : Writer) : Prop := (numbersOf (w.live.flatten ++ w.req)).Perm (List.range w.handed)

/-- The record is on no volume, and will not get on one. -/
structure Lost (n : ℕ) (w : Writer) : Prop where
  lt : n < w.handed
  live : n ∉ numbersOf (w.live.flatten ++ w.req)
  others : ∀ s ∈ w.others, n ∉ numbersOf s.req

section Slaves

variable {o : DumpOptions} {d d' : Spcl × Writer} {w w' : Writer} {carry left : Req}
  {idle busy : List SlaveBuf} {pre acts stale fresh : List (List Req)} {n : ℕ}

theorem replays_alloctape (reports : List Report) (q : Req) : Replays (alloctape reports) q :=
  ⟨q, (alloctape reports).others, [], [], [], [], [],
    { others := (List.append_nil _).symm
      length := rfl
      unsent := fun s hs => by
        rw [List.eq_of_mem_replicate hs]
        rfl
      sent := by simp
      buffers := rfl
      live := rfl
      shift := rfl
      left := .inl rfl
      all := .inr rfl
      old := Nat.zero_le _
      recent := .inl rfl }⟩

theorem Replays.length_others (h : Replays w carry) : w.others.length = 2 := by
  obtain ⟨left, idle, busy, pre, acts, stale, fresh, hr⟩ := h
  exact Nat.succ_injective hr.length

/-- A change of the writer that only adds to the buffer. -/
theorem Replays.grow (h : Replays w carry) (hothers : w'.others = w.others)
    (hlive : w'.live = w.live) (hsince : w'.since = w.since) (hreq : w.req ⊆ w'.req) :
    Replays w' carry := by
  obtain ⟨left, idle, busy, pre, acts, stale, fresh, hr⟩ := h
  refine ⟨left, idle, busy, pre, acts, stale, fresh, hothers.trans hr.others,
    (congrArg (·.length + 1) hothers).trans hr.length, hr.unsent, hr.sent, hr.buffers,
    hlive.trans hr.live, hr.shift, hr.left.imp_right fun hmem => ?_, hr.all, hsince ▸ hr.old,
    hsince ▸ hr.recent⟩
  rcases List.mem_append.mp hmem with hmem | hmem
  · exact List.mem_append_left _ hmem
  · exact List.mem_append_right _ (hreq hmem)

/-- New processes have no blocks. -/
theorem Replays.enslave (h : Replays w carry) : Replays w.enslave carry := by
  obtain ⟨left, idle, busy, pre, acts, stale, fresh, hr⟩ := h
  refine ⟨carry, w.enslave.others, [], w.live, [], [], [],
    { others := (List.append_nil _).symm
      length := (congrArg (· + 1) (List.length_map _)).trans hr.length
      unsent := fun s hs => ?_
      sent := by simp
      buffers := rfl
      live := by simp [Writer.enslave]
      shift := rfl
      left := .inl rfl
      all := .inr rfl
      old := Nat.zero_le _
      recent := .inl rfl }⟩
  obtain ⟨t, -, rfl⟩ := List.mem_map.mp hs
  rfl

theorem Replays.newtapeHeader (h : Replays d.2 carry) : Replays (newtapeHeader o d).2 carry :=
  h.enslave.grow rfl rfl rfl (List.subset_append_left _ _)

/-- The oldest block is on tape when its result has been read, and the block that was sent is the
newest one. -/
theorem Replays.nextBuffer (h : Replays d.2 carry) (lastfirstrec : ℤ) (curino : ℕ)
    (reports : List Report) :
    ∃ c, Replays (nextBuffer o lastfirstrec curino
      (d.1, { d.2.send with reports := reports })).2 c := by
  obtain ⟨left, idle, busy, pre, acts, stale, fresh, hr⟩ := h
  have hring := ring_send d.2
  rw [hr.others] at hring
  have hlen := hr.length
  rw [hr.others, List.length_append, slavesMax] at hlen
  have hleft : ∀ rest : List (List Req), left ∈ rest.flatten ++ d.2.req →
      left ∈ (rest ++ [d.2.req]).flatten ++ [] := by
    intro rest hmem
    simpa using hmem
  cases idle with
  | cons i idle =>
    obtain rfl : stale = [] := hr.all.resolve_left (List.cons_ne_nil i idle)
    obtain ⟨rfl, rfl⟩ := Prod.mk.inj (Option.some.inj hr.shift)
    rw [List.cons_append, List.cons_append, List.cons.injEq] at hring
    refine ⟨carry, carry, idle, busy ++ [{ d.2.slp with req := d.2.req, sent := true }], pre, [],
      [], fresh ++ [d.2.req], ?_⟩
    exact
      { others := hring.2.trans (List.append_assoc _ _ _)
        length := by
          change d.2.send.others.length + 1 = slavesMax
          rw [hring.2, slavesMax]
          simp only [List.length_append, List.length_cons, List.length_nil] at hlen ⊢
          omega
        unsent := fun s hs => hr.unsent s (List.mem_cons_of_mem i hs)
        sent := fun s hs => by
          rcases List.mem_append.mp hs with hs | hs
          · exact hr.sent s hs
          · rw [List.mem_singleton.mp hs]
        buffers := by
          rw [List.map_append, hr.buffers]
          rfl
        live := by
          change d.2.live ++ [d.2.req] = _
          rw [hr.live]
          simp
        shift := rfl
        left := .inl rfl
        all := .inr rfl
        old := by
          rw [List.length_append, List.length_singleton]
          exact Nat.succ_le_succ hr.old
        recent := .inl rfl }
  | nil =>
    obtain ⟨s, busy, rfl⟩ : ∃ s rest, busy = s :: rest := by
      cases busy with
      | nil => simp at hlen
      | cons s rest => exact ⟨s, rest, rfl⟩
    rw [List.nil_append, List.cons_append, List.cons.injEq] at hring
    have hold := hr.old
    have hsent : ∀ t ∈ busy ++ [{ d.2.slp with req := d.2.req, sent := true }], t.sent = true := by
      intro t ht
      rcases List.mem_append.mp ht with ht | ht
      · exact hr.sent t (List.mem_cons_of_mem s ht)
      · rw [List.mem_singleton.mp ht]
    have hlength : d.2.send.others.length + 1 = slavesMax := by
      rw [hring.2, slavesMax]
      simp only [List.length_append, List.length_cons, List.length_nil] at hlen ⊢
      omega
    have hbuffers := hr.buffers
    rw [List.map_cons] at hbuffers
    cases stale with
    | nil =>
      obtain ⟨rfl, rfl⟩ := Prod.mk.inj (Option.some.inj hr.shift)
      obtain ⟨F, fresh, rfl⟩ : ∃ F rest, fresh = F :: rest := by
        cases fresh with
        | nil => cases hbuffers
        | cons F rest => exact ⟨F, rest, rfl⟩
      rw [List.nil_append, List.cons.injEq] at hbuffers
      refine ⟨carry, carry, [], busy ++ [{ d.2.slp with req := d.2.req, sent := true }], pre ++ [F],
        [], [], fresh ++ [d.2.req], ?_⟩
      exact
        { others := hring.2
          length := hlength
          unsent := by simp
          sent := hsent
          buffers := by
            rw [List.map_append, hbuffers.2]
            rfl
          live := by
            change d.2.live ++ [d.2.req] = _
            rw [hr.live]
            simp
          shift := rfl
          left := .inl rfl
          all := .inl rfl
          old := by
            rw [List.length_append, List.length_singleton]
            rw [List.length_cons] at hold
            exact Nat.le_succ_of_le hold
          recent := .inl rfl }
    | cons B stale =>
      obtain ⟨q, p, -, hp, heq⟩ := shiftBlocks_cons hr.shift
      obtain ⟨rfl, rfl⟩ := Prod.mk.inj heq
      rw [List.cons_append, List.cons.injEq] at hbuffers
      have hrecent := hr.recent.resolve_left (List.cons_ne_nil B stale)
      refine ⟨q.last, p.2, [], busy ++ [{ d.2.slp with req := d.2.req, sent := true }],
        pre ++ [carry :: (B.dropLast ++ q.init)], p.1, stale, fresh ++ [d.2.req], ?_⟩
      exact
        { others := hring.2
          length := hlength
          unsent := by simp
          sent := hsent
          buffers := by
            rw [List.map_append, hbuffers.2]
            simp
          live := by
            change d.2.live ++ [d.2.req] = _
            rw [hr.live]
            simp
          shift := hp
          left := .inr (hleft fresh (hr.left.resolve_left (List.cons_ne_nil B stale)))
          all := .inl rfl
          old := by
            rw [List.length_append, List.length_singleton]
            rw [List.length_cons, List.length_cons] at hold
            change busy.length + 1 ≤ d.2.since + 1 + stale.length
            omega
          recent := .inr (by
            rw [List.length_cons] at hrecent
            change stale.length + (d.2.since + 1) + 1 = slavesMax
            omega) }

section Rolled

variable {rest : List Report} {hdr : Req} {p : List (List Req) × Req}

/-- An end of tape is seen when all slaves have blocks. -/
theorem RingState.idle_eq_nil (hr : RingState w carry left idle busy pre acts stale fresh)
    (hsent : w.send.slp.sent = true) : idle = [] := by
  cases idle with
  | nil => rfl
  | cons i idle =>
    have hring := ring_send w
    rw [hr.others, List.cons_append, List.cons_append, List.cons.injEq] at hring
    rw [hring.1, hr.unsent i List.mem_cons_self] at hsent
    cases hsent

theorem RingState.length_stale (hr : RingState w carry left [] busy pre acts stale fresh) :
    (acts ++ fresh).length = w.others.length ∧ (stale = [] ↔ 2 ≤ w.since) := by
  have hothers := hr.others
  have hlen := hr.length
  have hbuffers := congrArg List.length hr.buffers
  have hacts := length_shiftBlocks hr.shift
  have hold := hr.old
  have hrecent := hr.recent
  rw [List.nil_append] at hothers
  rw [hothers] at hlen ⊢
  rw [List.length_map, List.length_append] at hbuffers
  simp only at hacts
  rw [slavesMax] at hlen hrecent
  rw [List.length_append, ← List.length_eq_zero_iff]
  rw [← List.length_eq_zero_iff] at hrecent
  omega

/-- The blocks that are on the volumes, or can still get on one, after an end of tape. -/
theorem RingState.live_rolled (hr : RingState d.2 carry left [] busy pre acts stale fresh)
    (hroll : Rolled o d rest hdr p d') : d'.2.live = pre ++ p.1 := by
  obtain ⟨hlen, -⟩ := hr.length_stale
  have hlive := hr.live
  rw [hroll.live, hlive, List.append_assoc, List.take_left']
  rw [List.length_append, hlen, Nat.add_sub_cancel]

theorem RingState.shift_rolled (hr : RingState d.2 carry left [] busy pre acts stale fresh)
    (hroll : Rolled o d rest hdr p d') :
    shiftBlocks hdr (stale ++ fresh ++ [d.2.req]) = some p := by
  have hshift := hroll.shift
  rwa [hr.others, List.nil_append, hr.buffers] at hshift

/-- After an end of tape no buffer has what its slave was sent. -/
theorem Replays.rolled (h : Replays d.2 carry) (hsent : d.2.send.slp.sent = true)
    (hroll : Rolled o d rest hdr p d') :
    ∃ s ∈ d.2.others, ∃ q ∈ s.req, Replays d'.2 q.last := by
  obtain ⟨left, idle, busy, pre, acts, stale, fresh, hr⟩ := h
  obtain rfl := hr.idle_eq_nil hsent
  have hlength := hr.length_stale
  have hlen := hr.length
  have hothers := hr.others
  rw [List.nil_append] at hothers
  obtain ⟨s, rest, hcons⟩ : ∃ s rest, d.2.others = s :: rest := by
    cases hcons : d.2.others with
    | nil => simp [hcons, slavesMax] at hlen
    | cons s rest => exact ⟨s, rest, rfl⟩
  have hshift := hroll.shift
  rw [hcons, List.map_cons, List.cons_append] at hshift
  obtain ⟨q, p', hq, hp', rfl⟩ := shiftBlocks_cons hshift
  refine ⟨s, hcons ▸ List.mem_cons_self, q, List.mem_of_getLast? hq, p'.2, [], d'.2.others,
    pre ++ [hdr :: (s.req.dropLast ++ q.init)], p'.1, rest.map SlaveBuf.req ++ [d.2.req], [], ?_⟩
  have hmap := hroll.others
  rw [hcons, List.map_cons, List.cons_append, List.tail_cons] at hmap
  have hcount := congrArg List.length hmap
  rw [hcons, slavesMax] at hlen
  simp only [List.length_map, List.length_append, List.length_cons, List.length_nil] at hcount hlen
  exact
    { others := rfl
      length := by
        rw [slavesMax]
        omega
      unsent := by simp
      sent := hroll.sent
      buffers := by rw [hmap, List.append_nil]
      live := by
        rw [hr.live_rolled hroll]
        simp
      shift := hp'
      left := .inr (by rw [hroll.req]; exact List.mem_singleton_self _)
      all := .inl rfl
      old := by
        rw [hroll.since]
        simp only [List.length_append, List.length_map, List.length_cons, List.length_nil]
        omega
      recent := .inr (by
        rw [hroll.since, slavesMax]
        simp only [List.length_append, List.length_map, List.length_cons, List.length_nil]
        omega) }

end Rolled

/-! ## Where the records are -/

theorem range_append_range' (m k : ℕ) :
    List.range m ++ List.range' m k = List.range (m + k) := by
  have happend := @List.range'_append_1 0 m k
  rwa [Nat.zero_add, ← List.range_eq_range', ← List.range_eq_range'] at happend

theorem Whole.put (h : Whole w) (src : Source) (count : ℕ) : Whole (w.put src count) := by
  have happend := h.append_right (List.range' w.handed count)
  rw [range_append_range'] at happend
  simpa [Whole, Writer.put, Req.numbers] using happend

theorem Lost.put (h : Lost n w) (src : Source) (count : ℕ) : Lost n (w.put src count) where
  lt := h.lt.trans_le (Nat.le_add_right _ _)
  live := by
    have hlt := h.lt
    have hlive := h.live
    simp only [Writer.put, numbersOf_append, numbersOf_cons, numbersOf_nil, List.mem_append,
      Req.numbers, List.mem_range'_1, List.append_nil, not_or] at hlive ⊢
    exact ⟨hlive.1, hlive.2, by omega⟩
  others := h.others

section Rolled

variable {rest : List Report} {hdr : Req} {p : List (List Req) × Req}

theorem Bounded.buffers (hbound : Bounded w) {blk : List Req}
    (hblk : blk ∈ w.others.map SlaveBuf.req ++ [w.req]) : ∀ q ∈ blk, q.Below w.handed := by
  rcases List.mem_append.mp hblk with hblk | hblk
  · obtain ⟨s, hs, rfl⟩ := List.mem_map.mp hblk
    exact hbound.others s hs
  · rw [List.mem_singleton.mp hblk]
    exact hbound.req

/-- The records that an end of tape sends again are those in the buffers. -/
theorem Rolled.numbers (hbound : Bounded d.2) (hroll : Rolled o d rest hdr p d') :
    numbersOf p.1.flatten ++ p.2.numbers =
      d.2.handed :: (numbersOf (d.2.others.map SlaveBuf.req).flatten ++ numbersOf d.2.req) := by
  rw [numbersOf_shiftBlocks (fun _ => hbound.buffers) hroll.shift, Req.numbers, hroll.first,
    hroll.count]
  simp

/-- The requests that an end of tape sends again stand for records that were handed in. -/
theorem Bounded.rolled (hbound : Bounded d.2) (hroll : Rolled o d rest hdr p d') :
    Bounded d'.2 := by
  have hmono : ∀ q : Req, q.Below d.2.handed → q.Below d'.2.handed := fun q hq =>
    hq.mono (by rw [hroll.handed]; exact Nat.le_succ _)
  have hhdr : hdr.Below d'.2.handed := by
    rw [Req.Below, hroll.first, hroll.count, hroll.handed]
    exact ⟨Nat.one_pos, le_rfl⟩
  obtain ⟨hblks, hleft⟩ := shiftBlocks_below hhdr
    (fun blk hblk q hq => hmono q (hbound.buffers hblk q hq)) hroll.shift
  refine ⟨fun blk hblk q hq => ?_, fun q hq => ?_, fun s hs q hq => ?_⟩
  · rw [hroll.live] at hblk
    rcases List.mem_append.mp hblk with hblk | hblk
    · rcases List.mem_append.mp (List.mem_of_mem_take hblk) with hblk | hblk
      · exact hmono q (hbound.live blk hblk q hq)
      · exact hmono q (hbound.req q (List.mem_singleton.mp hblk ▸ hq))
    · exact hblks blk hblk q hq
  · rw [hroll.req] at hq
    rw [List.mem_singleton.mp hq]
    exact hleft
  · have hreq : s.req ∈ d.2.others.map SlaveBuf.req ++ [d.2.req] := by
      refine List.mem_of_mem_tail ?_
      rw [← hroll.others]
      exact List.mem_map_of_mem hs
    exact hmono q (hbound.buffers hreq q hq)

/-- The block that starts with `carry` is on a volume, or can get on one. -/
theorem RingState.carry_mem (hr : RingState w carry left idle busy pre acts stale fresh)
    (hstale : stale ≠ []) : ∃ blk ∈ w.live, carry ∈ blk := by
  cases stale with
  | nil => exact absurd rfl hstale
  | cons B st =>
    obtain ⟨q, p', -, -, heq⟩ := shiftBlocks_cons hr.shift
    obtain ⟨rfl, rfl⟩ := Prod.mk.inj heq
    exact ⟨carry :: (B.dropLast ++ q.init), by rw [hr.live]; simp, List.mem_cons_self⟩

theorem Replays.carry_below (h : Replays w carry) (hbound : Bounded w)
    (hsent : w.send.slp.sent = true) (hsince : w.since < 2) : carry.Below w.handed := by
  obtain ⟨left, idle, busy, pre, acts, stale, fresh, hr⟩ := h
  obtain rfl := hr.idle_eq_nil hsent
  obtain ⟨-, hiff⟩ := hr.length_stale
  obtain ⟨blk, hblk, hmem⟩ := hr.carry_mem fun hnil => absurd (hiff.mp hnil) (by omega)
  exact hbound.live blk hblk carry hmem

/-- A record that is neither on a volume nor in a buffer is lost with an end of tape. -/
theorem Rolled.lost {n : ℕ} (hroll : Rolled o d rest hdr p d') (hbound : Bounded d.2)
    (hlive : d'.2.live = pre ++ p.1) (hlt : n < d.2.handed) (hpre : n ∉ numbersOf pre.flatten)
    (hbufs : n ∉ numbersOf (d.2.others.map SlaveBuf.req).flatten ++ numbersOf d.2.req) :
    Lost n d'.2 := by
  refine ⟨by rw [hroll.handed]; omega, ?_, fun s hs hmem => hbufs ?_⟩
  · have hnew : numbersOf (d'.2.live.flatten ++ d'.2.req) = numbersOf pre.flatten ++
        (d.2.handed :: (numbersOf (d.2.others.map SlaveBuf.req).flatten ++ numbersOf d.2.req)) := by
      rw [hlive, hroll.req, ← hroll.numbers hbound]
      simp
    rw [hnew, List.mem_append, List.mem_cons]
    rintro (hmem | hmem | hmem)
    · exact hpre hmem
    · omega
    · exact hbufs hmem
  · have hreq : s.req ∈ d.2.others.map SlaveBuf.req ++ [d.2.req] := by
      refine List.mem_of_mem_tail ?_
      rw [← hroll.others]
      exact List.mem_map_of_mem hs
    rw [← numbersOf_append]
    obtain ⟨r, hr, hn⟩ := mem_numbersOf.mp hmem
    refine mem_numbersOf.mpr ⟨r, ?_, hn⟩
    rcases List.mem_append.mp hreq with hreq | hreq
    · exact List.mem_append_left _ (List.mem_flatten_of_mem hreq hr)
    · exact List.mem_append_right _ (List.mem_singleton.mp hreq ▸ hr)

/-- **An end of tape keeps every record** if all slaves have got a new block since the last one. -/
theorem Replays.whole_rolled (h : Replays d.2 carry) (hbound : Bounded d.2) (hwhole : Whole d.2)
    (hsent : d.2.send.slp.sent = true) (hsince : 2 ≤ d.2.since) (hroll : Rolled o d rest hdr p d') :
    Whole d'.2 := by
  obtain ⟨left, idle, busy, pre, acts, stale, fresh, hr⟩ := h
  obtain rfl := hr.idle_eq_nil hsent
  obtain ⟨-, hstale⟩ := hr.length_stale
  obtain rfl := hstale.mpr hsince
  obtain ⟨rfl, -⟩ := Prod.mk.inj (Option.some.inj hr.shift)
  have hnumbers := hroll.numbers hbound
  rw [hr.others, List.nil_append, hr.buffers, List.nil_append] at hnumbers
  have hlive := hr.live
  rw [List.nil_append] at hlive
  rw [Whole, hlive] at hwhole
  rw [Whole, hr.live_rolled hroll, hroll.req, hroll.handed]
  have hnew : numbersOf ((pre ++ p.1).flatten ++ [p.2]) =
      numbersOf pre.flatten ++
        (d.2.handed :: (numbersOf fresh.flatten ++ numbersOf d.2.req)) := by
    rw [← hnumbers]
    simp
  rw [hnew, List.range_succ]
  refine List.perm_middle.trans (List.Perm.trans ?_ (List.perm_append_singleton _ _).symm)
  refine List.Perm.cons _ (List.Perm.trans ?_ hwhole)
  simp

/-- **An early end of tape** loses the first record of the oldest block. -/
theorem Replays.lost_rolled (h : Replays d.2 carry) (hbound : Bounded d.2) (hwhole : Whole d.2)
    (hsent : d.2.send.slp.sent = true) (hsince : d.2.since < 2) (hroll : Rolled o d rest hdr p d') :
    Lost carry.first d'.2 := by
  obtain ⟨left, idle, busy, pre, acts, stale, fresh, hr⟩ := h
  obtain rfl := hr.idle_eq_nil hsent
  obtain ⟨-, hiff⟩ := hr.length_stale
  have hothers := hr.others
  rw [List.nil_append] at hothers
  have hbufs : d.2.others.map SlaveBuf.req = stale ++ fresh := by rw [hothers, hr.buffers]
  have hstale : ∀ blk ∈ stale, ∀ q ∈ blk, q.Below d.2.handed := by
    intro blk hblk
    obtain ⟨s, hs, rfl⟩ := List.mem_map.mp (hbufs ▸ List.mem_append_left fresh hblk)
    exact hbound.others s hs
  -- the oldest block
  obtain ⟨B, st, rfl⟩ : ∃ B st, stale = B :: st := by
    cases stale with
    | nil => exact absurd (hiff.mp rfl) (by omega)
    | cons B st => exact ⟨B, st, rfl⟩
  obtain ⟨q, p', -, -, heq⟩ := shiftBlocks_cons hr.shift
  obtain ⟨rfl, rfl⟩ := Prod.mk.inj heq
  obtain ⟨blk, hblk, hmem⟩ := hr.carry_mem (List.cons_ne_nil B st)
  have hcarry := hbound.live blk hblk carry hmem
  have hfirst := hcarry.first_mem
  -- each record is in one place
  have hnodup := (hwhole.nodup_iff).mpr List.nodup_range
  rw [hr.live] at hnodup
  simp only [List.flatten_append, numbersOf_append, List.append_assoc] at hnodup
  generalize hacts : (carry :: (B.dropLast ++ q.init)) :: p'.1 = acts at *
  have hin : carry.first ∈ numbersOf acts.flatten := by
    rw [← hacts]
    simp [hfirst]
  obtain ⟨-, hnodup, hpre⟩ := List.nodup_append'.mp hnodup
  obtain ⟨hnodupActs, -, hdisj⟩ := List.nodup_append'.mp hnodup
  have hlater : carry.first ∉ numbersOf fresh.flatten ++ numbersOf d.2.req := hdisj hin
  have hnotPre : carry.first ∉ numbersOf pre.flatten := fun hmem =>
    hpre hmem (List.mem_append_left _ hin)
  -- a buffer that is not what the slave was sent does not have the carry
  have hnotStale : carry.first ∉ numbersOf (B :: st).flatten := by
    have hnumbers := numbersOf_shiftBlocks hstale hr.shift
    have hleft := hr.left.resolve_left (List.cons_ne_nil B st)
    have hboth : (numbersOf acts.flatten ++ p'.2.numbers).Nodup := by
      refine List.nodup_append'.mpr ⟨hnodupActs, List.nodup_range', fun n hn hn' => ?_⟩
      refine hdisj hn ?_
      rw [← numbersOf_append]
      exact mem_numbersOf.mpr ⟨p'.2, hleft, hn'⟩
    rw [hnumbers] at hboth
    exact fun hmem => (List.nodup_append'.mp hboth).2.2 hfirst hmem
  rw [List.mem_append, not_or] at hlater
  have hnotBufs : carry.first ∉
      numbersOf (d.2.others.map SlaveBuf.req).flatten ++ numbersOf d.2.req := by
    rw [hbufs, List.flatten_append, numbersOf_append]
    simp only [List.mem_append, not_or]
    exact ⟨⟨hnotStale, hlater.1⟩, hlater.2⟩
  exact hroll.lost hbound (hr.live_rolled hroll) (hcarry.lt hfirst) hnotPre hnotBufs

/-- A record that is lost stays lost. -/
theorem Lost.rolled {n : ℕ} (h : Lost n d.2) (hring : Replays d.2 carry) (hbound : Bounded d.2)
    (hsent : d.2.send.slp.sent = true) (hroll : Rolled o d rest hdr p d') : Lost n d'.2 := by
  obtain ⟨left, idle, busy, pre, acts, stale, fresh, hr⟩ := hring
  obtain rfl := hr.idle_eq_nil hsent
  have hlive := h.live
  rw [hr.live] at hlive
  simp only [List.flatten_append, numbersOf_append, List.mem_append, not_or] at hlive
  have hnotBufs : n ∉ numbersOf (d.2.others.map SlaveBuf.req).flatten ++ numbersOf d.2.req := by
    simp only [List.mem_append, not_or]
    refine ⟨fun hmem => ?_, hlive.2⟩
    obtain ⟨q, hq, hn⟩ := mem_numbersOf.mp hmem
    obtain ⟨blk, hblk, hq⟩ := List.mem_flatten.mp hq
    obtain ⟨s, hs, rfl⟩ := List.mem_map.mp hblk
    exact h.others s hs (mem_numbersOf.mpr ⟨q, hq, hn⟩)
  exact hroll.lost hbound (hr.live_rolled hroll) h.lt hlive.1.1 hnotBufs

end Rolled

end Slaves

end DumpRestore
