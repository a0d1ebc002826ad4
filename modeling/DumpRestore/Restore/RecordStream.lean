import DumpRestore.Restore.FileStream

/-!
# Reading across volumes

`readtape` gives the records of the mounted volume and then those of the volumes that follow. Where
it changes volumes it may clear `readmapflag`, which `getvol` sets from the volume header. `Reads`
says which records it gives next; two states with the same `Tape.pos` read the same records.

* `readtape_later` is what a call of `readtape` does to the state besides;
* `discard_reads` is the loop over the entries of one header, where `extra` counts the records that
  are read for zero entries while `readmapflag` is set;
* `getfile_reads` is `getfile` on a file whose segments lie on any number of volumes;
* `getfile_later` bounds where `getfile` stops on any input.
-/

namespace DumpRestore

/-! ## The state of the input -/

/-- Where the input is: its state without `readmapflag`. -/
def Tape.pos (t : Tape) : Tape := { t with readmapflag := false }

/-- Every volume that follows begins with a volume header. -/
def Tape.Labelled (t : Tape) : Prop :=
  ∀ v ∈ t.vols, ∃ hd rs, v = .spcl hd :: rs ∧ hd.cType = .tape

/-- The state after reading from `t`. -/
structure Tape.Later (t t' : Tape) : Prop where
  labelled : t'.Labelled
  total : t'.total ≤ t.total
  date : t'.dumpdate = t.dumpdate
  flag : t'.readmapflag = t.readmapflag ∨ t'.readmapflag = false

theorem Tape.Labelled.refl {t : Tape} (h : t.Labelled) : t.Later t := ⟨h, le_rfl, rfl, .inl rfl⟩

theorem Tape.Later.trans {t u v : Tape} (h : t.Later u) (h' : u.Later v) : t.Later v where
  labelled := h'.labelled
  total := h'.total.trans h.total
  date := h'.date.trans h.date
  flag := by
    obtain heq | hfalse := h'.flag
    · rw [heq]
      exact h.flag
    · exact .inr hfalse

/-! ## One record -/

section Records

variable {t t' : Tape} {r : Rec}

/-- The next record of the mounted volume. -/
theorem next_later (hl : t.Labelled) (h : t.next = some (r, t')) :
    t.Later t' ∧ t'.total < t.total := by
  rw [Tape.next] at h
  split at h
  case h_1 r' rs hrecs =>
    obtain ⟨rfl, rfl⟩ := Prod.mk.inj (Option.some.inj h)
    have htotal : t.total = rs.length + 1 + (t.vols.map List.length).sum := by
      rw [Tape.total, hrecs, List.length_cons]
    refine ⟨⟨hl, ?_, rfl, .inl rfl⟩, ?_⟩ <;> rw [htotal, Tape.total] <;> dsimp only <;> omega
  case h_2 => cases h

theorem readtapeN_of_recs {rs : List Rec} (n : ℕ) (h : t.recs = r :: rs) :
    readtapeN n t = t.next := by
  cases n with
  | zero => rfl
  | succ n => simp only [readtapeN, h]

theorem skiprecs_later {readtape : Tape → Option (Rec × Tape)}
    (hread : ∀ {t r t'}, t.Labelled → readtape t = some (r, t') → t.Later t' ∧ t'.total < t.total)
    (i : ℕ) (hl : t.Labelled) (h : skiprecs readtape i t = some t') : t.Later t' := by
  induction i generalizing t with
  | zero =>
    obtain rfl := Option.some.inj h
    exact hl.refl
  | succ i ih =>
    obtain ⟨⟨r, u⟩, hu, h⟩ := Option.bind_eq_some_iff.mp h
    have hlater := (hread hl hu).1
    exact hlater.trans (ih hlater.labelled h)

/-- A volume with a header of its own is entered with `readmapflag` cleared. -/
theorem getvol_later {n : ℕ} {newvol : ℤ} {hd : Spcl} {rs : List Rec}
    (hread : ∀ {t r t'}, t.Labelled → readtapeN n t = some (r, t') →
      t.Later t' ∧ t'.total < t.total)
    (hl : t.Labelled) (hrecs : t.recs = .spcl hd :: rs) (htype : hd.cType = .tape)
    (h : getvol (readtapeN n) newvol t = some t') :
    t.Later t' ∧ t'.readmapflag = false := by
  obtain ⟨⟨h?, u⟩, hhead, h⟩ := Option.bind_eq_some_iff.mp h
  obtain ⟨⟨r, w⟩, hnext, hconv⟩ := Option.bind_eq_some_iff.mp hhead
  have hlw := (hread (t := { t with volno := newvol }) hl hnext).1
  rw [readtapeN_of_recs n (t := { t with volno := newvol }) hrecs, Tape.next] at hnext
  simp only [hrecs, Option.some.injEq, Prod.mk.injEq] at hnext
  obtain ⟨rfl, rfl⟩ := hnext
  obtain ⟨hh, hh?, h⟩ := Option.bind_eq_some_iff.mp h
  subst hh?
  have hlong : hd.isLongMap = false := by simp [Spcl.isLongMap, SpclType.isMap, htype]
  -- A header that is accepted clears the flag.
  have hu : t.Later u ∧ u.readmapflag = false := by
    simp only [converthead, Option.pure_def, Option.some.injEq] at hconv
    split at hconv
    · obtain ⟨-, rfl⟩ := Prod.mk.inj hconv
      exact ⟨⟨hl, hlw.total, rfl, .inr hlong⟩, hlong⟩
    · cases hconv
  simp only [Option.bind_eq_bind, Option.bind_some] at h
  split at h
  · cases h
  split at h
  · have hskip := skiprecs_later hread _ hu.1.labelled h
    exact ⟨hu.1.trans hskip, hskip.flag.elim (fun heq => heq.trans hu.2) id⟩
  · obtain rfl := Option.some.inj h
    exact hu

theorem readtapeN_later (n : ℕ) (hl : t.Labelled) (h : readtapeN n t = some (r, t')) :
    t.Later t' ∧ t'.total < t.total := by
  induction n generalizing t r t' with
  | zero => exact next_later hl h
  | succ n ih =>
    rw [readtapeN] at h
    split at h
    case h_1 v vs hrecs hvols =>
      obtain ⟨hd, rs, rfl, htype⟩ := hl v (by rw [hvols]; exact List.mem_cons_self)
      have hmount : Tape.Labelled { t with recs := .spcl hd :: rs, vols := vs } :=
        fun v' hv' => hl v' (by rw [hvols]; exact List.mem_cons_of_mem _ hv')
      obtain ⟨u, hu, h⟩ := Option.bind_eq_some_iff.mp h
      have htotal : Tape.total { t with recs := .spcl hd :: rs, vols := vs } = t.total := by
        simp [Tape.total, hrecs, hvols]
      obtain ⟨⟨hlu, hle, hdate, -⟩, hflag⟩ := getvol_later ih hmount rfl htype hu
      obtain ⟨hlater, hlt⟩ := ih hlu h
      rw [htotal] at hle
      exact ⟨Tape.Later.trans ⟨hlu, hle, hdate, .inr hflag⟩ hlater, by omega⟩
    case h_2 => exact next_later hl h

/-- **What `readtape` does to the state**: a record less is left, and `readmapflag` may be
cleared. -/
theorem readtape_later (hl : t.Labelled) (h : readtape t = some (r, t')) :
    t.Later t' ∧ t'.total < t.total :=
  readtapeN_later _ hl h

/-- At the end of a volume `readmapflag` is cleared. -/
theorem readmapflag_of_nil (hl : t.Labelled) (hrecs : t.recs = [])
    (h : readtape t = some (r, t')) : t'.readmapflag = false := by
  rw [readtape] at h
  cases hvols : t.vols with
  | nil =>
    rw [hvols] at h
    change t.next = _ at h
    rw [Tape.next, hrecs] at h
    cases h
  | cons v vs =>
    obtain ⟨hd, rs, rfl, htype⟩ := hl v (by rw [hvols]; exact List.mem_cons_self)
    rw [hvols] at h
    simp only [List.length_cons, readtapeN, hrecs, hvols] at h
    obtain ⟨u, hu, h⟩ := Option.bind_eq_some_iff.mp h
    obtain ⟨hlater, hflag⟩ := getvol_later (readtapeN_later _)
      (fun v' hv' => hl v' (by rw [hvols]; exact List.mem_cons_of_mem _ hv')) rfl htype hu
    exact (readtapeN_later _ hlater.labelled h).1.flag.elim (fun heq => heq.trans hflag) id

end Records

/-! ## The flag is not read -/

section Position

variable {t t' u : Tape}

theorem pos_eq_iff : t.pos = u.pos ↔ ∃ b, u = { t with readmapflag := b } := by
  constructor
  · intro h
    refine ⟨u.readmapflag, ?_⟩
    cases t
    cases u
    simp only [Tape.pos, Tape.mk.injEq] at h ⊢
    simp [h]
  · rintro ⟨b, rfl⟩
    rfl

theorem next_pos {r : Rec} (hpos : t.pos = u.pos) (h : t.next = some (r, t')) :
    ∃ u', u.next = some (r, u') ∧ t'.pos = u'.pos := by
  obtain ⟨b, rfl⟩ := pos_eq_iff.mp hpos
  rw [Tape.next] at h
  split at h
  case h_1 r' rs hrecs =>
    obtain ⟨rfl, rfl⟩ := Prod.mk.inj (Option.some.inj h)
    refine ⟨{ t with recs := rs, tpblksread := t.tpblksread + 1, readmapflag := b }, ?_, rfl⟩
    simp only [Tape.next, hrecs]
  case h_2 => cases h

theorem converthead_pos (r : Rec) (hpos : t.pos = u.pos) :
    (converthead r t).1 = (converthead r u).1 ∧
      (converthead r t).2.pos = (converthead r u).2.pos := by
  obtain ⟨b, rfl⟩ := pos_eq_iff.mp hpos
  cases r with
  | data => exact ⟨rfl, rfl⟩
  | spcl h =>
    simp only [converthead]
    split <;> exact ⟨rfl, rfl⟩

section Reader

variable {readtape : Tape → Option (Rec × Tape)}
  (hread : ∀ {t u r t'}, t.pos = u.pos → readtape t = some (r, t') →
    ∃ u', readtape u = some (r, u') ∧ t'.pos = u'.pos)

include hread

theorem skiprecs_pos (i : ℕ) (hpos : t.pos = u.pos) (h : skiprecs readtape i t = some t') :
    ∃ u', skiprecs readtape i u = some u' ∧ t'.pos = u'.pos := by
  induction i generalizing t u with
  | zero =>
    obtain rfl := Option.some.inj h
    exact ⟨u, rfl, hpos⟩
  | succ i ih =>
    obtain ⟨⟨r, v⟩, hv, h⟩ := Option.bind_eq_some_iff.mp h
    obtain ⟨w, hw, hpos'⟩ := hread hpos hv
    obtain ⟨u', hu', hpos''⟩ := ih hpos' h
    exact ⟨u', by simp only [skiprecs, hw, Option.bind_eq_bind, Option.bind_some, hu'], hpos''⟩

theorem getheadWith_pos {h? : Option Spcl} (hpos : t.pos = u.pos)
    (h : getheadWith readtape t = some (h?, t')) :
    ∃ u', getheadWith readtape u = some (h?, u') ∧ t'.pos = u'.pos := by
  obtain ⟨⟨r, v⟩, hv, h⟩ := Option.bind_eq_some_iff.mp h
  obtain ⟨w, hw, hpos'⟩ := hread hpos hv
  obtain ⟨heq, hpos''⟩ := converthead_pos r hpos'
  have hconv : converthead r v = (h?, t') := Option.some.inj h
  rw [hconv] at heq hpos''
  refine ⟨(converthead r w).2, ?_, hpos''⟩
  rw [getheadWith, hw, show h? = (converthead r w).1 from heq]
  rfl

theorem getvol_pos {newvol : ℤ} (hpos : t.pos = u.pos) (h : getvol readtape newvol t = some t') :
    ∃ u', getvol readtape newvol u = some u' ∧ t'.pos = u'.pos := by
  obtain ⟨b, rfl⟩ := pos_eq_iff.mp hpos
  obtain ⟨⟨h?, v⟩, hhead, h⟩ := Option.bind_eq_some_iff.mp h
  obtain ⟨w, hw, hpos'⟩ := getheadWith_pos hread
    (t := { t with volno := newvol }) (u := { t with volno := newvol, readmapflag := b }) rfl hhead
  obtain ⟨hh, rfl, h⟩ := Option.bind_eq_some_iff.mp h
  obtain ⟨c, rfl⟩ := pos_eq_iff.mp hpos'
  simp only [Option.bind_eq_bind, Option.bind_some] at h
  simp only [getvol, hw, Option.bind_eq_bind, Option.bind_some]
  split at h
  case isTrue => cases h
  case isFalse hvol =>
    rw [if_neg hvol]
    split at h
    case isTrue hnew =>
      rw [if_pos hnew]
      exact skiprecs_pos hread _ (t := v) rfl h
    case isFalse hold =>
      rw [if_neg hold]
      obtain rfl := Option.some.inj h
      exact ⟨_, rfl, rfl⟩

end Reader

theorem readtapeN_pos (n : ℕ) {r : Rec} (hpos : t.pos = u.pos)
    (h : readtapeN n t = some (r, t')) : ∃ u', readtapeN n u = some (r, u') ∧ t'.pos = u'.pos := by
  induction n generalizing t u r t' with
  | zero => exact next_pos hpos h
  | succ n ih =>
    obtain ⟨b, rfl⟩ := pos_eq_iff.mp hpos
    rw [readtapeN] at h
    split at h
    case h_1 v vs hrecs hvols =>
      obtain ⟨w, hw, h⟩ := Option.bind_eq_some_iff.mp h
      obtain ⟨w', hw', hpos'⟩ := getvol_pos ih (t := { t with recs := v, vols := vs })
        (u := { t with recs := v, vols := vs, readmapflag := b }) rfl hw
      obtain ⟨u', hu', hpos''⟩ := ih hpos' h
      refine ⟨u', ?_, hpos''⟩
      simp only [readtapeN, hrecs, hvols, Option.bind_eq_bind, hw', Option.bind_some, hu']
    case h_2 hne =>
      obtain ⟨u', hu', hpos'⟩ := next_pos hpos h
      refine ⟨u', ?_, hpos'⟩
      rw [readtapeN]
      split
      case h_1 v vs hrecs hvols => exact (hne _ _ hrecs hvols).elim
      case h_2 => exact hu'

/-- `readtape` gives the same record whatever `readmapflag` is. -/
theorem readtape_pos {r : Rec} (hpos : t.pos = u.pos) (h : readtape t = some (r, t')) :
    ∃ u', readtape u = some (r, u') ∧ t'.pos = u'.pos := by
  have hvols : t.vols = u.vols := by
    obtain ⟨b, rfl⟩ := pos_eq_iff.mp hpos
    rfl
  rw [readtape] at h ⊢
  rw [← hvols]
  exact readtapeN_pos _ hpos h

end Position

/-! ## The records that are read next -/

/-- `readtape` gives the records `rs` from `t` on, and the input is then where it is in `u`. -/
def Tape.Reads (t : Tape) : List Rec → Tape → Prop
  | [], u => t.pos = u.pos
  | r :: rs, u => ∃ v, readtape t = some (r, v) ∧ v.Reads rs u

section Reads

variable {t t' u : Tape} {rs : List Rec}

theorem Tape.Reads.congr (hpos : t.pos = t'.pos) (h : t.Reads rs u) : t'.Reads rs u := by
  cases rs with
  | nil => exact hpos.symm.trans h
  | cons r rs =>
    obtain ⟨v, hv, h⟩ := h
    obtain ⟨v', hv', hpos'⟩ := readtape_pos hpos hv
    refine ⟨v', hv', ?_⟩
    -- The rest is read from the same place.
    clear hv hv' hpos
    induction rs generalizing v v' with
    | nil => exact hpos'.symm.trans h
    | cons r rs ih =>
      obtain ⟨w, hw, h⟩ := h
      obtain ⟨w', hw', hpos''⟩ := readtape_pos hpos' hw
      exact ⟨w', hw', ih w h w' hpos''⟩

theorem total_eq_of_pos (hpos : t.pos = u.pos) : t.total = u.total := by
  obtain ⟨b, rfl⟩ := pos_eq_iff.mp hpos
  rfl

theorem Tape.Reads.length_add_total (hl : t.Labelled) (h : t.Reads rs u) :
    rs.length + u.total ≤ t.total := by
  induction rs generalizing t with
  | nil => exact (Nat.zero_add _).trans_le (total_eq_of_pos h).ge
  | cons r rs ih =>
    obtain ⟨v, hv, h⟩ := h
    obtain ⟨hlater, hlt⟩ := readtape_later hl hv
    have := ih hlater.labelled h
    rw [List.length_cons]
    omega

end Reads

/-! ## The entries of one header -/

/-- The records that are read for zero entries: while `readmapflag` is set, which is at most until
the first record of the next volume. -/
def extra (map : Bool) (bs : List (Option Block)) (t : Tape) : ℕ :=
  if map && t.readmapflag then (bs.take (t.recs.length + 1)).countP Option.isNone else 0

section Entries

variable {t t' u : Tape} {h : Spcl} {b : Option Block} {bs : List (Option Block)} {i : ℕ}
  {recs : List Rec} {r : Rec} {map : Bool}

theorem extra_of_flag (map : Bool) (bs : List (Option Block)) (hflag : t.readmapflag = false) :
    extra map bs t = 0 := by
  rw [extra, hflag, Bool.and_false]
  rfl

theorem extra_cons (map : Bool) (b : Option Block) (bs : List (Option Block)) (hl : t.Labelled)
    (hread : readtape t = some (r, t')) :
    extra map (b :: bs) t =
      (if map && t.readmapflag && b.isNone then 1 else 0) + extra map bs t' := by
  cases hflag : map && t.readmapflag with
  | false =>
    have hzero : extra map bs t' = 0 := by
      have := (readtape_later hl hread).1.flag
      rw [extra, if_neg]
      cases map <;> simp_all
    rw [hzero, extra, hflag]
    rfl
  | true =>
    cases hrecs : t.recs with
    | nil =>
      rw [extra_of_flag map bs (readmapflag_of_nil hl hrecs hread)]
      simp [extra, hflag, hrecs, List.countP_cons]
    | cons r' rs =>
      rw [readtape_of_recs hrecs] at hread
      obtain ⟨rfl, rfl⟩ := Prod.mk.inj (Option.some.inj hread)
      simp only [extra, hflag, hrecs, if_true, List.length_cons, List.take_succ_cons,
        List.countP_cons, Bool.true_and]
      omega

theorem readEntry_of_read (haddr : AddrMap h.cAddr i (b :: bs))
    (hentry : (map && t.readmapflag || b.isSome) = true) (hread : readtape t = some (r, t')) :
    readEntry map h i t = some (some r.block, t') := by
  have hcond : (map && t.readmapflag || h.cAddr i != 0) = true := by
    have := haddr.head
    cases b <;> simp_all
  rw [readEntry_tape, if_pos hcond, hread]
  rfl

theorem readEntry_of_skip (haddr : AddrMap h.cAddr i (b :: bs))
    (hentry : ¬(map && t.readmapflag || b.isSome) = true) :
    readEntry map h i t = some (none, t) := by
  have hcond : ¬(map && t.readmapflag || h.cAddr i != 0) = true := by
    have := haddr.head
    cases b <;> simp_all
  rw [readEntry_tape, if_neg hcond]

/-- An entry that is not read adds no record. -/
theorem entries_of_skip (bs : List (Option Block))
    (hentry : ¬(map && t.readmapflag || b.isSome) = true) :
    (dataRecs (b :: bs)).length + extra map (b :: bs) t =
      (dataRecs bs).length + extra map bs t := by
  cases b with
  | some b => simp at hentry
  | none =>
    have hflag : ¬(map && t.readmapflag) = true := by simpa using hentry
    rw [dataRecs_none_cons, extra, extra, if_neg hflag, if_neg hflag]

/-- An entry that is read adds one record. -/
theorem entries_of_read (bs : List (Option Block)) (hl : t.Labelled)
    (hentry : (map && t.readmapflag || b.isSome) = true) (hread : readtape t = some (r, t')) :
    (dataRecs (b :: bs)).length + extra map (b :: bs) t =
      (dataRecs bs).length + extra map bs t' + 1 := by
  rw [extra_cons map b bs hl hread]
  cases b with
  | some b =>
    simp only [dataRecs_some_cons, List.length_cons, Option.isNone_some, Bool.and_false,
      Bool.false_eq_true, if_false]
    omega
  | none =>
    have hflag : (map && t.readmapflag) = true := by simpa using hentry
    simp only [dataRecs_none_cons, hflag, Option.isNone_none, Bool.and_true, if_true]
    omega

theorem entries_pos (bs : List (Option Block))
    (hentry : (map && t.readmapflag || b.isSome) = true) :
    0 < (dataRecs (b :: bs)).length + extra map (b :: bs) t := by
  cases b with
  | some b =>
    rw [dataRecs_some_cons, List.length_cons]
    omega
  | none =>
    have hflag : (map && t.readmapflag) = true := by simpa using hentry
    rw [extra, if_pos hflag, List.take_succ_cons, List.countP_cons]
    simp

/-- **The entries of one header**: what is read is the data and the records for zero entries. -/
theorem discard_reads (map : Bool) (haddr : AddrMap h.cAddr i bs) (hl : t.Labelled)
    (hreads : t.Reads recs u)
    (hlen : (dataRecs bs).length + extra map bs t ≤ recs.length) :
    ∃ t', discard map h bs.length i t = some t' ∧ t.Later t' ∧
      t'.Reads (recs.drop ((dataRecs bs).length + extra map bs t)) u := by
  induction bs generalizing i t recs with
  | nil =>
    have hzero : (dataRecs []).length + extra map [] t = 0 := by simp [extra]
    exact ⟨t, rfl, hl.refl, by rwa [hzero, List.drop_zero]⟩
  | cons b bs ih =>
    by_cases hentry : (map && t.readmapflag || b.isSome) = true
    · cases recs with
      | nil =>
        have := entries_pos bs hentry
        rw [List.length_nil] at hlen
        omega
      | cons r recs =>
        obtain ⟨v, hv, hreads⟩ := hreads
        have hcount := entries_of_read bs hl hentry hv
        have hlater := (readtape_later hl hv).1
        obtain ⟨t', hdiscard, hlater', hrest⟩ := ih haddr.tail hlater.labelled hreads
          (by rw [hcount, List.length_cons] at hlen; omega)
        refine ⟨t', ?_, hlater.trans hlater', ?_⟩
        · rw [List.length_cons, discard, readEntry_of_read haddr hentry hv, Option.bind_some,
            hdiscard]
        · rwa [hcount, List.drop_succ_cons]
    · obtain ⟨t', hdiscard, hlater, hrest⟩ := ih haddr.tail hl hreads
        (by rwa [entries_of_skip bs hentry] at hlen)
      refine ⟨t', ?_, hlater, ?_⟩
      · rw [List.length_cons, discard, readEntry_of_skip haddr hentry, Option.bind_some, hdiscard]
      · rwa [entries_of_skip bs hentry]

/-- What is read may go beyond the records `recs`. -/
theorem discard_beyond (haddr : AddrMap h.cAddr i bs) (hl : t.Labelled) (hreads : t.Reads recs u)
    (hlen : recs.length ≤ (dataRecs bs).length + extra map bs t)
    (hdiscard : discard map h bs.length i t = some t') : t.Later t' ∧ t'.total ≤ u.total := by
  induction bs generalizing i t u recs with
  | nil =>
    obtain rfl := Option.some.inj hdiscard
    have hnil : recs = [] := by
      rw [← List.length_eq_zero_iff]
      simpa [extra] using hlen
    subst hnil
    exact ⟨hl.refl, (total_eq_of_pos hreads).le⟩
  | cons b bs ih =>
    rw [List.length_cons, discard] at hdiscard
    by_cases hentry : (map && t.readmapflag || b.isSome) = true
    · cases hread : readtape t with
      | none =>
        have hcond : (map && t.readmapflag || h.cAddr i != 0) = true := by
          have := haddr.head
          cases b <;> simp_all
        rw [readEntry_tape, if_pos hcond, hread] at hdiscard
        cases hdiscard
      | some p =>
        obtain ⟨r, v⟩ := p
        obtain ⟨hlater, hlt⟩ := readtape_later hl hread
        have hcount := entries_of_read bs hl hentry hread
        rw [readEntry_of_read haddr hentry hread, Option.bind_some] at hdiscard
        cases recs with
        | nil =>
          have hv : v.total ≤ u.total := hlt.le.trans (total_eq_of_pos hreads).le
          have hnone : v.Reads [] v := rfl
          obtain ⟨hlater', hle⟩ := ih haddr.tail hlater.labelled hnone (Nat.zero_le _) hdiscard
          exact ⟨hlater.trans hlater', hle.trans hv⟩
        | cons r' recs =>
          obtain ⟨v', hv', hreads⟩ := hreads
          obtain ⟨rfl, rfl⟩ := Prod.mk.inj (Option.some.inj (hread.symm.trans hv'))
          obtain ⟨hlater', hle⟩ := ih haddr.tail hlater.labelled hreads
            (by rw [hcount, List.length_cons] at hlen; omega) hdiscard
          exact ⟨hlater.trans hlater', hle⟩
    · rw [readEntry_of_skip haddr hentry, Option.bind_some] at hdiscard
      exact ih haddr.tail hl hreads (by rwa [entries_of_skip bs hentry] at hlen) hdiscard

/-- `getfile` goes through the entries of a header as `findinode` does. -/
theorem fileBlocks_discard (fssize : ℕ) (h : Spcl) (n i : ℕ) (s : FileState) (t : Tape) :
    (fileBlocks fssize h n i (s, t)).map Prod.snd = discard true h n i t := by
  induction n generalizing i s t with
  | zero => rfl
  | succ n ih =>
    simp only [fileBlocks, discard]
    cases readEntry true h i t with
    | none => rfl
    | some p =>
      simp only [Option.bind_some]
      split
      · rw [Option.map_map]
        exact congrFun Option.map_id _
      · exact ih (i + 1) _ p.2

end Entries

/-! ## The header after a file -/

/-- The state after a header was read, at a place from which the records `rs` follow. -/
structure AtHeader (t : Tape) (h : Spcl) (rs : List Rec) (u t' : Tape) : Prop where
  labelled : t'.Labelled
  date : t'.dumpdate = t.dumpdate
  flag : t'.readmapflag = h.isLongMap
  reads : t'.Reads rs u

section Headers

variable {t t' u : Tape} {hd next : Spcl} {rs : List Rec} {segs : List Segment}

theorem dataRecs_eq_map (bs : List (Option Block)) :
    dataRecs bs = (bs.filterMap id).map Rec.data := by
  rw [dataRecs, List.map_filterMap]
  rfl

/-- What is left of segments begins with blocks of data, before the next segment. -/
theorem drop_segments (next : Spcl) (segs : List Segment) {k : ℕ}
    (hk : k ≤ (segs.flatMap Segment.recs).length) :
    ∃ (ds : List Block) (more : List Segment), more <:+ segs ∧
      (segs.flatMap Segment.recs ++ [Rec.spcl next]).drop k =
        ds.map Rec.data ++ (.spcl (front more next) :: afterFront more next []) := by
  induction segs generalizing k with
  | nil =>
    obtain rfl : k = 0 := by simpa using hk
    exact ⟨[], [], List.suffix_rfl, rfl⟩
  | cons g segs ih =>
    cases k with
    | zero =>
      refine ⟨[], g :: segs, List.suffix_rfl, ?_⟩
      rw [front_cons_afterFront]
      rfl
    | succ k =>
      have hrecs : ((g :: segs).flatMap Segment.recs ++ [Rec.spcl next]).drop (k + 1) =
          (dataRecs g.blocks ++ (segs.flatMap Segment.recs ++ [Rec.spcl next])).drop k := by
        simp [Segment.recs]
      simp only [List.flatMap_cons, Segment.recs, List.cons_append, List.length_cons,
        List.length_append] at hk
      rcases Nat.le_total k (dataRecs g.blocks).length with hle | hge
      · refine ⟨(g.blocks.filterMap id).drop k, segs, List.suffix_cons .., ?_⟩
        rw [hrecs, List.drop_append_of_le_length hle, dataRecs_eq_map, List.map_drop,
          front_cons_afterFront]
      · obtain ⟨ds, more, hmore, hdrop⟩ := ih (k := k - (dataRecs g.blocks).length) (by omega)
        refine ⟨ds, more, hmore.trans (List.suffix_cons ..), ?_⟩
        rw [hrecs, List.drop_append, List.drop_of_length_le hge, List.nil_append, hdrop]

/-- Blocks of data are passed over until there is a header. -/
theorem nextHeader_data (date : Bool) (fuel : ℕ) (ds : List Block) (hfuel : ds.length < fuel)
    (hacc : hd.accepted = true) (hdate : hd.cDate = t.dumpdate) (hl : t.Labelled)
    (hreads : t.Reads (ds.map Rec.data ++ .spcl hd :: rs) u) :
    ∃ t', nextHeader date fuel t = some (hd.patch, t') ∧ AtHeader t hd rs u t' := by
  induction ds generalizing fuel t with
  | nil =>
    obtain ⟨fuel, rfl⟩ : ∃ n, fuel = n + 1 := ⟨fuel - 1, by simp at hfuel; omega⟩
    obtain ⟨v, hv, hreads⟩ := hreads
    have hlater := (readtape_later hl hv).1
    have hpatch : hd.patch.cDate = v.dumpdate := by
      rw [hlater.date, ← hdate, Spcl.patch]
      split <;> rfl
    have hhead : gethead t = some (some hd.patch, { v with readmapflag := hd.isLongMap }) := by
      simp [gethead, getheadWith, hv, converthead, hacc]
    refine ⟨{ v with readmapflag := hd.isLongMap }, ?_, hlater.labelled, hlater.date, rfl,
      hreads.congr (t := v) rfl⟩
    simp [nextHeader, hhead, hpatch]
  | cons d ds ih =>
    obtain ⟨fuel, rfl⟩ : ∃ n, fuel = n + 1 := ⟨fuel - 1, by simp at hfuel; omega⟩
    obtain ⟨v, hv, hreads⟩ := hreads
    have hlater := (readtape_later hl hv).1
    have hhead : gethead t = some (none, v) := by
      simp [gethead, getheadWith, hv, converthead]
    obtain ⟨t', hnext, hat⟩ := ih fuel (by simpa using hfuel) (hdate.trans hlater.date.symm)
      hlater.labelled hreads
    refine ⟨t', ?_, hat.labelled, hat.date.trans hlater.date, hat.flag, hat.reads⟩
    simp [nextHeader, hhead, hnext]

/-- The header after the first `k` records of segments that are followed by `next`. -/
theorem nextHeader_reads (date : Bool) {k : ℕ} (hsegs : ∀ g ∈ segs, g.Continues t.dumpdate)
    (hnext : Follows t.dumpdate next) (hk : k ≤ (segs.flatMap Segment.recs).length)
    (hl : t.Labelled) (hreads : t.Reads ((segs.flatMap Segment.recs ++ [Rec.spcl next]).drop k) u) :
    ∃ more t', more <:+ segs ∧
      nextHeader date (t.total + 1) t = some ((front more next).patch, t') ∧
      AtHeader t (front more next) (afterFront more next []) u t' := by
  obtain ⟨ds, more, hmore, hdrop⟩ := drop_segments next segs hk
  have hfront : (front more next).accepted = true ∧ (front more next).cDate = t.dumpdate := by
    cases more with
    | nil => exact ⟨hnext.accepted, hnext.date⟩
    | cons g more =>
      have hg := hsegs g (hmore.subset List.mem_cons_self)
      exact ⟨hg.accepted, hg.date⟩
  rw [hdrop] at hreads
  have hlen := hreads.length_add_total hl
  simp only [List.length_append, List.length_map, List.length_cons] at hlen
  obtain ⟨t', hread, hat⟩ := nextHeader_data date (t.total + 1) ds (by omega)
    hfront.1 hfront.2 hl hreads
  exact ⟨more, t', hmore, hread, hat⟩

end Headers

/-! ## A file -/

section Files

variable {t t' u : Tape} {h next : Spcl} {segs : List Segment} {bs : List (Option Block)}

theorem findinode_next (fuel : ℕ) (hnext : Follows t.dumpdate next) (t' : Tape) :
    findinode (fuel + 1) next.patch t' = some (next.patch, t') :=
  findinode_of_type (cMagic_patch hnext.accepted) (by rw [cType_patch]; exact hnext.type) fuel t'

/-- `findinode` skips the segments that are left. -/
theorem findinode_reads (fuel : ℕ) (hfuel : segs.length < fuel)
    (hsegs : ∀ g ∈ segs, g.Continues t.dumpdate) (hnext : Follows t.dumpdate next)
    (hat : AtHeader t (front segs next) (afterFront segs next []) u t') :
    ∃ t'', findinode fuel (front segs next).patch t' = some (next.patch, t'') ∧
      AtHeader t next [] u t'' := by
  induction hn : segs.length using Nat.strong_induction_on generalizing segs fuel t t' with
  | _ n ih =>
    obtain ⟨fuel, rfl⟩ : ∃ k, fuel = k + 1 := ⟨fuel - 1, by omega⟩
    cases segs with
    | nil => exact ⟨t', findinode_next fuel hnext t', hat⟩
    | cons g segs =>
      have hg := hsegs g List.mem_cons_self
      have hcount : g.header.cCount.toNat = g.blocks.length := by rw [g.count, Int.toNat_natCast]
      have hreads : t'.Reads (dataRecs g.blocks ++ (segs.flatMap Segment.recs ++ [Rec.spcl next]))
        u := hat.reads
      have hextra : (dataRecs g.blocks).length + extra false g.blocks t' =
          (dataRecs g.blocks).length := rfl
      obtain ⟨v, hdiscard, hlater, hreads⟩ := discard_reads false g.addr hat.labelled
        hreads (by rw [hextra, List.length_append]; omega)
      rw [hextra, List.drop_left] at hreads
      have hdate : v.dumpdate = t.dumpdate := hlater.date.trans hat.date
      obtain ⟨more, w, hmore, hread, hat'⟩ := nextHeader_reads true (k := 0)
        (fun g' hg' => hdate ▸ hsegs g' (List.mem_cons_of_mem _ hg')) (hdate ▸ hnext)
        (Nat.zero_le _) hlater.labelled hreads
      have hlen := hmore.length_le
      simp only [List.length_cons] at hn hfuel
      have hsegs' (g' : Segment) (hg' : g' ∈ more) : g'.Continues v.dumpdate :=
        hdate ▸ hsegs g' (List.mem_cons_of_mem _ (hmore.subset hg'))
      obtain ⟨t'', hfind, hat''⟩ := ih more.length (by omega) fuel (by omega) hsegs'
        (hdate ▸ hnext) hat' rfl
      refine ⟨t'', ?_, hat''.labelled, hat''.date.trans hdate, hat''.flag, hat''.reads⟩
      have hfront := front_spec hsegs' (hdate ▸ hnext)
      rw [front_cons, patch_of_addr hg.type,
        findinode_of_addr (cMagic_of_accepted hg.accepted) hg.type]
      simp only [TapeSource.total_tape, hcount, hdiscard, Option.bind_some, hread]
      exact findinode_again (cMagic_patch hfront.1) (by rw [cType_patch]; exact hfront.2) hfind

/-- The loop of `getfile` stops at a header after the first one. -/
theorem fileLoop_reads (fssize fuel : ℕ) (s : FileState) (hcount : h.cCount = bs.length)
    (haddr : AddrMap h.cAddr 0 bs) (hfuel : segs.length < fuel)
    (hextra : extra true bs t ≤ (segs.flatMap Segment.recs).length)
    (hsegs : ∀ g ∈ segs, g.Continues t.dumpdate) (hnext : Follows t.dumpdate next)
    (hl : t.Labelled)
    (hreads : t.Reads (dataRecs bs ++ (segs.flatMap Segment.recs ++ [Rec.spcl next])) u) :
    ∃ more s' t', more <:+ segs ∧
      fileLoop fssize fuel h (s, t) = some ((front more next).patch, s', t') ∧
      AtHeader t (front more next) (afterFront more next []) u t' := by
  induction hn : segs.length using Nat.strong_induction_on generalizing segs fuel h bs s t with
  | _ n ih =>
    obtain ⟨fuel, rfl⟩ : ∃ k, fuel = k + 1 := ⟨fuel - 1, by omega⟩
    obtain ⟨v, hdiscard, hlater, hreads⟩ := discard_reads true haddr hl hreads
      (by simp only [List.length_append, List.length_singleton]; omega)
    have hblocks := fileBlocks_discard fssize h bs.length 0 s t
    rw [hdiscard, Option.map_eq_some_iff] at hblocks
    obtain ⟨⟨s', v'⟩, hblocks, rfl⟩ := hblocks
    rw [← List.drop_drop, List.drop_left] at hreads
    obtain ⟨more, w, hmore, hread, hat⟩ := nextHeader_reads false
      (fun g hg => hlater.date ▸ hsegs g hg) (hlater.date ▸ hnext) hextra hlater.labelled hreads
    have hat' : AtHeader t (front more next) (afterFront more next []) u w :=
      ⟨hat.labelled, hat.date.trans hlater.date, hat.flag, hat.reads⟩
    have hlen := hmore.length_le
    cases more with
    | nil =>
      have htype : (front [] next).patch.cType ≠ .addr := by
        have := hnext.type.1
        rw [front, Spcl.patch]
        split <;> simp_all
      refine ⟨[], s', w, hmore, ?_, hat'⟩
      simp only [fileLoop, TapeSource.total_tape, hcount, Int.toNat_natCast, hblocks,
        Option.bind_eq_bind, Option.bind_some, hread, htype, and_false, if_false]
    | cons g more =>
      have hg := hsegs g (hmore.subset List.mem_cons_self)
      have hflag : w.readmapflag = false := hat.flag.trans (isLongMap_of_addr hg.type)
      by_cases hsize : s'.size > 0
      · rw [List.length_cons] at hlen
        obtain ⟨more', s'', w', hmore', hloop, hat''⟩ := ih more.length (by omega)
          fuel s' g.count g.addr (by omega)
          (by rw [extra_of_flag true _ hflag]; exact Nat.zero_le _)
          (fun g' hg' => hat'.date ▸ hsegs g' (hmore.subset (List.mem_cons_of_mem _ hg')))
          (hat'.date ▸ hnext) hat.labelled hat.reads rfl
        refine ⟨more', s'', w', hmore'.trans ((List.suffix_cons ..).trans hmore), ?_,
          hat''.labelled, hat''.date.trans hat'.date, hat''.flag, hat''.reads⟩
        simp only [fileLoop, TapeSource.total_tape, hcount, Int.toNat_natCast, hblocks,
          Option.bind_eq_bind, Option.bind_some, hread, front_cons, patch_of_addr hg.type, hg.type,
          hsize, and_self, if_true, hloop]
      · refine ⟨g :: more, s', w, hmore, ?_, hat'⟩
        simp only [fileLoop, TapeSource.total_tape, hcount, Int.toNat_natCast, hblocks,
          Option.bind_eq_bind, Option.bind_some, hread, hsize, false_and, if_false]

/-- **`getfile` on a file of any size**, whose segments may lie on several volumes, stops at the
header after it, unless more records are read for zero entries than there are records after those
of the first header. -/
theorem getfile_reads (fssize : ℕ) (htype : h.cType = .inode) (hmagic : h.cMagic = nfsMagic)
    (hcount : h.cCount = bs.length) (haddr : AddrMap h.cAddr 0 bs)
    (hextra : extra true bs t ≤ (segs.flatMap Segment.recs).length)
    (hsegs : ∀ g ∈ segs, g.Continues t.dumpdate) (hnext : Follows t.dumpdate next)
    (hl : t.Labelled)
    (hreads : t.Reads (dataRecs bs ++ (segs.flatMap Segment.recs ++ [Rec.spcl next])) u) :
    ∃ calls t', getfile fssize false h t = some (calls, next.patch, t') ∧
      AtHeader t next [] u t' := by
  have hlen := hreads.length_add_total hl
  have hsegs' := length_le_recs segs
  simp only [List.length_append] at hlen
  obtain ⟨more, s, v, hmore, hloop, hat⟩ :
      ∃ more s t', more <:+ segs ∧ fileLoop fssize (t.total + 1) h
        (⟨[], (h.cDinode.diSize : ℤ).bmod (2 ^ 64), false, []⟩, t) =
          some ((front more next).patch, s, t') ∧
        AtHeader t (front more next) (afterFront more next []) u t' :=
    fileLoop_reads fssize _ _ hcount haddr (by omega) hextra hsegs hnext hl hreads
  have hmore' : more.length ≤ v.total := by
    have := hat.reads.length_add_total hat.labelled
    have := length_le_afterFront more next []
    omega
  obtain ⟨t', hfind, hat'⟩ := findinode_reads (v.total + 1) (by omega)
    (fun g hg => hsegs g (hmore.subset hg)) hnext hat
  have hstart : ¬(h.cType = .end_ ∨ h.cMagic ≠ nfsMagic) := by simp [htype, hmagic]
  refine ⟨s.finish ((h.cDinode.diSize : ℤ).bmod (2 ^ 64)), t', ?_, hat'⟩
  simp only [getfile, TapeSource.total_tape, if_neg hstart, hloop, Option.bind_eq_bind,
    Option.bind_some, hfind]
  simp

end Files

/-! ## Where getfile stops on any input -/

section Shrinking

variable {t t' : Tape} {h h' : Spcl}

theorem readEntry_shrinks {map : Bool} {i : ℕ} {b : Option Block} (hl : t.Labelled)
    (hread : readEntry map h i t = some (b, t')) : t'.Labelled ∧ t'.total ≤ t.total := by
  rw [readEntry_tape] at hread
  split at hread
  · obtain ⟨⟨r, v⟩, hv, hp⟩ := Option.map_eq_some_iff.mp hread
    obtain ⟨-, rfl⟩ := Prod.mk.inj hp
    have := (readtape_later hl hv).1
    exact ⟨this.labelled, this.total⟩
  · obtain ⟨-, rfl⟩ := Prod.mk.inj (Option.some.inj hread)
    exact ⟨hl, le_rfl⟩

theorem discard_shrinks {map : Bool} {n i : ℕ} (hl : t.Labelled)
    (hdiscard : discard map h n i t = some t') : t'.Labelled ∧ t'.total ≤ t.total := by
  induction n generalizing i t with
  | zero =>
    obtain rfl := Option.some.inj hdiscard
    exact ⟨hl, le_rfl⟩
  | succ n ih =>
    obtain ⟨⟨b, v⟩, hv, hdiscard⟩ := Option.bind_eq_some_iff.mp hdiscard
    obtain ⟨hlv, hle⟩ := readEntry_shrinks hl hv
    obtain ⟨hl', hle'⟩ := ih hlv hdiscard
    exact ⟨hl', hle'.trans hle⟩

theorem gethead_shrinks {h? : Option Spcl} (hl : t.Labelled)
    (hhead : gethead t = some (h?, t')) : t'.Labelled ∧ t'.total < t.total := by
  obtain ⟨⟨r, v⟩, hv, hconv⟩ := Option.bind_eq_some_iff.mp hhead
  obtain ⟨hlater, hlt⟩ := readtape_later hl hv
  have hpos : t'.vols = v.vols ∧ t'.recs = v.recs := by
    have hconv : converthead r v = (h?, t') := Option.some.inj hconv
    cases r with
    | data => exact (Prod.mk.inj hconv).2 ▸ ⟨rfl, rfl⟩
    | spcl hd =>
      rw [converthead] at hconv
      split at hconv <;> exact (Prod.mk.inj hconv).2 ▸ ⟨rfl, rfl⟩
  refine ⟨by rw [Tape.Labelled, hpos.1]; exact hlater.labelled, ?_⟩
  rw [Tape.total, hpos.1, hpos.2]
  exact hlt

theorem nextHeader_shrinks {date : Bool} {fuel : ℕ} (hl : t.Labelled)
    (hnext : nextHeader date fuel t = some (h', t')) : t'.Labelled ∧ t'.total < t.total := by
  induction fuel generalizing t with
  | zero => cases hnext
  | succ fuel ih =>
    obtain ⟨⟨h?, v⟩, hv, hnext⟩ := Option.bind_eq_some_iff.mp hnext
    obtain ⟨hlv, hlt⟩ := gethead_shrinks hl hv
    have hmore : nextHeader date fuel v = some (h', t') → t'.Labelled ∧ t'.total < t.total :=
      fun hmore => ⟨(ih hlv hmore).1, (ih hlv hmore).2.trans hlt⟩
    cases h? with
    | none => exact hmore hnext
    | some hd =>
      dsimp only at hnext
      split at hnext
      · exact hmore hnext
      · obtain ⟨-, rfl⟩ := Prod.mk.inj (Option.some.inj hnext)
        exact ⟨hlv, hlt⟩

theorem resync_shrinks (hl : t.Labelled) (hfind : resync h t = some (h', t')) :
    t'.Labelled ∧ t'.total ≤ t.total := by
  rw [resync] at hfind
  split at hfind
  · obtain ⟨-, rfl⟩ := Prod.mk.inj (Option.some.inj hfind)
    exact ⟨hl, le_rfl⟩
  · obtain ⟨hl', hlt⟩ := nextHeader_shrinks hl hfind
    exact ⟨hl', hlt.le⟩

theorem findinode_shrinks {fuel : ℕ} (hl : t.Labelled)
    (hfind : findinode fuel h t = some (h', t')) : t'.Labelled ∧ t'.total ≤ t.total := by
  induction fuel generalizing h t with
  | zero => cases hfind
  | succ fuel ih =>
    rw [findinode] at hfind
    obtain ⟨⟨hd, u⟩, hu, hfind⟩ := Option.bind_eq_some_iff.mp hfind
    obtain ⟨hlu, hleu⟩ := resync_shrinks hl hu
    dsimp only at hfind
    split at hfind
    case h_1 =>
      obtain ⟨v, hv, hfind⟩ := Option.bind_eq_some_iff.mp hfind
      obtain ⟨⟨hd', w⟩, hw, hfind⟩ := Option.bind_eq_some_iff.mp hfind
      obtain ⟨hlv, hle⟩ := discard_shrinks hlu hv
      obtain ⟨hlw, hlt⟩ := nextHeader_shrinks hlv hw
      dsimp only at hfind
      split at hfind
      · obtain ⟨hl', hle'⟩ := ih hlw hfind
        exact ⟨hl', by omega⟩
      · obtain ⟨-, rfl⟩ := Prod.mk.inj (Option.some.inj hfind)
        exact ⟨hlw, by omega⟩
    case h_2 => cases hfind
    all_goals
      obtain ⟨-, rfl⟩ := Prod.mk.inj (Option.some.inj hfind)
      exact ⟨hlu, hleu⟩

/-- The loop of `getfile` stops after the entries of the first header, and a header more. -/
theorem fileLoop_shrinks {fssize fuel : ℕ} {s s' : FileState} (hl : t.Labelled)
    (hloop : fileLoop fssize fuel h (s, t) = some (h', s', t')) :
    ∃ v, discard true h h.cCount.toNat 0 t = some v ∧ t'.Labelled ∧ t'.total < v.total := by
  induction fuel generalizing h s t with
  | zero => cases hloop
  | succ fuel ih =>
    obtain ⟨⟨s₁, v⟩, hblocks, hloop⟩ := Option.bind_eq_some_iff.mp hloop
    obtain ⟨⟨hd, w⟩, hnext, hloop⟩ := Option.bind_eq_some_iff.mp hloop
    have hdiscard : discard true h h.cCount.toNat 0 t = some v := by
      rw [← fileBlocks_discard fssize h _ 0 s t, hblocks]
      rfl
    obtain ⟨hlw, hlt⟩ := nextHeader_shrinks (discard_shrinks hl hdiscard).1 hnext
    refine ⟨v, hdiscard, ?_⟩
    dsimp only at hloop
    split at hloop
    · obtain ⟨x, hx, hl', hlt'⟩ := ih hlw hloop
      have := (discard_shrinks hlw hx).2
      exact ⟨hl', by omega⟩
    · obtain ⟨-, hp⟩ := Prod.mk.inj (Option.some.inj hloop)
      obtain ⟨-, rfl⟩ := Prod.mk.inj hp
      exact ⟨hlw, hlt⟩

theorem getfile_shrinks {fssize : ℕ} {readingmaps : Bool} {calls : List Call} (hl : t.Labelled)
    (hget : getfile fssize readingmaps h t = some (calls, h', t')) :
    ∃ v, discard true h h.cCount.toNat 0 t = some v ∧ t'.Labelled ∧ t'.total < v.total := by
  rw [getfile] at hget
  split at hget
  · cases hget
  obtain ⟨⟨hd, s, w⟩, hloop, hget⟩ := Option.bind_eq_some_iff.mp hget
  obtain ⟨v, hv, hlw, hlt⟩ := fileLoop_shrinks hl hloop
  refine ⟨v, hv, ?_⟩
  dsimp only at hget
  split at hget <;>
    obtain ⟨⟨hd', x⟩, hfind, hget⟩ := Option.bind_eq_some_iff.mp hget <;>
    obtain ⟨-, hp⟩ := Prod.mk.inj (Option.some.inj hget) <;>
    obtain ⟨-, rfl⟩ := Prod.mk.inj hp
  · obtain ⟨-, rfl⟩ := Prod.mk.inj (Option.some.inj hfind)
    exact ⟨hlw, hlt⟩
  · obtain ⟨hl', hle⟩ := findinode_shrinks hlw hfind
    exact ⟨hl', hle.trans_lt hlt⟩

/-- `getfile` consumes at least the header after the file. -/
theorem total_getfile_lt {fssize : ℕ} {readingmaps : Bool} {calls : List Call} (hl : t.Labelled)
    (hget : getfile fssize readingmaps h t = some (calls, h', t')) : t'.total < t.total := by
  obtain ⟨v, hv, -, hlt⟩ := getfile_shrinks hl hget
  exact hlt.trans_le (discard_shrinks hl hv).2

/-- When the entries of the header take all of `recs`, `getfile` stops beyond them. -/
theorem getfile_beyond {fssize : ℕ} {readingmaps : Bool} {calls : List Call} {u : Tape}
    {bs : List (Option Block)} {recs : List Rec} (hcount : h.cCount = bs.length)
    (haddr : AddrMap h.cAddr 0 bs) (hl : t.Labelled) (hreads : t.Reads recs u)
    (hlen : recs.length ≤ (dataRecs bs).length + extra true bs t)
    (hget : getfile fssize readingmaps h t = some (calls, h', t')) : t'.total < u.total := by
  obtain ⟨v, hv, -, hlt⟩ := getfile_shrinks hl hget
  rw [hcount, Int.toNat_natCast] at hv
  exact hlt.trans_le (discard_beyond haddr hl hreads hlen hv).2

end Shrinking

end DumpRestore
