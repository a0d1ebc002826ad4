import DumpRestore.Restore.Astray

/-!
# A volume that is mounted between two files

When no file is in use `getvol` skips records at the head of a volume and then goes on to the header
of a file. `DumpVolume` is a volume of a dump with any data.

* `skipped`: the records that `getvol` skips, and `duplicates`: those of them that it has read.
* `Spent`: how many records are left at most, or restore has asked for another volume.
* `describes_iff`: when `curfile` is the first file of the volume. Data on the way to it must not
  look like a header: `Unspoiled` is part of the condition, `Unforged` a hypothesis.
-/

namespace DumpRestore

open ByteOrder (Order)

/-- A volume of a dump: its header and the records after it. -/
structure DumpVolume where
  head : Emitted
  body : List Written
  head_tape : head.spcl.cType = .tape
  head_flags : head.spcl.cFlags &&& drNewheader ≠ 0
  date : ∀ e, .header e ∈ body → e.spcl.cDate = head.spcl.cDate
  notape : ∀ e, .header e ∈ body → e.spcl.cType ≠ .tape

namespace Resync

/-! ## The mounted volume -/

section Reading

variable {env : Env} {t : Order} {s : State}

/-- The records that `getvol` takes for duplicates of those read before. -/
def duplicates (wantnext : Bool) (h : Spcl) (tpblksread : ℤ) : ℕ :=
  if wantnext ∧ 0 < h.cFirstrec ∧ h.cFirstrec < tpblksread then (tpblksread - h.cFirstrec).toNat
  else 0

/-- The records that `getvol` skips at the head of a volume: `c_count` of them after the
duplicates, and `c_count` before if it has not asked for this volume. -/
def skipped (wantnext : Bool) (h : Spcl) (tpblksread : ℤ) : ℕ :=
  (if wantnext then duplicates wantnext h tpblksread else h.cCount.toNat) + h.cCount.toNat

/-- Whether `getvol` goes on from the records that have been read. -/
def wantsNext (env : Env) (s : State) : Bool := env.aflag || s.action != .skip

/-- Whether `getvol` asks for a certain volume, and not for its number as well. -/
def asksFor (env : Env) (s : State) (nextvol : ℤ) : Bool := wantsNext env s && decide (0 < nextvol)

theorem Understood.isNewheader {v : DumpVolume} {h : Spcl} (hu : Understood t v.head h) :
    isNewheader h := by
  obtain ⟨_, hd⟩ := hu.decoded
  have hflags : h.cFlags = v.head.spcl.cFlags := hd.cFlags
  exact ⟨hu.cType.trans v.head_tape, hflags ▸ v.head_flags⟩

end Reading

/-! ## What has been read is not read again -/

section Unread

variable {env : Env} {I : State → Prop}

/-- A predicate of the volumes and records that restore has not read yet, which holds while no file
is in use if it holds at all. -/
def Unread (I : State → Prop) : Prop :=
  ∀ s s' : State, s'.answers = s.answers → s'.recs = s.recs → s'.restarted = s.restarted →
    (s'.action = .using → s.action = .using) → I s → I s'

theorem Unread.blind (hI : Unread I) : Blind I := fun s s' h => hI s s' h.answers h.recs

variable {readtape : Resync Block} (hI : Unread I) (hread : Keeps I readtape)

include hread

theorem Unread.skiprec : Keeps I (skiprecWith readtape) := hread.bind fun _ => keeps_pure _

include hI

theorem Unread.gethead : Keeps I (getheadWith env readtape) := by
  refine hread.bind fun r => Keeps.get_bind fun s hs => ?_
  refine Keeps.set_bind (hI s _ rfl rfl rfl id hs) ?_
  cases (convertheadBytes env.order r.bytes s.cvt).1 with
  | some h => exact keeps_pure _
  | none => exact Keeps.ite (fun _ => keeps_failure) fun _ => keeps_pure _

theorem Unread.getspcl : Keeps I (getspclWith env readtape) :=
  hI.blind.getspcl (hI.gethead hread)

theorem Unread.findinode : Keeps I (findinodeWith env readtape) :=
  hI.blind.findinode (hI.gethead hread) (Unread.skiprec hread)

end Unread

section Exhaust

variable {env : Env}

/-- Fewer than `n` volumes are left to be mounted. -/
def Fewer (n : ℕ) (s : State) : Prop := s.answers.length < n

theorem unread_fewer (n : ℕ) : Unread (Fewer n) := fun s s' h _ _ _ hs => by
  rw [Fewer, h]
  exact hs

theorem loose_fewer (n : ℕ) : Loose (Fewer n) := fun s s' _ h _ _ _ hs => by
  rw [Fewer, h]
  exact hs

theorem Fewer.of_cons {n : ℕ} {s : State} {a : Answer} {as : List Answer}
    (h : s.answers = a :: as) (hs : s.answers.length ≤ n) (s' : State) (hs' : s'.answers = as) :
    Fewer n s' := by
  rw [Fewer, hs']
  rw [h, List.length_cons] at hs
  exact hs

section Reading

variable {readtape : Resync Block}

theorem Fewer.enterVolume {n : ℕ} (hread : Keeps (Fewer n) readtape) (wantnext : Bool) (h : Spcl) :
    Keeps (Fewer n) (enterVolume env readtape wantnext h) :=
  (loose_fewer n).enterVolume (Unread.skiprec hread) (((unread_fewer n).getspcl hread).bind
    fun _ => (unread_fewer n).findinode hread) wantnext h

theorem Fewer.getvol {n : ℕ} (hread : Keeps (Fewer n) readtape) (nextvol : ℤ) (fuel : ℕ) :
    Keeps (Fewer n) (getvolWith env readtape nextvol fuel) := by
  refine (loose_fewer n).getvol (Unread.skiprec hread) (((unread_fewer n).getspcl hread).bind
    fun _ => (unread_fewer n).findinode hread) (loose_fewer n) (fun _ => id) ?_ ?_
    ((unread_fewer n).gethead hread) nextvol fuel
  · exact fun s newvol recs as h hs => Fewer.of_cons h (Nat.le_of_lt hs) _ rfl
  · exact fun s a as h hs => ⟨Fewer.of_cons h (Nat.le_of_lt hs) _ rfl,
      Fewer.of_cons h (Nat.le_of_lt hs) _ rfl⟩

/-- `getvol` asks for a volume, or does nothing. -/
theorem fewer_or_eq_getvol {n : ℕ} (hread : Keeps (Fewer n) readtape) (nextvol : ℤ) (fuel : ℕ)
    (s : State) (hs : s.answers.length ≤ n) :
    Fewer n ((OptionT.run (getvolWith env readtape nextvol fuel)).run s).2 ∨
      ((OptionT.run (getvolWith env readtape nextvol fuel)).run s).2 = s := by
  cases fuel with
  | zero => exact .inr rfl
  | succ fuel =>
    have hagain (k : ℤ) : Keeps (Fewer n) (do
        modify fun t => { t with volno := 0, tpblksread := k }
        getvolWith env readtape nextvol fuel) :=
      Keeps.modify_bind (fun _ hs => hs) (Fewer.getvol hread nextvol fuel)
    rw [getvolWith, run_get_bind]
    dsimp only
    split
    · exact .inr rfl
    · cases hanswers : s.answers with
      | nil => exact .inr rfl
      | cons answer as =>
        have hless := Fewer.of_cons hanswers hs
        refine .inl ?_
        cases answer with
        | none => exact (loose_fewer n).terminateinput _ (hless _ rfl)
        | tape newvol recs =>
          dsimp only
          generalize
            (if ((env.aflag || s.action != .skip) && decide (0 < nextvol)) = true then nextvol
            else newvol) = vol
          split
          · exact hless _ rfl
          · change Fewer n ((OptionT.run (getheadWith env readtape >>= _)).run _).2
            refine bind_leads (J := Fewer n) ((unread_fewer n).gethead hread
              { s with answers := as, recs, volno := vol, inHeader := true } (hless _ rfl))
              (fun _ => id) fun b s' hs' => ?_
            cases b with
            | raw r => exact hagain _ { s' with inHeader := s.inHeader } hs'
            | good r h =>
              exact (Keeps.ite (fun _ => Fewer.enterVolume hread _ h) fun _ => hagain _)
                { s' with inHeader := s.inHeader } hs'

end Reading

theorem Fewer.readtapeN (n k : ℕ) : Keeps (Fewer n) (readtapeN env k) := by
  refine (loose_fewer n).readtapeN (Keeps.get_bind fun s hs => ?_)
    (fun _ hread _ _ => Fewer.getvol hread _ _) k
  cases s.recs with
  | nil => exact keeps_failure
  | cons r rs => exact Keeps.set_bind hs (keeps_pure _)

theorem Fewer.readtape (n : ℕ) : Keeps (Fewer n) (readtape env) :=
  keeps_get_bind fun s hs => Fewer.readtapeN n _ s hs

/-- Fewer than `m` records of the mounted volume are left, or another one has been mounted since
there were `n` left. -/
def Past (n m : ℕ) (s : State) : Prop := Fewer n s ∨ s.answers.length = n ∧ s.recs.length < m

/-- The same where nothing has taken restore to a header of another file. -/
def Spent (n m : ℕ) (s : State) : Prop :=
  Fewer n s ∨ s.answers.length = n ∧ s.recs.length < m ∧ s.restarted = false ∧ s.action ≠ .using

theorem unread_spent (n m : ℕ) : Unread (Spent n m) := fun s s' h h' h'' haction hs => by
  rw [Spent, Fewer, h, h', h'']
  exact hs.imp_right fun ⟨hlen, hm, hrestarted, husing⟩ =>
    ⟨hlen, hm, hrestarted, fun hs' => husing (haction hs')⟩

theorem Spent.mono {n m m' : ℕ} {s : State} (h : Spent n m s) (hm : m ≤ m') : Spent n m' s :=
  h.imp_right fun ⟨hlen, hlt, hrest⟩ => ⟨hlen, hlt.trans_le hm, hrest⟩

theorem spent_zero {n : ℕ} {s : State} : Spent n 0 s ↔ Fewer n s :=
  ⟨fun h => h.elim id fun ⟨_, hlt, _⟩ => absurd hlt (Nat.not_lt_zero _), .inl⟩

/-- Where restore stops short it has not come to a header of another file. -/
theorem Spent.stopped {n m m' : ℕ} {s : State} (h : Spent n m s) :
    s.restarted = false ∨ Past n m' s :=
  h.elim (fun h => .inr (.inl h)) fun ⟨_, _, h, _⟩ => .inl h

/-- A record is read: there is one less. -/
theorem leadsTo_next {n m : ℕ} {s : State} (hs : Spent n (m + 1) s) :
    LeadsTo (Spent n (m + 1)) (fun _ => Spent n m) next s := by
  refine LeadsTo.get_bind ?_
  cases hrecs : s.recs with
  | nil => exact leadsTo_failure hs
  | cons r rs =>
    refine LeadsTo.set_bind (leadsTo_pure ?_)
    rw [Spent, hrecs, List.length_cons] at hs
    exact hs.imp_right fun ⟨hlen, hm, hrest⟩ => ⟨hlen, Nat.lt_of_succ_lt_succ hm, hrest⟩

/-- A volume is asked for only where there are `n`. -/
theorem Spent.getvol {n m : ℕ} {readtape : Resync Block} (hread : Keeps (Fewer n) readtape)
    (nextvol : ℤ) (fuel : ℕ) : Keeps (Spent n m) (getvolWith env readtape nextvol fuel) := by
  intro s hs
  rcases hs with hs | hs
  · exact .inl (Fewer.getvol hread nextvol fuel s hs)
  · rcases fewer_or_eq_getvol hread nextvol fuel s hs.1.le with hfewer | heq
    · exact .inl hfewer
    · rw [heq]
      exact .inr hs

theorem leadsTo_readtapeN {n m : ℕ} (k : ℕ) {s : State} (hs : Spent n (m + 1) s) :
    LeadsTo (Spent n (m + 1)) (fun _ => Spent n m) (readtapeN env k) s := by
  induction k generalizing s with
  | zero => exact leadsTo_next hs
  | succ k ih =>
    refine LeadsTo.get_bind ?_
    cases hrecs : s.recs with
    | cons r rs => exact leadsTo_next hs
    | nil =>
      refine LeadsTo.set_bind (((Spent.getvol (Fewer.readtapeN n k) _ _).leadsTo ?_).bind
        fun _ s' hs' => ih hs')
      exact unread_spent n _ s _ rfl hrecs.symm rfl id hs

theorem leadsTo_readtape {n m : ℕ} {s : State} (hs : Spent n (m + 1) s) :
    LeadsTo (Spent n (m + 1)) (fun _ => Spent n m) (readtape env) s :=
  LeadsTo.get_bind (leadsTo_readtapeN _ hs)

theorem Spent.readtape (n m : ℕ) : Keeps (Spent n m) (readtape env) := by
  cases m with
  | zero =>
    intro s hs
    exact spent_zero.mpr (Fewer.readtape n s (spent_zero.mp hs))
  | succ m =>
    exact keeps_of_leadsTo fun s hs =>
      (leadsTo_readtape hs).mono (fun _ => id) fun _ _ h => h.mono (Nat.le_succ m)

theorem Past.restartFile {n m : ℕ} : Keeps (Past n m) restartFile :=
  Keeps.get_bind fun _ hs => Keeps.ite (fun _ => Keeps.set_bind (by exact hs) keeps_failure)
    fun _ => keeps_pure _

end Exhaust

/-! ## Behind a header of type `TS_ADDR` -/

section Blank

variable {env : Env} {n : ℕ}

/-- A record in which restore finds the magic number if it takes the record for a header. -/
def Coherent (env : Env) (r : Block) : Prop :=
  ∀ g h, (convertheadBytes env.order r.bytes g).1 = some h → h.cMagic = nfsMagic

/-- `curfile` describes no file, or another volume has been mounted since there were `n` left. -/
def Blank (env : Env) (n : ℕ) (s : State) : Prop :=
  Fewer n s ∨ s.answers.length = n ∧ s.dip = none ∧ s.ino < s.maxino ∧ ∀ r ∈ s.recs, Coherent env r

theorem leadsTo_blank_next {s : State} (hs : Blank env n s) :
    LeadsTo (Blank env n) (fun r s' => Blank env n s' ∧ (Fewer n s' ∨ Coherent env r)) next s := by
  refine LeadsTo.get_bind ?_
  cases hrecs : s.recs with
  | nil => exact leadsTo_failure hs
  | cons r rs =>
    refine LeadsTo.set_bind (leadsTo_pure ?_)
    rcases hs with hfewer | ⟨hlen, hdip, hino, hall⟩
    · exact ⟨.inl hfewer, .inl hfewer⟩
    · rw [hrecs] at hall
      exact ⟨.inr ⟨hlen, hdip, hino, fun r' hr' => hall r' (List.mem_cons_of_mem _ hr')⟩,
        .inr (hall r List.mem_cons_self)⟩

theorem leadsTo_blank_readtapeN (k : ℕ) {s : State} (hs : Blank env n s) :
    LeadsTo (Blank env n) (fun r s' => Blank env n s' ∧ (Fewer n s' ∨ Coherent env r))
      (readtapeN env k) s := by
  induction k generalizing s with
  | zero => exact leadsTo_blank_next hs
  | succ k ih =>
    refine LeadsTo.get_bind ?_
    cases hrecs : s.recs with
    | cons r rs => exact leadsTo_blank_next hs
    | nil =>
      have hfewer : Keeps (Fewer n) (readtapeN env k) := Fewer.readtapeN n k
      have hgetvol (nextvol : ℤ) (fuel : ℕ) :
          Keeps (Blank env n) (getvolWith env (readtapeN env k) nextvol fuel) := by
        intro s hs
        rcases hs with hs | hs
        · exact .inl (Fewer.getvol hfewer _ _ s hs)
        · rcases fewer_or_eq_getvol hfewer _ _ s hs.1.le with hfewer | heq
          · exact .inl hfewer
          · rw [heq]
            exact .inr hs
      refine LeadsTo.set_bind (((hgetvol _ _).leadsTo ?_).bind fun _ s' hs' => ih hs')
      rw [Blank, Fewer, hrecs] at hs
      exact hs

theorem leadsTo_blank_readtape {s : State} (hs : Blank env n s) :
    LeadsTo (Blank env n) (fun r s' => Blank env n s' ∧ (Fewer n s' ∨ Coherent env r))
      (readtape env) s :=
  LeadsTo.get_bind (leadsTo_blank_readtapeN _ hs)

theorem Blank.skiprec : Keeps (Blank env n) (skiprecWith (readtape env)) :=
  keeps_of_leadsTo fun _ hs => (leadsTo_blank_readtape hs).bind fun _ _ hs => leadsTo_pure hs.1

theorem leadsTo_blank_getspcl {s : State} (hs : Blank env n s) :
    LeadsTo (Blank env n) (fun _ s' => Blank env n s' ∧
        (Fewer n s' ∨ ∀ r h, s'.spcl = .good r h → h.cMagic = nfsMagic))
      (getspclWith env (readtape env)) s := by
  rw [getspclWith, getheadWith, bind_assoc]
  refine (leadsTo_blank_readtape hs).bind fun r s hs => ?_
  rw [bind_assoc]
  refine LeadsTo.get_bind ?_
  rw [bind_assoc]
  refine LeadsTo.set_bind ?_
  cases hconv : (convertheadBytes env.order r.bytes s.cvt).1 with
  | none =>
    refine LeadsTo.bind (LeadsTo.ite (fun _ => leadsTo_failure hs.1) fun _ => leadsTo_pure ?_)
      fun b s hs => leadsTo_pure hs
    exact ⟨hs.1, .inr fun _ _ heq => Buffer.noConfusion heq⟩
  | some h =>
    refine leadsTo_pure ⟨hs.1, hs.2.imp id fun hr r' h' heq => ?_⟩
    obtain ⟨-, rfl⟩ := Buffer.good.inj heq
    exact hr _ _ hconv

/-- The header that is found has the magic number. -/
theorem leadsTo_blank_resync (fuel : ℕ) {s : State} (hs : Blank env n s) :
    LeadsTo (Blank env n) (fun _ s' => Blank env n s' ∧
        (Fewer n s' ∨ s'.spcl.hasMagic env.order = true))
      (resyncWith env (readtape env) fuel) s := by
  induction fuel generalizing s with
  | zero => exact leadsTo_failure hs
  | succ fuel ih =>
    refine (leadsTo_blank_getspcl hs).bind fun _ s hs => LeadsTo.get_bind ?_
    cases hspcl : s.spcl with
    | raw r => exact ih hs.1
    | good r h =>
      refine LeadsTo.ite (fun _ => ih hs.1) fun _ => leadsTo_pure ⟨hs.1, hs.2.imp id fun h => ?_⟩
      rw [hspcl]
      exact decide_eq_true (h _ _ hspcl)

/-- The switch at a header of type `TS_ADDR` leaves `curfile` alone. -/
theorem Blank.findinodeSwitch {again : Resync Unit}
    (hagain : ∀ s, Blank env n s →
      Fewer n s ∨ s.spcl.hasMagic env.order = true ∧ s.spcl.isAddr env.order = true →
        LeadsTo (Blank env n) (fun _ => Blank env n) again s)
    {s : State} (hs : Blank env n s) (haddr : s.spcl.isAddr env.order = true) :
    LeadsTo (Blank env n) (fun _ => Blank env n) (findinodeSwitch env (readtape env) again) s := by
  refine LeadsTo.get_bind ?_
  rw [Buffer.isAddr] at haddr
  cases hview : s.spcl.view env.order with
  | none =>
    rw [hview] at haddr
    cases haddr
  | some h =>
    rw [hview] at haddr
    have htype : h.cType = .addr := of_decide_eq_true haddr
    dsimp only
    rw [htype]
    refine ((keeps_skipAddr Blank.skiprec _ _).leadsTo hs).bind fun _ s hs => ?_
    refine (leadsTo_blank_resync _ hs).bind fun _ s hs => LeadsTo.get_bind ?_
    exact LeadsTo.ite (fun haddr => hagain s hs.1 (hs.2.imp id fun hmagic => ⟨hmagic, haddr⟩))
      fun _ => leadsTo_pure hs.1

theorem Blank.findinodeLoop (fuel : ℕ) {s : State} (hs : Blank env n s)
    (haddr : Fewer n s ∨ s.spcl.hasMagic env.order = true ∧ s.spcl.isAddr env.order = true) :
    LeadsTo (Blank env n) (fun _ => Blank env n) (findinodeLoop env (readtape env) fuel) s := by
  induction fuel generalizing s with
  | zero => exact leadsTo_failure hs
  | succ fuel ih =>
    rcases haddr with hfewer | ⟨hmagic, haddr⟩
    · have hkeeps : Keeps (Fewer n) (Resync.findinodeLoop env (readtape env) (fuel + 1)) :=
        (unread_fewer n).blind.held.findinodeLoop ((unread_fewer n).getspcl (Fewer.readtape n))
          (Unread.skiprec (Fewer.readtape n)) _
      exact (hkeeps.leadsTo hfewer).mono (fun _ => .inl) fun _ _ => .inl
    · refine leadsTo_of_run ?_
      rw [run_findinodeLoop_of_magic hmagic]
      exact (Blank.findinodeSwitch (fun s hs h => ih hs h) hs haddr).run

theorem Blank.restartFile : Keeps (Blank env n) restartFile :=
  Keeps.get_bind fun _ hs => Keeps.ite (fun _ => Keeps.set_bind (by exact hs) keeps_failure)
    fun _ => keeps_pure _

end Blank

/-! ## The first file of a volume -/

/-- `getvol` returns or jumps, and `curfile` describes record `j` of the volume `v`. -/
structure Describes (t : Order) (v : DumpVolume) (j : ℕ) (e : Emitted) (s : State)
    (r : Option Unit) (s' : State) : Prop where
  arrives : r = some () ∨ s'.restarted = true
  answers : s'.answers = s.answers.tail
  recs : s'.recs = (v.body.drop (j + 1)).map (Written.record t)
  found : Found t e s'

/-- There is no header between the records that are skipped and record `j`. -/
def Reaches (recs : List Written) (k j : ℕ) : Prop :=
  k ≤ j ∧ ∀ i, k ≤ i → i < j → ∀ a, recs[i]? ≠ some (.header a)

/-- The records from `k` on are data up to that header. -/
theorem Reaches.front {recs : List Written} {k j : ℕ} {e : Emitted} (h : Reaches recs k j)
    (he : recs[j]? = some (.header e)) : ∃ ds : List Block,
      recs.drop k = ds.map Written.data ++ Written.header e :: recs.drop (j + 1) := by
  obtain ⟨hkj, hnone⟩ := h
  induction hn : j - k generalizing k with
  | zero =>
    obtain rfl : k = j := by omega
    obtain ⟨hlt, hget⟩ := List.getElem?_eq_some_iff.mp he
    refine ⟨[], ?_⟩
    rw [List.drop_eq_getElem_cons hlt, hget]
    rfl
  | succ n ih =>
    have hlt : k < recs.length := by
      have := (List.getElem?_eq_some_iff.mp he).1
      omega
    obtain ⟨ds, hds⟩ := ih (k := k + 1) (by omega) (fun i hi => hnone i (by omega)) (by omega)
    cases hk : recs[k] with
    | header a =>
      exact absurd (List.getElem?_eq_some_iff.mpr ⟨hlt, hk⟩) (hnone k le_rfl (by omega) a)
    | data b =>
      refine ⟨b :: ds, ?_⟩
      rw [List.drop_eq_getElem_cons hlt, hk, hds]
      rfl

section Mounted

variable {env : Env} {t : Order} {nextvol : ℤ} {v : DumpVolume} {s : State}

theorem Understood.duplicates {e : Emitted} {h : Spcl} (hu : Understood t e h) (wantnext : Bool)
    (n : ℤ) : duplicates wantnext h n = duplicates wantnext e.spcl n := by
  obtain ⟨_, hd⟩ := hu.decoded
  have hfirst : h.cFirstrec = e.spcl.cFirstrec := hd.cFirstrec
  rw [Resync.duplicates, Resync.duplicates, hfirst]

theorem Understood.skipped {e : Emitted} {h : Spcl} (hu : Understood t e h) (wantnext : Bool)
    (n : ℤ) : skipped wantnext h n = skipped wantnext e.spcl n := by
  have hdup := hu.duplicates wantnext n
  obtain ⟨_, hd⟩ := hu.decoded
  have hcount : h.cCount = e.spcl.cCount := hd.cCount
  rw [Resync.skipped, Resync.skipped, hdup, hcount]

end Mounted

/-- What the header of a volume says: its number, that of its first record, and how many records
after the header belong to a file of the volume before. -/
def tapeSpcl (volume firstrec count : UInt8) : Spcl :=
  { (directoryHeader .tape 0 zero_lt_size).spcl with
    cFlags := drNewheader ||| drNewinodefmt
    cVolume := volume.toNat
    cCount := count.toNat
    cFirstrec := firstrec.toNat }

theorem tapeSpcl_fits (volume firstrec count : UInt8) : (tapeSpcl volume firstrec count).Fits :=
  have hlt (i : UInt8) : i.toNat < 256 ^ 4 / 2 := i.toNat_lt.trans (by decide)
  { (directoryHeader .tape 0 zero_lt_size).fits with
    cVolume := fitsInt_natCast (hlt volume)
    cCount := fitsInt_natCast (hlt count)
    cFirstrec := fitsInt_natCast (hlt firstrec) }

theorem zero_lt_ino : 0 < 2 ^ 32 := by decide

theorem newinodefmt_newheader : (drNewheader ||| drNewinodefmt) &&& drNewinodefmt ≠ 0 := by decide

theorem newheader_newinodefmt : (drNewheader ||| drNewinodefmt) &&& drNewheader ≠ 0 := by decide

/-- This header. -/
def tapeHeader (volume firstrec count : UInt8) : Emitted where
  spcl := tapeSpcl volume firstrec count
  ino := 0
  fits := tapeSpcl_fits volume firstrec count
  ino_lt := zero_lt_ino
  newinodefmt := newinodefmt_newheader

/-- The header of a second volume that starts with the last record of a file. It may leave that
record out. -/
def secondHeader (count : UInt8) : Emitted := tapeHeader 2 10 count

/-- This volume, with a directory after that record. -/
def secondVolume (count : UInt8) : DumpVolume where
  head := secondHeader count
  body := [.data default, .header (directoryHeader .inode 0 zero_lt_size),
    .header (directoryHeader .end_ 0 zero_lt_size)]
  head_tape := rfl
  head_flags := newheader_newinodefmt
  date e he := by
    rcases he with _ | ⟨_, _ | ⟨_, _ | ⟨_, ⟨⟩⟩⟩⟩ <;> rfl
  notape e he := by
    rcases he with _ | ⟨_, _ | ⟨_, _ | ⟨_, ⟨⟩⟩⟩⟩ <;> nofun

end Resync

end DumpRestore
