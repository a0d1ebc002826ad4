import DumpRestore.Dump.Compress
import DumpRestore.Restore.Resync

/-!
# The search for a file

`findinode` goes from the record in the buffer `spcl` to the header of a file. Here the records are
those of a dump: headers that dump has written, and data that `gethead` overlooks.

* `Ends`: the result and the last state of a program.
* `Leads`: the header that `findinode` comes to, the data it looks at before, and what is left.
* `ends_search`: `gethead` and `findinode` come to that header.
-/

namespace DumpRestore

open ByteOrder (Order)

/-- The record on a volume written by a machine of byte order `t`. -/
def Written.record (t : Order) : Written → Block
  | .header e => ⟨(e.header t).image t, Spcl.length_image ..⟩
  | .data b => b

namespace Resync

/-! ## Runs that are known -/

/-- The program ends like this, with a result or early. -/
def Ends {α : Type} (x : Resync α) (s : State) (r : Option α) (s' : State) : Prop :=
  (OptionT.run x).run s = (r, s')

theorem run_get_bind {β : Type} (f : State → Resync β) (s : State) :
    (OptionT.run (get >>= f)).run s = (OptionT.run (f s)).run s := rfl

theorem ends_pure {α : Type} (a : α) (s : State) : Ends (pure a) s (some a) s := rfl

theorem Ends.bind {α β : Type} {x : Resync α} {f : α → Resync β} {s s' s'' : State} {a : α}
    {r : Option β} (hx : Ends x s (some a) s') (hf : Ends (f a) s' r s'') :
    Ends (x >>= f) s r s'' := (run_bind_of_eq f hx).trans hf

theorem Ends.get_bind {β : Type} {f : State → Resync β} {s s' : State} {r : Option β}
    (hf : Ends (f s) s r s') : Ends (get >>= f) s r s' := hf

theorem Ends.set_bind {β : Type} {f : PUnit → Resync β} {s s' s'' : State} {r : Option β}
    (hf : Ends (f ⟨⟩) s' r s'') : Ends (set s' >>= f) s r s'' := hf

theorem Ends.modify_bind {β : Type} {g : State → State} {f : PUnit → Resync β} {s s' : State}
    {r : Option β} (hf : Ends (f ⟨⟩) (g s) r s') : Ends (modify g >>= f) s r s' := hf

theorem Ends.when_neg {c : Prop} [Decidable c] {x : Resync Unit} {s : State} (hc : ¬c) :
    Ends (when c x) s (some ()) s := by
  rw [when, if_neg hc]
  exact ends_pure () s

/-- The flags of the conversion after a header of the dump. -/
structure Settled (env : Env) (t : Order) (g : Cvt) : Prop where
  bcvt : g.bcvt = decide (t = env.order.other)
  oldinofmt : g.oldinofmt = false

/-- A record without the magic number, or with a checksum that does not hold. -/
def Refused (env : Env) (t : Order) (b : Block) : Prop :=
  ∀ g, Settled env t g → passes env g b = false

/-- A record that makes `converthead` swap the bytes of headers that are in the byte order of the
machine. -/
def Reverses (env : Env) (t : Order) (b : Block) : Prop :=
  t = env.order ∧ swabi (magic env.order b.bytes) = nfsMagic

/-- A record that `gethead` refuses, and that leaves no trace. -/
structure Overlooked (env : Env) (t : Order) (b : Block) : Prop where
  refused : Refused env t b
  reverses : ¬Reverses env t b

/-- Nothing but the records left, the buffer `spcl` and counters are different. -/
structure Moved (env : Env) (t : Order) (s s' : State) (rest : List Block) : Prop where
  recs : s'.recs = rest
  answers : s'.answers = s.answers
  maxino : s'.maxino = s.maxino
  dip : s'.dip = s.dip
  ino : s'.ino = s.ino
  settled : Settled env t s'.cvt

section Reading

variable {env : Env} {t : Order} {s : State}

theorem Moved.trans {s₁ s₂ : State} {rest rest' : List Block} (h : Moved env t s s₁ rest)
    (h' : Moved env t s₁ s₂ rest') : Moved env t s s₂ rest' where
  recs := h'.recs
  answers := h'.answers.trans h.answers
  maxino := h'.maxino.trans h.maxino
  dip := h'.dip.trans h.dip
  ino := h'.ino.trans h.ino
  settled := h'.settled

theorem ends_next {r : Block} {rs : List Block} (hrecs : s.recs = r :: rs) :
    Ends next s (some r) (s.take rs) := by
  refine Ends.get_bind ?_
  rw [hrecs]
  exact Ends.set_bind (ends_pure r _)

/-- A reader that takes the next record of the mounted volume, as long as there is one. -/
def Reads (readtape : Resync Block) : Prop :=
  ∀ (s : State) (r : Block) (rs : List Block), s.recs = r :: rs →
    Ends readtape s (some r) (s.take rs)

theorem reads_readtapeN (env : Env) (n : ℕ) : Reads (readtapeN env n) := by
  intro s r rs hrecs
  cases n with
  | zero => exact ends_next hrecs
  | succ n =>
    refine Ends.get_bind ?_
    rw [hrecs]
    exact ends_next hrecs

theorem reads_readtape (env : Env) : Reads (readtape env) := fun s r rs hrecs =>
  Ends.get_bind (reads_readtapeN env _ s r rs hrecs)

theorem ends_readtape {r : Block} {rs : List Block} (hrecs : s.recs = r :: rs) :
    Ends (readtape env) s (some r) (s.take rs) :=
  reads_readtape env s r rs hrecs

theorem Overlooked.convertheadBytes {b : Block} (hb : Overlooked env t b) {g : Cvt}
    (hg : Settled env t g) : convertheadBytes env.order b.bytes g = (none, g) := by
  have hpasses := hb.refused g hg
  rw [DumpRestore.convertheadBytes]
  split
  · rfl
  · next hmagic =>
    have hsome : (magic env.order b.bytes == nfsMagic ||
        swabi (magic env.order b.bytes) == nfsMagic) = true := by
      by_contra hno
      rw [Bool.not_eq_true, Bool.or_eq_false_iff, beq_eq_false_iff_ne, beq_eq_false_iff_ne] at hno
      exact hmagic hno
    rw [passes, headerPasses, hsome, Bool.true_and] at hpasses
    obtain ⟨hflags, hsum⟩ :
        (if magic env.order b.bytes ≠ nfsMagic then { g with bcvt := true } else g) = g ∧
          checksumCvt env.order g.bcvt b.bytes = false := by
      by_cases hnfs : magic env.order b.bytes = nfsMagic
      · rw [hnfs, bne_self_eq_false, Bool.or_false] at hpasses
        exact ⟨if_neg (not_not.mpr hnfs), hpasses⟩
      · -- the bytes of the headers are swapped already
        have hother : t = env.order.other := by
          by_contra hne
          exact hb.reverses ⟨eq_of_ne_other hne, by_contra fun hne' => hmagic ⟨hnfs, hne'⟩⟩
        have hbcvt : g.bcvt = true := hg.bcvt.trans (decide_eq_true hother)
        rw [hbcvt, Bool.true_or] at hpasses
        rw [if_pos hnfs, ← hbcvt]
        exact ⟨rfl, hbcvt ▸ hpasses⟩
    rw [hflags]
    dsimp only
    rw [hsum]
    rfl

/-- The members of a header that the conversion leaves alone in any case. -/
structure SameLabel (h h' : Spcl) : Prop where
  cType : h'.cType = h.cType
  cDate : h'.cDate = h.cDate
  cDdate : h'.cDdate = h.cDdate
  cVolume : h'.cVolume = h.cVolume
  cMagic : h'.cMagic = h.cMagic
  cFlags : h'.cFlags = h.cFlags
  cFirstrec : h'.cFirstrec = h.cFirstrec

theorem SameLabel.trans {h₁ h₂ h₃ : Spcl} (h : SameLabel h₁ h₂) (h' : SameLabel h₂ h₃) :
    SameLabel h₁ h₃ where
  cType := h'.cType.trans h.cType
  cDate := h'.cDate.trans h.cDate
  cDdate := h'.cDdate.trans h.cDdate
  cVolume := h'.cVolume.trans h.cVolume
  cMagic := h'.cMagic.trans h.cMagic
  cFlags := h'.cFlags.trans h.cFlags
  cFirstrec := h'.cFirstrec.trans h.cFirstrec

theorem sameLabel_of_members {h h' : Spcl} (hm : h'.members = h.members) : SameLabel h h' where
  cType := eq_of_members hm Spcl.cType fun _ => rfl
  cDate := eq_of_members hm Spcl.cDate fun _ => rfl
  cDdate := eq_of_members hm Spcl.cDdate fun _ => rfl
  cVolume := eq_of_members hm Spcl.cVolume fun _ => rfl
  cMagic := eq_of_members hm Spcl.cMagic fun _ => rfl
  cFlags := eq_of_members hm Spcl.cFlags fun _ => rfl
  cFirstrec := eq_of_members hm Spcl.cFirstrec fun _ => rfl

theorem dates_patch (h : Spcl) : h.patch.cDate = h.cDate ∧ h.patch.cDdate = h.cDdate := by
  cases htype : h.cType <;> simp only [Spcl.patch, htype, and_self]

theorem sameLabel_patch (h : Spcl) : SameLabel h h.patch where
  cType := cType_patch h
  cDate := (dates_patch h).1
  cDdate := (dates_patch h).2
  cVolume := (decoded_patch h).cVolume
  cMagic := h.patch_cMagic
  cFlags := (decoded_patch h).cFlags
  cFirstrec := (decoded_patch h).cFirstrec

theorem sameLabel_setSize (h : Spcl) (n : ℕ) : SameLabel h (h.setSize n) :=
  ⟨rfl, rfl, rfl, rfl, rfl, rfl, rfl⟩

theorem sameLabel_ite_quadSwap (h : Spcl) (q : Bool) :
    SameLabel h (if q then h.quadSwap else h) := by
  cases q with
  | false => exact ⟨rfl, rfl, rfl, rfl, rfl, rfl, rfl⟩
  | true => exact sameLabel_setSize ..

theorem sameLabel_convertheadGood (h : Spcl) (g : Cvt) : SameLabel h (convertheadGood h g).1 := by
  unfold convertheadGood
  generalize (if h.QuadSwapped ∧ g.qcvt = false then { g with qcvt := true } else g) = g'
  have hswap := sameLabel_ite_quadSwap h g'.qcvt
  dsimp only
  generalize (if g'.qcvt = true then h.quadSwap else h) = h' at hswap ⊢
  have hpatch := hswap.trans (sameLabel_patch h')
  split
  · exact hpatch.trans ⟨rfl, rfl, rfl, rfl, rfl, rfl, rfl⟩
  · exact hpatch

/-- Whatever the flags are, restore refuses a header of the dump or sees what it says. -/
theorem sameLabel_of_convertheadBytes {m t : Order} {e : Emitted} {g : Cvt} {h : Spcl}
    (hconv : (convertheadBytes m ((Written.header e).record t).bytes g).1 = some h) :
    SameLabel (e.header t) h := by
  by_cases hbcvt : g.bcvt = true → t = m.other
  · obtain ⟨h₀, hmembers, heq⟩ := convertheadBytes_eq m t e hbcvt
    have hfst := congrArg Prod.fst heq
    obtain rfl := Option.some.inj (hconv.symm.trans hfst)
    exact (sameLabel_of_members hmembers).trans (sameLabel_convertheadGood h₀ _)
  · obtain ⟨hg, ht⟩ := Classical.not_imp.mp hbcvt
    obtain rfl : t = m := eq_of_ne_other ht
    have hnone : (convertheadBytes t ((Written.header e).record t).bytes g).1 = none :=
      convertheadBytes_image_of_bcvt t e hg
    rw [hnone] at hconv
    cases hconv

/-- What restore makes of a header of the dump. -/
structure Understood (t : Order) (e : Emitted) (h : Spcl) : Prop where
  decoded : ∃ swapped, Decoded swapped (e.header t) h
  label : SameLabel (e.header t) h

theorem Understood.cDate {e : Emitted} {h : Spcl} (hu : Understood t e h) :
    h.cDate = e.spcl.cDate := hu.label.cDate

theorem Understood.cDdate {e : Emitted} {h : Spcl} (hu : Understood t e h) :
    h.cDdate = e.spcl.cDdate := hu.label.cDdate

theorem Understood.cType {e : Emitted} {h : Spcl} (hu : Understood t e h) :
    h.cType = e.spcl.cType := by
  obtain ⟨_, hd⟩ := hu.decoded
  exact hd.cType

/-- The header of the dump that is in `spcl`. -/
def Holds (t : Order) (e : Emitted) (s : State) : Prop :=
  ∃ h, s.spcl = .good ((Written.header e).record t) h ∧ Understood t e h

/-- The data before the first header. -/
def shown : List Written → List Block
  | .data b :: recs => b :: shown recs
  | _ => []

/-- `curfile` after `findinode` at the header `e`. -/
structure Found (t : Order) (e : Emitted) (s : State) : Prop where
  holds : Holds t e s
  inode : e.spcl.cType = .inode →
    s.ino = e.ino ∧ ∃ r h, s.spcl = .good r h ∧ s.dip = some h.cDinode
  end_ : e.spcl.cType = .end_ → s.ino = s.maxino

theorem Understood.cInumber {e : Emitted} {h : Spcl} (hu : Understood t e h)
    (htype : e.spcl.cType = .inode) : h.cInumber = e.ino := by
  obtain ⟨_, hd⟩ := hu.decoded
  rw [hd.cInumber, if_pos (.inl htype)]
  rfl

theorem Holds.hasMagic {e : Emitted} (h : Holds t e s) : s.spcl.hasMagic env.order = true := by
  obtain ⟨h', hspcl, hu⟩ := h
  rw [hspcl]
  exact decide_eq_true hu.label.cMagic

theorem Holds.view {e : Emitted} (h : Holds t e s) :
    ∃ h', s.spcl.view env.order = some h' ∧ h'.cType = e.spcl.cType := by
  obtain ⟨h', hspcl, hu⟩ := h
  rw [hspcl]
  exact ⟨h', rfl, hu.cType⟩

/-- `findinode` at a record with the magic number. -/
theorem run_findinodeLoop_of_magic {readtape : Resync Block}
    (hmagic : s.spcl.hasMagic env.order = true) (fuel : ℕ) :
    (OptionT.run (findinodeLoop env readtape (fuel + 1))).run s =
      (OptionT.run (findinodeSwitch env readtape (findinodeLoop env readtape fuel))).run s := by
  have hnone : Ends (when (s.spcl.hasMagic env.order = false) (resyncWith env readtape env.fuel)) s
      (some ()) s := Ends.when_neg (by rw [hmagic]; exact Bool.noConfusion)
  rw [findinodeLoop, run_get_bind, run_bind_of_eq _ hnone]

/-- The headers of a dump that restore reads. -/
structure Known (env : Env) (recs : List Written) : Prop where
  date : ∀ e, .header e ∈ recs → e.spcl.cDate = env.dumpdate
  notape : ∀ e, .header e ∈ recs → e.spcl.cType ≠ .tape

theorem Known.subset {recs recs' : List Written} (h : Known env recs) (hsub : recs' ⊆ recs) :
    Known env recs' where
  date e he := h.date e (hsub he)
  notape e he := h.notape e (hsub he)

end Reading

end Resync

end DumpRestore
