import DumpRestore.Restore.MountedVolume
import DumpRestore.Restore.TrustedHeaders

/-!
# The counter of records

`tpblksread` is to be the number of the next record. The header of a volume has the number
`c_firstrec`, and the records after it follow. `getvol` skips as many records of a new volume as
restore is ahead of `c_firstrec`.

* `Counted` is what is to hold of a place where restore reads a record.
* `Exact` is the condition on an operation, and `VolumeSet.Consecutive` that on the volumes.
* `Counting` is the invariant: the places so far are counted, and the next one will be.
* `places_counted` is the main theorem.
-/

namespace DumpRestore

open ByteOrder (Order)

/-- The volumes of a dump by their numbers. -/
structure VolumeSet where
  volume : ℤ → Option DumpVolume
  pos : ∀ n v, volume n = some v → 0 < n
  cVolume : ∀ n v, volume n = some v → v.head.spcl.cVolume = n

/-- The records of a volume as they lie on tape. -/
def DumpVolume.records (t : Order) (v : DumpVolume) : List Block :=
  (Written.header v.head :: v.body).map (Written.record t)

/-- The number that record `j` of a volume has for the writer; the header is record 0. -/
def DumpVolume.number (v : DumpVolume) (j : ℤ) : ℤ := v.head.spcl.cFirstrec + j

/-- Each volume goes on where the one before it ends: no record is on both, and none is missing. -/
def VolumeSet.Consecutive (D : VolumeSet) : Prop :=
  ∀ n v w, D.volume n = some v → D.volume (n + 1) = some w →
    w.head.spcl.cFirstrec = v.number (v.body.length + 1)

theorem VolumeSet.volume_zero (D : VolumeSet) {n : ℤ} (hn : n = 0) (v : DumpVolume) :
    D.volume n ≠ some v := fun h => absurd (D.pos n v h) (by omega)

theorem DumpVolume.length_records (t : Order) (v : DumpVolume) :
    (v.records t).length = v.body.length + 1 := by
  rw [records, List.length_map, List.length_cons]

namespace Resync

/-! ## The condition -/

section Condition

variable (env : Env) (t : Order) (D : VolumeSet)

/-- `tpblksread` is the number of the record that is read at this place. -/
def Counted (p : Place) : Prop :=
  p.placed = true → ∀ v, D.volume p.volno = some v →
    p.tpblksread = v.number (v.body.length + 1 - p.left)

/-- The header of volume `n` has the number of the record that restore would read next. -/
def Due (n : ℤ) (s : State) : Prop :=
  s.place.placed = true → ∀ v, D.volume n = some v → v.head.spcl.cFirstrec = s.tpblksread

/-- The operator mounts volumes of the dump, and none once there are no more. -/
def Volumes : List Answer → Prop
  | [] => True
  | .none :: as => as = []
  | .tape newvol recs :: as =>
    0 < newvol ∧ (∃ n v, D.volume n = some v ∧ recs = v.records t) ∧ Volumes as

/-- `c_tapea` and `c_volume` of what passes for the header of this inode give the number of the
record after it. -/
def TellsNumber (theino : ℕ) : Prop :=
  ∀ n v (j : ℕ) r g h, D.volume n = some v → (v.records t)[j]? = some r →
    (Buffer.ofRecord env g r).view env.order = some h → h.cInumber = theino → h.cType = .inode →
      h.cDate = env.dumpdate → (h.cTapea : ℤ) + h.cVolume = v.number (j + 1)

/-- The condition on an operation. -/
def Exact (op : Op) (s : State) : Prop :=
  match op with
  | .getvol nextvol =>
    wantsNext env s = true → 0 < nextvol ∧ (nextvol = s.volno ∨ Due D nextvol s)
  | .reReadInodeFromTape theino => TellsNumber env t D theino
  | .gotoTapePos recs => ∃ v, D.volume s.volno = some v ∧ recs <:+ v.records t
  | .setup | .findinode | .getfile _ _ | .reReadFromTape => True

end Condition

/-! ## The invariant -/

/-- The places so far are counted, and the next one is if there is anything left to read. -/
structure Counting (t : Order) (D : VolumeSet) (s : State) : Prop where
  places : ∀ p ∈ s.places, Counted D p
  answers : Volumes t D s.answers
  volno : 0 ≤ s.volno
  mounted : s.inHeader = false → s.volno ≠ 0 → ∃ v, D.volume s.volno = some v ∧
    s.recs <:+ v.records t
  here : s.recs ≠ [] ∨ s.answers ≠ [] → Counted D s.place
  unmounted : s.volno = 0 → s.answers ≠ [] → s.recs = [] ∧ Due D 1 s

/-- The same, with at most `n` more answers. -/
def CountingTo (t : Order) (D : VolumeSet) (n : ℕ) (s : State) : Prop :=
  Counting t D s ∧ s.answers.length ≤ n

variable {env : Env} {t : Order} {D : VolumeSet} {n : ℕ} {s : State}

theorem ofTape_counting (t : Order) (D : VolumeSet) (n : ℕ) : OfTape (CountingTo t D n) := by
  rintro s s' h ⟨hs, hlen⟩
  have hplace : s'.place = s.place := by
    rw [State.place, State.place, h.volno, h.recs, h.tpblksread, h.placed, h.inHeader]
  refine ⟨⟨h.places ▸ hs.places, h.answers ▸ hs.answers, h.volno ▸ hs.volno, ?_, ?_, ?_⟩,
    h.answers ▸ hlen⟩
  · rw [h.inHeader, h.volno, h.recs]
    exact hs.mounted
  · rw [h.recs, h.answers, hplace]
    exact hs.here
  · rw [h.volno, h.answers, h.recs, Due, hplace, h.tpblksread]
    exact hs.unmounted

/-- With no volume mounted and none to come. -/
theorem counting_of_volno_zero (hplaces : ∀ p ∈ s.places, Counted D p) (hvolno : s.volno = 0)
    (hanswers : s.answers = []) : Counting t D s where
  places := hplaces
  answers := hanswers ▸ trivial
  volno := hvolno.ge
  mounted _ h := absurd hvolno h
  here _ _ v hv := absurd hv (D.volume_zero hvolno v)
  unmounted _ h := absurd hanswers h

theorem CountingTo.setCvt (hs : CountingTo t D n s) (cvt : Cvt) :
    CountingTo t D n { s with cvt } := ⟨{ hs.1 with }, hs.2⟩

theorem counting_of_nil (hplaces : ∀ p ∈ s.places, Counted D p)
    (hvolno : s.volno = 0 ∨ Counting t D s) (h : s.answers = []) : CountingTo t D n s := by
  refine ⟨?_, h ▸ Nat.zero_le n⟩
  rcases hvolno with hzero | hs
  · exact counting_of_volno_zero hplaces hzero h
  · exact hs

/-- The operator says that there are no more volumes, with the tape closed or not. -/
theorem counting_close (hplaces : ∀ p ∈ s.places, Counted D p)
    (hvolno : s.volno = 0 ∨ Counting t D s) (closed : Bool) :
    Counting t D { s with answers := [], recs := if closed then [] else s.recs } := by
  rcases hvolno with hzero | hs
  · exact counting_of_volno_zero hplaces hzero rfl
  · refine ⟨hplaces, trivial, hs.volno, fun hin hne => ?_, fun hleft => ?_, fun _ h => absurd rfl h⟩
    · obtain ⟨v, hv, hsuffix⟩ := hs.mounted hin hne
      refine ⟨v, hv, ?_⟩
      cases closed with
      | true => exact List.nil_suffix
      | false => exact hsuffix
    · have hrecs := hleft.resolve_right fun h => h rfl
      cases closed with
      | true => exact absurd rfl hrecs
      | false => exact hs.here (.inl hrecs)

/-- The operator has another volume that is not the one. -/
theorem Counting.skipAnswer (hs : Counting t D s) {as : List Answer} (has : Volumes t D as)
    (hne : s.answers ≠ []) (hvolno : s.volno ≠ 0) : Counting t D { s with answers := as } where
  places := hs.places
  answers := has
  volno := hs.volno
  mounted := hs.mounted
  here _ := hs.here (.inr hne)
  unmounted h := absurd h hvolno

/-- A volume has been mounted, and its header read. -/
def State.mount (s : State) (t : Order) (v : DumpVolume) (vol : ℤ) (as : List Answer) (cvt : Cvt) :
    State :=
  { s with
    answers := as
    recs := v.body.map (Written.record t)
    volno := vol
    tpblksread := s.tpblksread + 1
    cvt
    inHeader := true
    places := s.places ++ [⟨vol, (v.records t).length, s.tpblksread, s.placed && false⟩] }

theorem places_mount (hplaces : ∀ p ∈ s.places, Counted D p) (v : DumpVolume) (vol : ℤ)
    (as : List Answer) (cvt : Cvt) : ∀ p ∈ (s.mount t v vol as cvt).places, Counted D p := by
  intro p hp
  rcases List.mem_append.mp hp with hp | hp
  · exact hplaces p hp
  · obtain rfl := List.mem_singleton.mp hp
    exact fun hplaced => by simp at hplaced

theorem counting_mount (hplaces : ∀ p ∈ s.places, Counted D p) {as : List Answer}
    (has : Volumes t D as) {vol : ℤ} (hvol : 0 < vol) (v : DumpVolume) (cvt : Cvt) :
    Counting t D (s.mount t v vol as cvt) where
  places := places_mount hplaces v vol as cvt
  answers := has
  volno := hvol.le
  mounted hin := by cases hin
  here _ hplaced := by simp [State.place, State.mount] at hplaced
  unmounted h := absurd h hvol.ne'

/-- It is the right volume, and its second record has the number `k`. -/
theorem counting_entered (hplaces : ∀ p ∈ s.places, Counted D p) {as : List Answer}
    (has : Volumes t D as) {vol : ℤ} (hvol : 0 < vol) {v : DumpVolume} (hv : D.volume vol = some v)
    (cvt : Cvt) {k : ℤ} (hk : s.place.placed = true → k = v.head.spcl.cFirstrec + 1) :
    Counting t D { s.mount t v vol as cvt with inHeader := s.inHeader, tpblksread := k } where
  places := places_mount hplaces v vol as cvt
  answers := has
  volno := hvol.le
  mounted _ _ := ⟨v, hv, List.suffix_cons _ _⟩
  here _ hplaced w hw := by
    obtain rfl : v = w := Option.some.inj (hv.symm.trans hw)
    rw [DumpVolume.number]
    simp only [State.place, State.mount, List.length_map, hk hplaced]
    omega
  unmounted h := absurd h hvol.ne'

/-- A record that has been read. -/
structure Behind (t : Order) (D : VolumeSet) (r : Block) (s : State) : Prop where
  suffix : s.inHeader = false → ∀ v, D.volume s.volno = some v → r :: s.recs <:+ v.records t
  answers : s.volno = 0 → s.answers = []

theorem Counting.take (hs : Counting t D s) {r : Block} {rs : List Block}
    (hrecs : s.recs = r :: rs) : Counting t D (s.take rs) ∧ Behind t D r (s.take rs) := by
  have hne : s.recs ≠ [] := hrecs ▸ List.cons_ne_nil r rs
  have hanswers : s.volno = 0 → s.answers = [] := fun hvolno => by
    by_contra h
    exact hne (hs.unmounted hvolno h).1
  refine ⟨⟨fun p hp => ?_, hs.answers, hs.volno, fun hin hvolno => ?_, fun _ hplaced v hv => ?_,
    fun hvolno h => absurd (hanswers hvolno) h⟩, ⟨fun hin v hv => ?_, hanswers⟩⟩
  · rcases List.mem_append.mp hp with hp | hp
    · exact hs.places p hp
    · exact List.mem_singleton.mp hp ▸ hs.here (.inl hne)
  · obtain ⟨v, hv, hsuffix⟩ := hs.mounted hin hvolno
    exact ⟨v, hv, (hrecs ▸ List.suffix_cons r rs).trans hsuffix⟩
  · have hnumber := hs.here (.inl hne) hplaced v hv
    simp only [State.place, State.take, DumpVolume.number, hrecs, List.length_cons] at hnumber ⊢
    push_cast at hnumber
    omega
  · obtain ⟨w, hw, hsuffix⟩ := hs.mounted hin fun h => D.volume_zero h v hv
    obtain rfl : w = v := Option.some.inj (hw.symm.trans hv)
    rwa [hrecs] at hsuffix

theorem inHeader_of_placed (h : s.place.placed = true) : s.inHeader = false := by
  simpa using (Bool.and_eq_true_iff.mp h).2

/-- At the end of a volume the next one is due. -/
theorem Counting.due (hs : Counting t D s) (hD : D.Consecutive) (hrecs : s.recs = [])
    (hanswers : s.answers ≠ []) : Due D (s.volno + 1) s := by
  intro hplaced w hw
  by_cases hvolno : s.volno = 0
  · rw [hvolno] at hw
    exact (hs.unmounted hvolno hanswers).2 hplaced w hw
  · have hin : s.inHeader = false := by simpa using (Bool.and_eq_true_iff.mp hplaced).2
    obtain ⟨v, hv, -⟩ := hs.mounted hin hvolno
    have hnumber := hs.here (.inr hanswers) hplaced v hv
    simp only [State.place, hrecs, List.length_nil, Nat.cast_zero, sub_zero] at hnumber
    exact (hD _ v w hv hw).trans hnumber.symm

/-! ## getvol -/

section Reading

variable {readtape : Resync Block} (hread : Keeps (CountingTo t D n) readtape)

include hread

theorem counting_skiprec : Keeps (CountingTo t D n) (skiprecWith readtape) :=
  hread.bind fun _ => keeps_pure _

theorem counting_gethead : Keeps (CountingTo t D n) (getheadWith env readtape) := by
  refine hread.bind fun r => Keeps.get_bind fun s hs => ?_
  refine Keeps.set_bind (hs.setCvt _) ?_
  cases (convertheadBytes env.order r.bytes s.cvt).1 with
  | some h => exact keeps_pure _
  | none => exact Keeps.ite (fun _ => keeps_failure) fun _ => keeps_pure _

/-- `getvol` from the header of the volume on. -/
theorem counting_enterVolume (wantnext : Bool) {h : Spcl} (hnew : isNewheader h)
    (hwant : wantnext = true → CountingTo t D n s)
    (hchoose : wantnext = false → CountingTo t D n { s with tpblksread := h.cFirstrec + 1 }) :
    CountingTo t D n ((OptionT.run (enterVolume env readtape wantnext h)).run s).2 := by
  have htape := ofTape_counting t D n
  have hhead : Keeps (CountingTo t D n) (getheadWith env readtape) := counting_gethead hread
  have hskip := counting_skiprec hread
  have hdup : CountingTo t D n
      ((OptionT.run (when (isNewheader h) (skipDuplicates readtape wantnext h))).run s).2 := by
    rw [when, if_pos hnew, skipDuplicates, run_get_bind]
    cases wantnext with
    | true => exact keeps_when (fun _ => keeps_skiprecs hskip _) s (hwant rfl)
    | false => exact keeps_skiprecs hskip _ _ (hchoose rfl)
  refine bind_leads hdup (fun _ => id) fun _ s hs => ?_
  refine Keeps.get_bind (fun s _ => Keeps.ite (fun _ => keeps_when fun _ => keeps_panic)
    fun _ => ?_) s hs
  refine (keeps_when fun _ => keeps_skiprecs hskip _).bind fun _ => ?_
  exact (htape.blind.getspcl hhead).bind fun _ =>
    (htape.blind.findinode hhead hskip).bind fun _ => htape.restartFile

omit hread in
/-- `gethead` at the header of a volume. -/
theorem leadsTo_gethead_head (hreads : Reads readtape) {v : DumpVolume} {vol : ℤ}
    {as : List Answer} {I : State → Prop} (hI : ∀ cvt, I (s.mount t v vol as cvt)) :
    LeadsTo I (fun b s' => ∃ cvt, s' = s.mount t v vol as cvt ∧
        ∀ r h, b = .good r h → SameLabel (v.head.header t) h)
      (getheadWith env readtape)
      { s with answers := as, recs := v.records t, volno := vol, inHeader := true } := by
  rw [getheadWith_eq]
  have hread : Ends readtape
      { s with answers := as, recs := v.records t, volno := vol, inHeader := true }
      (some ((Written.header v.head).record t)) (s.mount t v vol as s.cvt) := hreads _ _ _ rfl
  refine (hread.leadsTo ⟨rfl, rfl⟩ : LeadsTo I (fun r s' => r = (Written.header v.head).record t ∧
    s' = s.mount t v vol as s.cvt) _ _).bind fun r s' h => ?_
  obtain ⟨rfl, rfl⟩ := h
  refine (leadsTo_gethead_pure _ (hI _)).mono (fun _ => id) fun b s' h => ?_
  obtain ⟨rfl, rfl⟩ := h
  refine ⟨_, rfl, fun r h heq => ?_⟩
  exact sameLabel_of_convertheadBytes (of_ofRecord_eq_good heq).2

/-- `getvol`, unless the volume is mounted. -/
theorem counting_getvol (hreads : Reads readtape) (nextvol : ℤ) (fuel : ℕ)
    (hplaces : ∀ p ∈ s.places, Counted D p) (hanswers : Volumes t D s.answers)
    (hvolno : s.volno = 0 ∨ Counting t D s)
    (hwant : s.answers ≠ [] → wantsNext env s = true → 0 < nextvol ∧ Due D nextvol s)
    (hother : ¬(asksFor env s nextvol = true ∧ nextvol = s.volno))
    (hlen : s.answers.length ≤ n + 1) (hfuel : s.answers.length ≤ fuel) :
    CountingTo t D n ((OptionT.run (getvolWith env readtape nextvol fuel)).run s).2 := by
  induction fuel generalizing s with
  | zero =>
    exact counting_of_nil hplaces hvolno (List.length_eq_zero_iff.mp (Nat.le_zero.mp hfuel))
  | succ fuel ih =>
    rw [getvolWith, run_get_bind]
    dsimp only
    rw [show (env.aflag || s.action != .skip) = wantsNext env s from rfl,
      show (wantsNext env s && decide (0 < nextvol)) = asksFor env s nextvol from rfl,
      if_neg hother]
    cases hcons : s.answers with
    | nil => exact counting_of_nil hplaces hvolno hcons
    | cons answer as =>
      have hne : s.answers ≠ [] := hcons ▸ List.cons_ne_nil answer as
      rw [hcons] at hanswers hlen hfuel
      rw [List.length_cons] at hlen hfuel
      cases answer with
      | none =>
        obtain rfl : as = [] := hanswers
        refine (ofTape_counting t D n).terminateinput _ ⟨?_, Nat.zero_le n⟩
        exact counting_close hplaces hvolno _
      | tape newvol recs =>
        obtain ⟨hpos, ⟨m, v, hv, rfl⟩, has⟩ := hanswers
        dsimp only
        have hasks : wantsNext env s = true → asksFor env s nextvol = true := fun h => by
          rw [asksFor, h, Bool.true_and, decide_eq_true (hwant hne h).1]
        have hvol : 0 < (if asksFor env s nextvol = true then nextvol else newvol) := by
          split
          · next h => exact of_decide_eq_true (Bool.and_eq_true_iff.mp h).2
          · exact hpos
        have hdue : wantsNext env s = true →
            Due D (if asksFor env s nextvol = true then nextvol else newvol) s := fun h => by
          rw [if_pos (hasks h)]
          exact (hwant hne h).2
        generalize (if asksFor env s nextvol = true then nextvol else newvol) = vol at hvol hdue ⊢
        by_cases hsame : vol = s.volno
        · rw [if_pos hsame]
          have hs := hvolno.resolve_left (hsame ▸ hvol.ne')
          exact ⟨hs.skipAnswer has hne (hsame ▸ hvol.ne'), by exact Nat.le_of_succ_le_succ hlen⟩
        · rw [if_neg hsame]
          have hagain (cvt : Cvt) : LeadsTo (CountingTo t D n) (fun _ => CountingTo t D n) (do
              modify fun u => { u with volno := 0, tpblksread := s.tpblksread }
              getvolWith env readtape nextvol fuel)
              { s.mount t v vol as cvt with inHeader := s.inHeader } := by
            refine LeadsTo.modify_bind (leadsTo_of_run (ih (places_mount hplaces v vol as cvt) has
              (.inl rfl) (fun _ => hwant hne) ?_ ?_ ?_))
            · rintro ⟨h, hzero⟩
              have hnext := of_decide_eq_true (Bool.and_eq_true_iff.mp h).2
              exact absurd hzero hnext.ne'
            · exact (Nat.le_of_succ_le_succ hlen).trans (Nat.le_succ n)
            · exact Nat.le_of_succ_le_succ hfuel
          refine LeadsTo.run (LeadsTo.set_bind ((leadsTo_gethead_head hreads fun cvt =>
            ⟨counting_mount hplaces has hvol v cvt, Nat.le_of_succ_le_succ hlen⟩).bind
              fun b s₁ h₁ => ?_))
          obtain ⟨cvt, rfl, hlabel⟩ := h₁
          refine LeadsTo.modify_bind ?_
          cases b with
          | raw r => exact hagain cvt
          | good r h =>
            refine LeadsTo.ite (fun hright => leadsTo_of_run ?_) fun _ => hagain cvt
            have hseen : SameLabel (v.head.header t) h := hlabel r h rfl
            have hcVolume : h.cVolume = v.head.spcl.cVolume := hseen.cVolume
            have hcFirstrec : h.cFirstrec = v.head.spcl.cFirstrec := hseen.cFirstrec
            have hcFlags : h.cFlags = v.head.spcl.cFlags := hseen.cFlags
            obtain rfl : vol = m := by rw [← hright.1, hcVolume, D.cVolume m v hv]
            have hnew : isNewheader h := ⟨hseen.cType.trans v.head_tape, hcFlags ▸ v.head_flags⟩
            have hlen' : as.length ≤ n := Nat.le_of_succ_le_succ hlen
            refine counting_enterVolume hread _ hnew (fun hw => ⟨?_, hlen'⟩) fun _ => ⟨?_, hlen'⟩
            · exact counting_entered hplaces has hvol hv cvt fun hplaced =>
                congrArg (· + 1) (hdue hw hplaced v hv).symm
            · exact counting_entered hplaces has hvol hv cvt fun _ => by rw [hcFirstrec]

end Reading

/-! ## readtape -/

theorem counts_next (hs : CountingTo t D n s) :
    LeadsTo (CountingTo t D n) (fun r s' => CountingTo t D n s' ∧ Behind t D r s') next s := by
  refine LeadsTo.get_bind ?_
  cases hrecs : s.recs with
  | nil => exact leadsTo_failure hs
  | cons r rs =>
    obtain ⟨htake, hbehind⟩ := hs.1.take hrecs
    exact LeadsTo.set_bind (leadsTo_pure ⟨⟨htake, hs.2⟩, hbehind⟩)

variable (hD : D.Consecutive)

include hD

theorem counts_readtapeN (n : ℕ) {s : State} (hs : CountingTo t D n s) :
    LeadsTo (CountingTo t D n) (fun r s' => CountingTo t D n s' ∧ Behind t D r s')
      (readtapeN env n) s := by
  induction n generalizing s with
  | zero => exact counts_next hs
  | succ n ih =>
    refine LeadsTo.get_bind ?_
    cases hrecs : s.recs with
    | cons r rs => exact counts_next hs
    | nil =>
      have hread : Keeps (CountingTo t D n) (readtapeN env n) := keeps_of_leadsTo fun s hs =>
        (ih hs).mono (fun _ => id) fun _ _ => And.left
      have hgetvol : CountingTo t D n ((OptionT.run (getvolWith env (readtapeN env n) (s.volno + 1)
          (n + 1))).run { s with volno := 0, recs := [] }).2 := by
        refine counting_getvol hread (reads_readtapeN env n) _ _ hs.1.places hs.1.answers (.inl rfl)
          (fun hne _ => ⟨Int.lt_add_one_of_le hs.1.volno, ?_⟩) ?_ hs.2 hs.2
        · exact hs.1.due hD hrecs hne
        · rintro ⟨-, h⟩
          have := hs.1.volno
          change s.volno + 1 = 0 at h
          omega
      refine LeadsTo.set_bind (((leadsTo_of_run hgetvol).bind fun _ s hs => ih hs).mono ?_ ?_)
      · exact fun _ h => ⟨h.1, h.2.trans (Nat.le_succ n)⟩
      · exact fun _ _ h => ⟨⟨h.1.1, h.1.2.trans (Nat.le_succ n)⟩, h.2⟩

theorem counts_readtape (hs : CountingTo t D n s) :
    LeadsTo (CountingTo t D n) (fun r s' => CountingTo t D n s' ∧ Behind t D r s')
      (readtape env) s := by
  refine LeadsTo.get_bind ((counts_readtapeN hD s.answers.length ⟨hs.1, le_rfl⟩).mono ?_ ?_)
  · exact fun _ h => ⟨h.1, h.2.trans hs.2⟩
  · exact fun _ _ h => ⟨⟨h.1.1, h.1.2.trans hs.2⟩, h.2⟩

theorem counting_readtape : Keeps (CountingTo t D n) (readtape env) := keeps_of_leadsTo fun _ hs =>
  (counts_readtape hD hs).mono (fun _ => id) fun _ _ => And.left

/-- The header that `ReReadInodeFromTape` looks for. -/
theorem counts_reReadLoop {theino : ℕ} (htells : TellsNumber env t D theino) (fuel : ℕ)
    (hs : CountingTo t D n s) :
    LeadsTo (CountingTo t D n) (fun _ => CountingTo t D n) (reReadLoop env theino fuel) s := by
  induction fuel generalizing s with
  | zero => exact leadsTo_failure hs
  | succ fuel ih =>
    rw [reReadLoop]
    have hspcl : LeadsTo (CountingTo t D n) (fun _ s' => CountingTo t D n s' ∧
        ∃ r g, s'.spcl = .ofRecord env g r ∧ Behind t D r s') (getspcl env) s := by
      rw [getspcl, getspclWith, getheadWith_eq, bind_assoc]
      refine (counts_readtape hD hs).bind fun r s₁ h₁ => ?_
      refine (leadsTo_gethead_pure r (h₁.1.setCvt _)).bind fun b s₂ h₂ => leadsTo_pure ?_
      obtain ⟨rfl, rfl⟩ := h₂
      exact ⟨⟨{ h₁.1.1 with }, h₁.1.2⟩, r, s₁.cvt, rfl, h₁.2.suffix, h₁.2.answers⟩
    refine hspcl.bind fun _ s₁ h₁ => LeadsTo.get_bind ?_
    obtain ⟨hs₁, r, g, hbuf, hbehind⟩ := h₁
    cases hview : s₁.spcl.view env.order with
    | none => exact ih hs₁
    | some h =>
      refine LeadsTo.ite (fun hsought => leadsTo_pure ⟨?_, hs₁.2⟩) fun _ => ih hs₁
      refine ⟨hs₁.1.places, hs₁.1.answers, hs₁.1.volno, hs₁.1.mounted, fun _ hplaced v hv => ?_,
        fun hzero hne => absurd (hbehind.answers hzero) hne⟩
      have hin := inHeader_of_placed hplaced
      obtain ⟨before, hbefore⟩ := hbehind.suffix hin v hv
      have hrecord : (v.records t)[before.length]? = some r := by
        rw [← hbefore, List.getElem?_append_right le_rfl, Nat.sub_self]
        rfl
      have hlen := congrArg List.length hbefore
      rw [List.length_append, List.length_cons, v.length_records] at hlen
      rw [hbuf] at hview
      refine (htells s₁.volno v before.length r g h hv hrecord hview hsought.1 hsought.2.1
        hsought.2.2).trans ?_
      simp only [State.place, DumpVolume.number]
      omega

/-! ## Every run -/

omit hD in
/-- No record of the volume that is due is skipped. -/
theorem duplicates_of_due {m : ℤ} {v : DumpVolume} (hdue : Due D m s) (hv : D.volume m = some v)
    (hplaced : s.place.placed = true) (wantnext : Bool) :
    duplicates wantnext v.head.spcl s.tpblksread = 0 := by
  refine if_neg ?_
  rintro ⟨-, -, hlt⟩
  exact absurd (hdue hplaced v hv) hlt.ne

/-- Every operation that meets the condition. -/
theorem Counting.call (op : Op) (s : State) (hs : Counting t D s) (hop : Exact env t D op s) :
    Counting t D ((OptionT.run (op.call env)).run s).2 := by
  have hs' : CountingTo t D s.answers.length s := ⟨hs, le_rfl⟩
  have htape := ofTape_counting t D s.answers.length
  have hread : Keeps (CountingTo t D s.answers.length) (readtape env) := counting_readtape hD
  have hhead : Keeps (CountingTo t D s.answers.length) (getheadWith env (readtape env)) :=
    counting_gethead hread
  have hskip := counting_skiprec hread
  cases op with
  | setup => exact (htape.setup hhead hskip s hs').1
  | findinode => exact (htape.blind.findinode hhead hskip s hs').1
  | getvol nextvol =>
    have hs₁ : Counting t D { s with gettingfile := s.gettingfile && nextvol != 1 } := { hs with }
    change Counting t D ((OptionT.run (getvolWith env (readtape env) nextvol
      (s.answers.length + 1))).run { s with gettingfile := s.gettingfile && nextvol != 1 }).2
    by_cases hsame : asksFor env s nextvol = true ∧ nextvol = s.volno
    · rw [getvolWith, run_get_bind]
      dsimp only
      rw [show ((env.aflag || s.action != .skip) && decide (0 < nextvol)) = asksFor env s nextvol
        from rfl, if_pos hsame]
      exact hs₁
    · refine (counting_getvol hread (reads_readtape env) nextvol (s.answers.length + 1) hs₁.places
        hs₁.answers (.inr hs₁) (fun _ hw => ?_) hsame (Nat.le_succ _) (Nat.le_succ _)).1
      obtain ⟨hpos, hdue⟩ := hop hw
      refine ⟨hpos, hdue.resolve_left fun heq => hsame ⟨?_, heq⟩⟩
      exact Bool.and_eq_true_iff.mpr ⟨hw, decide_eq_true hpos⟩
  | getfile readingmaps action => exact (htape.getfile hhead hskip readingmaps action s hs').1
  | reReadFromTape => exact (htape.reReadFromTape hhead hskip s hs').1
  | reReadInodeFromTape theino =>
    have hloop := counts_reReadLoop hD hop env.fuel hs'
    exact ((hloop.bind fun _ s hs => (htape.blind.findinode hhead hskip).leadsTo hs).run).1
  | gotoTapePos recs =>
    obtain ⟨v, hv, hsuffix⟩ := hop
    exact {
      places := hs.places
      answers := hs.answers
      volno := hs.volno
      mounted := fun _ _ => ⟨v, hv, hsuffix⟩
      here := fun _ hplaced => by cases hplaced
      unmounted := fun hzero => absurd hv (D.volume_zero hzero v) }

omit hD

/-! ## Two volumes -/

theorem header_not_mem_firstVolume (e : Emitted) :
    Written.header e ∉ List.replicate 9 (Written.data default) := fun h =>
  Written.noConfusion (List.eq_of_mem_replicate h)

/-- A first volume with nine blocks of data. -/
def firstVolume : DumpVolume where
  head := tapeHeader 1 0 0
  body := List.replicate 9 (.data default)
  head_tape := rfl
  head_flags := newheader_newinodefmt
  date e he := absurd he (header_not_mem_firstVolume e)
  notape e he := absurd he (header_not_mem_firstVolume e)

/-- This volume, and the second one. -/
def twoVolumes : VolumeSet where
  volume n := if n = 1 then some firstVolume else if n = 2 then some (secondVolume 0) else none
  pos n v hv := by
    split at hv
    · omega
    · split at hv
      · omega
      · cases hv
  cVolume n v hv := by
    split at hv
    · next hn =>
      obtain rfl := Option.some.inj hv
      exact hn.symm
    · split at hv
      · next hn =>
        obtain rfl := Option.some.inj hv
        exact hn.symm
      · cases hv

end Resync

end DumpRestore
