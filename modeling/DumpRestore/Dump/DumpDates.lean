import DumpRestore.Dump.InodeMaps

/-!
# The file of dump dates

An incremental dump takes its base date from the file of dump dates, and a dump with `-u` puts its
own date there. The file is the list of its records, one for every filesystem and level.

* `Kept` relates the records of a filesystem to the dumps of it so far, which are listed with the
  last one first.
* `getdumptime_fst`: the base date is the date of the last dump of a lower level.
* `incremental_chain`: a dump and the dumps it builds on have every change.
-/

namespace DumpRestore

/-- `struct dumpdates`, without the pointer into the table of filesystems. -/
structure Dumpdates where
  ddName : List UInt8
  ddLevel : ℤ
  ddDdate : ℤ
  deriving DecidableEq

/-- `sizeof (ddp->dd_name)`. -/
def ddNameSize : ℕ := 4096 + 3

/-- A value stored in an `int32_t`. -/
def int32 (x : ℤ) : ℤ := x.bmod (2 ^ 32)

theorem int32_of_lt {x : ℤ} (h0 : 0 ≤ x) (h : x < 2 ^ 31) : int32 x = x :=
  Int.bmod_eq_of_le (by norm_num; omega) (by norm_num; omega)

/-- `strncmp(disk, ddp->dd_name, sizeof (ddp->dd_name)) == 0`. -/
def Dumpdates.Matches (disk : List UInt8) (ddp : Dumpdates) : Prop :=
  disk.take ddNameSize = ddp.ddName.take ddNameSize

instance (disk : List UInt8) (ddp : Dumpdates) : Decidable (ddp.Matches disk) :=
  inferInstanceAs (Decidable (_ = _))

/-- `getdumptime`, for `spcl.c_ddate` and `lastlevel`. -/
def getdumptime (disk : List UInt8) (level : ℕ) (ddatev : List Dumpdates) : ℤ × Option ℤ :=
  ddatev.foldl (fun (s : ℤ × Option ℤ) ddp =>
    if ¬ddp.Matches disk then s
    else if ddp.ddLevel ≥ (level : ℤ) then s
    else if ddp.ddDdate ≤ s.1 then s
    else (int32 ddp.ddDdate, some ddp.ddLevel)) (0, none)

/-- What `main` makes of the level when no dump of a lower level is found. -/
def assumeLevel (ddate : ℤ) (level : ℕ) : ℕ :=
  if ddate = 0 ∧ level ≠ 0 then 0 else level

/-- The record that `putdumptime` writes. -/
def newDumpdates (disk : List UInt8) (level : ℕ) (date : ℤ) : Dumpdates :=
  ⟨disk.take ddNameSize, level, date⟩

/-- `putdumptime`. -/
def putdumptime (disk : List UInt8) (level : ℕ) (date : ℤ) : List Dumpdates → List Dumpdates
  | [] => [newDumpdates disk level date]
  | ddp :: ddatev =>
    if ddp.Matches disk ∧ ddp.ddLevel = level then newDumpdates disk level date :: ddatev
    else ddp :: putdumptime disk level date ddatev

/-! ## Histories of dumps -/

/-- A completed dump: when it started, the level that was asked for, and the level and the base
date that it found. -/
structure DumpRun where
  date : ℤ
  asked : ℕ
  level : ℕ
  ddate : ℤ

/-- The dump that starts at `date`, given the records that it finds. -/
def startDump (disk : List UInt8) (asked : ℕ) (date : ℤ) (ddatev : List Dumpdates) : DumpRun :=
  let ddate := (getdumptime disk asked ddatev).1
  ⟨date, asked, assumeLevel ddate asked, ddate⟩

/-- The records of this filesystem stay the same, in any order. -/
def OthersChange (disk : List UInt8) (ddatev ddatev' : List Dumpdates) : Prop :=
  ∀ ddp : Dumpdates, ddp.Matches disk → (ddp ∈ ddatev ↔ ddp ∈ ddatev')

/-- The dumps of a filesystem with `-u`, the last one first, and the records they leave. Records of
other filesystems may change at any time. -/
inductive History (disk : List UInt8) : List DumpRun → List Dumpdates → Prop
  | start {ddatev : List Dumpdates} (hnone : ∀ ddp ∈ ddatev, ¬ddp.Matches disk) :
      History disk [] ddatev
  | others {ds : List DumpRun} {ddatev ddatev' : List Dumpdates} (h : History disk ds ddatev)
      (hothers : OthersChange disk ddatev ddatev') : History disk ds ddatev'
  | dump {ds : List DumpRun} {ddatev ddatev' : List Dumpdates} {date : ℤ} {asked : ℕ}
      (h : History disk ds ddatev) (hdate : 0 ≤ date ∧ date < 2 ^ 31)
      (hlater : ∀ d ∈ ds, d.date < date) (hothers : OthersChange disk ddatev ddatev') :
      History disk (startDump disk asked date ddatev :: ds)
        (putdumptime disk (startDump disk asked date ddatev).level date ddatev')

/-- The last dump of a lower level. -/
def DumpRun.base (d : DumpRun) (earlier : List DumpRun) : Option DumpRun :=
  earlier.find? fun b => b.level < d.asked

variable {disk : List UInt8} {ds : List DumpRun} {ddatev : List Dumpdates}

theorem newDumpdates_matches (disk : List UInt8) (level : ℕ) (date : ℤ) :
    (newDumpdates disk level date).Matches disk := by
  simp [Dumpdates.Matches, newDumpdates]

/-- What `putdumptime` does to the records. -/
theorem mem_putdumptime {disk : List UInt8} {level : ℕ} {date : ℤ} {ddp : Dumpdates}
    (h : ddp ∈ putdumptime disk level date ddatev) :
    ddp = newDumpdates disk level date ∨ ddp ∈ ddatev := by
  induction ddatev with
  | nil => exact .inl (List.mem_singleton.mp h)
  | cons e ddatev ih =>
    rw [putdumptime] at h
    split at h
    · exact (List.mem_cons.mp h).imp_right (List.mem_cons_of_mem _)
    · rcases List.mem_cons.mp h with rfl | h
      · exact .inr List.mem_cons_self
      · exact (ih h).imp_right (List.mem_cons_of_mem _)

theorem newDumpdates_mem (disk : List UInt8) (level : ℕ) (date : ℤ) (ddatev : List Dumpdates) :
    newDumpdates disk level date ∈ putdumptime disk level date ddatev := by
  induction ddatev with
  | nil => exact List.mem_singleton_self _
  | cons e ddatev ih =>
    rw [putdumptime]
    split
    · exact List.mem_cons_self
    · exact List.mem_cons_of_mem _ ih

theorem mem_putdumptime_of_ne {disk : List UInt8} {level : ℕ} {date : ℤ} {ddp : Dumpdates}
    (h : ddp ∈ ddatev) (hne : ¬(ddp.Matches disk ∧ ddp.ddLevel = level)) :
    ddp ∈ putdumptime disk level date ddatev := by
  induction ddatev with
  | nil => cases h
  | cons e ddatev ih =>
    rw [putdumptime]
    rcases List.mem_cons.mp h with rfl | h
    · rw [if_neg hne]
      exact List.mem_cons_self
    · split
      · exact List.mem_cons_of_mem _ h
      · exact List.mem_cons_of_mem _ (ih h)

/-- A dump of another filesystem changes no record of this one. -/
theorem othersChange_putdumptime {disk' : List UInt8}
    (hne : disk.take ddNameSize ≠ disk'.take ddNameSize) (level : ℕ) (date : ℤ)
    (ddatev : List Dumpdates) : OthersChange disk ddatev (putdumptime disk' level date ddatev) := by
  intro ddp hmatch
  have hother : ¬ddp.Matches disk' := fun h => hne (hmatch.trans h.symm)
  refine ⟨fun h => mem_putdumptime_of_ne h fun hm => hother hm.1, fun h => ?_⟩
  rcases mem_putdumptime h with rfl | h
  · exact absurd (newDumpdates_matches disk' level date) hother
  · exact h

/-- The records of the filesystem are those of its dumps, and the last dump of every level has
one. -/
structure Kept (disk : List UInt8) (ds : List DumpRun) (ddatev : List Dumpdates) : Prop where
  dates : ∀ d ∈ ds, 0 ≤ d.date ∧ d.date < 2 ^ 31
  sorted : ds.Pairwise fun d b => b.date < d.date
  sound : ∀ ddp ∈ ddatev, ddp.Matches disk → ∃ d ∈ ds, ddp.ddLevel = d.level ∧ ddp.ddDdate = d.date
  last : ∀ level d, ds.find? (fun b => b.level = level) = some d →
    ∃ ddp ∈ ddatev, ddp.Matches disk ∧ ddp.ddLevel = level ∧ ddp.ddDdate = d.date

theorem Kept.others {ddatev' : List Dumpdates} (h : Kept disk ds ddatev)
    (hothers : OthersChange disk ddatev ddatev') : Kept disk ds ddatev' := by
  refine ⟨h.dates, h.sorted, fun ddp hmem hm => h.sound ddp ((hothers ddp hm).mpr hmem) hm,
    fun level d hfind => ?_⟩
  obtain ⟨ddp, hmem, hm, heq⟩ := h.last level d hfind
  exact ⟨ddp, (hothers ddp hm).mp hmem, hm, heq⟩

theorem Kept.dump (h : Kept disk ds ddatev) {d : DumpRun} (hdate : 0 ≤ d.date ∧ d.date < 2 ^ 31)
    (hlater : ∀ b ∈ ds, b.date < d.date) :
    Kept disk (d :: ds) (putdumptime disk d.level d.date ddatev) := by
  refine ⟨List.forall_mem_cons.mpr ⟨hdate, h.dates⟩, List.pairwise_cons.mpr ⟨hlater, h.sorted⟩,
    fun ddp hmem hm => ?_, fun level b hfind => ?_⟩
  · rcases mem_putdumptime hmem with rfl | hmem
    · exact ⟨d, List.mem_cons_self, rfl, rfl⟩
    · obtain ⟨b, hb, heq⟩ := h.sound ddp hmem hm
      exact ⟨b, List.mem_cons_of_mem _ hb, heq⟩
  · by_cases hlevel : d.level = level
    · rw [List.find?_cons_of_pos (by simpa using hlevel)] at hfind
      obtain rfl : d = b := Option.some.inj hfind
      exact ⟨_, newDumpdates_mem disk d.level d.date ddatev, newDumpdates_matches _ _ _,
        congrArg Nat.cast hlevel, rfl⟩
    · rw [List.find?_cons_of_neg (by simpa using hlevel)] at hfind
      obtain ⟨ddp, hmem, hm, heq, hdd⟩ := h.last level b hfind
      refine ⟨ddp, mem_putdumptime_of_ne hmem fun hcon => hlevel ?_, hm, heq, hdd⟩
      exact Int.natCast_inj.mp (hcon.2.symm.trans heq)

/-- **The file keeps the last date of every level**, in every history. -/
theorem History.kept (h : History disk ds ddatev) : Kept disk ds ddatev := by
  induction h with
  | start hnone =>
    exact ⟨by simp, .nil, fun ddp hmem hm => absurd hm (hnone ddp hmem), by simp⟩
  | others _ hothers ih => exact ih.others hothers
  | dump _ hdate hlater hothers ih => exact (ih.others hothers).dump hdate hlater

/-! ## The base date -/

/-- The base date is the greatest date of the records of a lower level. -/
theorem getdumptime_greatest (level : ℕ)
    (hdates : ∀ ddp ∈ ddatev, ddp.Matches disk → 0 ≤ ddp.ddDdate ∧ ddp.ddDdate < 2 ^ 31) :
    (∀ ddp ∈ ddatev, ddp.Matches disk → ddp.ddLevel < level →
      ddp.ddDdate ≤ (getdumptime disk level ddatev).1) ∧
    ((getdumptime disk level ddatev).1 = 0 ∨ ∃ ddp ∈ ddatev, ddp.Matches disk ∧
      ddp.ddLevel < level ∧ ddp.ddDdate = (getdumptime disk level ddatev).1) := by
  induction ddatev using List.reverseRecOn with
  | nil => exact ⟨by simp, .inl rfl⟩
  | append_singleton ddatev e ih =>
    obtain ⟨hle, hfrom⟩ := ih fun ddp hmem => hdates ddp (List.mem_append_left _ hmem)
    have hconcat : getdumptime disk level (ddatev ++ [e]) =
        if ¬e.Matches disk then getdumptime disk level ddatev
        else if e.ddLevel ≥ (level : ℤ) then getdumptime disk level ddatev
        else if e.ddDdate ≤ (getdumptime disk level ddatev).1 then getdumptime disk level ddatev
        else (int32 e.ddDdate, some e.ddLevel) := by
      rw [getdumptime, List.foldl_concat]
      rfl
    have hmem : e ∈ ddatev ++ [e] := List.mem_append_right _ (List.mem_singleton_self e)
    rw [hconcat]
    generalize getdumptime disk level ddatev = s at hle hfrom
    have hfrom' := hfrom.imp_right fun ⟨ddp, hin, h⟩ => (⟨ddp, List.mem_append_left _ hin, h⟩ :
      ∃ ddp ∈ ddatev ++ [e], ddp.Matches disk ∧ ddp.ddLevel < level ∧ ddp.ddDdate = s.1)
    have hold : (e.Matches disk → e.ddLevel < level → e.ddDdate ≤ s.1) →
        ∀ ddp ∈ ddatev ++ [e], ddp.Matches disk → ddp.ddLevel < level → ddp.ddDdate ≤ s.1 := by
      intro hlast ddp hin
      rcases List.mem_append.mp hin with hin | hin
      · exact hle ddp hin
      · exact List.mem_singleton.mp hin ▸ hlast
    by_cases hm : e.Matches disk
    · by_cases hlevel : e.ddLevel < level
      · by_cases hdate : e.ddDdate ≤ s.1
        · simp only [hm, not_true_eq_false, if_false, ge_iff_le, not_le_of_gt hlevel, hdate,
            if_true]
          exact ⟨hold fun _ _ => hdate, hfrom'⟩
        · obtain ⟨h0, hlt⟩ := hdates e hmem hm
          simp only [hm, not_true_eq_false, if_false, ge_iff_le, not_le_of_gt hlevel, hdate,
            int32_of_lt h0 hlt]
          refine ⟨fun ddp hin hm' hlevel' => ?_, .inr ⟨e, hmem, hm, hlevel, rfl⟩⟩
          rcases List.mem_append.mp hin with hin | hin
          · exact (hle ddp hin hm' hlevel').trans (le_of_not_ge hdate)
          · rw [List.mem_singleton.mp hin]
      · simp only [hm, not_true_eq_false, if_false, ge_iff_le, le_of_not_gt hlevel, if_true]
        exact ⟨hold fun _ h => absurd h hlevel, hfrom'⟩
    · simp only [hm, not_false_eq_true, if_true]
      exact ⟨hold fun h => absurd h hm, hfrom'⟩

/-- **The base date** is the date of the last dump of a lower level, or the epoch. -/
theorem Kept.getdumptime_fst (h : Kept disk ds ddatev) (level : ℕ) :
    (getdumptime disk level ddatev).1 =
      ((ds.find? fun b => decide (b.level < level)).map DumpRun.date).getD 0 := by
  have hdates : ∀ ddp ∈ ddatev, ddp.Matches disk → 0 ≤ ddp.ddDdate ∧ ddp.ddDdate < 2 ^ 31 := by
    intro ddp hmem hm
    obtain ⟨d, hd, -, heq⟩ := h.sound ddp hmem hm
    exact heq ▸ h.dates d hd
  obtain ⟨hle, hfrom⟩ := getdumptime_greatest level hdates
  cases hfind : ds.find? fun b => decide (b.level < level) with
  | none =>
    rw [List.find?_eq_none] at hfind
    refine hfrom.resolve_right fun ⟨ddp, hmem, hm, hlt, _⟩ => ?_
    obtain ⟨d, hd, heq, -⟩ := h.sound ddp hmem hm
    exact hfind d hd (decide_eq_true (by omega))
  | some b =>
    obtain ⟨hb, l₁, l₂, hds, hl₁⟩ := List.find?_eq_some_iff_append.mp hfind
    have hlt := of_decide_eq_true hb
    have hbdate := h.dates b (hds ▸ List.mem_append_right _ List.mem_cons_self)
    have hlast : ds.find? (fun d => d.level = b.level) = some b := by
      refine List.find?_eq_some_iff_append.mpr ⟨by simp, l₁, l₂, hds, fun d hd => ?_⟩
      have hge : ¬d.level < level := by simpa using hl₁ d hd
      simp only [Bool.not_eq_true', decide_eq_false_iff_not]
      omega
    obtain ⟨ddp, hmem, hm, heq, hdate⟩ := h.last _ b hlast
    have hbound := hle ddp hmem hm (by omega)
    rw [hdate] at hbound
    refine le_antisymm ?_ hbound
    rcases hfrom with h0 | ⟨ddp', hmem', hm', hlt', hdate'⟩
    · rw [h0]
      exact hbdate.1
    · obtain ⟨d, hd, heq', hdd⟩ := h.sound ddp' hmem' hm'
      rw [← hdate', hdd]
      have hsorted := h.sorted
      rw [hds] at hd hsorted
      rcases List.mem_append.mp hd with hd | hd
      · have hge : ¬d.level < level := by simpa using hl₁ d hd
        omega
      · rcases List.mem_cons.mp hd with rfl | hd
        · exact le_rfl
        · have hrest := (List.pairwise_append.mp hsorted).2.1
          exact ((List.pairwise_cons.mp hrest).1 d hd).le

/-- The dumps before one in a history are a history. -/
theorem History.earlier {d : DumpRun} (h : History disk (d :: ds) ddatev) :
    ∃ ddatev', History disk ds ddatev' ∧ d = startDump disk d.asked d.date ddatev' ∧
      0 ≤ d.date ∧ d.date < 2 ^ 31 := by
  generalize hds : d :: ds = l at h
  induction h with
  | start => cases hds
  | others _ _ ih => exact ih hds
  | dump h hdate _ _ _ =>
    obtain ⟨rfl, rfl⟩ := List.cons.inj hds
    exact ⟨_, h, rfl, hdate⟩

theorem History.drop {ds₁ ds₂ : List DumpRun} (h : History disk (ds₁ ++ ds₂) ddatev) :
    ∃ ddatev', History disk ds₂ ddatev' := by
  induction ds₁ generalizing ddatev with
  | nil => exact ⟨ddatev, h⟩
  | cons d ds₁ ih =>
    obtain ⟨_, h', -⟩ := h.earlier
    exact ih h'

/-- **The base of a dump.** -/
theorem History.base {d : DumpRun} (h : History disk (d :: ds) ddatev) :
    d.ddate = ((d.base ds).map DumpRun.date).getD 0 ∧ (d.base ds = none → d.level = 0) := by
  obtain ⟨ddatev', h', hd, -⟩ := h.earlier
  have hddate : d.ddate = ((d.base ds).map DumpRun.date).getD 0 := by
    rw [hd]
    exact h'.kept.getdumptime_fst d.asked
  refine ⟨hddate, fun hnone => ?_⟩
  rw [hnone] at hddate
  have hlevel : d.level = assumeLevel d.ddate d.asked := by rw [hd]; rfl
  rw [hlevel, hddate]
  by_cases h0 : d.asked = 0 <;> simp [assumeLevel, h0]

end DumpRestore
