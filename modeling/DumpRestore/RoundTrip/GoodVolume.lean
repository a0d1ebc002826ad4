import DumpRestore.Dump.VolumeInodes
import DumpRestore.Restore.Decoder

/-!
# The volume on which restore looks for a file

With an archive, `createfiles` of `restore/restore.c` knows from `volinfo` on which inode each
volume was started, and mounts the last volume that was started on a smaller inode than the one it
looks for. Volumes that were started in the maps or the directories have some other inode in the
table, but they come before all files.

* `goodvol` is the search in the table, and `volinfo` the table that a dump leaves.
* `HeldOn` says on which volume a record is.
* `goodvol_le` is the main theorem.
-/

namespace DumpRestore

/-! ## The search -/

/-- The loop over the table, from entry `i` on. -/
def goodvolLoop (volinfo : ℕ → ℕ) (next : ℕ) : (fuel i goodvol : ℕ) → ℕ
  | 0, _, goodvol => goodvol
  | fuel + 1, i, goodvol =>
    if i < tpNinos ∧ volinfo i ≠ 0 then
      goodvolLoop volinfo next fuel (i + 1) (if volinfo i < next then i else goodvol)
    else goodvol

/-- `goodvol` of `createfiles`. -/
def goodvol (volinfo : ℕ → ℕ) (next : ℕ) : ℕ := goodvolLoop volinfo next tpNinos 1 1

theorem goodvolLoop_eq (volinfo : ℕ → ℕ) (next fuel i g : ℕ) :
    goodvolLoop volinfo next fuel i g = g ∨
      ∃ j, goodvolLoop volinfo next fuel i g = j ∧ j < tpNinos ∧ volinfo j ≠ 0 ∧
        volinfo j < next := by
  induction fuel generalizing i g with
  | zero => exact .inl rfl
  | succ fuel ih =>
    rw [goodvolLoop]
    split
    case isTrue hi =>
      obtain hg | hj := ih (i + 1) (if volinfo i < next then i else g)
      · rw [hg]
        split
        · exact .inr ⟨i, rfl, hi.1, hi.2, ‹_›⟩
        · exact .inl rfl
      · exact .inr hj
    case isFalse => exact .inl rfl

/-! ## The table and the volumes -/

/-- The table that goes to the archive: the inodes that `startnewtape` stored, with `ROOTINO` for
the first volume. -/
def volinfo (ss : List Start) (i : ℕ) : ℕ :=
  if i = 1 then rootino
  else if 0 < i ∧ i < tpNinos then (ss[i - 1]?.map Start.inode).getD 0
  else 0

/-- The record `n` is on volume `v`: this is the volume of the last block that has it. Blocks that
did not go on tape any more are sent again. -/
def HeldOn (blocks : List (List Req)) (ss : List Start) (n v : ℕ) : Prop :=
  ∃ k blk, blocks[k]? = some blk ∧ InBlock n blk ∧
    (∀ k' blk', k < k' → blocks[k']? = some blk' → ¬InBlock n blk') ∧
    v = ss.countP fun s => s.blocks ≤ k

section Order

variable {ss : List Start}

/-- When the `i`-th volume was started by a block, so were those before it. -/
theorem le_countP_of_sorted (hsorted : ss.Pairwise fun s s' => s.blocks ≤ s'.blocks) {i k : ℕ}
    {s : Start} (hs : ss[i]? = some s) (hle : s.blocks ≤ k) :
    i + 1 ≤ ss.countP fun s => s.blocks ≤ k := by
  induction ss generalizing i with
  | nil => simp at hs
  | cons t ss ih =>
    obtain ⟨ht, hsorted⟩ := List.pairwise_cons.mp hsorted
    cases i with
    | zero =>
      obtain rfl := Option.some.inj hs
      rw [List.countP_cons_of_pos (by simpa using hle)]
      omega
    | succ i =>
      have hmem : s ∈ ss := List.mem_of_getElem? hs
      rw [List.countP_cons_of_pos (by simpa using (ht s hmem).trans hle)]
      have := ih hsorted hs
      omega

/-- **No volume is skipped**, for a record that lies behind the volumes that were started on smaller
inodes. -/
theorem goodvol_le_of_behind {blocks : List (List Req)} {first : Start} {n next v : ℕ}
    (hfirst : first.blocks = 0) (hsorted : (first :: ss).Pairwise fun s s' => s.blocks ≤ s'.blocks)
    (hbehind : Behind next n blocks (first :: ss)) (hheld : HeldOn blocks (first :: ss) n v) :
    goodvol (volinfo (first :: ss)) next ≤ v := by
  obtain ⟨k, blk, hk, hn, hlast, rfl⟩ := hheld
  have hone : 1 ≤ (first :: ss).countP fun s => s.blocks ≤ k :=
    le_countP_of_sorted (i := 0) hsorted rfl (by omega)
  obtain hg | ⟨j, hg, hj, hne, hlt⟩ := goodvolLoop_eq (volinfo (first :: ss)) next tpNinos 1 1
  · rwa [goodvol, hg]
  rw [goodvol, hg]
  by_cases hroot : j ≤ 1
  · omega
  · have hpos : 0 < j ∧ j < tpNinos := ⟨by omega, hj⟩
    rw [volinfo, if_neg (by omega), if_pos hpos] at hne hlt
    cases hs : (first :: ss)[j - 1]? with
    | none => simp [hs] at hne
    | some s =>
      rw [hs] at hne hlt
      obtain ⟨k', blk', hle, hk', hn'⟩ := hbehind s (List.mem_of_getElem? hs) hne hlt
      -- The last block with the record is not before this volume.
      have hkk : k' ≤ k := Nat.le_of_not_lt fun hlt' => hlast k' blk' hlt' hk' hn'
      have := le_countP_of_sorted hsorted hs (hle.trans hkk)
      omega

end Order

/-! ## Dumps -/

section Dumps

variable {o : DumpOptions} {fs : Ext2Fs} {next : ℕ} {s : DumpState}

theorem starts_prefix_foldl (o : DumpOptions) (fs : Ext2Fs) (calls : List DumpCall)
    (s : DumpState) :
    s.starts <+: (calls.foldl (DumpCall.exec o fs) s).starts := by
  induction calls generalizing s with
  | nil => exact List.prefix_rfl
  | cons c calls ih =>
    refine List.IsPrefix.trans ?_ (ih (c.exec o fs s))
    cases c with
    | getino inum => exact List.prefix_rfl
    | call c => exact List.prefix_append _ _

theorem from_passCalls {inodes : List (ℕ × List WriterCall)} (h : ∀ p ∈ inodes, next ≤ p.1) :
    ∀ c ∈ passCalls inodes, c.From next := by
  intro c hc
  obtain ⟨p, hp, hc⟩ := List.mem_flatMap.mp hc
  rcases List.mem_cons.mp hc with rfl | hc
  · exact h p hp
  · obtain ⟨c, -, rfl⟩ := List.mem_map.mp hc
    trivial

theorem from_map_call (cs : List WriterCall) : ∀ c ∈ cs.map DumpCall.call, c.From next := by
  intro c hc
  obtain ⟨c, -, rfl⟩ := List.mem_map.mp hc
  trivial

/-- The dump up to a header, and from there on. -/
theorem dumpRun_split (o : DumpOptions) (fs : Ext2Fs) (h : Spcl) (reports : List Report)
    (curino : ℕ) {p : Passes}
    {pre post : List (ℕ × List WriterCall)} {cs₁ cs₂ : List WriterCall}
    (hfiles : p.files = pre ++ (next, cs₁ ++ .writeheader next :: cs₂) :: post) :
    dumpRun o fs h reports curino p.calls =
      (cs₂.map DumpCall.call ++ (passCalls post ++ p.trailer.map DumpCall.call)).foldl
        (DumpCall.exec o fs) (DumpCall.exec o fs (dumpRun o fs h reports curino
          ({ p with files := pre ++ [(next, cs₁)], trailer := [] } : Passes).calls)
          (.call (.writeheader next))) := by
  simp [dumpRun, Passes.calls, passCalls, hfiles, List.foldl_append]

/-- While the maps, the directories and the files before `next` are dumped, nothing is said of a
record, since there is none yet. -/
theorem meetsIn_before (o : DumpOptions) (fs : Ext2Fs) (h : Spcl) (reports : List Report)
    (curino : ℕ) (p : Passes) (pre : List (ℕ × List WriterCall)) (next : ℕ)
    (cs₁ : List WriterCall) :
    MeetsIn next 0 0 (dumpRun o fs h reports curino
      ({ p with files := pre ++ [(next, cs₁)], trailer := [] } : Passes).calls) := by
  have hcalls : ({ p with files := pre ++ [(next, cs₁)], trailer := [] } : Passes).calls =
      ({ p with files := pre, trailer := [] } : Passes).calls ++
        (.getino next :: cs₁.map .call) := by
    simp [Passes.calls, passCalls]
  rw [dumpRun, hcalls, List.foldl_append, List.foldl_cons]
  have hstart : MeetsIn 0 0 0 (dumpRun o fs h reports curino
      ({ p with files := pre, trailer := [] } : Passes).calls) :=
    (meetsIn_firstVolume o h reports curino).foldl le_rfl fun c _ => c.from_zero
  exact (hstart.getino le_rfl).foldl (Nat.zero_le next) (from_map_call cs₁)

/-- A dump that goes on has its first volume. -/
theorem writer_of_foldl {calls : List DumpCall} {s : DumpState} {w : Writer}
    (hw : (calls.foldl (DumpCall.exec o fs) s).writer = some w) : ∃ v, s.writer = some v := by
  induction calls generalizing s with
  | nil => exact ⟨w, hw⟩
  | cons c calls ih =>
    obtain ⟨u, hu⟩ := ih hw
    cases c with
    | getino inum =>
      obtain ⟨v, hv, -⟩ := Option.map_eq_some_iff.mp hu
      exact ⟨v, hv⟩
    | call c =>
      cases c with
      | assign f => exact ⟨u, hu⟩
      | writeheader ino => exact (onWriter_eq_some hu).imp fun _ h => h.1
      | writerec b => exact (onWriter_eq_some hu).imp fun _ h => h.1
      | dumpblock blkno size => exact (onWriter_eq_some hu).imp fun _ h => h.1

/-- The first volume starts with the first block. -/
theorem starts_dumpRun {h : Spcl} {reports : List Report} {curino : ℕ} {calls : List DumpCall}
    {w : Writer} (hw : (dumpRun o fs h reports curino calls).writer = some w) :
    ∃ first ss, (dumpRun o fs h reports curino calls).starts = first :: ss ∧ first.blocks = 0 := by
  obtain ⟨more, hmore⟩ := starts_prefix_foldl o fs calls
    (firstVolume o h ((alloctape reports).setCurino curino))
  obtain ⟨v, hv⟩ := writer_of_foldl hw
  obtain ⟨u, hu, hfv⟩ := onWriter_eq_some hv
  obtain rfl := Option.some.inj hu
  obtain ⟨e, he, -⟩ := Option.map_eq_some_iff.mp hfv
  rw [dumpRun, ← hmore]
  simp only [firstVolume, newtapeStarts, he, List.cons_append]
  exact ⟨_, _, rfl, rfl⟩

/-- **The volume that `createfiles` mounts** for a file is not later than the one that has its
header. -/
theorem goodvol_le (h : Spcl) (reports : List Report) (curino : ℕ) {p : Passes}
    (hascending : (p.files.map Prod.fst).Pairwise (· < ·))
    {pre post : List (ℕ × List WriterCall)} {cs₁ cs₂ : List WriterCall}
    (hfiles : p.files = pre ++ (next, cs₁ ++ .writeheader next :: cs₂) :: post)
    {w₀ w : Writer}
    (hbefore : (dumpRun o fs h reports curino
      ({ p with files := pre ++ [(next, cs₁)], trailer := [] } : Passes).calls).writer = some w₀)
    (hafter : (dumpRun o fs h reports curino p.calls).writer = some w) {v : ℕ}
    (hheld : HeldOn w.blocks (dumpRun o fs h reports curino p.calls).starts w₀.handed v) :
    goodvol (volinfo (dumpRun o fs h reports curino p.calls).starts) next ≤ v := by
  set rest := cs₂.map DumpCall.call ++ (passCalls post ++ p.trailer.map .call) with hrest
  have hpost : ∀ c ∈ rest, c.From next := by
    rw [hfiles, List.map_append, List.map_cons, List.pairwise_append] at hascending
    intro c hc
    rcases List.mem_append.mp hc with hc | hc
    · exact from_map_call cs₂ c hc
    rcases List.mem_append.mp hc with hc | hc
    · refine from_passCalls (fun q hq => ?_) c hc
      exact ((List.pairwise_cons.mp hascending.2.1).1 q.1 (List.mem_map_of_mem hq)).le
    · exact from_map_call p.trailer c hc
  have hrun := dumpRun_split o fs h reports curino hfiles
  have hmeets : MeetsIn next next w₀.handed (dumpRun o fs h reports curino p.calls) := by
    rw [hrun]
    refine MeetsIn.foldl le_rfl ?_ hpost
    exact (meetsIn_before o fs h reports curino p pre next cs₁).writeheader hbefore next next le_rfl
  obtain ⟨first, starts, hstarts, hzero⟩ := starts_dumpRun hafter
  have hlaw := hmeets w hafter
  rw [hstarts] at hlaw hheld ⊢
  exact goodvol_le_of_behind hzero hlaw.order.sorted hlaw.starts hheld

/-- Two files, with blocks of two records and the first volume full after the first file. -/
def twoFiles : Passes := ⟨[], [], [(11, [.writeheader 11]), (12, [.writeheader 12])], []⟩

/-- The dump of the two files. -/
def twoVolumes : DumpState :=
  dumpRun ⟨2, false⟩ smallFs default [⟨false, true, 0⟩, ⟨false, false, 0⟩] 12 twoFiles.calls

theorem goodvol_le_twoVolumes : goodvol (volinfo twoVolumes.starts) 12 ≤ 2 :=
  have hfiles : twoFiles.files = [(11, [.writeheader 11])] ++ (12, [] ++ [.writeheader 12]) :: [] :=
    rfl
  goodvol_le default [⟨false, true, 0⟩, ⟨false, false, 0⟩] 12 (by decide) hfiles rfl rfl
    ⟨1, _, rfl, ⟨_, List.mem_cons_of_mem _ List.mem_cons_self, by decide⟩,
      (fun k' blk' hlt hblk hin => by
        -- The block that is being filled is empty.
        obtain _ | _ | _ | k := k'
        · omega
        · omega
        · obtain rfl := Option.some.inj hblk
          exact List.not_mem_nil hin.choose_spec.1
        · cases hblk),
      rfl⟩

end Dumps

end DumpRestore
