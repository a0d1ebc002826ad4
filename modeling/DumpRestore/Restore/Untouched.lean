import DumpRestore.Restore.Effects

/-!
# Calls that do not write

With `-N` restore is to write nothing to the disk. The tests of the flag stand where the calls are
made, and a function with a test keeps the invariant `Untouched`: no call has changed the target.
Three places have no test: the owners and modes of directories in `setdirmodes`, the owner of a
symbolic link in `extractfile`, and the literal copy of a directory that `-m` makes. Each of them
has inputs on which it makes no call.
-/

namespace DumpRestore

/-! ## Files without data -/

/-- A call of `fill` gets no bytes. -/
def Call.Empty : Call → Prop
  | .fill _ size => size = 0
  | _ => True

/-- The loop over the blocks of a file of size 0, before and after its only turn. -/
structure FileState.Empty (s : FileState) : Prop where
  size : s.size = 0 ∧ s.buf = [] ∨ s.size = -tpBsize ∧ s.buf.length ≤ 1
  calls : ∀ c ∈ s.calls, c.Empty

theorem FileState.Empty.nonpos {s : FileState} (h : s.Empty) : s.size ≤ 0 := by
  rcases h.size with ⟨hsize, -⟩ | ⟨hsize, -⟩
  · exact hsize.le
  · rw [hsize, tpBsize]
    decide

theorem FileState.Empty.block (fssize : ℕ) (b : Option Block) :
    ((⟨[], 0, false, []⟩ : FileState).block fssize b).Empty := by
  cases b with
  | none =>
    exact ⟨.inr ⟨rfl, Nat.zero_le 1⟩,
      by simp [FileState.block, hole, advance, curblk, Call.Empty]⟩
  | some b =>
    change ((store fssize ⟨[], 0, false, []⟩ b).advance).Empty
    unfold store
    dsimp only
    split
    · exact ⟨.inr ⟨rfl, Nat.zero_le 1⟩, by simp [advance, curblk, Call.Empty, tpBsize]⟩
    · exact ⟨.inr ⟨rfl, le_rfl⟩, by simp [advance]⟩

theorem FileState.Empty.finish {s : FileState} (h : s.Empty) (origsize : ℤ) :
    ∀ c ∈ s.finish origsize, c.Empty := by
  have hflush : s.lastFlush.size ≤ 0 ∧ ∀ c ∈ s.lastFlush.calls, c.Empty := by
    rw [lastFlush]
    split
    · next hcur =>
      refine ⟨h.nonpos, fun c hc => ?_⟩
      rcases List.mem_append.mp hc with hc | hc
      · exact h.calls c hc
      · rw [List.mem_singleton.mp hc, Call.Empty]
        rw [curblk] at hcur ⊢
        rcases h.size with ⟨-, hbuf⟩ | ⟨hsize, hbuf⟩
        · rw [hbuf] at hcur
          exact absurd hcur (by decide)
        · rw [hsize, show s.buf.length = 1 by omega]
          decide
    · exact ⟨h.nonpos, h.calls⟩
  have hend : ¬s.lastFlush.size > 0 := not_lt.mpr hflush.1
  rw [FileState.finish, assumeHole, if_neg hend]
  intro c hc
  split at hc
  · rcases List.mem_append.mp hc with hc | hc
    · exact hflush.2 c hc
    · rw [List.mem_singleton.mp hc]
      trivial
  · exact hflush.2 c hc

theorem empty_fileBlocks {fssize : ℕ} {h : Spcl} {n : ℕ} {t t' : Tape} {s : FileState}
    (heq : fileBlocks fssize h n 0 (⟨[], 0, false, []⟩, t) = some (s, t')) : s.Empty := by
  cases n with
  | zero =>
    obtain rfl : _ = s := congrArg Prod.fst (Option.some.inj heq)
    exact ⟨.inl ⟨rfl, rfl⟩, by simp⟩
  | succ n =>
    rw [fileBlocks, Option.bind_eq_some_iff] at heq
    obtain ⟨⟨b, t₁⟩, -, heq⟩ := heq
    have hblock := FileState.Empty.block fssize b
    rw [if_pos hblock.nonpos, Option.map_eq_some_iff] at heq
    obtain ⟨t₂, -, heq⟩ := heq
    obtain rfl := congrArg Prod.fst heq
    exact hblock

/-- From a file of size 0 no bytes are handed out. -/
theorem empty_getfile {fssize : ℕ} {readingmaps : Bool} {h h' : Spcl} {t t' : Tape}
    {calls : List Call} (hsize : h.cDinode.diSize = 0)
    (heq : getfile fssize readingmaps h t = some (calls, h', t')) : ∀ c ∈ calls, c.Empty := by
  rw [getfile] at heq
  split at heq
  · cases heq
  · rw [hsize, Option.bind_eq_bind, Option.bind_eq_some_iff] at heq
    obtain ⟨⟨h₁, s, t₁⟩, hloop, heq⟩ := heq
    have hcalls : calls = s.finish (((0 : ℕ) : ℤ).bmod (2 ^ 64)) := by
      cases readingmaps
      · obtain ⟨⟨h₂, t₂⟩, -, heq⟩ := Option.bind_eq_some_iff.mp heq
        exact (congrArg Prod.fst (Option.some.inj heq)).symm
      · exact (congrArg Prod.fst (Option.some.inj heq)).symm
    rw [hcalls]
    refine FileState.Empty.finish ?_ _
    rw [fileLoop, Option.bind_eq_bind, Option.bind_eq_some_iff] at hloop
    obtain ⟨⟨s', t'⟩, hblocks, hloop⟩ := hloop
    have hempty := empty_fileBlocks hblocks
    obtain ⟨⟨h₃, t₃⟩, -, hloop⟩ := Option.bind_eq_some_iff.mp hloop
    have hend : ¬(s'.size > 0 ∧ h₃.cType = .addr) := fun hmore => not_lt.mpr hempty.nonpos hmore.1
    dsimp only at hloop
    rw [if_neg hend] at hloop
    obtain rfl := congrArg (fun p => p.2.1) (Option.some.inj hloop)
    exact hempty

namespace Restore

/-! ## The invariant -/

/-- No call has changed the target, and the descriptor `ofile` is still the standard input. -/
structure Untouched (w : World) : Prop where
  ofile : w.ofile = none
  calls : ∀ c ∈ w.calls, ¬c.Modifies

variable {o : Flags} {env : Env}

theorem keeps_sys {c : SysCall} (hc : ¬c.Modifies) : Keeps Untouched (sys env c) := by
  intro w hw
  refine ⟨hw.ofile, fun c' hc' => ?_⟩
  rcases List.mem_append.mp hc' with hmem | hmem
  · exact hw.calls c' hmem
  · rwa [List.mem_singleton.mp hmem]

theorem keeps_panic {I : World → Prop} : Keeps I (panic env) := by
  unfold panic
  split
  · exact keeps_pure ()
  · exact keeps_failure

/-- A state of `getfile` and its calls: `I` holds with the next header, and the calls keep it. -/
theorem getfileWith_leads {I : World → Prop} {w : World} {readingmaps : Bool}
    {fill : List UInt8 → ℤ → Restore Unit} {skip : ℤ → Restore Unit} (hstop : I w)
    (hnext : ∀ h t, I { w with spcl := h, tape := t })
    (hcalls : ∀ calls h t, getfile env.fssize readingmaps w.spcl w.tape = some (calls, h, t) →
      ∀ c ∈ calls, Keeps I (deliver env fill skip c)) :
    I ((OptionT.run (getfileWith env readingmaps fill skip)).run w).2 := by
  have hw : (get : Restore World).run.run w = (some w, w) := rfl
  rw [getfileWith, run_bind_of_eq _ hw]
  cases hget : getfile env.fssize readingmaps w.spcl w.tape with
  | none => exact hstop
  | some p =>
    obtain ⟨calls, h, t⟩ := p
    exact keeps_forM (hcalls calls h t hget) _ (hnext h t)

/-- Reading a file changes nothing if `fill` and `skip` do not: at a hole at the end it truncates
the standard input. -/
theorem keeps_getfileWith {readingmaps : Bool} {fill : List UInt8 → ℤ → Restore Unit}
    {skip : ℤ → Restore Unit} (hfill : ∀ buf size, Keeps Untouched (fill buf size))
    (hskip : ∀ size, Keeps Untouched (skip size)) :
    Keeps Untouched (getfileWith env readingmaps fill skip) := by
  intro w hw
  refine getfileWith_leads hw (fun _ _ => ⟨hw.ofile, hw.calls⟩) fun _ _ _ _ c _ => ?_
  cases c with
  | fill buf size => exact hfill _ _
  | skip size => exact hskip _
  | ftruncate size =>
    refine keeps_get_bind fun w hw => ?_
    exact ((keeps_sys (by rw [hw.ofile]; exact id)).bind fun _ => keeps_pure ()) w hw

theorem keeps_skipfile : Keeps Untouched (skipfile env) :=
  keeps_getfileWith (fun _ _ => keeps_pure ()) fun _ => keeps_pure ()

/-- With `-m` left out, a directory is skipped. -/
theorem keeps_extractDir (hm : o.mflag = true) (ep : Entry) :
    Keeps Untouched (extractDir o env ep) := by
  unfold extractDir
  refine keeps_get.bind fun w => ?_
  rw [hm]
  refine Keeps.ite (fun _ => ?_) fun hne => absurd rfl hne
  have hlast : Keeps Untouched (do skipfile env; pure true : Restore Bool) :=
    keeps_skipfile.bind fun _ => keeps_pure _
  exact Keeps.ite (fun _ => keeps_panic.bind fun _ => hlast) fun _ => hlast

/-! ## The functions with a test -/

section Tested

variable (h : o.nflag = true)

include h

theorem keeps_removeleaf {I : World → Prop} (ep : Entry) : Keeps I (removeleaf o env ep) := by
  unfold removeleaf
  rw [h]
  refine Keeps.ite (fun _ => keeps_pure ()) fun _ => ?_
  exact Keeps.ite (fun _ => keeps_panic.bind fun _ => keeps_pure ()) fun _ => keeps_pure ()

theorem keeps_removenode (ep : Entry) : Keeps Untouched (removenode o env ep) := by
  unfold removenode
  rw [h]
  have hlast : Keeps Untouched (if ep.empty = false then do panic env; pure () else pure ()) :=
    Keeps.ite (fun _ => keeps_panic.bind fun _ => keeps_pure ()) fun _ => keeps_pure ()
  exact Keeps.ite (fun _ => keeps_panic.bind fun _ => hlast) fun _ => hlast

theorem keeps_renameit (old new : String) : Keeps Untouched (renameit o env old new) := by
  unfold renameit
  rw [h]
  exact keeps_pure ()

theorem keeps_newnode (np : Entry) : Keeps Untouched (newnode o env np) := by
  unfold newnode
  rw [h]
  have hlast : Keeps Untouched (if o.command = .compare then pure false else pure false) :=
    Keeps.ite (fun _ => keeps_pure _) fun _ => keeps_pure _
  exact Keeps.ite (fun _ => keeps_panic.bind fun _ => hlast) fun _ => hlast

theorem keeps_symlinkit (existing : List UInt8) (new : String) :
    Keeps Untouched (symlinkit o env existing new) := by
  unfold symlinkit
  rw [h, Bool.not_true, Bool.and_false]
  exact keeps_pure _

theorem keeps_hardlinkit (existing new : String) :
    Keeps Untouched (hardlinkit o env existing new) := by
  unfold hardlinkit
  rw [h, Bool.not_true, Bool.and_false]
  exact keeps_pure _

theorem keeps_dumpsymtable (filename : String) (table : List UInt8) :
    Keeps Untouched (dumpsymtable o env filename table) := by
  unfold dumpsymtable
  rw [h]
  exact keeps_pure _

theorem keeps_extractSpecial (name : String) (replace : Bool) (make : SysCall) :
    Keeps Untouched (extractSpecial o env name replace make) := by
  unfold extractSpecial
  refine keeps_get.bind fun w => keeps_skipfile.bind fun _ => ?_
  rw [h]
  exact keeps_pure _

theorem keeps_extractReg (name : String) : Keeps Untouched (extractReg o env name) := by
  unfold extractReg
  refine keeps_get.bind fun w => ?_
  rw [h]
  exact keeps_skipfile.bind fun _ => keeps_pure _

end Tested

/-! ## The places without a test -/

theorem run_get (w : World) : (OptionT.run (get : Restore World)).run w = (some w, w) := rfl

theorem run_metaonly (w : World) : (OptionT.run metaonly).run w =
    (some (decide (w.spcl.cFlags &&& drMetaonly ≠ 0#32)), w) := rfl

/-- Nothing was written yet, and no data of a symbolic link were seen. -/
structure NoLink (w : World) : Prop extends Untouched w where
  pathlen : w.pathlen = 0

theorem noLink_sys {c : SysCall} (hc : ¬c.Modifies) : Keeps NoLink (sys env c) :=
  fun w hw => ⟨keeps_sys hc w hw.toUntouched, hw.pathlen⟩

/-- The data of a symbolic link of size 0 leave `pathlen` at 0. -/
theorem noLink_getfileWith {w : World} (hw : NoLink w) (hsize : w.spcl.cDinode.diSize = 0) :
    NoLink ((OptionT.run (getfileWith env false xtrlnkfile fun _ => failure)).run w).2 := by
  refine getfileWith_leads hw (fun _ _ => ⟨⟨hw.ofile, hw.calls⟩, hw.pathlen⟩)
    fun calls h t heq c hc => ?_
  have hempty := empty_getfile hsize heq c hc
  cases c with
  | fill buf size =>
    obtain rfl : size = 0 := hempty
    refine keeps_get_bind fun w hw => ?_
    have hpath : w.pathlen + 0 = 0 := by rw [hw.pathlen, add_zero]
    refine ((keeps_set ⟨⟨hw.ofile, hw.calls⟩, hpath⟩).bind fun _ => ?_) w hw
    have hlast : Keeps NoLink (set { w with
        pathlen := w.pathlen + 0
        lnkbuf := w.lnkbuf ++ (Call.fill buf 0).bytes } : Restore PUnit) :=
      keeps_set ⟨⟨hw.ofile, hw.calls⟩, hpath⟩
    exact Keeps.ite (fun _ => keeps_failure.bind fun _ => hlast) fun _ => hlast
  | skip size => exact keeps_failure
  | ftruncate size =>
    refine keeps_get_bind fun w hw => ?_
    exact ((noLink_sys (by rw [hw.ofile]; exact id)).bind fun _ => keeps_pure ()) w hw

/-- A symbolic link of size 0 is ignored, and its owner is not set. -/
theorem untouched_extractLnk {w : World} (hw : Untouched w) (name : String)
    (hmeta : w.spcl.cFlags &&& drMetaonly = 0#32) (hsize : w.spcl.cDinode.diSize = 0) :
    Untouched ((OptionT.run (extractLnk o env name)).run w).2 := by
  unfold extractLnk
  rw [run_bind_of_eq _ (run_get w), run_bind_of_eq _ (run_metaonly w), hmeta]
  change Untouched ((OptionT.run (getfileWith env false xtrlnkfile (fun _ => failure) >>= _)).run
    { w with lnkbuf := [], pathlen := 0 }).2
  refine bind_leads (J := NoLink) (noLink_getfileWith ⟨⟨hw.ofile, hw.calls⟩, rfl⟩ hsize)
    (fun _ hw => hw.toUntouched) fun _ w hw => ?_
  rw [run_bind_of_eq _ (run_get w), if_pos hw.pathlen]
  exact hw.toUntouched

theorem keeps_dirmode {force : Bool} {lookupino : ℕ → Option Entry} {node : ModeInfo}
    (hsafe : ∀ ep, lookupino node.ino = some ep → passesOver o env force node ep = true) :
    Keeps Untouched (dirmode o env force lookupino node) := by
  unfold dirmode
  cases hep : lookupino node.ino with
  | none => exact Keeps.ite (fun _ => keeps_pure ()) fun _ => keeps_panic
  | some ep =>
    simp only [hsafe ep hep, if_true]
    exact keeps_pure ()

end Restore

end DumpRestore
