import DumpRestore.Restore.Untouched

/-!
# Runs that must not write

A command is run with `-N`, or it is `-C`, which sets that flag as well.

* `Op` are the calls of functions with effects, `Command.Calls` those that a command reaches.
* `Op.Safe` is the condition under which a call does not reach a place without a test of the flag.
* `run_untouched` is the main theorem.
-/

namespace DumpRestore

namespace Restore

/-! ## Commands as runs -/

/-- A call of a function with effects. `getfile` stands for the reads whose data do not go to the
target: the maps, the directories, skipped and compared files. -/
inductive Op where
  | getfile (readingmaps : Bool)
  | removeleaf (ep : Entry)
  | removenode (ep : Entry)
  | mktempname (ep : Entry) (tmpname : String)
  | renameit (old new : String)
  | newnode (np : Entry)
  | symlinkit (existing : List UInt8) (new : String)
  | hardlinkit (existing new : String)
  | addfile (name : String) (ino : ℕ) (type : EntryType) (onTape : Bool) (links : List Entry)
  | extractfile (ep : Entry) (doremove : Bool)
  | setdirmodes (force : Bool) (lookupino : ℕ → Option Entry) (modes : List ModeInfo)
  | dumpsymtable (filename : String) (table : List UInt8)

/-- The calls that a command of `main` can make, in whatever order the tape, the symbol table and
the requests lead to. -/
def Command.Calls : Command → Op → Prop
  | _, .getfile _ => True
  | .compare, .removeleaf _ | .compare, .mktempname .. | .compare, .renameit ..
  | .compare, .newnode _ => True
  | .interactive, .newnode _ | .interactive, .addfile .. | .interactive, .extractfile ..
  | .interactive, .symlinkit .. | .interactive, .hardlinkit ..
  | .interactive, .setdirmodes .. => True
  | .incremental, .addfile .. => False
  | .incremental, .setdirmodes force .. => force = true
  | .incremental, _ => True
  | .resume, .extractfile .. | .resume, .symlinkit .. | .resume, .hardlinkit ..
  | .resume, .dumpsymtable .. => True
  | .resume, .setdirmodes force .. => force = true
  | .extract, .newnode _ | .extract, .addfile .. | .extract, .extractfile ..
  | .extract, .symlinkit .. | .extract, .hardlinkit .. | .extract, .setdirmodes .. => True
  | .tapepos, .newnode _ | .tapepos, .addfile .. => True
  | _, _ => False

variable (o : Flags) (env : Env)

/-- The function that is called. -/
def Op.call : Op → Restore Unit
  | .getfile readingmaps => getfileWith env readingmaps (fun _ _ => pure ()) fun _ => pure ()
  | .removeleaf ep => Restore.removeleaf o env ep
  | .removenode ep => Restore.removenode o env ep
  | .mktempname ep tmpname => Restore.mktempname o env ep tmpname
  | .renameit old new => Restore.renameit o env old new
  | .newnode np => do let _ ← Restore.newnode o env np
  | .symlinkit existing new => do let _ ← Restore.symlinkit o env existing new
  | .hardlinkit existing new => do let _ ← Restore.hardlinkit o env existing new
  | .addfile name ino type onTape links => Restore.addfile o env name ino type onTape links
  | .extractfile ep doremove => do let _ ← Restore.extractfile o env ep doremove
  | .setdirmodes force lookupino modes => Restore.setdirmodes o env force lookupino modes
  | .dumpsymtable filename table => Restore.dumpsymtable o env filename table

/-- The state after a run, which may have ended early. -/
def run : List Op → World → World
  | [], w => w
  | op :: ops, w =>
    match (OptionT.run (op.call o env)).run w with
    | (some _, w) => run ops w
    | (none, w) => w

/-- `main` sets `Nflag` for `-C`. -/
def Flags.start (o : Flags) : Flags :=
  if o.command = .compare then { o with nflag := true } else o

/-! ## The condition -/

/-- The call does not reach one of the three places without a test of `Nflag`. -/
def Op.Safe (w : World) : Op → Prop
  | .addfile _ ino type onTape _ =>
    o.mflag = false → type = .node → onTape = true →
      ino = wino ∧ o.command = .interactive ∧ o.vflag = false
  | .extractfile _ _ =>
    (ifmt w.spcl.cDinode.diMode = ifLnk →
      w.spcl.cFlags &&& drMetaonly = 0#32 ∧ w.spcl.cDinode.diSize = 0) ∧
    (ifmt w.spcl.cDinode.diMode = ifDir → o.mflag = true)
  | .setdirmodes force lookupino modes =>
    ∀ node ∈ modes, ∀ ep, lookupino node.ino = some ep → passesOver o env force node ep = true
  | _ => True

/-- Every call of a run meets the condition, in the state in which it is made. -/
def SafeRun : List Op → World → Prop
  | [], _ => True
  | op :: ops, w =>
    op.Safe o env w ∧
      match (OptionT.run (op.call o env)).run w with
      | (some _, w) => SafeRun ops w
      | (none, _) => True

/-! ## Runs -/

variable {o env}

section Runs

variable (h : o.nflag = true)

include h

theorem untouched_extractfile {w : World} (hw : Untouched w) (ep : Entry) (doremove : Bool)
    (hsafe : (Op.extractfile ep doremove).Safe o env w) :
    Untouched ((OptionT.run (extractfile o env ep doremove)).run w).2 := by
  obtain ⟨hlnk, hdir⟩ := hsafe
  have hmode : Untouched ((OptionT.run (extractMode o env ep)).run w).2 := by
    unfold extractMode
    rw [run_bind_of_eq _ (run_get w)]
    dsimp only
    split
    · exact keeps_extractSpecial h _ _ _ w hw
    split
    · next hd => exact keeps_extractDir (hdir hd) ep w hw
    split
    · next hl => exact untouched_extractLnk hw ep.name (hlnk hl).1 (hlnk hl).2
    split
    · exact keeps_extractSpecial h _ _ _ w hw
    split
    · exact keeps_extractSpecial h _ _ _ w hw
    split
    · exact keeps_extractReg h ep.name w hw
    · exact (keeps_skipfile.bind fun _ => keeps_pure _) w hw
  unfold extractfile
  rw [run_bind_of_eq _ (run_metaonly w)]
  split
  · have hsame : Keeps (fun w' => w' = w) (removeleaf o env ep) := keeps_removeleaf h ep
    refine bind_leads (J := fun w' => w' = w) (hsame w rfl) ?_ ?_
    · rintro _ rfl
      exact hw
    · rintro _ _ rfl
      exact hmode
  · exact hmode

theorem keeps_addfile {name : String} {ino : ℕ} {type : EntryType} {onTape : Bool}
    {links : List Entry} (hsafe : o.mflag = false → type = .node → onTape = true →
      ino = wino ∧ o.command = .interactive ∧ o.vflag = false) :
    Keeps Untouched (addfile o env name ino type onTape links) := by
  unfold addfile
  refine Keeps.ite (fun _ => keeps_pure ()) fun htape => ?_
  refine Keeps.ite (fun _ => keeps_pure ()) fun hwino => ?_
  have hno : ¬(o.mflag = false ∧ type = .node) := fun ⟨hm, htype⟩ =>
    hwino (hsafe hm htype (by simpa using htape))
  refine Keeps.ite (fun hyes => absurd hyes hno) fun _ => ?_
  refine Keeps.ite (fun _ => keeps_pure ()) fun _ => ?_
  exact Keeps.ite (fun _ => (keeps_newnode h _).bind fun _ => keeps_pure ()) fun _ => keeps_pure ()

/-- One call that meets the condition. -/
theorem untouched_call {w : World} (hw : Untouched w) {op : Op} (hsafe : op.Safe o env w) :
    Untouched ((OptionT.run (op.call o env)).run w).2 := by
  cases op with
  | getfile readingmaps =>
    exact keeps_getfileWith (fun _ _ => keeps_pure ()) (fun _ => keeps_pure ()) w hw
  | removeleaf ep => exact keeps_removeleaf h ep w hw
  | removenode ep => exact keeps_removenode h ep w hw
  | mktempname ep tmpname => exact keeps_renameit h ep.name tmpname w hw
  | renameit old new => exact keeps_renameit h old new w hw
  | newnode np => exact ((keeps_newnode h np).bind fun _ => keeps_pure ()) w hw
  | symlinkit existing new =>
    exact ((keeps_symlinkit h existing new).bind fun _ => keeps_pure ()) w hw
  | hardlinkit existing new =>
    exact ((keeps_hardlinkit h existing new).bind fun _ => keeps_pure ()) w hw
  | addfile name ino type onTape links => exact keeps_addfile h hsafe w hw
  | extractfile ep doremove =>
    exact bind_leads (untouched_extractfile h hw ep doremove hsafe) (fun _ => id) fun _ _ => id
  | setdirmodes force lookupino modes =>
    exact keeps_forM (fun node hnode => keeps_dirmode (hsafe node hnode)) w hw
  | dumpsymtable filename table => exact keeps_dumpsymtable h filename table w hw

omit h in
/-- In a comparison every call meets the condition. -/
theorem safe_of_compare (hc : o.command = .compare) {op : Op} (hcalls : o.command.Calls op)
    (w : World) : op.Safe o env w := by
  rw [hc] at hcalls
  cases op <;> first | exact hcalls.elim | trivial

/-- A run whose calls all meet the condition. -/
theorem untouched_run {ops : List Op} {w : World} (hw : Untouched w) (hsafe : SafeRun o env ops w) :
    Untouched (run o env ops w) := by
  induction ops generalizing w with
  | nil => exact hw
  | cons op ops ih =>
    have hcall := untouched_call h hw hsafe.1
    have hrest := hsafe.2
    rw [run]
    rcases hres : (OptionT.run (op.call o env)).run w with ⟨_ | _, w'⟩
    · rwa [hres] at hcall
    · rw [hres] at hcall hrest
      exact ih hcall hrest

omit h in
theorem safeRun_of_compare (hc : o.command = .compare) {ops : List Op}
    (hcalls : ∀ op ∈ ops, o.command.Calls op) (w : World) : SafeRun o env ops w := by
  induction ops generalizing w with
  | nil => trivial
  | cons op ops ih =>
    refine ⟨safe_of_compare hc (hcalls op (List.mem_cons_self ..)) w, ?_⟩
    rcases (OptionT.run (op.call o env)).run w with ⟨_ | _, w'⟩
    · trivial
    · exact ih (fun op hop => hcalls op (List.mem_cons_of_mem _ hop)) w'

omit h in
/-- **Dry runs leave the target alone where the flag is tested.** A run of a command with `-N` in
which no call reaches one of the three places without a test of `Nflag`, and every run of `-C`,
makes no call that changes the target. -/
theorem run_untouched {ops : List Op} {w : World} (hN : o.nflag = true ∨ o.command = .compare)
    (hcalls : ∀ op ∈ ops, o.command.Calls op) (hw : Untouched w)
    (hsafe : o.command ≠ .compare → SafeRun o.start env ops w) :
    Untouched (run o.start env ops w) := by
  by_cases hc : o.command = .compare
  · have hstart : o.start = { o with nflag := true } := if_pos hc
    rw [hstart]
    exact untouched_run rfl hw (safeRun_of_compare (o := { o with nflag := true }) hc hcalls w)
  · have hstart : o.start = o := if_neg hc
    rw [hstart] at hsafe ⊢
    exact untouched_run (hN.resolve_right hc) hw (hsafe hc)

end Runs

/-! ## A dry run that writes -/

/-- The directory `.` of the target, and the record of its mode on a tape of this directory only. -/
def dot : Entry := ⟨".", .node, false, false, true⟩

def dotMode : ModeInfo := ⟨rootino, default, default, 0o40700, 0, 0, 0, none⟩

/-- The machine on which every call succeeds. -/
def obliging : Env where
  fs _ _ := true
  flags _ _ := 0
  setRoot := true
  goOn := true
  fssize := maxBsize
  xattrs _ := []

/-- The state before a run. -/
def idle : World := ⟨default, default, fun _ => none, none, [], 0, [], []⟩

theorem idle_untouched : Untouched idle := ⟨rfl, by simp [idle]⟩

/-- With `-xN` and without `-o`, the mode of `.` is left alone when the operator says so, and the
links are not made. -/
theorem extract_untouched :
    Untouched (run (Flags.start ⟨.extract, true, true, true, false⟩)
      { obliging with setRoot := false }
      [.hardlinkit "a" "b", .setdirmodes false (fun _ => some dot) [dotMode]] idle) :=
  run_untouched (.inl rfl) (by simp [Command.Calls]) idle_untouched fun _ =>
    ⟨trivial, by simp [Op.Safe, passesOver, Flags.start, dotMode, dot], trivial⟩

/-- A command with `-N` does change the target: `restore -rN` on a dump of level 0 with the root
directory only, which leaves out the checkpoint and then comes to `setdirmodes`. -/
theorem not_untouched : ¬∀ (o : Flags) (env : Env) (ops : List Op) (w : World),
    o.nflag = true ∨ o.command = .compare → (∀ op ∈ ops, o.command.Calls op) → Untouched w →
      Untouched (run o.start env ops w) := by
  intro hall
  have hcalls : (run ⟨.incremental, true, true, false, false⟩ obliging
      [.dumpsymtable "./restoresymtable" [], .setdirmodes true (fun _ => some dot) [dotMode]]
      idle).calls = [.chown "." 0 0, .chmod "." 0o40700, .utimes "." default default] := rfl
  have h := hall ⟨.incremental, true, true, false, false⟩ obliging
    [.dumpsymtable "./restoresymtable" [], .setdirmodes true (fun _ => some dot) [dotMode]] idle
    (.inl rfl) (by simp [Command.Calls]) idle_untouched
  refine h.calls (.chown "." 0 0) ?_ trivial
  exact hcalls ▸ List.mem_cons_self ..

end Restore

end DumpRestore
