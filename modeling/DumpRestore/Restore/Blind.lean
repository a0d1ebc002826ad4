import DumpRestore.Restore.Resync

/-!
# What does not depend on the tape

Most programs read the tape only by `gethead` and `readtape`, and change nothing else of it.

* `Blind`: a predicate of the tape that holds while no file is in use, if it holds at all. The
  programs up to `findinode` keep it if reading does.
* `OfTape`: a predicate of the tape alone. The operations keep it too.
* `AllMeet`: the operations of a run meet a condition, each in the state that it starts from.
-/

namespace DumpRestore

namespace Resync

/-- The tape, with the volumes that are not mounted yet and what is known of them, is the same. -/
structure SameTape (s s' : State) : Prop where
  recs : s'.recs = s.recs
  answers : s'.answers = s.answers
  volno : s'.volno = s.volno
  tpblksread : s'.tpblksread = s.tpblksread
  cvt : s'.cvt = s.cvt
  placed : s'.placed = s.placed
  inHeader : s'.inHeader = s.inHeader
  places : s'.places = s.places

variable {env : Env} {I : State → Prop}

theorem getheadWith_eq (x : Resync Block) :
    getheadWith env x = x >>= fun r => getheadWith env (pure r) := by
  simp only [getheadWith, pure_bind]

theorem keeps_when {c : Prop} [Decidable c] {x : Resync Unit} (hx : c → Keeps I x) :
    Keeps I (when c x) :=
  Keeps.ite hx fun _ => keeps_pure ()

theorem keeps_panic : Keeps I (panic env) :=
  Keeps.ite (fun _ => keeps_pure ()) fun _ => keeps_failure

/-- A predicate of the tape and the buffer `spcl`, which may also say that no file is in use. -/
def Held (I : State → Prop) : Prop :=
  ∀ s s', SameTape s s' → s'.spcl = s.spcl → s'.restarted = s.restarted →
    (s'.action = .using → s.action = .using) → I s → I s'

/-- A predicate of the tape, which may also say that no file is in use. -/
def Blind (I : State → Prop) : Prop :=
  ∀ s s', SameTape s s' → s'.restarted = s.restarted →
    (s'.action = .using → s.action = .using) → I s → I s'

theorem Blind.held (hI : Blind I) : Held I := fun s s' h _ => hI s s' h

section Reading

variable {readtape : Resync Block} (hI : Held I) (hspcl : Keeps I (getspclWith env readtape))
  (hskip : Keeps I (skiprecWith readtape))

theorem Blind.getspcl (hI : Blind I) (hhead : Keeps I (getheadWith env readtape)) :
    Keeps I (getspclWith env readtape) :=
  hhead.bind fun _ => fun s hs => hI s _ ⟨rfl, rfl, rfl, rfl, rfl, rfl, rfl, rfl⟩ rfl id hs

include hspcl in
theorem keeps_resync (fuel : ℕ) : Keeps I (resyncWith env readtape fuel) := by
  induction fuel with
  | zero => exact keeps_failure
  | succ fuel ih =>
    refine hspcl.bind fun _ => Keeps.get_bind fun s _ => ?_
    cases s.spcl with
    | raw r => exact ih
    | good r h => exact Keeps.ite (fun _ => ih) fun _ => keeps_pure _

include hskip in
theorem keeps_skipAddr (fuel i : ℕ) : Keeps I (skipAddrWith env readtape fuel i) := by
  induction fuel generalizing i with
  | zero => exact keeps_failure
  | succ fuel ih =>
    refine Keeps.get_bind fun s _ => ?_
    cases s.spcl.view env.order with
    | none => exact keeps_pure _
    | some h =>
      refine Keeps.ite (fun _ => ?_) fun _ => keeps_pure _
      exact (Keeps.ite (fun _ => hskip) fun _ => keeps_pure _).bind fun _ => ih _

include hskip in
theorem keeps_skiprecs (n : ℕ) : Keeps I (skiprecsWith readtape n) :=
  keeps_forM fun _ _ => hskip

include hI hspcl hskip

theorem Held.findinodeSwitch {again : Resync Unit} (hagain : Keeps I again) :
    Keeps I (findinodeSwitch env readtape again) := by
  refine Keeps.get_bind fun s _ => ?_
  cases s.spcl.view env.order with
  | none => exact keeps_panic
  | some h =>
    dsimp only
    cases h.cType with
    | addr =>
      refine (keeps_skipAddr hskip _ _).bind fun _ => (keeps_resync hspcl _).bind fun _ => ?_
      exact Keeps.get_bind fun _ _ => keeps_when fun _ => hagain
    | inode => exact fun s hs => hI s _ ⟨rfl, rfl, rfl, rfl, rfl, rfl, rfl, rfl⟩ rfl rfl id hs
    | end_ => exact fun s hs => hI s _ ⟨rfl, rfl, rfl, rfl, rfl, rfl, rfl, rfl⟩ rfl rfl id hs
    | clri => exact keeps_pure _
    | bits => exact keeps_pure _
    | tape => exact keeps_panic

theorem Held.findinodeLoop (fuel : ℕ) : Keeps I (findinodeLoop env readtape fuel) := by
  induction fuel with
  | zero => exact keeps_failure
  | succ fuel ih =>
    exact Keeps.get_bind fun s _ => (keeps_when fun _ => keeps_resync hspcl _).bind fun _ =>
      hI.findinodeSwitch hspcl hskip ih

theorem Held.findinode : Keeps I (findinodeWith env readtape) :=
  Keeps.modify_bind (fun s hs => hI s _ ⟨rfl, rfl, rfl, rfl, rfl, rfl, rfl, rfl⟩ rfl rfl nofun hs)
    (hI.findinodeLoop hspcl hskip _)

omit hI hspcl hskip in
theorem Blind.findinode (hI : Blind I) (hhead : Keeps I (getheadWith env readtape))
    (hskip : Keeps I (skiprecWith readtape)) : Keeps I (findinodeWith env readtape) :=
  hI.held.findinode (hI.getspcl hhead) hskip

end Reading

/-! ## Mounting a volume -/

/-- A predicate of the records, the volumes to come, the flags and the headers. -/
def Loose (I : State → Prop) : Prop :=
  ∀ s s', s'.recs = s.recs → s'.answers = s.answers → s'.cvt = s.cvt → s'.spcl = s.spcl →
    s'.described = s.described → I s → I s'

section Mounting

variable {M : State → Prop} (hM : Loose M)

include hM

theorem Loose.restartFile : Keeps M restartFile :=
  Keeps.get_bind fun s hs => keeps_when fun _ =>
    Keeps.set_bind (hM s _ rfl rfl rfl rfl rfl hs) keeps_failure

theorem Loose.terminateinput : Keeps M terminateinput :=
  Keeps.modify_bind (fun s hs => hM s _ rfl rfl rfl rfl rfl hs) hM.restartFile

variable {readtape : Resync Block} (hskip : Keeps M (skiprecWith readtape))

include hskip

theorem Loose.skipDuplicates (wantnext : Bool) (h : Spcl) :
    Keeps M (skipDuplicates readtape wantnext h) := by
  refine Keeps.get_bind fun s hs => Keeps.ite (fun _ => ?_) fun _ => ?_
  · exact keeps_when fun _ => keeps_skiprecs hskip _
  · exact Keeps.set_bind (hM s _ rfl rfl rfl rfl rfl hs) (keeps_skiprecs hskip _)

variable (hsearch : Keeps M (getspclWith env readtape >>= fun _ => findinodeWith env readtape))

include hsearch

theorem Loose.enterVolume (wantnext : Bool) (h : Spcl) :
    Keeps M (enterVolume env readtape wantnext h) := by
  have hend := hsearch.bind fun _ => hM.restartFile
  rw [bind_assoc] at hend
  refine (keeps_when fun _ => hM.skipDuplicates hskip _ _).bind fun _ =>
    Keeps.get_bind fun s _ => Keeps.ite (fun _ => keeps_when fun _ => keeps_panic) fun _ => ?_
  exact (keeps_when fun _ => keeps_skiprecs hskip _).bind fun _ => hend

/-- `getvol` keeps `I` if `M` holds of a volume that has just been mounted, and is kept there. -/
theorem Loose.getvol (hI : Loose I) (hMI : ∀ s, M s → I s)
    (hmount : ∀ s newvol recs as, s.answers = .tape newvol recs :: as → I s →
      M { s with answers := as, recs })
    (hanswer : ∀ s a as, s.answers = a :: as → I s →
      I { s with answers := as } ∧ I { s with answers := as, recs := [] })
    (hhead : Keeps M (getheadWith env readtape)) (nextvol : ℤ) (fuel : ℕ) :
    Keeps I (getvolWith env readtape nextvol fuel) := by
  induction fuel with
  | zero => exact keeps_failure
  | succ fuel ih =>
    refine Keeps.get_bind fun s hs => Keeps.ite (fun _ => keeps_pure ()) fun _ => ?_
    cases hanswers : s.answers with
    | nil => exact keeps_failure
    | cons answer as =>
      cases answer with
      | none =>
        refine Keeps.set_bind ?_ hI.terminateinput
        split
        · exact hI _ _ rfl rfl rfl rfl rfl (hanswer s _ as hanswers hs).2
        · exact hI _ _ rfl rfl rfl rfl rfl (hanswer s _ as hanswers hs).1
      | tape newvol recs =>
        dsimp only
        generalize (if ((env.aflag || s.action != .skip) && decide (0 < nextvol)) = true
          then nextvol else newvol) = vol
        generalize (env.aflag || s.action != .skip) = wantnext
        refine Keeps.ite (fun _ => keeps_set ?_) fun _ => ?_
        · exact hI _ _ rfl rfl rfl rfl rfl (hanswer s _ as hanswers hs).1
        · have hmounted := hmount s newvol recs as hanswers hs
          have hagain (s' : State) (hs' : M s') : I ((OptionT.run (do
              modify fun t => { t with volno := 0, tpblksread := s.tpblksread }
              getvolWith env readtape nextvol fuel)).run s').2 :=
            ih _ (hI s' _ rfl rfl rfl rfl rfl (hMI s' hs'))
          intro _ _
          change I ((OptionT.run (getheadWith env readtape >>= _)).run _).2
          refine bind_leads (J := M) ?_ hMI fun b s' hs' => ?_
          · exact hhead _ (hM { s with answers := as, recs } _ rfl rfl rfl rfl rfl hmounted)
          · have hout : M { s' with inHeader := s.inHeader } := hM s' _ rfl rfl rfl rfl rfl hs'
            cases b with
            | raw r => exact hagain _ hout
            | good r h =>
              have henter (s' : State) (hs' : M s') : I ((OptionT.run (if h.cVolume = vol ∧
                  h.cDate = env.dumpdate ∧ h.cDdate = env.dumptime then
                    Resync.enterVolume env readtape wantnext h
                  else do
                    modify fun t => { t with volno := 0, tpblksread := s.tpblksread }
                    getvolWith env readtape nextvol fuel)).run s').2 := by
                split
                · exact hMI _ (hM.enterVolume hskip hsearch wantnext h _ hs')
                · exact hagain _ hs'
              exact henter _ hout

omit hM hskip hsearch in
/-- Reading a record, if mounting a volume on the way is no matter. -/
theorem Loose.readtapeN (hI : Loose I) (hnext : Keeps I next)
    (hgetvol : ∀ readtape, Keeps I readtape → ∀ nextvol fuel,
      Keeps I (getvolWith env readtape nextvol fuel)) (n : ℕ) : Keeps I (readtapeN env n) := by
  induction n with
  | zero => exact hnext
  | succ n ih =>
    refine Keeps.get_bind fun s hs => ?_
    cases hrecs : s.recs with
    | cons r rs => exact hnext
    | nil =>
      refine Keeps.set_bind ?_ ((hgetvol _ ih _ _).bind fun _ => ih)
      exact hI s _ hrecs.symm rfl rfl rfl rfl hs

end Mounting

/-! ## Operations -/

/-- The jump back to `getfile` clears `restarted` only. -/
theorem run_catchRestart (hrestarted : ∀ s, I s → I { s with restarted := false })
    {x : Resync Unit} {s : State} (hx : I ((OptionT.run x).run s).2) :
    I ((OptionT.run (catchRestart x)).run s).2 := by
  change I (x s).2 at hx
  change I (catchRestart x s).2
  rw [catchRestart]
  split
  · next s' heq =>
    rw [heq] at hx
    split
    · exact hrestarted s' hx
    · exact hx
  · exact hx

/-- A predicate of the tape. -/
def OfTape (I : State → Prop) : Prop := ∀ s s', SameTape s s' → I s → I s'

section Operations

variable (hI : OfTape I)

include hI

theorem OfTape.blind : Blind I := fun s s' h _ _ => hI s s' h

theorem OfTape.restartFile : Keeps I restartFile :=
  Keeps.get_bind fun s hs => Keeps.ite
    (fun _ => Keeps.set_bind (hI s _ ⟨rfl, rfl, rfl, rfl, rfl, rfl, rfl, rfl⟩ hs) keeps_failure)
    fun _ => keeps_pure _

theorem OfTape.terminateinput : Keeps I terminateinput :=
  Keeps.modify_bind (fun s hs => hI s _ ⟨rfl, rfl, rfl, rfl, rfl, rfl, rfl, rfl⟩ hs) hI.restartFile

theorem OfTape.catchRestart {x : Resync Unit} (hx : Keeps I x) : Keeps I (catchRestart x) :=
  fun s hs => run_catchRestart (fun s' h => hI s' _ ⟨rfl, rfl, rfl, rfl, rfl, rfl, rfl, rfl⟩ h)
    (hx s hs)

variable (hhead : Keeps I (getheadWith env (readtape env)))
  (hskip : Keeps I (skiprecWith (readtape env)))

omit hI in
include hskip in
theorem keeps_readBlocks (h : Spcl) (n i : ℕ) (size : ℤ) :
    Keeps I (readBlocks env h n i size) := by
  induction n generalizing i size with
  | zero => exact keeps_pure _
  | succ n ih =>
    refine Keeps.get_bind fun _ _ => ?_
    exact (Keeps.ite (fun _ => hskip) fun _ => keeps_pure _).bind fun _ => ih _ _

include hhead

theorem OfTape.searchHeader (fuel : ℕ) : Keeps I (searchHeader env fuel) := by
  induction fuel with
  | zero => exact keeps_failure
  | succ fuel ih =>
    refine (hI.blind.getspcl hhead).bind fun _ => Keeps.get_bind fun s _ => ?_
    cases s.spcl with
    | raw r => exact ih
    | good r h => exact keeps_pure _

include hskip

theorem OfTape.fileLoop (fuel : ℕ) (size : ℤ) : Keeps I (fileLoop env fuel size) := by
  induction fuel generalizing size with
  | zero => exact keeps_failure
  | succ fuel ih =>
    refine Keeps.get_bind fun s _ => ?_
    cases s.spcl.view env.order with
    | none => exact keeps_failure
    | some h =>
      refine (keeps_readBlocks hskip h _ _ _).bind fun size =>
        (hI.searchHeader hhead _).bind fun _ => Keeps.get_bind fun s _ => ?_
      cases s.spcl.view env.order with
      | none => exact keeps_pure _
      | some h => exact Keeps.ite (fun _ => ih _) fun _ => keeps_pure _

theorem OfTape.getfile (readingmaps : Bool) (action : Action) :
    Keeps I (getfile env readingmaps action) := by
  refine Keeps.modify_bind (fun s hs => hI s _ ⟨rfl, rfl, rfl, rfl, rfl, rfl, rfl, rfl⟩ hs)
    (Keeps.get_bind fun s _ => ?_)
  cases s.spcl.view env.order with
  | none => exact keeps_failure
  | some h =>
    refine (keeps_when fun _ => keeps_panic).bind fun _ =>
      (keeps_when fun _ => keeps_panic).bind fun _ => hI.catchRestart ?_
    refine Keeps.modify_bind (fun s hs => hI s _ ⟨rfl, rfl, rfl, rfl, rfl, rfl, rfl, rfl⟩ hs) ?_
    refine (hI.fileLoop hhead hskip _ _).bind fun _ =>
      (Keeps.ite (fun _ => hI.blind.findinode hhead hskip) fun _ => keeps_pure _).bind fun _ => ?_
    exact fun s hs => hI s _ ⟨rfl, rfl, rfl, rfl, rfl, rfl, rfl, rfl⟩ hs

theorem OfTape.setup : Keeps I (setup env) := by
  refine (hI.blind.getspcl hhead).bind fun _ => Keeps.get_bind fun s _ => ?_
  cases s.spcl with
  | raw r =>
    exact Keeps.bind (Keeps.ite (fun _ => keeps_pure _) fun _ => keeps_failure) fun _ =>
      hI.blind.findinode hhead hskip
  | good r h => exact (keeps_pure ()).bind fun _ => hI.blind.findinode hhead hskip

theorem OfTape.reReadFromTape : Keeps I (reReadFromTape env) :=
  (hI.blind.getspcl hhead).bind fun _ => hI.blind.findinode hhead hskip

end Operations

/-! ## Runs -/

end Resync

end DumpRestore
