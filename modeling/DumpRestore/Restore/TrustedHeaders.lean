import DumpRestore.Restore.Blind
import DumpRestore.Restore.Search

/-!
# Which headers are trusted

`findinode` looks for another header if the one it is given has not the right magic number. It looks
neither at the result of `gethead` nor at the date of that header, as it does with those it reads
itself. So a record that passes for the header of a file does harm where restore reads a record and
hands it to `findinode` unseen.

* `Sincere` records do not pass for one, and `Meets` says where on the tapes records have to be
  sincere.
* `Tracks` is the invariant of an operation: the headers so far can be trusted, and the records on
  the tapes are those of the condition.
* `described_trusted` is the main theorem.
-/

namespace DumpRestore

namespace Resync

variable (env : Env)

/-! ## The condition -/

/-- `converthead` has accepted the record, with its magic number and checksum, as this header. -/
def Accepted (r : Block) (h : Spcl) : Prop :=
  ∃ g, (convertheadBytes env.order r.bytes g).1 = some h

/-- A header of this dump that passed `gethead`. -/
def Trusted (b : Buffer) : Prop :=
  ∃ r h, b = .good r h ∧ Accepted env r h ∧ h.cDate = env.dumpdate

/-- The buffer looks like the header of a file. -/
def LooksLikeInode (b : Buffer) : Prop :=
  b.hasMagic env.order = true ∧ ∃ h, b.view env.order = some h ∧ h.cType = .inode

/-- What `gethead` makes of a record. -/
def Buffer.ofRecord (g : Cvt) (r : Block) : Buffer :=
  match (convertheadBytes env.order r.bytes g).1 with
  | some h => .good r h
  | none => .raw r

/-- The record does not pass for the header of a file, unless it is one of this dump. -/
def Sincere (G : Cvt → Prop) (r : Block) : Prop :=
  ∀ g, G g → LooksLikeInode env (.ofRecord env g r) → Trusted env (.ofRecord env g r)

/-- The record is not the header of a file of another dump. -/
def Dated (G : Cvt → Prop) (r : Block) : Prop :=
  ∀ g h, G g → (convertheadBytes env.order r.bytes g).1 = some h → h.cType = .inode →
    h.cDate = env.dumpdate

/-- `converthead` refuses the record. -/
def IsRefused (G : Cvt → Prop) (d : Block) : Prop :=
  ∃ g, G g ∧ (convertheadBytes env.order d.bytes g).1 = none

/-- The records on the tapes that restore has or gets. -/
def State.OnTape (s : State) (r : Block) : Prop :=
  r ∈ s.recs ∨ ∃ newvol recs, .tape newvol recs ∈ s.answers ∧ r ∈ recs

/-- The flags of the conversion from this state on: bytes are swapped if they were, or if a record
has the magic number of the other byte order. -/
def Flags (s : State) (g : Cvt) : Prop :=
  (s.cvt.bcvt = true → g.bcvt = true) ∧
    (g.bcvt = true → s.cvt.bcvt = true ∨
      ∃ r, s.OnTape r ∧ swabi (magic env.order r.bytes) = nfsMagic)

/-- The blocks that `getfile` reads for a header, from entry `i` on. -/
def blocksFrom (h : Spcl) (readmapflag : Bool) : (n i : ℕ) → ℕ
  | 0, _ => 0
  | n + 1, i =>
    (if readmapflag = true ∨ h.cAddr i ≠ 0 then 1 else 0) + blocksFrom h readmapflag n (i + 1)

/-- A record that `getfile` may stop at when it looks for the header after the blocks of `h`: those
between are refused. A header of type `TS_ADDR` has blocks of its own. -/
inductive Follows (G : Cvt → Prop) : Bool → Spcl → List Block → Block → Prop
  | next {readmapflag : Bool} {h : Spcl} (bs ds : List Block) (r : Block) (rest : List Block)
    (hbs : bs.length = blocksFrom h readmapflag h.cCount.toNat 0)
    (hds : ∀ d ∈ ds, IsRefused env G d) :
    Follows G readmapflag h (bs ++ ds ++ r :: rest) r
  | addr {readmapflag : Bool} {h : Spcl} (bs ds : List Block) (a : Block) {rest : List Block}
    {r : Block} {g : Cvt} {h' : Spcl}
    (hbs : bs.length = blocksFrom h readmapflag h.cCount.toNat 0)
    (hds : ∀ d ∈ ds, IsRefused env G d) (hg : G g)
    (ha : (convertheadBytes env.order a.bytes g).1 = some h') (htype : h'.cType = .addr)
    (hrest : Follows G false h' rest r) : Follows G readmapflag h (bs ++ ds ++ a :: rest) r

/-- The buffer looks like the header that `ReReadInodeFromTape` looks for. -/
def Sought (theino : ℕ) (b : Buffer) : Prop :=
  ∃ h, b.view env.order = some h ∧ h.cInumber = theino ∧ h.cType = .inode ∧
    h.cDate = env.dumpdate

/-- The condition on an operation: no record on the volumes to come, and none that it hands to
`findinode` unseen, passes for the header of a file unless it is one. -/
def Meets (op : Op) (s : State) : Prop :=
  (∀ newvol recs, .tape newvol recs ∈ s.answers → ∀ r ∈ recs, Sincere env (Flags env s) r) ∧
    match op with
    | .setup | .reReadFromTape => ∀ r ∈ s.recs.head?, Sincere env (Flags env s) r
    | .findinode => LooksLikeInode env s.spcl → Trusted env s.spcl
    | .getfile _ _ => ∀ h, s.spcl.view env.order = some h → ∀ r,
        Follows env (Flags env s) s.cvt.readmapflag h s.recs r → Dated env (Flags env s) r
    | .reReadInodeFromTape theino => ∀ r ∈ s.recs, ∀ g, Flags env s g →
        Sought env theino (.ofRecord env g r) → LooksLikeInode env (.ofRecord env g r) →
          Trusted env (.ofRecord env g r)
    | .getvol _ | .gotoTapePos _ => True

/-! ## The invariant -/

/-- Flags and records that a state does not leave. -/
structure Closed (G : Cvt → Prop) (pool : Block → Prop) : Prop where
  converthead : ∀ g r, G g → pool r → G (convertheadBytes env.order r.bytes g).2

theorem closed_flags (s : State) : Closed env (Flags env s) s.OnTape where
  converthead g r hg hr := by
    rcases bcvt_convertheadBytes env.order r.bytes g with h | ⟨hmagic, h⟩
    · exact ⟨fun hs => h.trans (hg.1 hs), fun hs => hg.2 (h.symm.trans hs)⟩
    · exact ⟨fun _ => h, fun _ => .inr ⟨r, hr, hmagic⟩⟩

/-- The headers so far can be trusted, the records on the mounted volume are `P`, and those on the
volumes to come are sincere. -/
structure Tracks (G : Cvt → Prop) (pool P : Block → Prop) (s : State) : Prop where
  cvt : G s.cvt
  recs : ∀ r ∈ s.recs, pool r ∧ P r
  answers : ∀ newvol recs, .tape newvol recs ∈ s.answers → ∀ r ∈ recs,
    pool r ∧ Sincere env G r
  spcl : ∀ r h, s.spcl = .good r h → Accepted env r h
  described : ∀ b ∈ s.described, Trusted env b

/-- What `findinode` may be given. -/
structure Ready (G : Cvt → Prop) (pool P : Block → Prop) (s : State) : Prop where
  tracks : Tracks env G pool P s
  trusted : LooksLikeInode env s.spcl → Trusted env s.spcl

variable {env} {G : Cvt → Prop} {pool P : Block → Prop}

theorem loose_tracks : Loose (Tracks env G pool P) :=
  fun _ _ hrecs hanswers hcvt hspcl hdescribed hs =>
    ⟨hcvt ▸ hs.cvt, hrecs ▸ hs.recs, hanswers ▸ hs.answers, hspcl ▸ hs.spcl,
      hdescribed ▸ hs.described⟩

/-- The records may be of a wider kind. -/
theorem Tracks.mono {Q : Block → Prop} (hPQ : ∀ r, P r → Q r) {s : State}
    (hs : Tracks env G pool P s) : Tracks env G pool Q s :=
  { hs with recs := fun r hr => ⟨(hs.recs r hr).1, hPQ r (hs.recs r hr).2⟩ }

theorem ofRecord_of_some {g : Cvt} {r : Block} {h : Spcl}
    (hconv : (convertheadBytes env.order r.bytes g).1 = some h) :
    Buffer.ofRecord env g r = .good r h := by
  rw [Buffer.ofRecord, hconv]

theorem ofRecord_of_none {g : Cvt} {r : Block}
    (hconv : (convertheadBytes env.order r.bytes g).1 = none) :
    Buffer.ofRecord env g r = .raw r := by
  rw [Buffer.ofRecord, hconv]

theorem of_ofRecord_eq_good {g : Cvt} {r r' : Block} {h : Spcl}
    (heq : Buffer.ofRecord env g r = .good r' h) :
    r = r' ∧ (convertheadBytes env.order r.bytes g).1 = some h := by
  cases hconv : (convertheadBytes env.order r.bytes g).1 with
  | some h' =>
    rw [ofRecord_of_some hconv, Buffer.good.injEq] at heq
    exact ⟨heq.1, congrArg some heq.2⟩
  | none =>
    rw [ofRecord_of_none hconv] at heq
    exact Buffer.noConfusion heq

theorem accepted_ofRecord {g : Cvt} {r r' : Block} {h : Spcl}
    (heq : Buffer.ofRecord env g r = .good r' h) : Accepted env r' h := by
  obtain ⟨rfl, hconv⟩ := of_ofRecord_eq_good heq
  exact ⟨g, hconv⟩

/-- `gethead` on a record that has been read. -/
theorem leadsTo_gethead_pure {I : State → Prop} (r : Block) {s : State}
    (hI : I { s with cvt := (convertheadBytes env.order r.bytes s.cvt).2 }) :
    LeadsTo I (fun b s' => s' = { s with cvt := (convertheadBytes env.order r.bytes s.cvt).2 } ∧
      b = .ofRecord env s.cvt r) (getheadWith env (pure r)) s := by
  rw [getheadWith, pure_bind]
  refine LeadsTo.get_bind (LeadsTo.set_bind ?_)
  cases hconv : (convertheadBytes env.order r.bytes s.cvt).1 with
  | none =>
    exact LeadsTo.ite (fun _ => leadsTo_failure hI) fun _ =>
      leadsTo_pure ⟨rfl, (ofRecord_of_none hconv).symm⟩
  | some h => exact leadsTo_pure ⟨rfl, (ofRecord_of_some hconv).symm⟩

/-- The records of the mounted volume may be anything. -/
def Any (_ : Block) : Prop := True

theorem Tracks.any {s : State} (hs : Tracks env G pool P s) : Tracks env G pool Any s :=
  hs.mono fun _ _ => trivial

section Steps

variable (hG : Closed env G pool)

section Reading

/-- Reading gives the records of the tape. -/
def Draws (env : Env) (G : Cvt → Prop) (pool P : Block → Prop) (readtape : Resync Block) : Prop :=
  ∀ s, Tracks env G pool P s → LeadsTo (Tracks env G pool P)
    (fun r s => Tracks env G pool P s ∧ pool r ∧ P r) readtape s

variable {readtape : Resync Block} (hread : Draws env G pool P readtape)

include hread

theorem Draws.skiprec : Keeps (Tracks env G pool P) (skiprecWith readtape) :=
  keeps_of_leadsTo fun s hs => (hread s hs).bind fun _ _ hs => leadsTo_pure hs.1

include hG

/-- `gethead` on the next record. -/
theorem Draws.gethead {s : State} (hs : Tracks env G pool P s) :
    LeadsTo (Tracks env G pool P) (fun b s => Tracks env G pool P s ∧
      ∃ g r, G g ∧ P r ∧ b = .ofRecord env g r) (getheadWith env readtape) s := by
  rw [getheadWith_eq]
  refine (hread s hs).bind fun r s h => ?_
  obtain ⟨hs, hpool, hP⟩ := h
  have hs' : Tracks env G pool P { s with cvt := (convertheadBytes env.order r.bytes s.cvt).2 } :=
    { hs with cvt := hG.converthead s.cvt r hs.cvt hpool }
  refine (leadsTo_gethead_pure r hs').mono (fun _ => id) fun b s' h => ?_
  rw [h.1, h.2]
  exact ⟨hs', s.cvt, r, hs.cvt, hP, rfl⟩

theorem Draws.keeps_gethead : Keeps (Tracks env G pool P) (getheadWith env readtape) :=
  keeps_of_leadsTo fun _ hs => (Draws.gethead hG hread hs).mono (fun _ => id) fun _ _ => And.left

/-- `gethead(&spcl)` on the next record. -/
theorem Draws.getspcl {s : State} (hs : Tracks env G pool P s) :
    LeadsTo (Tracks env G pool P) (fun _ s => Tracks env G pool P s ∧
      ∃ g r, G g ∧ P r ∧ s.spcl = .ofRecord env g r) (getspclWith env readtape) s := by
  refine (Draws.gethead hG hread hs).bind fun b s ⟨hs, g, r, hg, hP, hb⟩ => ?_
  refine leadsTo_pure ⟨{ hs with spcl := fun r' h heq => ?_ }, g, r, hg, hP, hb⟩
  exact accepted_ofRecord (hb.symm.trans heq)

/-- The loop that looks for a header of the dump ends at one that can be trusted. -/
theorem Draws.resync (fuel : ℕ) {s : State} (hs : Tracks env G pool P s) :
    LeadsTo (Tracks env G pool P) (fun _ s => Tracks env G pool P s ∧ Trusted env s.spcl)
      (resyncWith env readtape fuel) s := by
  induction fuel generalizing s with
  | zero => exact leadsTo_failure hs
  | succ fuel ih =>
    refine (Draws.getspcl hG hread hs).bind fun _ s ⟨hs, _⟩ => LeadsTo.get_bind ?_
    cases hspcl : s.spcl with
    | raw r => exact ih hs
    | good r h =>
      refine LeadsTo.ite (fun _ => ih hs) fun hdate => leadsTo_pure ⟨hs, ?_⟩
      exact ⟨r, h, hspcl, hs.spcl r h hspcl, not_not.1 hdate⟩

/-! ## findinode -/

/-- The switch describes the header in `spcl` only if that can be trusted. -/
theorem Draws.findinodeSwitch {again : Resync Unit}
    (hagain : ∀ s, Ready env G pool P s →
      LeadsTo (Tracks env G pool P) (fun _ => Tracks env G pool P) again s)
    {s : State} (hs : Tracks env G pool P s)
    (htrusted : ∀ h, s.spcl.view env.order = some h → h.cType = .inode → Trusted env s.spcl) :
    LeadsTo (Tracks env G pool P) (fun _ => Tracks env G pool P)
      (findinodeSwitch env readtape again) s := by
  refine LeadsTo.get_bind ?_
  cases hview : s.spcl.view env.order with
  | none => exact keeps_panic.leadsTo hs
  | some h =>
    dsimp only
    cases htype : h.cType with
    | tape => exact keeps_panic.leadsTo hs
    | inode =>
      refine leadsTo_pure { hs with described := fun b hb => ?_ }
      rcases List.mem_append.1 hb with hb | hb
      · exact hs.described b hb
      · rw [List.mem_singleton.1 hb]
        exact htrusted h hview htype
    | bits => exact leadsTo_pure hs
    | clri => exact leadsTo_pure hs
    | end_ => exact leadsTo_pure (loose_tracks s _ rfl rfl rfl rfl rfl hs)
    | addr =>
      refine ((keeps_skipAddr hread.skiprec env.fuel 0).leadsTo hs).bind fun _ s hs => ?_
      refine (Draws.resync hG hread env.fuel hs).bind fun _ s hs => LeadsTo.get_bind ?_
      exact LeadsTo.ite (fun _ => hagain s ⟨hs.1, fun _ => hs.2⟩) fun _ => leadsTo_pure hs.1

/-- `findinode` describes the header it is given only if that can be trusted. -/
theorem Draws.findinodeLoop (fuel : ℕ) {s : State} (hs : Ready env G pool P s) :
    LeadsTo (Tracks env G pool P) (fun _ => Tracks env G pool P)
      (findinodeLoop env readtape fuel) s := by
  induction fuel generalizing s with
  | zero => exact leadsTo_failure hs.tracks
  | succ fuel ih =>
    refine LeadsTo.get_bind ?_
    by_cases hmagic : s.spcl.hasMagic env.order = false
    · rw [when, if_pos hmagic]
      refine (Draws.resync hG hread env.fuel hs.tracks).bind fun _ s hs => ?_
      exact Draws.findinodeSwitch hG hread (fun s hs => ih hs) hs.1 fun _ _ _ => hs.2
    · rw [when, if_neg hmagic, pure_bind]
      exact Draws.findinodeSwitch hG hread (fun s hs => ih hs) hs.tracks fun h hview htype =>
        hs.trusted ⟨by simpa using hmagic, h, hview, htype⟩

theorem Draws.findinode {s : State} (hs : Ready env G pool P s) :
    LeadsTo (Tracks env G pool P) (fun _ => Tracks env G pool P) (findinodeWith env readtape) s :=
  Draws.findinodeLoop hG hread _ ⟨loose_tracks s _ rfl rfl rfl rfl rfl hs.tracks, hs.trusted⟩

end Reading

/-! ## getvol -/

/-- A record that has been read may be handed to `findinode` if it is sincere. -/
theorem Tracks.ready {s : State} (hs : Tracks env G pool P s) {g : Cvt} {r : Block} (hg : G g)
    (hr : Sincere env G r) (hspcl : s.spcl = .ofRecord env g r) : Ready env G pool P s :=
  ⟨hs, fun hlooks => hspcl ▸ hr g hg (hspcl ▸ hlooks)⟩

include hG

/-- `getvol` reads a header unseen, but on a volume that it has just mounted. -/
theorem Tracks.getvol {readtape : Resync Block}
    (hread : Draws env G pool (Sincere env G) readtape) (hP : ∀ r, Sincere env G r → P r)
    (nextvol : ℤ) (fuel : ℕ) :
    Keeps (Tracks env G pool P) (getvolWith env readtape nextvol fuel) := by
  refine loose_tracks.getvol hread.skiprec (keeps_of_leadsTo fun s hs => ?_) loose_tracks
    (fun _ hs => hs.mono hP) ?_ ?_ (hread.keeps_gethead hG) nextvol fuel
  · refine (hread.getspcl hG hs).bind fun _ s ⟨hs, g, r, hg, hr, hspcl⟩ => ?_
    exact hread.findinode hG (hs.ready hg hr hspcl)
  · intro s newvol recs as hanswers hs
    exact { hs with
      recs := hs.answers newvol recs (by rw [hanswers]; exact List.mem_cons_self)
      answers := fun n rs h => hs.answers n rs (by rw [hanswers]; exact List.mem_cons_of_mem _ h) }
  · intro s a as hanswers hs
    have has : ∀ newvol recs, .tape newvol recs ∈ as → ∀ r ∈ recs, pool r ∧ Sincere env G r :=
      fun n rs h => hs.answers n rs (by rw [hanswers]; exact List.mem_cons_of_mem _ h)
    exact ⟨{ hs with answers := has },
      { hs with recs := fun r hr => absurd hr List.not_mem_nil, answers := has }⟩

omit hG in
theorem draws_next : Draws env G pool P next := by
  refine fun s hs => LeadsTo.get_bind ?_
  cases hrecs : s.recs with
  | nil => exact leadsTo_failure hs
  | cons r rs =>
    obtain ⟨hr, hrs⟩ := List.forall_mem_cons.mp (hrecs ▸ hs.recs)
    exact LeadsTo.set_bind (leadsTo_pure ⟨{ hs with recs := hrs }, hr⟩)

theorem draws_readtapeN (hP : ∀ r, Sincere env G r → P r) (n : ℕ) :
    Draws env G pool P (readtapeN env n) := by
  induction n generalizing P with
  | zero => exact draws_next
  | succ n ih =>
    refine fun s hs => LeadsTo.get_bind ?_
    cases hrecs : s.recs with
    | cons r rs => exact draws_next s hs
    | nil =>
      have hleave : Tracks env G pool P { s with volno := 0, recs := [] } :=
        { hs with recs := fun r hr => absurd hr List.not_mem_nil }
      exact LeadsTo.set_bind (((Tracks.getvol hG (ih fun _ => id) hP _ _).leadsTo hleave).bind
        fun _ s hs => ih hP s hs)

theorem draws_readtape (hP : ∀ r, Sincere env G r → P r) : Draws env G pool P (readtape env) :=
  fun s hs => LeadsTo.get_bind (draws_readtapeN hG hP _ s hs)

/-! ## On the mounted volume -/

/-- `gethead` has read the next record of the volume, or one of another volume. -/
def Drew (env : Env) (G : Cvt → Prop) (pool : Block → Prop) (s : State) (b : Buffer) (s' : State) :
    Prop :=
  (Tracks env G pool Any s' ∧ ∃ r, s.recs = r :: s'.recs ∧ b = .ofRecord env s.cvt r ∧
      s'.cvt = (convertheadBytes env.order r.bytes s.cvt).2) ∨
    Tracks env G pool (Sincere env G) s' ∧ ∃ g r, G g ∧ Sincere env G r ∧ b = .ofRecord env g r

omit hG in
theorem Ends.leadsTo {α : Type} {x : Resync α} {s s' : State} {a : α} {I : State → Prop}
    {Q : α → State → Prop} (hx : Ends x s (some a) s') (hq : Q a s') : LeadsTo I Q x s := by
  have hrun : (OptionT.run x).run s = (some a, s') := hx
  refine ⟨fun s₁ h => ?_, fun b s₁ h => ?_⟩
  · cases hrun.symm.trans h
  · obtain ⟨hb, rfl⟩ := Prod.mk.inj (hrun.symm.trans h)
    obtain rfl := Option.some.inj hb
    exact hq

/-- The next record of the volume, or one of another volume. -/
theorem leadsTo_readtape_stays {s : State} (hs : Tracks env G pool Any s) :
    LeadsTo (Tracks env G pool Any)
      (fun r s' => pool r ∧ (Tracks env G pool Any s' ∧ s.recs = r :: s'.recs ∧ s'.cvt = s.cvt ∨
        Tracks env G pool (Sincere env G) s' ∧ Sincere env G r)) (readtape env) s := by
  cases hrecs : s.recs with
  | nil =>
    have hclean : Tracks env G pool (Sincere env G) s :=
      { hs with recs := fun r hr => by rw [hrecs] at hr; cases hr }
    exact (draws_readtape hG (fun _ => id) s hclean).mono (fun _ h => h.any) fun _ _ h =>
      ⟨h.2.1, .inr ⟨h.1, h.2.2⟩⟩
  | cons r rs =>
    obtain ⟨hr, hrs⟩ := List.forall_mem_cons.mp (hrecs ▸ hs.recs)
    exact (ends_readtape hrecs).leadsTo ⟨hr.1, .inl ⟨{ hs with recs := hrs }, rfl, rfl⟩⟩

theorem leadsTo_gethead_stays {s : State} (hs : Tracks env G pool Any s) :
    LeadsTo (Tracks env G pool Any) (Drew env G pool s) (getheadWith env (readtape env)) s := by
  rw [getheadWith_eq]
  refine (leadsTo_readtape_stays hG hs).bind fun r s' h => ?_
  obtain ⟨hpool, ⟨hs', hrecs, hcvt⟩ | ⟨hs', hr⟩⟩ := h
  · have hconv : Tracks env G pool Any
        { s' with cvt := (convertheadBytes env.order r.bytes s'.cvt).2 } :=
      { hs' with cvt := hG.converthead s'.cvt r hs'.cvt hpool }
    refine (leadsTo_gethead_pure r hconv).mono (fun _ => id) fun b s'' h => .inl ?_
    rw [h.1, h.2, hcvt]
    rw [hcvt] at hconv
    exact ⟨hconv, r, hrecs, rfl, rfl⟩
  · have hconv : Tracks env G pool (Sincere env G)
        { s' with cvt := (convertheadBytes env.order r.bytes s'.cvt).2 } :=
      { hs' with cvt := hG.converthead s'.cvt r hs'.cvt hpool }
    refine (leadsTo_gethead_pure r hconv).mono (fun _ h => h.any) fun b s'' h => .inr ?_
    rw [h.1, h.2]
    exact ⟨hconv, s'.cvt, r, hs'.cvt, hr, rfl⟩

/-- `gethead(&spcl)` likewise. -/
theorem leadsTo_getspcl_stays {s : State} (hs : Tracks env G pool Any s) :
    LeadsTo (Tracks env G pool Any) (fun _ s' => Drew env G pool s s'.spcl s') (getspcl env) s := by
  refine (leadsTo_gethead_stays hG hs).bind fun b s' h => leadsTo_pure ?_
  rcases h with ⟨h, r, hr, hb, hcvt⟩ | ⟨h, g, r, hg, hr, hb⟩
  · exact .inl ⟨{ h with spcl := fun r' h' heq => accepted_ofRecord (hb.symm.trans heq) }, r, hr,
      hb, hcvt⟩
  · exact .inr ⟨{ h with spcl := fun r' h' heq => accepted_ofRecord (hb.symm.trans heq) }, g, r,
      hg, hr, hb⟩

/-- The blocks of the header `h` have been read, or the volume has ended in them. -/
theorem leadsTo_readBlocks (h : Spcl) (n i : ℕ) (size : ℤ) {s : State}
    (hs : Tracks env G pool Any s) :
    LeadsTo (Tracks env G pool Any)
      (fun _ s' => (Tracks env G pool Any s' ∧ s'.cvt = s.cvt ∧
          ∃ bs, s.recs = bs ++ s'.recs ∧ bs.length = blocksFrom h s.cvt.readmapflag n i) ∨
        Tracks env G pool (Sincere env G) s') (readBlocks env h n i size) s := by
  induction n generalizing i size s with
  | zero => exact leadsTo_pure (.inl ⟨hs, rfl, [], rfl, rfl⟩)
  | succ n ih =>
    rw [readBlocks]
    refine LeadsTo.get_bind ?_
    by_cases hread : s.cvt.readmapflag = true ∨ h.cAddr i ≠ 0
    · rw [when, if_pos hread, blocksFrom, if_pos hread, skiprecWith, bind_assoc]
      refine (leadsTo_readtape_stays hG hs).bind fun r s₁ h₁ => ?_
      rw [pure_bind]
      obtain ⟨-, ⟨hs₁, hrecs, hcvt⟩ | ⟨hs₁, -⟩⟩ := h₁
      · refine (ih (i + 1) _ hs₁).mono (fun _ => id) fun _ s₂ h₂ => h₂.imp ?_ id
        rintro ⟨hs₂, hcvt₂, bs, hbs, hlen⟩
        refine ⟨hs₂, hcvt₂.trans hcvt, r :: bs, ?_, ?_⟩
        · rw [hrecs, hbs, List.cons_append]
        · rw [List.length_cons, hlen, hcvt, Nat.add_comm]
      · have hkeeps := keeps_readBlocks ((draws_readtape hG fun _ => id).skiprec) h n (i + 1)
          (if size ≤ 0 then size else size - tpBsize)
        exact (hkeeps.leadsTo hs₁).mono (fun _ h => h.any) fun _ _ h => .inr h
    · rw [when, if_neg hread, blocksFrom, if_neg hread, pure_bind, Nat.zero_add]
      exact ih (i + 1) _ hs

/-- After the volume has ended `getfile` stops at a sincere record. -/
theorem clean_searchHeader (fuel : ℕ) {s : State} (hs : Tracks env G pool (Sincere env G) s) :
    LeadsTo (Tracks env G pool (Sincere env G)) (fun _ => Ready env G pool (Sincere env G))
      (searchHeader env fuel) s := by
  induction fuel generalizing s with
  | zero => exact leadsTo_failure hs
  | succ fuel ih =>
    rw [searchHeader]
    refine ((draws_readtape hG fun _ => id).getspcl hG hs).bind fun _ s h => LeadsTo.get_bind ?_
    obtain ⟨hs, g, r, hg, hr, hspcl⟩ := h
    cases hbuf : s.spcl with
    | raw r => exact ih hs
    | good r h => exact leadsTo_pure (hs.ready hg hr hspcl)

theorem clean_fileLoop (fuel : ℕ) (size : ℤ) {s : State}
    (hs : Tracks env G pool (Sincere env G) s) :
    LeadsTo (Tracks env G pool (Sincere env G)) (fun _ => Ready env G pool (Sincere env G))
      (fileLoop env fuel size) s := by
  induction fuel generalizing size s with
  | zero => exact leadsTo_failure hs
  | succ fuel ih =>
    rw [fileLoop]
    refine LeadsTo.get_bind ?_
    cases s.spcl.view env.order with
    | none => exact leadsTo_failure hs
    | some h =>
      have hkeeps := keeps_readBlocks ((draws_readtape hG fun _ => id).skiprec) h h.cCount.toNat 0
        size
      refine (hkeeps.leadsTo hs).bind fun size s hs => ?_
      refine (clean_searchHeader hG _ hs).bind fun _ s hs => LeadsTo.get_bind ?_
      cases s.spcl.view env.order with
      | none => exact leadsTo_pure hs
      | some h => exact LeadsTo.ite (fun _ => ih size hs.tracks) fun _ => leadsTo_pure hs

/-- The next header is the first record that is accepted, or the volume has ended. -/
theorem leadsTo_searchHeader (fuel : ℕ) {s : State} (hs : Tracks env G pool Any s) :
    LeadsTo (Tracks env G pool Any)
      (fun _ s' => (Tracks env G pool Any s' ∧ ∃ ds r g h, s.recs = ds ++ r :: s'.recs ∧
          (∀ d ∈ ds, IsRefused env G d) ∧ G g ∧
          (convertheadBytes env.order r.bytes g).1 = some h ∧ s'.spcl = .good r h ∧
          s'.cvt = (convertheadBytes env.order r.bytes g).2) ∨
        Ready env G pool (Sincere env G) s') (searchHeader env fuel) s := by
  induction fuel generalizing s with
  | zero => exact leadsTo_failure hs
  | succ fuel ih =>
    rw [searchHeader]
    refine (leadsTo_getspcl_stays hG hs).bind fun _ s₁ h₁ => LeadsTo.get_bind ?_
    obtain ⟨hs₁, r, hrecs, hspcl, hcvt⟩ | ⟨hs₁, g, r, hg, hr, hspcl⟩ := h₁
    · cases hconv : (convertheadBytes env.order r.bytes s.cvt).1 with
      | none =>
        rw [hspcl, ofRecord_of_none hconv]
        refine (ih hs₁).mono (fun _ => id) fun _ s₂ h₂ => h₂.imp ?_ id
        rintro ⟨hs₂, ds, r', g, h, hrecs₂, hds, hrest⟩
        refine ⟨hs₂, r :: ds, r', g, h, ?_, ?_, hrest⟩
        · rw [hrecs, hrecs₂, List.cons_append]
        · exact List.forall_mem_cons.mpr ⟨⟨s.cvt, hs.cvt, hconv⟩, hds⟩
      | some h =>
        rw [hspcl, ofRecord_of_some hconv]
        refine leadsTo_pure (.inl ⟨hs₁, [], r, s.cvt, h, hrecs, ?_, hs.cvt, hconv, ?_, hcvt⟩)
        · exact fun d hd => absurd hd List.not_mem_nil
        · rw [hspcl, ofRecord_of_some hconv]
    · cases hbuf : s₁.spcl with
      | raw r =>
        exact (clean_searchHeader hG fuel hs₁).mono (fun _ h => h.any) fun _ _ h => .inr h
      | good r h => exact leadsTo_pure (.inr (hs₁.ready hg hr hspcl))

omit hG in
theorem Ready.any {s : State} (hs : Ready env G pool P s) : Ready env G pool Any s :=
  ⟨hs.tracks.any, hs.trusted⟩

/-- The end of a turn of the loop of `getfile`: the file may end here, or go on with another
header. -/
def loopEnd (env : Env) (fuel : ℕ) (size : ℤ) : Resync Unit := do
  let s ← get
  match s.spcl.view env.order with
  | none => pure ()
  | some h => when (0 < size ∧ h.cType = .addr) (fileLoop env fuel size)

theorem clean_loopEnd (fuel : ℕ) (size : ℤ) {s : State} (hs : Ready env G pool (Sincere env G) s) :
    LeadsTo (Tracks env G pool Any) (fun _ => Ready env G pool Any) (loopEnd env fuel size) s := by
  refine LeadsTo.get_bind ?_
  cases s.spcl.view env.order with
  | none => exact leadsTo_pure hs.any
  | some h =>
    refine LeadsTo.ite (fun _ => ?_) fun _ => leadsTo_pure hs.any
    exact (clean_fileLoop hG fuel size hs.tracks).mono (fun _ h => h.any) fun _ _ h => h.any

/-- `getfile` ends at a header that can be trusted if it is that of a file. -/
theorem leadsTo_fileLoop (fuel : ℕ) (size : ℤ) {s : State} (hs : Tracks env G pool Any s)
    (hfollows : ∀ h, s.spcl.view env.order = some h → ∀ r,
      Follows env G s.cvt.readmapflag h s.recs r → Dated env G r) :
    LeadsTo (Tracks env G pool Any) (fun _ => Ready env G pool Any) (fileLoop env fuel size) s := by
  induction fuel generalizing size s with
  | zero => exact leadsTo_failure hs
  | succ fuel ih =>
    rw [fileLoop]
    refine LeadsTo.get_bind ?_
    cases hview : s.spcl.view env.order with
    | none => exact leadsTo_failure hs
    | some h =>
      refine (leadsTo_readBlocks hG h _ _ size hs).bind fun size s₁ h₁ => ?_
      rcases h₁ with ⟨hs₁, hcvt, bs, hbs, hlen⟩ | hs₁
      · refine (leadsTo_searchHeader hG _ hs₁).bind fun _ s₂ h₂ => ?_
        rcases h₂ with ⟨hs₂, ds, r, g, h', hrecs, hds, hg, hconv, hspcl, hcvt₂⟩ | hs₂
        · have hrecs' : s.recs = bs ++ ds ++ r :: s₂.recs := by
            rw [hbs, hrecs, List.append_assoc]
          have hready : Ready env G pool Any s₂ := by
            refine ⟨hs₂, fun hlooks => ?_⟩
            rw [hspcl] at hlooks ⊢
            obtain ⟨-, h'', hview', htype⟩ := hlooks
            obtain rfl := Option.some.inj hview'
            refine ⟨r, h', rfl, ⟨g, hconv⟩, ?_⟩
            exact hfollows h hview r (hrecs' ▸ .next bs ds r s₂.recs hlen hds) g h' hg hconv htype
          refine LeadsTo.get_bind ?_
          rw [hspcl]
          refine LeadsTo.ite (fun hmore => ih size hs₂ fun h'' hview' r' hr' => ?_) fun _ =>
            leadsTo_pure hready
          rw [hspcl] at hview'
          obtain rfl : h' = h'' := Option.some.inj hview'
          have hflag : s₂.cvt.readmapflag = false := by
            rw [hcvt₂, readmapflag_convertheadBytes hconv, Spcl.isLongMap, hmore.2]
            rfl
          rw [hflag] at hr'
          exact hfollows h hview r' (hrecs' ▸ .addr bs ds r hlen hds hg hconv hmore.2 hr')
        · exact clean_loopEnd hG fuel size hs₂
      · exact ((clean_searchHeader hG _ hs₁).mono (fun _ h => h.any) fun _ _ => id).bind
          fun _ s₂ hs₂ => clean_loopEnd hG fuel size hs₂

omit hG in
/-- `panic` leaves the state alone. -/
theorem leadsTo_panic {c : Prop} [Decidable c] {I : State → Prop} {s : State} (hs : I s) :
    LeadsTo I (fun _ s' => s' = s) (when c (panic env)) s := by
  refine LeadsTo.ite (fun _ => ?_) fun _ => leadsTo_pure rfl
  exact LeadsTo.ite (fun _ => leadsTo_pure rfl) fun _ => leadsTo_failure hs

/-! ## Operations -/

theorem any_findinode {s : State} (hs : Ready env G pool Any s) :
    LeadsTo (Tracks env G pool Any) (fun _ => Tracks env G pool Any) (findinode env) s :=
  (draws_readtape hG fun _ _ => trivial).findinode hG hs

theorem tracks_getfile (readingmaps : Bool) (action : Action) {s : State}
    (hs : Tracks env G pool Any s)
    (hfollows : ∀ h, s.spcl.view env.order = some h → ∀ r,
      Follows env G s.cvt.readmapflag h s.recs r → Dated env G r) :
    Tracks env G pool Any ((OptionT.run (getfile env readingmaps action)).run s).2 := by
  have hs' : Tracks env G pool Any { s with action } := loose_tracks s _ rfl rfl rfl rfl rfl hs
  refine LeadsTo.run (LeadsTo.modify_bind (LeadsTo.get_bind ?_))
  dsimp only
  cases hview : s.spcl.view env.order with
  | none => exact leadsTo_failure hs'
  | some h =>
    refine (leadsTo_panic hs').bind fun _ s₁ h₁ => ?_
    subst h₁
    refine (leadsTo_panic hs').bind fun _ s₁ h₁ => ?_
    subst h₁
    refine leadsTo_of_run (run_catchRestart
      (fun s hs => loose_tracks s _ rfl rfl rfl rfl rfl hs) ?_)
    have hs'' : Tracks env G pool Any { s with action, gettingfile := true } :=
      loose_tracks s _ rfl rfl rfl rfl rfl hs
    refine LeadsTo.run (LeadsTo.modify_bind ?_)
    refine (leadsTo_fileLoop hG _ _ hs'' hfollows).bind fun _ s hs => ?_
    have hfind : LeadsTo (Tracks env G pool Any) (fun _ => Tracks env G pool Any)
        (when (readingmaps = false) (findinode env)) s :=
      LeadsTo.ite (fun _ => any_findinode hG hs) fun _ => leadsTo_pure hs.tracks
    exact hfind.bind fun _ s hs => leadsTo_pure (loose_tracks s _ rfl rfl rfl rfl rfl hs)

/-- The first record may be handed to `findinode` unseen. -/
theorem leadsTo_getspcl_head {s : State} (hs : Tracks env G pool Any s)
    (hhead : ∀ r ∈ s.recs.head?, Sincere env G r) :
    LeadsTo (Tracks env G pool Any) (fun _ => Ready env G pool Any) (getspcl env) s := by
  refine (leadsTo_getspcl_stays hG hs).mono (fun _ => id) fun _ s' h => ?_
  obtain ⟨hs', r, hrecs, hspcl, -⟩ | ⟨hs', g, r, hg, hr, hspcl⟩ := h
  · exact hs'.ready hs.cvt (hhead r (by rw [hrecs]; rfl)) hspcl
  · exact (hs'.ready hg hr hspcl).any

theorem leadsTo_setup {s : State} (hs : Tracks env G pool Any s)
    (hhead : ∀ r ∈ s.recs.head?, Sincere env G r) :
    LeadsTo (Tracks env G pool Any) (fun _ => Tracks env G pool Any) (setup env) s := by
  refine (leadsTo_getspcl_head hG hs hhead).bind fun _ s hs => LeadsTo.get_bind ?_
  cases s.spcl with
  | good r h => exact any_findinode hG hs
  | raw r =>
    have hpanic : LeadsTo (Tracks env G pool Any) (fun _ s' => s' = s) (panic env) s :=
      LeadsTo.ite (fun _ => leadsTo_pure rfl) fun _ => leadsTo_failure hs.tracks
    exact hpanic.bind fun _ s' h => h ▸ any_findinode hG hs

/-- The loop of `ReReadInodeFromTape` ends at a header that can be trusted if no other record passes
for the one it looks for. -/
theorem leadsTo_reReadLoop (theino fuel : ℕ)
    (hread : Draws env G pool (fun r => ∀ g, G g → Sought env theino (.ofRecord env g r) →
      LooksLikeInode env (.ofRecord env g r) → Trusted env (.ofRecord env g r)) (readtape env))
    {s : State}
    (hs : Tracks env G pool (fun r => ∀ g, G g → Sought env theino (.ofRecord env g r) →
      LooksLikeInode env (.ofRecord env g r) → Trusted env (.ofRecord env g r)) s) :
    LeadsTo (Tracks env G pool Any) (fun _ => Ready env G pool Any)
      (reReadLoop env theino fuel) s := by
  induction fuel generalizing s with
  | zero => exact leadsTo_failure hs.any
  | succ fuel ih =>
    rw [reReadLoop]
    refine ((hread.getspcl hG hs).mono (fun _ h => h.any) fun _ _ => id).bind fun _ s h =>
      LeadsTo.get_bind ?_
    obtain ⟨hs, g, r, hg, hr, hspcl⟩ := h
    cases hview : s.spcl.view env.order with
    | none => exact ih hs
    | some h =>
      refine LeadsTo.ite (fun hsought => leadsTo_pure ⟨?_, fun hlooks => ?_⟩) fun _ => ih hs
      · exact loose_tracks s _ rfl rfl rfl rfl rfl hs.any
      · change LooksLikeInode env s.spcl at hlooks
        change Trusted env s.spcl
        rw [hspcl] at hlooks hview ⊢
        exact hr g hg ⟨h, hview, hsought⟩ hlooks

end Steps

/-! ## Every run -/

/-- No header has been trusted wrongly so far. -/
structure Sound (env : Env) (s : State) : Prop where
  spcl : ∀ r h, s.spcl = .good r h → Accepted env r h
  described : ∀ b ∈ s.described, Trusted env b

theorem Tracks.sound {s : State} (hs : Tracks env G pool P s) : Sound env s :=
  ⟨hs.spcl, hs.described⟩

/-- At the start of an operation that meets the condition. -/
theorem Sound.tracks {s : State} (hs : Sound env s)
    (hanswers : ∀ newvol recs, .tape newvol recs ∈ s.answers → ∀ r ∈ recs,
      Sincere env (Flags env s) r)
    (hP : ∀ r ∈ s.recs, P r) : Tracks env (Flags env s) s.OnTape P s where
  cvt := ⟨id, .inl⟩
  recs r hr := ⟨.inl hr, hP r hr⟩
  answers newvol recs hmem r hr := ⟨.inr ⟨newvol, recs, hmem, hr⟩, hanswers newvol recs hmem r hr⟩
  spcl := hs.spcl
  described := hs.described

/-- An operation that meets the condition. -/
theorem Sound.call {op : Op} {s : State} (hs : Sound env s) (hmeets : Meets env op s) :
    Sound env ((OptionT.run (op.call env)).run s).2 := by
  obtain ⟨hanswers, hop⟩ := hmeets
  have hclosed := closed_flags env s
  have hany : Tracks env (Flags env s) s.OnTape Any s := hs.tracks hanswers fun _ _ => trivial
  cases op with
  | setup => exact (leadsTo_setup hclosed hany hop).run.sound
  | findinode => exact (any_findinode hclosed ⟨hany, hop⟩).run.sound
  | getvol nextvol =>
    have hgetvol : Keeps (Tracks env (Flags env s) s.OnTape Any)
        (getvolWith env (readtape env) nextvol (s.answers.length + 1)) :=
      Tracks.getvol hclosed (draws_readtape hclosed fun _ => id) (fun _ _ => trivial) _ _
    have hs' : Tracks env (Flags env s) s.OnTape Any
        { s with gettingfile := s.gettingfile && nextvol != 1 } :=
      loose_tracks s _ rfl rfl rfl rfl rfl hany
    exact (hgetvol _ hs').sound
  | getfile readingmaps action => exact (tracks_getfile hclosed readingmaps action hany hop).sound
  | reReadFromTape =>
    have hread := (leadsTo_getspcl_head hclosed hany hop).bind fun _ s => any_findinode hclosed
    exact hread.run.sound
  | reReadInodeFromTape theino =>
    have htracks := hs.tracks hanswers hop
    have hloop := leadsTo_reReadLoop hclosed theino env.fuel
      (draws_readtape hclosed fun r hr g hg _ => hr g hg) htracks
    exact (hloop.bind fun _ s => any_findinode hclosed).run.sound
  | gotoTapePos recs => exact ⟨hs.spcl, hs.described⟩

/-- Nothing has been described yet, and `spcl` is as `gethead` left it. -/
structure Start (env : Env) (s : State) : Prop where
  spcl : ∀ r h, s.spcl = .good r h → Accepted env r h
  described : s.described = []

/-- File data: the type of an inode header and the magic number, and zeros otherwise. -/
def data : Block where
  bytes := [2, 0, 0, 0] ++ List.replicate 20 0 ++ [0x6c, 0xea, 0, 0] ++ List.replicate 996 0
  length_bytes := by decide +kernel

end Resync

end DumpRestore
