import DumpRestore.Restore.Effects
import DumpRestore.Restore.RecordStream

/-!
# The loops over extended attributes

A file on tape may be followed by objects whose headers have `DR_EXTATTRIBUTES` set. Four loops of
restore go through them while the header in `spcl` has that flag: those of `extractattr`,
`compareattr` and `skipxattr` (`restore/tape.c`), and the one in `extractdirs` (`restore/dirs.c`).
They differ in what they do with an attribute, and `whileFlagged` is the loop over such a body.

* `extractattr_whileFlagged`: the loop of `extractattr` is that of the program in `Restore.Effects`;
* `AttrLoop.ConsumesExactly`: a turn of the loop for each attribute, and nothing else is consumed;
* `AttrLoop.Handles`: what an attribute must be like for one of the loops;
* `consumesExactly_iff` is the main theorem.

Everything happens on the mounted volume: where a volume ends, `getvol` abandons a file that is
skipped, and this is the subject of `Restore.Resync`.
-/

namespace DumpRestore.ExtAttributes

open Restore (xattrMaxsize World Flags Env)

/-! ## The functions of restore -/

/-- `EXT_MACOSFNDRINFO`. -/
def extMacosfndrinfo : ℤ := 1

/-- `EXT_MACOSRESFORK`. -/
def extMacosresfork : ℤ := 2

/-- `spcl.c_flags & DR_EXTATTRIBUTES`. -/
def flagged (h : Spcl) : Bool := h.cFlags &&& drExtattributes != 0

/-- `skipfile`. -/
def skipfile (fssize : ℕ) (h : Spcl) (t : Tape) : Option (Spcl × Tape) :=
  (getfile fssize false h t).map Prod.snd

/-- `xtrxattr`: what a call adds to the `xattrlen` bytes of `xattrbuf`. Holes are left to
`xtrnull`. -/
def xtrxattr (xattrbuf : List UInt8) : Call → List UInt8
  | .fill buf size =>
    if xattrbuf.length + size.toNat > xattrMaxsize then xattrbuf
    else xattrbuf ++ (buf.flatMap Block.bytes).take size.toNat
  | .skip _ | .ftruncate _ => xattrbuf

/-- `readxattr`: the buffer, or `none` for an attribute that is too big, which is skipped. -/
def readxattr (fssize : ℕ) (h : Spcl) (t : Tape) : Option (Option (List UInt8) × Spcl × Tape) :=
  if h.cDinode.diSize > xattrMaxsize then (skipfile fssize h t).map fun p => (none, p)
  else (getfile fssize false h { t with readmapflag := true }).map fun (calls, h, t) =>
    let xattrbuf := calls.foldl xtrxattr []
    (some (xattrbuf ++ List.replicate (xattrMaxsize - xattrbuf.length) 0), h,
      { t with readmapflag := false })

/-- The loops. -/
inductive AttrLoop
  | extractattr
  | compareattr
  | skipxattr
  | extractdirs
  deriving DecidableEq, Repr

/-- The body of a loop: the buffer that is handed on, if there is one, and the header and the input
after it. -/
def AttrLoop.body (fssize : ℕ) (l : AttrLoop) (h : Spcl) (t : Tape) :
    Option (Option (List UInt8) × Spcl × Tape) :=
  let skip (h : Spcl) (t : Tape) := (skipfile fssize h t).map fun p => (none, p)
  match l with
  | .extractattr =>
    if h.cExtattributes = extMacosfndrinfo then skip h t
    else if h.cExtattributes = extMacosresfork then skip h t
    else if h.cExtattributes = extXattr then do
      let (buf, h, t) ← readxattr fssize h t
      match buf with
      | some buf => some (some buf, h, t)
      -- There is no break here, and the default case follows.
      | none => skip h t
    else skip h t
  | .compareattr =>
    if h.cExtattributes = extMacosfndrinfo then skip h t
    else if h.cExtattributes = extMacosresfork then skip h t
    else if h.cExtattributes = extXattr then readxattr fssize h t
    else skip h t
  | .skipxattr => skip h t
  | .extractdirs =>
    if h.cExtattributes = extMacosfndrinfo then skip h t
    else if h.cExtattributes = extMacosresfork then skip h t
    else if h.cExtattributes = extXattr then readxattr fssize h t
    -- There is no default case.
    else some (none, h, t)

/-- `while (spcl.c_flags & DR_EXTATTRIBUTES)`, for at most `fuel` tests: the header and the records
that are left at each test, and the buffers handed on. -/
def whileFlagged (body : Spcl → Tape → Option (Option (List UInt8) × Spcl × Tape)) :
    (fuel : ℕ) → Spcl → Tape → Option (List (Spcl × List Rec) × List (List UInt8))
  | 0, _, _ => none
  | fuel + 1, h, t =>
    if flagged h then do
      let (buf, h', t') ← body h t
      let (tests, bufs) ← whileFlagged body fuel h' t'
      some ((h, t.recs) :: tests, buf.toList ++ bufs)
    else some ([(h, t.recs)], [])

/-! ## The programs of restore -/

section Programs

variable {o : Flags} {env : Env} {w w' : World} {α β γ δ : Type}

/-- The program ends just if there is the result `r`, and then with the header and the input that
this has. -/
def Agrees (x : Restore α) (w : World) (r : Option (β × Spcl × Tape)) (Q : α → World → β → Prop) :
    Prop :=
  (r = none → ((OptionT.run x).run w).1 = none) ∧
    ∀ b h t, r = some (b, h, t) → ∃ a w', (OptionT.run x).run w = (some a, w') ∧
      w'.spcl = h ∧ w'.tape = t ∧ Q a w' b

theorem agrees_of_run {x : Restore α} {Q : α → World → β → Prop} {a : α} {b : β}
    (hrun : (OptionT.run x).run w = (some a, w')) (hq : Q a w' b) :
    Agrees x w (some (b, w'.spcl, w'.tape)) Q := by
  refine ⟨fun heq => (by cases heq), fun b' h t heq => ?_⟩
  cases heq
  exact ⟨a, w', hrun, rfl, rfl, hq⟩

theorem Agrees.bind {x : Restore α} {f : α → Restore γ} {r : Option (β × Spcl × Tape)}
    {k : β × Spcl × Tape → Option (δ × Spcl × Tape)} {Q : α → World → β → Prop}
    {R : γ → World → δ → Prop} (hx : Agrees x w r Q)
    (hf : ∀ a w' b, Q a w' b → Agrees (f a) w' (k (b, w'.spcl, w'.tape)) R) :
    Agrees (x >>= f) w (r.bind k) R := by
  cases r with
  | none =>
    refine ⟨fun _ => ?_, fun _ _ _ heq => (by cases heq)⟩
    have hnone := hx.1 rfl
    rw [OptionT.run_bind, Option.elimM, StateT.run_bind]
    rcases hrun : (OptionT.run x).run w with ⟨_ | a, w'⟩
    · rfl
    · rw [hrun] at hnone
      cases hnone
  | some p =>
    obtain ⟨b, h, t⟩ := p
    obtain ⟨a, w', hrun, rfl, rfl, hq⟩ := hx.2 b h t rfl
    have hsame := run_bind_of_eq f hrun
    refine ⟨fun hnone => ?_, fun c h t hsome => ?_⟩
    · rw [hsame]
      exact (hf a w' b hq).1 hnone
    · rw [hsame]
      exact (hf a w' b hq).2 c h t hsome

theorem agrees_get_bind {f : World → Restore α} {r : Option (β × Spcl × Tape)}
    {Q : α → World → β → Prop} (h : Agrees (f w) w r Q) : Agrees (get >>= f) w r Q := h

theorem agrees_set_bind {f : PUnit → Restore α} {r : Option (β × Spcl × Tape)}
    {Q : α → World → β → Prop} (h : Agrees (f ⟨⟩) w' r Q) : Agrees (set w' >>= f) w r Q := h

theorem Agrees.mono {x : Restore α} {r : Option (β × Spcl × Tape)} {Q R : α → World → β → Prop}
    (hx : Agrees x w r Q) (h : ∀ a w' b, Q a w' b → R a w' b) : Agrees x w r R := by
  refine ⟨hx.1, fun b hd t heq => ?_⟩
  obtain ⟨a, w', hrun, hh, ht, hq⟩ := hx.2 b hd t heq
  exact ⟨a, w', hrun, hh, ht, h a w' b hq⟩

/-- A call of `getfile` whose functions do not touch the tape. -/
theorem agrees_getfileWith (readingmaps : Bool) {fill : List UInt8 → ℤ → Restore Unit}
    {skip : ℤ → Restore Unit} {f : List UInt8 → Call → List UInt8}
    (hstep : ∀ c w, ∃ w', (OptionT.run (Restore.deliver env fill skip c)).run w = (some (), w') ∧
      w'.spcl = w.spcl ∧ w'.tape = w.tape ∧ w'.xattrbuf = f w.xattrbuf c) :
    Agrees (Restore.getfileWith env readingmaps fill skip) w
      (getfile env.fssize readingmaps w.spcl w.tape)
      fun _ w' calls => w'.xattrbuf = calls.foldl f w.xattrbuf := by
  have hcalls (calls : List Call) (w : World) : ∃ w',
      (OptionT.run (calls.forM (Restore.deliver env fill skip))).run w = (some (), w') ∧
        w'.spcl = w.spcl ∧ w'.tape = w.tape ∧ w'.xattrbuf = calls.foldl f w.xattrbuf := by
    induction calls generalizing w with
    | nil => exact ⟨w, rfl, rfl, rfl, rfl⟩
    | cons c calls ih =>
      obtain ⟨w₁, hrun, hspcl, htape, hbuf⟩ := hstep c w
      obtain ⟨w₂, hrest, hspcl₂, htape₂, hbuf₂⟩ := ih w₁
      refine ⟨w₂, ?_, hspcl₂.trans hspcl, htape₂.trans htape, by rw [hbuf₂, hbuf, List.foldl_cons]⟩
      exact (run_bind_of_eq _ hrun).trans hrest
  refine agrees_get_bind ?_
  cases hfile : getfile env.fssize readingmaps w.spcl w.tape with
  | none => exact ⟨fun _ => rfl, fun _ _ _ heq => (by cases heq)⟩
  | some p =>
    refine ⟨fun heq => (by cases heq), fun calls h t heq => ?_⟩
    obtain rfl := Option.some.inj heq
    obtain ⟨w', hrun, hspcl, htape, hbuf⟩ := hcalls calls { w with spcl := h, tape := t }
    exact ⟨(), w', hrun, hspcl, htape, hbuf⟩

/-- A program behind it that does not touch the tape. -/
theorem Agrees.andThen {x : Restore α} {f : α → Restore γ} {r : Option (β × Spcl × Tape)}
    {Q : α → World → β → Prop} {R : γ → World → δ → Prop} (hx : Agrees x w r Q) (g : β → δ)
    (hf : ∀ a w' b, Q a w' b → ∃ c w'', (OptionT.run (f a)).run w' = (some c, w'') ∧
      w''.spcl = w'.spcl ∧ w''.tape = w'.tape ∧ R c w'' (g b)) :
    Agrees (x >>= f) w (r.map fun p => (g p.1, p.2)) R := by
  rw [Option.map_eq_bind]
  refine hx.bind fun a w' b hq => ?_
  obtain ⟨c, w'', hrun, hspcl, htape, hR⟩ := hf a w' b hq
  have hagrees := agrees_of_run hrun hR
  rwa [hspcl, htape] at hagrees

/-- `skipfile`. -/
theorem agrees_skipfile (env : Env) (w : World) : Agrees (Restore.skipfile env) w
    ((skipfile env.fssize w.spcl w.tape).map fun p => ((), p))
    fun _ w' _ => w'.xattrbuf = w.xattrbuf := by
  have hstep (c : Call) (w : World) : ∃ w', (OptionT.run (Restore.deliver env
      (fun _ _ => pure ()) (fun _ => pure ()) c)).run w = (some (), w') ∧
        w'.spcl = w.spcl ∧ w'.tape = w.tape ∧ w'.xattrbuf = w.xattrbuf := by
    cases c with
    | fill buf size => exact ⟨w, rfl, rfl, rfl, rfl⟩
    | skip size => exact ⟨w, rfl, rfl, rfl, rfl⟩
    | ftruncate size => exact ⟨_, rfl, rfl, rfl, rfl⟩
  have hfold (buf : List UInt8) (calls : List Call) : calls.foldl (fun buf _ => buf) buf = buf := by
    induction calls with
    | nil => rfl
    | cons c calls ih => exact ih
  have hfile := (agrees_getfileWith (w := w) (f := fun buf _ => buf) false hstep).andThen
    (f := pure) (R := fun _ w' _ => w'.xattrbuf = w.xattrbuf) (fun _ => ()) fun a w' calls hq =>
      ⟨a, w', rfl, rfl, rfl, hq.trans (hfold _ calls)⟩
  rw [bind_pure] at hfile
  rw [skipfile, Option.map_map]
  exact hfile

/-- `readxattr`. -/
theorem agrees_readxattr : Agrees (Restore.readxattr env) w (readxattr env.fssize w.spcl w.tape)
    fun ok w' buf => ok = buf.isSome ∧ w'.xattrbuf = buf.getD w.xattrbuf := by
  refine agrees_get_bind ?_
  rw [readxattr]
  by_cases hbig : w.spcl.cDinode.diSize > xattrMaxsize
  · rw [if_pos hbig, if_pos hbig]
    have hskip := (agrees_skipfile env w).andThen (f := fun _ => pure false)
      (R := fun ok w' buf => ok = buf.isSome ∧ w'.xattrbuf = buf.getD w.xattrbuf)
      (fun _ => none) fun a w' _ hq => ⟨false, w', rfl, rfl, rfl, rfl, hq⟩
    rw [Option.map_map] at hskip
    exact hskip
  · rw [if_neg hbig, if_neg hbig]
    set w₁ : World := { w with xattrbuf := [], tape := { w.tape with readmapflag := true } }
    have hstep (c : Call) (w : World) : ∃ w', (OptionT.run (Restore.deliver env
        Restore.xtrxattr (fun _ => pure ()) c)).run w = (some (), w') ∧
          w'.spcl = w.spcl ∧ w'.tape = w.tape ∧ w'.xattrbuf = xtrxattr w.xattrbuf c := by
      cases c with
      | fill buf size =>
        refine ⟨if w.xattrbuf.length + size.toNat > xattrMaxsize then w
          else { w with xattrbuf := w.xattrbuf ++ (Call.fill buf size).bytes }, rfl, ?_⟩
        rw [xtrxattr]
        by_cases hfull : w.xattrbuf.length + size.toNat > xattrMaxsize
        · rw [if_pos hfull, if_pos hfull]
          exact ⟨rfl, rfl, rfl⟩
        · rw [if_neg hfull, if_neg hfull]
          exact ⟨rfl, rfl, rfl⟩
      | skip size => exact ⟨w, rfl, rfl, rfl, rfl⟩
      | ftruncate size => exact ⟨_, rfl, rfl, rfl, rfl⟩
    rw [Option.map_eq_bind]
    refine agrees_set_bind ?_
    refine (agrees_getfileWith (w := w₁) false hstep).bind fun _ w' calls hbuf => ?_
    have hbuf' : w'.xattrbuf = calls.foldl xtrxattr [] := hbuf
    let v : World := { w' with
      xattrbuf := w'.xattrbuf ++ List.replicate (xattrMaxsize - w'.xattrbuf.length) 0
      tape := { w'.tape with readmapflag := false } }
    refine agrees_of_run (a := true) (show _ = (some true, v) from rfl) ⟨rfl, ?_⟩
    exact congrArg (fun buf => buf ++ List.replicate (xattrMaxsize - buf.length) 0) hbuf'

/-- `xattr_extract`. -/
theorem run_xattrExtract (o : Flags) (env : Env) (path : String) (buffer : List UInt8)
    (w : World) : ∃ w',
    (OptionT.run (Restore.xattrExtract o env path buffer)).run w = (some (), w') ∧
      w'.spcl = w.spcl ∧ w'.tape = w.tape ∧ w'.xattrbuf = w.xattrbuf := by
  rw [Restore.xattrExtract]
  induction env.xattrs buffer generalizing w with
  | nil => exact ⟨w, rfl, rfl, rfl, rfl⟩
  | cons name names ih =>
    rw [Restore.xattrWalk]
    by_cases hn : o.nflag = true
    · rw [if_pos hn]
      exact ih w
    · rw [if_neg hn]
      set w₁ : World := { w with calls := w.calls ++ [.lsetxattr path name] }
      have hsys : (OptionT.run (Restore.sys env (.lsetxattr path name))).run w =
        (some (env.fs w.calls (.lsetxattr path name)), w₁) := rfl
      rw [run_bind_of_eq _ hsys]
      cases env.fs w.calls (.lsetxattr path name) with
      | true =>
        obtain ⟨w', hrun, hspcl, htape, hbuf⟩ := ih w₁
        exact ⟨w', hrun, hspcl, htape, hbuf⟩
      | false => exact ⟨w₁, rfl, rfl, rfl, rfl⟩

theorem agrees_skip (env : Env) (w : World) : Agrees (Restore.skipfile env) w
    ((skipfile env.fssize w.spcl w.tape).map fun p => ((none : Option (List UInt8)), p))
    fun _ w' buf => buf = none ∧ w'.xattrbuf = w.xattrbuf := by
  have h := (agrees_skipfile env w).andThen (f := pure)
    (R := fun _ w' buf => buf = none ∧ w'.xattrbuf = w.xattrbuf)
    (fun _ => (none : Option (List UInt8))) fun a w' _ hq => ⟨a, w', rfl, rfl, rfl, rfl, hq⟩
  rw [bind_pure, Option.map_map] at h
  exact h

/-- The turn is the body of `AttrLoop.extractattr`. -/
theorem agrees_extractattrTurn (o : Flags) (env : Env) (path : String) (w : World) :
    Agrees (Restore.extractattrTurn o env path) w
    (AttrLoop.extractattr.body env.fssize w.spcl w.tape)
    fun _ w' buf => w'.xattrbuf = buf.getD w.xattrbuf := by
  have hskip (w : World) : Agrees (Restore.skipfile env) w
      ((skipfile env.fssize w.spcl w.tape).map fun p => ((none : Option (List UInt8)), p))
      fun _ w' buf => w'.xattrbuf = buf.getD w.xattrbuf :=
    (agrees_skip env w).mono fun _ _ _ hq => by rw [hq.1, hq.2]; rfl
  refine agrees_get_bind ?_
  rw [AttrLoop.body]
  dsimp only
  by_cases hinfo : w.spcl.cExtattributes = extMacosfndrinfo
  · rw [if_pos hinfo, if_pos (by rw [hinfo]; decide)]
    exact hskip w
  by_cases hfork : w.spcl.cExtattributes = extMacosresfork
  · rw [if_neg hinfo, if_pos hfork, if_pos (by rw [hfork]; decide)]
    exact hskip w
  have hmacos : w.spcl.cExtattributes ∉ Restore.extMacos := by
    intro hmem
    rcases List.mem_cons.mp hmem with h | h
    · exact hinfo h
    · exact hfork (List.mem_singleton.mp h)
  rw [if_neg hinfo, if_neg hfork, if_neg hmacos]
  by_cases hxattr : w.spcl.cExtattributes = extXattr
  · rw [if_pos hxattr, if_pos hxattr]
    refine agrees_readxattr.bind fun ok w' buf hq => ?_
    cases buf with
    | none =>
      obtain ⟨rfl, hbuf⟩ := hq
      refine (hskip w').mono fun _ w'' buf hq => ?_
      rw [hq, hbuf]
      rfl
    | some buf =>
      obtain ⟨rfl, hbuf⟩ := hq
      obtain ⟨w'', hrun, hspcl, htape, hbuf'⟩ := run_xattrExtract o env path
        w'.xattrbuf w'
      have hagrees := agrees_of_run (Q := fun _ w' b => w'.xattrbuf = b.getD w.xattrbuf)
        (b := some buf) hrun (hbuf'.trans hbuf)
      rw [hspcl, htape] at hagrees
      exact hagrees
  · rw [if_neg hxattr, if_neg hxattr]
    exact hskip w

/-- **The two models of `extractattr` make the same turns**: the program of restore ends just if
`whileFlagged` does, with the header and the records of its last test, and the last buffer that is
handed on is in `xattrbuf`. -/
theorem extractattr_whileFlagged (o : Flags) (env : Env) (path : String) (fuel : ℕ) (w : World) :
    (whileFlagged (AttrLoop.extractattr.body env.fssize) fuel w.spcl w.tape = none →
      ((OptionT.run (Restore.extractattrLoop o env path fuel)).run w).1 = none) ∧
    ∀ tests bufs, whileFlagged (AttrLoop.extractattr.body env.fssize) fuel w.spcl w.tape =
        some (tests, bufs) →
      ∃ w', (OptionT.run (Restore.extractattrLoop o env path fuel)).run w = (some (), w') ∧
        tests.getLast? = some (w'.spcl, w'.tape.recs) ∧
        w'.xattrbuf = bufs.getLast?.getD w.xattrbuf := by
  induction fuel generalizing w with
  | zero => exact ⟨fun _ => rfl, fun _ _ heq => (by cases heq)⟩
  | succ fuel ih =>
    have hget : (get : Restore World).run.run w = (some w, w) := rfl
    rw [whileFlagged, Restore.extractattrLoop, run_bind_of_eq _ hget]
    by_cases hflag : w.spcl.cFlags &&& drExtattributes = 0#32
    · have hno : ¬flagged w.spcl = true := by
        rw [flagged, hflag]
        decide
      rw [if_pos hflag, if_neg hno]
      refine ⟨fun heq => (by cases heq), fun tests bufs heq => ?_⟩
      cases heq
      exact ⟨w, rfl, rfl, rfl⟩
    · have hyes : flagged w.spcl = true := bne_iff_ne.mpr hflag
      rw [if_neg hflag, if_pos hyes]
      have hturn := agrees_extractattrTurn o env path w
      cases hbody : AttrLoop.extractattr.body env.fssize w.spcl w.tape with
      | none =>
        refine ⟨fun _ => ?_, fun _ _ heq => (by cases heq)⟩
        have hnone := hturn.1 hbody
        rw [OptionT.run_bind, Option.elimM, StateT.run_bind]
        rcases hrun : (OptionT.run (Restore.extractattrTurn o env path)).run w with ⟨_ | a, w'⟩
        · rfl
        · rw [hrun] at hnone
          cases hnone
      | some p =>
        obtain ⟨buf, h, t⟩ := p
        obtain ⟨_, w₁, hrun, rfl, rfl, hbuf⟩ := hturn.2 buf h t hbody
        rw [run_bind_of_eq _ hrun]
        simp only [Option.bind_eq_bind, Option.bind_some]
        cases hrest : whileFlagged (AttrLoop.extractattr.body env.fssize) fuel w₁.spcl w₁.tape with
        | none => exact ⟨fun _ => (ih w₁).1 hrest, fun _ _ heq => (by cases heq)⟩
        | some q =>
          obtain ⟨tests, bufs⟩ := q
          refine ⟨fun heq => (by cases heq), fun tests' bufs' heq => ?_⟩
          cases heq
          obtain ⟨w', hrun', hlast, hbuf'⟩ := (ih w₁).2 tests bufs hrest
          refine ⟨w', hrun', ?_, ?_⟩
          · rw [List.getLast?_cons, hlast]
            rfl
          · rw [hbuf', hbuf, List.getLast?_append]
            cases bufs.getLast? <;> cases buf <;> rfl

end Programs
/-! ## Attributes on tape -/

/-- An extended attribute on tape: a header of type `TS_INODE` with the flag set, the blocks it
announces, and the segments that continue it. -/
structure Attr extends Segment where
  more : List Segment
  type : header.cType = .inode
  accepted : header.accepted = true
  flagged : flagged header = true
  continues : ∀ g ∈ more, g.Continues header.cDate

/-- The records of the segments that continue an attribute. -/
def Attr.moreRecs (a : Attr) : List Rec := a.more.flatMap Segment.recs

/-- The first header of attributes that are followed by `next`. -/
def first (next : Spcl) : List Attr → Spcl
  | [] => next
  | a :: _ => a.header

/-- The records after that header. -/
def left (next : Spcl) (rest : List Rec) : List Attr → List Rec
  | [] => rest
  | a :: as => dataRecs a.blocks ++ (a.moreRecs ++ .spcl (first next as) :: left next rest as)

/-- The input, with `first next as` in `spcl`. -/
structure OnTape (as : List Attr) (next : Spcl) (rest : List Rec) (t : Tape) : Prop where
  recs : t.recs = left next rest as
  vols : t.vols = []
  flag : as ≠ [] → t.readmapflag = false
  dates : ∀ a ∈ as, a.header.cDate = t.dumpdate
  follows : Follows t.dumpdate next
  unflagged : flagged next = false

/-- The header and the records left at each test of a loop that makes a turn for each attribute. -/
def turns (next : Spcl) (rest : List Rec) : List Attr → List (Spcl × List Rec)
  | [] => [(next.patch, rest)]
  | a :: as => (a.header, left next rest (a :: as)) :: turns next rest as

/-- The loop ends, after a turn for each attribute, at the header `next`. -/
def AttrLoop.ConsumesExactly (fssize : ℕ) (l : AttrLoop) (as : List Attr) (next : Spcl)
    (rest : List Rec) (t : Tape) : Prop :=
  ∃ fuel bufs, whileFlagged (l.body fssize) fuel (first next as).patch t =
    some (turns next rest as, bufs)

/-- Reading a record for each entry of `c_addr`, zero or not, stays among the records of the
attribute. -/
def Attr.ReadWhole (a : Attr) : Prop := a.blocks.countP Option.isNone ≤ a.moreRecs.length

/-- What a loop asks of an attribute. -/
def AttrLoop.Handles (l : AttrLoop) (a : Attr) : Prop :=
  match l with
  | .skipxattr => True
  | .compareattr => a.header.cExtattributes = extXattr →
      a.header.cDinode.diSize ≤ xattrMaxsize → a.ReadWhole
  | .extractattr => a.header.cExtattributes = extXattr →
      a.header.cDinode.diSize ≤ xattrMaxsize ∧ a.ReadWhole
  | .extractdirs =>
      a.header.cExtattributes ∈ [extMacosfndrinfo, extMacosresfork, extXattr] ∧
      (a.header.cExtattributes = extXattr →
        a.header.cDinode.diSize ≤ xattrMaxsize → a.ReadWhole)

/-! ## One object -/

section Objects

variable {fssize : ℕ} {a : Attr} {as : List Attr} {next h' : Spcl} {rest : List Rec} {t t' u : Tape}

theorem reads_of_recs {recs rest : List Rec} {t : Tape} (h : t.recs = recs ++ rest) :
    t.Reads recs (t.at recs.length rest) := by
  induction recs generalizing t with
  | nil => exact congrArg Tape.pos (t.at_zero h).symm
  | cons r recs ih =>
    refine ⟨_, readtape_at h, ?_⟩
    have := ih (t := t.at 1 (recs ++ rest)) rfl
    rwa [Tape.at_at, Nat.add_comm 1] at this

theorem first_patch (as : List Attr) (hne : as ≠ []) (next : Spcl) :
    (first next as).patch = first next as := by
  cases as with
  | nil => exact absurd rfl hne
  | cons a as => rw [first, Spcl.patch, a.type]

theorem OnTape.labelled (h : OnTape as next rest t) : t.Labelled := fun v hv => by
  rw [h.vols] at hv
  exact nomatch hv

theorem OnTape.total (h : OnTape as next rest t) : t.total = t.recs.length := by
  simp [Tape.total, h.vols]

theorem OnTape.tail_first_follows (h : OnTape (a :: as) next rest t) :
    Follows t.dumpdate (first next as) := by
  cases as with
  | nil => exact h.follows
  | cons b as =>
    exact ⟨b.accepted, by simp [first, b.type], h.dates b (by simp)⟩

theorem OnTape.more (h : OnTape (a :: as) next rest t) :
    ∀ g ∈ a.more, g.Continues t.dumpdate := fun g hg =>
  h.dates a List.mem_cons_self ▸ a.continues g hg

/-- The input after the first attribute and the header that follows it. -/
def after (t : Tape) (a : Attr) (as : List Attr) (next : Spcl) (rest : List Rec) : Tape :=
  t.at ((dataRecs a.blocks).length + (a.moreRecs.length + 1)) (left next rest as)

theorem OnTape.reads (h : OnTape (a :: as) next rest t) :
    t.Reads (dataRecs a.blocks ++ (a.moreRecs ++ [Rec.spcl (first next as)]))
      (after t a as next rest) := by
  have hrecs : t.recs = (dataRecs a.blocks ++ (a.moreRecs ++ [Rec.spcl (first next as)])) ++
      left next rest as := by
    rw [h.recs, left]
    simp
  have := reads_of_recs hrecs
  rwa [List.length_append, List.length_append, List.length_singleton] at this

/-- The input at the header after the first attribute. -/
theorem OnTape.tail (h : OnTape (a :: as) next rest t)
    (hpos : t'.pos = (after t a as next rest).pos)
    (hflag : as ≠ [] → t'.readmapflag = false) : OnTape as next rest t' := by
  obtain ⟨b, rfl⟩ := pos_eq_iff.mp hpos.symm
  exact ⟨rfl, h.vols, hflag, fun a' ha' => h.dates a' (List.mem_cons_of_mem _ ha'), h.follows,
    h.unflagged⟩

theorem isLongMap_first (hne : as ≠ []) : (first next as).isLongMap = false := by
  cases as with
  | nil => exact absurd rfl hne
  | cons a as => simp [first, Spcl.isLongMap, SpclType.isMap, a.type]

theorem Attr.magic (a : Attr) : a.header.cMagic = nfsMagic := cMagic_of_accepted a.accepted

/-- `skipfile` consumes an attribute of any size. -/
theorem skipfile_attr (fssize : ℕ) (h : OnTape (a :: as) next rest t) :
    ∃ t', skipfile fssize a.header t = some ((first next as).patch, t') ∧
      OnTape as next rest t' := by
  obtain ⟨calls, t', hget, hat⟩ := getfile_reads fssize a.type a.magic a.count a.addr
    (by rw [extra_of_flag true _ (h.flag (List.cons_ne_nil _ _))]; exact Nat.zero_le _)
    h.more h.tail_first_follows h.labelled h.reads
  refine ⟨t', by rw [skipfile, hget]; rfl, h.tail hat.reads fun hne => ?_⟩
  rw [hat.flag, isLongMap_first hne]

theorem length_dataRecs_add_countP (bs : List (Option Block)) :
    (dataRecs bs).length + bs.countP Option.isNone = bs.length := by
  induction bs with
  | nil => rfl
  | cons b bs ih => cases b <;> simp <;> omega

/-- Among the first `n` blocks, those without data. -/
theorem entries_take (bs : List (Option Block)) (n : ℕ) :
    min n bs.length ≤ (dataRecs bs).length + (bs.take n).countP Option.isNone ∧
      (n < bs.length ∨ (bs.take n).countP Option.isNone = bs.countP Option.isNone) := by
  have hdata : (dataRecs (bs.take n)).length ≤ (dataRecs bs).length :=
    ((List.take_sublist n bs).filterMap _).length_le
  have hsplit : (dataRecs (bs.take n)).length + (bs.take n).countP Option.isNone =
      (bs.take n).length := length_dataRecs_add_countP _
  rw [List.length_take] at hsplit
  refine ⟨by omega, ?_⟩
  rcases Nat.lt_or_ge n bs.length with hlt | hge
  · exact .inl hlt
  · exact .inr (by rw [List.take_of_length_le hge])

/-- While the flag is set, a record is read for each zero entry as far as the volume goes. -/
theorem extra_of_map (bs : List (Option Block)) (hflag : t.readmapflag = true) :
    extra true bs t = (bs.take (t.recs.length + 1)).countP Option.isNone := by
  rw [extra, hflag]
  rfl

/-- `readxattr` consumes an attribute that it does not find too big, if it reads no records after
it. -/
theorem readxattr_attr (fssize : ℕ) (h : OnTape (a :: as) next rest t)
    (hsize : a.header.cDinode.diSize ≤ xattrMaxsize) (hwhole : a.ReadWhole) :
    ∃ buf t', readxattr fssize a.header t = some (some buf, (first next as).patch, t') ∧
      OnTape as next rest t' := by
  have hreads : Tape.Reads { t with readmapflag := true } _ _ := h.reads.congr (t := t) rfl
  have hextra : extra true a.blocks { t with readmapflag := true } ≤ a.moreRecs.length := by
    rw [extra_of_map _ rfl]
    exact ((List.take_sublist ..).countP_le ..).trans hwhole
  obtain ⟨calls, t', hget, hat⟩ := getfile_reads fssize a.type a.magic a.count a.addr
    hextra h.more h.tail_first_follows h.labelled hreads
  have hno : ¬a.header.cDinode.diSize > xattrMaxsize := by omega
  refine ⟨_, { t' with readmapflag := false }, by rw [readxattr, if_neg hno, hget]; rfl,
    h.tail ?_ fun _ => rfl⟩
  exact hat.reads

/-- `getfile` never stops before the header after the first one it reads. -/
theorem length_skipfile_lt {h : Spcl} (hl : t.Labelled)
    (hskip : skipfile fssize h t = some (h', t')) : t'.recs.length < t.total := by
  obtain ⟨⟨calls, h'', t''⟩, hget, hp⟩ := Option.map_eq_some_iff.mp hskip
  obtain ⟨rfl, rfl⟩ := Prod.mk.inj hp
  have := total_getfile_lt hl hget
  rw [Tape.total] at this
  omega

/-- An attribute with too many zero entries takes records after it. -/
theorem length_readxattr_lt (h : OnTape (a :: as) next rest t)
    (hsize : a.header.cDinode.diSize ≤ xattrMaxsize) (hwhole : ¬a.ReadWhole)
    {buf : Option (List UInt8)} (hread : readxattr fssize a.header t = some (buf, h', t')) :
    t'.recs.length < (left next rest as).length := by
  have hno : ¬a.header.cDinode.diSize > xattrMaxsize := by omega
  rw [readxattr, if_neg hno] at hread
  obtain ⟨⟨calls, h'', t''⟩, hget, hp⟩ := Option.map_eq_some_iff.mp hread
  obtain ⟨-, hp⟩ := Prod.mk.inj hp
  obtain ⟨-, rfl⟩ := Prod.mk.inj hp
  have hreads : Tape.Reads { t with readmapflag := true } _ _ := h.reads.congr (t := t) rfl
  have hl : Tape.Labelled { t with readmapflag := true } := h.labelled
  have hcount := entries_take a.blocks (t.recs.length + 1)
  have hrecs : t.recs.length =
      (dataRecs a.blocks).length + (a.moreRecs.length + 1) + (left next rest as).length := by
    rw [h.recs, left]
    simp only [List.length_append, List.length_cons]
    omega
  have hbeyond := getfile_beyond a.count a.addr hl hreads (by
    rw [extra_of_map _ rfl]
    simp only [List.length_append, List.length_singleton]
    rw [Attr.ReadWhole] at hwhole
    omega) hget
  simp only [Tape.total, after, Tape.at, h.vols, List.map_nil, List.sum_nil] at hbeyond
  change t''.recs.length < _
  omega

end Objects

/-! ## One turn of a loop -/

section Turn

variable {fssize : ℕ} {l : AttrLoop} {a : Attr} {as : List Attr} {next h' : Spcl} {rest : List Rec}
  {t t' : Tape} {buf : Option (List UInt8)}

/-- An attribute that the loop handles is consumed. -/
theorem body_of_handles (h : OnTape (a :: as) next rest t) (hl : l.Handles a) :
    ∃ buf t', l.body fssize a.header t = some (buf, (first next as).patch, t') ∧
      OnTape as next rest t' := by
  obtain ⟨t', hskip, ht'⟩ := skipfile_attr fssize h
  have hread : a.header.cDinode.diSize ≤ xattrMaxsize → a.ReadWhole →
      ∃ buf t', readxattr fssize a.header t = some (buf, (first next as).patch, t') ∧
        OnTape as next rest t' := fun hsize hwhole =>
    let ⟨buf, t', hread, ht'⟩ := readxattr_attr fssize h hsize hwhole
    ⟨some buf, t', hread, ht'⟩
  -- An attribute that is too big is skipped in `readxattr`.
  have hbig : a.header.cDinode.diSize > xattrMaxsize →
      readxattr fssize a.header t = some (none, (first next as).patch, t') := fun hsize => by
    rw [readxattr, if_pos hsize, hskip]
    rfl
  have hcompare : (a.header.cDinode.diSize ≤ xattrMaxsize → a.ReadWhole) →
      ∃ buf t', readxattr fssize a.header t = some (buf, (first next as).patch, t') ∧
        OnTape as next rest t' := fun hwhole =>
    (Nat.lt_or_ge xattrMaxsize a.header.cDinode.diSize).elim
      (fun hsize => ⟨none, t', hbig hsize, ht'⟩) fun hsize => hread hsize (hwhole hsize)
  cases l with
  | skipxattr => exact ⟨none, t', by simp [AttrLoop.body, hskip], ht'⟩
  | compareattr =>
    simp only [AttrLoop.body, hskip, Option.map_some]
    split_ifs with h₁ h₂ h₃
    · exact ⟨none, t', rfl, ht'⟩
    · exact ⟨none, t', rfl, ht'⟩
    · exact hcompare (hl h₃)
    · exact ⟨none, t', rfl, ht'⟩
  | extractdirs =>
    simp only [AttrLoop.body, hskip, Option.map_some]
    split_ifs with h₁ h₂ h₃
    · exact ⟨none, t', rfl, ht'⟩
    · exact ⟨none, t', rfl, ht'⟩
    · exact hcompare (hl.2 h₃)
    · have := hl.1
      simp [h₁, h₂, h₃] at this
  | extractattr =>
    simp only [AttrLoop.body, hskip, Option.map_some]
    split_ifs with h₁ h₂ h₃
    · exact ⟨none, t', rfl, ht'⟩
    · exact ⟨none, t', rfl, ht'⟩
    · obtain ⟨hsize, hwhole⟩ := hl h₃
      obtain ⟨buf, t'', hread, ht''⟩ := readxattr_attr fssize h hsize hwhole
      exact ⟨some buf, t'', by rw [hread]; rfl, ht''⟩
    · exact ⟨none, t', rfl, ht'⟩

/-- After an attribute that the loop does not handle, the input is not at the next header. -/
theorem length_body_ne (h : OnTape (a :: as) next rest t) (hl : ¬l.Handles a)
    (hbody : l.body fssize a.header t = some (buf, h', t')) :
    t'.recs.length ≠ (left next rest as).length := by
  have hread : a.header.cDinode.diSize ≤ xattrMaxsize → ¬a.ReadWhole →
      ∀ {buf h' t'}, readxattr fssize a.header t = some (buf, h', t') →
        t'.recs.length ≠ (left next rest as).length := fun hsize hwhole _ _ _ hread =>
    (length_readxattr_lt h hsize hwhole hread).ne
  cases l with
  | skipxattr => exact absurd trivial hl
  | compareattr =>
    simp only [AttrLoop.Handles, Classical.not_imp] at hl
    obtain ⟨htype, hsize, hwhole⟩ := hl
    have h₁ : a.header.cExtattributes ≠ extMacosfndrinfo := by rw [htype]; decide
    have h₂ : a.header.cExtattributes ≠ extMacosresfork := by rw [htype]; decide
    simp only [AttrLoop.body, if_neg h₁, if_neg h₂, if_pos htype] at hbody
    exact hread hsize hwhole hbody
  | extractdirs =>
    by_cases htype : a.header.cExtattributes ∈ [extMacosfndrinfo, extMacosresfork, extXattr]
    · simp only [AttrLoop.Handles, htype, true_and, Classical.not_imp] at hl
      obtain ⟨htype, hsize, hwhole⟩ := hl
      have h₁ : a.header.cExtattributes ≠ extMacosfndrinfo := by rw [htype]; decide
      have h₂ : a.header.cExtattributes ≠ extMacosresfork := by rw [htype]; decide
      simp only [AttrLoop.body, if_neg h₁, if_neg h₂, if_pos htype] at hbody
      exact hread hsize hwhole hbody
    · -- Nothing is read in such a turn.
      simp only [List.mem_cons, List.not_mem_nil, or_false, not_or] at htype
      simp only [AttrLoop.body, if_neg htype.1, if_neg htype.2.1, if_neg htype.2.2,
        Option.some.injEq, Prod.mk.injEq] at hbody
      obtain ⟨-, -, rfl⟩ := hbody
      rw [h.recs, left, List.length_append, List.length_append, List.length_cons]
      omega
  | extractattr =>
    simp only [AttrLoop.Handles, Classical.not_imp, not_and_or] at hl
    obtain ⟨htype, hl⟩ := hl
    have h₁ : a.header.cExtattributes ≠ extMacosfndrinfo := by rw [htype]; decide
    have h₂ : a.header.cExtattributes ≠ extMacosresfork := by rw [htype]; decide
    simp only [AttrLoop.body, if_neg h₁, if_neg h₂, if_pos htype] at hbody
    obtain ⟨⟨buf', h'', t''⟩, hreads, hbody⟩ := Option.bind_eq_some_iff.mp hbody
    rcases Nat.lt_or_ge xattrMaxsize a.header.cDinode.diSize with hsize | hsize
    · -- The attribute is skipped twice: the second time what follows it.
      obtain ⟨v, hskip, hv⟩ := skipfile_attr fssize h
      rw [readxattr, if_pos hsize, hskip] at hreads
      obtain ⟨rfl, hp⟩ := Prod.mk.inj (Option.some.inj hreads)
      obtain ⟨rfl, rfl⟩ := Prod.mk.inj hp
      obtain ⟨⟨h₃, t₃⟩, hagain, hp⟩ := Option.map_eq_some_iff.mp hbody
      obtain ⟨-, hp⟩ := Prod.mk.inj hp
      obtain ⟨-, rfl⟩ := Prod.mk.inj hp
      have := length_skipfile_lt hv.labelled hagain
      rw [hv.total, hv.recs] at this
      exact this.ne
    · have hwhole : ¬a.ReadWhole := hl.resolve_left (not_not_intro hsize)
      have hne := hread hsize hwhole hreads
      have hno : ¬a.header.cDinode.diSize > xattrMaxsize := by omega
      rw [readxattr, if_neg hno] at hreads
      obtain ⟨p, -, hp⟩ := Option.map_eq_some_iff.mp hreads
      obtain ⟨rfl, -⟩ := Prod.mk.inj hp
      simp only [Option.some.injEq, Prod.mk.injEq] at hbody
      obtain ⟨-, -, rfl⟩ := hbody
      exact hne

end Turn

/-! ## The loops -/

section Loops

variable {fssize : ℕ} {l : AttrLoop} {as : List Attr} {next : Spcl} {rest : List Rec} {t : Tape}

theorem flagged_patch (h : Spcl) : flagged h.patch = flagged h := by
  rw [flagged, Spcl.patch]
  split <;> rfl

theorem turns_eq_cons (next : Spcl) (rest : List Rec) (as : List Attr) :
    ∃ tests, turns next rest as = ((first next as).patch, left next rest as) :: tests := by
  cases as with
  | nil => exact ⟨[], rfl⟩
  | cons a as =>
    rw [first_patch _ (List.cons_ne_nil _ _)]
    exact ⟨_, rfl⟩

/-- The loop of `extractdirs` never ends at an attribute of a type that it does not know. -/
theorem extractdirs_stuck (fssize fuel : ℕ) {h : Spcl} (t : Tape) (hflag : flagged h = true)
    (htype : h.cExtattributes ∉ [extMacosfndrinfo, extMacosresfork, extXattr]) :
    whileFlagged (AttrLoop.extractdirs.body fssize) fuel h t = none := by
  simp only [List.mem_cons, List.not_mem_nil, or_false, not_or] at htype
  induction fuel with
  | zero => rfl
  | succ fuel ih =>
    have hbody : AttrLoop.extractdirs.body fssize h t = some (none, h, t) := by
      simp only [AttrLoop.body, if_neg htype.1, if_neg htype.2.1, if_neg htype.2.2]
    rw [whileFlagged, if_pos hflag, hbody]
    simp only [Option.bind_eq_bind, Option.bind_some, ih, Option.bind_none]

/-- A turn of the loop for the first attribute, and the loop for the others. -/
theorem consumesExactly_cons {a : Attr} (h : OnTape (a :: as) next rest t) :
    l.ConsumesExactly fssize (a :: as) next rest t ↔
      ∃ buf t', l.body fssize a.header t = some (buf, (first next as).patch, t') ∧
        t'.recs = left next rest as ∧ l.ConsumesExactly fssize as next rest t' := by
  have hstart : (first next (a :: as)).patch = a.header :=
    first_patch (a :: as) (List.cons_ne_nil _ _) next
  have htests : turns next rest (a :: as) = (a.header, t.recs) :: turns next rest as := by
    rw [turns, h.recs]
  obtain ⟨tests, hturns⟩ := turns_eq_cons next rest as
  constructor
  · rintro ⟨fuel, bufs, hrun⟩
    obtain _ | fuel := fuel
    · exact nomatch hrun
    rw [hstart, whileFlagged, if_pos a.flagged, htests] at hrun
    obtain ⟨⟨buf, h', t'⟩, hbody, hrun⟩ := Option.bind_eq_some_iff.mp hrun
    obtain ⟨⟨tests', bufs'⟩, hrun', heq⟩ := Option.bind_eq_some_iff.mp hrun
    obtain ⟨heq, -⟩ := Prod.mk.inj (Option.some.inj heq)
    obtain rfl := (List.cons.inj heq).2
    -- The first test of the rest of the loop is at the next header.
    have hfirst : (h', t'.recs) = ((first next as).patch, left next rest as) := by
      obtain _ | fuel := fuel
      · exact nomatch hrun'
      rw [hturns, whileFlagged] at hrun'
      split at hrun'
      · obtain ⟨x, -, hx⟩ := Option.bind_eq_some_iff.mp hrun'
        obtain ⟨y, -, hy⟩ := Option.bind_eq_some_iff.mp hx
        exact (List.cons.inj (Prod.mk.inj (Option.some.inj hy)).1).1
      · exact (List.cons.inj (Prod.mk.inj (Option.some.inj hrun')).1).1
    obtain ⟨rfl, hrecs⟩ := Prod.mk.inj hfirst
    exact ⟨buf, t', hbody, hrecs, fuel, bufs', hrun'⟩
  · rintro ⟨buf, t', hbody, -, fuel, bufs, hrun⟩
    refine ⟨fuel + 1, buf.toList ++ bufs, ?_⟩
    rw [hstart, whileFlagged, if_pos a.flagged, hbody, htests]
    simp only [Option.bind_eq_bind, Option.bind_some, hrun]

/-- **A loop consumes the attributes exactly, a turn for each**, if and only if it handles all of
them. -/
theorem consumesExactly_iff (fssize : ℕ) (l : AttrLoop) (h : OnTape as next rest t) :
    l.ConsumesExactly fssize as next rest t ↔ ∀ a ∈ as, l.Handles a := by
  induction as generalizing t with
  | nil =>
    refine iff_of_true ⟨1, [], ?_⟩ (List.forall_mem_nil _)
    rw [first, whileFlagged, flagged_patch, h.unflagged, h.recs]
    rfl
  | cons a as ih =>
    rw [consumesExactly_cons h, List.forall_mem_cons]
    constructor
    · rintro ⟨buf, t', hbody, hrecs, hrest⟩
      have hhandles : l.Handles a := by
        by_contra hno
        exact length_body_ne h hno hbody (congrArg List.length hrecs)
      obtain ⟨buf', t'', hbody', ht''⟩ := body_of_handles h hhandles
      obtain ⟨-, hp⟩ := Prod.mk.inj (Option.some.inj (hbody.symm.trans hbody'))
      obtain ⟨-, rfl⟩ := Prod.mk.inj hp
      exact ⟨hhandles, (ih ht'').mp hrest⟩
    · rintro ⟨hhandles, hall⟩
      obtain ⟨buf, t', hbody, ht'⟩ := body_of_handles h hhandles
      exact ⟨buf, t', hbody, ht'.recs, (ih ht').mpr hall⟩

/-- A header of type `TS_INODE` that announces one block. -/
def inodeHeader (flags : BitVec 32) (ext : ℤ) (size : ℕ) : Spcl :=
  mkchecksum .little
    { (default : Spcl) with
      cType := .inode
      cMagic := nfsMagic
      cFlags := flags
      cExtattributes := ext
      cDinode := { (default : NewBsdInode) with diSize := size }
      cCount := 1
      cAddr := fun _ => 1 }

theorem accepted_inodeHeader (flags : BitVec 32) (ext : ℤ) (size : ℕ) :
    (inodeHeader flags ext size).accepted = true := by
  rw [Spcl.accepted, Bool.and_eq_true]
  exact ⟨decide_eq_true rfl, checksum_mkchecksum ..⟩

theorem cExtattributes_inodeHeader (flags : BitVec 32) (ext : ℤ) (size : ℕ) :
    (inodeHeader flags ext size).cExtattributes = ext := rfl

theorem flagged_inodeHeader (flags : BitVec 32) (ext : ℤ) (size : ℕ) :
    flagged (inodeHeader flags ext size) = (flags &&& drExtattributes != 0) := rfl

/-- An attribute in one block. -/
def smallAttr (ext : ℤ) (size : ℕ) : Attr where
  header := inodeHeader drExtattributes ext size
  blocks := [some default]
  count := rfl
  addr k hk := by
    obtain rfl : k = 0 := by simpa using hk
    exact iff_of_true Nat.one_ne_zero rfl
  more := []
  type := rfl
  accepted := accepted_inodeHeader ..
  flagged := by
    rw [flagged_inodeHeader]
    decide
  continues := List.forall_mem_nil _

/-- The input at attributes of one block that are followed by a file. -/
def attrTape (as : List (ℤ × ℕ)) : Tape :=
  { (default : Tape) with
    recs := left (inodeHeader 0 0 0) [] (as.map fun p => smallAttr p.1 p.2) }

theorem onTape_attrTape (as : List (ℤ × ℕ)) :
    OnTape (as.map fun p => smallAttr p.1 p.2) (inodeHeader 0 0 0) [] (attrTape as) where
  recs := rfl
  vols := rfl
  flag _ := rfl
  dates a ha := by
    obtain ⟨p, -, rfl⟩ := List.mem_map.mp ha
    rfl
  follows := ⟨accepted_inodeHeader .., ⟨(fun h => nomatch h), (fun h => nomatch h)⟩, rfl⟩
  unflagged := rfl

/-- A directory with an attribute of 100 bytes and a resource fork. -/
theorem consumesExactly_twoAttrs :
    AttrLoop.extractdirs.ConsumesExactly 32768
      ([(extXattr, 100), (extMacosresfork, 700)].map fun p => smallAttr p.1 p.2)
      (inodeHeader 0 0 0) [] (attrTape [(extXattr, 100), (extMacosresfork, 700)]) :=
  (consumesExactly_iff 32768 .extractdirs (onTape_attrTape _)).mpr fun a ha => by
    obtain ⟨p, hp, rfl⟩ := List.mem_map.mp ha
    simp only [List.mem_cons, List.not_mem_nil, or_false] at hp
    obtain rfl | rfl := hp
    all_goals exact ⟨by simp [smallAttr, cExtattributes_inodeHeader], fun _ _ => Nat.zero_le _⟩

/-- The loop of `extractdirs` does not go past an attribute of a type that it does not know. -/
theorem not_consumesExactly :
    ¬∀ (fssize : ℕ) (l : AttrLoop) (as : List Attr) (next : Spcl) (rest : List Rec) (t : Tape),
      OnTape as next rest t → l.ConsumesExactly fssize as next rest t := by
  intro hall
  have hon := onTape_attrTape [(4, 100)]
  obtain ⟨buf, t', hbody, hrecs, -⟩ :=
    (consumesExactly_cons hon).mp (hall 32768 .extractdirs _ _ _ _ hon)
  refine length_body_ne hon ?_ hbody (congrArg List.length hrecs)
  rintro ⟨htype, -⟩
  simp [smallAttr, cExtattributes_inodeHeader, extMacosfndrinfo, extMacosresfork, extXattr] at htype

end Loops

end DumpRestore.ExtAttributes
