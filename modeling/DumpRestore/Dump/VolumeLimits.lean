import DumpRestore.Dump.Compress
import DumpRestore.Dump.Writer
import DumpRestore.Foundations.Cuts
import DumpRestore.Foundations.Decimal
import Mathlib.Algebra.Group.Action.Defs
import Mathlib.Algebra.Order.BigOperators.Group.List

/-!
# The limits of volumes

With `-B` the volumes of a dump have limits, in kilobytes. `numlistarg` reads them, `main` rounds
them to whole blocks unless the dump is compressed, and `flushtape` starts a new volume when a count
reaches the limit: the records of the volume, or its bytes as far as the slaves have reported them.

* `Account` has the counters, and `Account.flush` is what `flushtape` does with them.
* `reports` are the reports of a dump with these limits, and `sizes` the bytes of its blocks.
* `Account.On` is the law of the counters of a volume that is not full, and `Account.On.blocks` that
  of all volumes.
-/

namespace DumpRestore

open Decimal Cuts

/-! ## The options -/

section Arguments

/-- `strtol` saturates at the bounds of a `long`. -/
def toLong (z : ℤ) : ℤ := max (-2 ^ 63) (min z (2 ^ 63 - 1))

/-- Behind the sign. -/
def unsigned (text : List UInt8) : List UInt8 :=
  match text.dropWhile isSpace with
  | 45 :: digits => digits
  | 43 :: digits => digits
  | digits => digits

/-- The end pointer of `strtol`: where the number ends, or the text itself if it has none. -/
def strtolEnd (text : List UInt8) : List UInt8 :=
  if (unsigned text).head?.any isDigit then (unsigned text).dropWhile isDigit else text

/-- The loop of `numlistarg`. -/
def numlistLoop (vmin vmax : ℤ) : (fuel : ℕ) → (p : List UInt8) → Option (List ℤ)
  | 0, _ => none
  | fuel + 1, p =>
    let curval := toLong (strtol p)
    let p := strtolEnd p
    if p ≠ [] ∧ p.head? ≠ some 44 then none
    else if curval < vmin ∨ (vmax ≠ 0 ∧ curval > vmax) then none
    else if p.tail = [] then some [curval]
    else (numlistLoop vmin vmax fuel p.tail).map (curval :: ·)

/-- `numlistarg`, without the number of values that comes first in the array of the program. -/
def numlistarg (optarg : List UInt8) (vmin vmax : ℤ) : Option (List ℤ) :=
  numlistLoop vmin vmax (optarg.length + 1) optarg

theorem length_unsigned_le (text : List UInt8) : (unsigned text).length ≤ text.length := by
  have hspace := (text.dropWhile_suffix isSpace).length_le
  rw [unsigned]
  split <;> simp_all <;> omega

theorem length_strtolEnd_le (text : List UInt8) : (strtolEnd text).length ≤ text.length := by
  rw [strtolEnd]
  split
  · exact (List.dropWhile_suffix _).length_le.trans (length_unsigned_le text)
  · exact le_rfl

/-- The loop ends with the text. -/
theorem numlistLoop_succ (vmin vmax : ℤ) {fuel : ℕ} {p : List UInt8} (hfuel : p.length < fuel) :
    numlistLoop vmin vmax (fuel + 1) p = numlistLoop vmin vmax fuel p := by
  induction fuel generalizing p with
  | zero => exact absurd hfuel (Nat.not_lt_zero _)
  | succ fuel ih =>
    rw [numlistLoop]
    conv_rhs => rw [numlistLoop]
    by_cases hrest : (strtolEnd p).tail = []
    · simp only [hrest, if_true]
    · have hlen := length_strtolEnd_le p
      have htail : (strtolEnd p).tail.length < fuel := by
        have hne : strtolEnd p ≠ [] := fun h => hrest (by rw [h]; rfl)
        have hpos := List.length_pos_iff.mpr hne
        rw [List.length_tail]
        omega
      rw [ih htail]

/-- The values that are accepted are in the range. -/
theorem forall_mem_numlistarg {optarg : List UInt8} {vmin vmax : ℤ} {vals : List ℤ}
    (h : numlistarg optarg vmin vmax = some vals) :
    vals ≠ [] ∧ ∀ v ∈ vals, vmin ≤ v ∧ v < 2 ^ 63 := by
  rw [numlistarg] at h
  generalize optarg.length + 1 = fuel at h
  induction fuel generalizing optarg vals with
  | zero => cases h
  | succ fuel ih =>
    rw [numlistLoop] at h
    split at h
    · cases h
    split at h
    · cases h
    next hrange =>
    have hfirst : vmin ≤ toLong (strtol optarg) ∧ toLong (strtol optarg) < 2 ^ 63 := by
      refine ⟨Int.not_lt.mp fun hlt => hrange (.inl hlt), ?_⟩
      rw [toLong]
      omega
    split at h
    · obtain rfl := Option.some.inj h
      exact ⟨List.cons_ne_nil _ _, List.forall_mem_singleton.mpr hfirst⟩
    · obtain ⟨vals', hvals, rfl⟩ := Option.map_eq_some_iff.mp h
      exact ⟨List.cons_ne_nil _ _, List.forall_mem_cons.mpr ⟨hfirst, (ih hvals).2⟩⟩

example : numlistarg (str "650,700,") 1 0 = some [650, 700] := by decide +kernel

end Arguments

/-- The options of a dump with `-B`: `-b`, `-z`, an output to a pipe, the tape size of `-s` in
tenths of an inch, and the values of `-B`. -/
structure VolumeOptions extends DumpOptions where
  pipeout : Bool
  tsize : ℕ
  perfile : List ℕ
  ntrec_pos : 0 < ntrec
  ntrec_le : ntrec ≤ 1024
  perfile_ne : perfile ≠ []
  perfile_range : ∀ v ∈ perfile, 0 < v ∧ v < 2 ^ 63

namespace VolumeOptions

variable (o : VolumeOptions)

/-- `writesize`. -/
def writesize : ℕ := o.ntrec * tpBsize

/-- `blocksperfiles`, as `main` leaves it: the number of values and the values, rounded down. -/
def blocksperfiles : List ℕ :=
  o.perfile.length ::
    if o.compressed then o.perfile else o.perfile.map fun v => v / o.ntrec * o.ntrec

/-- The limit of the volumes in their order, in kilobytes: the last value holds for the rest. -/
def limit (j : ℕ) : ℕ := o.perfile.getD (min j (o.perfile.length - 1)) 0

/-- `clen` of a block, as `doslave` returns it for what the compression leaves. The first block of a
volume is not compressed. -/
def clen (first : Bool) (worklen : Option ℕ) : ℕ :=
  if o.compressed && !first then
    match worklen with
    | some n =>
      if n ≤ o.writesize - 16 then n + TapeBuf.prefixSize else o.writesize + TapeBuf.prefixSize
    | none => o.writesize + TapeBuf.prefixSize
  else o.writesize

end VolumeOptions

/-! ## The counters -/

/-- The counters of `flushtape`: `blocksperfiles_current`, `blocksthisvol`, `asize`, and `clen` of
the blocks that went to slaves since the volume was started. -/
structure Account where
  current : ℕ
  blocksthisvol : ℕ
  asize : ℕ
  clens : List ℕ

/-- What happens at a `flushtape`: whether the result that is read is an end of tape, what the
compression leaves of the block, and of those that are sent again. -/
structure Work where
  eot : Bool
  worklen : Option ℕ
  again : ℕ → Option ℕ

namespace Account

variable (o : VolumeOptions) (a : Account)

/-- What `startnewtape` does with the counters. -/
def newtape : Account where
  current := if a.current < o.blocksperfiles.headD 0 then a.current + 1 else a.current
  blocksthisvol := 0
  asize := 0
  clens := []

/-- The results that the master has read: not those of the last slaves. -/
def returned : List ℕ := a.clens.take (a.clens.length - (slavesMax - 1))

/-- The counters after a block, with `clen` of the result that is read. Without a result this is
`writesize`. The overhead of a block and the density are 0 and 1 with `-B`. -/
def send (worklen : Option ℕ) : Account :=
  let sent := { a with clens := a.clens ++ [o.clen a.clens.isEmpty worklen] }
  { sent with
    blocksthisvol := a.blocksthisvol + o.ntrec
    asize := a.asize + sent.returned.getLast?.getD o.writesize }

/-- The test for a new volume. Bytes are compared as `unsigned long`. -/
def full : Bool :=
  !o.pipeout &&
    let limit := o.blocksperfiles.getD a.current 0
    if limit ≠ 0 then
      if o.compressed then
        decide (a.returned.sum + slavesMax * (o.writesize + TapeBuf.prefixSize) ≥
          limit * 1024 % 2 ^ 64)
      else decide (a.blocksthisvol ≥ limit)
    else decide (a.asize > o.tsize)

/-- What `rollforward` does with the counters: all slaves send a block, and one is counted. -/
def rollforward (again : ℕ → Option ℕ) : Account :=
  let fresh := a.newtape o
  { fresh with
    blocksthisvol := o.ntrec
    asize := o.writesize
    clens := (List.range slavesMax).map fun i => o.clen (i == 0) (again i) }

/-- What `flushtape` does with the counters, the bytes of the blocks that it sends, and its report.
There is no result to read for the first blocks of a volume. -/
def flush (z : Work) : Account × List ℕ × Report :=
  let sent := a.send o z.worklen
  let size := [o.clen a.clens.isEmpty z.worklen]
  if z.eot ∧ slavesMax ≤ sent.clens.length then
    let rolled := sent.rollforward o z.again
    (rolled, size ++ rolled.clens, ⟨true, false, 0⟩)
  else if sent.full o then (sent.newtape o, size, ⟨false, true, 0⟩)
  else (sent, size, ⟨false, false, 0⟩)

/-- One `flushtape` after the other. -/
def run : Account → List Work → List (List ℕ × Report)
  | _, [] => []
  | a, z :: zs => (a.flush o z).2 :: run (a.flush o z).1 zs

end Account

section Dumps

variable (o : VolumeOptions) (zs : List Work)

/-- The counters after the first `startnewtape`. -/
def firstAccount : Account := Account.newtape o ⟨0, 0, 0, []⟩

/-- The reports of a dump with these options. -/
def reports : List Report := ((firstAccount o).run o zs).map Prod.snd

/-- The bytes of its blocks on tape. -/
def sizes : List ℕ := ((firstAccount o).run o zs).flatMap Prod.fst

end Dumps

/-! ## Limits that are kept -/

/-- Each limit has room for a block and, where a block is one record, for another one. The bytes of
a limit are a `long long`. -/
structure VolumeOptions.Fits (o : VolumeOptions) : Prop where
  pipeout : o.pipeout = false
  block : ∀ v ∈ o.perfile, o.ntrec ≤ v
  single : o.ntrec = 1 → ∀ v ∈ o.perfile, (if o.compressed then 4 else 2) ≤ v
  bytes : o.compressed = true → ∀ v ∈ o.perfile, v * 1024 < 2 ^ 63

section Limits

variable {o : VolumeOptions} {j : ℕ} {a : Account}

theorem VolumeOptions.limit_mem (o : VolumeOptions) (j : ℕ) : o.limit j ∈ o.perfile := by
  have hpos := List.length_pos_iff.mpr o.perfile_ne
  have hlt : min j (o.perfile.length - 1) < o.perfile.length := by omega
  rw [VolumeOptions.limit, List.getD_eq_getElem _ _ hlt]
  exact List.getElem_mem hlt

/-- The entry of the array that is the limit of a volume. -/
theorem VolumeOptions.getD_blocksperfiles (o : VolumeOptions) (j : ℕ) :
    o.blocksperfiles.getD (min (j + 1) o.perfile.length) 0 =
      if o.compressed then o.limit j else o.limit j / o.ntrec * o.ntrec := by
  have hpos := List.length_pos_iff.mpr o.perfile_ne
  have hindex : min (j + 1) o.perfile.length = min j (o.perfile.length - 1) + 1 := by omega
  rw [VolumeOptions.blocksperfiles, hindex, List.getD_cons_succ]
  split
  · rfl
  · have hlt : min j (o.perfile.length - 1) < o.perfile.length := by omega
    rw [VolumeOptions.limit, List.getD_eq_getElem _ _ (by rwa [List.length_map]),
      List.getD_eq_getElem _ _ hlt, List.getElem_map]

theorem VolumeOptions.clen_le (o : VolumeOptions) (first : Bool) (worklen : Option ℕ) :
    o.clen first worklen ≤ o.writesize + TapeBuf.prefixSize := by
  unfold VolumeOptions.clen
  split
  · split
    · split <;> omega
    · exact le_rfl
  · exact Nat.le_add_right _ _

theorem VolumeOptions.clen_first (o : VolumeOptions) (worklen : Option ℕ) :
    o.clen true worklen = o.writesize := by
  simp [VolumeOptions.clen]

/-- What a slave writes for a block that is not the first one. -/
theorem length_compressBlock (hcompressed : o.compressed = true) (lib : CompressLib) (zipflag : Zip)
    (t : ByteOrder.Order) (call : ℕ) {tblock : List UInt8} (hlen : tblock.length = o.writesize) :
    (compressBlock lib zipflag t call tblock).length = o.clen false
      ((lib.compress zipflag call (tpBsize + tblock.length) tblock).map List.length) := by
  unfold compressBlock VolumeOptions.clen
  dsimp only
  rw [hcompressed, ← hlen]
  cases lib.compress zipflag call (tpBsize + tblock.length) tblock with
  | none => simp [Nat.add_comm]
  | some out =>
    simp only [Option.map_some, Bool.not_false, Bool.and_true, if_true]
    split <;> simp [Nat.add_comm]

/-- The counters while a volume is not full. -/
structure Account.On (o : VolumeOptions) (j : ℕ) (a : Account) : Prop where
  current : a.current = min (j + 1) o.perfile.length
  le : ∀ n ∈ a.clens, n ≤ o.writesize + TapeBuf.prefixSize
  counted : o.compressed = false → a.blocksthisvol = o.ntrec * a.clens.length ∧
    a.clens.sum = a.blocksthisvol * 1024 ∧ a.blocksthisvol < o.limit j / o.ntrec * o.ntrec
  reported : o.compressed = true → a.clens ≠ [] →
    a.returned.sum + slavesMax * (o.writesize + TapeBuf.prefixSize) < o.limit j * 1024

/-- What was not reported yet are the last blocks. -/
theorem sum_le_of_returned {n : ℕ} (h : ∀ c ∈ a.clens, c ≤ n) :
    a.clens.sum ≤ a.returned.sum + (slavesMax - 1) * n := by
  have hsplit := List.sum_take_add_sum_drop a.clens (a.clens.length - (slavesMax - 1))
  have hdrop : (a.clens.drop (a.clens.length - (slavesMax - 1))).sum ≤ (slavesMax - 1) * n := by
    refine (List.sum_le_card_nsmul _ n fun c hc => h c (List.mem_of_mem_drop hc)).trans ?_
    rw [smul_eq_mul, List.length_drop]
    exact Nat.mul_le_mul_right n (by omega)
  rw [Account.returned]
  omega

namespace Account.On

/-- A volume that was started. -/
theorem newtape (hfit : o.Fits) (hcurrent : a.current = min j o.perfile.length) :
    (a.newtape o).On o j where
  current := by
    have hpos := List.length_pos_iff.mpr o.perfile_ne
    simp only [Account.newtape, VolumeOptions.blocksperfiles, List.headD_cons, hcurrent]
    split <;> omega
  le n hn := absurd hn List.not_mem_nil
  counted _ := by
    have hblock := hfit.block _ (o.limit_mem j)
    exact ⟨by simp [Account.newtape], by simp [Account.newtape],
      Nat.mul_pos (Nat.div_pos hblock o.ntrec_pos) o.ntrec_pos⟩
  reported _ hne := absurd rfl hne

/-- What is on the volume keeps its limit. -/
theorem sum_le (h : a.On o j) : a.clens.sum ≤ o.limit j * 1024 := by
  cases hcompressed : o.compressed with
  | false =>
    obtain ⟨-, hsum, hlt⟩ := h.counted hcompressed
    have hround := Nat.div_mul_le_self (o.limit j) o.ntrec
    omega
  | true =>
    by_cases hne : a.clens = []
    · rw [hne]
      exact Nat.zero_le _
    · have hle := sum_le_of_returned h.le
      have hlt := h.reported hcompressed hne
      simp only [slavesMax] at hle hlt
      omega

/-- A block more still keeps it. -/
theorem sum_send_le (hfit : o.Fits) (h : a.On o j) (worklen : Option ℕ) :
    (a.send o worklen).clens.sum ≤ o.limit j * 1024 := by
  have hblock := hfit.block _ (o.limit_mem j)
  have hclens : (a.send o worklen).clens.sum =
      a.clens.sum + o.clen a.clens.isEmpty worklen := by
    simp [Account.send]
  rw [hclens]
  cases hcompressed : o.compressed with
  | false =>
    obtain ⟨hcount, hsum, hlt⟩ := h.counted hcompressed
    have hround := Nat.div_mul_le_self (o.limit j) o.ntrec
    have hclen : o.clen a.clens.isEmpty worklen = o.ntrec * 1024 := by
      simp [VolumeOptions.clen, hcompressed, VolumeOptions.writesize, tpBsize]
    -- Both are whole blocks.
    have hnext : a.blocksthisvol + o.ntrec ≤ o.limit j / o.ntrec * o.ntrec := by
      rw [hcount, Nat.mul_comm o.ntrec] at hlt ⊢
      have hlt' := Nat.lt_of_mul_lt_mul_right hlt
      calc a.clens.length * o.ntrec + o.ntrec = (a.clens.length + 1) * o.ntrec := by ring
        _ ≤ _ := Nat.mul_le_mul_right _ hlt'
    rw [hclen, hsum]
    omega
  | true =>
    by_cases hne : a.clens = []
    · rw [hne, List.isEmpty_nil, o.clen_first, VolumeOptions.writesize, tpBsize, List.sum_nil]
      omega
    · have hle := sum_le_of_returned h.le
      have hlt := h.reported hcompressed hne
      have hclen := o.clen_le a.clens.isEmpty worklen
      simp only [slavesMax] at hle hlt
      omega

theorem le_send (h : a.On o j) (worklen : Option ℕ) :
    ∀ n ∈ (a.send o worklen).clens, n ≤ o.writesize + TapeBuf.prefixSize := by
  intro n hn
  rcases List.mem_append.mp hn with hn | hn
  · exact h.le n hn
  · obtain rfl := List.mem_singleton.mp hn
    exact o.clen_le _ _

/-- The test, where the options fit. -/
theorem full_iff (hfit : o.Fits) (hcurrent : a.current = min (j + 1) o.perfile.length) :
    a.full o = true ↔ if o.compressed then
      o.limit j * 1024 ≤ a.returned.sum + slavesMax * (o.writesize + TapeBuf.prefixSize)
    else o.limit j / o.ntrec * o.ntrec ≤ a.blocksthisvol := by
  have hmem := o.limit_mem j
  have hblock := hfit.block _ hmem
  have hpos := o.ntrec_pos
  rw [Account.full, hfit.pipeout, hcurrent, o.getD_blocksperfiles]
  cases hcompressed : o.compressed with
  | false =>
    have hround : o.limit j / o.ntrec * o.ntrec ≠ 0 :=
      (Nat.mul_pos (Nat.div_pos hblock hpos) hpos).ne'
    simp [hround]
  | true =>
    have hbytes := hfit.bytes hcompressed _ hmem
    have hmod : o.limit j * 1024 % 2 ^ 64 = o.limit j * 1024 :=
      Nat.mod_eq_of_lt (hbytes.trans (by decide))
    have hne : o.limit j ≠ 0 := by omega
    simp only [if_true, ne_eq, hne, not_false_eq_true, Bool.not_false, Bool.true_and, hmod,
      decide_eq_true_eq, ge_iff_le]

/-- The counters after a block that does not fill the volume. -/
theorem send (hfit : o.Fits) (h : a.On o j) {worklen : Option ℕ}
    (hfull : (a.send o worklen).full o = false) : (a.send o worklen).On o j where
  current := h.current
  le := h.le_send worklen
  counted hcompressed := by
    obtain ⟨hcount, hsum, -⟩ := h.counted hcompressed
    have hclen : o.clen a.clens.isEmpty worklen = o.ntrec * 1024 := by
      simp [VolumeOptions.clen, hcompressed, VolumeOptions.writesize, tpBsize]
    have hnot := mt (full_iff (a := a.send o worklen) hfit h.current).mpr (by rw [hfull]; decide)
    rw [hcompressed, if_neg (by decide), Nat.not_le] at hnot
    refine ⟨?_, ?_, hnot⟩
    · simp only [Account.send, List.length_append, List.length_singleton, hcount]
      ring
    · simp only [Account.send, List.sum_append, List.sum_singleton, hclen, hsum]
      ring
  reported hcompressed _ := by
    have hnot := mt (full_iff (a := a.send o worklen) hfit h.current).mpr (by rw [hfull]; decide)
    rwa [hcompressed, if_pos rfl, Nat.not_le] at hnot

/-- Where a block is one record, the header does not fill the volume. -/
theorem not_full_of_single (hfit : o.Fits) (hsingle : o.ntrec = 1) (h : a.On o j)
    (hempty : a.clens = []) (worklen : Option ℕ) : (a.send o worklen).full o = false := by
  rw [← Bool.not_eq_true, full_iff (a := a.send o worklen) hfit h.current]
  have hroom := hfit.single hsingle _ (o.limit_mem j)
  cases hcompressed : o.compressed with
  | false =>
    obtain ⟨hcount, -, -⟩ := h.counted hcompressed
    rw [hcompressed, if_neg (by decide)] at hroom
    rw [if_neg (by decide), hsingle, Nat.div_one, Nat.mul_one, Nat.not_le]
    rw [hempty, List.length_nil, Nat.mul_zero] at hcount
    simp only [Account.send, hcount, hsingle]
    omega
  | true =>
    rw [hcompressed, if_pos rfl] at hroom
    have hreturned : (a.send o worklen).returned = [] := by
      simp [Account.returned, Account.send, hempty, slavesMax]
    rw [if_pos rfl, hreturned, List.sum_nil, VolumeOptions.writesize, hsingle]
    simp only [slavesMax, tpBsize, TapeBuf.prefixSize]
    omega

end Account.On

/-! ### Without an end of tape -/

/-- The bytes of the blocks, and whether the volume is full after each. -/
def Account.blocks (o : VolumeOptions) : Account → List Work → List (ℕ × Bool)
  | _, [] => []
  | a, z :: zs =>
    let sent := a.send o z.worklen
    (o.clen a.clens.isEmpty z.worklen, sent.full o) ::
      blocks o (if sent.full o then sent.newtape o else sent) zs

theorem Account.run_eq {zs : List Work} (hzs : ∀ z ∈ zs, z.eot = false) :
    a.run o zs = (a.blocks o zs).map fun p => ([p.1], ⟨false, p.2, 0⟩) := by
  induction zs generalizing a with
  | nil => rfl
  | cons z zs ih =>
    obtain ⟨hz, hzs⟩ := List.forall_mem_cons.mp hzs
    rw [Account.run, Account.blocks, ih hzs]
    rw [List.map_cons, Account.flush, if_neg (by simp [hz])]
    cases hfull : (a.send o z.worklen).full o <;> simp

theorem Account.length_blocks (zs : List Work) : (a.blocks o zs).length = zs.length := by
  induction zs generalizing a with
  | nil => rfl
  | cons z zs ih => exact congrArg (· + 1) ih

theorem Account.take_blocks (m : ℕ) (zs : List Work) :
    (a.blocks o zs).take m = a.blocks o (zs.take m) := by
  induction zs generalizing a m with
  | nil => rw [List.take_nil, Account.blocks, List.take_nil]
  | cons z zs ih =>
    cases m with
    | zero => rfl
    | succ m => exact congrArg (_ :: ·) (ih m)

/-- **The limits are kept** by each volume, and each volume that is full has two records. -/
theorem Account.On.blocks (hfit : o.Fits) (h : a.On o j) (zs : List Work) {i : ℕ} {c : List ℕ}
    (hc : (cutFrom a.clens (a.blocks o zs))[i]? = some c) : c.sum ≤ o.limit (j + i) * 1024 ∧
      (i + 1 < (cutFrom a.clens (a.blocks o zs)).length → 2 ≤ o.ntrec * c.length) := by
  induction zs generalizing a j i with
  | nil =>
    rw [Account.blocks, cutFrom, cut, List.modifyHead_cons, List.append_nil] at hc ⊢
    obtain ⟨hi, rfl⟩ := List.getElem?_eq_some_iff.mp hc
    obtain rfl : i = 0 := Nat.lt_one_iff.mp hi
    exact ⟨h.sum_le, fun hlt => absurd hlt (lt_irrefl _)⟩
  | cons z zs ih =>
    rw [Account.blocks] at hc ⊢
    cases hfull : (a.send o z.worklen).full o with
    | false =>
      rw [hfull, cutFrom_unmarked, if_neg (by decide)] at hc
      rw [cutFrom_unmarked, if_neg (by decide)]
      exact ih (h.send hfit hfull) hc
    | true =>
      rw [hfull, cutFrom_mark, if_pos rfl] at hc
      rw [cutFrom_mark, if_pos rfl]
      cases i with
      | zero =>
        obtain rfl := Option.some.inj hc
        refine ⟨h.sum_send_le hfit z.worklen, fun _ => ?_⟩
        have hpos := o.ntrec_pos
        rw [List.length_append, List.length_singleton]
        by_cases hsingle : o.ntrec = 1
        · have hne : a.clens ≠ [] := fun hempty => by
            rw [h.not_full_of_single hfit hsingle hempty] at hfull
            cases hfull
          have hlen := List.length_pos_iff.mpr hne
          rw [hsingle]
          omega
        · have hmul := Nat.mul_le_mul (show 2 ≤ o.ntrec by omega)
            (Nat.le_add_left 1 a.clens.length)
          omega
      | succ i =>
        have hnext : ((a.send o z.worklen).newtape o).On o (j + 1) := .newtape hfit h.current
        obtain ⟨hsum, hrecords⟩ := ih hnext hc
        rw [Nat.add_right_comm] at hsum
        exact ⟨hsum, fun hlt => hrecords (Nat.lt_of_succ_lt_succ hlt)⟩

/-- Where a block is one record, no header fills its volume. -/
theorem Account.On.isChain_blocks (hfit : o.Fits) (hsingle : o.ntrec = 1) (h : a.On o j)
    (zs : List Work) : (a.clens.isEmpty :: (a.blocks o zs).map Prod.snd).IsChain
      fun first full => first = true → full = false := by
  induction zs generalizing a j with
  | nil => exact .singleton _
  | cons z zs ih =>
    rw [Account.blocks, List.map_cons]
    dsimp only
    refine .cons_cons (fun hempty => h.not_full_of_single hfit hsingle
      (List.isEmpty_iff.mp hempty) _) ?_
    cases hfull : (a.send o z.worklen).full o with
    | false =>
      have hchain := ih (h.send hfit hfull)
      have hne : (a.send o z.worklen).clens.isEmpty = false := by simp [Account.send]
      rwa [hne] at hchain
    | true => exact ih (.newtape hfit h.current)

end Limits

end DumpRestore
