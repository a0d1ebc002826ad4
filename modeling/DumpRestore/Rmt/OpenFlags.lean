import Mathlib.Data.List.Find
import DumpRestore.Foundations.Decimal

/-!
# The flags of open as text

A client of `rmt` sends the flags of `open` by name, since their values differ between systems.

* `rmtflagsTochar` writes the names of the flags and `rmtflagsToint` reads them.
* `rmtflagsToint_filemode`: a mode comes back as the flags of the table that share a bit with it.
-/

namespace DumpRestore

namespace Rmt

open Decimal

/-! ## The code -/

/-- `openflags`, with the values of Linux. -/
def openflags : List (List UInt8 × ℕ) :=
  [(str "O_RDONLY", 0), (str "O_WRONLY", 1), (str "O_RDWR", 2), (str "O_CREAT", 0o100),
    (str "O_EXCL", 0o200), (str "O_NOCTTY", 0o400), (str "O_TRUNC", 0o1000),
    (str "O_APPEND", 0o2000), (str "O_NONBLOCK", 0o4000), (str "O_NDELAY", 0o4000),
    (str "O_SYNC", 0o4010000), (str "O_FSYNC", 0o4010000), (str "O_ASYNC", 0o20000),
    (str "O_DSYNC", 0o10000), (str "O_RSYNC", 0o4010000), (str "O_LARGEFILE", 0)]

/-- `O_ACCMODE`. -/
def oAccmode : ℕ := 3

/-- The flags of a mode beside its access mode: those that share a bit with it. -/
def moreflags (filemode : ℕ) : List (List UInt8 × ℕ) :=
  openflags.filter fun op => op.2 ≠ 0 ∧ op.2 ≠ 1 ∧ op.2 ≠ 2 ∧ filemode &&& op.2 ≠ 0

/-- `rmtflags_tochar`. For an access mode that is none of the three it appends to memory without a
value. -/
def rmtflagsTochar (filemode : ℕ) : Option (List UInt8) :=
  let result (access : String) :=
    str access ++ (moreflags filemode).flatMap fun op => str "|" ++ op.1
  match filemode &&& oAccmode with
  | 0 => some (result "O_RDONLY")
  | 1 => some (result "O_WRONLY")
  | 2 => some (result "O_RDWR")
  | _ => none

/-- What ends the name of a flag. -/
def sep (c : UInt8) : Bool := c == 124 || c == 32

/-- Whether the name of a flag stands at the front of a text. -/
def flagAt (p name : List UInt8) : Bool :=
  name.isPrefixOf p && match p.drop name.length with
    | [] => true
    | c :: _ => sep c

/-- The loop of `rmtflags_toint`, with `result`, `numresult` and `seentext`. -/
def tointLoop (filemode : List UInt8) : (fuel : ℕ) → (p : List UInt8) → ℕ × ℕ × Bool → ℕ × ℕ × Bool
  | 0, _, res => res
  | fuel + 1, p, (result, numresult, seentext) =>
    let p := p.dropWhile (· == 32)
    let (p, numresult) := if p.take 2 = str "O_" then (p, numresult)
      else ((p.dropWhile (· ≠ 32)).dropWhile (· == 32),
        ((atoi filemode % 2 ^ 32).toNat &&& oAccmode))
    if p = [] then (result, numresult, seentext)
    else
      let (result, seentext) := match openflags.find? fun op => flagAt p op.1 with
        | some op => (result ||| op.2, true)
        | none => (result, seentext)
      match p.dropWhile (· ≠ 124) with
      | [] => (result, numresult, seentext)
      | _ :: p => tointLoop filemode fuel p (result, numresult, seentext)

/-- `rmtflags_toint`. -/
def rmtflagsToint (filemode : List UInt8) : ℕ :=
  let (result, numresult, seentext) :=
    tointLoop filemode (filemode.length + 1) filemode (0, 0, false)
  if seentext then result else numresult

/-- The text of a mode in the request of `rmtopen`. -/
def filemode (mode : ℕ) (rmtflags : List UInt8) : List UInt8 :=
  decimal (mode &&& oAccmode : ℕ) ++ str " " ++ rmtflags

/-- The access mode with the flags that `rmtflags_tochar` names. -/
def recovered (mode : ℕ) : ℕ :=
  (moreflags mode).foldl (fun result op => result ||| op.2) (mode &&& oAccmode)

/-! ## Names -/

/-- The names of the flags are words that begin as `rmtflags_toint` expects. -/
theorem openflags_names : ∀ op ∈ openflags,
    op.1.take 2 = str "O_" ∧ (∀ c ∈ op.1, sep c = false) ∧
      openflags.find? (fun op' => decide (op'.1 = op.1)) = some op := by
  decide +kernel

theorem takeWhile_name {name rest : List UInt8} (hname : ∀ c ∈ name, sep c = false)
    (hrest : ∀ c ∈ rest.head?, sep c = true) :
    (name ++ rest).takeWhile (fun c => !sep c) = name := by
  rw [List.takeWhile_append_of_pos fun c hc => by simp [hname c hc]]
  cases rest with
  | nil => simp
  | cons c rest => simp [hrest c rfl]

/-- A name stands at the front of a text if and only if it is the first word. -/
theorem flagAt_iff {name name' rest : List UInt8} (hname : ∀ c ∈ name, sep c = false)
    (hname' : ∀ c ∈ name', sep c = false) (hrest : ∀ c ∈ rest.head?, sep c = true) :
    flagAt (name ++ rest) name' = decide (name' = name) := by
  rw [Bool.eq_iff_iff, decide_eq_true_iff]
  constructor
  · intro hflag
    simp only [flagAt, Bool.and_eq_true, List.isPrefixOf_iff_prefix] at hflag
    obtain ⟨⟨rest', heq⟩, hsep⟩ := hflag
    rw [← heq, List.drop_left] at hsep
    have hrest' : ∀ c ∈ rest'.head?, sep c = true := by
      cases rest' with
      | nil => nofun
      | cons c rest' => simpa using hsep
    rw [← takeWhile_name hname hrest, ← heq, takeWhile_name hname' hrest']
  · rintro rfl
    simp only [flagAt, Bool.and_eq_true, List.isPrefixOf_iff_prefix]
    refine ⟨List.prefix_append _ _, ?_⟩
    rw [List.drop_left]
    cases rest with
    | nil => rfl
    | cons c rest => exact hrest c rfl

theorem find_flag {op : List UInt8 × ℕ} (hop : op ∈ openflags) {rest : List UInt8}
    (hrest : ∀ c ∈ rest.head?, sep c = true) :
    openflags.find? (fun op' => flagAt (op.1 ++ rest) op'.1) = some op := by
  obtain ⟨-, hname, hfind⟩ := openflags_names op hop
  rw [← hfind]
  exact List.find?_congr fun op' hop' => flagAt_iff hname (openflags_names op' hop').2.1 hrest

/-! ## The loop -/

/-- Names with a bar before each. -/
def bars (ops : List (List UInt8 × ℕ)) : List UInt8 := ops.flatMap fun op => str "|" ++ op.1

theorem head_bars (ops : List (List UInt8 × ℕ)) : ∀ c ∈ (bars ops).head?, c = 124 := by
  cases ops with
  | nil => nofun
  | cons op ops =>
    intro c hc
    exact (Option.some.inj hc).symm

theorem sep_head_bars (ops : List (List UInt8 × ℕ)) : ∀ c ∈ (bars ops).head?, sep c = true := by
  intro c hc
  rw [head_bars ops c hc]
  rfl

/-- At the name of a flag there is nothing to skip. -/
theorem front_name {op : List UInt8 × ℕ} (hop : op ∈ openflags) (rest : List UInt8) :
    (op.1 ++ rest).dropWhile (· == 32) = op.1 ++ rest ∧ (op.1 ++ rest).take 2 = str "O_" ∧
      op.1 ++ rest ≠ [] := by
  obtain ⟨htake, hname, -⟩ := openflags_names op hop
  have hlen : 2 ≤ op.1.length := by
    have h := congrArg List.length htake
    rw [List.length_take] at h
    have : (str "O_").length = 2 := rfl
    omega
  refine ⟨?_, by rw [List.take_append_of_le_length hlen, htake], ?_⟩
  · cases heq : op.1 with
    | nil => rw [heq] at hlen; cases hlen
    | cons c name =>
      have hc := hname c (heq ▸ List.mem_cons_self)
      simp only [sep, Bool.or_eq_false_iff] at hc
      rw [List.cons_append, List.dropWhile_cons_of_neg (by simp [hc.2])]
  · intro hnil
    rw [(List.append_eq_nil_iff.mp hnil).1] at hlen
    cases hlen

/-- One turn of the loop at the name of a flag. -/
theorem tointLoop_name (text : List UInt8) {op : List UInt8 × ℕ} (hop : op ∈ openflags)
    (ops : List (List UInt8 × ℕ)) (fuel result numresult : ℕ) (seentext : Bool) :
    tointLoop text (fuel + 1) (op.1 ++ bars ops) (result, numresult, seentext) =
      match bars ops with
      | [] => (result ||| op.2, numresult, true)
      | _ :: p => tointLoop text fuel p (result ||| op.2, numresult, true) := by
  obtain ⟨-, hname, -⟩ := openflags_names op hop
  obtain ⟨hspace, htwo, hne⟩ := front_name hop (bars ops)
  have hbar : (op.1 ++ bars ops).dropWhile (· ≠ 124) = bars ops := by
    have hne : ∀ c ∈ op.1, (decide (c ≠ 124)) = true := fun c hc => by
      have := hname c hc
      simp only [sep, Bool.or_eq_false_iff, beq_eq_false_iff_ne] at this
      exact decide_eq_true this.1
    rw [List.dropWhile_append_of_pos hne]
    cases hbars : bars ops with
    | nil => rfl
    | cons c p =>
      have hc : c = 124 := head_bars ops c (by rw [hbars]; rfl)
      rw [List.dropWhile_cons_of_neg (by simp [hc])]
  simp only [tointLoop, hspace, htwo, if_true, if_neg hne, find_flag hop (sep_head_bars ops), hbar]

/-- From a name on, the loop takes in every flag that follows. -/
theorem tointLoop_names (text : List UInt8) {op : List UInt8 × ℕ} (hop : op ∈ openflags)
    (ops : List (List UInt8 × ℕ)) (hops : ∀ op ∈ ops, op ∈ openflags) {fuel : ℕ}
    (hfuel : ops.length < fuel) (result numresult : ℕ) (seentext : Bool) :
    tointLoop text fuel (op.1 ++ bars ops) (result, numresult, seentext) =
      ((op :: ops).foldl (fun result op => result ||| op.2) result, numresult, true) := by
  induction ops generalizing op fuel result seentext with
  | nil =>
    obtain ⟨fuel, rfl⟩ := Nat.exists_eq_succ_of_ne_zero (Nat.ne_of_gt hfuel)
    rw [tointLoop_name text hop]
    rfl
  | cons op' ops ih =>
    obtain ⟨fuel, rfl⟩ := Nat.exists_eq_succ_of_ne_zero (Nat.ne_zero_of_lt hfuel)
    rw [tointLoop_name text hop]
    have hlt : ops.length < fuel := Nat.lt_of_succ_lt_succ hfuel
    exact ih (hops op' List.mem_cons_self) (fun _ h => hops _ (List.mem_cons_of_mem _ h)) hlt _ _

theorem mem_openflags_of_moreflags {mode : ℕ} : ∀ op ∈ moreflags mode, op ∈ openflags :=
  fun _ h => (List.mem_filter.mp h).1

/-- The text of a mode: the name of its access mode, with the other names after it. -/
theorem rmtflagsTochar_eq {mode : ℕ} {text : List UInt8} (h : rmtflagsTochar mode = some text) :
    ∃ op ∈ openflags, op.2 = mode &&& oAccmode ∧ mode &&& oAccmode < 3 ∧
      text = op.1 ++ bars (moreflags mode) := by
  simp only [rmtflagsTochar] at h
  split at h
  · next hmode =>
    exact ⟨(str "O_RDONLY", 0), by decide, by rw [hmode], by rw [hmode]; decide,
      (Option.some.inj h).symm⟩
  · next hmode =>
    exact ⟨(str "O_WRONLY", 1), by decide, by rw [hmode], by rw [hmode]; decide,
      (Option.some.inj h).symm⟩
  · next hmode =>
    exact ⟨(str "O_RDWR", 2), by decide, by rw [hmode], by rw [hmode]; decide,
      (Option.some.inj h).symm⟩
  · cases h

theorem decimal_accmode {m : ℕ} (hm : m < 3) : decimal m ++ str " " = [digit m, 32] := by
  interval_cases m <;> decide

/-- The number in front of the names, with the blank after it, is skipped. -/
theorem tointLoop_number (text : List UInt8) {op : List UInt8 × ℕ} (hop : op ∈ openflags)
    (rest : List UInt8) {m : ℕ} (hm : m < 3) (fuel result numresult : ℕ) (seentext : Bool) :
    ∃ numresult', tointLoop text (fuel + 1) (decimal m ++ str " " ++ (op.1 ++ rest))
        (result, numresult, seentext) =
      tointLoop text (fuel + 1) (op.1 ++ rest) (result, numresult', seentext) := by
  obtain ⟨hspace, htwo, hne⟩ := front_name hop rest
  have hdecimal := decimal_accmode hm
  have hskip : ((decimal m ++ str " " ++ (op.1 ++ rest)).dropWhile (· == 32)) =
      decimal m ++ str " " ++ (op.1 ++ rest) := by
    rw [hdecimal]
    exact List.dropWhile_cons_of_neg (by interval_cases m <;> decide)
  have hword : (decimal m ++ str " " ++ (op.1 ++ rest)).dropWhile (· ≠ 32) =
      32 :: (op.1 ++ rest) := by
    rw [hdecimal, List.cons_append, List.dropWhile_cons_of_pos (by interval_cases m <;> decide)]
    rfl
  have hno : (decimal m ++ str " " ++ (op.1 ++ rest)).take 2 ≠ str "O_" := by
    rw [hdecimal]
    show [digit m, 32] ≠ str "O_"
    interval_cases m <;> decide
  have hblank : (32 :: (op.1 ++ rest)).dropWhile (· == 32) = op.1 ++ rest :=
    (List.dropWhile_cons_of_pos rfl).trans hspace
  refine ⟨(atoi text % 2 ^ 32).toNat &&& oAccmode, ?_⟩
  simp only [tointLoop, hskip, if_neg hno, hword, hblank, hspace, htwo, if_true, if_neg hne]

/-- **The names of a mode** give its access mode and the flags that share a bit with it. -/
theorem rmtflagsToint_filemode {mode : ℕ} {text : List UInt8}
    (h : rmtflagsTochar mode = some text) :
    rmtflagsToint (filemode mode text) = recovered mode := by
  obtain ⟨op, hop, hacc, hlt, rfl⟩ := rmtflagsTochar_eq h
  have hfuel : (moreflags mode).length <
      (filemode mode (op.1 ++ bars (moreflags mode))).length + 1 := by
    have hbars (ops : List (List UInt8 × ℕ)) : ops.length ≤ (bars ops).length := by
      induction ops with
      | nil => exact Nat.zero_le _
      | cons op ops ih =>
        have : (bars (op :: ops)).length = 1 + op.1.length + (bars ops).length := by
          simp [bars, str]
          omega
        rw [this, List.length_cons]
        omega
    simp only [filemode, List.length_append]
    have := hbars (moreflags mode)
    omega
  generalize hlen : (filemode mode (op.1 ++ bars (moreflags mode))).length = len at hfuel
  obtain ⟨numresult, hnumber⟩ := tointLoop_number
    (filemode mode (op.1 ++ bars (moreflags mode))) hop (bars (moreflags mode)) hlt len 0 0 false
  have hnames := tointLoop_names (filemode mode (op.1 ++ bars (moreflags mode))) hop
    (moreflags mode) mem_openflags_of_moreflags hfuel 0 numresult false
  rw [← hnumber, List.foldl_cons, Nat.zero_or, hacc] at hnames
  rw [rmtflagsToint, hlen]
  simp only [filemode] at hnames ⊢
  simp only [hnames, if_true]
  rfl

/-- The text of a mode is a line, and two bytes longer than the names. -/
theorem filemode_line {mode : ℕ} {text : List UInt8} (h : rmtflagsTochar mode = some text) :
    10 ∉ filemode mode text ∧ (filemode mode text).length = text.length + 2 := by
  obtain ⟨op, hop, -, hlt, rfl⟩ := rmtflagsTochar_eq h
  have hnames : ∀ op ∈ openflags, 10 ∉ op.1 := by decide
  have hbars : 10 ∉ bars (moreflags mode) := by
    intro hmem
    obtain ⟨op', hop', hmem⟩ := List.mem_flatMap.mp hmem
    rcases List.mem_append.mp hmem with hbar | hname
    · exact absurd hbar (by decide)
    · exact hnames op' (mem_openflags_of_moreflags op' hop') hname
  rw [filemode, decimal_accmode hlt]
  refine ⟨fun hmem => ?_, by rw [List.length_append]; exact Nat.add_comm _ _⟩
  rcases List.mem_append.mp hmem with hnumber | hmem
  · generalize mode &&& oAccmode = m at hnumber hlt
    revert hnumber
    interval_cases m <;> decide
  · rcases List.mem_append.mp hmem with hname | hbar
    · exact hnames op hop hname
    · exact hbars hbar

end Rmt

end DumpRestore
