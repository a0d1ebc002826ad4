import DumpRestore.Foundations.Paths

/-!
# Canonical path names

`canon` of `restore/interactive.c` puts a path behind a `.` for the root of the dump, and edits the
string where it lies: one loop closes up runs of slashes, the next one takes out components. A
string is the list of its characters without the NUL, so that reading at its length is reading the
NUL. The components are taken out by `strcpy` within the string, which the C library leaves
undefined where source and destination overlap: there the model stops.

* `canon` and its loops are as in the source. Each loop comes nearer to the end of the string.
* `Apart` says of the components of a path that no `strcpy` for them overlaps.
* `squeeze_eq` and `eliminate_eq` say what the loops leave, and `canon_eq` what `canon` does.
* `canon_normal_iff` is the main theorem.
-/

namespace DumpRestore.Canon

open Paths

/-! ## The function -/

/-- The character `/`. -/
def slash : UInt8 := 47

/-- The character `.`. -/
def dot : UInt8 := 46

/-- `while (*cp == '/' && *np == '/') np++`. -/
def skipSlashes (s : List UInt8) (cp np : ℕ) : ℕ :=
  if h : s[cp]? = some slash ∧ s[np]? = some slash then skipSlashes s cp (np + 1) else np
termination_by s.length - np
decreasing_by
  have := (List.getElem?_eq_some_iff.mp h.2).1
  omega

theorem le_skipSlashes (s : List UInt8) (cp np : ℕ) : np ≤ skipSlashes s cp np := by
  fun_induction skipSlashes s cp np with
  | case1 np h ih => exact (Nat.le_succ np).trans ih
  | case2 np h => exact le_rfl

/-- The loop that closes up runs of slashes, and the NUL after it. -/
def squeeze (s : List UInt8) (cp np : ℕ) : List UInt8 :=
  match h : s[np]? with
  | none => s.take cp
  | some c => squeeze (s.set cp c) (cp + 1) (skipSlashes (s.set cp c) cp (np + 1))
termination_by s.length - np
decreasing_by
  have := (List.getElem?_eq_some_iff.mp h).1
  have := le_skipSlashes (s.set cp c) cp (np + 1)
  rw [List.length_set]
  omega

/-- `if (*--cp == '/') *cp = '\0'`, where `cp` is at the NUL. -/
def dropSlash (s : List UInt8) : List UInt8 :=
  if s[s.length - 1]? = some slash then s.take (s.length - 1) else s

/-- `while (*np != '/' && *np != '\0') np++`. -/
def componentEnd (s : List UInt8) (np : ℕ) : ℕ :=
  if h : s[np]? ≠ some slash ∧ np < s.length then componentEnd s (np + 1) else np
termination_by s.length - np

theorem le_componentEnd (s : List UInt8) (np : ℕ) : np ≤ componentEnd s np := by
  fun_induction componentEnd s np with
  | case1 np h ih => exact (Nat.le_succ np).trans ih
  | case2 np h => exact le_rfl

/-- `while (cp > &canonname[1] && *--cp != '/')`. -/
def backUp (s : List UInt8) : ℕ → ℕ
  | 0 => 0
  | cp + 1 =>
    if cp + 1 > 1 then
      if s[cp]? ≠ some slash then backUp s cp else cp
    else cp + 1

/-- How `canon` ends without a name. -/
inductive Stop where
  /-- `errx(1, "canonname: not enough buffer space")`. -/
  | noSpace
  /-- A `strcpy` between strings that overlap. -/
  | overlap
  deriving DecidableEq

/-- `strcpy(cp, np)` within the string. It writes as many bytes from `cp` on as there are from `np`
to the NUL, and the two must not overlap. -/
def strcpy (s : List UInt8) (cp np : ℕ) : Except Stop (List UInt8) :=
  if np - cp ≤ s.length - np then .error .overlap else .ok (s.take cp ++ s.drop np)

/-- A turn of the loop that takes out components, after `np++`. -/
def eliminateStep (s : List UInt8) (cp : ℕ) : Except Stop (List UInt8 × ℕ) := do
  let np := componentEnd s cp
  let (s, cp, np) ←
    if np - cp = 1 ∧ s[cp]? = some dot then do
      pure (← strcpy s (cp - 1) np, cp - 1, cp - 1)
    else pure (s, cp, np)
  if np - cp = 2 ∧ s[cp]? = some dot ∧ s[cp + 1]? = some dot then
    let cp := backUp s (cp - 1)
    pure (← strcpy s cp np, cp)
  else pure (s, np)

theorem backUp_le (s : List UInt8) (cp : ℕ) : backUp s cp ≤ cp := by
  induction cp with
  | zero => exact le_rfl
  | succ cp ih =>
    rw [backUp]
    split
    · split
      · exact ih.trans (Nat.le_succ cp)
      · exact Nat.le_succ cp
    · exact le_rfl

theorem length_strcpy {s s' : List UInt8} {cp np : ℕ} (hle : cp ≤ np)
    (hcopy : strcpy s cp np = .ok s') : s'.length - cp = s.length - np := by
  rw [strcpy] at hcopy
  split at hcopy
  · cases hcopy
  · obtain rfl := Except.ok.inj hcopy
    rw [List.length_append, List.length_take, List.length_drop]
    omega

/-- After `.` nothing is left for the second test. -/
theorem eliminateStep_eq_ite (s : List UInt8) (cp : ℕ) :
    eliminateStep s cp =
      if componentEnd s cp - cp = 1 ∧ s[cp]? = some dot then
        (strcpy s (cp - 1) (componentEnd s cp)).map (·, cp - 1)
      else if componentEnd s cp - cp = 2 ∧ s[cp]? = some dot ∧ s[cp + 1]? = some dot then
        (strcpy s (backUp s (cp - 1)) (componentEnd s cp)).map (·, backUp s (cp - 1))
      else .ok (s, componentEnd s cp) := by
  rw [eliminateStep]
  split
  · cases strcpy s (cp - 1) (componentEnd s cp) with
    | error stop => rfl
    | ok copy =>
      change (if cp - 1 - (cp - 1) = 2 ∧ _ then _ else _) = _
      rw [if_neg (by omega)]
      rfl
  · rw [pure_bind]
    dsimp only
    split
    · cases strcpy s (backUp s (cp - 1)) (componentEnd s cp) <;> rfl
    · rfl

/-- After a turn less of the string is left. -/
theorem length_eliminateStep {s s' : List UInt8} {cp np : ℕ} (hcp : 0 < cp) (hle : cp ≤ s.length)
    (hturn : eliminateStep s cp = .ok (s', np)) : s'.length - np ≤ s.length - cp := by
  have hend := le_componentEnd s cp
  have hback := backUp_le s (cp - 1)
  rw [eliminateStep_eq_ite] at hturn
  split at hturn
  case isTrue =>
    cases hcopy : strcpy s (cp - 1) (componentEnd s cp) with
    | error stop => rw [hcopy] at hturn; cases hturn
    | ok copy =>
      have hlength := length_strcpy (by omega) hcopy
      rw [hcopy] at hturn
      cases hturn
      omega
  case isFalse =>
    split at hturn
    case isTrue =>
      cases hcopy : strcpy s (backUp s (cp - 1)) (componentEnd s cp) with
      | error stop => rw [hcopy] at hturn; cases hturn
      | ok copy =>
        have hlength := length_strcpy (by omega) hcopy
        rw [hcopy] at hturn
        cases hturn
        omega
    case isFalse =>
      cases hturn
      omega

/-- The loop that takes out components. -/
def eliminate (s : List UInt8) (np : ℕ) : Except Stop (List UInt8) :=
  if hmore : np < s.length then
    match hturn : eliminateStep s (np + 1) with
    | .error stop => .error stop
    | .ok turn =>
      have := length_eliminateStep (Nat.succ_pos np) hmore hturn
      eliminate turn.1 turn.2
  else .ok s
termination_by s.length - np

/-- What is put in front of the path. -/
def start (rawname : List UInt8) : List UInt8 :=
  if rawname = [dot] ∨ rawname.take 2 = [dot, slash] then []
  else if rawname.head? = some slash then [dot]
  else [dot, slash]

/-- `canon` into a buffer of `len` bytes. -/
def canon (rawname : List UInt8) (len : ℕ) : Except Stop (List UInt8) :=
  if (start rawname).length + rawname.length ≥ len then .error .noSpace
  else
    let canonname := start rawname ++ rawname
    eliminate (dropSlash (squeeze canonname 0 0)) 0

/-! ## The runs of slashes -/

section Squeeze

variable {s : List UInt8}

theorem drop_skipSlashes (s : List UInt8) (cp np : ℕ) : s.drop (skipSlashes s cp np) =
    if s[cp]? = some slash then (s.drop np).dropWhile (· = slash) else s.drop np := by
  fun_induction skipSlashes s cp np with
  | case1 np h ih =>
    obtain ⟨hlt, hnp⟩ := List.getElem?_eq_some_iff.mp h.2
    rw [ih, if_pos h.1, if_pos h.1, List.drop_eq_getElem_cons hlt, hnp,
      List.dropWhile_cons_of_pos (by simp)]
  | case2 np h =>
    split
    case isTrue hcp =>
      cases hdrop : s.drop np with
      | nil => rfl
      | cons c l =>
        have hc : s[np]? = some c := by rw [← List.head?_drop, hdrop, List.head?_cons]
        have hne : c ≠ slash := fun hslash => h ⟨hcp, hslash ▸ hc⟩
        rw [List.dropWhile_cons_of_neg (by simpa using hne)]
    case isFalse => rfl

/-- **The first loop** leaves one slash of every run. -/
theorem squeeze_eq (s : List UInt8) {cp np : ℕ} (hle : cp ≤ np) :
    squeeze s cp np = s.take cp ++ squeezed slash (s.drop np) := by
  fun_induction squeeze s cp np with
  | case1 s cp np h =>
    rw [List.drop_eq_nil_of_le (List.getElem?_eq_none_iff.mp h), squeezed, List.append_nil]
  | case2 s cp np c h ih =>
    obtain ⟨hlt, rfl⟩ := List.getElem?_eq_some_iff.mp h
    have hskip := le_skipSlashes (s.set cp s[np]) cp (np + 1)
    have htake : (s.set cp s[np]).take (cp + 1) = s.take cp ++ [s[np]] := by
      rw [List.take_set, List.take_succ_eq_append_getElem (by omega),
        List.set_append_right _ _ (by rw [List.length_take]; omega),
        List.length_take_of_le (by omega), Nat.sub_self, List.set_cons_zero]
    rw [ih (by omega), htake, List.append_assoc, List.drop_eq_getElem_cons hlt,
      List.singleton_append, drop_skipSlashes, List.getElem?_set_self (by omega),
      List.drop_set_of_lt (by omega)]
    congr 1
    split
    case isTrue hslash => rw [Option.some.inj hslash, squeezed_sep]
    case isFalse hslash => rw [squeezed, if_neg fun hc => hslash (congrArg some hc.1)]

theorem dropSlash_eq (s : List UInt8) : dropSlash s = trimmed slash s := by
  rw [dropSlash, trimmed, List.getLast?_eq_getElem?, List.dropLast_eq_take]

end Squeeze

/-! ## The components -/

section Eliminate

variable {s : List UInt8} {done cs : List (List UInt8)} {c : List UInt8}

/-- The text of the components of a stack. -/
def text (cs : List (List UInt8)) : List UInt8 := dot :: rooted slash cs

/-- How many bytes a component takes out where it leaves the stack no longer: `.` itself with its
slash, and `..` also the last name with its slash, if there is one. -/
def takenOut (done : List (List UInt8)) (c : List UInt8) : ℕ :=
  if c = [dot] then 2 else 3 + (done.getLast?.map (·.length + 1)).getD 0

/-- Less text is behind every `.` and `..` than is taken out for it, so that no copy overlaps.
`done` is the stack before the components. -/
def Apart (done : List (List UInt8)) : List (List UInt8) → Prop
  | [] => True
  | c :: cs =>
    (c = [dot] ∨ c = [dot, dot] → (rooted slash cs).length < takenOut done c) ∧
      Apart (enter dot done c) cs

instance Apart.decidable : (done cs : List (List UInt8)) → Decidable (Apart done cs)
  | _, [] => .isTrue trivial
  | done, c :: cs =>
    haveI := Apart.decidable (enter dot done c) cs
    inferInstanceAs (Decidable (_ ∧ _))

theorem componentEnd_eq (s : List UInt8) (np : ℕ) :
    componentEnd s np = np + ((s.drop np).takeWhile (· ≠ slash)).length := by
  fun_induction componentEnd s np with
  | case1 np h ih =>
    rw [List.getElem?_eq_getElem h.2] at h
    have hne : s[np] ≠ slash := fun hslash => h.1 (congrArg some hslash)
    rw [ih, List.drop_eq_getElem_cons h.2, List.takeWhile_cons_of_pos (by simpa using hne),
      List.length_cons]
    omega
  | case2 np h =>
    by_cases hlt : np < s.length
    · have hslash : s[np] = slash := by
        have := Classical.not_and_iff_not_or_not.mp h
        rw [List.getElem?_eq_getElem hlt] at this
        simpa [hlt] using this
      rw [List.drop_eq_getElem_cons hlt, List.takeWhile_cons_of_neg (by simpa using hslash)]
      rfl
    · rw [List.drop_eq_nil_of_le (Nat.le_of_not_lt hlt)]
      rfl

theorem takeWhile_component (hc : slash ∉ c) :
    (c ++ rooted slash cs).takeWhile (· ≠ slash) = c := by
  rw [List.takeWhile_append_of_pos (by
    intro x hx
    simpa using fun h : x = slash => hc (h ▸ hx))]
  cases cs with
  | nil => rw [rooted_nil, List.takeWhile_nil, List.append_nil]
  | cons d cs => rw [rooted_cons, List.takeWhile_cons_of_neg (by simp), List.append_nil]

/-- Backing up over a name. -/
theorem backUp_eq {pre x rest : List UInt8} (hpre : 0 < pre.length) (hx : slash ∉ x) :
    backUp (pre ++ slash :: (x ++ rest)) (pre.length + 1 + x.length) = pre.length := by
  induction x using List.reverseRecOn generalizing rest with
  | nil =>
    rw [List.length_nil, Nat.add_zero, backUp, if_pos (by omega), if_neg (by simp)]
  | append_singleton x y ih =>
    have hy : y ≠ slash := fun h => hx (List.mem_append_right x (h ▸ List.mem_singleton_self y))
    rw [List.length_append, List.length_singleton, ← Nat.add_assoc, backUp, if_pos (by omega),
      List.append_assoc, List.singleton_append]
    have hread : (pre ++ slash :: (x ++ y :: rest))[pre.length + 1 + x.length]? = some y := by
      rw [List.getElem?_append_right (by omega)]
      simp [show pre.length + 1 + x.length - pre.length = x.length + 1 by omega]
    rw [if_pos (by rw [hread]; exact fun h => hy (Option.some.inj h))]
    exact ih (fun h => hx (List.mem_append_left [y] h))

theorem text_concat (cs : List (List UInt8)) (c : List UInt8) :
    text (cs ++ [c]) = text cs ++ slash :: c := by
  rw [text, rooted_append, rooted_cons, rooted_nil, List.append_nil, text, List.cons_append]

theorem length_text_pos (cs : List (List UInt8)) : 0 < (text cs).length := Nat.succ_pos _

/-- The loop that looks for the beginning of the name before `..`. -/
theorem backUp_text (hdone : ∀ d ∈ done, slash ∉ d) (rest : List UInt8) :
    backUp (text done ++ slash :: rest) (text done).length = (text done.dropLast).length := by
  induction done using List.reverseRecOn with
  | nil => rfl
  | append_singleton done d =>
    have hd := hdone d (List.mem_append_right done (List.mem_singleton_self d))
    rw [List.dropLast_concat, text_concat, List.append_assoc, List.cons_append, List.length_append,
      List.length_cons, ← Nat.add_assoc, Nat.add_right_comm]
    exact backUp_eq (length_text_pos done) hd

/-- The text of fewer components is where the text of all is cut off. -/
theorem strcpy_text {old : List (List UInt8)} (hold : old <+: done) {rest cut : List UInt8} :
    strcpy (text done ++ cut ++ rest) (text old).length (text done ++ cut).length =
      if (text done ++ cut).length - (text old).length ≤ rest.length then .error .overlap
      else .ok (text old ++ rest) := by
  obtain ⟨more, rfl⟩ := hold
  have htext : text (old ++ more) = text old ++ rooted slash more := by
    rw [text, rooted_append, text, List.cons_append]
  have hlength : (text (old ++ more) ++ cut ++ rest).length -
      (text (old ++ more) ++ cut).length = rest.length := by
    rw [List.length_append, Nat.add_sub_cancel_left]
  rw [strcpy, List.drop_left, hlength]
  congr 2
  rw [htext, List.append_assoc, List.append_assoc, List.take_left]

/-- Where the copy for `..` goes, and where it comes from. -/
theorem length_text_dots (done : List (List UInt8)) : (text done ++ [slash, dot, dot]).length =
    (text done.dropLast).length + takenOut done [dot, dot] := by
  have hlast : (text done).length =
      (text done.dropLast).length + (done.getLast?.map (·.length + 1)).getD 0 := by
    induction done using List.reverseRecOn with
    | nil => rfl
    | append_singleton done d =>
      rw [List.dropLast_concat, List.getLast?_concat, text_concat, List.length_append,
        List.length_cons]
      rfl
  rw [List.length_append, hlast, takenOut, if_neg (by decide), Nat.add_comm 3, ← Nat.add_assoc]
  rfl

/-- A turn of the loop enters a component, unless a copy overlaps. -/
theorem eliminateStep_eq (hdone : ∀ d ∈ done, slash ∉ d) (hc : slash ∉ c) (hne : c ≠ []) :
    eliminateStep (text done ++ rooted slash (c :: cs)) ((text done).length + 1) =
      if c = [dot] ∨ c = [dot, dot] → (rooted slash cs).length < takenOut done c then
        .ok (text (enter dot done c) ++ rooted slash cs, (text (enter dot done c)).length)
      else .error .overlap := by
  set s := text done ++ rooted slash (c :: cs) with hs
  have hcut : s = text done ++ slash :: c ++ rooted slash cs := by
    rw [hs, rooted_cons, List.append_assoc, List.cons_append]
  have hdrop : s.drop ((text done).length + 1) = c ++ rooted slash cs := by
    rw [hs, rooted_cons, ← List.drop_drop, List.drop_left, List.drop_succ_cons, List.drop_zero]
  have hread : ∀ i, s[(text done).length + 1 + i]? = (c ++ rooted slash cs)[i]? := by
    intro i
    rw [← List.getElem?_drop, hdrop]
  have hend : componentEnd s ((text done).length + 1) = (text done ++ slash :: c).length := by
    rw [componentEnd_eq, hdrop, takeWhile_component hc, List.length_append, List.length_cons]
    omega
  have hlength : componentEnd s ((text done).length + 1) - ((text done).length + 1) = c.length := by
    rw [hend, List.length_append, List.length_cons]
    omega
  have hone : c.length = 1 ∧ s[(text done).length + 1]? = some dot ↔ c = [dot] := by
    have := hread 0
    rw [Nat.add_zero] at this
    rw [this]
    match c, hne with
    | [x], _ => simp
    | x :: y :: c, _ => simp
  have htwo : c.length = 2 ∧ s[(text done).length + 1]? = some dot ∧
      s[(text done).length + 1 + 1]? = some dot ↔ c = [dot, dot] := by
    have := hread 0
    rw [Nat.add_zero] at this
    rw [this, hread 1]
    match c, hne with
    | [x], _ => simp
    | [x, y], _ => simp
    | x :: y :: z :: c, _ => simp
  have hcopy : ∀ old, old <+: done →
      (text done ++ slash :: c).length = (text old).length + takenOut done c →
      strcpy s (text old).length (text done ++ slash :: c).length =
        if (rooted slash cs).length < takenOut done c then .ok (text old ++ rooted slash cs)
        else .error .overlap := by
    intro old hold hout
    rw [hcut, strcpy_text hold, hout, Nat.add_sub_cancel_left, ← ite_not]
    simp only [Nat.not_le]
  rw [eliminateStep_eq_ite, hlength, hend, Nat.add_sub_cancel]
  simp only [hone, htwo]
  by_cases hdot : c = [dot]
  · subst hdot
    have hout : (text done ++ [slash, dot]).length = (text done).length + takenOut done [dot] :=
      List.length_append
    have henter : enter dot done [dot] = done := by simp [enter]
    rw [if_pos rfl, hcopy done List.prefix_rfl hout, henter]
    simp only [true_or, forall_const, apply_ite (Except.map _)]
    rfl
  · rw [if_neg hdot]
    by_cases hdots : c = [dot, dot]
    · subst hdots
      have hback : backUp s (text done).length = (text done.dropLast).length := by
        rw [hs, rooted_cons]
        exact backUp_text hdone _
      have henter : enter dot done [dot, dot] = done.dropLast := by simp [enter]
      rw [if_pos rfl, hback, hcopy _ (List.dropLast_prefix done) (length_text_dots done), henter]
      simp only [or_true, forall_const, apply_ite (Except.map _)]
      rfl
    · rw [if_neg hdots, enter_of_proper ⟨hne, hdot, hdots⟩, text_concat, ← hcut,
        if_pos (by rintro (h | h) <;> [exact absurd h hdot; exact absurd h hdots])]

/-- **The second loop** enters the components one after the other, as long as no copy overlaps. -/
theorem eliminate_eq (hdone : ∀ d ∈ done, slash ∉ d) (hcs : ∀ c ∈ cs, slash ∉ c ∧ c ≠ []) :
    eliminate (text done ++ rooted slash cs) (text done).length =
      if Apart done cs then .ok (text (cs.foldl (enter dot) done)) else .error .overlap := by
  induction cs generalizing done with
  | nil =>
    rw [rooted_nil, List.append_nil, eliminate, dif_neg (Nat.lt_irrefl _), List.foldl_nil,
      if_pos (show Apart done [] from trivial)]
  | cons c cs ih =>
    obtain ⟨⟨hc, hne⟩, hcs⟩ := List.forall_mem_cons.mp hcs
    have hlt : (text done).length < (text done ++ rooted slash (c :: cs)).length := by
      rw [List.length_append, rooted_cons, List.length_cons]
      omega
    have hnext : ∀ d ∈ enter dot done c, slash ∉ d := by
      intro d hd
      obtain hd | ⟨rfl, -⟩ := mem_enter hd
      · exact hdone d hd
      · exact hc
    have hturn : eliminateStep (text done ++ rooted slash (c :: cs)) ((text done).length + 1) =
        if c = [dot] ∨ c = [dot, dot] → (rooted slash cs).length < takenOut done c then _ else _ :=
      eliminateStep_eq hdone hc hne
    rw [eliminate, dif_pos hlt, List.foldl_cons]
    by_cases hover : c = [dot] ∨ c = [dot, dot] → (rooted slash cs).length < takenOut done c
    · rw [if_pos hover] at hturn
      split
      case h_1 stop herror => cases hturn.symm.trans herror
      case h_2 turn hok =>
        obtain rfl := Except.ok.inj (hturn.symm.trans hok)
        rw [ih hnext hcs]
        simp only [Apart, and_iff_right hover]
    · rw [if_neg hover] at hturn
      rw [if_neg fun h => hover h.1]
      split
      case h_1 stop herror =>
        obtain rfl := Except.error.inj (hturn.symm.trans herror)
        rfl
      case h_2 turn hok => cases hturn.symm.trans hok

/-- The first turn of the loop is over the `.` for the root. -/
theorem eliminate_root (cs : List (List UInt8)) :
    eliminate (text cs) 0 = eliminate (text cs) (text []).length := by
  have hend : componentEnd (text cs) 1 = 1 := by
    rw [componentEnd_eq, text, List.drop_succ_cons, List.drop_zero]
    cases cs with
    | nil => rfl
    | cons c cs => rw [rooted_cons, List.takeWhile_cons_of_neg (by simp), List.length_nil]
  have hstep : eliminateStep (text cs) 1 = .ok (text cs, 1) := by
    rw [eliminateStep_eq_ite, hend, if_neg (by simp), if_neg (by simp)]
  rw [eliminate, dif_pos (length_text_pos cs)]
  split
  case h_1 stop herror => cases hstep.symm.trans herror
  case h_2 turn hok =>
    obtain rfl := Except.ok.inj (hstep.symm.trans hok)
    rfl

end Eliminate

/-! ## The result -/

section Result

variable {rawname : List UInt8} {len : ℕ}

/-- What `canon` starts with is a `.`, and the path behind it evaluates to the same components. -/
theorem start_append (rawname : List UInt8) : ∃ cs, start rawname ++ rawname = text cs ∧
    (∀ c ∈ cs, slash ∉ c) ∧ evaluate dot cs = evaluate dot (rawname.splitOn slash) := by
  have hsplit : ∀ l : List UInt8, text (l.splitOn slash) = dot :: slash :: l := fun l => by
    rw [text, rooted_splitOn]
  rw [start]
  split
  case isTrue hdot =>
    obtain rfl | hdot := hdot
    · exact ⟨[], rfl, fun c hc => absurd hc List.not_mem_nil, rfl⟩
    · match rawname, hdot with
      | x :: y :: rest, hdot =>
        obtain ⟨rfl, h⟩ := List.cons.inj hdot
        obtain ⟨rfl, -⟩ := List.cons.inj h
        refine ⟨rest.splitOn slash, (hsplit rest).symm, fun c => not_mem_of_mem_splitOn, ?_⟩
        have hcomponents : ([dot] ++ slash :: rest).splitOn slash = [dot] :: rest.splitOn slash :=
          List.splitOn_append_cons_self_of_not_mem (by decide) rest
        rw [← List.singleton_append, hcomponents, evaluate_cons_dot]
  case isFalse =>
    split
    case isTrue hslash =>
      cases rawname with
      | nil => cases hslash
      | cons x rest =>
        obtain rfl := Option.some.inj hslash
        refine ⟨rest.splitOn slash, (hsplit rest).symm, fun c => not_mem_of_mem_splitOn, ?_⟩
        rw [List.splitOn_cons_eq_if_modifyHead, if_pos (by simp), evaluate_cons_nil]
    case isFalse =>
      exact ⟨rawname.splitOn slash, (hsplit rawname).symm, fun c => not_mem_of_mem_splitOn, rfl⟩

/-- The components of a path behind the root, as `canon` meets them: the empty ones are closed up
before. -/
def components (rawname : List UInt8) : List (List UInt8) :=
  ((start rawname ++ rawname).splitOn slash).tail.filter (· ≠ [])

/-- **What `canon` computes**: the text of the components that the stack has in the end. -/
theorem canon_eq (hfits : (start rawname).length + rawname.length < len) :
    canon rawname len =
      if Apart [] (components rawname) then .ok (text (evaluate dot (rawname.splitOn slash)))
      else .error .overlap := by
  obtain ⟨cs, htext, hcs, hevaluate⟩ := start_append rawname
  have hcomponents : components rawname = cs.filter (· ≠ []) := by
    have hsplit : (text cs).splitOn slash = [dot] :: cs :=
      splitOn_append_rooted (c := [dot]) (by decide) hcs
    rw [components, htext, hsplit, List.tail_cons]
  have hnames : ∀ c ∈ cs.filter (· ≠ []), slash ∉ c ∧ c ≠ [] := by
    intro c hc
    obtain ⟨hmem, hne⟩ := List.mem_filter.mp hc
    exact ⟨hcs c hmem, by simpa using hne⟩
  have hsqueeze : dropSlash (squeeze (text cs) 0 0) = text (cs.filter (· ≠ [])) := by
    rw [dropSlash_eq, squeeze_eq _ le_rfl, List.take_zero, List.nil_append, List.drop_zero, text]
    have hdot : slash ∉ [dot] := by decide
    rw [← List.singleton_append, squeezed_append hdot, trimmed_append (by decide),
      trimmed_squeezed_rooted hcs]
    rfl
  rw [canon, if_neg (by omega)]
  dsimp only
  rw [htext, hsqueeze, eliminate_root, hcomponents]
  have hloop : eliminate (text (cs.filter (· ≠ []))) (text []).length =
      if Apart [] (cs.filter (· ≠ [])) then
        .ok (text ((cs.filter (· ≠ [])).foldl (enter dot) []))
      else .error .overlap :=
    eliminate_eq (fun d hd => absurd hd List.not_mem_nil) hnames
  rw [hloop, foldl_enter_filter, ← hevaluate, evaluate]

theorem length_text_enter (stack : List (List UInt8)) (c : List UInt8) :
    (text (enter dot stack c)).length ≤ (text stack).length + (1 + c.length) := by
  rw [enter]
  split
  · exact Nat.le_add_right _ _
  split
  · obtain ⟨more, hmore⟩ := List.dropLast_prefix stack
    have hlength : (text stack).length = (text stack.dropLast).length +
        (rooted slash more).length := by
      conv_lhs => rw [← hmore]
      rw [text, rooted_append, ← List.cons_append, ← text, List.length_append]
    omega
  · rw [text_concat, List.length_append, List.length_cons]
    omega

/-- The evaluation does not make a path longer. -/
theorem length_text_foldl (stack cs : List (List UInt8)) :
    (text (cs.foldl (enter dot) stack)).length ≤
      (text stack).length + (rooted slash cs).length := by
  induction cs generalizing stack with
  | nil => exact Nat.le_add_right _ _
  | cons c cs ih =>
    have hstep := length_text_enter stack c
    have hrest := ih (enter dot stack c)
    rw [List.foldl_cons, rooted_cons, List.length_cons, List.length_append]
    omega

theorem length_canonname (rawname : List UInt8) :
    (text (evaluate dot (rawname.splitOn slash))).length ≤
      (start rawname).length + rawname.length := by
  obtain ⟨cs, htext, -, hevaluate⟩ := start_append rawname
  have hle := length_text_foldl [] cs
  rw [← hevaluate, ← List.length_append, htext]
  refine hle.trans (Nat.le_of_eq ?_)
  simp [text, Nat.add_comm]

/-- Nothing is put in front of a canonical path. -/
theorem start_text (cs : List (List UInt8)) : start (text cs) = [] := by
  rw [start, if_pos]
  cases cs with
  | nil => exact .inl rfl
  | cons c cs => exact .inr rfl

/-- Names of entries take nothing out. -/
theorem apart_of_proper (hcs : ∀ c ∈ cs, Proper dot c) (done : List (List UInt8)) :
    Apart done cs := by
  induction cs generalizing done with
  | nil => exact trivial
  | cons c cs ih =>
    obtain ⟨⟨-, hdot, hdots⟩, hcs⟩ := List.forall_mem_cons.mp hcs
    exact ⟨by rintro (h | h) <;> [exact absurd h hdot; exact absurd h hdots], ih hcs _⟩

/-- **Canonical names.** A path that fits the buffer becomes `.` or a path that begins with `./`,
whose other components are those that the evaluation of the path on a stack leaves, none of them
empty, `.` or `..`, and which `canon` then leaves as it is, just if every `.` in it and every `..`
is followed by less text than is taken out for it. Otherwise `strcpy` is called on strings that
overlap. -/
theorem canon_normal_iff (rawname : List UInt8) (len : ℕ)
    (hfits : (start rawname).length + rawname.length < len) :
    (∃ canonname, canon rawname len = .ok canonname ∧
      (canonname = [dot] ∨ [dot, slash] <+: canonname) ∧
      canonname.splitOn slash = [dot] :: evaluate dot (rawname.splitOn slash) ∧
      (∀ c ∈ (canonname.splitOn slash).tail, Proper dot c) ∧
      canon canonname len = .ok canonname) ↔
    Apart [] (components rawname) := by
  constructor
  · rintro ⟨canonname, hcanon, -⟩
    by_contra hover
    rw [canon_eq hfits, if_neg hover] at hcanon
    cases hcanon
  intro hapart
  set cs := evaluate dot (rawname.splitOn slash) with hcs
  have hmem : ∀ c ∈ cs, slash ∉ c ∧ Proper dot c := by
    intro c hc
    obtain ⟨hsplit, hproper⟩ := mem_evaluate hc
    exact ⟨not_mem_of_mem_splitOn hsplit, hproper⟩
  have hdot : slash ∉ [dot] := by decide
  have hsplit : (text cs).splitOn slash = [dot] :: cs :=
    splitOn_append_rooted hdot fun c hc => (hmem c hc).1
  have hagain : (start (text cs)).length + (text cs).length < len := by
    rw [start_text, List.length_nil, Nat.zero_add]
    exact (length_canonname rawname).trans_lt hfits
  have hcomponents : ∀ c ∈ components (text cs), Proper dot c := by
    rw [components, start_text, List.nil_append, hsplit, List.tail_cons]
    exact fun c hc => (hmem c (List.mem_of_mem_filter hc)).2
  refine ⟨text cs, by rw [canon_eq hfits, if_pos hapart], ?_, hsplit, ?_, ?_⟩
  · cases cs with
    | nil => exact .inl rfl
    | cons c cs => exact .inr ⟨c ++ rooted slash cs, rfl⟩
  · rw [hsplit, List.tail_cons]
    exact fun c hc => (hmem c hc).2
  · rw [canon_eq hagain, if_pos (apart_of_proper hcomponents []), hsplit, evaluate_cons_dot,
      evaluate_of_proper fun c hc => (hmem c hc).2]

/-- `/abcdefgh//..//c/.` in a buffer of 32 bytes. -/
theorem canon_normal_iff_dots : ∃ canonname,
    canon [47, 97, 98, 99, 100, 101, 102, 103, 104, 47, 47, 46, 46, 47, 47, 99, 47, 46] 32 =
      .ok canonname ∧ canonname.splitOn slash = [[dot], [99]] := by
  obtain ⟨canonname, hcanon, -, hsplit, -⟩ := (canon_normal_iff
    [47, 97, 98, 99, 100, 101, 102, 103, 104, 47, 47, 46, 46, 47, 47, 99, 47, 46] 32
    (by decide)).mpr (by decide)
  exact ⟨canonname, hcanon, hsplit⟩

/-- `a/./abcdefghijklmnopqrstuvwxyzABCDEFGHIJKLMN`. -/
def longName : List UInt8 :=
  [97, 47, 46, 47] ++ (List.range 26).map (fun i => UInt8.ofNat (97 + i)) ++
    (List.range 14).map fun i => UInt8.ofNat (65 + i)

/-- The name of 40 letters is to be copied to two bytes before where it stands. -/
theorem not_canon_longName : ¬ ∃ canonname, canon longName 64 = .ok canonname ∧
    canonname.splitOn slash = [dot] :: evaluate dot (longName.splitOn slash) := by
  rintro ⟨canonname, hcanon, -⟩
  rw [canon_eq (by decide), if_neg (by decide)] at hcanon
  cases hcanon

end Result

end DumpRestore.Canon
