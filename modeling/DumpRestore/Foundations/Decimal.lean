import Mathlib.Data.Nat.Digits.Lemmas
import Mathlib.Data.List.TakeWhile

/-!
# Decimal numbers in text

`printf` writes a number with `%d` and `atoi` reads it back. Text is a list of bytes.

* `decimal` is `%d`, and `strtol` reads a number from the front of a text.
* `strtol_decimal`: a number comes back if no digit follows it.
-/

namespace DumpRestore

/-- The bytes of a text. -/
def str (s : String) : List UInt8 := s.toList.map fun c => UInt8.ofNat c.toNat

namespace Decimal

/-- A digit. -/
def digit (d : ℕ) : UInt8 := UInt8.ofNat (48 + d)

/-- `isdigit`. -/
def isDigit (c : UInt8) : Bool := 48 ≤ c.toNat && c.toNat ≤ 57

/-- `isspace`. -/
def isSpace (c : UInt8) : Bool := c.toNat == 32 || (9 ≤ c.toNat && c.toNat ≤ 13)

/-- A number without its sign. -/
def natural (n : ℕ) : List UInt8 :=
  if n = 0 then [digit 0] else ((Nat.digits 10 n).map digit).reverse

/-- `%d`. -/
def decimal (z : ℤ) : List UInt8 :=
  if z < 0 then 45 :: natural z.natAbs else natural z.natAbs

/-- The number of the digits at the front of a text. -/
def value (text : List UInt8) : ℕ :=
  (text.takeWhile isDigit).foldl (fun n c => n * 10 + (c.toNat - 48)) 0

/-- `strtol` with base 10, without the overflow of a `long`. -/
def strtol (text : List UInt8) : ℤ :=
  match text.dropWhile isSpace with
  | 45 :: text => -value text
  | 43 :: text => value text
  | text => value text

/-- `atoi`: the `long` is cut to an `int`. -/
def atoi (text : List UInt8) : ℤ := (strtol text).bmod (2 ^ 32)

/-! ## Digits -/

theorem toNat_digit {d : ℕ} (h : d < 10) : (digit d).toNat = 48 + d := by
  rw [digit, UInt8.toNat_ofNat']
  omega

theorem isDigit_digit {d : ℕ} (h : d < 10) : isDigit (digit d) = true := by
  simp only [isDigit, toNat_digit h, Bool.and_eq_true, decide_eq_true_eq]
  omega

theorem forall_natural (n : ℕ) : ∀ c ∈ natural n, isDigit c = true := by
  intro c hc
  rw [natural] at hc
  split at hc
  · rw [List.mem_singleton.mp hc]
    exact isDigit_digit (by decide)
  · obtain ⟨d, hd, rfl⟩ := List.mem_map.mp (List.mem_reverse.mp hc)
    exact isDigit_digit (Nat.digits_lt_base (by decide) hd)

theorem natural_ne_nil (n : ℕ) : natural n ≠ [] := by
  rw [natural]
  split
  · nofun
  · next hn => simpa using Nat.digits_ne_nil_iff_ne_zero.mpr hn

/-- The digits of a number make it up. -/
theorem value_natural (n : ℕ) {rest : List UInt8} (hrest : ∀ c ∈ rest.head?, isDigit c = false) :
    value (natural n ++ rest) = n := by
  have htake : (natural n ++ rest).takeWhile isDigit = natural n := by
    rw [List.takeWhile_append_of_pos (forall_natural n)]
    cases rest with
    | nil => simp
    | cons c cs => simp [hrest c rfl]
  rw [value, htake, natural]
  split
  · next hn =>
    subst hn
    rfl
  · have hfold (ds : List ℕ) (hds : ∀ d ∈ ds, d < 10) :
        ((ds.map digit).reverse).foldl (fun n c => n * 10 + (c.toNat - 48)) 0 =
          Nat.ofDigits 10 ds := by
      induction ds with
      | nil => rfl
      | cons d ds ih =>
        rw [List.map_cons, List.reverse_cons, List.foldl_append, List.foldl_cons, List.foldl_nil,
          ih fun e he => hds e (List.mem_cons_of_mem _ he),
          toNat_digit (hds d List.mem_cons_self), Nat.ofDigits_cons]
        omega
    rw [hfold _ fun d hd => Nat.digits_lt_base (by decide) hd, Nat.ofDigits_digits]

/-! ## Numbers -/

theorem isDigit_head_natural (n : ℕ) (rest : List UInt8) :
    ∃ c cs, natural n ++ rest = c :: cs ∧ isDigit c = true := by
  cases hn : natural n with
  | nil => exact absurd hn (natural_ne_nil n)
  | cons c cs => exact ⟨c, cs ++ rest, rfl, forall_natural n c (hn ▸ List.mem_cons_self)⟩

theorem dropWhile_natural (n : ℕ) (rest : List UInt8) :
    (natural n ++ rest).dropWhile isSpace = natural n ++ rest := by
  obtain ⟨c, cs, heq, hdigit⟩ := isDigit_head_natural n rest
  have hspace : isSpace c = false := by
    simp only [isDigit, Bool.and_eq_true, decide_eq_true_eq] at hdigit
    simp only [isSpace, Bool.or_eq_false_iff, beq_eq_false_iff_ne, Bool.and_eq_false_iff,
      decide_eq_false_iff_not]
    omega
  rw [heq, List.dropWhile_cons_of_neg (by simp [hspace])]

/-- A number that is printed and read again. -/
theorem strtol_decimal (z : ℤ) {rest : List UInt8} (hrest : ∀ c ∈ rest.head?, isDigit c = false) :
    strtol (decimal z ++ rest) = z := by
  rw [decimal]
  split
  · next hneg =>
    have hdrop : (45 :: natural z.natAbs ++ rest).dropWhile isSpace =
        45 :: (natural z.natAbs ++ rest) := by
      rw [List.cons_append, List.dropWhile_cons_of_neg (by decide)]
    rw [strtol, hdrop]
    simp only [value_natural _ hrest]
    omega
  · next hpos =>
    obtain ⟨c, cs, heq, hdigit⟩ := isDigit_head_natural z.natAbs rest
    have hvalue := value_natural z.natAbs hrest
    rw [strtol, dropWhile_natural, heq] at *
    rw [heq] at hvalue
    split
    · next h => simp [(List.cons.inj h).1, isDigit] at hdigit
    · next h => simp [(List.cons.inj h).1, isDigit] at hdigit
    · omega

theorem atoi_decimal {z : ℤ} (hlo : -2 ^ 31 ≤ z) (hhi : z < 2 ^ 31) {rest : List UInt8}
    (hrest : ∀ c ∈ rest.head?, isDigit c = false) : atoi (decimal z ++ rest) = z := by
  rw [atoi, strtol_decimal z hrest, Int.bmod_eq_of_le] <;> omega

/-! ## Columns -/

/-- A field of a fixed width. -/
def padLeft (width : ℕ) (fill : UInt8) (text : List UInt8) : List UInt8 :=
  List.replicate (width - text.length) fill ++ text

theorem natural_of_lt {n : ℕ} (h : n < 10) : natural n = [digit n] := by
  rw [natural]
  split
  · next hn => rw [hn]
  · next hn => rw [Nat.digits_of_lt 10 n hn h]; rfl

theorem natural_of_ge {n : ℕ} (h : 10 ≤ n) : natural n = natural (n / 10) ++ [digit (n % 10)] := by
  rw [natural, natural, if_neg (by omega), if_neg (by omega),
    Nat.digits_def' (by decide) (by omega), List.map_cons, List.reverse_cons]

theorem natural_two {n : ℕ} (hlo : 10 ≤ n) (hhi : n < 100) :
    natural n = [digit (n / 10), digit (n % 10)] := by
  rw [natural_of_ge hlo, natural_of_lt (by omega)]
  rfl

theorem natural_four {n : ℕ} (hlo : 1000 ≤ n) (hhi : n < 10000) : natural n =
    [digit (n / 1000), digit (n / 100 % 10), digit (n / 10 % 10), digit (n % 10)] := by
  rw [natural_of_ge (by omega), natural_of_ge (by omega), natural_two (by omega) (by omega),
    show n / 10 / 10 / 10 = n / 1000 by omega, show n / 10 / 10 = n / 100 by omega]
  rfl

/-- A number of at most two digits, with a zero in front of a single one. -/
theorem padLeft_two {n : ℕ} (h : n < 100) :
    padLeft 2 48 (natural n) = [digit (n / 10), digit (n % 10)] := by
  by_cases hn : n < 10
  · rw [natural_of_lt hn, Nat.div_eq_of_lt hn, Nat.mod_eq_of_lt hn]
    rfl
  · rw [natural_two (by omega) h]
    rfl

theorem decimal_of_nonneg {z : ℤ} (h : 0 ≤ z) : decimal z = natural z.toNat := by
  rw [decimal, if_neg (by omega), show z.natAbs = z.toNat by omega]

/-- The value of digits, a zero in front included. -/
theorem value_digits (ds : List ℕ) (hds : ∀ d ∈ ds, d < 10) {rest : List UInt8}
    (hrest : ∀ c ∈ rest.head?, isDigit c = false) :
    value (ds.map digit ++ rest) = ds.foldl (fun n d => n * 10 + d) 0 := by
  have htake : (ds.map digit ++ rest).takeWhile isDigit = ds.map digit := by
    rw [List.takeWhile_append_of_pos fun c hc => ?_]
    · cases rest with
      | nil => simp
      | cons c cs => simp [hrest c rfl]
    · obtain ⟨d, hd, rfl⟩ := List.mem_map.mp hc
      exact isDigit_digit (hds d hd)
  rw [value, htake, List.foldl_map]
  refine List.foldl_ext _ _ _ fun n d hd => ?_
  rw [toNat_digit (hds d hd), Nat.add_sub_cancel_left]

theorem strtol_cons_space (text : List UInt8) : strtol (32 :: text) = strtol text := by
  rw [strtol, List.dropWhile_cons_of_pos (by decide)]
  rfl

theorem strtol_minus (text : List UInt8) : strtol (45 :: text) = -value text := by
  rw [strtol, List.dropWhile_cons_of_neg (by decide)]
  rfl

theorem strtol_plus (text : List UInt8) : strtol (43 :: text) = value text := by
  rw [strtol, List.dropWhile_cons_of_neg (by decide)]
  rfl

theorem strtol_of_digit {c : UInt8} (h : isDigit c = true) (text : List UInt8) :
    strtol (c :: text) = value (c :: text) := by
  have hc : 48 ≤ c.toNat ∧ c.toNat ≤ 57 := by
    simpa only [isDigit, Bool.and_eq_true, decide_eq_true_eq] using h
  have hspace : isSpace c = false := by
    simp only [isSpace, Bool.or_eq_false_iff, beq_eq_false_iff_ne, Bool.and_eq_false_iff,
      decide_eq_false_iff_not]
    omega
  rw [strtol, List.dropWhile_cons_of_neg (by simp [hspace])]
  split
  · next heq =>
    rw [(List.cons.inj heq).1] at hc
    exact absurd hc (by decide)
  · next heq =>
    rw [(List.cons.inj heq).1] at hc
    exact absurd hc (by decide)
  · rfl

theorem atoi_of_strtol {text : List UInt8} {z : ℤ} (h : strtol text = z) (hlo : -2 ^ 31 ≤ z)
    (hhi : z < 2 ^ 31) : atoi text = z := by
  rw [atoi, h, Int.bmod_eq_of_le] <;> omega

/-- The length of a number. -/
theorem length_decimal_le {z : ℤ} {k : ℕ} (hk : 0 < k) (hz : z.natAbs < 10 ^ k) :
    (decimal z).length ≤ k + 1 := by
  have hnat : (natural z.natAbs).length ≤ k := by
    rw [natural]
    split
    · exact hk
    · rw [List.length_reverse, List.length_map]
      exact (Nat.digits_length_le_iff (by decide) _).mpr hz
  rw [decimal]
  split
  · exact Nat.succ_le_succ hnat
  · exact hnat.trans (Nat.le_succ k)

/-- Numbers contain no byte that is neither a digit nor a sign. -/
theorem not_mem_decimal (z : ℤ) {c : UInt8} (hsign : c ≠ 45) (hdigit : isDigit c = false) :
    c ∉ decimal z := by
  have hnat : c ∉ natural z.natAbs := fun hc => by
    rw [forall_natural _ c hc] at hdigit
    cases hdigit
  rw [decimal]
  split
  · exact List.not_mem_cons_of_ne_of_not_mem hsign hnat
  · exact hnat

end Decimal

end DumpRestore
