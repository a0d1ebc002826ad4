import Mathlib.Algebra.Order.BigOperators.Group.List
import Mathlib.Algebra.Order.Group.Nat
import Mathlib.Algebra.Ring.Nat
import Mathlib.Data.List.Basic

/-!
# Bins that are filled in order

A list of sizes goes into bins of one capacity. The order is kept and a bin that has been left is
never used again, so that a packing is a cut of the list into consecutive parts.

* `Packs` says that a number of bins is enough.
* `nextFit` is the number of bins that are started when every size goes into the last bin if it
  fits there.
* `packs_iff`: no cut takes fewer bins.
-/

namespace DumpRestore.Bins

/-- The sizes can be cut into at most `n` parts, none of which is larger than `cap`. -/
def Packs (cap n : ℕ) (sizes : List ℕ) : Prop :=
  ∃ parts : List (List ℕ), parts.flatten = sizes ∧ (∀ part ∈ parts, part.sum ≤ cap) ∧
    parts.length ≤ n

/-- The bins that are started when the last one has some room left. -/
def nextFit (cap : ℕ) : (room : ℕ) → List ℕ → ℕ
  | _, [] => 0
  | room, s :: sizes =>
    if s ≤ room then nextFit cap (room - s) sizes else 1 + nextFit cap (cap - s) sizes

variable {cap room n : ℕ} {sizes : List ℕ}

theorem Packs.mono {m : ℕ} (h : Packs cap n sizes) (hle : n ≤ m) : Packs cap m sizes := by
  obtain ⟨parts, hflat, hcap, hlen⟩ := h
  exact ⟨parts, hflat, hcap, hlen.trans hle⟩

/-- More room never costs a bin, and never saves more than one. -/
theorem nextFit_room (sizes : List ℕ) {c m n : ℕ} (hle : m ≤ n) (hcap : n ≤ c) :
    nextFit c n sizes ≤ nextFit c m sizes ∧ nextFit c m sizes ≤ 1 + nextFit c n sizes := by
  induction sizes generalizing m n with
  | nil => exact ⟨le_rfl, Nat.zero_le _⟩
  | cons s sizes ih =>
    rw [nextFit, nextFit]
    by_cases hs' : s ≤ m
    · rw [if_pos hs', if_pos (hs'.trans hle)]
      exact ih (by omega) (by omega)
    · rw [if_neg hs']
      by_cases hs : s ≤ n
      -- only the larger room takes the size
      · rw [if_pos hs]
        obtain ⟨hfewer, hmore⟩ := ih (n := c - s) (m := n - s) (by omega) (by omega)
        omega
      · rw [if_neg hs]
        omega

/-- Sizes that fit the last bin together. -/
theorem nextFit_append {part : List ℕ} (h : part.sum ≤ room) (sizes : List ℕ) :
    nextFit cap room (part ++ sizes) = nextFit cap (room - part.sum) sizes := by
  induction part generalizing room with
  | nil => rfl
  | cons s part ih =>
    rw [List.sum_cons] at h ⊢
    rw [List.cons_append, nextFit, if_pos (by omega), ih (by omega), Nat.sub_sub]

/-- A cut has a part for every bin that is started. -/
theorem nextFit_flatten_le {parts : List (List ℕ)} (h : ∀ part ∈ parts, part.sum ≤ cap) :
    nextFit cap 0 parts.flatten ≤ parts.length := by
  induction parts with
  | nil => exact le_rfl
  | cons part parts ih =>
    obtain ⟨hpart, hparts⟩ := List.forall_mem_cons.mp h
    have hrest := ih hparts
    have hempty := (nextFit_room (part ++ parts.flatten) (Nat.zero_le cap) le_rfl).2
    have hroom := (nextFit_room parts.flatten (Nat.zero_le (cap - part.sum))
      (Nat.sub_le ..)).1
    rw [nextFit_append hpart] at hempty
    rw [List.flatten_cons, List.length_cons]
    omega

/-- The cut that the bins make. Its first part goes into the bin that is open. -/
theorem exists_parts (h : ∀ s ∈ sizes, s ≤ cap) (room : ℕ) :
    ∃ part parts, part ++ List.flatten parts = sizes ∧ part.sum ≤ room ∧
      (∀ p ∈ parts, p.sum ≤ cap) ∧ parts.length = nextFit cap room sizes := by
  induction sizes generalizing room with
  | nil => exact ⟨[], [], rfl, Nat.zero_le _, by simp, rfl⟩
  | cons s sizes ih =>
    obtain ⟨hs, hsizes⟩ := List.forall_mem_cons.mp h
    rw [nextFit]
    split
    case isTrue hroom =>
      obtain ⟨part, parts, hflat, hsum, hcap, hlen⟩ := ih hsizes (room - s)
      refine ⟨s :: part, parts, by rw [List.cons_append, hflat], ?_, hcap, hlen⟩
      rw [List.sum_cons]
      omega
    case isFalse =>
      obtain ⟨part, parts, hflat, hsum, hcap, hlen⟩ := ih hsizes (cap - s)
      refine ⟨[], (s :: part) :: parts, ?_, Nat.zero_le _, ?_, ?_⟩
      · rw [List.nil_append, List.flatten_cons, List.cons_append, hflat]
      · refine List.forall_mem_cons.mpr ⟨?_, hcap⟩
        rw [List.sum_cons]
        omega
      · rw [List.length_cons, hlen]
        omega

/-- **Going on to the next bin only when the last one is full is best.** -/
theorem packs_iff (h : ∀ s ∈ sizes, 0 < s ∧ s ≤ cap) :
    Packs cap n sizes ↔ nextFit cap 0 sizes ≤ n := by
  constructor
  · rintro ⟨parts, rfl, hcap, hlen⟩
    exact (nextFit_flatten_le hcap).trans hlen
  · intro hle
    obtain ⟨part, parts, hflat, hsum, hcap, hlen⟩ := exists_parts (fun s hs => (h s hs).2) 0
    -- no size is zero, so that nothing goes into a bin without room
    have hnil : part = [] := by
      refine List.eq_nil_iff_forall_not_mem.mpr fun s hs => ?_
      have hpos := (h s (hflat ▸ List.mem_append_left _ hs)).1
      have := List.le_sum_of_mem hs
      omega
    refine ⟨parts, by rw [← hflat, hnil, List.nil_append], hcap, hlen.trans_le hle⟩

end DumpRestore.Bins
