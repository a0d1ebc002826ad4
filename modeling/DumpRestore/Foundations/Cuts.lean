import Mathlib.Algebra.BigOperators.Group.List.Lemmas
import Mathlib.Algebra.Ring.Nat
import Mathlib.Data.List.Basic

/-!
# Lists that are cut after marked elements

Some elements of a list are marked. After each of them the list is cut, so that its last part, which
may be empty, has no mark.

* `cut` are the parts, and `marks` the places at which parts start behind the first one.
* `sum_take_cut`: these places are the sums of the lengths of the parts before.
* `drop_take_cut`: a part is what lies between two places.
-/

namespace DumpRestore.Cuts

variable {α : Type*}

/-- The parts of a list that is cut after each marked element. -/
def cut : List (α × Bool) → List (List α)
  | [] => [[]]
  | (x, mark) :: ps => if mark then [x] :: cut ps else (cut ps).modifyHead (x :: ·)

/-- The places behind marked elements, if the list starts at place `n`. -/
def marks : (n : ℕ) → List Bool → List ℕ
  | _, [] => []
  | n, mark :: ms => if mark then (n + 1) :: marks (n + 1) ms else marks (n + 1) ms

/-- The parts of a list behind elements that are not marked. -/
def cutFrom (xs : List α) (ps : List (α × Bool)) : List (List α) := (cut ps).modifyHead (xs ++ ·)

theorem marks_concat (n : ℕ) (ms : List Bool) (mark : Bool) :
    marks n (ms ++ [mark]) = marks n ms ++ if mark then [n + ms.length + 1] else [] := by
  induction ms generalizing n with
  | nil => cases mark <;> rfl
  | cons m ms ih =>
    have hplace : n + 1 + ms.length + 1 = n + (m :: ms).length + 1 := by
      rw [List.length_cons]
      omega
    cases m <;> simp [marks, ih, hplace]

theorem cut_ne_nil (ps : List (α × Bool)) : cut ps ≠ [] := by
  induction ps with
  | nil => exact List.cons_ne_nil _ _
  | cons p ps ih =>
    obtain ⟨x, mark⟩ := p
    cases mark
    · rw [cut, if_neg (by decide)]
      obtain ⟨c, cs, hcs⟩ := List.exists_cons_of_ne_nil ih
      rw [hcs]
      exact List.cons_ne_nil _ _
    · exact List.cons_ne_nil _ _

theorem cutFrom_nil (ps : List (α × Bool)) : cutFrom [] ps = cut ps := by
  rw [cutFrom]
  cases cut ps <;> rfl

theorem cutFrom_mark (xs : List α) (x : α) (ps : List (α × Bool)) :
    cutFrom xs ((x, true) :: ps) = (xs ++ [x]) :: cutFrom [] ps := by
  rw [cutFrom_nil]
  rfl

theorem cutFrom_unmarked (xs : List α) (x : α) (ps : List (α × Bool)) :
    cutFrom xs ((x, false) :: ps) = cutFrom (xs ++ [x]) ps := by
  obtain ⟨c, cs, hcs⟩ := List.exists_cons_of_ne_nil (cut_ne_nil ps)
  simp [cutFrom, cut, hcs]

theorem flatten_cut (ps : List (α × Bool)) : (cut ps).flatten = ps.map Prod.fst := by
  induction ps with
  | nil => rfl
  | cons p ps ih =>
    obtain ⟨x, mark⟩ := p
    cases mark
    · obtain ⟨c, cs, hcs⟩ := List.exists_cons_of_ne_nil (cut_ne_nil ps)
      rw [hcs] at ih
      simpa [cut, hcs] using ih
    · simpa [cut] using ih

/-- **The places are the sums of lengths.** -/
theorem sum_take_cut (n : ℕ) (ps : List (α × Bool)) :
    n :: marks n (ps.map Prod.snd) = (List.range (cut ps).length).map fun j =>
      n + (((cut ps).map List.length).take j).sum := by
  induction ps generalizing n with
  | nil => rfl
  | cons p ps ih =>
    obtain ⟨x, mark⟩ := p
    have htail := ih (n + 1)
    cases mark
    · obtain ⟨c, cs, hcs⟩ := List.exists_cons_of_ne_nil (cut_ne_nil ps)
      rw [hcs, List.length_cons, List.range_succ_eq_map, List.map_cons, List.map_map] at htail
      obtain ⟨-, htail⟩ := List.cons.inj htail
      simp only [List.map_cons, marks, Bool.false_eq_true, if_false, cut, hcs, List.modifyHead_cons,
        List.length_cons, List.range_succ_eq_map, List.map_map, List.take_zero, List.sum_nil,
        Nat.add_zero, htail]
      refine congrArg (n :: ·) (List.map_congr_left fun j _ => ?_)
      simp only [Function.comp_apply, Nat.succ_eq_add_one, List.take_succ_cons, List.sum_cons]
      omega
    · simp only [List.map_cons, marks, if_true, cut, List.length_cons, List.range_succ_eq_map,
        List.map_map, List.take_zero, List.sum_nil, Nat.add_zero]
      refine congrArg (n :: ·) (htail.trans (List.map_congr_left fun j _ => ?_))
      simp only [Function.comp_apply, Nat.succ_eq_add_one, List.take_succ_cons, List.sum_cons,
        List.length_nil]
      omega

theorem sum_length_cut (ps : List (α × Bool)) : ((cut ps).map List.length).sum = ps.length := by
  rw [← List.length_flatten, flatten_cut, List.length_map]

/-- A part lies between its place and the next one. -/
theorem drop_take_cut (ps : List (α × Bool)) {j : ℕ} {c : List α} (h : (cut ps)[j]? = some c) :
    ((ps.map Prod.fst).take (((cut ps).map List.length).take (j + 1)).sum).drop
      (((cut ps).map List.length).take j).sum = c := by
  obtain ⟨hj, rfl⟩ := List.getElem?_eq_some_iff.mp h
  rw [← flatten_cut, List.drop_take_succ_flatten_eq_getElem (cut ps) j hj]

end DumpRestore.Cuts
