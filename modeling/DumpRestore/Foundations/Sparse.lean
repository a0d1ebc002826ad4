import Mathlib.Data.List.Basic
import Mathlib.Algebra.Order.Group.Nat

/-!
# Sparse files

A sparse file is a list of blocks in which `none` is a hole. `expand` is its contents, with the
holes as runs of a fill value, and `run` counts the allocated blocks at its end. A reader that
gathers blocks in a buffer and empties it at holes has a number of blocks in hand that depends on
the file only through `run`.
-/

namespace DumpRestore.Sparse

variable {α β : Type*} (bytes : β → List α) (zero : α) (size : ℕ)

/-! ## Contents -/

/-- The contents of one block. -/
def content : Option β → List α
  | some b => bytes b
  | none => List.replicate size zero

/-- The contents of a sparse file. -/
def expand (bs : List (Option β)) : List α := bs.flatMap (content bytes zero size)

@[simp] theorem expand_nil : expand bytes zero size [] = [] := rfl

theorem expand_append (as bs : List (Option β)) :
    expand bytes zero size (as ++ bs) = expand bytes zero size as ++ expand bytes zero size bs :=
  List.flatMap_append

theorem expand_concat (bs : List (Option β)) (b : Option β) :
    expand bytes zero size (bs ++ [b]) =
      expand bytes zero size bs ++ content bytes zero size b := by
  simp only [expand, List.flatMap_append, List.flatMap_cons, List.flatMap_nil, List.append_nil]

section Length

variable {bytes size}

theorem length_content (h : ∀ b, (bytes b).length = size) (b : Option β) :
    (content bytes zero size b).length = size := by
  cases b with
  | none => exact List.length_replicate
  | some b => exact h b

theorem length_flatMap_bytes (h : ∀ b, (bytes b).length = size) (bs : List β) :
    (bs.flatMap bytes).length = bs.length * size := by
  induction bs with
  | nil => simp
  | cons b bs ih =>
    rw [List.flatMap_cons, List.length_append, h, ih, List.length_cons, Nat.succ_mul, Nat.add_comm]

theorem length_expand (h : ∀ b, (bytes b).length = size) (bs : List (Option β)) :
    (expand bytes zero size bs).length = bs.length * size :=
  length_flatMap_bytes (length_content zero h) bs

end Length

/-! ## The run of allocated blocks at the end -/

/-- The number of allocated blocks at the end of a file. -/
def run (bs : List (Option β)) : ℕ := (bs.reverse.takeWhile Option.isSome).length

@[simp] theorem run_nil : run ([] : List (Option β)) = 0 := rfl

@[simp] theorem run_concat_none (bs : List (Option β)) : run (bs ++ [none]) = 0 := by
  simp [run]

@[simp] theorem run_concat_some (bs : List (Option β)) (b : β) :
    run (bs ++ [some b]) = run bs + 1 := by
  simp [run]

end DumpRestore.Sparse
