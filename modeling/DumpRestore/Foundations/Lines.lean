import Mathlib.Data.List.Basic

/-!
# The lines of a text

`fgets` reads a line with its end, or as much of it as fits the buffer.

* `fgetsFrom` lists what one call after the other reads of a file.
* `fgetsFrom_line`: a line that fits is read as a whole.
-/

namespace DumpRestore

/-- What `fgets` reads of a file with a buffer of `size` bytes, when `k` bytes are in it. -/
def fgetsFrom (size : ℕ) : ℕ → List UInt8 → List (List UInt8)
  | _, [] => []
  | k, c :: cs =>
    if c = 10 ∨ k + 2 = size then [c] :: fgetsFrom size 0 cs
    else match fgetsFrom size (k + 1) cs with
      | [] => [[c]]
      | line :: lines => (c :: line) :: lines

/-- A line that fits the buffer. -/
theorem fgetsFrom_line {size : ℕ} {body : List UInt8} (hbody : 10 ∉ body) {k : ℕ}
    (hlen : k + body.length + 1 < size) (rest : List UInt8) :
    fgetsFrom size k (body ++ 10 :: rest) = (body ++ [10]) :: fgetsFrom size 0 rest := by
  induction body generalizing k with
  | nil => rw [List.nil_append, fgetsFrom, if_pos (.inl rfl), List.nil_append]
  | cons c cs ih =>
    have hc := List.ne_of_not_mem_cons hbody
    have hcs := List.not_mem_of_not_mem_cons hbody
    rw [List.length_cons] at hlen
    rw [List.cons_append, fgetsFrom, if_neg (by rintro (rfl | h) <;> [exact hc rfl; omega]),
      ih hcs (by omega)]
    rfl

/-- Only the last byte of a line is an end of line. -/
theorem not_mem_dropLast_fgetsFrom {size : ℕ} {file : List UInt8} {k : ℕ} :
    ∀ line ∈ fgetsFrom size k file, 10 ∉ line.dropLast := by
  induction file generalizing k with
  | nil => simp [fgetsFrom]
  | cons c cs ih =>
    rw [fgetsFrom]
    split
    · exact List.forall_mem_cons.mpr ⟨by simp, ih⟩
    · next hc =>
      have ihk := ih (k := k + 1)
      split
      · simp
      · next line lines heq =>
        rw [heq] at ihk
        obtain ⟨hline, hlines⟩ := List.forall_mem_cons.mp ihk
        refine List.forall_mem_cons.mpr ⟨?_, hlines⟩
        cases line with
        | nil => simp
        | cons c' cs' =>
          rw [List.dropLast_cons_cons]
          exact List.not_mem_cons_of_ne_of_not_mem (fun h => hc (.inl h.symm)) hline

end DumpRestore
