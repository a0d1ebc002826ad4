import Mathlib.Data.List.Basic
import Mathlib.Data.List.Infix

/-!
# Paths and their evaluation on a stack

A path is a text in which a separator stands between components.

* `rooted` is the text of a list of components, each behind a separator.
* `squeezed` leaves one separator of every run, and `trimmed` none at the end. On a rooted text
  both together leave the components that are not empty (`trimmed_squeezed_rooted`).
* `evaluate` enters one component after the other, where `.` stays and `..` leaves. Its result has
  only components that are `Proper`, and it leaves such components alone (`evaluate_of_proper`).
-/

namespace DumpRestore.Paths

variable {α : Type*}

/-! ## Separators -/

section Separators

variable {sep : α} {cs : List (List α)}

/-- Every component behind a separator. -/
def rooted (sep : α) (cs : List (List α)) : List α := cs.flatMap (sep :: ·)

@[simp] theorem rooted_nil : rooted sep [] = [] := rfl

@[simp] theorem rooted_cons (c : List α) :
    rooted sep (c :: cs) = sep :: (c ++ rooted sep cs) := rfl

@[simp] theorem rooted_append (cs' : List (List α)) :
    rooted sep (cs ++ cs') = rooted sep cs ++ rooted sep cs' := List.flatMap_append

theorem length_le_rooted : cs.length ≤ (rooted sep cs).length := by
  induction cs with
  | nil => exact le_rfl
  | cons c cs ih =>
    rw [rooted_cons, List.length_cons, List.length_cons, List.length_append]
    omega

variable [DecidableEq α]

/-- A text behind a separator. -/
theorem rooted_splitOn (l : List α) : rooted sep (l.splitOn sep) = sep :: l := by
  induction l with
  | nil => rfl
  | cons x l ih =>
    obtain ⟨c, cs, hsplit⟩ := List.exists_cons_of_ne_nil (List.splitOn_ne_nil sep l)
    rw [List.splitOn_cons_eq_if_modifyHead]
    rw [hsplit, rooted_cons, List.cons_inj_right] at ih
    split
    case isTrue hx =>
      rw [rooted_cons, List.nil_append, hsplit, rooted_cons, ih, eq_of_beq hx]
    case isFalse hx => rw [hsplit, List.modifyHead_cons, rooted_cons, List.cons_append, ih]

/-- No component of a text has the separator. -/
theorem not_mem_of_mem_splitOn {l c : List α} (hc : c ∈ l.splitOn sep) : sep ∉ c := by
  induction l generalizing c with
  | nil => simp_all
  | cons x l ih =>
    rw [List.splitOn_cons_eq_if_modifyHead] at hc
    split at hc
    case isTrue =>
      rcases List.mem_cons.mp hc with rfl | hc
      · exact List.not_mem_nil
      · exact ih hc
    case isFalse hx =>
      obtain ⟨d, ds, hsplit⟩ := List.exists_cons_of_ne_nil (List.splitOn_ne_nil sep l)
      rw [hsplit] at ih
      rw [hsplit, List.modifyHead_cons] at hc
      rcases List.mem_cons.mp hc with rfl | hc
      · exact List.not_mem_cons_of_ne_of_not_mem (fun h => hx (beq_iff_eq.mpr h.symm))
          (ih List.mem_cons_self)
      · exact ih (List.mem_cons_of_mem d hc)

/-- The components of a rooted text, behind what is before the first separator. -/
theorem splitOn_append_rooted {c : List α} (hc : sep ∉ c) (hcs : ∀ c ∈ cs, sep ∉ c) :
    (c ++ rooted sep cs).splitOn sep = c :: cs := by
  induction cs generalizing c with
  | nil => rw [rooted_nil, List.append_nil, List.splitOn_eq_singleton hc]
  | cons d cs ih =>
    obtain ⟨hd, hcs⟩ := List.forall_mem_cons.mp hcs
    rw [rooted_cons, List.splitOn_append_cons_self_of_not_mem hc, ih hd hcs]

theorem takeWhile_append_rooted {c : List α} (hc : sep ∉ c) :
    (c ++ rooted sep cs).takeWhile (· ≠ sep) = c := by
  have hall : ∀ x ∈ c, decide (x ≠ sep) = true :=
    fun x hx => decide_eq_true (ne_of_mem_of_not_mem hx hc)
  rw [List.takeWhile_append_of_pos hall]
  cases cs with
  | nil => simp
  | cons d cs => simp

/-- One separator of every run. -/
def squeezed (sep : α) : List α → List α
  | [] => []
  | c :: cs => if c = sep ∧ cs.head? = some sep then squeezed sep cs else c :: squeezed sep cs

/-- No separator at the end. -/
def trimmed (sep : α) (l : List α) : List α :=
  if l.getLast? = some sep then l.dropLast else l

theorem squeezed_append {c : List α} (hc : sep ∉ c) (l : List α) :
    squeezed sep (c ++ l) = c ++ squeezed sep l := by
  induction c with
  | nil => rfl
  | cons x c ih =>
    obtain ⟨hx, hc⟩ := List.ne_and_not_mem_of_not_mem_cons hc
    rw [List.cons_append, squeezed, if_neg fun h => hx h.1.symm, ih hc, List.cons_append]

/-- A run of separators. -/
theorem squeezed_sep (l : List α) :
    squeezed sep (sep :: l) = sep :: squeezed sep (l.dropWhile (· = sep)) := by
  induction l with
  | nil => simp [squeezed]
  | cons x l ih =>
    rw [squeezed]
    by_cases hx : x = sep
    · rw [if_pos ⟨rfl, congrArg some hx⟩, List.dropWhile_cons_of_pos (by simpa using hx), hx, ih]
    · rw [if_neg fun h => hx (Option.some.inj h.2), List.dropWhile_cons_of_neg (by simpa using hx)]

theorem trimmed_append {c l : List α} (hc : c.getLast? ≠ some sep) :
    trimmed sep (c ++ l) = c ++ trimmed sep l := by
  cases l with
  | nil => rw [List.append_nil, trimmed, if_neg hc, trimmed, if_neg (by simp), List.append_nil]
  | cons x l =>
    rw [trimmed, trimmed, List.getLast?_append_of_ne_nil _ (List.cons_ne_nil x l)]
    split
    · rw [List.dropLast_append_of_ne_nil (List.cons_ne_nil x l)]
    · rfl

/-- **Without the empty components.** -/
theorem trimmed_squeezed_rooted (hcs : ∀ c ∈ cs, sep ∉ c) :
    trimmed sep (squeezed sep (rooted sep cs)) = rooted sep (cs.filter (· ≠ [])) := by
  induction cs with
  | nil => simp [squeezed, trimmed]
  | cons c cs ih =>
    obtain ⟨hc, hrest⟩ := List.forall_mem_cons.mp hcs
    by_cases hnil : c = []
    · subst hnil
      rw [List.filter_cons_of_neg (by simp), ← ih hrest, rooted_cons, List.nil_append]
      cases cs with
      | nil => simp [squeezed, trimmed]
      | cons d ds => rw [rooted_cons, squeezed, if_pos ⟨rfl, rfl⟩]
    · obtain ⟨x, c, rfl⟩ := List.exists_cons_of_ne_nil hnil
      have hx : x ≠ sep := fun h => hc (h ▸ List.mem_cons_self)
      have hlast : (sep :: x :: c).getLast? ≠ some sep := by
        rw [List.getLast?_cons_cons]
        exact fun h => hc (List.mem_of_getLast? h)
      rw [List.filter_cons_of_pos (by simp), rooted_cons, squeezed,
        if_neg fun h => hx (Option.some.inj h.2), squeezed_append hc, ← List.cons_append,
        trimmed_append hlast, ih hrest, rooted_cons, List.cons_append]

end Separators

/-! ## Evaluation -/

section Evaluation

variable [DecidableEq α] {dot : α} {stack cs : List (List α)}

/-- Enter a component: the empty one and `.` stay, and `..` leaves the last one, if there is any. -/
def enter (dot : α) (stack : List (List α)) (c : List α) : List (List α) :=
  if c = [] ∨ c = [dot] then stack
  else if c = [dot, dot] then stack.dropLast
  else stack ++ [c]

/-- The evaluation of a path from the root. -/
def evaluate (dot : α) (cs : List (List α)) : List (List α) := cs.foldl (enter dot) []

/-- A component that names an entry. -/
def Proper (dot : α) (c : List α) : Prop := c ≠ [] ∧ c ≠ [dot] ∧ c ≠ [dot, dot]

theorem enter_of_proper {c : List α} (hc : Proper dot c) : enter dot stack c = stack ++ [c] := by
  rw [enter, if_neg (by rintro (h | h) <;> [exact hc.1 h; exact hc.2.1 h]), if_neg hc.2.2]

/-- What a stack has after a component. -/
theorem mem_enter {c d : List α} (hd : d ∈ enter dot stack c) :
    d ∈ stack ∨ d = c ∧ Proper dot c := by
  rw [enter] at hd
  split at hd
  case isTrue => exact .inl hd
  case isFalse hstay =>
    split at hd
    case isTrue => exact .inl (List.mem_of_mem_dropLast hd)
    case isFalse hleave =>
      rcases List.mem_append.mp hd with hd | hd
      · exact .inl hd
      · exact .inr ⟨List.mem_singleton.mp hd, fun h => hstay (.inl h), fun h => hstay (.inr h),
          hleave⟩

theorem mem_foldl_enter {d : List α} (hd : d ∈ cs.foldl (enter dot) stack) :
    d ∈ stack ∨ d ∈ cs ∧ Proper dot d := by
  induction cs generalizing stack with
  | nil => exact .inl hd
  | cons c cs ih =>
    obtain hd | ⟨hmem, hproper⟩ := ih hd
    · refine (mem_enter hd).imp_right ?_
      rintro ⟨rfl, hproper⟩
      exact ⟨List.mem_cons_self, hproper⟩
    · exact .inr ⟨List.mem_cons_of_mem c hmem, hproper⟩

/-- The components of the result name entries, and come from the path. -/
theorem mem_evaluate {d : List α} (hd : d ∈ evaluate dot cs) : d ∈ cs ∧ Proper dot d :=
  (mem_foldl_enter hd).resolve_left List.not_mem_nil

theorem foldl_enter_filter :
    (cs.filter (· ≠ [])).foldl (enter dot) stack = cs.foldl (enter dot) stack := by
  induction cs generalizing stack with
  | nil => rfl
  | cons c cs ih =>
    by_cases hc : c = []
    · rw [List.filter_cons_of_neg (by simpa using hc), ih, List.foldl_cons, enter, if_pos (.inl hc)]
    · rw [List.filter_cons_of_pos (by simpa using hc), List.foldl_cons, ih, List.foldl_cons]

theorem evaluate_of_proper (hcs : ∀ c ∈ cs, Proper dot c) : evaluate dot cs = cs := by
  have hfold : ∀ stack : List (List α), cs.foldl (enter dot) stack = stack ++ cs := by
    intro stack
    induction cs generalizing stack with
    | nil => rw [List.append_nil, List.foldl_nil]
    | cons c cs ih =>
      obtain ⟨hc, hcs⟩ := List.forall_mem_cons.mp hcs
      rw [List.foldl_cons, enter_of_proper hc, ih hcs, List.append_assoc, List.singleton_append]
  exact hfold []

/-- A path that begins with `.` or with a separator. -/
theorem evaluate_cons_dot : evaluate dot ([dot] :: cs) = evaluate dot cs := by
  rw [evaluate, List.foldl_cons, enter, if_pos (.inr rfl), evaluate]

theorem evaluate_cons_nil : evaluate dot ([] :: cs) = evaluate dot cs := by
  rw [evaluate, List.foldl_cons, enter, if_pos (.inl rfl), evaluate]

end Evaluation

end DumpRestore.Paths
