import DumpRestore.Foundations.Chain
import Mathlib.Data.List.Perm.Subperm
import Mathlib.Logic.Function.Basic

/-!
# Changing linked lists

`Linked next p l` says that the list from `p` on has the cells `l`. A program that takes a cell out
keeps the cell before it, or the head of the list if there is none, and stores there what the cell
points to.

* `Linked.congr`: what happens to other cells does not matter.
* `Linked.chainFind_eq`: a search finds what there is to find.
* `findPrev` is the search for a cell and the one before it, and `Linked.unlink` what is left when
  the cell is taken out.
-/

namespace DumpRestore

variable {α : Type} {next next' : α → Option (Option α)} {p q : Option α} {l l₁ l₂ : List α} {a : α}

/-! ## The cells of a list -/

/-- The list from `p` on has the cells `l`. -/
def Linked (next : α → Option (Option α)) : Option α → List α → Prop
  | p, [] => p = none
  | p, a :: l => p = some a ∧ ∃ q, next a = some q ∧ Linked next q l

theorem linked_nil : Linked next p [] ↔ p = none := Iff.rfl

theorem Linked.congr (h : Linked next p l) (heq : ∀ a ∈ l, next' a = next a) :
    Linked next' p l := by
  induction l generalizing p with
  | nil => exact h
  | cons a l ih =>
    obtain ⟨rfl, q, hq, hl⟩ := h
    exact ⟨rfl, q, (heq a List.mem_cons_self).trans hq,
      ih hl fun b hb => heq b (List.mem_cons_of_mem _ hb)⟩

theorem Linked.update [DecidableEq α] (h : Linked next p l) (ha : a ∉ l) (v : Option (Option α)) :
    Linked (Function.update next a v) p l :=
  h.congr fun _ hb => Function.update_of_ne (ne_of_mem_of_not_mem hb ha) v next

theorem Linked.head? (h : Linked next p l) : p = l.head? := by
  cases l with
  | nil => exact h
  | cons a l => exact h.1

theorem Linked.nil_of_none (h : Linked next none l) : l = [] := by
  cases l with
  | nil => rfl
  | cons a l => cases h.1

theorem Linked.chain_eq (h : Linked next p l) {fuel : ℕ} (hfuel : l.length ≤ fuel) :
    chain next fuel p = some l := by
  induction l generalizing p fuel with
  | nil =>
    obtain rfl := linked_nil.mp h
    cases fuel <;> rfl
  | cons a l ih =>
    obtain ⟨rfl, q, hq, hl⟩ := h
    obtain ⟨fuel, rfl⟩ : ∃ n, fuel = n + 1 := ⟨fuel - 1, by rw [List.length_cons] at hfuel; omega⟩
    rw [List.length_cons] at hfuel
    simp only [chain, hq, ih hl (Nat.le_of_succ_le_succ hfuel), Option.bind_eq_bind,
      Option.bind_some, Option.pure_def]

theorem Linked.nodup (h : Linked next p l) : l.Nodup := chain_nodup (h.chain_eq (Nat.le_refl _))

theorem Linked.unique {l' : List α} (h : Linked next p l) (h' : Linked next p l') : l = l' :=
  chain_unique (h.chain_eq (Nat.le_refl _)) (h'.chain_eq (Nat.le_refl _))

theorem Linked.isSome (h : Linked next p l) (ha : a ∈ l) : (next a).isSome :=
  chain_isSome (h.chain_eq (Nat.le_refl _)) ha

/-- A list without repetition in a list is not longer. -/
theorem Linked.length_le {cells : List α} (h : Linked next p l) (hcells : ∀ a ∈ l, a ∈ cells) :
    l.length ≤ cells.length :=
  (List.subperm_of_subset h.nodup hcells).length_le

/-- A list in two parts. -/
theorem Linked.append (h : Linked next p (l₁ ++ l₂)) :
    ∃ q, Linked next q l₂ ∧ ∀ a, l₁.getLast? = some a → next a = some q := by
  induction l₁ generalizing p with
  | nil => exact ⟨p, h, fun a ha => by cases ha⟩
  | cons b l₁ ih =>
    obtain ⟨rfl, q, hq, hl⟩ := h
    cases l₁ with
    | nil =>
      refine ⟨q, hl, fun a ha => ?_⟩
      obtain rfl : b = a := Option.some.inj ha
      exact hq
    | cons c l₁ =>
      obtain ⟨r, hr, hlast⟩ := ih hl
      exact ⟨r, hr, fun a ha => hlast a (by rwa [List.getLast?_cons_cons] at ha)⟩

/-- Another end for a list. -/
theorem Linked.replace (h : Linked next p (l₁ ++ l₂)) {l₃ : List α} (hne : l₁ ≠ [])
    (hsame : ∀ a ∈ l₁.dropLast, next' a = next a)
    (hlast : ∀ a, l₁.getLast? = some a → next' a = some q) (h₃ : Linked next' q l₃) :
    Linked next' p (l₁ ++ l₃) := by
  induction l₁ generalizing p with
  | nil => exact absurd rfl hne
  | cons b l₁ ih =>
    obtain ⟨rfl, r, hr, hl⟩ := h
    cases l₁ with
    | nil => exact ⟨rfl, q, hlast b rfl, h₃⟩
    | cons c l₁ =>
      refine ⟨rfl, r, (hsame b ?_).trans hr,
        ih hl (List.cons_ne_nil c l₁) (fun a ha => hsame a ?_) fun a ha => ?_⟩
      · rw [List.dropLast_cons_cons]
        exact List.mem_cons_self
      · rw [List.dropLast_cons_cons]
        exact List.mem_cons_of_mem _ ha
      · exact hlast a (by rwa [List.getLast?_cons_cons])

/-- Another end behind a cell. -/
theorem Linked.splice (h : Linked next p (l₁ ++ a :: l₂)) {l₃ : List α}
    (hsame : ∀ b ∈ l₁, next' b = next b) (ha : next' a = some q) (h₃ : Linked next' q l₃) :
    Linked next' p (l₁ ++ a :: l₃) := by
  rw [← List.singleton_append, ← List.append_assoc] at h ⊢
  refine h.replace (by simp) (fun b hb => hsame b ?_) (fun b hb => ?_) h₃
  · rwa [List.dropLast_concat] at hb
  · rw [List.getLast?_append, List.getLast?_singleton, Option.some_or] at hb
    rw [← Option.some.inj hb, ha]

/-! ## Searches -/

theorem Linked.chainFind_eq (h : Linked next p l) (f : α → Bool) {fuel : ℕ}
    (hfuel : l.length ≤ fuel) : chainFind next f fuel p = some (l.find? f) := by
  induction l generalizing p fuel with
  | nil =>
    obtain rfl := linked_nil.mp h
    cases fuel <;> rfl
  | cons a l ih =>
    obtain ⟨rfl, q, hq, hl⟩ := h
    obtain ⟨fuel, rfl⟩ : ∃ n, fuel = n + 1 := ⟨fuel - 1, by rw [List.length_cons] at hfuel; omega⟩
    rw [List.length_cons] at hfuel
    rw [chainFind, hq, List.find?_cons]
    simp only [Option.bind_eq_bind, Option.bind_some]
    cases f a with
    | true => rfl
    | false => exact ih hl (Nat.le_of_succ_le_succ hfuel)

/-- The search for the cell before `a`. -/
theorem Linked.find_before [DecidableEq α] (h : Linked next p l) (hhead : p ≠ some a) :
    (a ∉ l ∧ l.find? (fun b => next b == some (some a)) = none) ∨
      ∃ l₁ b l₂, l = l₁ ++ b :: a :: l₂ ∧
        l.find? (fun b => next b == some (some a)) = some b := by
  induction l generalizing p with
  | nil => exact .inl ⟨List.not_mem_nil, rfl⟩
  | cons c l ih =>
    obtain ⟨rfl, q, hq, hl⟩ := h
    have hca : a ≠ c := fun hac => hhead (congrArg some hac.symm)
    rw [List.find?_cons, hq]
    by_cases hqa : q = some a
    · obtain rfl := hqa
      right
      cases l with
      | nil => cases hl
      | cons a' l =>
        obtain rfl : a = a' := Option.some.inj hl.1
        exact ⟨[], c, l, rfl, by simp⟩
    · have hbeq : (some q == some (some a)) = false := by simpa using hqa
      rw [hbeq]
      rcases ih hl hqa with ⟨hmem, hnone⟩ | ⟨l₁, b, l₂, rfl, hsome⟩
      · exact .inl ⟨List.not_mem_cons_of_ne_of_not_mem hca hmem, hnone⟩
      · exact .inr ⟨c :: l₁, b, l₂, rfl, hsome⟩

/-- The first cell with the property `f` from `p` on, and the cell before it; `prev` is the one
before `p`. -/
def findPrev (next : α → Option (Option α)) (f : α → Bool) :
    (fuel : ℕ) → (prev p : Option α) → Option (Option (Option α × α))
  | _, _, none => some none
  | 0, _, some _ => none
  | fuel + 1, prev, some a => do
    let q ← next a
    if f a then return some (prev, a) else findPrev next f fuel (some a) q

theorem Linked.findPrev_eq (h : Linked next p l) (f : α → Bool) {fuel : ℕ}
    (hfuel : l.length ≤ fuel) (prev : Option α) :
    (l.find? f = none ∧ findPrev next f fuel prev p = some none) ∨
      ∃ l₁ a l₂, l = l₁ ++ a :: l₂ ∧ l.find? f = some a ∧
        findPrev next f fuel prev p = some (some (l₁.getLast?.or prev, a)) := by
  induction l generalizing p fuel prev with
  | nil =>
    obtain rfl := linked_nil.mp h
    exact .inl ⟨rfl, by cases fuel <;> rfl⟩
  | cons c l ih =>
    obtain ⟨rfl, q, hq, hl⟩ := h
    obtain ⟨fuel, rfl⟩ : ∃ n, fuel = n + 1 := ⟨fuel - 1, by rw [List.length_cons] at hfuel; omega⟩
    rw [List.length_cons] at hfuel
    rw [findPrev, hq, List.find?_cons]
    simp only [Option.bind_eq_bind, Option.bind_some]
    cases hf : f c with
    | true => exact .inr ⟨[], c, l, rfl, rfl, rfl⟩
    | false =>
      rcases ih hl (Nat.le_of_succ_le_succ hfuel) (some c) with
        ⟨hnone, hprev⟩ | ⟨l₁, a, l₂, rfl, hsome, hprev⟩
      · exact .inl ⟨hnone, hprev⟩
      · refine .inr ⟨c :: l₁, a, l₂, rfl, hsome, ?_⟩
        cases l₁ with
        | nil => exact hprev
        | cons d l₁ =>
          rw [List.getLast?_cons_cons]
          cases hlast : (d :: l₁).getLast? with
          | none => simp at hlast
          | some e =>
            rw [hlast] at hprev
            exact hprev

/-! ## Taking a cell out -/

/-- The head of a list whose cell before `prev` was made to point to `q`. -/
theorem Linked.unlink (h : Linked next p (l₁ ++ a :: l₂)) (ha : next a = some q)
    (hsame : ∀ b, b ≠ a → l₁.getLast? ≠ some b → next' b = next b)
    (hprev : ∀ b, l₁.getLast? = some b → next' b = some q) :
    Linked next' (if l₁ = [] then q else p) (l₁ ++ l₂) := by
  have hnodup := h.nodup
  rw [List.nodup_append, List.nodup_cons] at hnodup
  obtain ⟨hnodup₁, ⟨hnot, hnodup₂⟩, hdisj⟩ := hnodup
  obtain ⟨r, ⟨-, q', hq', htail⟩, -⟩ := h.append
  obtain rfl : q' = q := Option.some.inj (hq'.symm.trans ha)
  have htail' : Linked next' q' l₂ := by
    refine htail.congr fun b hb => hsame b (fun hba => hnot (hba ▸ hb)) fun hlast => ?_
    exact hdisj b (List.mem_of_getLast? hlast) b (List.mem_cons_of_mem _ hb) rfl
  by_cases hnil : l₁ = []
  · subst hnil
    rwa [if_pos rfl]
  · rw [if_neg hnil]
    refine h.replace hnil (fun b hb => hsame b ?_ ?_) hprev htail'
    · exact hdisj b (List.dropLast_subset l₁ hb) a List.mem_cons_self
    · intro hlast
      have hsplit := List.dropLast_append_getLast? b hlast
      rw [← hsplit, List.nodup_append] at hnodup₁
      exact hnodup₁.2.2 b hb b (List.mem_singleton.mpr rfl) rfl

end DumpRestore
