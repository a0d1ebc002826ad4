import Mathlib.Data.List.Basic
import Mathlib.Data.List.Nodup
import Mathlib.Data.Option.Basic

/-!
# Linked lists

A cell of a linked list holds the address of the next one. `next a` is `none` if there is no cell at
`a`, and `some none` at the last cell. A list may run into a cycle, so that walking it takes fuel.

* `chain` lists the cells, `chainFind` looks for one of them.
* `chain_nodup`: a list that ends has no cell twice.
-/

namespace DumpRestore

variable {α : Type} (next : α → Option (Option α))

/-- The cells from an address on. -/
def chain : (fuel : ℕ) → Option α → Option (List α)
  | _, none => some []
  | 0, some _ => none
  | fuel + 1, some a => do
    let p ← next a
    let l ← chain fuel p
    return a :: l

/-- The first cell with the property `q` from an address on. -/
def chainFind (q : α → Bool) : (fuel : ℕ) → Option α → Option (Option α)
  | _, none => some none
  | 0, some _ => none
  | fuel + 1, some a => do
    let p ← next a
    if q a then return some a else chainFind q fuel p

variable {next}

theorem chain_cons {fuel : ℕ} {a : α} {l : List α} :
    chain next fuel (some a) = some l ↔ ∃ n p l', fuel = n + 1 ∧ next a = some p ∧
      chain next n p = some l' ∧ l = a :: l' := by
  cases fuel with
  | zero => simp [chain]
  | succ n =>
    simp only [chain, Option.bind_eq_bind, Option.bind_eq_some_iff, Option.pure_def,
      Option.some.injEq]
    constructor
    · rintro ⟨p, hp, l', hl, rfl⟩
      exact ⟨n, p, l', rfl, hp, hl, rfl⟩
    · rintro ⟨n', p, l', hn, hp, hl, rfl⟩
      obtain rfl : n = n' := by omega
      exact ⟨p, hp, l', hl, rfl⟩

/-- The fuel does not matter for the cells. -/
theorem chain_unique {n m : ℕ} {p : Option α} {l l' : List α} (h : chain next n p = some l)
    (h' : chain next m p = some l') : l = l' := by
  induction l generalizing n m p l' with
  | nil =>
    cases p with
    | none => cases m <;> simp_all [chain]
    | some a =>
      obtain ⟨_, _, _, _, _, _, heq⟩ := chain_cons.1 h
      cases heq
  | cons b l ih =>
    cases p with
    | none => cases n <;> simp [chain] at h
    | some a =>
      obtain ⟨n, p, l₁, rfl, hp, hl, heq⟩ := chain_cons.1 h
      obtain ⟨m, p', l₂, rfl, hp', hl', rfl⟩ := chain_cons.1 h'
      obtain ⟨rfl, rfl⟩ := List.cons.inj heq
      obtain rfl : p = p' := Option.some.inj (hp.symm.trans hp')
      rw [ih hl hl']

/-- The list from one of its cells on. -/
theorem chain_suffix {n : ℕ} {p : Option α} {l : List α} (h : chain next n p = some l) {a : α}
    (ha : a ∈ l) : ∃ m l', chain next m (some a) = some l' ∧ l'.length ≤ l.length := by
  induction l generalizing n p with
  | nil => cases ha
  | cons b l ih =>
    cases p with
    | none => cases n <;> simp [chain] at h
    | some c =>
      obtain ⟨m, q, l₁, rfl, -, hl, heq⟩ := chain_cons.1 h
      obtain ⟨rfl, rfl⟩ := List.cons.inj heq
      obtain rfl | ha := List.mem_cons.1 ha
      · exact ⟨_, _, h, Nat.le_refl _⟩
      · obtain ⟨k, l', hl', hlen⟩ := ih hl ha
        exact ⟨k, l', hl', Nat.le_succ_of_le hlen⟩

theorem chain_nodup {n : ℕ} {p : Option α} {l : List α} (h : chain next n p = some l) :
    l.Nodup := by
  induction l generalizing n p with
  | nil => exact List.nodup_nil
  | cons b l ih =>
    cases p with
    | none => cases n <;> simp [chain] at h
    | some c =>
      obtain ⟨m, q, l₁, rfl, -, hl, heq⟩ := chain_cons.1 h
      obtain ⟨rfl, rfl⟩ := List.cons.inj heq
      refine List.nodup_cons.2 ⟨fun hmem => ?_, ih hl⟩
      -- the list from the second occurrence on would be as long as the whole list
      obtain ⟨k, l', hl', hlen⟩ := chain_suffix hl hmem
      rw [chain_unique hl' h, List.length_cons] at hlen
      omega

/-- Every cell of the list is there. -/
theorem chain_isSome {n : ℕ} {p : Option α} {l : List α} (h : chain next n p = some l) {a : α}
    (ha : a ∈ l) : (next a).isSome := by
  obtain ⟨m, l', hl', -⟩ := chain_suffix h ha
  obtain ⟨_, _, _, -, hp, -⟩ := chain_cons.1 hl'
  simp [hp]

end DumpRestore
