import DumpRestore.Restore.SymtabOps

/-!
# Runs of the functions of the symbol table

* `Ends` says of a run that it panics or ends with a good result. It is the obligation for each
  function: that it is not stuck is a part of it.
* The members of the entries are functions of the addresses; `modify` changes one of them at one
  address and leaves the others.
* `Fits` says that `fuel` is enough for the lists of a store.
-/

namespace DumpRestore

namespace Symtab

/-! ## How a function ends -/

/-- A function panics, or it ends with a result for which `Q` holds. -/
def Ends {α : Type} (Q : α → Prop) : Run α → Prop
  | .ok a => Q a
  | .error (.panic _) => True
  | .error .stuck => False

section Ends

variable {α β : Type} {P Q : α → Prop} {x : Run α}

theorem Ends.mono (h : Ends P x) (hQ : ∀ a, P a → Q a) : Ends Q x := by
  cases x with
  | ok a => exact hQ a h
  | error e =>
    cases e with
    | panic => trivial
    | stuck => exact h

theorem Ends.bind {R : β → Prop} {f : α → Run β} (h : Ends P x) (hf : ∀ a, P a → Ends R (f a)) :
    Ends R (x >>= f) := by
  cases x with
  | ok a => exact hf a h
  | error e =>
    cases e with
    | panic => trivial
    | stuck => exact h.elim

theorem ends_ok {a : α} (h : Q a) : Ends Q (.ok a) := h

theorem ends_panic (text : String) : Ends Q (.error (.panic text)) := trivial

theorem ends_ofOption {R : β → Prop} {o : Option α} {a : α} {f : α → Run β} (ho : o = some a)
    (h : Ends R (f a)) : Ends R (ofOption o >>= f) := by
  rw [ho]
  exact h

theorem ends_cell {R : β → Prop} {s : Store} {a : ℕ} {e : Entry} {f : Entry → Run β}
    (he : s.mem a = some e) (h : Ends R (f e)) : Ends R (s.cell a >>= f) := by
  rw [Store.cell, he]
  exact h

end Ends

/-! ## Members of the entries -/

section Members

variable (s : Store)

/-- The members `e_ino`, `e_parent`, `e_entries`, `e_name` and `e_flags`. -/
def Store.ino (a : ℕ) : Option ℕ := (s.mem a).map (·.eIno)

def Store.parent (a : ℕ) : Option ℕ := (s.mem a).map (·.eParent)

def Store.entries (a : ℕ) : Option (Option (List (Option ℕ))) := (s.mem a).map (·.eEntries)

def Store.name (a : ℕ) : Option (List UInt8) := (s.mem a).map (·.eName)

def Store.flags (a : ℕ) : Option (BitVec 16) := (s.mem a).map (·.eFlags)

/-- What the lists do not depend on: the members `e_name` and `e_flags`. -/
def Store.label (a : ℕ) : Option (List UInt8 × BitVec 16) :=
  (s.mem a).map fun e => (e.eName, e.eFlags)

/-- Whether the entry is a directory. -/
def Store.isDir (a : ℕ) : Option Bool := (s.mem a).map (·.eEntries.isSome)

/-- There is an entry at the address. -/
def Store.Has (a : ℕ) : Prop := (s.mem a).isSome

variable {s} {a b : ℕ} {f : Entry → Entry}

theorem mem_modify : (s.modify a f).mem = Function.update s.mem a ((s.mem a).map f) := rfl

theorem member_modify {β : Type} (g : Entry → β) (s : Store) (a : ℕ) (f : Entry → Entry) :
    (fun b => ((s.modify a f).mem b).map g) =
      Function.update (fun b => (s.mem b).map g) a ((s.mem a).map (g ∘ f)) := by
  funext b
  by_cases hb : b = a
  · subst hb
    rw [Function.update_self, mem_modify, Function.update_self, Option.map_map]
  · rw [Function.update_of_ne hb, mem_modify, Function.update_of_ne hb]

theorem member_modify_of {β : Type} {g : Entry → β} (h : ∀ e, g (f e) = g e) (s : Store) (a : ℕ) :
    (fun b => ((s.modify a f).mem b).map g) = fun b => (s.mem b).map g := by
  rw [member_modify, show g ∘ f = g from funext h]
  exact Function.update_eq_self a _

theorem member_update {β : Type} {s s' : Store} {e : Entry}
    (h : s'.mem = Function.update s.mem a (some e)) (g : Entry → β) :
    (fun b => (s'.mem b).map g) = Function.update (fun b => (s.mem b).map g) a (some (g e)) := by
  funext b
  rw [h]
  by_cases hb : b = a
  · subst hb
    rw [Function.update_self, Function.update_self]
    rfl
  · rw [Function.update_of_ne hb, Function.update_of_ne hb]

theorem next_modify : (s.modify a f).next =
    Function.update s.next a ((s.mem a).map ((·.eNext) ∘ f)) := member_modify _ s a f

theorem links_modify : (s.modify a f).links =
    Function.update s.links a ((s.mem a).map ((·.eLinks) ∘ f)) := member_modify _ s a f

theorem sibling_modify : (s.modify a f).sibling =
    Function.update s.sibling a ((s.mem a).map ((·.eSibling) ∘ f)) := member_modify _ s a f

theorem ino_modify : (s.modify a f).ino =
    Function.update s.ino a ((s.mem a).map ((·.eIno) ∘ f)) := member_modify _ s a f

theorem parent_modify : (s.modify a f).parent =
    Function.update s.parent a ((s.mem a).map ((·.eParent) ∘ f)) := member_modify _ s a f

theorem entries_modify : (s.modify a f).entries =
    Function.update s.entries a ((s.mem a).map ((·.eEntries) ∘ f)) := member_modify _ s a f

@[simp] theorem next_modify_of (h : ∀ e, (f e).eNext = e.eNext) : (s.modify a f).next = s.next :=
  member_modify_of h s a

@[simp] theorem links_modify_of (h : ∀ e, (f e).eLinks = e.eLinks) :
    (s.modify a f).links = s.links := member_modify_of h s a

@[simp] theorem sibling_modify_of (h : ∀ e, (f e).eSibling = e.eSibling) :
    (s.modify a f).sibling = s.sibling := member_modify_of h s a

@[simp] theorem ino_modify_of (h : ∀ e, (f e).eIno = e.eIno) : (s.modify a f).ino = s.ino :=
  member_modify_of h s a

@[simp] theorem parent_modify_of (h : ∀ e, (f e).eParent = e.eParent) :
    (s.modify a f).parent = s.parent := member_modify_of h s a

@[simp] theorem entries_modify_of (h : ∀ e, (f e).eEntries = e.eEntries) :
    (s.modify a f).entries = s.entries := member_modify_of h s a

@[simp] theorem label_modify_of (h : ∀ e, ((f e).eName, (f e).eFlags) = (e.eName, e.eFlags)) :
    (s.modify a f).label = s.label := member_modify_of h s a

@[simp] theorem entry_modify : (s.modify a f).entry = s.entry := rfl

@[simp] theorem maxino_modify : (s.modify a f).maxino = s.maxino := rfl

@[simp] theorem freelist_modify : (s.modify a f).freelist = s.freelist := rfl

@[simp] theorem removelist_modify : (s.modify a f).removelist = s.removelist := rfl

@[simp] theorem has_modify : (s.modify a f).Has b ↔ s.Has b := by
  rw [Store.Has, Store.Has, mem_modify]
  by_cases hb : b = a
  · subst hb
    rw [Function.update_self, Option.isSome_map]
  · rw [Function.update_of_ne hb]

theorem isDir_eq (s : Store) (a : ℕ) : s.isDir a = (s.entries a).map Option.isSome := by
  rw [Store.isDir, Store.entries, Option.map_map]
  rfl

/-- Any member says at which addresses there are entries. -/
theorem has_congr {β : Type} {s' : Store} (g : Entry → β)
    (h : (fun a => (s'.mem a).map g) = fun a => (s.mem a).map g) (a : ℕ) : s'.Has a ↔ s.Has a := by
  have heq := congrArg Option.isSome (congrFun h a)
  rw [Option.isSome_map, Option.isSome_map] at heq
  rw [Store.Has, Store.Has, heq]

theorem has_of_isDir {s' : Store} (h : s'.isDir = s.isDir) (a : ℕ) : s'.Has a ↔ s.Has a :=
  has_congr (·.eEntries.isSome) h a

theorem flags_congr {s' : Store} (h : s'.label = s.label) : s'.flags = s.flags := by
  funext a
  have heq := congrArg (Option.map Prod.snd) (congrFun h a)
  rwa [Store.label, Store.label, Option.map_map, Option.map_map] at heq

theorem isDir_congr {s' : Store} (h : s'.entries = s.entries) : s'.isDir = s.isDir := by
  funext a
  rw [isDir_eq, isDir_eq, h]

theorem has_of_next {p : Option ℕ} (h : s.next a = some p) : s.Has a := by
  rw [Table.next, Option.map_eq_some_iff] at h
  obtain ⟨e, he, -⟩ := h
  rw [Store.Has, he]
  rfl

theorem Store.Has.exists_mem (h : s.Has a) : ∃ e, s.mem a = some e := Option.isSome_iff_exists.mp h

/-- The entry at an address and its members. -/
theorem cell_eq {e : Entry} (h : s.mem a = some e) : s.cell a = .ok e := by
  rw [Store.cell, h]
  rfl

theorem hasIno_iff {inum : ℕ} : s.hasIno inum a = true ↔ s.ino a = some inum := by
  rw [Table.hasIno, Store.ino]
  cases s.mem a with
  | none => simp
  | some e => simp

end Members

/-- An assignment to a head in a table of lists. -/
theorem getD_set {heads : List (Option ℕ)} {i j : ℕ} (hj : j < heads.length) (p : Option ℕ) :
    (heads.set i p).getD j none = if j = i then p else heads.getD j none := by
  rw [List.getD_eq_getElem?_getD, List.getD_eq_getElem?_getD]
  by_cases hji : j = i
  · subst hji
    rw [if_pos rfl, List.getElem?_set_self hj]
    rfl
  · rw [if_neg hji, List.getElem?_set_ne (Ne.symm hji)]

/-- Lists of entries are not longer than `fuel`. -/
def Fits (fuel : ℕ) (s : Store) : Prop :=
  ∀ l : List ℕ, l.Nodup → (∀ a ∈ l, s.Has a) → l.length ≤ fuel

section Fits

variable {fuel : ℕ} {s s' : Store} {p : Option ℕ} {l : List ℕ}

theorem Fits.congr (h : Fits fuel s) (hhas : ∀ a, s'.Has a → s.Has a) : Fits fuel s' :=
  fun l hl hmem => h l hl fun a ha => hhas a (hmem a ha)

theorem Fits.next (h : Fits fuel s) (hl : Linked s.next p l) : l.length ≤ fuel := by
  refine h l hl.nodup fun a ha => ?_
  obtain ⟨q, hq⟩ := Option.isSome_iff_exists.mp (hl.isSome ha)
  exact has_of_next hq

theorem Fits.links (h : Fits fuel s) (hl : Linked s.links p l) : l.length ≤ fuel := by
  refine h l hl.nodup fun a ha => ?_
  have hsome := hl.isSome ha
  rwa [Table.links, Option.isSome_map] at hsome

theorem Fits.sibling (h : Fits fuel s) (hl : Linked s.sibling p l) : l.length ≤ fuel := by
  refine h l hl.nodup fun a ha => ?_
  have hsome := hl.isSome ha
  rwa [Table.sibling, Option.isSome_map] at hsome

end Fits

end Symtab

end DumpRestore
