import Mathlib.Control.Monad.Basic

/-!
# Invariants of stateful programs

A program with a state that may stop early is an `OptionT (StateM σ) α`: the state is there also
when the program has stopped. `Keeps I x` says that `x` keeps the predicate `I` of the state.
-/

namespace DumpRestore

section Keeps

variable {σ α β : Type} {I : σ → Prop}

/-- The program keeps `I`, whether it stops early or not. -/
def Keeps (I : σ → Prop) (x : OptionT (StateM σ) α) : Prop := ∀ s, I s → I (x.run.run s).2

theorem keeps_pure (a : α) : Keeps I (pure a : OptionT (StateM σ) α) := fun _ hs => hs

theorem keeps_failure : Keeps I (failure : OptionT (StateM σ) α) := fun _ hs => hs

theorem keeps_get : Keeps I (get : OptionT (StateM σ) σ) := fun _ hs => hs

/-- A first program whose result is known. -/
theorem run_bind_of_eq {x : OptionT (StateM σ) α} (f : α → OptionT (StateM σ) β) {s s' : σ} {a : α}
    (h : x.run.run s = (some a, s')) : (x >>= f).run.run s = (f a).run.run s' := by
  rw [OptionT.run_bind, Option.elimM, StateT.run_bind, h]
  rfl

/-- In sequence, from the state `s`: the first program leads to `J`, and the second one from `J` to
`I`. -/
theorem bind_leads {J : σ → Prop} {x : OptionT (StateM σ) α} {f : α → OptionT (StateM σ) β} {s : σ}
    (hx : J (x.run.run s).2) (hstop : ∀ s, J s → I s)
    (hf : ∀ a s, J s → I ((f a).run.run s).2) : I ((x >>= f).run.run s).2 := by
  rcases hrun : x.run.run s with ⟨o, s'⟩
  rw [hrun] at hx
  rw [OptionT.run_bind, Option.elimM, StateT.run_bind, hrun]
  cases o with
  | none => exact hstop s' hx
  | some a => exact hf a s' hx

/-- In sequence; the second program runs only from states in which the first one ends. -/
theorem Keeps.bind {x : OptionT (StateM σ) α} {f : α → OptionT (StateM σ) β} (hx : Keeps I x)
    (hf : ∀ a, Keeps I (f a)) : Keeps I (x >>= f) := fun s hs =>
  bind_leads (hx s hs) (fun _ => id) hf

/-- From the state `s` the program leads to `Q`, or stops early in a state with `I`. -/
def LeadsTo (I : σ → Prop) (Q : α → σ → Prop) (x : OptionT (StateM σ) α) (s : σ) : Prop :=
  (∀ s', x.run.run s = (none, s') → I s') ∧ ∀ a s', x.run.run s = (some a, s') → Q a s'

theorem leadsTo_pure {Q : α → σ → Prop} {a : α} {s : σ} (hq : Q a s) :
    LeadsTo I Q (pure a : OptionT (StateM σ) α) s := by
  refine ⟨fun s' h => (by cases h), fun b s' h => ?_⟩
  obtain ⟨hb, rfl⟩ := Prod.mk.inj h
  exact Option.some.inj hb ▸ hq

theorem leadsTo_failure {Q : α → σ → Prop} {s : σ} (hs : I s) :
    LeadsTo I Q (failure : OptionT (StateM σ) α) s := by
  refine ⟨fun s' h => ?_, fun b s' h => (by cases h)⟩
  obtain ⟨-, rfl⟩ := Prod.mk.inj h
  exact hs

theorem leadsTo_of_run {x : OptionT (StateM σ) α} {s : σ} (h : I (x.run.run s).2) :
    LeadsTo I (fun _ => I) x s :=
  ⟨fun s' hrun => (by rwa [hrun] at h), fun a s' hrun => (by rwa [hrun] at h)⟩

theorem Keeps.leadsTo {x : OptionT (StateM σ) α} (hx : Keeps I x) {s : σ} (hs : I s) :
    LeadsTo I (fun _ => I) x s := leadsTo_of_run (hx s hs)

theorem LeadsTo.run {x : OptionT (StateM σ) α} {s : σ} (hx : LeadsTo I (fun _ => I) x s) :
    I (x.run.run s).2 := by
  rcases hrun : x.run.run s with ⟨_ | a, s'⟩
  · exact hx.1 s' hrun
  · exact hx.2 a s' hrun

theorem keeps_of_leadsTo {x : OptionT (StateM σ) α}
    (hx : ∀ s, I s → LeadsTo I (fun _ => I) x s) : Keeps I x := fun s hs => (hx s hs).run

/-- In sequence; the second program runs from the states that the first one leads to. -/
theorem LeadsTo.bind {Q : α → σ → Prop} {R : β → σ → Prop} {x : OptionT (StateM σ) α}
    {f : α → OptionT (StateM σ) β} {s : σ} (hx : LeadsTo I Q x s)
    (hf : ∀ a s, Q a s → LeadsTo I R (f a) s) : LeadsTo I R (x >>= f) s := by
  rw [LeadsTo, OptionT.run_bind, Option.elimM, StateT.run_bind]
  rcases hrun : x.run.run s with ⟨_ | a, s'⟩
  · refine ⟨fun t h => ?_, fun b t h => (by cases h)⟩
    obtain ⟨-, rfl⟩ := Prod.mk.inj h
    exact hx.1 s' hrun
  · exact hf a s' (hx.2 a s' hrun)

theorem LeadsTo.mono {J : σ → Prop} {Q R : α → σ → Prop} {x : OptionT (StateM σ) α} {s : σ}
    (hx : LeadsTo I Q x s) (hJ : ∀ s, I s → J s) (hR : ∀ a s, Q a s → R a s) : LeadsTo J R x s :=
  ⟨fun s' hrun => hJ s' (hx.1 s' hrun), fun a s' hrun => hR a s' (hx.2 a s' hrun)⟩

/-- A program that starts by looking at the state. -/
theorem keeps_get_bind {f : σ → OptionT (StateM σ) β}
    (hf : ∀ s, I s → I ((f s).run.run s).2) : Keeps I (get >>= f) := hf

/-- A program that starts by looking at the state, of which `I` is known. -/
theorem Keeps.get_bind {f : σ → OptionT (StateM σ) β} (hf : ∀ s, I s → Keeps I (f s)) :
    Keeps I (get >>= f) := fun s hs => hf s hs s hs

theorem LeadsTo.get_bind {R : β → σ → Prop} {f : σ → OptionT (StateM σ) β} {s : σ}
    (h : LeadsTo I R (f s) s) : LeadsTo I R (get >>= f) s := h

theorem LeadsTo.set_bind {R : β → σ → Prop} {f : PUnit → OptionT (StateM σ) β} {s s' : σ}
    (h : LeadsTo I R (f ⟨⟩) s') : LeadsTo I R (set s' >>= f) s := h

theorem LeadsTo.modify_bind {R : β → σ → Prop} {f : PUnit → OptionT (StateM σ) β} {g : σ → σ}
    {s : σ} (h : LeadsTo I R (f ⟨⟩) (g s)) : LeadsTo I R (modify g >>= f) s := h

/-- A program that starts by setting the state. -/
theorem Keeps.set_bind {f : PUnit → OptionT (StateM σ) β} {s : σ} (hs : I s)
    (hf : Keeps I (f ⟨⟩)) : Keeps I (set s >>= f) := fun _ _ => hf s hs

theorem Keeps.modify_bind {f : PUnit → OptionT (StateM σ) β} {g : σ → σ} (hg : ∀ s, I s → I (g s))
    (hf : Keeps I (f ⟨⟩)) : Keeps I (modify g >>= f) := fun s hs => hf (g s) (hg s hs)

theorem keeps_set {s : σ} (hs : I s) : Keeps I (set s : OptionT (StateM σ) PUnit) := fun _ _ => hs

theorem Keeps.ite {c : Prop} [Decidable c] {x y : OptionT (StateM σ) α} (hx : c → Keeps I x)
    (hy : ¬c → Keeps I y) : Keeps I (if c then x else y) := by
  split
  · next h => exact hx h
  · next h => exact hy h

theorem LeadsTo.ite {Q : α → σ → Prop} {c : Prop} [Decidable c] {x y : OptionT (StateM σ) α}
    {s : σ} (hx : c → LeadsTo I Q x s) (hy : ¬c → LeadsTo I Q y s) :
    LeadsTo I Q (if c then x else y) s := by
  split
  · next h => exact hx h
  · next h => exact hy h

/-- A loop over a list. -/
theorem keeps_forM {f : β → OptionT (StateM σ) PUnit} {l : List β} (hf : ∀ b ∈ l, Keeps I (f b)) :
    Keeps I (l.forM f) := by
  induction l with
  | nil => exact keeps_pure _
  | cons b l ih =>
    exact (hf b (List.mem_cons_self ..)).bind fun _ =>
      ih fun b hb => hf b (List.mem_cons_of_mem _ hb)

end Keeps

end DumpRestore
