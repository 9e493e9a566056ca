import Mathlib.Data.Fintype.Basic
import Mathlib.Logic.Function.Conjugate

/-!
# Programs of actions on a shared store

A program is a list of atomic actions. Several programs are interleaved by taking the
next action of any of them. When actions of different programs commute, what is left of
the programs, run one after the other, leads to the same store at every moment.
-/
namespace Actions

variable {σ : Type} {a : σ → σ} {p q : List (σ → σ)} {left : List (List (σ → σ))}
  {store result : σ} {i : Nat}

/-- The actions of a program, one after the other. -/
def runAll (p : List (σ → σ)) (store : σ) : σ := p.foldl (fun s a => a s) store

@[simp] theorem runAll_nil (store : σ) : runAll [] store = store := rfl

@[simp] theorem runAll_cons (a : σ → σ) (p : List (σ → σ)) (store : σ) :
    runAll (a :: p) store = runAll p (a store) := rfl

@[simp] theorem runAll_append (p q : List (σ → σ)) (store : σ) :
    runAll (p ++ q) store = runAll q (runAll p store) := by
  simp [runAll]

/-- Every action of the one program commutes with every action of the other. -/
def Independent (p q : List (σ → σ)) : Prop := ∀ a ∈ p, ∀ b ∈ q, Function.Commute a b

instance instDecidableCommute [Fintype σ] [DecidableEq σ] (a b : σ → σ) :
    Decidable (Function.Commute a b) :=
  inferInstanceAs (Decidable (∀ x, a (b x) = b (a x)))

instance [Fintype σ] [DecidableEq σ] (p q : List (σ → σ)) : Decidable (Independent p q) :=
  @List.decidableBAll _ (fun a => ∀ b ∈ q, Function.Commute a b)
    (fun a => @List.decidableBAll _ (Function.Commute a) (instDecidableCommute a) q) p

/-- An action moves past a program that it commutes with. -/
theorem runAll_commute (h : ∀ b ∈ p, Function.Commute b a) (store : σ) :
    runAll p (a store) = a (runAll p store) := by
  induction p generalizing store with
  | nil => rfl
  | cons b p ih =>
    have hb : b (a store) = a (b store) := h b (by simp) store
    have hp : ∀ c ∈ p, Function.Commute c a := fun c hc => h c (by simp [hc])
    calc runAll (b :: p) (a store)
        = runAll p (b (a store)) := rfl
      _ = runAll p (a (b store)) := by rw [hb]
      _ = a (runAll p (b store)) := ih hp (b store)

/-- The next action of any program may be taken first. -/
theorem runAll_next (h : left.Pairwise Independent) (hi : left[i]? = some (a :: p))
    (store : σ) : runAll (left.set i p).flatten (a store) = runAll left.flatten store := by
  induction left generalizing i store with
  | nil => simp at hi
  | cons q left ih =>
    obtain ⟨hq, hleft⟩ := List.pairwise_cons.mp h
    cases i with
    | zero =>
      obtain rfl : q = a :: p := by simpa using hi
      simp
    | succ i =>
      have hi : left[i]? = some (a :: p) := by simpa using hi
      have hqa : ∀ b ∈ q, Function.Commute b a := fun b hb =>
        hq (a :: p) (List.mem_of_getElem? hi) b hb a (by simp)
      have hnext := ih hleft hi (runAll q store)
      simpa [runAll_commute hqa] using hnext

/-- Taking an action leaves the programs independent. -/
theorem pairwise_next (h : left.Pairwise Independent) (hi : left[i]? = some (a :: p)) :
    (left.set i p).Pairwise Independent := by
  induction left generalizing i with
  | nil => simp at hi
  | cons q left ih =>
    obtain ⟨hq, hleft⟩ := List.pairwise_cons.mp h
    cases i with
    | zero =>
      obtain rfl : q = a :: p := by simpa using hi
      apply List.pairwise_cons.mpr
      exact ⟨fun r hr b hb => hq r hr b (by simp [hb]), hleft⟩
    | succ i =>
      have hi : left[i]? = some (a :: p) := by simpa using hi
      apply List.pairwise_cons.mpr
      refine ⟨fun r hr => ?_, ih hleft hi⟩
      cases List.mem_or_eq_of_mem_set hr with
      | inl hr => exact hq r hr
      | inr hr =>
        subst hr
        exact fun b hb c hc => hq _ (List.mem_of_getElem? hi) b hb c (by simp [hc])

/-! ## What is left of a fork -/

/-- What is left of the programs leads from the store to the result. -/
structure Leads (left : List (List (σ → σ))) (store result : σ) : Prop where
  independent : left.Pairwise Independent
  result : runAll left.flatten store = result

theorem leads_fork (h : left.Pairwise Independent) (store : σ) :
    Leads left store (runAll left.flatten store) := ⟨h, rfl⟩

theorem Leads.act (h : Leads left store result) (hi : left[i]? = some (a :: p)) :
    Leads (left.set i p) (a store) result where
  independent := pairwise_next h.independent hi
  result := (runAll_next h.independent hi store).trans h.result

theorem flatten_of_done (h : ∀ p ∈ left, p = []) : left.flatten = [] := by
  simpa using h

/-- Once all of the programs are through, the store is the result. -/
theorem Leads.done (h : Leads left store result) (hleft : ∀ p ∈ left, p = []) :
    store = result := by
  simpa [flatten_of_done hleft] using h.result

/-- Between two forks the store may be changed. -/
theorem Leads.host (h : Leads left store result) (hleft : ∀ p ∈ left, p = []) (f : σ → σ) :
    Leads left (f store) (f result) where
  independent := h.independent
  result := by simp [flatten_of_done hleft, h.done hleft]

end Actions
