import Mathlib.Logic.Function.Basic
import Twine.Exec

/-!
# Rounds of work over a set of parties

What a barrier with a trigger is for, said without threads: between two
releases every party is idle, due or busy. A release needs every party idle and
makes some of them due; a due party starts its work and finishes it. The events
of one party between two releases are then determined by its phases at the two
ends, so a party that was made due and is idle again has run exactly once.
-/
namespace Rounds

open Exec

variable {ι : Type} [DecidableEq ι]

inductive Phase where
  | idle | due | busy
  deriving DecidableEq, Repr

inductive Event (ι : Type) where
  | release : Event ι
  | start : ι → Event ι
  | finish : ι → Event ι
  deriving DecidableEq, Repr

/-- A release may leave parties out, but it never finds one at work. -/
inductive Step : (ι → Phase) → Event ι → (ι → Phase) → Prop where
  | release {p q : ι → Phase} : (∀ i, p i = .idle) → (∀ i, q i ≠ .busy) → Step p .release q
  | start {p : ι → Phase} (i : ι) : p i = .due → Step p (.start i) (Function.update p i .busy)
  | finish {p : ι → Phase} (i : ι) : p i = .busy → Step p (.finish i) (Function.update p i .idle)

/-- The events of one party. -/
def eventsOf (i : ι) (es : List (Event ι)) : List (Event ι) :=
  es.filter fun e => e = .start i ∨ e = .finish i

@[simp] theorem eventsOf_nil (i : ι) : eventsOf i [] = [] := rfl

@[simp] theorem eventsOf_append (i : ι) (es fs : List (Event ι)) :
    eventsOf i (es ++ fs) = eventsOf i es ++ eventsOf i fs := by
  simp [eventsOf]

theorem eventsOf_cons (i : ι) (e : Event ι) (es : List (Event ι)) :
    eventsOf i (e :: es) = eventsOf i [e] ++ eventsOf i es := by
  rw [← eventsOf_append]
  rfl

/-- What a party that was due at the release has done when it is in a phase. -/
def done (i : ι) : Phase → List (Event ι)
  | .due => []
  | .busy => [.start i]
  | .idle => [.start i, .finish i]

/-- One event moves one party along `done` and leaves the others alone. -/
theorem step_done {p q : ι → Phase} {e : Event ι} (h : Step p e q) (he : e ≠ .release) (i : ι) :
    done i (p i) ++ eventsOf i [e] = done i (q i) := by
  cases h with
  | release => exact absurd rfl he
  | start j hj =>
    by_cases hij : i = j
    · subst hij
      simp [hj, done, eventsOf]
    · have hji : j ≠ i := fun h => hij h.symm
      simp [Function.update_of_ne hij, eventsOf, hji]
  | finish j hj =>
    by_cases hij : i = j
    · subst hij
      simp [hj, done, eventsOf]
    · have hji : j ≠ i := fun h => hij h.symm
      simp [Function.update_of_ne hij, eventsOf, hji]

/-- Between two releases the phases at both ends determine a party's events. -/
theorem path_done {p q : ι → Phase} {es : List (Event ι)} (h : Path Step p es q)
    (he : .release ∉ es) (i : ι) : done i (p i) ++ eventsOf i es = done i (q i) := by
  induction h with
  | nil p => simp
  | @cons p r q e es hstep _ ih =>
    have hr : .release ∉ es := fun hm => he (by simp [hm])
    have hne : e ≠ .release := fun hm => he (by simp [hm])
    rw [eventsOf_cons, ← List.append_assoc, step_done hstep hne i]
    exact ih hr

/-- A party that was due and is idle again has run exactly once. -/
theorem due_runs_once {p q : ι → Phase} {es : List (Event ι)} (h : Path Step p es q)
    (he : .release ∉ es) {i : ι} (hp : p i = .due) (hq : q i = .idle) :
    eventsOf i es = [.start i, .finish i] := by
  simpa [hp, hq, done] using path_done h he i

/-- A party that was not made due does nothing until the next release. -/
theorem idle_stays {p q : ι → Phase} {es : List (Event ι)} (h : Path Step p es q)
    (he : .release ∉ es) {i : ι} (hp : p i = .idle) : eventsOf i es = [] ∧ q i = .idle := by
  have hd := path_done h he i
  cases hq : q i <;> simp [hp, hq, done] at hd
  exact ⟨hd, rfl⟩

/-! ## Rounds in arrears -/

/-- The runs of its work that a party still has to start. -/
def Phase.unstarted : Phase → Nat
  | .due => 1
  | .idle | .busy => 0

/-- The runs of its work that a party still has to finish. -/
def Phase.unfinished : Phase → Nat
  | .due | .busy => 1
  | .idle => 0

/-- An event either is a release that makes the party due, or lowers what it still has to do
by what it does. -/
theorem step_arrears {p q : ι → Phase} {e : Event ι} (h : Step p e q) (i : ι)
    (hr : e = .release → q i = .due) :
    (if e = .start i then 1 else 0) + (q i).unstarted =
        (if e = .release then 1 else 0) + (p i).unstarted ∧
      (if e = .finish i then 1 else 0) + (q i).unfinished =
        (if e = .release then 1 else 0) + (p i).unfinished := by
  cases h with
  | release hidle => simp [hr rfl, hidle i, Phase.unstarted, Phase.unfinished]
  | start j hj =>
    by_cases hij : i = j
    · subst hij
      simp [hj, Phase.unstarted, Phase.unfinished]
    · have hji : j ≠ i := fun h => hij h.symm
      simp [Function.update_of_ne hij, hji]
  | finish j hj =>
    by_cases hij : i = j
    · subst hij
      simp [hj, Phase.unstarted, Phase.unfinished]
    · have hji : j ≠ i := fun h => hij h.symm
      simp [Function.update_of_ne hij, hji]

end Rounds
