import Twine.Exec

/-!
# The condition variable on a POSIX semaphore

`notify` posts the semaphore and `wait` waits for it, discards the result and
returns true. Any number of threads notify and one thread waits; a `sem_wait`
and the return that follows it are one step.
-/
namespace Twine.PosixCondVar

structure State where
  semaphore : Nat
  /-- The waiting thread is in `sem_wait`. -/
  waiting : Bool
  deriving DecidableEq, Repr

def init : State := ⟨0, false⟩

inductive Label where
  | notify
  | wait
  /-- `sem_wait` takes a token and `wait` returns. -/
  | take
  /-- `sem_wait` returns an error without a token, and `wait` returns. -/
  | interrupted
  deriving DecidableEq, Repr

/-- What a call of `wait` that ends with this label returns. -/
def Label.returned : Label → Option Bool
  | .take | .interrupted => some true
  | .notify | .wait => none

/-- `sem_post` on a full semaphore is an error that `notify` discards. -/
def step (semValueMax : Nat) (s : State) : Label → Option State
  | .notify =>
    if s.semaphore < semValueMax then some { s with semaphore := s.semaphore + 1 } else some s
  | .wait => if s.waiting then none else some { s with waiting := true }
  | .take =>
    if s.waiting = true ∧ 0 < s.semaphore then some ⟨s.semaphore - 1, false⟩ else none
  | .interrupted => if s.waiting then some { s with waiting := false } else none

abbrev run (semValueMax : Nat) : State → List Label → Option State := Exec.run (step semValueMax)

def notifications (tr : List Label) : Nat := tr.count .notify

/-- The calls of `wait` that have returned true. -/
def trueReturns (tr : List Label) : Nat := tr.countP fun l => l.returned = some true

theorem notifications_snoc (tr : List Label) (l : Label) :
    notifications (tr ++ [l]) = notifications tr + if l = .notify then 1 else 0 := by
  cases l <;> simp [notifications, List.count_append]

theorem trueReturns_snoc (tr : List Label) (l : Label) :
    trueReturns (tr ++ [l]) = trueReturns tr + if l.returned = some true then 1 else 0 := by
  simp [trueReturns, List.countP_append, List.countP_singleton]

/-- The waiting thread is in `sem_wait` and cannot take a token. -/
def Blocked (semValueMax : Nat) (s : State) : Prop :=
  s.waiting = true ∧ step semValueMax s .take = none

/-- Every return is paid for by a notification. -/
structure Counts (semValueMax : Nat) (tr : List Label) (s : State) : Prop where
  returns : trueReturns tr ≤ notifications tr
  semaphore : s.semaphore = notifications tr - trueReturns tr
  blocked : Blocked semValueMax s → notifications tr - trueReturns tr = 0

/-- The notifications are the tokens and the returns. -/
def Balanced (tr : List Label) (s : State) : Prop :=
  s.semaphore + trueReturns tr = notifications tr

theorem Balanced.counts {semValueMax : Nat} {tr : List Label} {s : State} (h : Balanced tr s) :
    Counts semValueMax tr s := by
  simp only [Balanced] at h
  constructor
  case returns => omega
  case semaphore => omega
  case blocked =>
    rintro ⟨hw, hstep⟩
    simp only [step, hw, true_and, ite_eq_right_iff, reduceCtorEq, imp_false, Nat.not_lt] at hstep
    omega

/-- There is room for a notification. -/
def Outstanding (semValueMax : Nat) (s : State) (l : Label) : Prop :=
  l = .notify → s.semaphore < semValueMax

instance (semValueMax : Nat) (s : State) (l : Label) : Decidable (Outstanding semValueMax s l) := by
  unfold Outstanding
  infer_instance

theorem Balanced.step {semValueMax : Nat} {tr : List Label} {s t : State} {l : Label}
    (h : Balanced tr s) (hok : Outstanding semValueMax s l) (hl : l ≠ .interrupted)
    (hstep : step semValueMax s l = some t) : Balanced (tr ++ [l]) t := by
  simp only [Balanced, notifications_snoc, trueReturns_snoc] at h ⊢
  cases l with
  | notify =>
    have hroom := hok rfl
    simp only [PosixCondVar.step, hroom, if_true, Option.some.injEq] at hstep
    subst hstep
    simp [Label.returned]
    omega
  | wait =>
    simp only [PosixCondVar.step] at hstep
    split at hstep <;> cases hstep
    simpa [Label.returned] using h
  | take =>
    simp only [PosixCondVar.step] at hstep
    split at hstep <;> cases hstep
    simp [Label.returned]
    omega
  | interrupted => exact absurd rfl hl

/-- The returns are paid for throughout a run if and only if no `sem_wait` of the run returns an
error. -/
theorem counts_iff {semValueMax : Nat} {tr : List Label}
    (hroom : Exec.Steps (step semValueMax) init (Outstanding semValueMax) tr) :
    Exec.Throughout (step semValueMax) init (Counts semValueMax) tr ↔
      Exec.Steps (step semValueMax) init (fun _ l => l ≠ .interrupted) tr := by
  refine Exec.throughout_iff (I := Balanced) (B := fun _ l => l = .interrupted) rfl ?_ ?_ ?_ hroom
  · intro tr s l t h hok hl hstep
    exact h.step hok hl hstep
  · intro tr s h
    exact h.counts
  · rintro tr s l t h - rfl hstep hcounts
    -- one more return for the same tokens
    simp only [step] at hstep
    split at hstep <;> cases hstep
    have hret := hcounts.returns
    have hsem := hcounts.semaphore
    simp only [Balanced, notifications_snoc, trueReturns_snoc, Label.returned, reduceCtorEq,
      if_false, if_true] at h hret hsem
    omega

/-- A wait that is interrupted once there is a token for it. -/
def interruptedRun : List Label := [.notify, .wait, .interrupted]

theorem counts_iff_interrupted :
    Exec.Throughout (step 2147483647) init (Counts 2147483647) interruptedRun ↔
      Exec.Steps (step 2147483647) init (fun _ l => l ≠ .interrupted) interruptedRun := by
  obtain ⟨s, hs⟩ := Exec.guarded_of_isSome (step 2147483647)
    (fun _ s l => Outstanding 2147483647 s l) init interruptedRun (by decide)
  exact counts_iff hs.steps

/-- Nobody has notified, and `wait` returns true. -/
theorem interrupted_returns_true :
    ¬ Exec.Throughout (step 2147483647) init (Counts 2147483647) [.wait, .interrupted] := by
  intro h
  have hret := (h [.wait, .interrupted] [] ⟨0, false⟩ rfl (by decide)).returns
  exact absurd hret (by decide)

end Twine.PosixCondVar
