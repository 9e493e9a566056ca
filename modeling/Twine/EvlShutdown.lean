import Twine.EvlDestructor

/-!
# The destructor of an EVL condition variable returns

Whether the waiter leaves or not: the destructor makes a bounded number of steps, and it
sleeps between them for a bounded time in total.
-/
namespace Twine.EvlDestructor

def Label.ofDestructor : Label → Bool
  | .destroy | .close | .test | .wake => true
  | .wait | .notifyRt | .notifyNonRt | .elapse _ => false

/-- The most steps that the destructor still makes. -/
def Destructor.steps : Destructor → Nat
  | .notCalled => 2 * EVL_SHUTDOWN_RETRIES + 3
  | .closing => 2 * EVL_SHUTDOWN_RETRIES + 2
  | .testing retries => 2 * retries + 1
  | .sleeping retries _ => 2 * retries + 2
  | .returned => 0

/-- The longest time that it still sleeps. -/
def Destructor.sleep : Destructor → Nat
  | .notCalled | .closing => EVL_SHUTDOWN_RETRIES * retryTime
  | .testing retries => retries * retryTime
  | .sleeping retries left => retries * retryTime + left
  | .returned => 0

/-- The time that the destructor sleeps while the clock advances; what goes by after the end of a
sleep, before the thread runs again, is not part of it. -/
def slept (s : State) : Label → Nat
  | .elapse ms =>
    match s.destructor with
    | .sleeping _ left => min ms left
    | _ => 0
  | _ => 0

section Steps

variable {inband : Bool} {s t : State} {l : Label}

theorem wait_destructor (h : step inband s .wait = some t) : t.destructor = s.destructor := by
  cases wait_move h <;> rfl

theorem steps_step (h : step inband s l = some t) :
    t.destructor.steps + (if l.ofDestructor then 1 else 0) ≤ s.destructor.steps := by
  by_cases hl : l = .wait
  · subst hl
    rw [wait_destructor h]
    exact Nat.le_refl _
  · cases step_other hl h with
    | notifyRt | notifyNonRt => exact Nat.le_refl _
    | destroy hd =>
      rw [hd]
      exact Nat.le_refl _
    | close hd =>
      rw [hd]
      exact Nat.le_refl _
    | again hd _ hpos =>
      simp only [hd, Destructor.steps, Label.ofDestructor, if_true]
      omega
    | give_up hd =>
      simp [hd, Destructor.steps, Label.ofDestructor]
    | wake hd =>
      rw [hd]
      exact Nat.le_refl _
    | elapse ms => cases hd : s.destructor <;> exact Nat.le_refl _

theorem sleep_step (h : step inband s l = some t) :
    t.destructor.sleep + slept s l ≤ s.destructor.sleep := by
  by_cases hl : l = .wait
  · subst hl
    rw [wait_destructor h]
    exact Nat.le_refl _
  · cases step_other hl h with
    | notifyRt | notifyNonRt => exact Nat.le_refl _
    | destroy hd =>
      rw [hd]
      exact Nat.le_refl _
    | close hd =>
      rw [hd]
      exact Nat.le_refl _
    | again hd _ hpos =>
      obtain ⟨r, hr⟩ := Nat.exists_eq_add_of_lt hpos
      simp only [hd, Destructor.sleep, slept, hr, Nat.zero_add, Nat.add_sub_cancel, Nat.add_mul,
        Nat.one_mul]
      exact Nat.le_refl _
    | give_up hd =>
      simp [Destructor.sleep, slept]
    | wake hd =>
      rw [hd]
      exact Nat.le_refl _
    | elapse ms =>
      cases hd : s.destructor with
      | sleeping retries left =>
        simp only [Destructor.elapse, Destructor.sleep, slept, hd]
        omega
      | _ => simp [Destructor.elapse, Destructor.sleep, slept, hd]

/-- A sleep is at most as long as the time between two tests. -/
theorem sleeping_step
    (hs : ∀ retries left, s.destructor = .sleeping retries left → left ≤ retryTime)
    (h : step inband s l = some t) :
    ∀ retries left, t.destructor = .sleeping retries left → left ≤ retryTime := by
  by_cases hl : l = .wait
  · subst hl
    rw [wait_destructor h]
    exact hs
  · cases step_other hl h with
    | notifyRt | notifyNonRt => exact hs
    | again hd =>
      intro retries left he
      cases he
      exact Nat.le_refl _
    | elapse ms =>
      intro retries left he
      cases hd : s.destructor with
      | sleeping retries' left' =>
        simp only [hd, Destructor.elapse, Destructor.sleeping.injEq] at he
        have hle := hs retries' left' hd
        omega
      | _ => simp [hd, Destructor.elapse] at he
    | destroy | close | give_up | wake =>
      intro retries left he
      cases he

end Steps

/-- The destructor can go on, or sleeps until its next test. -/
def GoesOn (inband : Bool) (s : State) : Prop :=
  (∃ l : Label, l.ofDestructor = true ∧ (step inband s l).isSome = true) ∨
    ∃ retries left, s.destructor = .sleeping retries left ∧ 0 < left ∧ left ≤ retryTime

theorem goesOn {inband : Bool} {s : State} (hcalled : s.destructor ≠ .notCalled)
    (hreturned : s.destructor ≠ .returned)
    (hs : ∀ retries left, s.destructor = .sleeping retries left → left ≤ retryTime) :
    GoesOn inband s := by
  cases hd : s.destructor with
  | notCalled => exact absurd hd hcalled
  | closing => exact .inl ⟨.close, rfl, by simp [step, hd]⟩
  | testing retries =>
    refine .inl ⟨.test, rfl, ?_⟩
    simp only [step, hd]
    split <;> rfl
  | sleeping retries left =>
    cases left with
    | zero => exact .inl ⟨.wake, rfl, by simp [step, hd]⟩
    | succ left => exact .inr ⟨retries, left + 1, hd, Nat.succ_pos left, hs retries _ hd⟩
  | returned => exact absurd hd hreturned

/-- In every run, of any waiter and under any scheduling: the destructor makes at most
twenty-three steps and sleeps for at most two seconds, and until it has returned it has a step
to take or the rest of a sleep before it. -/
theorem destructor_returns {inband : Bool} {tr : List Label} {s : State}
    (h : Exec.run (step inband) init tr = some s) :
    tr.countP Label.ofDestructor ≤ 23 ∧ Exec.total (step inband) slept init tr ≤ 2000 ∧
      (s.destructor ≠ .notCalled → s.destructor ≠ .returned → GoesOn inband s) := by
  have hsteps := Exec.run_bounded (fun s => s.destructor.steps)
    (fun _ l => if l.ofDestructor then 1 else 0) (fun _ _ _ hstep => steps_step hstep) h
  have hsleep : s.destructor.sleep + Exec.total (step inband) slept init tr ≤
      init.destructor.sleep :=
    Exec.run_bounded (fun s => s.destructor.sleep) slept (fun _ _ _ hstep => sleep_step hstep) h
  have hleft := Exec.run_invariant (P := fun _ => True)
    (I := fun s => ∀ retries left, s.destructor = .sleeping retries left → left ≤ retryTime)
    (fun _ _ _ hs _ hstep => sleeping_step hs hstep) (by simp [init]) (fun _ _ => trivial) h
  rw [Exec.total_countP Label.ofDestructor h] at hsteps
  have hfirst : init.destructor.steps = 23 := rfl
  have hlongest : init.destructor.sleep = 2000 := rfl
  refine ⟨by omega, by omega, ?_⟩
  intro hcalled hreturned
  exact goesOn hcalled hreturned hleft

/-- The waiter is blocked in `oob_read` and stays there. -/
def stuckWaiter : List Label :=
  [.wait, .wait, .destroy, .close] ++
    (List.replicate EVL_SHUTDOWN_RETRIES [.test, .elapse retryTime, .wake]).flatten ++ [.test]

theorem destructor_returns_stuckWaiter :
    Exec.run (step false) init stuckWaiter = some ⟨.oobBlocked, true, 0, 0, .returned⟩ ∧
      stuckWaiter.countP Label.ofDestructor ≤ 23 ∧
      Exec.total (step false) slept init stuckWaiter ≤ 2000 := by
  have hrun : Exec.run (step false) init stuckWaiter =
    some ⟨.oobBlocked, true, 0, 0, .returned⟩ := by decide
  exact ⟨hrun, (destructor_returns hrun).1, (destructor_returns hrun).2.1⟩

end Twine.EvlDestructor
