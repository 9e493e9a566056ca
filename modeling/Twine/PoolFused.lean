import Twine.PoolRuns

/-!
# `wakeup_and_wait` and the two calls that it fuses

A script is the list of calls that the controller makes. Two scripts that differ
only in whether a round is called as `wakeup_and_wait` or as `wakeup_workers`
and `wait_for_workers_idle` allow the workers the same steps, in the same order,
and lead to the same states. Both directions are simulations: the fused call is
mapped to the program point of the two-call form, and back it sleeps where the
two-call form has not begun to wait.
-/
namespace Twine.Pool

/-- The pool with a controller that makes the calls of a script. -/
def scripted (x : State × List Call) (l : Label) : Option (State × List Call) :=
  match l with
  | .call c =>
    match x.2 with
    | [] => none
    | c' :: script => if c = c' then (step x.1 l).map fun t => (t, script) else none
  | l => (step x.1 l).map fun t => (t, x.2)

/-- What the workers do: the callbacks and everything around them. -/
def workerStepOf : Label → Option (Nat × WorkerAct)
  | .worker i a => some (i, a)
  | _ => none

/-- The controller can make the calls of the script while the workers take these steps. -/
def CanRun (s : State) (script : List Call) (steps : List (Nat × WorkerAct)) (t : State) : Prop :=
  ∃ tr, Exec.run scripted (s, script) tr = some (t, []) ∧ tr.filterMap workerStepOf = steps

theorem scripted_call {s : State} {script : List Call} {c : Call} {y : State × List Call}
    (h : scripted (s, script) (.call c) = some y) :
    ∃ rest t, script = c :: rest ∧ step s (.call c) = some t ∧ y = (t, rest) := by
  cases script with
  | nil => cases h
  | cons c' rest =>
    simp only [scripted] at h
    split at h
    · rename_i hc
      subst hc
      obtain ⟨t, ht, rfl⟩ := Option.map_eq_some_iff.mp h
      exact ⟨rest, t, rfl, ht, rfl⟩
    · cases h

theorem scripted_step {s : State} {script : List Call} {l : Label} {y : State × List Call}
    (hl : ∀ c, l ≠ .call c) (h : scripted (s, script) l = some y) :
    ∃ t, step s l = some t ∧ y = (t, script) := by
  cases l with
  | call c => exact absurd rfl (hl c)
  | _ =>
    obtain ⟨t, ht, rfl⟩ := Option.map_eq_some_iff.mp h
    exact ⟨t, ht, rfl⟩

/-- Every fused call replaced by the two calls. -/
def unfuse : List Call → List Call
  | [] => []
  | .wakeupAndWait :: script => .wakeupWorkers :: .waitForWorkersIdle :: unfuse script
  | c :: script => c :: unfuse script

@[simp] theorem setCtrl_setCtrl (s : State) (c c' : Ctrl) :
    (s.setCtrl c).setCtrl c' = s.setCtrl c' := rfl

@[simp] theorem setCtrl_self (s : State) : s.setCtrl s.ctrl = s := rfl

/-! ## Steps of the workers -/

/-- What a worker's step does to the controller: the signal of a registration that fills
the barrier. -/
def Ctrl.after (t : State) (a : WorkerAct) (c : Ctrl) : Ctrl :=
  if a = .register ∧ t.barrier.noThreadsCurrentlyOnBarrier ≥ t.barrier.noThreads then c.signalled
  else c

theorem worker_after {s t : State} {i : Nat} {a : WorkerAct}
    (hstep : step s (.worker i a) = some t) : t.ctrl = s.ctrl.after t a ∧
      t.barrier.noThreads = s.barrier.noThreads ∧
      s.barrier.noThreadsCurrentlyOnBarrier ≤ t.barrier.noThreadsCurrentlyOnBarrier ∧
      (a ≠ .register →
        t.barrier.noThreadsCurrentlyOnBarrier = s.barrier.noThreadsCurrentlyOnBarrier) := by
  obtain ⟨w, -, ⟨rfl, -, -, rfl⟩ | ⟨rfl, sem, -, -, rfl⟩ | ⟨rfl, sem, -, rfl⟩ | ⟨w', hl, rfl⟩⟩ :=
    worker_cases hstep
  · refine ⟨?_, rfl, by simp [State.register, Barrier.enter], fun h => absurd rfl h⟩
    simp [State.register, Ctrl.after, Barrier.enter]
  · exact ⟨by simp [Ctrl.after, State.setWorker], rfl, Nat.le_refl _, fun _ => rfl⟩
  · exact ⟨by simp [Ctrl.after, State.setWorker], rfl, Nat.le_refl _, fun _ => rfl⟩
  · have ha : a ≠ .register := by
      rintro rfl
      simp [WorkerThread.localStep] at hl
    exact ⟨by simp [Ctrl.after, State.setWorker, ha], rfl, Nat.le_refl _, fun _ => rfl⟩

theorem step_localStep {s : State} {i : Nat} {a : WorkerAct} {w w' : WorkerThread}
    (hw : s.workers[i]? = some w) (hl : w.localStep s.running a = some w') :
    step s (.worker i a) = some (s.setWorker i w') := by
  cases a with
  | register | take | interrupted => cases hl
  | _ => simp only [step, hw, workerStep, hl, Option.map_some]

/-- The workers do not see where the controller is, but for the mutex. -/
theorem worker_setCtrl {s t : State} {i : Nat} {a : WorkerAct} {c : Ctrl}
    (hm : c.holdsMutex = s.ctrl.holdsMutex) (hstep : step s (.worker i a) = some t) :
    step (s.setCtrl c) (.worker i a) = some (t.setCtrl (c.after t a)) := by
  obtain ⟨w, hw, ⟨rfl, hpc, hfree, rfl⟩ | ⟨rfl, sem, hpc, hsem, rfl⟩ | ⟨rfl, sem, hpc, rfl⟩ |
    ⟨w', hl, rfl⟩⟩ := worker_cases hstep
  · rw [hfree] at hm
    simp [step, State.setCtrl, hw, workerStep, hpc, hm, State.register, Ctrl.after, Barrier.enter]
  · simp [step, State.setCtrl, hw, workerStep, hpc, hsem, State.setWorker, Ctrl.after]
  · simp [step, State.setCtrl, hw, workerStep, hpc, State.setWorker, Ctrl.after]
  · have ha : a ≠ .register := by
      rintro rfl
      simp [WorkerThread.localStep] at hl
    rw [step_localStep (s := s.setCtrl c) hw hl]
    simp [Ctrl.after, ha, State.setWorker, State.setCtrl]

/-! ## From the fused form to the two calls -/

/-- The program point of the two-call form. -/
def Ctrl.unfused : Ctrl → Ctrl
  | .releasing .wakeupAndWait => .releasing .wakeupWorkers
  | .posting .wakeupAndWait prevSem i => .posting .wakeupWorkers prevSem i
  | .waitForAll .wakeupAndWait => .waitForAll .waitForWorkersIdle
  | .asleep .wakeupAndWait => .asleep .waitForWorkersIdle
  | .woken .wakeupAndWait => .woken .waitForWorkersIdle
  | .returning .wakeupAndWait => .returning .waitForWorkersIdle
  | c => c

/-- The second call, as long as it has not been made. -/
def Ctrl.owed : Ctrl → List Call
  | .releasing .wakeupAndWait | .posting .wakeupAndWait _ _ => [.waitForWorkersIdle]
  | _ => []

def unfusedState (x : State × List Call) : State × List Call :=
  (x.1.setCtrl x.1.ctrl.unfused, x.1.ctrl.owed ++ unfuse x.2)

theorem unfused_holdsMutex (c : Ctrl) : c.unfused.holdsMutex = c.holdsMutex := by
  cases c with
  | posting k => cases k <;> rfl
  | releasing k | waitForAll k | asleep k | woken k | returning k => cases k <;> rfl
  | _ => rfl

theorem unfused_signalled (c : Ctrl) : c.signalled.unfused = c.unfused.signalled := by
  cases c with
  | posting k => cases k <;> rfl
  | releasing k | waitForAll k | asleep k | woken k | returning k => cases k <;> rfl
  | _ => rfl

theorem owed_signalled (c : Ctrl) : c.signalled.owed = c.owed := by
  cases c <;> rfl

/-- Inside `wakeup_and_wait`. -/
def Ctrl.fused : Ctrl → Bool
  | .releasing .wakeupAndWait | .posting .wakeupAndWait _ _ | .waitForAll .wakeupAndWait
  | .asleep .wakeupAndWait | .woken .wakeupAndWait | .returning .wakeupAndWait => true
  | _ => false

theorem unfused_of_not_fused {c : Ctrl} (h : c.fused = false) : c.unfused = c ∧ c.owed = [] := by
  cases c with
  | posting k | releasing k | waitForAll k | asleep k | woken k | returning k =>
    cases k <;> first | exact ⟨rfl, rfl⟩ | cases h
  | _ => exact ⟨rfl, rfl⟩

theorem unfused_after (t : State) (a : WorkerAct) (c : Ctrl) :
    (c.after t a).unfused = c.unfused.after t a ∧ (c.after t a).owed = c.owed := by
  simp only [Ctrl.after]
  split
  · exact ⟨unfused_signalled c, owed_signalled c⟩
  · exact ⟨rfl, rfl⟩

theorem ctrlStep_not_fused {s t : State} (h : s.ctrl.fused = false) (hstep : ctrlStep s = some t) :
    t.ctrl.fused = false := by
  cases ctrl_cases hstep with
  | @sleep k hc | @proceed k hc =>
    rcases hc with hc | hc <;> rw [hc] at h <;> cases k <;> first | rfl | cases h
  | @post k _ _ hc | @posted k _ _ hc =>
    rw [hc] at h
    cases k <;> first | rfl | cases h
  | _ => rfl

/-- A step of the controller outside the fused call is the same step of the two-call form. -/
theorem unfused_same {s t : State} {l : Label} {script : List Call} (hl : ∀ c, l ≠ .call c)
    (hs : s.ctrl.fused = false) (ht : t.ctrl.fused = false) (hstep : step s l = some t) :
    Exec.run scripted (unfusedState (s, script)) [l] = some (unfusedState (t, script)) := by
  obtain ⟨hs₁, hs₂⟩ := unfused_of_not_fused hs
  obtain ⟨ht₁, ht₂⟩ := unfused_of_not_fused ht
  cases l with
  | call c => exact absurd rfl (hl c)
  | _ => simp [Exec.run_cons, scripted, unfusedState, hs₁, hs₂, ht₁, ht₂, hstep]

theorem unfused_ctrl {s t : State} {script : List Call} (hstep : ctrlStep s = some t) :
    ∃ tr, Exec.run scripted (unfusedState (s, script)) tr = some (unfusedState (t, script)) ∧
      tr.filterMap workerStepOf = [] := by
  by_cases hf : s.ctrl.fused = true
  · cases hc : s.ctrl with
    | releasing | returning | asleep => simp [ctrlStep, hc] at hstep
    | waitForAll k | woken k =>
      cases k <;> simp only [hc, Ctrl.fused, Bool.false_eq_true] at hf
      refine ⟨[.ctrl], ?_, rfl⟩
      simp only [ctrlStep, hc] at hstep
      repeat' split at hstep
      all_goals cases hstep
      all_goals simp_all [Exec.run_cons, scripted, unfusedState, step, ctrlStep, Ctrl.unfused,
        Ctrl.owed, State.setCtrl, Waiter.next]
    | posting k sem i =>
      cases k <;> simp only [hc, Ctrl.fused, Bool.false_eq_true] at hf
      simp only [ctrlStep, hc] at hstep
      split at hstep <;> cases hstep
      · rename_i hi
        refine ⟨[.ctrl], ?_, rfl⟩
        simp [Exec.run_cons, scripted, unfusedState, step, ctrlStep, hc, hi, Ctrl.unfused, Ctrl.owed,
          State.setCtrl]
      · -- the unlock, the return, the second call and its first test
        rename_i hi
        refine ⟨[.ctrl, .ret .wakeupWorkers, .call .waitForWorkersIdle, .ctrl], ?_, rfl⟩
        simp only [Releaser.next]
        split <;> rename_i hlt
        · simp [Exec.run_cons, scripted, unfusedState, step, ctrlStep, hc, hi, Ctrl.unfused, Ctrl.owed,
            State.setCtrl, Releaser.next, Call.enter, hlt, Nat.ne_of_lt hlt]
        · simp [Exec.run_cons, scripted, unfusedState, step, ctrlStep, hc, hi, Ctrl.unfused, Ctrl.owed,
            State.setCtrl, Releaser.next, Call.enter, hlt, Waiter.next]
    | _ => simp [hc, Ctrl.fused] at hf
  · simp only [Bool.not_eq_true] at hf
    exact ⟨[.ctrl], unfused_same (by simp) hf (ctrlStep_not_fused hf hstep) hstep, rfl⟩

/-- Every step of a fused controller is one to four steps of the two-call form. -/
theorem unfused_step {x y : State × List Call} {l : Label} (hstep : scripted x l = some y) :
    ∃ tr, Exec.run scripted (unfusedState x) tr = some (unfusedState y) ∧
      tr.filterMap workerStepOf = (workerStepOf l).toList := by
  obtain ⟨s, script⟩ := x
  cases l with
  | call c =>
    obtain ⟨script, t, rfl, ht, rfl⟩ := scripted_call hstep
    obtain ⟨hc, rfl⟩ := call_idle ht
    by_cases hw : c = .wakeupAndWait
    · subst hw
      refine ⟨[.call .wakeupWorkers], ?_, rfl⟩
      simp [Exec.run_cons, scripted, unfusedState, unfuse, step, hc, Ctrl.unfused, Ctrl.owed,
        State.setCtrl, Call.enter]
    · refine ⟨[.call c], ?_, rfl⟩
      have hnot : (c.enter s.cores).fused = false := by
        cases c with
        | addWorker a =>
          simp only [Call.enter]
          split <;> rfl
        | wakeupAndWait => exact absurd rfl hw
        | _ => rfl
      have hunfuse : unfuse (c :: script) = c :: unfuse script := by
        cases c <;> first | rfl | exact absurd rfl hw
      obtain ⟨h₁, h₂⟩ := unfused_of_not_fused hnot
      obtain ⟨h₃, h₄⟩ := unfused_of_not_fused (c := s.ctrl) (by rw [hc]; rfl)
      have hctrl : (s.setCtrl (c.enter s.cores)).ctrl = c.enter s.cores := rfl
      simp [Exec.run_cons, scripted, unfusedState, hunfuse, ht, hctrl, h₁, h₂, h₃, h₄]
  | ret r =>
    obtain ⟨t, ht, rfl⟩ := scripted_step (by simp) hstep
    obtain ⟨hc, rfl⟩ := ret_returning ht
    cases r with
    | wakeupAndWait =>
      refine ⟨[.ret .waitForWorkersIdle], ?_, rfl⟩
      simp [Exec.run_cons, scripted, unfusedState, step, hc, Ctrl.unfused, Ctrl.owed, State.setCtrl]
    | _ => exact ⟨_, unfused_same (by simp) (by rw [hc]; rfl) rfl ht, rfl⟩
  | release =>
    obtain ⟨t, ht, rfl⟩ := scripted_step (by simp) hstep
    obtain ⟨k, hc, rfl⟩ := release_releasing ht
    cases k with
    | wakeupAndWait =>
      refine ⟨[.release], ?_, rfl⟩
      simp [Exec.run_cons, scripted, unfusedState, step, hc, Ctrl.unfused, Ctrl.owed, State.setCtrl]
    | _ => exact ⟨_, unfused_same (by simp) (by rw [hc]; rfl) rfl ht, rfl⟩
  | ctrl =>
    obtain ⟨t, ht, rfl⟩ := scripted_step (by simp) hstep
    exact unfused_ctrl ht
  | spurious =>
    obtain ⟨t, ht, rfl⟩ := scripted_step (by simp) hstep
    obtain ⟨k, hc, rfl⟩ := spurious_asleep ht
    cases k with
    | wakeupAndWait =>
      refine ⟨[.spurious], ?_, rfl⟩
      simp [Exec.run_cons, scripted, unfusedState, step, hc, Ctrl.unfused, Ctrl.owed, State.setCtrl]
    | _ => exact ⟨_, unfused_same (by simp) (by rw [hc]; rfl) rfl ht, rfl⟩
  | worker i a =>
    obtain ⟨t, ht, rfl⟩ := scripted_step (by simp) hstep
    obtain ⟨hc, -⟩ := worker_after ht
    obtain ⟨h₁, h₂⟩ := unfused_after t a s.ctrl
    have hw := worker_setCtrl (unfused_holdsMutex s.ctrl) ht
    refine ⟨[.worker i a], ?_, rfl⟩
    simp [Exec.run_cons, scripted, unfusedState, hw, hc, h₁, h₂]

/-! ## From the two calls back to the fused form -/

/-- Where the fused call is before the two-call form has begun to wait: it may have been
signalled already. -/
def Sleeping (b : Barrier) (c : Ctrl) : Prop :=
  (b.noThreadsCurrentlyOnBarrier < b.noThreads ∧ c = .asleep .wakeupAndWait) ∨
    (b.noThreads ≤ b.noThreadsCurrentlyOnBarrier ∧
      (c = .woken .wakeupAndWait ∨ c = .returning .wakeupAndWait))

/-- A program point of the two-call form, the calls it still owes to its round, and a
program point of the fused form. -/
inductive Fused (b : Barrier) : Ctrl → List Call → Ctrl → Prop where
  | same (c : Ctrl) : Fused b c [] c
  | releasing : Fused b (.releasing .wakeupWorkers) [.waitForWorkersIdle] (.releasing .wakeupAndWait)
  | posting (sem : Fin 2) (i : Nat) : Fused b (.posting .wakeupWorkers sem i) [.waitForWorkersIdle]
      (.posting .wakeupAndWait sem i)
  | returned {c : Ctrl} (h : Sleeping b c) :
      Fused b (.returning .wakeupWorkers) [.waitForWorkersIdle] c
  | between {c : Ctrl} (h : Sleeping b c) : Fused b .idle [.waitForWorkersIdle] c
  | testing {c : Ctrl} (h : Sleeping b c) : Fused b (.waitForAll .waitForWorkersIdle) [] c
  | asleep : Fused b (.asleep .waitForWorkersIdle) [] (.asleep .wakeupAndWait)
  | woken : Fused b (.woken .waitForWorkersIdle) [] (.woken .wakeupAndWait)
  | returning : Fused b (.returning .waitForWorkersIdle) [] (.returning .wakeupAndWait)

inductive Fuses : State × List Call → State × List Call → Prop where
  | intro {s : State} {owed : List Call} {c : Ctrl} (script : List Call)
      (h : Fused s.barrier s.ctrl owed c) : Fuses (s, owed ++ unfuse script) (s.setCtrl c, script)

theorem Sleeping.holdsMutex {b : Barrier} {c : Ctrl} (h : Sleeping b c) : c.holdsMutex = false := by
  rcases h with ⟨-, rfl⟩ | ⟨-, rfl | rfl⟩ <;> rfl

theorem Fused.holdsMutex {b : Barrier} {c c' : Ctrl} {owed : List Call} (h : Fused b c owed c') :
    c'.holdsMutex = c.holdsMutex := by
  cases h with
  | returned h | between h | testing h => rw [h.holdsMutex]; rfl
  | _ => rfl

/-- A registration that fills the barrier wakes the fused call, and is no news to the other. -/
theorem Sleeping.after {s t : State} {a : WorkerAct} {c : Ctrl} (h : Sleeping s.barrier c)
    (hn : t.barrier.noThreads = s.barrier.noThreads)
    (hle : s.barrier.noThreadsCurrentlyOnBarrier ≤ t.barrier.noThreadsCurrentlyOnBarrier)
    (ha : a ≠ .register →
      t.barrier.noThreadsCurrentlyOnBarrier = s.barrier.noThreadsCurrentlyOnBarrier) :
    Sleeping t.barrier (c.after t a) := by
  rcases h with ⟨hlt, rfl⟩ | ⟨hge, hc⟩
  · simp only [Ctrl.after]
    split
    · rename_i hfull
      exact .inr ⟨hfull.2, .inl rfl⟩
    · rename_i hfull
      refine .inl ⟨?_, rfl⟩
      by_cases hreg : a = .register
      · exact Nat.lt_of_not_le fun hge => hfull ⟨hreg, hge⟩
      · rw [hn, ha hreg]
        exact hlt
  · refine .inr ⟨by omega, ?_⟩
    simp only [Ctrl.after]
    rcases hc with rfl | rfl <;> split <;> simp [Ctrl.signalled]

theorem after_of_signalled {t : State} {a : WorkerAct} (c : Ctrl) (h : c.signalled = c) :
    c.after t a = c := by
  simp [Ctrl.after, h]

theorem Fused.after {s t : State} {a : WorkerAct} {c c' : Ctrl} {owed : List Call}
    (h : Fused s.barrier c owed c') (hn : t.barrier.noThreads = s.barrier.noThreads)
    (hle : s.barrier.noThreadsCurrentlyOnBarrier ≤ t.barrier.noThreadsCurrentlyOnBarrier)
    (ha : a ≠ .register →
      t.barrier.noThreadsCurrentlyOnBarrier = s.barrier.noThreadsCurrentlyOnBarrier) :
    Fused t.barrier (c.after t a) owed (c'.after t a) := by
  cases h with
  | same => exact .same _
  | asleep =>
    simp only [Ctrl.after]
    split
    · exact .woken
    · exact .asleep
  | returned h =>
    rw [after_of_signalled (.returning .wakeupWorkers) rfl]
    exact .returned (h.after hn hle ha)
  | between h =>
    rw [after_of_signalled .idle rfl]
    exact .between (h.after hn hle ha)
  | testing h =>
    rw [after_of_signalled (.waitForAll .waitForWorkersIdle) rfl]
    exact .testing (h.after hn hle ha)
  | releasing =>
    rw [after_of_signalled (.releasing _) rfl, after_of_signalled (.releasing _) rfl]
    exact .releasing
  | posting sem i =>
    rw [after_of_signalled (.posting _ _ _) rfl, after_of_signalled (.posting _ _ _) rfl]
    exact .posting sem i
  | woken =>
    rw [after_of_signalled (.woken _) rfl, after_of_signalled (.woken _) rfl]
    exact .woken
  | returning =>
    rw [after_of_signalled (.returning _) rfl, after_of_signalled (.returning _) rfl]
    exact .returning

/-- A step of the two-call form as one step of the fused form. -/
theorem fuses_one {s t : State} {owed : List Call} {c d : Ctrl} {l : Label} (script : List Call)
    (hl : ∀ c, l ≠ .call c) (hstep : step (s.setCtrl c) l = some (t.setCtrl d))
    (h : Fused t.barrier t.ctrl owed d) :
    ∃ tr y, Exec.run scripted (s.setCtrl c, script) tr = some y ∧
      tr.filterMap workerStepOf = (workerStepOf l).toList ∧ Fuses (t, owed ++ unfuse script) y := by
  refine ⟨[l], (t.setCtrl d, script), ?_, ?_, .intro script h⟩
  · cases l with
    | call c => exact absurd rfl (hl c)
    | _ => simp [Exec.run_cons, scripted, hstep]
  · cases l <;> rfl

/-- A step of the two-call form that the fused form has made already. -/
theorem fuses_none {s t : State} {owed : List Call} {c : Ctrl} {l : Label} (script : List Call)
    (hl : workerStepOf l = none) (hstay : s.setCtrl c = t.setCtrl c)
    (h : Fused t.barrier t.ctrl owed c) :
    ∃ tr y, Exec.run scripted (s.setCtrl c, script) tr = some y ∧
      tr.filterMap workerStepOf = (workerStepOf l).toList ∧ Fuses (t, owed ++ unfuse script) y := by
  refine ⟨[], (t.setCtrl c, script), by rw [hstay]; rfl, ?_, .intro script h⟩
  rw [hl]
  rfl

theorem fuses_ctrl {s t : State} {owed : List Call} {c : Ctrl} {script : List Call}
    (h : Fused s.barrier s.ctrl owed c) (hstep : ctrlStep s = some t) :
    ∃ tr y, Exec.run scripted (s.setCtrl c, script) tr = some y ∧
      tr.filterMap workerStepOf = [] ∧ Fuses (t, owed ++ unfuse script) y := by
  generalize hc : s.ctrl = c₀ at h
  cases h with
  | same =>
    subst hc
    exact fuses_one (l := .ctrl) script (by simp) hstep (.same _)
  | releasing | returned | between | asleep | returning => simp [ctrlStep, hc] at hstep
  | posting sem i =>
    simp only [ctrlStep, hc] at hstep
    split at hstep <;> cases hstep
    · rename_i hi
      refine fuses_one (l := .ctrl) (d := .posting .wakeupAndWait sem (i + 1)) script (by simp) ?_
        (.posting sem (i + 1))
      simp [step, ctrlStep, State.setCtrl, hi]
    · rename_i hi
      refine fuses_one (l := .ctrl) (d := Releaser.wakeupAndWait.next s.barrier) script (by simp) ?_
        (.returned ?_)
      · simp [step, ctrlStep, State.setCtrl, hi]
      · simp only [Releaser.next]
        split <;> rename_i hlt
        · exact .inl ⟨hlt, rfl⟩
        · exact .inr ⟨Nat.le_of_not_lt hlt, .inr rfl⟩
  | testing hsleep =>
    -- the fused form has tested the count when it was last told about it
    have hdone : s.barrier.noThreads ≤ s.barrier.noThreadsCurrentlyOnBarrier →
        t = s.setCtrl (.returning .waitForWorkersIdle) →
        ∃ tr y, Exec.run scripted (s.setCtrl c, script) tr = some y ∧
          tr.filterMap workerStepOf = [] ∧ Fuses (t, [] ++ unfuse script) y := by
      rintro hge rfl
      rcases hsleep with ⟨hlt, -⟩ | ⟨-, rfl | rfl⟩
      · omega
      · refine fuses_one (l := .ctrl) (d := .returning .wakeupAndWait) script (by simp) ?_ .returning
        simp [step, ctrlStep, State.setCtrl, Nat.not_lt.mpr hge, Waiter.next]
      · exact fuses_none (l := .ctrl) script rfl rfl .returning
    simp only [ctrlStep, hc] at hstep
    split at hstep
    · rename_i heq
      cases hstep
      exact hdone (Nat.le_of_eq heq.symm) rfl
    · split at hstep <;> cases hstep <;> rename_i hlt
      · rcases hsleep with ⟨-, rfl⟩ | ⟨hge, -⟩
        · exact fuses_none (l := .ctrl) script rfl rfl .asleep
        · omega
      · exact hdone (Nat.le_of_not_lt hlt) rfl
  | woken =>
    simp only [ctrlStep, hc] at hstep
    split at hstep <;> cases hstep
    · rename_i hlt
      refine fuses_one (l := .ctrl) (d := .asleep .wakeupAndWait) script (by simp) ?_ .asleep
      simp [step, ctrlStep, State.setCtrl, hlt]
    · rename_i hlt
      refine fuses_one (l := .ctrl) (d := .returning .wakeupAndWait) script (by simp) ?_ .returning
      simp [step, ctrlStep, State.setCtrl, hlt, Waiter.next]

theorem unfuse_eq_cons {script rest : List Call} {c : Call} (h : unfuse script = c :: rest) :
    (c ≠ .wakeupAndWait ∧ ∃ script', script = c :: script' ∧ rest = unfuse script') ∨
      (c = .wakeupWorkers ∧ ∃ script', script = .wakeupAndWait :: script' ∧
        rest = .waitForWorkersIdle :: unfuse script') := by
  cases script with
  | nil => cases h
  | cons c' script =>
    cases c' <;> simp only [unfuse, List.cons.injEq] at h <;> obtain ⟨rfl, rfl⟩ := h
    case wakeupAndWait => exact .inr ⟨rfl, script, rfl, rfl⟩
    all_goals exact .inl ⟨by simp, script, rfl, rfl⟩

/-- Every step of the two-call form is at most one step of the fused one. -/
theorem fused_step {x y x' : State × List Call} {l : Label} (hR : Fuses x x')
    (hstep : scripted x l = some y) :
    ∃ tr y', Exec.run scripted x' tr = some y' ∧
      tr.filterMap workerStepOf = (workerStepOf l).toList ∧ Fuses y y' := by
  obtain @⟨s, owed, c, script, h⟩ := hR
  cases l with
  | call call =>
    obtain ⟨rest, t, hrest, ht, rfl⟩ := scripted_call hstep
    obtain ⟨hc, rfl⟩ := call_idle ht
    generalize hc₀ : s.ctrl = c₀ at h
    rw [hc] at hc₀
    subst hc₀
    cases h with
    | same =>
      rcases unfuse_eq_cons hrest with ⟨hne, script', rfl, rfl⟩ | ⟨rfl, script', rfl, rfl⟩
      · refine ⟨[.call call], (s.setCtrl (call.enter s.cores), script'), ?_, rfl,
          .intro script' (.same _)⟩
        simp [Exec.run_cons, scripted, step, State.setCtrl]
      · refine ⟨[.call .wakeupAndWait], (s.setCtrl (.releasing .wakeupAndWait), script'), ?_, rfl,
          Fuses.intro (s := s.setCtrl (.releasing .wakeupWorkers)) script' .releasing⟩
        simp [Exec.run_cons, scripted, step, State.setCtrl, Call.enter]
    | between hsleep =>
      obtain ⟨rfl, rfl⟩ := List.cons.inj hrest
      exact fuses_none (l := .call _) script rfl rfl (.testing hsleep)
  | ret r =>
    obtain ⟨t, ht, rfl⟩ := scripted_step (by simp) hstep
    obtain ⟨hc, rfl⟩ := ret_returning ht
    generalize hc₀ : s.ctrl = c₀ at h
    rw [hc] at hc₀
    subst hc₀
    cases h with
    | same =>
      exact fuses_one (l := .ret r) (d := .idle) script (by simp) (by simp [step, State.setCtrl])
        (.same _)
    | returned hsleep => exact fuses_none (l := .ret _) script rfl rfl (.between hsleep)
    | returning =>
      refine ⟨[.ret .wakeupAndWait], (s.setCtrl .idle, script), ?_, rfl, .intro script (.same _)⟩
      simp [Exec.run_cons, scripted, step, State.setCtrl]
  | release =>
    obtain ⟨t, ht, rfl⟩ := scripted_step (by simp) hstep
    obtain ⟨k, hc, rfl⟩ := release_releasing ht
    generalize hc₀ : s.ctrl = c₀ at h
    rw [hc] at hc₀
    subst hc₀
    cases h with
    | same =>
      exact fuses_one (l := .release) (d := .posting k s.barrier.activeSemIdx 0) script (by simp)
        (by simp [step, State.setCtrl]) (.same _)
    | releasing =>
      exact fuses_one (l := .release) (d := .posting .wakeupAndWait s.barrier.activeSemIdx 0) script
        (by simp) (by simp [step, State.setCtrl]) (.posting _ _)
  | ctrl =>
    obtain ⟨t, ht, rfl⟩ := scripted_step (by simp) hstep
    exact fuses_ctrl h ht
  | spurious =>
    obtain ⟨t, ht, rfl⟩ := scripted_step (by simp) hstep
    obtain ⟨k, hc, rfl⟩ := spurious_asleep ht
    generalize hc₀ : s.ctrl = c₀ at h
    rw [hc] at hc₀
    subst hc₀
    cases h with
    | same =>
      exact fuses_one (l := .spurious) (d := .woken k) script (by simp) (by simp [step, State.setCtrl])
        (.same _)
    | asleep =>
      exact fuses_one (l := .spurious) (d := .woken .wakeupAndWait) script (by simp)
        (by simp [step, State.setCtrl]) .woken
  | worker i a =>
    obtain ⟨t, ht, rfl⟩ := scripted_step (by simp) hstep
    obtain ⟨hc, hn, hle, ha⟩ := worker_after ht
    refine fuses_one script (by simp) (worker_setCtrl h.holdsMutex ht) ?_
    rw [hc]
    exact h.after hn hle ha

/-! ## Scripts with the same rounds -/

section Scripts

variable {s t : State} {script : List Call} {steps : List (Nat × WorkerAct)}

theorem canRun_unfuse (hs : s.ctrl = .idle) (ht : t.ctrl = .idle) (h : CanRun s script steps t) :
    CanRun s (unfuse script) steps t := by
  obtain ⟨tr, hrun, hsteps⟩ := h
  obtain ⟨tr', y, hrun', hsteps', rfl⟩ := Exec.run_simulates workerStepOf workerStepOf
    (R := fun x y => y = unfusedState x)
    (fun x _ l y hx hstep => by
      obtain ⟨tr, hrun, hobs⟩ := unfused_step hstep
      exact ⟨tr, _, hx ▸ hrun, hobs, rfl⟩) rfl hrun
  have hidle : ∀ u : State, u.ctrl = .idle → ∀ cs, unfusedState (u, cs) = (u, unfuse cs) := by
    intro u hu cs
    obtain ⟨h₁, h₂⟩ := unfused_of_not_fused (c := u.ctrl) (by rw [hu]; rfl)
    simp [unfusedState, h₁, h₂]
  rw [hidle s hs, hidle t ht] at hrun'
  exact ⟨tr', hrun', hsteps'.trans hsteps⟩

theorem canRun_of_unfuse (ht : t.ctrl = .idle) (h : CanRun s (unfuse script) steps t) :
    CanRun s script steps t := by
  obtain ⟨tr, hrun, hsteps⟩ := h
  obtain ⟨tr', y, hrun', hsteps', hR⟩ := Exec.run_simulates workerStepOf workerStepOf
    (R := Fuses) (fun x x' l y hx hstep => fused_step hx hstep)
    (Fuses.intro (s := s) script (.same _)) hrun
  refine ⟨tr', ?_, hsteps'.trans hsteps⟩
  generalize hx : (t, ([] : List Call)) = x at hR
  obtain @⟨u, owed, c, rest, h⟩ := hR
  obtain ⟨rfl, hnil⟩ := Prod.mk.inj hx
  rw [ht] at h
  cases h with
  | same =>
    have hrest : rest = [] := by
      cases rest with
      | nil => rfl
      | cons c cs => cases c <;> simp [unfuse] at hnil
    subst hrest
    have hself : t.setCtrl .idle = t := by rw [← ht]; rfl
    simpa [hself, unfuse] using hrun'
  | between => cases hnil

theorem canRun_congr {script' : List Call} (h : unfuse script = unfuse script')
    (hs : s.ctrl = .idle) (ht : t.ctrl = .idle) (hrun : CanRun s script steps t) :
    CanRun s script' steps t :=
  canRun_of_unfuse ht (h ▸ canRun_unfuse hs ht hrun)

/-- Between two states without a call in progress, `wakeup_and_wait` allows the workers the same
steps as `wakeup_workers` and `wait_for_workers_idle`; and so do any two scripts that differ
only in how their rounds are called. -/
theorem fused_agrees (hs : s.ctrl = .idle) (ht : t.ctrl = .idle) :
    (CanRun s [.wakeupAndWait] steps t ↔
      CanRun s [.wakeupWorkers, .waitForWorkersIdle] steps t) ∧
    ∀ script script', unfuse script = unfuse script' →
      (CanRun s script steps t ↔ CanRun s script' steps t) :=
  ⟨⟨canRun_congr rfl hs ht, canRun_congr rfl hs ht⟩,
    fun _ _ h => ⟨canRun_congr h hs ht, canRun_congr h.symm hs ht⟩⟩

end Scripts

/-- One worker, registered. -/
def oneRegistered : State :=
  (run (init (CoreTable.buildCoreList 0 1)) (addWorkerRun ⟨0, 75, none, 0, 0, .ok⟩ 0)).getD (init [])

def fusedRun : List Label :=
  [.call .wakeupAndWait, .release, .ctrl, .ctrl] ++ callbackRun 0 ++ [.ctrl, .ret .wakeupAndWait]

theorem fused_agrees_one :
    CanRun oneRegistered [.wakeupWorkers, .waitForWorkersIdle] (fusedRun.filterMap workerStepOf)
      ((run oneRegistered fusedRun).getD oneRegistered) :=
  (fused_agrees rfl rfl).1.mp ⟨fusedRun, rfl, rfl⟩

end Twine.Pool
