import Twine.PoolRuns

/-!
# Nobody is stuck

A worker that is neither registered nor gone has an enabled step whenever the
mutex is free, because the semaphore that it may be parked on holds its token.
A sleeping controller is short of a registration, so some worker is on its way.
-/
namespace Twine.Pool

open Placement

/-- The worker can go on without an error from `semaphore_wait`. -/
def CanStep (s : State) (i : Nat) : Prop :=
  ∃ a, a ≠ .interrupted ∧ (step s (.worker i a)).isSome = true

/-- The worker is in a `semaphore_wait` that blocks. -/
def Blocked (s : State) (w : WorkerThread) : Prop :=
  ∃ sem, w.pc = .parked sem ∧ s.barrier.semaphores sem = 0

/-- With the mutex free, every token of the last release has been posted. -/
theorem Inv.token_left {s : State} (h : Inv s) (hm : s.ctrl.holdsMutex = false)
    {w : WorkerThread} (hw : w ∈ s.workers) (hpc : w.pc = .parked (1 - s.barrier.activeSemIdx)) :
    0 < s.barrier.semaphores (1 - s.barrier.activeSemIdx) := by
  have htokens := h.tokens
  have hpos := parkedOn_pos hw hpc
  rw [unposted_of_free hm] at htokens
  omega

theorem Inv.canStep {s : State} (h : Inv s) (hm : s.ctrl.holdsMutex = false) {i : Nat}
    {w : WorkerThread} (hw : s.workers[i]? = some w)
    (hpark : w.pc ≠ .parked s.barrier.activeSemIdx) (hexit : w.pc ≠ .exited) : CanStep s i := by
  cases hpc : w.pc with
  | starting init => exact ⟨.init, by simp, by simp [step, hw, workerStep, WorkerThread.localStep, hpc]⟩
  | entering => exact ⟨.register, by simp, by simp [step, hw, workerStep, hpc, hm]⟩
  | parked sem =>
    obtain rfl : sem = 1 - s.barrier.activeSemIdx := eq_other_of_ne fun he => hpark (he ▸ hpc)
    have htoken := h.token_left hm (List.mem_of_getElem? hw) hpc
    exact ⟨.take, by simp, by simp [step, hw, workerStep, hpc, Nat.ne_of_gt htoken]⟩
  | woken =>
    exact ⟨.loadPoolRunning, by simp, by simp [step, hw, workerStep, WorkerThread.localStep, hpc]⟩
  | polled =>
    exact ⟨.loadThreadRunning, by simp, by simp [step, hw, workerStep, WorkerThread.localStep, hpc]⟩
  | ready =>
    exact ⟨.callbackStart, by simp, by simp [step, hw, workerStep, WorkerThread.localStep, hpc]⟩
  | inCallback =>
    exact ⟨.callbackEnd, by simp, by simp [step, hw, workerStep, WorkerThread.localStep, hpc]⟩
  | breaking => exact ⟨.leave, by simp, by simp [step, hw, workerStep, WorkerThread.localStep, hpc]⟩
  | exited => exact absurd hpc hexit

/-- A blocked worker goes on only when its `semaphore_wait` returns an error. -/
theorem Blocked.no_step {s : State} {i : Nat} {w : WorkerThread} (h : Blocked s w)
    (hw : s.workers[i]? = some w) {a : WorkerAct} (ha : a ≠ .interrupted) :
    step s (.worker i a) = none := by
  obtain ⟨sem, hpc, hsem⟩ := h
  cases a with
  | interrupted => exact absurd rfl ha
  | _ => simp [step, hw, workerStep, WorkerThread.localStep, hpc, hsem]

/-- A worker that can go on is not blocked. -/
theorem CanStep.not_blocked {s : State} {i : Nat} {w : WorkerThread} (h : CanStep s i)
    (hw : s.workers[i]? = some w) : ¬ Blocked s w := by
  intro hblocked
  obtain ⟨a, ha, hstep⟩ := h
  simp [hblocked.no_step hw ha] at hstep

/-- While the controller sleeps, a worker is missing on the barrier, and it can go on. -/
theorem Inv.asleep_progress {s : State} (h : Inv s) {k : Waiter} (hc : s.ctrl = .asleep k) :
    s.barrier.noThreadsCurrentlyOnBarrier < s.barrier.noThreads ∧
      ∃ i w, s.workers[i]? = some w ∧ CanStep s i := by
  have hat := h.ctrlAt
  have hsize := h.size
  simp only [hc, Ctrl.At, Ctrl.popped, Ctrl.raised, Nat.add_zero] at hat hsize
  have hmissing : ∃ w ∈ s.workers, w.pc ≠ .parked s.barrier.activeSemIdx := by
    by_contra hall
    push Not at hall
    have hcount := h.registered
    rw [parkedOn_of_all hall] at hcount
    omega
  obtain ⟨w, hw, hpark⟩ := hmissing
  obtain ⟨i, hi⟩ := List.mem_iff_getElem?.mp hw
  have hexit : w.pc ≠ .exited := by
    intro hpc
    have hok := h.workerOk w hw
    have hrun := h.running
    have hst := h.stopped i w hi
    simp only [WorkerOk, hpc, hc, Ctrl.shutdown, Ctrl.stopped, Bool.not_false, false_and,
      Bool.false_eq_true, iff_false] at hok hrun hst
    simp [hrun, hst] at hok
  exact ⟨hat.1, i, w, hi, h.canStep (by simp [hc, Ctrl.holdsMutex]) hi hpark hexit⟩

/-- A controller that wakes the workers only when they are all registered, and no
`semaphore_wait` that returns an error. -/
def WakesRegistered (_ : List Label) (s : State) (l : Label) : Prop :=
  l.interrupts = false ∧ (l.wakes = true → AllRegistered s)

instance (tr : List Label) (s : State) (l : Label) : Decidable (WakesRegistered tr s l) := by
  unfold WakesRegistered
  infer_instance

theorem wakesRegistered_inv {cores : List CoreTable.CpuInfo} {tr : List Label} {s : State}
    (h : Exec.Guarded step WakesRegistered (init cores) tr s) : Inv s :=
  h.invariant (I := fun _ s => Inv s) (init_inv cores)
    fun _ _ _ _ hinv hg hstep => step_inv hinv hg.1 hg.2 hstep

/-- No lost wakeup: when the controller sleeps with no wakeup pending, the barrier is not
full, some worker has an enabled step, and so not all of them are blocked on a semaphore. -/
theorem no_lost_wakeup {cores : List CoreTable.CpuInfo} {tr : List Label} {s : State} {k : Waiter}
    (h : Exec.Guarded step WakesRegistered (init cores) tr s) (hc : s.ctrl = .asleep k) :
    s.barrier.noThreadsCurrentlyOnBarrier < s.barrier.noThreads ∧
      (∃ i < s.workers.length, CanStep s i) ∧ ¬ ∀ w ∈ s.workers, Blocked s w := by
  obtain ⟨hlt, i, w, hw, hcan⟩ := (wakesRegistered_inv h).asleep_progress hc
  refine ⟨hlt, ⟨i, (List.getElem?_eq_some_iff.mp hw).1, hcan⟩, fun hall => ?_⟩
  exact hcan.not_blocked hw (hall w (List.mem_of_getElem? hw))

/-- The controller sleeps in `wakeup_and_wait` while the second worker is in its callback. -/
theorem no_lost_wakeup_two : ∃ s, run (init (CoreTable.buildCoreList 0 2))
    (addWorkerRun ⟨0, 75, none, 0, 0, .ok⟩ 0 ++ addWorkerRun ⟨0, 75, none, 0, 0, .ok⟩ 1 ++
      [.call .wakeupAndWait, .release, .ctrl, .ctrl, .ctrl] ++ callbackRun 0 ++
      (callbackRun 1).take 4) = some s ∧
    s.ctrl = .asleep .wakeupAndWait ∧
    (∃ i < s.workers.length, CanStep s i) ∧ ¬ ∀ w ∈ s.workers, Blocked s w := by
  obtain ⟨s, hs⟩ := Exec.guarded_of_isSome step WakesRegistered
    (init (CoreTable.buildCoreList 0 2))
    (addWorkerRun ⟨0, 75, none, 0, 0, .ok⟩ 0 ++ addWorkerRun ⟨0, 75, none, 0, 0, .ok⟩ 1 ++
      [.call .wakeupAndWait, .release, .ctrl, .ctrl, .ctrl] ++ callbackRun 0 ++
      (callbackRun 1).take 4) (by decide)
  have hc : s.ctrl = .asleep .wakeupAndWait := by
    obtain rfl := Option.some.inj hs.run
    rfl
  exact ⟨s, hs.run, hc, (no_lost_wakeup hs hc).2⟩

end Twine.Pool
