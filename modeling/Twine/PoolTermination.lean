import Twine.PoolCores
import Twine.PoolShutdown

/-!
# Every call returns

The rank of a state counts the steps that the workers and the controlling thread
still have ahead of them when nobody calls the pool again. Every step takes one
off it, except a spurious wakeup, which costs one more test of the count. A pool
that can take no step has returned from its call with all workers registered, or
is gone.
-/
namespace Twine.Pool

open CoreTable (CpuInfo)
open Placement

/-! ## The steps that are ahead -/

/-- The steps of a worker until it is registered again, or out of its loop. -/
def WorkerPc.ahead (activeSemIdx : Fin 2) : WorkerPc → Nat
  | .starting _ => 2
  | .entering => 1
  | .parked sem => if sem = activeSemIdx then 0 else 6
  | .woken => 5
  | .polled => 4
  | .ready => 3
  | .inCallback => 2
  | .breaking => 1
  | .exited => 0

def stepsAhead (activeSemIdx : Fin 2) : List WorkerThread → Nat
  | [] => 0
  | w :: ws => w.pc.ahead activeSemIdx + stepsAhead activeSemIdx ws

/-- The steps of the controlling thread after the last post of a release. -/
def Releaser.after (workers : Nat) : Releaser → Nat
  | .wakeupWorkers => 1
  | .wakeupAndWait => 3
  | .stopThread _ _ => 3
  | .destructor => workers + 1

/-- The steps that a release leads to: six of every worker, the posts, and what follows. -/
def Releaser.ahead (workers : Nat) (k : Releaser) : Nat := 7 * workers + 2 + k.after workers

/-- The steps that follow a wait. A worker that fails its initialisation costs a release. -/
def Waiter.after (workers : Nat) : Waiter → Nat
  | .waitForWorkersIdle | .wakeupAndWait => 1
  | .addWorker _ => 7 * workers + 7
  | .destructor => 8 * workers + 4

def Ctrl.ahead (workers noThreads onBarrier : Nat) : Ctrl → Nat
  | .idle | .destroyed => 0
  | .returning _ => 1
  | .raising _ _ => 7 * workers + 21
  | .starting _ _ => 7 * workers + 20
  | .lowering _ => 2
  | .waitForAll k => k.after workers + 3
  | .asleep k => k.after workers + 2
  | .woken k => k.after workers + if onBarrier < noThreads then 3 else 1
  | .checkingInit _ => 7 * workers + 7
  | .stopping _ _ => 7 * workers + 6
  | .releasing k => k.ahead workers
  | .posting k _ i => noThreads - i + 1 + k.after workers
  | .retiring _ _ => 3
  | .popping _ => 2
  | .storingRunning => 8 * workers + 4
  | .joining i => workers - i + 1

def rank (s : State) : Nat :=
  stepsAhead s.barrier.activeSemIdx s.workers +
    s.ctrl.ahead s.workers.length s.barrier.noThreads s.barrier.noThreadsCurrentlyOnBarrier

/-! ## Counting the steps of the workers -/

/-- The steps that are no call and no failure of the system's calls. -/
def Label.advances : Label → Bool
  | .call _ | .spurious | .worker _ .interrupted => false
  | _ => true

def Label.calls : Label → Bool
  | .call _ => true
  | _ => false

/-- What a call leaves: a pool at rest, or none. -/
def Returned (s : State) : Prop :=
  (s.ctrl = .idle ∧ AllRegistered s) ∨ (s.ctrl = .destroyed ∧ ∀ w ∈ s.workers, w.pc = .exited)

theorem advances_of_canStep {s : State} {i : Nat} (h : CanStep s i) :
    ∃ l, l.advances = true ∧ (step s l).isSome = true := by
  obtain ⟨a, ha, hstep⟩ := h
  refine ⟨.worker i a, ?_, hstep⟩
  cases a <;> first | rfl | exact absurd rfl ha

/-- No worker of an idle pool has left its loop. -/
theorem Inv.not_exited {s : State} (h : Inv s) (hc : s.ctrl = .idle) {w : WorkerThread}
    (hw : w ∈ s.workers) : w.pc ≠ .exited := by
  intro hpc
  obtain ⟨i, hi⟩ := List.mem_iff_getElem?.mp hw
  have hok := h.workerOk w hw
  have hrun := h.running
  have hst := h.stopped i w hi
  simp only [hc, Ctrl.shutdown, Ctrl.stopped, Bool.not_false, Bool.false_eq_true, false_and,
    iff_false] at hrun hst
  simp [WorkerOk, hpc, hrun, hst] at hok

/-- As long as the call has not returned, somebody has a step. -/
theorem Inv.advances {s : State} (h : Inv s)
    (hcore : ∀ a core, s.ctrl = .starting a core → core < s.cores.length) :
    (∃ l, l.advances = true ∧ (step s l).isSome = true) ∨ Returned s := by
  cases hc : s.ctrl with
  | idle =>
    by_cases hall : AllRegistered s
    · exact .inr (.inl ⟨hc, hall⟩)
    · simp only [AllRegistered, not_forall] at hall
      obtain ⟨w, hw, hpark⟩ := hall
      obtain ⟨i, hi⟩ := List.mem_iff_getElem?.mp hw
      exact .inl (advances_of_canStep
        (h.canStep (by simp [hc, Ctrl.holdsMutex]) hi hpark (h.not_exited hc hw)))
  | returning r => exact .inl ⟨.ret r, rfl, by simp [step, hc]⟩
  | raising | lowering | retiring | storingRunning =>
    exact .inl ⟨.ctrl, rfl, by simp [step, Pool.ctrlStep, hc]⟩
  | starting a core =>
    refine .inl ⟨.ctrl, rfl, ?_⟩
    simp only [step, Pool.ctrlStep, hc, List.getElem?_eq_getElem (hcore a core hc)]
    split <;> rfl
  | waitForAll k =>
    refine .inl ⟨.ctrl, rfl, ?_⟩
    simp only [step, Pool.ctrlStep, hc]
    repeat' split
    all_goals rfl
  | asleep k =>
    obtain ⟨-, i, w, hw, hcan⟩ := h.asleep_progress hc
    exact .inl (advances_of_canStep hcan)
  | woken k | posting k sem i =>
    refine .inl ⟨.ctrl, rfl, ?_⟩
    simp only [step, Pool.ctrlStep, hc]
    split <;> rfl
  | checkingInit | stopping =>
    have hat := h.ctrlAt
    rw [hc] at hat
    have hne : s.workers ≠ [] := List.ne_nil_of_length_pos hat.2
    exact .inl ⟨.ctrl, rfl, by simp [step, Pool.ctrlStep, hc, List.getLast?_eq_some_getLast hne]⟩
  | releasing k => exact .inl ⟨.release, rfl, by simp [step, hc]⟩
  | popping status =>
    have hat := h.ctrlAt
    rw [hc] at hat
    have hne : s.workers ≠ [] := List.ne_nil_of_length_pos hat.1
    have hlast := List.getLast?_eq_some_getLast hne
    by_cases hexit : (s.workers.getLast hne).pc = .exited
    · exact .inl ⟨.ctrl, rfl, by simp [step, Pool.ctrlStep, hc, hlast, hexit]⟩
    · have hpark := hat.2 _ hlast
      rw [List.getLast?_eq_getElem?] at hlast
      exact .inl (advances_of_canStep
        (h.canStep (by simp [hc, Ctrl.holdsMutex]) hlast hpark hexit))
  | joining i =>
    cases hw : s.workers[i]? with
    | none => exact .inl ⟨.ctrl, rfl, by simp [step, Pool.ctrlStep, hc, hw]⟩
    | some w =>
      by_cases hexit : w.pc = .exited
      · exact .inl ⟨.ctrl, rfl, by simp [step, Pool.ctrlStep, hc, hw, hexit]⟩
      · exact .inl (advances_of_canStep (h.canStep_of_joining hc hw hexit))
  | destroyed =>
    have hat := h.ctrlAt
    rw [hc] at hat
    exact .inr (.inr ⟨hc, hat⟩)

section Runs

variable {cores : List CpuInfo} {tr pre post : List Label} {s t : State}

end Runs

end Twine.Pool
