import Twine.PoolInvariant

/-!
# The controller keeps the invariant

`CtrlStep` lists what the controlling thread can do, with the guards that lead to
each step; properties of the pool are proved by cases on it. Here there is one
lemma for each step, and `Inv.ctrlStep` puts them together.
-/
namespace Twine.Pool

open Placement

/-- A step of the controller that moves nothing but its program point. -/
theorem Inv.setCtrl {s : State} (h : Inv s) {c : Ctrl} (hraised : c.raised = s.ctrl.raised)
    (hpopped : c.popped = s.ctrl.popped)
    (hunposted : c.unposted s.barrier.noThreads = s.ctrl.unposted s.barrier.noThreads)
    (hshutdown : c.shutdown = s.ctrl.shutdown) (hstopped : c.stopped = s.ctrl.stopped)
    (hat : c.At s) : Inv (s.setCtrl c) where
  size := by simpa [State.setCtrl, hraised, hpopped] using h.size
  noWorkers := by simpa [State.setCtrl, hpopped] using h.noWorkers
  registered := h.registered
  activeEmpty := h.activeEmpty
  tokens := by simpa [State.setCtrl, hunposted] using h.tokens
  running := by simpa [State.setCtrl, hshutdown] using h.running
  stopped := by simpa [State.setCtrl, hstopped] using h.stopped
  workerOk := h.workerOk
  ctrlAt := by cases c <;> exact hat

theorem Inv.count_le {s : State} (h : Inv s) :
    s.barrier.noThreadsCurrentlyOnBarrier ≤ s.workers.length := by
  rw [h.registered]
  exact parkedOn_le _ _

/-- Leaving a wait with a full barrier. -/
theorem Inv.waited {s : State} (h : Inv s) {k : Waiter}
    (hc : s.ctrl = .waitForAll k ∨ s.ctrl = .woken k)
    (hge : ¬ s.barrier.noThreadsCurrentlyOnBarrier < s.barrier.noThreads) :
    Inv (s.setCtrl k.next) := by
  have hsize := h.size
  have hle := h.count_le
  have hat := h.ctrlAt
  have hr : AtRest s := by
    rcases hc with hc | hc <;> simp only [hc, Ctrl.popped, Ctrl.raised] at hsize <;>
      simp only [AtRest] <;> omega
  have hpos : k.adds = true → 0 < s.workers.length := by
    rcases hc with hc | hc <;> rw [hc] at hat <;> exact hat
  rcases hc with hc | hc <;> apply h.setCtrl <;> cases k <;>
    simp_all [Waiter.next, Ctrl.raised, Ctrl.popped, Ctrl.unposted, Ctrl.shutdown, Ctrl.stopped,
      Ctrl.At, Waiter.adds]

theorem Inv.sleep {s : State} (h : Inv s) {k : Waiter}
    (hc : s.ctrl = .waitForAll k ∨ s.ctrl = .woken k)
    (hlt : s.barrier.noThreadsCurrentlyOnBarrier < s.barrier.noThreads) :
    Inv (s.setCtrl (.asleep k)) := by
  have hat := h.ctrlAt
  rcases hc with hc | hc <;> apply h.setCtrl <;>
    simp_all [Ctrl.raised, Ctrl.popped, Ctrl.unposted, Ctrl.shutdown, Ctrl.stopped, Ctrl.At]

theorem Inv.release {s : State} (h : Inv s) {k : Releaser} (hc : s.ctrl = .releasing k) :
    Inv { s with barrier := s.barrier.release, ctrl := .posting k s.barrier.activeSemIdx 0 } := by
  have hat := h.ctrlAt
  have hsize := h.size
  have hrun := h.running
  have hstop := h.stopped
  have htok := h.tokens
  simp only [hc, Ctrl.At, Ctrl.popped, Ctrl.raised, Ctrl.unposted, Nat.add_zero] at hat hsize htok
  have hall := h.all_parked hat.1 hsize
  have hreg := h.registered
  have hother : parkedOn s.workers (1 - s.barrier.activeSemIdx) = 0 :=
    parkedOn_eq_zero.mpr fun w hw => by simp [hall w hw]
  have hr : s.barrier.noThreadsCurrentlyOnBarrier = s.barrier.noThreads := hat.1
  constructor
  case size => simpa [Barrier.release, Ctrl.popped, Ctrl.raised] using hsize
  case noWorkers => simpa [hc, Ctrl.popped] using h.noWorkers
  case registered => simp [Barrier.release, hother]
  case activeEmpty =>
    simp only [Barrier.release]
    omega
  case tokens =>
    have := h.activeEmpty
    simp only [Barrier.release, other_other, Ctrl.unposted]
    omega
  case running => cases k <;> simpa [hc, Ctrl.shutdown] using hrun
  case stopped => cases k <;> simpa [hc, Ctrl.stopped] using hstop
  case workerOk => exact h.workerOk
  case ctrlAt =>
    refine ⟨by simp [Barrier.release], Nat.zero_le _, ?_⟩
    cases k with
    | stopThread core status =>
      refine ⟨hat.2 rfl, fun w hw => ?_⟩
      simp [Barrier.release, hall w (List.mem_of_getLast? hw)]
    | destructor => rfl
    | wakeupWorkers | wakeupAndWait => trivial

/-- One token posted. -/
theorem Inv.signal {s : State} (h : Inv s) {k : Releaser} {sem : Fin 2} {i : Nat}
    (hc : s.ctrl = .posting k sem i) (hi : i < s.barrier.noThreads) :
    Inv { s with barrier := s.barrier.signal sem, ctrl := .posting k sem (i + 1) } := by
  have hat := h.ctrlAt
  have hrun := h.running
  have hstop := h.stopped
  have htok := h.tokens
  have hsize := h.size
  simp only [hc, Ctrl.At, Ctrl.unposted, Ctrl.popped, Ctrl.raised, Nat.add_zero] at hat htok hsize
  obtain ⟨hsem, hle, hrel⟩ := hat
  obtain rfl := eq_other_of_ne hsem
  constructor
  case size => simpa [Barrier.signal, Ctrl.popped, Ctrl.raised] using hsize
  case noWorkers => simpa [hc, Ctrl.popped] using h.noWorkers
  case registered => exact h.registered
  case activeEmpty =>
    simpa [Barrier.signal, Function.update_of_ne (ne_other _)] using h.activeEmpty
  case tokens =>
    simp only [Barrier.signal, Function.update_self, Ctrl.unposted]
    omega
  case running => cases k <;> simpa [hc, Ctrl.shutdown] using hrun
  case stopped => cases k <;> simpa [hc, Ctrl.stopped] using hstop
  case workerOk => exact h.workerOk
  case ctrlAt =>
    refine ⟨hsem, hi, ?_⟩
    cases k <;> exact hrel

/-- The unlock, or in `release_and_wait` the first test, after the last token. -/
theorem Inv.posted {s : State} (h : Inv s) {k : Releaser} {sem : Fin 2} {i : Nat}
    (hc : s.ctrl = .posting k sem i) (hi : ¬ i < s.barrier.noThreads) :
    Inv (s.setCtrl (k.next s.barrier)) := by
  have hat := h.ctrlAt
  have hsize := h.size
  have hle := h.count_le
  simp only [hc, Ctrl.At, Ctrl.popped, Ctrl.raised, Nat.add_zero] at hat hsize
  obtain ⟨-, -, hrel⟩ := hat
  have hzero : s.barrier.noThreads - i = 0 := by omega
  cases k with
  | wakeupAndWait =>
    by_cases hlt : s.barrier.noThreadsCurrentlyOnBarrier < s.barrier.noThreads
    · apply h.setCtrl <;>
        simp [Releaser.next, hlt, hc, hzero, Ctrl.raised, Ctrl.popped, Ctrl.unposted, Ctrl.shutdown,
          Ctrl.stopped, Ctrl.At, Waiter.adds]
    · have hr : AtRest s := by
        simp only [AtRest]
        omega
      apply h.setCtrl <;>
        simp [Releaser.next, hlt, hc, hzero, Ctrl.raised, Ctrl.popped, Ctrl.unposted, Ctrl.shutdown,
          Ctrl.stopped, Ctrl.At, hr]
  | wakeupWorkers | stopThread | destructor =>
    apply h.setCtrl <;>
      simp_all [Releaser.next, Ctrl.raised, Ctrl.popped, Ctrl.unposted, Ctrl.shutdown,
        Ctrl.stopped, Ctrl.At, Ret.waits, Releaser.Released]

theorem Inv.raise {s : State} (h : Inv s) {a : AddWorker} {core : Nat}
    (hc : s.ctrl = .raising a core) :
    Inv { s with
      barrier := s.barrier.setNoThreads (s.noWorkers + 1)
      ctrl := .starting a core } := by
  have hn := h.noWorkers
  have hrun := h.running
  have hstop := h.stopped
  have htok := h.tokens
  simp only [hc, Ctrl.popped, Ctrl.shutdown, Ctrl.stopped, Ctrl.unposted] at hn hrun hstop htok
  constructor
  case size =>
    simp only [Barrier.setNoThreads, Ctrl.popped, Ctrl.raised]
    omega
  case noWorkers => simpa [Ctrl.popped] using hn
  case registered => exact h.registered
  case activeEmpty => exact h.activeEmpty
  case tokens => simpa [Barrier.setNoThreads, Ctrl.unposted] using htok
  case running => simpa [Ctrl.shutdown] using hrun
  case stopped => simpa [Ctrl.stopped] using hstop
  case workerOk => exact h.workerOk
  case ctrlAt => trivial

/-- `run` failed: only the core table has changed. -/
theorem Inv.runFailed {s : State} (h : Inv s) {a : AddWorker} {core : Nat}
    (hc : s.ctrl = .starting a core) (cores : List CoreTable.CpuInfo) {status : WorkerPoolStatus}
    (hs : status ≠ .ok) : Inv { s with cores := cores, ctrl := .lowering status } := by
  have hn := h.noWorkers
  have hsize := h.size
  have hrun := h.running
  have hstop := h.stopped
  have htok := h.tokens
  simp only [hc, Ctrl.popped, Ctrl.raised, Ctrl.shutdown, Ctrl.stopped, Ctrl.unposted]
    at hn hsize hrun hstop htok
  exact ⟨hsize, hn, h.registered, h.activeEmpty, htok, hrun, hstop, h.workerOk, hs⟩

theorem Inv.lower {s : State} (h : Inv s) {status : WorkerPoolStatus}
    (hc : s.ctrl = .lowering status) :
    Inv { s with
      barrier := s.barrier.setNoThreads s.noWorkers
      ctrl := .returning (.addWorker (status, .ok)) } := by
  have hat := h.ctrlAt
  have hn := h.noWorkers
  have hrun := h.running
  have hstop := h.stopped
  have htok := h.tokens
  simp only [hc, Ctrl.At, Ctrl.popped, Ctrl.shutdown, Ctrl.stopped, Ctrl.unposted]
    at hat hn hrun hstop htok
  refine ⟨?_, hn, h.registered, h.activeEmpty, htok, hrun, hstop, h.workerOk, ?_⟩
  · simpa [Barrier.setNoThreads, Ctrl.popped, Ctrl.raised] using hn
  · cases status <;> simp_all [Ctrl.At, Ret.waits]

/-- `run` succeeded: one worker more, that has not reached the barrier. -/
theorem Inv.spawned {s : State} (h : Inv s) {a : AddWorker} {core : Nat}
    (hc : s.ctrl = .starting a core) (cores : List CoreTable.CpuInfo) (cpuId : Int) :
    Inv { s with
      cores := cores
      workers := s.workers ++ [spawn a cpuId]
      noWorkers := s.noWorkers + 1
      ctrl := .waitForAll (.addWorker core) } := by
  have hn := h.noWorkers
  have hsize := h.size
  have hrun := h.running
  have hstop := h.stopped
  have htok := h.tokens
  simp only [hc, Ctrl.popped, Ctrl.raised, Ctrl.shutdown, Ctrl.stopped, Ctrl.unposted]
    at hn hsize hrun hstop htok
  have hpark : ∀ q, parkedOn (s.workers ++ [spawn a cpuId]) q = parkedOn s.workers q := by
    intro q
    simp [parkedOn_append, spawn]
  constructor
  case size =>
    simp only [List.length_append, List.length_singleton, Ctrl.popped, Ctrl.raised]
    omega
  case noWorkers => simpa [Ctrl.popped] using hn
  case registered => simpa [hpark] using h.registered
  case activeEmpty => exact h.activeEmpty
  case tokens => simpa [hpark, Ctrl.unposted] using htok
  case running => simpa [Ctrl.shutdown] using hrun
  case stopped =>
    intro i w hw
    rw [List.getElem?_append] at hw
    split at hw
    · simpa [Ctrl.stopped] using hstop i w hw
    · rw [List.mem_singleton.mp (List.mem_of_getElem? hw)]
      simp [spawn, Ctrl.stopped]
  case workerOk =>
    intro w hw
    rcases List.mem_append.mp hw with hw | hw
    · exact h.workerOk w hw
    · rw [List.mem_singleton.mp hw]
      exact ⟨by simpa using hrun, rfl⟩
  case ctrlAt => simp [Ctrl.At]

/-- `_stop_thread` stores to the flag of the last worker. -/
theorem Inv.stop {s : State} (h : Inv s) {core : Nat} {status : AppleThreadingStatus}
    {w : WorkerThread} (hc : s.ctrl = .stopping core status) (hw : s.workers.getLast? = some w) :
    Inv ((s.setWorker (s.workers.length - 1) { w with threadRunning := false }).setCtrl
      (.releasing (.stopThread core status))) := by
  have hat := h.ctrlAt
  have hn := h.noWorkers
  have hsize := h.size
  have hrun := h.running
  have hstop := h.stopped
  have htok := h.tokens
  simp only [hc, Ctrl.At, Ctrl.popped, Ctrl.raised, Ctrl.shutdown, Ctrl.stopped, Ctrl.unposted]
    at hat hn hsize hrun hstop htok
  have hall := h.all_parked hat.1 hsize
  rw [List.getLast?_eq_getElem?] at hw
  have hpark : ∀ q, parkedOn (s.workers.set (s.workers.length - 1)
      { w with threadRunning := false }) q = parkedOn s.workers q := by
    intro q
    simpa using parkedOn_set { w with threadRunning := false } hw q
  constructor
  case size => simpa [State.setCtrl, State.setWorker, Ctrl.popped, Ctrl.raised] using hsize
  case noWorkers => simpa [State.setCtrl, State.setWorker, Ctrl.popped] using hn
  case registered => simpa [State.setCtrl, State.setWorker, hpark] using h.registered
  case activeEmpty => exact h.activeEmpty
  case tokens => simpa [State.setCtrl, State.setWorker, hpark, Ctrl.unposted] using htok
  case running => simpa [State.setCtrl, State.setWorker, Ctrl.shutdown] using hrun
  case stopped =>
    intro j v hv
    have hpos := hat.2
    simp only [State.setCtrl, State.setWorker, List.length_set, Ctrl.stopped, true_and] at hv ⊢
    rcases getElem?_set_cases hw hv with ⟨rfl, rfl⟩ | ⟨hj, hv⟩
    · simp
      omega
    · have ht := hstop j v hv
      simp only [Bool.false_eq_true, false_and, iff_false] at ht
      exact ⟨fun hf => absurd hf ht, fun hl => absurd (by omega) hj⟩
  case workerOk =>
    refine forall_set h.workerOk ?_
    simp [WorkerOk, hall w (List.mem_of_getElem? hw)]
  case ctrlAt =>
    exact ⟨hat.1, fun _ => by simpa [State.setCtrl, State.setWorker] using hat.2⟩

theorem Inv.retire {s : State} (h : Inv s) {core : Nat} {status : AppleThreadingStatus}
    (hc : s.ctrl = .retiring core status) (cores : List CoreTable.CpuInfo) :
    Inv { s with
      noWorkers := s.noWorkers - 1
      barrier := s.barrier.setNoThreads (s.noWorkers - 1)
      cores := cores
      ctrl := .popping status } := by
  have hat := h.ctrlAt
  have hn := h.noWorkers
  have hrun := h.running
  have hstop := h.stopped
  have htok := h.tokens
  simp only [hc, Ctrl.At, Ctrl.popped, Ctrl.shutdown, Ctrl.stopped, Ctrl.unposted, Nat.add_zero]
    at hat hn hrun hstop htok
  have hpos := hat.1
  constructor
  case size =>
    simp only [Barrier.setNoThreads, Ctrl.popped, Ctrl.raised]
    omega
  case noWorkers =>
    simp only [Ctrl.popped]
    omega
  case registered => exact h.registered
  case activeEmpty => exact h.activeEmpty
  case tokens => simpa [Barrier.setNoThreads, Ctrl.unposted] using htok
  case running => simpa [Ctrl.shutdown] using hrun
  case stopped => simpa [Ctrl.stopped] using hstop
  case workerOk => exact h.workerOk
  case ctrlAt => exact hat

theorem getElem?_dropLast_of_some {ws : List WorkerThread} {i : Nat} {w : WorkerThread}
    (h : ws.dropLast[i]? = some w) : ws[i]? = some w ∧ i + 1 < ws.length := by
  rw [List.getElem?_dropLast] at h
  split at h
  · exact ⟨h, by omega⟩
  · cases h

theorem Inv.pop {s : State} (h : Inv s) {status : AppleThreadingStatus} {w : WorkerThread}
    (hc : s.ctrl = .popping status) (hw : s.workers.getLast? = some w) (hpc : w.pc = .exited) :
    Inv { s with
      workers := s.workers.dropLast
      ctrl := .returning (.addWorker (.poolError, status)) } := by
  have hat := h.ctrlAt
  have hn := h.noWorkers
  have hsize := h.size
  have hrun := h.running
  have hstop := h.stopped
  have htok := h.tokens
  simp only [hc, Ctrl.At, Ctrl.popped, Ctrl.raised, Ctrl.shutdown, Ctrl.stopped, Ctrl.unposted,
    Nat.add_zero] at hat hn hsize hrun hstop htok
  have hpark : ∀ q, parkedOn s.workers.dropLast q = parkedOn s.workers q := fun q =>
    parkedOn_dropLast hw (by simp [hpc])
  constructor
  case size =>
    simp only [List.length_dropLast, Ctrl.popped, Ctrl.raised]
    omega
  case noWorkers =>
    simp only [List.length_dropLast, Ctrl.popped]
    omega
  case registered => simpa [hpark] using h.registered
  case activeEmpty => exact h.activeEmpty
  case tokens => simpa [hpark, Ctrl.unposted] using htok
  case running => simpa [Ctrl.shutdown] using hrun
  case stopped =>
    intro i v hv
    obtain ⟨hv, hi⟩ := getElem?_dropLast_of_some hv
    have ht := hstop i v hv
    simp only [Ctrl.stopped, Bool.false_eq_true, false_and, iff_false]
    exact fun hf => by
      have := (ht.mp hf).2
      omega
  case workerOk => exact fun v hv => h.workerOk v ((List.dropLast_sublist _).subset hv)
  case ctrlAt => simp [Ctrl.At, Ret.waits]

/-- The destructor stores to `_running`, with every worker on the barrier. -/
theorem Inv.storeRunning {s : State} (h : Inv s) (hc : s.ctrl = .storingRunning) :
    Inv { s with running := false, ctrl := .releasing .destructor } := by
  have hat := h.ctrlAt
  have hn := h.noWorkers
  have hsize := h.size
  have hstop := h.stopped
  have htok := h.tokens
  simp only [hc, Ctrl.At, Ctrl.popped, Ctrl.raised, Ctrl.stopped, Ctrl.unposted]
    at hat hn hsize hstop htok
  have hall := h.all_parked hat hsize
  refine ⟨hsize, hn, h.registered, h.activeEmpty, htok, rfl, hstop, fun w hw => ?_, hat, ?_⟩
  · simp [WorkerOk, hall w hw]
  · simp [Releaser.stops]

theorem Inv.join {s : State} (h : Inv s) {i : Nat} (hc : s.ctrl = .joining i) :
    (s.workers[i]? = none → Inv (s.setCtrl .destroyed)) ∧
      ∀ w, s.workers[i]? = some w → w.pc = .exited → Inv (s.setCtrl (.joining (i + 1))) := by
  have hat := h.ctrlAt
  simp only [hc, Ctrl.At] at hat
  constructor
  · intro hnone
    apply h.setCtrl <;> simp only [hc, Ctrl.raised, Ctrl.popped, Ctrl.unposted, Ctrl.shutdown,
      Ctrl.stopped, Ctrl.At]
    intro w hw
    obtain ⟨j, hj⟩ := List.mem_iff_getElem?.mp hw
    have hlen := List.getElem?_eq_none_iff.mp hnone
    have hjl := (List.getElem?_eq_some_iff.mp hj).1
    exact hat.2 j (by omega) w hj
  · intro w hw hpc
    apply h.setCtrl <;> simp only [hc, Ctrl.raised, Ctrl.popped, Ctrl.unposted, Ctrl.shutdown,
      Ctrl.stopped, Ctrl.At]
    refine ⟨hat.1, fun j hj v hv => ?_⟩
    rcases Nat.lt_succ_iff_lt_or_eq.mp hj with hj | rfl
    · exact hat.2 j hj v hv
    · obtain rfl : v = w := Option.some.inj (hv.symm.trans hw)
      exact hpc

/-- The steps of the controlling thread, each with the guards that lead to it. -/
inductive CtrlStep (s : State) : State → Prop where
  | raise {a : AddWorker} {core : Nat} (hc : s.ctrl = .raising a core) :
    CtrlStep s
      { s with barrier := s.barrier.setNoThreads (s.noWorkers + 1), ctrl := .starting a core }
  | spawn {a : AddWorker} {core : Nat} {info : CoreTable.CpuInfo} (hc : s.ctrl = .starting a core)
      (hinfo : s.cores[core]? = some info)
      (hrun : workerThreadRun a.schedPriority a.affinity a.create = 0) :
    CtrlStep s { s with
      cores := s.cores.modify core CpuInfo.incWorkers
      workers := s.workers ++ [spawn a info.id]
      noWorkers := s.noWorkers + 1
      ctrl := .waitForAll (.addWorker core) }
  | runFails {a : AddWorker} {core : Nat} {info : CoreTable.CpuInfo}
      (hc : s.ctrl = .starting a core) (hinfo : s.cores[core]? = some info)
      (hrun : workerThreadRun a.schedPriority a.affinity a.create ≠ 0) :
    CtrlStep s { s with
      cores := s.cores.modify core CpuInfo.incWorkers
      ctrl := .lowering
        (errnoToWorkerStatus (workerThreadRun a.schedPriority a.affinity a.create)) }
  | lower {status : WorkerPoolStatus} (hc : s.ctrl = .lowering status) :
    CtrlStep s { s with
      barrier := s.barrier.setNoThreads s.noWorkers
      ctrl := .returning (.addWorker (status, .ok)) }
  | sleep {k : Waiter} (hc : s.ctrl = .waitForAll k ∨ s.ctrl = .woken k)
      (hlt : s.barrier.noThreadsCurrentlyOnBarrier < s.barrier.noThreads) :
    CtrlStep s (s.setCtrl (.asleep k))
  | proceed {k : Waiter} (hc : s.ctrl = .waitForAll k ∨ s.ctrl = .woken k)
      (hge : ¬ s.barrier.noThreadsCurrentlyOnBarrier < s.barrier.noThreads) :
    CtrlStep s (s.setCtrl k.next)
  | accept {core : Nat} {w : WorkerThread} (hc : s.ctrl = .checkingInit core)
      (hw : s.workers.getLast? = some w) (hok : w.status = .ok) :
    CtrlStep s (s.setCtrl (.returning (.addWorker (.ok, .ok))))
  | refuse {core : Nat} {w : WorkerThread} (hc : s.ctrl = .checkingInit core)
      (hw : s.workers.getLast? = some w) (hne : w.status ≠ .ok) :
    CtrlStep s (s.setCtrl (.stopping core w.status))
  | stop {core : Nat} {status : AppleThreadingStatus} {w : WorkerThread}
      (hc : s.ctrl = .stopping core status) (hw : s.workers.getLast? = some w) :
    CtrlStep s ((s.setWorker (s.workers.length - 1) { w with threadRunning := false }).setCtrl
      (.releasing (.stopThread core status)))
  | post {k : Releaser} {prevSem : Fin 2} {i : Nat} (hc : s.ctrl = .posting k prevSem i)
      (hi : i < s.barrier.noThreads) :
    CtrlStep s { s with barrier := s.barrier.signal prevSem, ctrl := .posting k prevSem (i + 1) }
  | posted {k : Releaser} {prevSem : Fin 2} {i : Nat} (hc : s.ctrl = .posting k prevSem i)
      (hi : ¬ i < s.barrier.noThreads) :
    CtrlStep s (s.setCtrl (k.next s.barrier))
  | retire {core : Nat} {status : AppleThreadingStatus} (hc : s.ctrl = .retiring core status) :
    CtrlStep s { s with
      noWorkers := s.noWorkers - 1
      barrier := s.barrier.setNoThreads (s.noWorkers - 1)
      cores := s.cores.modify core CpuInfo.decWorkers
      ctrl := .popping status }
  | pop {status : AppleThreadingStatus} {w : WorkerThread} (hc : s.ctrl = .popping status)
      (hw : s.workers.getLast? = some w) (hexit : w.pc = .exited) :
    CtrlStep s { s with
      workers := s.workers.dropLast
      ctrl := .returning (.addWorker (.poolError, status)) }
  | storeRunning (hc : s.ctrl = .storingRunning) :
    CtrlStep s { s with running := false, ctrl := .releasing .destructor }
  | join {i : Nat} {w : WorkerThread} (hc : s.ctrl = .joining i) (hw : s.workers[i]? = some w)
      (hexit : w.pc = .exited) :
    CtrlStep s (s.setCtrl (.joining (i + 1)))
  | joined {i : Nat} (hc : s.ctrl = .joining i) (hnone : s.workers[i]? = none) :
    CtrlStep s (s.setCtrl .destroyed)

theorem ctrl_cases {s t : State} (h : ctrlStep s = some t) : CtrlStep s t := by
  cases hc : s.ctrl <;> simp only [ctrlStep, hc] at h
  case idle | returning | asleep | releasing | destroyed => cases h
  case raising a core =>
    cases h
    exact .raise hc
  case starting a core =>
    split at h
    · cases h
    · rename_i info hinfo
      split at h <;> cases h
      · rename_i hok
        exact .spawn hc hinfo ((errnoToWorkerStatus_ok _).mp hok)
      · rename_i hne
        exact .runFails hc hinfo (mt (errnoToWorkerStatus_ok _).mpr hne)
  case lowering status =>
    cases h
    exact .lower hc
  case waitForAll k =>
    split at h
    · rename_i heq
      cases h
      exact .proceed (.inl hc) (Nat.not_lt.mpr (Nat.le_of_eq heq.symm))
    · split at h <;> cases h <;> rename_i hlt
      · exact .sleep (.inl hc) hlt
      · exact .proceed (.inl hc) hlt
  case woken k =>
    split at h <;> cases h <;> rename_i hlt
    · exact .sleep (.inr hc) hlt
    · exact .proceed (.inr hc) hlt
  case checkingInit core =>
    obtain ⟨w, hw, rfl⟩ := Option.map_eq_some_iff.mp h
    split <;> rename_i hok
    · exact .accept hc hw hok
    · exact .refuse hc hw hok
  case stopping core status =>
    obtain ⟨w, hw, rfl⟩ := Option.map_eq_some_iff.mp h
    exact .stop hc hw
  case posting k prevSem i =>
    split at h <;> cases h <;> rename_i hi
    · exact .post hc hi
    · exact .posted hc hi
  case retiring core status =>
    cases h
    exact .retire hc
  case popping status =>
    split at h
    · cases h
    · rename_i w hw
      split at h <;> cases h
      exact .pop hc hw (by assumption)
  case storingRunning =>
    cases h
    exact .storeRunning hc
  case joining i =>
    split at h
    · rename_i hnone
      cases h
      exact .joined hc hnone
    · rename_i w hw
      split at h <;> cases h
      exact .join hc hw (by assumption)

theorem Inv.ctrlStep {s t : State} (h : Inv s) (hstep : ctrlStep s = some t) : Inv t := by
  cases ctrl_cases hstep with
  | raise hc => exact h.raise hc
  | spawn hc => exact h.spawned hc _ _
  | runFails hc _ hrun => exact h.runFailed hc _ (mt (errnoToWorkerStatus_ok _).mp hrun)
  | lower hc => exact h.lower hc
  | sleep hc hlt => exact h.sleep hc hlt
  | proceed hc hge => exact h.waited hc hge
  | accept hc | refuse hc =>
    have hat := h.ctrlAt
    simp only [hc, Ctrl.At] at hat
    apply h.setCtrl <;>
      simp_all [Ctrl.raised, Ctrl.popped, Ctrl.unposted, Ctrl.shutdown, Ctrl.stopped, Ctrl.At]
  | stop hc hw => exact h.stop hc hw
  | post hc hi => exact h.signal hc hi
  | posted hc hi => exact h.posted hc hi
  | retire hc => exact h.retire hc _
  | pop hc hw hexit => exact h.pop hc hw hexit
  | storeRunning hc => exact h.storeRunning hc
  | join hc hw hexit => exact (h.join hc).2 _ hw hexit
  | joined hc hnone => exact (h.join hc).1 hnone

end Twine.Pool
