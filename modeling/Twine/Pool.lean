import Twine.Exec
import Twine.Placement

/-!
# A worker pool as a transition system

One controlling thread calls the members of `WorkerPoolImpl`; every worker thread
runs `_internal_worker_function`. The atomic steps are the critical sections of
`BarrierWithTrigger`, the single semaphore operations, the loads and stores of the
atomic flags, and the two ends of a callback. A label says which thread takes
its next step; everything else is determined by the program points.

The controller is the only thread that keeps the mutex over several steps (while
it posts the tokens of a release), so `Ctrl.holdsMutex` is the state of the mutex.
-/
namespace Twine.Pool

open CoreTable (CpuInfo)
open Placement

/-! ## BarrierWithTrigger -/

structure Barrier where
  semaphores : Fin 2 → Nat
  activeSemIdx : Fin 2
  noThreadsCurrentlyOnBarrier : Nat
  noThreads : Nat

def Barrier.new : Barrier := ⟨fun _ => 0, 0, 0, 0⟩

/-- The critical section of `wait`, up to the signal. -/
def Barrier.enter (b : Barrier) : Barrier :=
  { b with noThreadsCurrentlyOnBarrier := b.noThreadsCurrentlyOnBarrier + 1 }

def Barrier.setNoThreads (b : Barrier) (threads : Nat) : Barrier := { b with noThreads := threads }

/-- What `release_all` and `release_and_wait` do before they post: the count is
reset and the semaphores are swapped. The assertion is a theorem, not a guard. -/
def Barrier.release (b : Barrier) : Barrier :=
  { b with noThreadsCurrentlyOnBarrier := 0, activeSemIdx := 1 - b.activeSemIdx }

/-- `_swap_semaphores` by itself. -/
def Barrier.swapSemaphores (b : Barrier) : Barrier := { b with activeSemIdx := 1 - b.activeSemIdx }

def Barrier.signal (b : Barrier) (sem : Fin 2) : Barrier :=
  { b with semaphores := Function.update b.semaphores sem (b.semaphores sem + 1) }

/-- A `semaphore_wait` that takes a token. -/
def Barrier.take (b : Barrier) (sem : Fin 2) : Barrier :=
  { b with semaphores := Function.update b.semaphores sem (b.semaphores sem - 1) }

/-! ## WorkerThread -/

/-- Program points of `_internal_worker_function`. -/
inductive WorkerPc where
  /-- Created, and about to end its initialisation with this status. -/
  | starting (init : AppleThreadingStatus)
  /-- At the call of `_barrier.wait()`. -/
  | entering
  /-- Out of the critical section of `wait`, in `semaphore_wait(active_sem)`. -/
  | parked (activeSem : Fin 2)
  /-- Out of `wait`, before the load of `_pool_running`. -/
  | woken
  /-- Before the load of `_thread_running`. -/
  | polled
  /-- At the call of the callback. -/
  | ready
  | inCallback
  /-- At the `break`. -/
  | breaking
  | exited
  deriving DecidableEq, Repr

structure WorkerThread where
  pc : WorkerPc
  /-- The callback and its data. -/
  callback : Nat
  cpuId : Int
  status : AppleThreadingStatus
  threadRunning : Bool
  deriving DecidableEq, Repr

inductive WorkerAct where
  | init | register | take | interrupted | loadPoolRunning | loadThreadRunning
  | callbackStart | callbackEnd | leave
  deriving DecidableEq, Repr

/-- The steps of a worker that touch nothing but its own fields. -/
def WorkerThread.localStep (running : Bool) (w : WorkerThread) : WorkerAct → Option WorkerThread
  | .init =>
    match w.pc with
    | .starting status => some { w with pc := .entering, status := status }
    | _ => none
  | .loadPoolRunning =>
    if w.pc = .woken then some { w with pc := if running then .polled else .breaking } else none
  | .loadThreadRunning =>
    if w.pc = .polled then some { w with pc := if w.threadRunning then .ready else .breaking }
    else none
  | .callbackStart => if w.pc = .ready then some { w with pc := .inCallback } else none
  | .callbackEnd => if w.pc = .inCallback then some { w with pc := .entering } else none
  | .leave => if w.pc = .breaking then some { w with pc := .exited } else none
  | .register | .take | .interrupted => none

/-! ## The controlling thread -/

/-- The arguments of `add_worker`, and what the system answers on the way: the results
of setting the affinity and of `thread_create`, and the status that the new worker's
initialisation ends with. -/
structure AddWorker where
  callback : Nat
  schedPriority : Int
  cpuId : Option Int
  affinity : Int
  create : Int
  init : AppleThreadingStatus
  deriving DecidableEq, Repr

inductive Call where
  | addWorker (a : AddWorker)
  | wakeupWorkers
  | waitForWorkersIdle
  | wakeupAndWait
  | destroy
  deriving DecidableEq, Repr

inductive Ret where
  | addWorker (status : WorkerPoolStatus × AppleThreadingStatus)
  | wakeupWorkers
  | waitForWorkersIdle
  | wakeupAndWait
  deriving DecidableEq, Repr

/-- Who waits in `wait_for_all`, or in the loop that ends `release_and_wait`. A core is
a position in the core table. -/
inductive Waiter where
  | waitForWorkersIdle
  | addWorker (core : Nat)
  | wakeupAndWait
  | destructor
  deriving DecidableEq, Repr

inductive Releaser where
  | wakeupWorkers
  | wakeupAndWait
  | stopThread (core : Nat) (status : AppleThreadingStatus)
  | destructor
  deriving DecidableEq, Repr

/-- Program points of the controlling thread. -/
inductive Ctrl where
  | idle
  | returning (r : Ret)
  /-- `add_worker` before `set_no_threads(_no_workers + 1)`. -/
  | raising (a : AddWorker) (core : Nat)
  /-- `add_worker` before `core_info->workers++` and `worker->run`. -/
  | starting (a : AddWorker) (core : Nat)
  /-- `run` failed, before `set_no_threads(_no_workers)`. -/
  | lowering (status : WorkerPoolStatus)
  | waitForAll (k : Waiter)
  /-- In `condition_wait` with no wakeup pending. -/
  | asleep (k : Waiter)
  /-- In `condition_wait` with a wakeup pending, before the mutex is locked again. -/
  | woken (k : Waiter)
  | checkingInit (core : Nat)
  /-- `_stop_thread` before the store to `_thread_running`. -/
  | stopping (core : Nat) (status : AppleThreadingStatus)
  | releasing (k : Releaser)
  /-- In the posting loop, with the mutex locked. -/
  | posting (k : Releaser) (prevSem : Fin 2) (i : Nat)
  /-- After `_stop_thread`, before the counts are taken back. -/
  | retiring (core : Nat) (status : AppleThreadingStatus)
  /-- `_workers.pop_back()`, which joins the thread. -/
  | popping (status : AppleThreadingStatus)
  /-- The destructor before `_running.store(false)`. -/
  | storingRunning
  /-- The destruction of `_workers`, element by element, each joining its thread. -/
  | joining (i : Nat)
  /-- `_barrier` and the other members are gone. -/
  | destroyed
  deriving DecidableEq, Repr

def Ctrl.holdsMutex : Ctrl → Bool
  | .posting _ _ _ => true
  | _ => false

/-- The effect of `condition_signal` on the only thread that ever waits. -/
def Ctrl.signalled : Ctrl → Ctrl
  | .asleep k => .woken k
  | c => c

structure State where
  barrier : Barrier
  running : Bool
  noWorkers : Nat
  cores : List CpuInfo
  workers : List WorkerThread
  ctrl : Ctrl

/-- A constructed pool. -/
def init (cores : List CpuInfo) : State := ⟨.new, true, 0, cores, [], .idle⟩

inductive Label where
  | call (c : Call)
  | ret (r : Ret)
  /-- The first part of `release_all` or `release_and_wait`. -/
  | release
  /-- Any other step of the controller. -/
  | ctrl
  /-- A spurious wakeup from `condition_wait`. -/
  | spurious
  | worker (i : Nat) (a : WorkerAct)
  deriving DecidableEq, Repr

/-- The worker that `run` has started. Its `_status` is what its initialisation makes of it; the
status of the workgroup, which a CoreAudio build stores before that, is in `AppleThreading`. -/
def spawn (a : AddWorker) (cpuId : Int) : WorkerThread :=
  ⟨.starting a.init, a.callback, cpuId, .ok, true⟩

def State.setWorker (s : State) (i : Nat) (w : WorkerThread) : State :=
  { s with workers := s.workers.set i w }

def State.setCtrl (s : State) (c : Ctrl) : State := { s with ctrl := c }

/-- Where the controller goes on when nothing is left to wait for. -/
def Waiter.next : Waiter → Ctrl
  | .waitForWorkersIdle => .returning .waitForWorkersIdle
  | .addWorker core => .checkingInit core
  | .wakeupAndWait => .returning .wakeupAndWait
  | .destructor => .storingRunning

/-- Where the controller goes on after the last post. `release_and_wait` keeps the
mutex for its first test of the count. -/
def Releaser.next (b : Barrier) : Releaser → Ctrl
  | .wakeupWorkers => .returning .wakeupWorkers
  | .wakeupAndWait =>
    if b.noThreadsCurrentlyOnBarrier < b.noThreads then .asleep .wakeupAndWait
    else .returning .wakeupAndWait
  | .stopThread core status => .retiring core status
  | .destructor => .joining 0

def Call.enter (cores : List CpuInfo) : Call → Ctrl
  | .addWorker a =>
    match coreInfo cores a.cpuId with
    | none => .returning (.addWorker (.invalidArguments, .empty))
    | some core => .raising a core
  | .wakeupWorkers => .releasing .wakeupWorkers
  | .waitForWorkersIdle => .waitForAll .waitForWorkersIdle
  | .wakeupAndWait => .releasing .wakeupAndWait
  | .destroy => .waitForAll .destructor

def ctrlStep (s : State) : Option State :=
  match s.ctrl with
  | .raising a core =>
    some { s with barrier := s.barrier.setNoThreads (s.noWorkers + 1), ctrl := .starting a core }
  | .starting a core =>
    -- `core_info` is dereferenced here; the end iterator has no step
    match s.cores[core]? with
    | none => none
    | some info =>
      let cores := s.cores.modify core CpuInfo.incWorkers
      match errnoToWorkerStatus (workerThreadRun a.schedPriority a.affinity a.create) with
      | .ok =>
        some { s with
          cores := cores
          workers := s.workers ++ [spawn a info.id]
          noWorkers := s.noWorkers + 1
          ctrl := .waitForAll (.addWorker core) }
      | status => some { s with cores := cores, ctrl := .lowering status }
  | .lowering status =>
    some { s with
      barrier := s.barrier.setNoThreads s.noWorkers
      ctrl := .returning (.addWorker (status, .ok)) }
  | .waitForAll k =>
    if s.barrier.noThreadsCurrentlyOnBarrier = s.barrier.noThreads then some (s.setCtrl k.next)
    else if s.barrier.noThreadsCurrentlyOnBarrier < s.barrier.noThreads then
      some (s.setCtrl (.asleep k))
    else some (s.setCtrl k.next)
  | .woken k =>
    if s.barrier.noThreadsCurrentlyOnBarrier < s.barrier.noThreads then some (s.setCtrl (.asleep k))
    else some (s.setCtrl k.next)
  | .checkingInit core =>
    s.workers.getLast?.map fun w =>
      if w.status = .ok then s.setCtrl (.returning (.addWorker (.ok, .ok)))
      else s.setCtrl (.stopping core w.status)
  | .stopping core status =>
    s.workers.getLast?.map fun w =>
      (s.setWorker (s.workers.length - 1) { w with threadRunning := false }).setCtrl
        (.releasing (.stopThread core status))
  | .posting k prevSem i =>
    if i < s.barrier.noThreads then
      some { s with barrier := s.barrier.signal prevSem, ctrl := .posting k prevSem (i + 1) }
    else some (s.setCtrl (k.next s.barrier))
  | .retiring core status =>
    some { s with
      noWorkers := s.noWorkers - 1
      barrier := s.barrier.setNoThreads (s.noWorkers - 1)
      cores := s.cores.modify core CpuInfo.decWorkers
      ctrl := .popping status }
  | .popping status =>
    match s.workers.getLast? with
    | none => none
    | some w =>
      if w.pc = .exited then
        some { s with
          workers := s.workers.dropLast
          ctrl := .returning (.addWorker (.poolError, status)) }
      else none
  | .storingRunning => some { s with running := false, ctrl := .releasing .destructor }
  | .joining i =>
    match s.workers[i]? with
    | none => some (s.setCtrl .destroyed)
    | some w => if w.pc = .exited then some (s.setCtrl (.joining (i + 1))) else none
  | .idle | .returning _ | .asleep _ | .releasing _ | .destroyed => none

/-- The critical section of `wait`: the worker keeps the index it read, and signals
when it completes the count. -/
def State.register (s : State) (i : Nat) (w : WorkerThread) : State :=
  { s with
    barrier := s.barrier.enter
    workers := s.workers.set i { w with pc := .parked s.barrier.activeSemIdx }
    ctrl :=
      if s.barrier.noThreadsCurrentlyOnBarrier + 1 ≥ s.barrier.noThreads then s.ctrl.signalled
      else s.ctrl }

/-- `interrupted` is a `semaphore_wait` that returns an error and takes no token:
`wait` ignores the result. -/
def workerStep (s : State) (i : Nat) (w : WorkerThread) : WorkerAct → Option State
  | .register =>
    if w.pc = .entering ∧ s.ctrl.holdsMutex = false then some (s.register i w) else none
  | .take =>
    match w.pc with
    | .parked sem =>
      if s.barrier.semaphores sem = 0 then none
      else some { s.setWorker i { w with pc := .woken } with barrier := s.barrier.take sem }
    | _ => none
  | .interrupted =>
    match w.pc with
    | .parked _ => some (s.setWorker i { w with pc := .woken })
    | _ => none
  | a => (w.localStep s.running a).map (s.setWorker i)

def step (s : State) : Label → Option State
  | .call c => if s.ctrl = .idle then some (s.setCtrl (c.enter s.cores)) else none
  | .ret r => if s.ctrl = .returning r then some (s.setCtrl .idle) else none
  | .release =>
    match s.ctrl with
    | .releasing k =>
      some { s with barrier := s.barrier.release, ctrl := .posting k s.barrier.activeSemIdx 0 }
    | _ => none
  | .ctrl => ctrlStep s
  | .spurious =>
    match s.ctrl with
    | .asleep k => some (s.setCtrl (.woken k))
    | _ => none
  | .worker i a =>
    match s.workers[i]? with
    | none => none
    | some w => workerStep s i w a

abbrev run : State → List Label → Option State := Exec.run step

end Twine.Pool
