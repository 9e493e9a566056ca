import Twine.CoreTable

/-!
# Where a new worker goes, and what starting it returns

The sequential parts of `add_worker`: the choice of a core, `WorkerThread::run`
with the results of its system calls as arguments, and the translation of its
error code.
-/
namespace Twine.Placement

open CoreTable

inductive WorkerPoolStatus where
  | ok | poolError | permissionDenied | limitExceeded | invalidArguments
  deriving DecidableEq, Repr

inductive AppleThreadingStatus where
  | ok | wgCancelled | wgFailed | wgSizeFailed | fetchNameSizeFailed | fetchNameFailed | pdFailed
  | pdSizeFailed | macos11NotDetected | invalidDeviceNamePassed | realtimeOk | realtimeFailed
  | noWorkgroupPassed | workgroupAlreadyCancelled | workgroupJoiningUnknownFailure | empty
  deriving DecidableEq, Repr

def EPERM : Int := 1
def EAGAIN : Int := 11
def EINVAL : Int := 22

def errnoToWorkerStatus (error : Int) : WorkerPoolStatus :=
  if error = 0 then .ok
  else if error = EAGAIN then .limitExceeded
  else if error = EPERM then .permissionDenied
  else if error = EINVAL then .invalidArguments
  else .poolError

@[simp] theorem errnoToWorkerStatus_ok (error : Int) :
    errnoToWorkerStatus error = .ok ↔ error = 0 := by
  fun_cases errnoToWorkerStatus error with
  | case1 hzero => exact iff_of_true rfl hzero
  | case2 hzero | case3 hzero | case4 hzero | case5 hzero => exact iff_of_false (by simp) hzero

/-- `WorkerThread::run`; `affinity` and `create` are the results of
`pthread_attr_setaffinity_np` and `thread_create`. -/
def workerThreadRun (schedPriority affinity create : Int) : Int :=
  if schedPriority < 0 ∨ schedPriority > 100 then EINVAL
  else
    let res := affinity
    if res = 0 then create else res

theorem workerThreadRun_eq_zero (schedPriority affinity create : Int) :
    workerThreadRun schedPriority affinity create = 0 ↔
      (0 ≤ schedPriority ∧ schedPriority ≤ 100) ∧ affinity = 0 ∧ create = 0 := by
  simp only [workerThreadRun, EINVAL]
  split
  · simp only [show ((22 : Int) = 0) = False by simp, false_iff]
    omega
  · split <;> omega

/-- The scan of `std::min_element` on the worker counts: `smallest` is the position
of the first least count `least` among the entries before position `i`. -/
def minElementFrom : List CpuInfo → Nat → Nat → Int → Nat
  | [], _, smallest, _ => smallest
  | c :: rest, i, smallest, least =>
    if c.workers < least then minElementFrom rest (i + 1) i c.workers
    else minElementFrom rest (i + 1) smallest least

/-- A position in the table; its length is the end iterator. -/
def minElement : List CpuInfo → Nat
  | [] => 0
  | c :: rest => minElementFrom rest 1 0 c.workers

/-- The `core_info` of `add_worker`, `none` when the requested cpu is not in the table. -/
def coreInfo (cores : List CpuInfo) (cpuId : Option Int) : Option Nat :=
  match cpuId with
  | some id =>
    let core := cores.findIdx fun i => i.id = id
    if core = cores.length then none else some core
  | none => some (minElement cores)

theorem minElementFrom_lt {cores : List CpuInfo} {i smallest n : Nat} {least : Int}
    (hs : smallest < n) (hn : i + cores.length ≤ n) : minElementFrom cores i smallest least < n := by
  induction cores generalizing i smallest least with
  | nil => exact hs
  | cons c rest ih =>
    simp only [List.length_cons] at hn
    simp only [minElementFrom]
    split
    · exact ih (by omega) (by omega)
    · exact ih hs (by omega)

/-- In a table with a core, `core_info` never is the end iterator. -/
theorem coreInfo_lt {cores : List CpuInfo} {cpuId : Option Int} {core : Nat}
    (h : coreInfo cores cpuId = some core) (hne : cores ≠ []) : core < cores.length := by
  cases cpuId with
  | some id =>
    simp only [coreInfo] at h
    split at h <;> cases h
    have : cores.findIdx (fun i => decide (i.id = id)) ≤ cores.length := List.findIdx_le_length
    omega
  | none =>
    cases h
    cases cores with
    | nil => exact absurd rfl hne
    | cons c rest =>
      exact minElementFrom_lt (by simp) (by simp only [List.length_cons]; omega)

def CpuInfo.incWorkers (c : CpuInfo) : CpuInfo := { c with workers := c.workers + 1 }
def CpuInfo.decWorkers (c : CpuInfo) : CpuInfo := { c with workers := c.workers - 1 }

@[simp] theorem incWorkers_id (c : CpuInfo) : (CpuInfo.incWorkers c).id = c.id := rfl
@[simp] theorem incWorkers_workers (c : CpuInfo) :
    (CpuInfo.incWorkers c).workers = c.workers + 1 := rfl
@[simp] theorem decWorkers_incWorkers (c : CpuInfo) :
    CpuInfo.decWorkers (CpuInfo.incWorkers c) = c := by
  simp [CpuInfo.decWorkers, CpuInfo.incWorkers]

theorem modify_dec_inc (cores : List CpuInfo) (core : Nat) :
    (cores.modify core CpuInfo.incWorkers).modify core CpuInfo.decWorkers = cores := by
  rw [List.modify_modify_eq]
  convert List.modify_id core cores using 2
  funext c
  exact decWorkers_incWorkers c

end Twine.Placement
