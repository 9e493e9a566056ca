import Twine.AppleThreading
import Twine.PoolBooks

/-!
# What `add_worker` returns

`wait_for_all` makes `add_worker` wait for the initialisation of its new thread, so
that what it returns does not depend on the other threads: in every run with a
disciplined caller and no interrupted `semaphore_wait` it is what the calls of the
system and the new worker's initialisation answered.
-/
namespace Twine.Pool

open CoreTable (CpuInfo)
open Placement

/-- `add_worker` as one step. -/
def addWorkerReturns (cores : List CpuInfo) (a : AddWorker) :
    WorkerPoolStatus × AppleThreadingStatus :=
  if coreInfo cores a.cpuId = none then (.invalidArguments, .empty)
  else
    let res := errnoToWorkerStatus (workerThreadRun a.schedPriority a.affinity a.create)
    if res = .ok then
      if a.init ≠ .ok then (.poolError, a.init) else (res, .ok)
    else (res, .ok)

/-- The core is in the table, and the thread is created. -/
def Starts (cores : List CpuInfo) (a : AddWorker) : Prop :=
  coreInfo cores a.cpuId ≠ none ∧ workerThreadRun a.schedPriority a.affinity a.create = 0

theorem Starts.returns {cores : List CpuInfo} {a : AddWorker} (h : Starts cores a) :
    addWorkerReturns cores a = if a.init ≠ .ok then (.poolError, a.init) else (.ok, .ok) := by
  have hok := (errnoToWorkerStatus_ok _).mpr h.2
  simp [addWorkerReturns, h.1, hok]

/-- The worker will set this status, or has set it. -/
def WorkerThread.Carries (status : AppleThreadingStatus) (w : WorkerThread) : Prop :=
  w.pc = .starting status ∨ ((∀ init, w.pc ≠ .starting init) ∧ w.status = status)

theorem Carries.localStep {running : Bool} {w w' : WorkerThread} {x : WorkerAct}
    {status : AppleThreadingStatus} (h : w.Carries status) (hl : w.localStep running x = some w') :
    w'.Carries status := by
  cases localStep_local hl with
  | @init init hpc =>
    rcases h with hstart | ⟨hstart, -⟩
    · obtain rfl : init = status := by simpa [hpc] using hstart
      exact .inr ⟨by simp, rfl⟩
    · exact absurd hpc (hstart init)
  | loadPoolRunning hpc | loadThreadRunning hpc | callbackStart hpc | callbackEnd hpc | leave hpc =>
    rcases h with hstart | ⟨-, hstatus⟩
    · simp [hpc] at hstart
    · refine .inr ⟨fun init => ?_, hstatus⟩
      simp only
      repeat' split
      all_goals simp

def LastCarries (status : AppleThreadingStatus) (s : State) : Prop :=
  ∀ w, s.workers.getLast? = some w → w.Carries status

theorem worker_lastCarries {s t : State} {i : Nat} {x : WorkerAct} {status : AppleThreadingStatus}
    (h : LastCarries status s) (hstep : step s (.worker i x) = some t) : LastCarries status t := by
  refine worker_last (fun w sem hpc hp => ?_) (fun w sem hpc hp => ?_)
    (fun _ _ _ _ hp hl => Carries.localStep hp hl) h hstep
  all_goals
    rcases hp with hstart | ⟨-, hstatus⟩
    · simp [hpc] at hstart
    · exact .inr ⟨by simp, hstatus⟩

/-! ## The program points of `add_worker` -/

/-- What is settled about the status pair at each program point of the call `add_worker(a)`. -/
def Ctrl.Answers (cores : List CpuInfo) (a : AddWorker) (s : State) : Ctrl → Prop
  | .raising a' core | .starting a' core => a' = a ∧ coreInfo cores a.cpuId = some core
  | .lowering status => addWorkerReturns cores a = (status, .ok)
  | .waitForAll (.addWorker _) | .asleep (.addWorker _) | .woken (.addWorker _)
  | .checkingInit _ => Starts cores a ∧ LastCarries a.init s
  | .stopping _ status | .releasing (.stopThread _ status) | .posting (.stopThread _ status) _ _
  | .retiring _ status | .popping status => addWorkerReturns cores a = (.poolError, status)
  | .returning (.addWorker r) => addWorkerReturns cores a = r
  | _ => False

theorem Ctrl.Answers.signalled {cores : List CpuInfo} {a : AddWorker} {s : State} {c : Ctrl}
    (h : c.Answers cores a s) : c.signalled.Answers cores a s := by
  cases c with
  | asleep k => cases k <;> exact h
  | _ => exact h

theorem Ctrl.Answers.ctrlStep {cores : List CpuInfo} {a : AddWorker} {s t : State}
    (h : s.ctrl.Answers cores a s) (hinv : Inv s) (hstep : ctrlStep s = some t) :
    t.ctrl.Answers cores a t := by
  -- when the status is read, the new worker is registered, so it has set its status
  have hread : ∀ core w, s.ctrl = .checkingInit core → s.workers.getLast? = some w →
      Starts cores a ∧ w.status = a.init := by
    intro core w hc hw
    rw [hc] at h
    have hat := hinv.ctrlAt
    have hsize := hinv.size
    simp only [hc, Ctrl.At, Ctrl.popped, Ctrl.raised, Nat.add_zero] at hat hsize
    have hpc := hinv.all_parked hat.1 hsize w (List.mem_of_getLast? hw)
    rcases h.2 w hw with hstart | ⟨-, hstatus⟩
    · simp [hpc] at hstart
    · exact ⟨h.1, hstatus⟩
  cases ctrl_cases hstep with
  | @spawn a' core info hc hinfo hrun =>
    rw [hc] at h
    obtain ⟨rfl, hcore⟩ := h
    refine ⟨⟨by simp [hcore], hrun⟩, fun w hw => ?_⟩
    obtain rfl : Pool.spawn a' info.id = w := by simpa using hw
    exact .inl rfl
  | @runFails a' core info hc hinfo hrun =>
    rw [hc] at h
    obtain ⟨rfl, hcore⟩ := h
    have hknown : coreInfo cores a'.cpuId ≠ none := by simp [hcore]
    have hstatus := mt (errnoToWorkerStatus_ok _).mp hrun
    simp only [Ctrl.Answers, addWorkerReturns, if_neg hknown, if_neg hstatus]
  | @sleep k hc | @proceed k hc =>
    rcases hc with hc | hc <;> rw [hc] at h <;> cases k <;> exact h
  | accept hc hw hok =>
    obtain ⟨hstarts, hstatus⟩ := hread _ _ hc hw
    simp [State.setCtrl, Ctrl.Answers, hstarts.returns, ← hstatus, hok]
  | refuse hc hw hne =>
    obtain ⟨hstarts, hstatus⟩ := hread _ _ hc hw
    simp [State.setCtrl, Ctrl.Answers, hstarts.returns, ← hstatus, hne]
  | @post k _ _ hc =>
    rw [hc] at h
    cases k <;> exact h
  | @posted k _ _ hc =>
    rw [hc] at h
    cases k with
    | stopThread => exact h
    | _ => exact h.elim
  | raise hc | lower hc | stop hc | retire hc | pop hc =>
    rw [hc] at h
    exact h
  | storeRunning hc | join hc | joined hc =>
    rw [hc] at h
    exact h.elim

theorem Ctrl.Answers.step {cores : List CpuInfo} {a : AddWorker} {s t : State} {l : Label}
    (h : s.ctrl.Answers cores a s) (hinv : Inv s) (hl : ∀ r, l ≠ .ret r)
    (hstep : step s l = some t) : t.ctrl.Answers cores a t := by
  cases l with
  | call c =>
    rw [(call_idle hstep).1] at h
    exact h.elim
  | ret r => exact absurd rfl (hl r)
  | release =>
    obtain ⟨k, hc, rfl⟩ := release_releasing hstep
    rw [hc] at h
    cases k <;> exact h
  | ctrl => exact h.ctrlStep hinv hstep
  | spurious =>
    obtain ⟨k, hc, rfl⟩ := spurious_asleep hstep
    rw [hc] at h
    cases k <;> exact h
  | worker i x =>
    have hlast : LastCarries a.init s → LastCarries a.init t :=
      fun hp => worker_lastCarries hp hstep
    have hmono : ∀ c : Ctrl, c.Answers cores a s → c.Answers cores a t := by
      intro c hc
      cases c with
      | waitForAll k | asleep k | woken k =>
        cases k with
        | addWorker => exact ⟨hc.1, hlast hc.2⟩
        | _ => exact hc.elim
      | checkingInit => exact ⟨hc.1, hlast hc.2⟩
      | returning r => cases r <;> exact hc
      | releasing k | posting k => cases k <;> exact hc
      | _ => exact hc
    rcases (worker_books hstep).2 with hc | hc <;> rw [hc]
    · exact hmono _ h
    · exact hmono _ h.signalled

/-- The steps of the other threads do not change what `add_worker` returns. -/
theorem addWorker_returns {cores : List CpuInfo} {pre mid : List Label} {s t : State}
    {a : AddWorker} {r : Ret} (hpre : run (init cores) pre = some s) (hmid : ∀ q, .ret q ∉ mid)
    (h : Exec.Guarded step Uninterrupted (init cores)
      (pre ++ .call (.addWorker a) :: (mid ++ [.ret r])) t) :
    r = .addWorker (addWorkerReturns s.cores a) := by
  have hcut : pre ++ .call (.addWorker a) :: (mid ++ [.ret r]) =
      (pre ++ [.call (.addWorker a)]) ++ (mid ++ [.ret r]) := by simp
  rw [hcut] at h
  obtain ⟨u, hu, -⟩ := h.split
  obtain ⟨s', hs, -, hcall⟩ := hu.snoc
  obtain rfl : s = s' := Option.some.inj (hpre.symm.trans hs.run)
  rw [← List.append_assoc] at h
  obtain ⟨v, hv, -, hret⟩ := h.snoc
  have hanswers := Exec.Guarded.segment
    (J := fun mid v => (∀ q, .ret q ∉ mid) → v.ctrl.Answers s.cores a v) hu ?_ ?_ hv hmid
  · rw [(ret_returning hret).1] at hanswers
    cases r with
    | addWorker r => exact congrArg Ret.addWorker hanswers.symm
    | _ => exact hanswers.elim
  · intro _
    obtain ⟨-, rfl⟩ := call_idle hcall
    simp only [State.setCtrl, Call.enter]
    split
    · rename_i hcore
      simp [Ctrl.Answers, addWorkerReturns, hcore]
    · rename_i core hcore
      exact ⟨rfl, hcore⟩
  · intro mid v l w hv hJ hg hstep hno
    refine (hJ fun q hq => hno q (by simp [hq])).step (guarded_inv hv) ?_ hstep
    rintro q rfl
    exact hno q (by simp)

/-! ## CoreAudio workers -/

section CoreAudio

open AppleThreading

variable {deviceName : List Char} {l : DeviceList}

/-- What a worker needs to be accepted. -/
def SetUp (deviceName : List Char) (l : DeviceList) (realtime : Bool) (calls : JoinCalls) : Prop :=
  (getDeviceWorkgroup true deviceName l).2 = .ok ∧ realtime = true ∧
    joinWorkgroup true (getDeviceWorkgroup true deviceName l).1 calls = .ok

theorem returns_ok_iff {cores : List CpuInfo} {a : AddWorker} {realtime : Bool} {calls : JoinCalls}
    (h : Starts cores a) (ha : a.init = initStatus true deviceName l realtime calls) :
    addWorkerReturns cores a = (.ok, .ok) ↔ SetUp deviceName l realtime calls := by
  rw [h.returns, SetUp, ← initStatus_ok, ← ha]
  by_cases hinit : a.init = .ok <;> simp [hinit]

/-- No failure is masked, and none is invented. -/
structure Truthful (deviceName : List Char) (l : DeviceList) : Prop where
  found : ∀ w, getDeviceWorkgroup true deviceName l = (w, .ok) ↔
    l.Lists ∧ Provided deviceName l.deviceIds w
  notFound : (∀ w, ¬ (l.Lists ∧ Provided deviceName l.deviceIds w)) →
    ∃ w, getDeviceWorkgroup true deviceName l = (w, firstFailure (l.queries deviceName)) ∧
      (firstFailure (l.queries deviceName) ≠ .wgCancelled → w = none)
  accepted : ∀ cores a realtime calls, Starts cores a →
    a.init = initStatus true deviceName l realtime calls →
    (addWorkerReturns cores a = (.ok, .ok) ↔ SetUp deviceName l realtime calls)
  /-- And so it is in every run of a pool. -/
  inPool : ∀ table pre s a mid r t realtime calls, run (init table) pre = some s →
    Starts s.cores a → a.init = initStatus true deviceName l realtime calls →
    (∀ q, .ret q ∉ mid) →
    Exec.Guarded step Uninterrupted (init table)
      (pre ++ .call (.addWorker a) :: (mid ++ [.ret (.addWorker r)])) t →
    (r = (.ok, .ok) ↔ SetUp deviceName l realtime calls)

/-- Whatever CoreAudio answers, a worker is accepted if and only if its workgroup is found, and
setting its thread to realtime and joining the workgroup succeed. -/
theorem truthful (deviceName : List Char) (l : DeviceList) : Truthful deviceName l where
  found w := by
    rcases outcome_list deviceName l with ⟨hok, hprovided⟩ | ⟨hne, hnone, -, -⟩
    · refine Iff.trans ?_ (hprovided w).symm
      constructor
      · intro he
        rw [he]
      · rintro rfl
        exact Prod.ext rfl hok
    · constructor
      · intro he
        exact absurd (congrArg Prod.snd he) hne
      · intro hw
        exact absurd hw (hnone w)
  notFound hnone := by
    rcases outcome_list deviceName l with ⟨-, hprovided⟩ | ⟨-, -, hstatus, hw⟩
    · exact absurd ((hprovided _).mpr rfl) (hnone _)
    · rw [hstatus] at hw
      exact ⟨_, Prod.ext rfl hstatus, hw⟩
  accepted _ _ _ _ hstarts ha := returns_ok_iff hstarts ha
  inPool _ _ _ _ _ _ _ _ _ hpre hstarts ha hmid h := by
    have hr := addWorker_returns hpre hmid h
    rw [← returns_ok_iff hstarts ha, ← (Ret.addWorker.inj hr)]

/-- The second of two devices with the name is not asked. -/
example : getDeviceWorkgroup true "Scarlett".toList ⟨0, 12, 0, 12,
      [⟨0, 8, 0, some ⟨none, some "Built-in".toList⟩, 0, 0, none, false⟩,
        ⟨0, 8, 0, some ⟨some "Scarlett".toList, none⟩, 0, 0, some 7, false⟩,
        ⟨0, 8, 0, some ⟨some "Scarlett".toList, none⟩, 0, 0, some 9, true⟩], rfl⟩ =
    (some 7, .ok) := by decide

end CoreAudio

end Twine.Pool
