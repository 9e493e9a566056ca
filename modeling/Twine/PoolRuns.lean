import Twine.PoolControl

/-!
# Runs of a worker pool

The conditions on the controlling thread are guards on its calls. The weakest one
says that a wakeup needs a wait that returned since the last release; under it
the workers are all registered whenever a wakeup is called, so the invariant
holds in every state of every run without an interrupted `semaphore_wait`.
-/
namespace Twine.Pool

open Placement

def Label.wakes : Label → Bool
  | .call .wakeupWorkers | .call .wakeupAndWait => true
  | _ => false

def Label.waitReturns : Label → Bool
  | .ret r => r.waits
  | _ => false

def Label.interrupts : Label → Bool
  | .worker _ .interrupted => true
  | _ => false

def Label.destroys : Label → Bool
  | .call .destroy => true
  | _ => false

/-- A call of `add_worker` whose worker would end its initialisation with an error. -/
def Label.initFails : Label → Bool
  | .call (.addWorker a) => a.init ≠ .ok
  | _ => false

/-- No wakeup yet, or a wait has returned since the last one. A release that no wakeup
asked for, as in `_stop_thread`, counts as a wakeup too. -/
def waited (tr : List Label) : Bool :=
  tr.foldl (fun b l => if l = .release ∨ l.wakes = true then false else b || l.waitReturns) true

theorem waited_snoc (tr : List Label) (l : Label) :
    waited (tr ++ [l]) =
      if l = .release ∨ l.wakes = true then false else waited tr || l.waitReturns := by
  simp [waited]

/-- Every wakeup is called after the previous round was waited for. -/
def Disciplined (tr : List Label) (_ : State) (l : Label) : Prop := l.wakes = true → waited tr = true

/-- The same, and no `semaphore_wait` returns an error. -/
def Uninterrupted (tr : List Label) (s : State) (l : Label) : Prop :=
  l.interrupts = false ∧ Disciplined tr s l

/-! ## Pieces of runs -/

/-- `add_worker` starts worker `i` and returns after its first registration. -/
def addWorkerRun (a : AddWorker) (i : Nat) : List Label :=
  [.call (.addWorker a), .ctrl, .ctrl, .worker i .init, .worker i .register, .ctrl, .ctrl,
    .ret (.addWorker (.ok, .ok))]

/-- Worker `i` passes the barrier, runs its callback and registers again. -/
def callbackRun (i : Nat) : List Label :=
  [.worker i .take, .worker i .loadPoolRunning, .worker i .loadThreadRunning,
    .worker i .callbackStart, .worker i .callbackEnd, .worker i .register]

/-- Every worker is registered on the barrier. -/
def AllRegistered (s : State) : Prop :=
  ∀ w ∈ s.workers, w.pc = .parked s.barrier.activeSemIdx

instance (s : State) : Decidable (AllRegistered s) := by
  unfold AllRegistered
  infer_instance

instance (tr : List Label) (s : State) (l : Label) : Decidable (Disciplined tr s l) := by
  unfold Disciplined
  infer_instance

instance (tr : List Label) (s : State) (l : Label) : Decidable (Uninterrupted tr s l) := by
  unfold Uninterrupted
  infer_instance

/-! ## What the labels of the controller say -/

theorem call_idle {s t : State} {c : Call} (h : step s (.call c) = some t) :
    s.ctrl = .idle ∧ t = s.setCtrl (c.enter s.cores) := by
  simp only [step] at h
  split at h <;> cases h
  exact ⟨by assumption, rfl⟩

theorem ret_returning {s t : State} {r : Ret} (h : step s (.ret r) = some t) :
    s.ctrl = .returning r ∧ t = s.setCtrl .idle := by
  simp only [step] at h
  split at h <;> cases h
  exact ⟨by assumption, rfl⟩

theorem release_releasing {s t : State} (h : step s .release = some t) :
    ∃ k, s.ctrl = .releasing k ∧
      t = { s with barrier := s.barrier.release, ctrl := .posting k s.barrier.activeSemIdx 0 } := by
  simp only [step] at h
  split at h <;> cases h
  exact ⟨_, by assumption, rfl⟩

theorem spurious_asleep {s t : State} (h : step s .spurious = some t) :
    ∃ k, s.ctrl = .asleep k ∧ t = s.setCtrl (.woken k) := by
  simp only [step] at h
  split at h <;> cases h
  exact ⟨_, by assumption, rfl⟩

theorem interrupts_worker {i : Nat} {a : WorkerAct} :
    (Label.worker i a).interrupts = false ↔ a ≠ .interrupted := by
  cases a <;> simp [Label.interrupts]

theorem Inv.atRest_of_allRegistered {s : State} (h : Inv s) (hall : AllRegistered s)
    (hn : s.barrier.noThreads = s.workers.length) : AtRest s := by
  rw [AtRest, h.registered, parkedOn_of_all hall, hn]

theorem Inv.enter {s : State} (h : Inv s) {c : Call} (hc : s.ctrl = .idle)
    (hw : (Label.call c).wakes = true → AllRegistered s) :
    Inv (s.setCtrl (c.enter s.cores)) := by
  have hsize := h.size
  simp only [hc, Ctrl.popped, Ctrl.raised, Nat.add_zero] at hsize
  have hr := fun hk => h.atRest_of_allRegistered (hw hk) hsize
  cases c with
  | addWorker a =>
    simp only [Call.enter]
    split <;> apply h.setCtrl <;> simp [hc, Ctrl.raised, Ctrl.popped, Ctrl.unposted,
      Ctrl.shutdown, Ctrl.stopped, Ctrl.At, Ret.waits]
  | wakeupWorkers | wakeupAndWait =>
    have hr := hr rfl
    apply h.setCtrl <;> simp [hc, hr, Call.enter, Ctrl.raised, Ctrl.popped, Ctrl.unposted,
      Ctrl.shutdown, Ctrl.stopped, Ctrl.At, Releaser.stops]
  | waitForWorkersIdle | destroy =>
    apply h.setCtrl <;> simp [hc, Call.enter, Ctrl.raised, Ctrl.popped, Ctrl.unposted,
      Ctrl.shutdown, Ctrl.stopped, Ctrl.At, Waiter.adds]

/-- Every step keeps the invariant, except an interrupted `semaphore_wait`, and except a
wakeup that is called too early. -/
theorem step_inv {s t : State} {l : Label} (h : Inv s) (hi : l.interrupts = false)
    (hw : l.wakes = true → AllRegistered s) (hstep : step s l = some t) : Inv t := by
  cases l with
  | call c =>
    obtain ⟨hc, rfl⟩ := call_idle hstep
    exact h.enter hc hw
  | ret r =>
    obtain ⟨hc, rfl⟩ := ret_returning hstep
    apply h.setCtrl <;> simp [hc, Ctrl.raised, Ctrl.popped, Ctrl.unposted, Ctrl.shutdown,
      Ctrl.stopped, Ctrl.At]
  | release =>
    obtain ⟨k, hc, rfl⟩ := release_releasing hstep
    exact h.release hc
  | ctrl => exact h.ctrlStep hstep
  | spurious =>
    obtain ⟨k, hc, rfl⟩ := spurious_asleep hstep
    have hat := h.ctrlAt
    simp only [hc, Ctrl.At] at hat
    apply h.setCtrl <;> simp_all [Ctrl.raised, Ctrl.popped, Ctrl.unposted, Ctrl.shutdown,
      Ctrl.stopped, Ctrl.At]
  | worker i a => exact h.worker (interrupts_worker.mp hi) hstep

/-! ## Settled states -/

/-- The controller is in the wait of an `add_worker` that started a thread. -/
def Ctrl.adding : Ctrl → Bool
  | .waitForAll k | .asleep k | .woken k => k.adds
  | _ => false

/-- No round is open: everybody is registered, except that a new worker may still be
on its way to the barrier. -/
def Settled (s : State) : Prop :=
  ∀ i w, s.workers[i]? = some w → w.pc = .parked s.barrier.activeSemIdx ∨
    (s.ctrl.adding = true ∧ i + 1 = s.workers.length ∧
      (w.pc = .entering ∨ ∃ status, w.pc = .starting status))

theorem AllRegistered.settled {s : State} (h : AllRegistered s) : Settled s :=
  fun _ w hw => .inl (h w (List.mem_of_getElem? hw))

theorem Settled.allRegistered {s : State} (h : Settled s) (hc : s.ctrl.adding = false) :
    AllRegistered s := by
  intro w hw
  obtain ⟨i, hi⟩ := List.mem_iff_getElem?.mp hw
  rcases h i w hi with hp | ⟨ha, -⟩
  · exact hp
  · simp [hc] at ha

theorem signalled_adding (c : Ctrl) : c.signalled.adding = c.adding := by cases c <;> rfl

theorem Settled.setWorker {s t : State} (h : Settled s) {i : Nat} {w w' : WorkerThread}
    (hw : s.workers[i]? = some w) (hws : t.workers = s.workers.set i w')
    (hb : t.barrier.activeSemIdx = s.barrier.activeSemIdx) (hc : t.ctrl.adding = s.ctrl.adding)
    (hw' : w'.pc = .parked s.barrier.activeSemIdx ∨
      (s.ctrl.adding = true ∧ i + 1 = s.workers.length ∧ w'.pc = .entering)) : Settled t := by
  intro j v hv
  rw [hws] at hv
  rw [hws, hb, hc, List.length_set]
  rcases getElem?_set_cases hw hv with ⟨rfl, rfl⟩ | ⟨-, hv⟩
  · rcases hw' with hp | ⟨ha, hj, hp⟩
    · exact .inl hp
    · exact .inr ⟨ha, hj, .inl hp⟩
  · exact h j v hv

theorem Settled.worker {s t : State} (hs : Settled s) (h : Inv s) {i : Nat} {a : WorkerAct}
    (ha : a ≠ .interrupted) (hstep : step s (.worker i a) = some t) : Settled t := by
  obtain ⟨w, hw, ⟨-, hpc, -, rfl⟩ | ⟨-, sem, hpc, hsem, rfl⟩ | hi | ⟨w', hl, rfl⟩⟩ :=
    worker_cases hstep
  · refine hs.setWorker hw rfl rfl ?_ (.inl rfl)
    simp only [State.register]
    split <;> simp [signalled_adding]
  · -- no token is left for a registered worker
    have hother := h.take_other hsem
    rcases hs i w hw with hp | ⟨-, -, hp | ⟨status, hp⟩⟩ <;> simp_all
  · exact absurd hi.1 ha
  · obtain ⟨-, hp, -, -, -⟩ := localStep_spec hl
    rcases hs i w hw with hq | ⟨hadd, hlast, hq⟩
    · exact absurd hq (hp _)
    · refine hs.setWorker hw rfl rfl rfl (.inr ⟨hadd, hlast, ?_⟩)
      rcases hq with hq | ⟨status, hq⟩ <;> cases a <;> simp [WorkerThread.localStep, hq] at hl
      rw [← hl]

/-- Outside the wait of `add_worker` the controller adds at most one new worker. -/
theorem AllRegistered.ctrlStep {s t : State} (hall : AllRegistered s)
    (hstep : ctrlStep s = some t) : Settled t := by
  cases ctrl_cases hstep with
  | @spawn a core info =>
    intro i w hw
    simp only [List.length_append, List.length_singleton]
    rw [List.getElem?_append] at hw
    split at hw
    · exact .inl (hall w (List.mem_of_getElem? hw))
    · have hlen := (List.getElem?_eq_some_iff.mp hw).1
      rw [List.mem_singleton.mp (List.mem_of_getElem? hw)]
      exact .inr ⟨rfl, by simp at hlen; omega, .inr ⟨a.init, rfl⟩⟩
  | @stop core status w hc hw =>
    refine AllRegistered.settled (forall_set hall ?_)
    exact hall w (List.mem_of_getLast? hw)
  | pop => exact AllRegistered.settled fun v hv => hall v ((List.dropLast_sublist _).subset hv)
  | _ => exact AllRegistered.settled hall

/-- The wait of `add_worker` ends with a full barrier. -/
theorem Settled.adding_ctrlStep {s t : State} (hs : Settled s) (h : Inv s)
    (hc : s.ctrl.adding = true) (hstep : Pool.ctrlStep s = some t) : Settled t := by
  have ht := h.ctrlStep hstep
  have hadds : ∀ k, s.ctrl = .waitForAll k ∨ s.ctrl = .woken k → ∃ core, k = .addWorker core := by
    rintro k (hk | hk) <;> rw [hk] at hc <;> cases k <;>
      first | exact ⟨_, rfl⟩ | cases hc
  cases ctrl_cases hstep with
  | sleep hk =>
    obtain ⟨core, rfl⟩ := hadds _ hk
    intro i w hw
    exact (hs i w hw).imp_right fun hnew => ⟨rfl, hnew.2⟩
  | proceed hk =>
    obtain ⟨core, rfl⟩ := hadds _ hk
    have hat := ht.ctrlAt
    have hsize := ht.size
    simp only [State.setCtrl, Waiter.next, Ctrl.At, Ctrl.popped, Ctrl.raised, Nat.add_zero]
      at hat hsize
    exact AllRegistered.settled (ht.all_parked hat.1 hsize)
  | _ hk => simp [hk, Ctrl.adding] at hc

/-- Only a release opens a round. -/
theorem Settled.step {s t : State} {l : Label} (hs : Settled s) (h : Inv s)
    (hi : l.interrupts = false) (hr : l ≠ .release) (hstep : step s l = some t) : Settled t := by
  cases l with
  | call c =>
    obtain ⟨hc, rfl⟩ := call_idle hstep
    exact AllRegistered.settled (hs.allRegistered (by simp [hc, Ctrl.adding]))
  | ret r =>
    obtain ⟨hc, rfl⟩ := ret_returning hstep
    exact AllRegistered.settled (hs.allRegistered (by simp [hc, Ctrl.adding]))
  | release => exact absurd rfl hr
  | ctrl =>
    cases hc : s.ctrl.adding with
    | true => exact hs.adding_ctrlStep h hc hstep
    | false => exact (hs.allRegistered hc).ctrlStep hstep
  | spurious =>
    obtain ⟨k, hc, rfl⟩ := spurious_asleep hstep
    intro i w hw
    simpa [State.setCtrl, hc, Ctrl.adding] using hs i w hw
  | worker i a => exact hs.worker h (interrupts_worker.mp hi) hstep

/-! ## The invariant along guarded runs -/

/-- A wait that returns leaves every worker registered. -/
theorem Inv.wait_returned {s t : State} (h : Inv s) {r : Ret} (hr : r.waits = true)
    (hstep : step s (.ret r) = some t) : AllRegistered t := by
  obtain ⟨hc, rfl⟩ := ret_returning hstep
  have hat := h.ctrlAt
  have hsize := h.size
  simp only [hc, Ctrl.At, Ctrl.popped, Ctrl.raised, Nat.add_zero] at hat hsize
  exact h.all_parked (hat hr) hsize

/-- A wakeup under the discipline finds all workers registered. -/
theorem wake_registered {tr : List Label} {s t : State} {l : Label}
    (hs : waited tr = true → Settled s) (hd : Disciplined tr s l) (hstep : step s l = some t)
    (hw : l.wakes = true) : AllRegistered s := by
  refine (hs (hd hw)).allRegistered ?_
  cases l <;> simp only [Label.wakes, Bool.false_eq_true] at hw
  rw [(call_idle hstep).1]
  rfl

theorem guarded_inv_settled {cores : List CoreTable.CpuInfo} {tr : List Label} {s : State}
    (h : Exec.Guarded step Uninterrupted (init cores) tr s) :
    Inv s ∧ (waited tr = true → Settled s) := by
  refine h.invariant (I := fun tr s => Inv s ∧ (waited tr = true → Settled s)) ?_ ?_
  · refine ⟨init_inv cores, fun _ i w hw => ?_⟩
    simp [init] at hw
  · rintro tr s l t ⟨hinv, hset⟩ ⟨hi, hd⟩ hstep
    refine ⟨step_inv hinv hi (wake_registered hset hd hstep) hstep, fun hwt => ?_⟩
    rw [waited_snoc] at hwt
    split at hwt
    · cases hwt
    · rename_i hn
      rcases (Bool.or_eq_true _ _).mp hwt with hwt | hret
      · exact (hset hwt).step hinv hi (fun he => hn (.inl he)) hstep
      · cases l <;> simp only [Label.waitReturns, Bool.false_eq_true] at hret
        exact (hinv.wait_returned hret hstep).settled

theorem guarded_inv {cores : List CoreTable.CpuInfo} {tr : List Label} {s : State}
    (h : Exec.Guarded step Uninterrupted (init cores) tr s) : Inv s :=
  (guarded_inv_settled h).1

end Twine.Pool
