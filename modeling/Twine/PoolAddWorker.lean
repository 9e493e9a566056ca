import Twine.PoolBooks
import Twine.PoolRounds

/-!
# What `add_worker` does to the other workers

On every exit path but one, `add_worker` releases nobody: the workers that were
parked stay parked. A new worker that ends its initialisation with an error is
stopped through the shared barrier, and `release_all` lets everybody through.
-/
namespace Twine.Pool

open CoreTable (CpuInfo)
open Placement

/-- `add_worker` starts a thread, and its initialisation ends with an error. -/
def InitFails (cores : List CpuInfo) (a : AddWorker) : Prop :=
  (coreInfo cores a.cpuId ≠ none ∧ cores ≠ []) ∧
    ((0 ≤ a.schedPriority ∧ a.schedPriority ≤ 100) ∧ a.affinity = 0 ∧ a.create = 0) ∧ a.init ≠ .ok

/-- Every continuation of a call of `add_worker` up to the next other call than
`wait_for_workers_idle`, in which no `semaphore_wait` returns an error: the workers that are
there do not start their callbacks, and when `add_worker` returns, all the workers that are
left are registered. -/
def QuietAdd (s : State) (a : AddWorker) : Prop :=
  ∀ mid t, run s (.call (.addWorker a) :: mid) = some t →
    (∀ l ∈ mid, l.interrupts = false ∧ ∀ c, l = .call c → c = .waitForWorkersIdle) →
    (∀ i < s.workers.length, .worker i .callbackStart ∉ mid) ∧
    ∀ m r, mid = m ++ [.ret (.addWorker r)] → AllRegistered t ∧ AtRest t

/-! ## The quiet exit paths -/

def LastPlain (s : State) : Prop := ∀ w, s.workers.getLast? = some w → w.Plain

/-- The program points on the exit paths that stop nobody. -/
def Ctrl.Harmless (cores : List CpuInfo) (a : AddWorker) (s : State) : Ctrl → Prop
  | .idle | .returning _ | .lowering _ => True
  | .raising a' core | .starting a' core =>
    a' = a ∧ coreInfo cores a.cpuId = some core ∧ s.cores = cores
  | .waitForAll k | .asleep k | .woken k =>
    k = .waitForWorkersIdle ∨ (k.adds = true ∧ LastPlain s)
  | .checkingInit _ => LastPlain s
  | _ => False

theorem Ctrl.Harmless.signalled {cores : List CpuInfo} {a : AddWorker} {s : State} {c : Ctrl}
    (h : c.Harmless cores a s) : c.signalled.Harmless cores a s := by cases c <;> exact h

/-- A worker's step keeps its status plain, and nobody else's changes. -/
theorem worker_lastPlain {s t : State} {i : Nat} {x : WorkerAct} (h : LastPlain s)
    (hstep : step s (.worker i x) = some t) : LastPlain t :=
  worker_last (fun _ _ _ hp => ⟨hp.1, nofun⟩) (fun _ _ _ hp => ⟨hp.1, nofun⟩)
    (fun _ _ _ _ hp hl => Plain.localStep hp hl) h hstep

theorem Ctrl.Harmless.ctrlStep {cores : List CpuInfo} {a : AddWorker} {s t : State}
    (h : s.ctrl.Harmless cores a s) (ha : ¬ InitFails cores a) (hstep : ctrlStep s = some t) :
    t.ctrl.Harmless cores a t := by
  cases ctrl_cases hstep with
  | raise hc =>
    rw [hc] at h
    exact h
  | @spawn a' core info hc hinfo hrun =>
    rw [hc] at h
    obtain ⟨rfl, hcore, hcores⟩ := h
    -- a thread was started, so it is the initialisation that does not fail
    have hinit : a'.init = .ok := by
      by_contra hinit
      refine ha ⟨⟨by simp [hcore], ?_⟩, (workerThreadRun_eq_zero _ _ _).mp hrun, hinit⟩
      rintro rfl
      simp [hcores] at hinfo
    refine .inr ⟨rfl, fun w hw => ?_⟩
    obtain rfl : Pool.spawn a' info.id = w := by simpa using hw
    exact ⟨rfl, by simp [Pool.spawn, hinit]⟩
  | sleep hc =>
    rcases hc with hc | hc <;> rw [hc] at h <;> exact h
  | @proceed k hc =>
    have hwait : k = .waitForWorkersIdle ∨ (k.adds = true ∧ LastPlain s) := by
      rcases hc with hc | hc <;> rw [hc] at h <;> exact h
    rcases hwait with rfl | ⟨hk, hlast⟩
    · trivial
    · cases k <;> first | exact hlast | cases hk
  | refuse hc hw hne =>
    rw [hc] at h
    exact absurd (h _ hw).1 hne
  | runFails | lower | accept => trivial
  | stop hc | post hc | posted hc | retire hc | pop hc | storeRunning hc | join hc | joined hc =>
    rw [hc] at h
    exact h.elim

theorem Ctrl.Harmless.step {cores : List CpuInfo} {a : AddWorker} {s t : State} {l : Label}
    (h : s.ctrl.Harmless cores a s) (ha : ¬ InitFails cores a)
    (hl : ∀ c, l = .call c → c = .waitForWorkersIdle) (hstep : step s l = some t) :
    l ≠ .release ∧ t.ctrl.Harmless cores a t := by
  cases l with
  | call c =>
    obtain rfl := hl c rfl
    obtain ⟨-, rfl⟩ := call_idle hstep
    exact ⟨by simp, .inl rfl⟩
  | ret r =>
    obtain ⟨-, rfl⟩ := ret_returning hstep
    exact ⟨by simp, trivial⟩
  | release =>
    obtain ⟨k, hc, -⟩ := release_releasing hstep
    rw [hc] at h
    exact h.elim
  | ctrl => exact ⟨by simp, h.ctrlStep ha hstep⟩
  | spurious =>
    obtain ⟨k, hc, rfl⟩ := spurious_asleep hstep
    rw [hc] at h
    exact ⟨by simp, h⟩
  | worker i x =>
    have hlast : LastPlain s → LastPlain t := fun hp => worker_lastPlain hp hstep
    have hcores : t.cores = s.cores := congrArg Books.cores (worker_books hstep).1
    have hmono : ∀ c : Ctrl, c.Harmless cores a s → c.Harmless cores a t := by
      intro c hc
      cases c <;> simp only [Ctrl.Harmless, hcores] at hc ⊢ <;> first
        | exact hc
        | exact hlast hc
        | exact hc.imp_right fun hk => ⟨hk.1, hlast hk.2⟩
    refine ⟨by simp, ?_⟩
    rcases (worker_books hstep).2 with hc | hc <;> rw [hc]
    · exact hmono _ h
    · exact hmono _ h.signalled

section Calls

variable {cores : List CpuInfo} {pre mid : List Label} {s t : State} {a : AddWorker}

/-- The labels of a continuation up to the next other call than `wait_for_workers_idle`. -/
def OnlyWaits (mid : List Label) : Prop :=
  ∀ l ∈ mid, l.interrupts = false ∧ ∀ c, l = .call c → c = .waitForWorkersIdle

theorem OnlyWaits.uninterrupted (h : OnlyWaits mid) :
    ∀ l ∈ mid, ∀ tr u, Uninterrupted tr u l := by
  refine fun l hl tr u => ⟨(h l hl).1, fun hw => ?_⟩
  cases l with
  | call c =>
    obtain rfl := (h _ hl).2 c rfl
    cases hw
  | _ => cases hw

theorem call_uninterrupted {tr : List Label} : Uninterrupted tr s (.call (.addWorker a)) :=
  ⟨rfl, nofun⟩

theorem settled_no_callback {i : Nat} (h : Settled s)
    (hstep : step s (.worker i .callbackStart) = some t) : False := by
  obtain ⟨w, hw, ⟨hx, -⟩ | ⟨hx, -⟩ | ⟨hx, -⟩ | ⟨w', hl, -⟩⟩ := worker_cases hstep
  · cases hx
  · cases hx
  · cases hx
  · cases localStep_local hl with
    | callbackStart hpc => rcases h i w hw with hp | ⟨-, -, hp | ⟨status, hp⟩⟩ <;> simp [hpc] at hp

/-- Between calls, registered workers make the barrier's assertion true. -/
theorem Inv.atRest_of_idle (h : Inv s) (hc : s.ctrl = .idle) (hall : AllRegistered s) : AtRest s := by
  have hsize := h.size
  simp only [hc, Ctrl.popped, Ctrl.raised, Nat.add_zero] at hsize
  exact h.atRest_of_allRegistered hall hsize

theorem quiet_of_not_initFails (h : Exec.Guarded step Uninterrupted (init cores) pre s)
    (hall : AllRegistered s) (ha : ¬ InitFails s.cores a) : QuietAdd s a := by
  intro mid t hrun hmid
  obtain ⟨u, hcall, hrun⟩ := Exec.run_cons_split hrun
  have hu := h.next _ call_uninterrupted hcall
  have ht := hu.extend (OnlyWaits.uninterrupted hmid) hrun
  have hJ := Exec.Guarded.segment (J := fun mid v => OnlyWaits mid →
    Settled v ∧ v.ctrl.Harmless s.cores a v ∧ ∀ i, .worker i .callbackStart ∉ mid) hu ?_ ?_ ht hmid
  · obtain ⟨hset, -, hno⟩ := hJ
    refine ⟨fun i _ => hno i, ?_⟩
    rintro m r rfl
    obtain ⟨v, -, hlast⟩ := Exec.run_split hrun
    obtain ⟨w, hret, hw⟩ := Exec.run_cons_split hlast
    obtain rfl : w = t := by simpa using hw
    have hc : w.ctrl = .idle := by rw [(ret_returning hret).2]; rfl
    have hreg := hset.allRegistered (by simp [hc, Ctrl.adding])
    exact ⟨hreg, (guarded_inv ht).atRest_of_idle hc hreg⟩
  · intro _
    obtain ⟨-, rfl⟩ := call_idle hcall
    refine ⟨AllRegistered.settled hall, ?_, by simp⟩
    simp only [State.setCtrl, Call.enter]
    split
    · trivial
    · rename_i core hcore
      exact ⟨rfl, hcore, rfl⟩
  · intro mid v l w hv hJ hg hstep hok
    obtain ⟨hset, hharm, hno⟩ := hJ fun k hk => hok k (by simp [hk])
    obtain ⟨hrel, hharm'⟩ := hharm.step ha (hok l (by simp)).2 hstep
    refine ⟨hset.step (guarded_inv hv) hg.1 hrel hstep, hharm', fun i hmem => ?_⟩
    rcases List.mem_append.mp hmem with hmem | hmem
    · exact hno i hmem
    · obtain rfl := List.mem_singleton.mp hmem
      exact settled_no_callback hset hstep

theorem outside_run (h : s.ctrl.Outside) (hmid : OnlyWaits mid) (hrun : run s mid = some t) :
    t.ctrl.Outside := by
  refine Exec.run_invariant (I := fun s => s.ctrl.Outside)
    (P := fun l => ∀ c, l = .call c → c = .waitForWorkersIdle) ?_ h (fun l hl => (hmid l hl).2) hrun
  intro u l v hu hl hstep
  obtain ⟨-, hout | ⟨a, rfl, -⟩⟩ := hu.step hstep
  · exact hout
  · cases hl _ rfl

/-- The first call that returns is the `add_worker`. -/
theorem no_ret_before {r : WorkerPoolStatus × AppleThreadingStatus} (hrun : run s mid = some t)
    (hc : t.ctrl = .returning (.addWorker r)) (hmid : OnlyWaits (mid ++ [.ret (.addWorker r)])) :
    ∀ q, .ret q ∉ mid := by
  intro q hq
  obtain ⟨m₁, m₂, rfl⟩ := List.append_of_mem hq
  obtain ⟨u, -, hrest⟩ := Exec.run_split hrun
  obtain ⟨v, hret, hrest⟩ := Exec.run_cons_split hrest
  have hv : v.ctrl.Outside := by rw [(ret_returning hret).2]; trivial
  have ht := outside_run hv (fun l hl => hmid l (by simp [hl])) hrest
  rw [hc] at ht
  exact ht

/-- With nobody else in the pool, every exit path is quiet. -/
theorem quiet_of_empty (h : Exec.Guarded step Uninterrupted (init cores) pre s)
    (hempty : s.workers = []) : QuietAdd s a := by
  intro mid t hrun hmid
  refine ⟨by simp [hempty], ?_⟩
  rintro m r rfl
  obtain ⟨u, hcall, hrun⟩ := Exec.run_cons_split hrun
  have hu := h.next _ call_uninterrupted hcall
  have ht := hu.extend (OnlyWaits.uninterrupted hmid) hrun
  obtain ⟨v, hv, hlast⟩ := Exec.run_split hrun
  obtain ⟨w, hret, hw⟩ := Exec.run_cons_split hlast
  obtain rfl : w = t := by simpa using hw
  have hc : w.ctrl = .idle := by rw [(ret_returning hret).2]; rfl
  obtain ⟨hsound, hin⟩ := call_inAdd h.run hcall
  have hin' := inAdd_run hin hsound (no_ret_before hv (ret_returning hret).1 hmid) hv
  have hreg : AllRegistered w := by
    obtain ⟨status, apple, he, hcases⟩ := hin'.ret hret
    cases he
    have hsame : w.books.workers = s.books.workers → AllRegistered w := by
      intro hb
      have hnil : w.workers = [] := by simpa [State.books, hempty] using hb
      simp [AllRegistered, hnil]
    rcases hcases with ⟨-, -, hb⟩ | ⟨core, -, -, hb⟩ | ⟨core, -, rfl⟩ | ⟨-, -, hb⟩
    · exact hsame (by rw [hb])
    · exact hsame (by rw [hb]; rfl)
    · exact (guarded_inv (hu.extend
        (fun l hl => OnlyWaits.uninterrupted hmid l (by simp [hl])) hv)).wait_returned
        rfl hret
    · exact hsame (by rw [hb])
  exact ⟨hreg, (guarded_inv ht).atRest_of_idle hc hreg⟩

/-! ## The exit path that releases everybody -/

/-- `add_worker` up to the wait for the new worker. -/
theorem run_spawn {core : Nat} {info : CpuInfo} (hc : s.ctrl = .idle)
    (hcore : coreInfo s.cores a.cpuId = some core) (hinfo : s.cores[core]? = some info)
    (hrun : (0 ≤ a.schedPriority ∧ a.schedPriority ≤ 100) ∧ a.affinity = 0 ∧ a.create = 0) :
    run s [.call (.addWorker a), .ctrl, .ctrl] = some
      { s with
        barrier := s.barrier.setNoThreads (s.noWorkers + 1)
        cores := s.cores.modify core CpuInfo.incWorkers
        workers := s.workers ++ [spawn a info.id]
        noWorkers := s.noWorkers + 1
        ctrl := .waitForAll (.addWorker core) } := by
  have hres : errnoToWorkerStatus (workerThreadRun a.schedPriority a.affinity a.create) = .ok :=
    (errnoToWorkerStatus_ok _).mpr ((workerThreadRun_eq_zero _ _ _).mpr hrun)
  simp [Exec.run_cons, step, hc, State.setCtrl, Call.enter, hcore, ctrlStep, hinfo, hres]

/-- The new worker registers with an error, and `add_worker` sees it. -/
theorem run_init_error {ws : List WorkerThread} {w : WorkerThread} {core : Nat}
    {init : AppleThreadingStatus} (hc : s.ctrl = .waitForAll (.addWorker core))
    (hws : s.workers = ws ++ [w]) (hpc : w.pc = .starting init) (hinit : init ≠ .ok)
    (hcount : s.barrier.noThreadsCurrentlyOnBarrier = ws.length)
    (hn : s.barrier.noThreads = ws.length + 1) :
    run s [.worker ws.length .init, .worker ws.length .register, .ctrl, .ctrl, .ctrl] = some
      { s with
        barrier := s.barrier.enter
        workers := ws ++ [{ w with
          pc := .parked s.barrier.activeSemIdx, status := init, threadRunning := false }]
        ctrl := .releasing (.stopThread core init) } := by
  simp [Exec.run_cons, step, hc, hws, hpc, hinit, hcount, hn, ctrlStep, workerStep,
    WorkerThread.localStep, State.setWorker, State.register, State.setCtrl, Barrier.enter,
    Ctrl.holdsMutex, Ctrl.signalled, Waiter.next]

/-- A worker that is parked at a release starts its callback as soon as it has its token. -/
theorem run_release_callback {s₀ : State} {tr : List Label} {k : Releaser} {i : Nat}
    {w : WorkerThread} (hrun₀ : run s₀ tr = some s) (hc : s.ctrl = .releasing k)
    (hw : s.workers[i]? = some w) (hpc : w.pc = .parked s.barrier.activeSemIdx)
    (hrun : s.running = true) (ht : w.threadRunning = true) (hn : 0 < s.barrier.noThreads) :
    ∃ t, run s₀ (tr ++ [.release, .ctrl, .worker i .take, .worker i .loadPoolRunning,
      .worker i .loadThreadRunning, .worker i .callbackStart]) = some t := by
  obtain ⟨hi, rfl⟩ := List.getElem?_eq_some_iff.mp hw
  refine ⟨_, Exec.run_join hrun₀ (Option.get_mem ?_ |> Option.mem_def.mp)⟩
  simp [Exec.run_cons, step, hc, hi, hpc, hrun, ht, hn, ctrlStep, workerStep,
    WorkerThread.localStep, State.setWorker, Barrier.release, Barrier.signal, Barrier.take]

theorem loud_of_initFails (hinv : Inv s) (hc : s.ctrl = .idle) (hall : AllRegistered s)
    (hne : s.workers ≠ []) (ha : InitFails s.cores a) : ¬ QuietAdd s a := by
  obtain ⟨⟨hknown, hcores⟩, hrun, hinit⟩ := ha
  obtain ⟨core, hcore⟩ := Option.ne_none_iff_exists'.mp hknown
  have hinfo := List.getElem?_eq_getElem (coreInfo_lt hcore hcores)
  have hat := hinv.atRest_of_idle hc hall
  have hsize := hinv.size
  have hno := hinv.noWorkers
  simp only [hc, Ctrl.popped, Ctrl.raised, Nat.add_zero, AtRest] at hat hsize hno
  obtain ⟨w, ws, hws⟩ := List.exists_cons_of_ne_nil hne
  have hw : w.threadRunning = true := by
    simpa [hc, Ctrl.stopped] using hinv.stopped 0 w (by simp [hws])
  have hrunning : s.running = true := by simpa [hc, Ctrl.shutdown] using hinv.running
  have hadd := Exec.run_join (run_spawn hc hcore hinfo hrun)
    (run_init_error rfl rfl rfl hinit (hat.trans hsize) (by simp [Barrier.setNoThreads, hno]))
  -- the release that stops the new worker lets the first one through
  obtain ⟨t, ht⟩ := run_release_callback (i := 0) (w := w) hadd rfl (by simp [hws])
    (hall w (by simp [hws])) hrunning hw (by simp [Barrier.setNoThreads, Barrier.enter])
  intro hquiet
  have hno := (hquiet _ t ht (by simp [Label.interrupts])).1 0 (by simp [hws])
  simp at hno

/-- As long as no `semaphore_wait` returns an error, `add_worker` runs nobody's callback and
leaves the others registered if and only if there are no others, or no thread is started whose
initialisation ends with an error. -/
theorem quietAdd_iff (h : Exec.Guarded step Uninterrupted (init cores) pre s)
    (hc : s.ctrl = .idle) (hall : AllRegistered s) :
    QuietAdd s a ↔ s.workers = [] ∨ ¬ InitFails s.cores a := by
  constructor
  · intro hquiet
    by_contra hno
    push Not at hno
    exact loud_of_initFails (guarded_inv h) hc hall hno.1 hno.2 hquiet
  · rintro (hempty | ha)
    · exact quiet_of_empty h hempty
    · exact quiet_of_not_initFails h hall ha

end Calls

/-- A pool with one worker on two cores. -/
def oneWorker : State :=
  (run (init (CoreTable.buildCoreList 0 2)) (addWorkerRun ⟨0, 75, none, 0, 0, .ok⟩ 0)).getD (init [])

theorem quietAdd_iff_oneWorker :
    QuietAdd oneWorker ⟨1, 75, none, 0, 0, .realtimeFailed⟩ ↔
      oneWorker.workers = [] ∨
        ¬ InitFails oneWorker.cores ⟨1, 75, none, 0, 0, .realtimeFailed⟩ := by
  obtain ⟨s, hs⟩ := Exec.guarded_of_isSome step Uninterrupted
    (init (CoreTable.buildCoreList 0 2)) (addWorkerRun ⟨0, 75, none, 0, 0, .ok⟩ 0) (by decide)
  obtain rfl : oneWorker = s := Option.some.inj hs.run
  exact quietAdd_iff hs rfl (by decide)

/-- The failing initialisation of a second worker makes the first one run its callback. -/
theorem failed_init_runs_callback :
    ¬ QuietAdd oneWorker ⟨1, 75, none, 0, 0, .realtimeFailed⟩ := by
  intro h
  have hquiet := (h [.ctrl, .ctrl, .worker 1 .init, .worker 1 .register, .ctrl, .ctrl, .ctrl,
    .release, .ctrl, .worker 0 .take, .worker 0 .loadPoolRunning, .worker 0 .loadThreadRunning,
    .worker 0 .callbackStart] _ rfl (by simp [Label.interrupts])).1 0 (by decide)
  simp at hquiet

end Twine.Pool
