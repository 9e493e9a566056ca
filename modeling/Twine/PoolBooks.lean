import Twine.PoolRuns

/-!
# The bookkeeping of `add_worker`

Four pieces of state say which workers there are: `_no_workers`, the list, the
counts of the core table, and the barrier's thread count. `Ctrl.InAdd` says what
they are at every program point of an `add_worker`, in terms of their values at
the call; the workers' steps do not touch them. Nothing here needs a disciplined
caller or a `semaphore_wait` that works.
-/
namespace Twine.Pool

open CoreTable (CpuInfo)
open Placement

structure Books where
  noWorkers : Nat
  /-- The callback and the cpu of each worker, in the order of the list. -/
  workers : List (Nat × Int)
  cores : List CpuInfo
  noThreads : Nat
  deriving DecidableEq

def State.books (s : State) : Books :=
  ⟨s.noWorkers, s.workers.map fun w => (w.callback, w.cpuId), s.cores, s.barrier.noThreads⟩

def Books.charged (b : Books) (core : Nat) : Books :=
  { b with cores := b.cores.modify core CpuInfo.incWorkers }

def Books.added (b : Books) (callback core : Nat) (id : Int) : Books :=
  ⟨b.noWorkers + 1, b.workers ++ [(callback, id)], b.cores.modify core CpuInfo.incWorkers,
    b.noWorkers + 1⟩

/-- The requested core, if any, is in the table, and the priority is out of range or a system
call fails: `add_worker` gets as far as `WorkerThread::run`, which fails. -/
def RunFails (cores : List CpuInfo) (a : AddWorker) : Prop :=
  coreInfo cores a.cpuId ≠ none ∧
    ¬ ((0 ≤ a.schedPriority ∧ a.schedPriority ≤ 100) ∧ a.affinity = 0 ∧ a.create = 0)

theorem runFails_iff {cores : List CpuInfo} {a : AddWorker} :
    RunFails cores a ↔ coreInfo cores a.cpuId ≠ none ∧
      workerThreadRun a.schedPriority a.affinity a.create ≠ 0 := by
  rw [RunFails, ← workerThreadRun_eq_zero]

instance (cores : List CpuInfo) (a : AddWorker) : Decidable (RunFails cores a) := by
  unfold RunFails
  infer_instance

/-- The worker is in the list with the books of the call `b₀`. -/
def Books.Adding (b₀ : Books) (a : AddWorker) (core : Nat) (b : Books) : Prop :=
  ∃ info, b₀.cores[core]? = some info ∧ coreInfo b₀.cores a.cpuId = some core ∧
    workerThreadRun a.schedPriority a.affinity a.create = 0 ∧ b = b₀.added a.callback core info.id

/-- `run` has failed in the call with the books `b₀`. -/
def Books.Failing (b₀ : Books) (a : AddWorker) (core : Nat) : Prop :=
  core < b₀.cores.length ∧ coreInfo b₀.cores a.cpuId = some core ∧
    workerThreadRun a.schedPriority a.affinity a.create ≠ 0

/-- The books at the program points of the call `add_worker(a)` that found the books `b₀`. -/
def Ctrl.InAdd (b₀ : Books) (a : AddWorker) (b : Books) : Ctrl → Prop
  | .raising a' core => a' = a ∧ coreInfo b₀.cores a.cpuId = some core ∧ b = b₀
  | .starting a' core =>
    a' = a ∧ coreInfo b₀.cores a.cpuId = some core ∧ b = { b₀ with noThreads := b₀.noWorkers + 1 }
  | .lowering status =>
    ∃ core, b₀.Failing a core ∧ status ≠ .ok ∧
      b = { b₀.charged core with noThreads := b₀.noWorkers + 1 }
  | .waitForAll (.addWorker core) | .asleep (.addWorker core) | .woken (.addWorker core)
  | .checkingInit core | .stopping core _ | .releasing (.stopThread core _)
  | .posting (.stopThread core _) _ _ | .retiring core _ => b₀.Adding a core b
  | .popping _ =>
    workerThreadRun a.schedPriority a.affinity a.create = 0 ∧
      ∃ id, b = { b₀ with workers := b₀.workers ++ [(a.callback, id)] }
  | .returning (.addWorker (status, _)) =>
    (coreInfo b₀.cores a.cpuId = none ∧ status ≠ .ok ∧ b = b₀) ∨
    (∃ core, b₀.Failing a core ∧ status ≠ .ok ∧ b = b₀.charged core) ∨
    (∃ core, b₀.Adding a core b ∧ status = .ok) ∨
    (workerThreadRun a.schedPriority a.affinity a.create = 0 ∧ status ≠ .ok ∧ b = b₀)
  | _ => False

/-- The program points outside `add_worker`. -/
def Ctrl.Outside : Ctrl → Prop
  | .idle | .storingRunning | .joining _ | .destroyed => True
  | .returning (.addWorker _) => False
  | .returning _ => True
  | .waitForAll k | .asleep k | .woken k => k.adds = false
  | .releasing k | .posting k _ _ => k.stops = false
  | _ => False

theorem Ctrl.InAdd.signalled {b₀ b : Books} {a : AddWorker} {c : Ctrl} (h : c.InAdd b₀ a b) :
    c.signalled.InAdd b₀ a b := by
  cases c with
  | asleep k => cases k <;> exact h
  | _ => exact h

theorem Ctrl.Outside.signalled {c : Ctrl} (h : c.Outside) : c.signalled.Outside := by
  cases c <;> exact h

theorem books_setWorker {s : State} {i : Nat} {w w' : WorkerThread} (hw : s.workers[i]? = some w)
    (hcb : w'.callback = w.callback) (hcpu : w'.cpuId = w.cpuId) :
    (s.workers.set i w').map (fun w => (w.callback, w.cpuId)) =
      s.workers.map fun w => (w.callback, w.cpuId) := by
  obtain ⟨hi, rfl⟩ := List.getElem?_eq_some_iff.mp hw
  rw [List.map_set, hcb, hcpu]
  exact List.ext_getElem (by simp) fun j h₁ h₂ => by
    by_cases hj : i = j
    · subst hj; simp
    · simp [hj]

theorem localStep_books {running : Bool} {w w' : WorkerThread} {a : WorkerAct}
    (hl : w.localStep running a = some w') :
    w'.callback = w.callback ∧ w'.cpuId = w.cpuId := by
  cases localStep_local hl <;> exact ⟨rfl, rfl⟩

/-- A worker's step leaves the books alone, and at most wakes the controller. -/
theorem worker_books {s t : State} {i : Nat} {a : WorkerAct}
    (hstep : step s (.worker i a) = some t) :
    t.books = s.books ∧ (t.ctrl = s.ctrl ∨ t.ctrl = s.ctrl.signalled) := by
  obtain ⟨w, hw, ⟨-, -, -, rfl⟩ | ⟨-, sem, -, -, rfl⟩ | ⟨-, sem, -, rfl⟩ | ⟨w', hl, rfl⟩⟩ :=
    worker_cases hstep
  · refine ⟨?_, ?_⟩
    · simp [State.books, State.register, Barrier.enter, books_setWorker hw]
    · simp only [State.register]
      split <;> simp
  · exact ⟨by simp [State.books, State.setWorker, Barrier.take, books_setWorker hw], .inl rfl⟩
  · exact ⟨by simp [State.books, State.setWorker, books_setWorker hw], .inl rfl⟩
  · obtain ⟨hcb, hcpu⟩ := localStep_books hl
    exact ⟨by simp [State.books, State.setWorker, books_setWorker hw hcb hcpu], .inl rfl⟩

/-! ## The program points of `add_worker` -/

theorem Ctrl.InAdd.ctrlStep {b₀ : Books} {a : AddWorker} {s t : State}
    (h : s.ctrl.InAdd b₀ a s.books) (hb₀ : b₀.noThreads = b₀.noWorkers)
    (hstep : ctrlStep s = some t) : t.ctrl.InAdd b₀ a t.books := by
  cases ctrl_cases hstep with
  | raise hc =>
    rw [hc] at h
    obtain ⟨rfl, hcore, hb⟩ := h
    refine ⟨rfl, hcore, ?_⟩
    rw [← hb]
    rfl
  | @spawn a' core info hc hinfo hrun =>
    rw [hc] at h
    obtain ⟨rfl, hcore, hb⟩ := h
    simp only [State.books, Books.mk.injEq] at hb
    obtain ⟨hno, hworkers, hcores, hth⟩ := hb
    rw [hcores] at hinfo
    refine ⟨info, hinfo, hcore, hrun, ?_⟩
    simp [State.books, Books.added, hcores, hworkers, hno, hth, Pool.spawn]
  | @runFails a' core info hc hinfo hrun =>
    rw [hc] at h
    obtain ⟨rfl, hcore, hb⟩ := h
    simp only [State.books, Books.mk.injEq] at hb
    obtain ⟨hno, hworkers, hcores, hth⟩ := hb
    rw [hcores] at hinfo
    refine ⟨core, ⟨(List.getElem?_eq_some_iff.mp hinfo).1, hcore, hrun⟩, ?_, ?_⟩
    · exact mt (errnoToWorkerStatus_ok _).mp hrun
    · simp [State.books, Books.charged, hcores, hworkers, hno, hth]
  | lower hc =>
    rw [hc] at h
    obtain ⟨core, hfail, hstatus, hb⟩ := h
    refine .inr (.inl ⟨core, hfail, hstatus, ?_⟩)
    simp only [State.books, Books.charged, Books.mk.injEq] at hb ⊢
    obtain ⟨hno, hworkers, hcores, -⟩ := hb
    exact ⟨hno, hworkers, hcores, by simp [Barrier.setNoThreads, hno, hb₀]⟩
  | @sleep k hc | @proceed k hc =>
    rcases hc with hc | hc <;> rw [hc] at h <;> cases k <;> exact h
  | accept hc =>
    rw [hc] at h
    exact .inr (.inr (.inl ⟨_, h, rfl⟩))
  | refuse hc =>
    rw [hc] at h
    exact h
  | @stop core status w hc hw =>
    rw [hc] at h
    rw [List.getLast?_eq_getElem?] at hw
    have hbooks : ((s.setWorker (s.workers.length - 1) { w with threadRunning := false }).setCtrl
        (.releasing (.stopThread core status))).books = s.books := by
      simp [State.books, State.setWorker, State.setCtrl, books_setWorker hw]
    rw [hbooks]
    exact h
  | @post k _ _ hc =>
    rw [hc] at h
    cases k <;> exact h
  | @posted k _ _ hc =>
    rw [hc] at h
    cases k with
    | stopThread => exact h
    | _ => exact h.elim
  | retire hc =>
    rw [hc] at h
    obtain ⟨info, hinfo, hcore, hok, hb⟩ := h
    refine ⟨hok, info.id, ?_⟩
    simp only [State.books, Books.added, Books.mk.injEq] at hb ⊢
    obtain ⟨hno, hworkers, hcores, -⟩ := hb
    refine ⟨by omega, hworkers, ?_, by simp [Barrier.setNoThreads, hno, hb₀]⟩
    rw [hcores, modify_dec_inc]
  | pop hc =>
    rw [hc] at h
    obtain ⟨hok, id, hb⟩ := h
    refine .inr (.inr (.inr ⟨hok, by simp, ?_⟩))
    simp only [State.books, Books.mk.injEq] at hb
    obtain ⟨hno, hworkers, hcores, hth⟩ := hb
    simp [State.books, hno, List.map_dropLast, hworkers, hcores, hth]
  | storeRunning hc | join hc | joined hc =>
    rw [hc] at h
    exact h.elim

theorem Ctrl.InAdd.step {b₀ : Books} {a : AddWorker} {s t : State} {l : Label}
    (h : s.ctrl.InAdd b₀ a s.books) (hb₀ : b₀.noThreads = b₀.noWorkers) (hl : ∀ r, l ≠ .ret r)
    (hstep : step s l = some t) : t.ctrl.InAdd b₀ a t.books := by
  cases l with
  | call c => simp [(call_idle hstep).1, Ctrl.InAdd] at h
  | ret r => exact absurd rfl (hl r)
  | release =>
    obtain ⟨k, hc, rfl⟩ := release_releasing hstep
    rw [hc] at h
    cases k <;> exact h
  | ctrl => exact h.ctrlStep hb₀ hstep
  | spurious =>
    obtain ⟨k, hc, rfl⟩ := spurious_asleep hstep
    rw [hc] at h
    cases k <;> exact h
  | worker i x =>
    obtain ⟨hb, hc | hc⟩ := worker_books hstep <;> rw [hb, hc]
    · exact h
    · exact h.signalled

/-- What the books are when `add_worker` returns. -/
theorem Ctrl.InAdd.ret {b₀ : Books} {a : AddWorker} {s t : State} {r : Ret}
    (h : s.ctrl.InAdd b₀ a s.books) (hstep : Pool.step s (.ret r) = some t) :
    ∃ status apple, r = .addWorker (status, apple) ∧
      ((coreInfo b₀.cores a.cpuId = none ∧ status ≠ .ok ∧ t.books = b₀) ∨
      (∃ core, b₀.Failing a core ∧ status ≠ .ok ∧ t.books = b₀.charged core) ∨
      (∃ core, b₀.Adding a core t.books ∧ status = .ok) ∨
      (workerThreadRun a.schedPriority a.affinity a.create = 0 ∧ status ≠ .ok ∧ t.books = b₀)) := by
  obtain ⟨hc, rfl⟩ := ret_returning hstep
  rw [hc] at h
  cases r with
  | addWorker r => exact ⟨r.1, r.2, rfl, h⟩
  | _ => exact h.elim

/-! ## The program points outside it -/

theorem Ctrl.Outside.ctrlStep {s t : State} (h : s.ctrl.Outside) (hstep : ctrlStep s = some t) :
    t.books = s.books ∧ t.ctrl.Outside := by
  cases ctrl_cases hstep with
  | @sleep k hc =>
    rcases hc with hc | hc <;> rw [hc] at h <;> exact ⟨rfl, h⟩
  | @proceed k hc =>
    refine ⟨rfl, ?_⟩
    rcases hc with hc | hc <;> rw [hc] at h <;> cases k <;> trivial
  | post hc =>
    rw [hc] at h
    exact ⟨rfl, h⟩
  | @posted k _ _ hc =>
    rw [hc] at h
    refine ⟨rfl, ?_⟩
    cases k with
    | wakeupAndWait =>
      simp only [State.setCtrl, Releaser.next]
      split <;> trivial
    | stopThread => cases h
    | _ => trivial
  | storeRunning => exact ⟨rfl, rfl⟩
  | join | joined => exact ⟨rfl, trivial⟩
  | _ hc =>
    rw [hc] at h
    exact h.elim

/-- Outside `add_worker` nothing touches the books, and only a call of it leads inside. -/
theorem Ctrl.Outside.step {s t : State} {l : Label} (h : s.ctrl.Outside)
    (hstep : step s l = some t) : t.books = s.books ∧
      (t.ctrl.Outside ∨ ∃ a, l = .call (.addWorker a) ∧ t.ctrl.InAdd s.books a t.books) := by
  cases l with
  | call c =>
    obtain ⟨-, rfl⟩ := call_idle hstep
    cases c with
    | addWorker a =>
      refine ⟨rfl, .inr ⟨a, rfl, ?_⟩⟩
      simp only [State.setCtrl, Call.enter]
      split
      · rename_i hcore
        exact .inl ⟨hcore, by simp, rfl⟩
      · rename_i core hcore
        exact ⟨rfl, hcore, rfl⟩
    | _ => exact ⟨rfl, .inl (by trivial)⟩
  | ret r =>
    obtain ⟨-, rfl⟩ := ret_returning hstep
    exact ⟨rfl, .inl trivial⟩
  | release =>
    obtain ⟨k, hc, rfl⟩ := release_releasing hstep
    rw [hc] at h
    exact ⟨rfl, .inl h⟩
  | ctrl =>
    obtain ⟨hb, hout⟩ := h.ctrlStep hstep
    exact ⟨hb, .inl hout⟩
  | spurious =>
    obtain ⟨k, hc, rfl⟩ := spurious_asleep hstep
    rw [hc] at h
    exact ⟨rfl, .inl h⟩
  | worker i x =>
    obtain ⟨hb, hc | hc⟩ := worker_books hstep <;> rw [hb, hc]
    · exact ⟨rfl, .inl h⟩
    · exact ⟨rfl, .inl h.signalled⟩

/-! ## Histories of calls -/

/-- The two thread counts agree with the list. -/
def Books.Sound (b : Books) : Prop := b.noThreads = b.noWorkers ∧ b.noWorkers = b.workers.length

/-- And every core counts the workers that are pinned to it. -/
def Books.Pinned (b : Books) : Prop :=
  b.Sound ∧ (b.cores.map CpuInfo.id).Nodup ∧
    ∀ c ∈ b.cores, c.workers = b.workers.countP fun w => w.2 = c.id

theorem Books.Adding.sound {b₀ b : Books} {a : AddWorker} {core : Nat} (h : b₀.Adding a core b)
    (hs : b₀.Sound) : b.Sound := by
  obtain ⟨info, -, -, -, rfl⟩ := h
  exact ⟨rfl, by simp [Books.added, hs.2]⟩

theorem Books.Adding.pinned {b₀ b : Books} {a : AddWorker} {core : Nat} (h : b₀.Adding a core b)
    (hp : b₀.Pinned) : b.Pinned := by
  obtain ⟨hs, hnodup, hcount⟩ := hp
  refine ⟨h.sound hs, ?_⟩
  obtain ⟨info, hinfo, -, -, rfl⟩ := h
  have hids : (b₀.cores.modify core CpuInfo.incWorkers).map CpuInfo.id = b₀.cores.map CpuInfo.id := by
    refine List.ext_getElem (by simp) fun k h₁ h₂ => ?_
    simp only [List.getElem_map, List.getElem_modify]
    split <;> rfl
  refine ⟨by rw [Books.added, hids]; exact hnodup, fun c hc => ?_⟩
  obtain ⟨k, hk⟩ := List.mem_iff_getElem?.mp hc
  simp only [Books.added, List.getElem?_modify] at hk
  obtain ⟨c', hc', rfl⟩ := Option.map_eq_some_iff.mp hk
  have hold := hcount c' (List.mem_of_getElem? hc')
  simp only [Books.added, List.countP_append, List.countP_singleton]
  by_cases hkc : core = k
  · subst hkc
    obtain rfl : info = c' := Option.some.inj (hinfo.symm.trans hc')
    simp [hold]
  · -- two positions of the table never name the same core
    have hne : info.id ≠ c'.id := by
      intro he
      have hlt := (List.getElem?_eq_some_iff.mp hinfo).1
      exact hkc ((List.getElem?_inj (by simpa using hlt) hnodup).mp (by simp [hinfo, hc', he]))
    simp [hkc, hold, hne]

/-- The books of a state are `P`, or they are those of an allowed call of `add_worker`
that found them `P`. -/
def Ledger (P : Books → Prop) (allowed : List CpuInfo → AddWorker → Prop) (s : State) : Prop :=
  (s.ctrl.Outside ∧ P s.books) ∨
    ∃ b₀ a, P b₀ ∧ allowed b₀.cores a ∧ s.ctrl.InAdd b₀ a s.books

theorem Ledger.of_idle {P : Books → Prop} {allowed : List CpuInfo → AddWorker → Prop} {s : State}
    (h : Ledger P allowed s) (hc : s.ctrl = .idle) : P s.books := by
  rcases h with ⟨-, hp⟩ | ⟨b₀, a, -, -, hin⟩
  · exact hp
  · rw [hc] at hin
    exact hin.elim

/-- What a successful `add_worker` keeps, and an allowed one keeps when `run` fails, holds of
the books between any two calls. -/
theorem Ledger.step {P : Books → Prop} {allowed : List CpuInfo → AddWorker → Prop}
    (hsound : ∀ b, P b → b.Sound)
    (hadd : ∀ b a core b', P b → b.Adding a core b' → P b')
    (hfail : ∀ b a core, P b → allowed b.cores a → b.Failing a core → P (b.charged core))
    {s t : State} {l : Label} (h : Ledger P allowed s)
    (hl : ∀ a, l = .call (.addWorker a) → allowed s.cores a) (hstep : Pool.step s l = some t) :
    Ledger P allowed t := by
  rcases h with ⟨hout, hp⟩ | ⟨b₀, a, hp, ha, hin⟩
  · obtain ⟨hb, hout' | ⟨a, rfl, hin⟩⟩ := hout.step hstep
    · exact .inl ⟨hout', by rwa [hb]⟩
    · exact .inr ⟨s.books, a, hp, hl a rfl, hin⟩
  · by_cases hret : ∃ r, l = .ret r
    · obtain ⟨r, rfl⟩ := hret
      obtain ⟨status, apple, rfl, hcases⟩ := hin.ret hstep
      refine .inl ⟨by rw [(ret_returning hstep).2]; trivial, ?_⟩
      rcases hcases with ⟨-, -, hb⟩ | ⟨core, hf, -, hb⟩ | ⟨core, hadding, -⟩ | ⟨-, -, hb⟩
      · rwa [hb]
      · rw [hb]
        exact hfail b₀ a core hp ha hf
      · exact hadd b₀ a core _ hp hadding
      · rwa [hb]
    · push Not at hret
      exact .inr ⟨b₀, a, hp, ha, hin.step (hsound b₀ hp).1 hret hstep⟩

section Histories

variable {table : List CpuInfo} {tr pre mid post : List Label} {s t m : State} {a : AddWorker}

/-- In every run the thread counts agree with the list between two calls. -/
theorem sound_of_idle (h : run (init table) tr = some s) (hc : s.ctrl = .idle) : s.books.Sound := by
  have hguarded : Exec.Guarded step (fun _ _ _ => True) (init table) tr s :=
    Exec.guarded_of_run h fun _ _ _ _ _ _ => trivial
  refine (hguarded.invariant (I := fun _ s => Ledger Books.Sound (fun _ _ => True) s) ?_ ?_).of_idle hc
  · exact .inl ⟨trivial, rfl, rfl⟩
  · intro tr s l t hl _ hstep
    exact hl.step (fun _ hb => hb) (fun _ _ _ _ hb h => h.sound hb) (fun _ _ _ hb _ _ => hb)
      (fun _ _ => trivial) hstep

/-- No call of `add_worker` so far has failed in `WorkerThread::run`. -/
def NoRunFails (table : List CpuInfo) (tr : List Label) : Prop :=
  ∀ pre a post m, tr = pre ++ .call (.addWorker a) :: post → run (init table) pre = some m →
    ¬ RunFails m.cores a

theorem pinned_of_idle (hfresh : CoreTable.Fresh table) (h : run (init table) tr = some s)
    (hno : NoRunFails table tr) (hc : s.ctrl = .idle) : s.books.Pinned := by
  have hguarded : Exec.Guarded step
      (fun _ s l => ∀ a, l = .call (.addWorker a) → ¬ RunFails s.cores a) (init table) tr s := by
    refine Exec.guarded_of_run h fun pre l post m he hm a hl => ?_
    subst hl
    exact hno pre a post m he hm
  refine (hguarded.invariant
    (I := fun _ s => Ledger Books.Pinned (fun cores a => ¬ RunFails cores a) s) ?_ ?_).of_idle hc
  · refine .inl ⟨trivial, ⟨rfl, rfl⟩, hfresh.nodup, fun c hcore => ?_⟩
    simp [State.books, init, hfresh.unused c hcore]
  · intro tr s l t hl hg hstep
    refine hl.step (fun _ hb => hb.1) (fun _ _ _ _ hb h => h.pinned hb) ?_ hg hstep
    rintro b a core - ha ⟨-, hcore, hrun⟩
    exact absurd (runFails_iff.mpr ⟨by simp [hcore], hrun⟩) ha

theorem inAdd_run {b₀ : Books} (h : s.ctrl.InAdd b₀ a s.books) (hb₀ : b₀.Sound)
    (hret : ∀ r, .ret r ∉ mid) (hrun : run s mid = some t) : t.ctrl.InAdd b₀ a t.books := by
  refine Exec.run_invariant (I := fun s => s.ctrl.InAdd b₀ a s.books) (P := fun l => ∀ r, l ≠ .ret r)
    (fun u l v hu hl hstep => hu.step hb₀.1 hl hstep) h ?_ hrun
  rintro l hl r rfl
  exact hret r hl

/-- The call steps into `add_worker`. -/
theorem call_inAdd (hm : run (init table) pre = some m)
    (hstep : step m (.call (.addWorker a)) = some t) : m.books.Sound ∧ t.ctrl.InAdd m.books a t.books := by
  have hc := (call_idle hstep).1
  have hout : m.ctrl.Outside := by rw [hc]; trivial
  refine ⟨sound_of_idle hm hc, ?_⟩
  obtain ⟨-, hout' | ⟨a', he, hin⟩⟩ := hout.step hstep
  · obtain ⟨-, rfl⟩ := call_idle hstep
    simp only [State.setCtrl, Call.enter] at hout'
    split at hout' <;> exact hout'.elim
  · cases he
    exact hin

/-- The bookkeeping over a history of calls. -/
structure Bookkept (table : List CpuInfo) (tr : List Label) : Prop where
  /-- An `add_worker` that fails returns with the books that it found. -/
  failures : ∀ pre a mid status apple post m t,
    tr = pre ++ .call (.addWorker a) :: (mid ++ .ret (.addWorker (status, apple)) :: post) →
    (∀ r, .ret r ∉ mid) → status ≠ .ok → run (init table) pre = some m →
    run m (.call (.addWorker a) :: (mid ++ [.ret (.addWorker (status, apple))])) = some t →
    t.books = m.books
  /-- Between two calls every core counts the live workers that are pinned to it. -/
  counts : ∀ pre post m, tr = pre ++ post → run (init table) pre = some m → m.ctrl = .idle →
    ∀ c ∈ m.cores, c.workers = m.workers.countP fun w => w.cpuId = c.id
  /-- And the number of workers is the length of the list and the thread count. -/
  sizes : ∀ pre post m, tr = pre ++ post → run (init table) pre = some m → m.ctrl = .idle →
    m.noWorkers = m.workers.length ∧ m.barrier.noThreads = m.workers.length

theorem charged_ne {b : Books} {core : Nat} (h : core < b.cores.length) : b.charged core ≠ b := by
  intro he
  have hcore := congrArg (fun b => (b.cores[core]?).map CpuInfo.workers) he
  simp only [Books.charged, List.getElem?_modify_eq, List.getElem?_eq_getElem h, Option.map_some,
    Option.map_eq_map, incWorkers_workers, Option.some.injEq] at hcore
  omega

theorem first_ret {l : List Label} (h : ∃ r, .ret r ∈ l) :
    ∃ mid r rest, l = mid ++ .ret r :: rest ∧ ∀ r, .ret r ∉ mid := by
  induction l with
  | nil => simp at h
  | cons x l ih =>
    by_cases hx : ∃ r, x = .ret r
    · obtain ⟨r, rfl⟩ := hx
      exact ⟨[], r, l, rfl, by simp⟩
    · push Not at hx
      obtain ⟨r, hr⟩ := h
      obtain ⟨mid, r', rest, rfl, hmid⟩ := ih ⟨r, by simpa [(hx r).symm] using hr⟩
      exact ⟨x :: mid, r', rest, rfl, fun q => by simp [hmid q, (hx q).symm]⟩

/-- A call whose `run` fails returns with an error and with a core charged for nothing. -/
theorem charged_of_runFails (hm : run (init table) pre = some m) (hf : RunFails m.cores a)
    (h : run m (.call (.addWorker a) :: post) = some s) (hc : s.ctrl = .idle) :
    ∃ mid status apple rest t core, post = mid ++ .ret (.addWorker (status, apple)) :: rest ∧
      (∀ r, .ret r ∉ mid) ∧ status ≠ .ok ∧
      run m (.call (.addWorker a) :: (mid ++ [.ret (.addWorker (status, apple))])) = some t ∧
      core < m.cores.length ∧ t.books = m.books.charged core := by
  obtain ⟨u, hu, hpost⟩ := Exec.run_cons_split h
  obtain ⟨hsound, hin⟩ := call_inAdd hm hu
  have hret : ∃ r, .ret r ∈ post := by
    by_contra hno
    push Not at hno
    have hend := inAdd_run hin hsound hno hpost
    rw [hc] at hend
    exact hend
  obtain ⟨mid, r, rest, rfl, hmid⟩ := first_ret hret
  obtain ⟨v, hv, hrest⟩ := Exec.run_split hpost
  obtain ⟨t, hstep, -⟩ := Exec.run_cons_split hrest
  obtain ⟨status, apple, rfl, hcases⟩ := (inAdd_run hin hsound hmid hv).ret hstep
  have hrun : run m (.call (.addWorker a) :: (mid ++ [.ret (.addWorker (status, apple))])) =
      some t :=
    (Exec.run_cons_some _ hu).trans (Exec.run_join hv (by simp [Exec.run_cons, hstep]))
  rcases hcases with ⟨hnone, -⟩ | ⟨core, hfail, hstatus, hb⟩ | ⟨core, ⟨info, -, -, hok, -⟩, -⟩ | ⟨hok, -⟩
  · exact absurd hnone hf.1
  · exact ⟨mid, status, apple, rest, t, core, rfl, hmid, hstatus, hrun, hfail.1, hb⟩
  · exact absurd hok (runFails_iff.mp hf).2
  · exact absurd hok (runFails_iff.mp hf).2

/-- A call whose `run` does not fail, but that returns an error, leaves the books alone. -/
theorem books_of_error (hm : run (init table) pre = some m) (hf : ¬ RunFails m.cores a)
    (hmid : ∀ r, .ret r ∉ mid) {status : WorkerPoolStatus} {apple : AppleThreadingStatus}
    (hstatus : status ≠ .ok)
    (h : run m (.call (.addWorker a) :: (mid ++ [.ret (.addWorker (status, apple))])) = some t) :
    t.books = m.books := by
  obtain ⟨u, hu, h⟩ := Exec.run_cons_split h
  obtain ⟨hsound, hin⟩ := call_inAdd hm hu
  obtain ⟨v, hv, h⟩ := Exec.run_split h
  obtain ⟨w, hstep, h⟩ := Exec.run_cons_split h
  obtain rfl : w = t := by simpa using h
  obtain ⟨status', apple', he, hcases⟩ := (inAdd_run hin hsound hmid hv).ret hstep
  cases he
  rcases hcases with ⟨-, -, hb⟩ | ⟨core, ⟨-, hcore, hrun⟩, -⟩ | ⟨core, -, hok⟩ | ⟨-, -, hb⟩
  · exact hb
  · have hknown : coreInfo m.cores a.cpuId ≠ none := by
      rw [show m.cores = m.books.cores from rfl, hcore]
      simp
    exact absurd (runFails_iff.mpr ⟨hknown, hrun⟩) hf
  · exact absurd hok hstatus
  · exact hb

/-- Over a finished history of calls the bookkeeping is right if and only if no `add_worker`
got as far as a `WorkerThread::run` that failed. -/
theorem bookkept_iff {build : CoreTable.Build} {cores : Int}
    (htable : CoreTable.poolCores build cores = .ok table) (h : run (init table) tr = some s)
    (hc : s.ctrl = .idle) : Bookkept table tr ↔ NoRunFails table tr := by
  constructor
  · rintro hbook pre a post m rfl hm hf
    obtain ⟨m', hm', hrun⟩ := Exec.run_split h
    obtain rfl : m = m' := Option.some.inj (hm.symm.trans hm')
    obtain ⟨mid, status, apple, rest, t, core, rfl, hmid, hstatus, ht, hcore, hb⟩ :=
      charged_of_runFails hm hf hrun hc
    have he := hbook.failures pre a mid status apple rest m t rfl hmid hstatus hm ht
    exact charged_ne (b := m.books) hcore (hb.symm.trans he)
  · intro hno
    have hpre : ∀ pre post, tr = pre ++ post → NoRunFails table pre := by
      rintro pre post rfl pre' a post' m rfl hm
      exact hno pre' a (post' ++ post) m (by simp) hm
    constructor
    case failures =>
      intro pre a mid status apple post m t he hmid hstatus hm ht
      exact books_of_error hm (hno pre a _ m he hm) hmid hstatus ht
    case counts =>
      intro pre post m he hm hidle c hcore
      have hp := pinned_of_idle (CoreTable.poolCores_fresh htable) hm (hpre pre post he) hidle
      have := hp.2.2 c hcore
      simpa [State.books, List.countP_map, Function.comp_def] using this
    case sizes =>
      intro pre post m he hm hidle
      obtain ⟨hn, hw⟩ := sound_of_idle hm hidle
      simp only [State.books, List.length_map] at hn hw
      exact ⟨hw, hn.trans hw⟩

end Histories

/-- One worker is added, and then a call fails on its priority. -/
def wrongPriorityRun : List Label :=
  addWorkerRun ⟨0, 75, none, 0, 0, .ok⟩ 0 ++
    [.call (.addWorker ⟨0, 102, none, 0, 0, .ok⟩), .ctrl, .ctrl, .ctrl,
      .ret (.addWorker (.invalidArguments, .ok))]

theorem bookkept_iff_wrongPriority :
    Bookkept (CoreTable.buildCoreList 0 2) wrongPriorityRun ↔
      NoRunFails (CoreTable.buildCoreList 0 2) wrongPriorityRun := by
  have htable : CoreTable.poolCores .plain 2 = .ok (CoreTable.buildCoreList 0 2) := rfl
  exact bookkept_iff htable
    (s := (run (init (CoreTable.buildCoreList 0 2)) wrongPriorityRun).getD (init [])) rfl rfl

/-- The core of the worker that was never started stays charged. -/
theorem wrong_priority_charges_core :
    ¬ Bookkept (CoreTable.buildCoreList 0 2) wrongPriorityRun := by
  intro h
  have hbooks := h.failures (addWorkerRun ⟨0, 75, none, 0, 0, .ok⟩ 0) ⟨0, 102, none, 0, 0, .ok⟩
    [.ctrl, .ctrl, .ctrl] .invalidArguments .ok [] _ _ rfl (by simp) (by decide) rfl rfl
  exact absurd hbooks (by decide)

end Twine.Pool
