import Twine.PoolProgress
import Twine.PoolRounds
import Mathlib.Algebra.GroupWithZero.Nat

/-!
# The destructor

From the store to `_running` on, nobody is on the way to a callback: the workers
are parked on the semaphore of the final release, or past it and on their way
out of the loop. `State.remaining` counts the steps that are left; every step
takes one of them, and there is one to take until everybody has been joined.
-/
namespace Twine.Pool

open Placement

/-- The steps that a worker has left once `_running` is false. -/
def WorkerPc.remaining : WorkerPc → Nat
  | .parked _ => 3
  | .woken => 2
  | .breaking => 1
  | _ => 0

/-- The steps of the destructor after its release, with `n` threads to join. -/
def Ctrl.remaining (n noThreads : Nat) : Ctrl → Nat
  | .posting _ _ i => (noThreads - i) + (n + 2)
  | .joining i => n + 1 - i
  | _ => 0

def State.remaining (s : State) : Nat :=
  (s.workers.map fun w => w.pc.remaining).sum +
    s.ctrl.remaining s.workers.length s.barrier.noThreads

/-- The program points of the destructor after its release. -/
def Ctrl.Final (n : Nat) : Ctrl → Prop
  | .posting .destructor _ _ | .destroyed => True
  | .joining i => i ≤ n
  | _ => False

theorem Ctrl.Final.shutdown {n : Nat} {c : Ctrl} (h : c.Final n) : c.shutdown = true := by
  cases c with
  | posting k => cases k <;> first | rfl | exact h.elim
  | joining | destroyed => rfl
  | _ => exact h.elim

theorem Inv.not_running {s : State} (h : Inv s) (hf : s.ctrl.Final s.workers.length) :
    s.running = false := by
  rw [h.running, hf.shutdown]
  rfl

theorem remaining_set {ws : List WorkerThread} {i : Nat} {w : WorkerThread} (w' : WorkerThread)
    (h : ws[i]? = some w) :
    ((ws.set i w').map fun w => w.pc.remaining).sum + w.pc.remaining =
      (ws.map fun w => w.pc.remaining).sum + w'.pc.remaining := by
  induction ws generalizing i with
  | nil => simp at h
  | cons v ws ih =>
    cases i with
    | zero =>
      simp only [List.getElem?_cons_zero, Option.some.injEq] at h
      subst h
      simp only [List.set_cons_zero, List.map_cons, List.sum_cons]
      omega
    | succ i =>
      have := ih h
      simp only [List.set_cons_succ, List.map_cons, List.sum_cons]
      omega

theorem localStep_shutdown {w w' : WorkerThread} {a : WorkerAct} (hok : WorkerOk false w)
    (hl : w.localStep false a = some w') :
    w.pc.remaining = w'.pc.remaining + 1 ∧ w.pc ≠ .exited ∧ (w'.pc = .exited ↔ a = .leave) ∧
      (a = .take ∨ a = .loadPoolRunning ∨ a = .leave) := by
  cases localStep_local hl with
  | loadPoolRunning hpc | leave hpc => simp [hpc, WorkerPc.remaining]
  | init hpc | loadThreadRunning hpc | callbackStart hpc | callbackEnd hpc =>
    simp [WorkerOk, hpc] at hok

/-- With `_running` false a worker can only take its token, see the flag, and leave. -/
theorem worker_shutdown {s t : State} (h : Inv s) (hrun : s.running = false) {i : Nat}
    {a : WorkerAct} (ha : a ≠ .interrupted) (hstep : step s (.worker i a) = some t) :
    ∃ w w', s.workers[i]? = some w ∧ t.workers = s.workers.set i w' ∧ t.ctrl = s.ctrl ∧
      t.barrier.noThreads = s.barrier.noThreads ∧ w.pc.remaining = w'.pc.remaining + 1 ∧
      w.pc ≠ .exited ∧ (w'.pc = .exited ↔ a = .leave) ∧
      (a = .take ∨ a = .loadPoolRunning ∨ a = .leave) := by
  obtain ⟨w, hw, ⟨-, hpc, -, -⟩ | ⟨rfl, sem, hpc, -, rfl⟩ | hi | ⟨w', hl, rfl⟩⟩ :=
    worker_cases hstep
  · have hok := h.workerOk w (List.mem_of_getElem? hw)
    simp [WorkerOk, hpc, hrun] at hok
  · exact ⟨w, { w with pc := .woken }, hw, rfl, rfl, rfl, by simp [hpc, WorkerPc.remaining],
      by simp [hpc], by simp, .inl rfl⟩
  · exact absurd hi.1 ha
  · have hok := h.workerOk w (List.mem_of_getElem? hw)
    rw [hrun] at hl hok
    exact ⟨w, w', hw, rfl, rfl, rfl, localStep_shutdown hok hl⟩

theorem ctrl_shutdown {s t : State} (h : Inv s) (hf : s.ctrl.Final s.workers.length)
    (hstep : ctrlStep s = some t) :
    t.workers = s.workers ∧ t.ctrl.Final s.workers.length ∧ s.remaining = t.remaining + 1 := by
  have hat := h.ctrlAt
  have hsize := h.size
  cases ctrl_cases hstep with
  | @post k _ _ hc hi =>
    rw [hc] at hf
    cases k <;> simp only [Ctrl.Final] at hf
    refine ⟨rfl, trivial, ?_⟩
    simp only [State.remaining, hc, Ctrl.remaining, Barrier.signal]
    omega
  | @posted k _ _ hc hi =>
    rw [hc] at hf
    cases k <;> simp only [Ctrl.Final] at hf
    simp only [hc, Ctrl.At, Ctrl.popped, Ctrl.raised, Nat.add_zero] at hat hsize
    refine ⟨rfl, Nat.zero_le _, ?_⟩
    simp only [State.remaining, hc, Ctrl.remaining, State.setCtrl, Releaser.next]
    omega
  | join hc hw =>
    have hi := (List.getElem?_eq_some_iff.mp hw).1
    refine ⟨rfl, hi, ?_⟩
    simp only [State.remaining, hc, Ctrl.remaining, State.setCtrl]
    omega
  | joined hc hnone =>
    rw [hc] at hf
    have hi := List.getElem?_eq_none_iff.mp hnone
    refine ⟨rfl, trivial, ?_⟩
    simp only [Ctrl.Final] at hf
    simp only [State.remaining, hc, Ctrl.remaining, State.setCtrl]
    omega
  | sleep hc | proceed hc =>
    rcases hc with hc | hc <;> simp [hc, Ctrl.Final] at hf
  | _ hc => simp [hc, Ctrl.Final] at hf

/-- Every step after the final release takes one of the steps that are left. -/
theorem shutdown_step {s t : State} {l : Label} (h : Inv s) (hf : s.ctrl.Final s.workers.length)
    (hi : l.interrupts = false) (hstep : step s l = some t) :
    t.workers.length = s.workers.length ∧ t.ctrl.Final t.workers.length ∧
      s.remaining = t.remaining + 1 := by
  cases l with
  | call c => simp [(call_idle hstep).1, Ctrl.Final] at hf
  | ret r => simp [(ret_returning hstep).1, Ctrl.Final] at hf
  | release =>
    obtain ⟨k, hc, -⟩ := release_releasing hstep
    simp [hc, Ctrl.Final] at hf
  | spurious =>
    obtain ⟨k, hc, -⟩ := spurious_asleep hstep
    simp [hc, Ctrl.Final] at hf
  | ctrl =>
    obtain ⟨hws, hft, hrem⟩ := ctrl_shutdown h hf hstep
    exact ⟨by rw [hws], by rwa [hws], hrem⟩
  | worker i a =>
    have ha : a ≠ .interrupted := interrupts_worker.mp hi
    obtain ⟨w, w', hw, hws, hc, hn, hrem, -⟩ := worker_shutdown h (h.not_running hf) ha hstep
    have hsum := remaining_set w' hw
    refine ⟨by simp [hws], by simpa [hws, hc] using hf, ?_⟩
    simp only [State.remaining, hws, hc, hn, List.length_set]
    omega

/-- The worker that the destructor joins is not registered, so it can go on. -/
theorem Inv.canStep_of_joining {s : State} (h : Inv s) {n i : Nat} {w : WorkerThread}
    (hc : s.ctrl = .joining n) (hw : s.workers[i]? = some w) (hexit : w.pc ≠ .exited) :
    CanStep s i := by
  have hat := h.ctrlAt
  have hcount := h.registered
  simp only [hc, Ctrl.At] at hat
  rw [hat.1] at hcount
  exact h.canStep (by simp [hc, Ctrl.holdsMutex]) hw
    (parkedOn_eq_zero.mp hcount.symm w (List.mem_of_getElem? hw)) hexit

/-- Until everything is joined, somebody has a step left. -/
theorem Inv.shutdown_progress {s : State} (h : Inv s) (hf : s.ctrl.Final s.workers.length)
    (hc : s.ctrl ≠ .destroyed) : ∃ l, l.interrupts = false ∧ (step s l).isSome = true := by
  cases hcs : s.ctrl <;> rw [hcs] at hf <;> simp only [Ctrl.Final] at hf
  case destroyed => exact absurd hcs hc
  case posting k sem i =>
    refine ⟨.ctrl, rfl, ?_⟩
    simp only [step, Pool.ctrlStep, hcs]
    split <;> rfl
  case joining i =>
    cases hw : s.workers[i]? with
    | none => exact ⟨.ctrl, rfl, by simp [step, Pool.ctrlStep, hcs, hw]⟩
    | some w =>
      by_cases hexit : w.pc = .exited
      · exact ⟨.ctrl, rfl, by simp [step, Pool.ctrlStep, hcs, hw, hexit]⟩
      · obtain ⟨a, ha, hstep⟩ := h.canStep_of_joining hcs hw hexit
        exact ⟨.worker i a, interrupts_worker.mpr ha, hstep⟩

/-! ## Runs of the destructor -/

/-- How often each worker has left its loop since the final release. -/
def LeftOnce (s : State) (mid : List Label) : Prop :=
  ∀ i w, s.workers[i]? = some w →
    mid.count (.worker i .leave) = if w.pc = .exited then 1 else 0

theorem LeftOnce.step {s t : State} {l : Label} {mid : List Label} (hleft : LeftOnce s mid)
    (h : Inv s) (hf : s.ctrl.Final s.workers.length) (hi : l.interrupts = false)
    (hstep : step s l = some t) : LeftOnce t (mid ++ [l]) := by
  intro j v hv
  rw [List.count_append]
  cases l with
  | call c => simp [(call_idle hstep).1, Ctrl.Final] at hf
  | ret r => simp [(ret_returning hstep).1, Ctrl.Final] at hf
  | release =>
    obtain ⟨k, hc, -⟩ := release_releasing hstep
    simp [hc, Ctrl.Final] at hf
  | spurious =>
    obtain ⟨k, hc, -⟩ := spurious_asleep hstep
    simp [hc, Ctrl.Final] at hf
  | ctrl =>
    rw [(ctrl_shutdown h hf hstep).1] at hv
    simpa using hleft j v hv
  | worker i a =>
    have ha : a ≠ .interrupted := interrupts_worker.mp hi
    obtain ⟨w, w', hw, hws, -, -, -, hexit, hleave, -⟩ :=
      worker_shutdown h (h.not_running hf) ha hstep
    rw [hws] at hv
    rcases getElem?_set_cases hw hv with ⟨rfl, rfl⟩ | ⟨hj, hv⟩
    · have := hleft j w hw
      rw [if_neg hexit] at this
      by_cases hl : a = .leave
      · simp [this, hl, hleave.mpr hl]
      · simp [this, hl, mt hleave.mp hl]
    · have hij : i ≠ j := fun he => hj he.symm
      simpa [hij] using hleft j v hv

/-- `_running` is never set again. -/
theorem running_stays_false {s t : State} {l : Label} (hrun : s.running = false)
    (hstep : step s l = some t) : t.running = false := by
  cases l with
  | call c => rw [(call_idle hstep).2]; exact hrun
  | ret r => rw [(ret_returning hstep).2]; exact hrun
  | release => obtain ⟨k, -, rfl⟩ := release_releasing hstep; exact hrun
  | spurious => obtain ⟨k, -, rfl⟩ := spurious_asleep hstep; exact hrun
  | ctrl =>
    change ctrlStep s = some t at hstep
    cases ctrl_cases hstep <;> first
      | rfl
      | exact hrun
  | worker i a =>
    obtain ⟨w, -, ⟨-, -, -, rfl⟩ | ⟨-, sem, -, -, rfl⟩ | ⟨-, sem, -, rfl⟩ | ⟨w', -, rfl⟩⟩ :=
      worker_cases hstep
    all_goals exact hrun

theorem callback_running {s t : State} (h : Inv s) {i : Nat} {a : WorkerAct}
    (hstep : step s (.worker i a) = some t) (ha : a = .callbackStart ∨ a = .callbackEnd) :
    s.running = true := by
  obtain ⟨w, hw, hcases⟩ := worker_cases hstep
  have hok := h.workerOk w (List.mem_of_getElem? hw)
  rcases ha with rfl | rfl
  all_goals
    simp only [reduceCtorEq, false_and, false_or] at hcases
    obtain ⟨w', hl, -⟩ := hcases
    cases localStep_local hl
    rename_i hpc
    simp only [WorkerOk, hpc] at hok
    exact hok.1

section Shutdown

variable {cores : List CoreTable.CpuInfo} {tr pre mid post : List Label} {s m v : State}

/-- The steps after the final release: each of them leaves one step less, and a worker is
out of its loop when it has left it once. -/
theorem after_final_release (hm : run (init cores) pre = some m)
    (hc : m.ctrl = .releasing .destructor)
    (h : Exec.Guarded step Uninterrupted (init cores) (pre ++ .release :: post) s) :
    s.ctrl.Final s.workers.length ∧ s.workers.length = m.workers.length ∧
      post.length + s.remaining = 5 * m.workers.length + 2 ∧ LeftOnce s post ∧
      ∀ i a, .worker i a ∈ post → a = .take ∨ a = .loadPoolRunning ∨ a = .leave := by
  obtain ⟨m', u, hm', -, hstep, hu, -⟩ := h.cut
  obtain rfl : m = m' := Option.some.inj (hm.symm.trans hm'.run)
  rw [show pre ++ .release :: post = (pre ++ [.release]) ++ post by simp] at h
  refine Exec.Guarded.segment (J := fun mid u => u.ctrl.Final u.workers.length ∧
    u.workers.length = m.workers.length ∧
    mid.length + u.remaining = 5 * m.workers.length + 2 ∧ LeftOnce u mid ∧
    ∀ i a, .worker i a ∈ mid → a = .take ∨ a = .loadPoolRunning ∨ a = .leave) hu ?_ ?_ h
  · have hinv := guarded_inv hm'
    obtain ⟨k, hk, rfl⟩ := release_releasing hstep
    obtain rfl : k = .destructor := by simpa [hc] using hk.symm
    have hat := hinv.ctrlAt
    have hsize := hinv.size
    simp only [hc, Ctrl.At, Ctrl.popped, Ctrl.raised, Nat.add_zero] at hat hsize
    have hall := hinv.all_parked hat.1 hsize
    have hsum : (m.workers.map fun w => w.pc.remaining).sum = 3 * m.workers.length := by
      rw [List.map_congr_left (g := fun _ => 3) fun w hw => by simp [hall w hw, WorkerPc.remaining]]
      simp [Nat.mul_comm]
    refine ⟨trivial, rfl, ?_, fun i w hw => ?_, by simp⟩
    · simp only [State.remaining, hsum, Ctrl.remaining, Barrier.release, List.length_nil, hsize]
      omega
    · simp [hall w (List.mem_of_getElem? hw)]
  · rintro mid u l t hu ⟨hf, hlen, hrem, hleft, hacts⟩ hg hstep
    have hinv := guarded_inv hu
    obtain ⟨hlen', hf', hrem'⟩ := shutdown_step hinv hf hg.1 hstep
    refine ⟨hf', by omega, ?_, hleft.step hinv hf hg.1 hstep, fun i a hmem => ?_⟩
    · simp only [List.length_append, List.length_singleton]
      omega
    · rcases List.mem_append.mp hmem with hmem | hmem
      · exact hacts i a hmem
      · obtain rfl := List.mem_singleton.mp hmem
        have ha : a ≠ .interrupted := interrupts_worker.mp hg.1
        obtain ⟨w, w', -, -, -, -, -, -, -, hact⟩ :=
          worker_shutdown hinv (hinv.not_running hf) ha hstep
        exact hact

/-- No callback starts or ends after the store to `_running`. -/
theorem no_callback_after_store (hm : run (init cores) pre = some m) (hrun : m.running = false)
    (h : Exec.Guarded step Uninterrupted (init cores) (pre ++ post) s) (i : Nat) :
    callbacksOf i post = [] := by
  have hJ := Exec.Guarded.segment (J := fun mid u => u.running = false ∧ callbacksOf i mid = [])
    (h.prefix_unique hm) ⟨hrun, rfl⟩ ?_ h
  · exact hJ.2
  · rintro mid u l t hu ⟨hrun, hnone⟩ hg hstep
    refine ⟨running_stays_false hrun hstep, ?_⟩
    have hl : ∀ a, a = .callbackStart ∨ a = .callbackEnd → l ≠ .worker i a := by
      rintro a ha rfl
      have := callback_running (guarded_inv hu) hstep ha
      simp [hrun] at this
    rw [callbacksOf, List.filter_append, ← callbacksOf, hnone]
    simp [hl .callbackStart (.inl rfl), hl .callbackEnd (.inr rfl)]

/-- Who runs its callback in the round that a release in this state opens. -/
def State.due (s : State) (i : Nat) : Bool :=
  s.running && (s.workers[i]?).any fun w => w.threadRunning

/-- The shutdown of a pool, at any moment `s` of any run. -/
structure CleanShutdown (cores : List CoreTable.CpuInfo) (tr : List Label) (s : State) : Prop where
  /-- A round is complete when the next one is released, and before the destructor clears
  `_running`: everybody who was due has run once, and nobody else has. -/
  rounds : ∀ pre mid post m v, tr = pre ++ .release :: (mid ++ post) →
    run (init cores) pre = some m → run (init cores) (pre ++ .release :: mid) = some v →
    .release ∉ mid → (v.ctrl = .storingRunning ∨ post.head? = some .release) →
    ∀ i, callbacksOf i mid = if m.due i = true then oneCallback i else []
  /-- All workers are due when a wakeup releases them. -/
  wakeups : ∀ pre post m, tr = pre ++ .release :: post → run (init cores) pre = some m →
    m.ctrl = .releasing .wakeupWorkers ∨ m.ctrl = .releasing .wakeupAndWait →
    ∀ i < m.workers.length, m.due i = true
  /-- No callback after the store to `_running`. -/
  stored : ∀ pre post m, tr = pre ++ post → run (init cores) pre = some m → m.running = false →
    ∀ i, callbacksOf i post = []
  /-- After the final release a worker only takes its token, sees the flag and leaves, once. -/
  leaves : ∀ pre post m, tr = pre ++ .release :: post → run (init cores) pre = some m →
    m.ctrl = .releasing .destructor → s.workers.length = m.workers.length ∧ LeftOnce s post ∧
      ∀ i a, .worker i a ∈ post → a = .take ∨ a = .loadPoolRunning ∨ a = .leave
  /-- The final release is followed by a bounded number of steps, and until the destructor
  is through there is one. -/
  ends : ∀ pre post m, tr = pre ++ .release :: post → run (init cores) pre = some m →
    m.ctrl = .releasing .destructor → post.length ≤ 5 * m.workers.length + 2 ∧
      (s.ctrl ≠ .destroyed → ∃ l, l.interrupts = false ∧ (step s l).isSome = true)
  /-- The destructor never joins a blocked worker. -/
  joins : ∀ i w, s.ctrl = .joining i → s.workers[i]? = some w →
    ¬ Blocked s w ∧ (w.pc = .exited ∨ CanStep s i)
  /-- When the barrier is destroyed everybody has left, and no worker has a step. -/
  destroyed : s.ctrl = .destroyed →
    (∀ w ∈ s.workers, w.pc = .exited) ∧ ∀ i a, step s (.worker i a) = none

theorem due_iff {i : Nat} :
    (∃ w, s.workers[i]? = some w ∧ s.running = true ∧ w.threadRunning = true) ↔
      s.due i = true := by
  cases hw : s.workers[i]? <;> simp [State.due, hw]

theorem rounds_complete (h : Exec.Guarded step Uninterrupted (init cores)
      (pre ++ .release :: (mid ++ post)) s)
    (hm : run (init cores) pre = some m) (hv : run (init cores) (pre ++ .release :: mid) = some v)
    (hmid : .release ∉ mid) (hend : v.ctrl = .storingRunning ∨ post.head? = some .release)
    (i : Nat) : callbacksOf i mid = if m.due i = true then oneCallback i else [] := by
  obtain ⟨m', u, hm', -, hstep, -, -⟩ := h.cut
  obtain rfl : m = m' := Option.some.inj (hm.symm.trans hm'.run)
  rw [show pre ++ .release :: (mid ++ post) = (pre ++ .release :: mid) ++ post by simp] at h
  have hgv := h.prefix_unique hv
  have hinv := guarded_inv hgv
  have hrest : AtRest v ∧ v.barrier.noThreads = v.workers.length := by
    have hat := hinv.ctrlAt
    have hsize := hinv.size
    rcases hend with hc | hhead
    · simp only [hc, Ctrl.At, Ctrl.popped, Ctrl.raised, Nat.add_zero] at hat hsize
      exact ⟨hat, hsize⟩
    · obtain ⟨post, rfl⟩ := List.head?_eq_some_iff.mp hhead
      obtain ⟨v', w, hv', -, hrel, -, -⟩ := h.cut
      obtain rfl : v = v' := Option.some.inj (hv.symm.trans hv'.run)
      obtain ⟨k, hc, -⟩ := release_releasing hrel
      simp only [hc, Ctrl.At, Ctrl.popped, Ctrl.raised, Nat.add_zero] at hat hsize
      exact ⟨hat.1, hsize⟩
  have hall : AllRegistered v := hinv.all_parked hrest.1 hrest.2
  rw [round_complete hm' hstep hgv hmid hall.phases_idle i]
  simp only [due_iff]

theorem due_of_wakeup (h : Inv m)
    (hc : m.ctrl = .releasing .wakeupWorkers ∨ m.ctrl = .releasing .wakeupAndWait) {i : Nat}
    (hi : i < m.workers.length) : m.due i = true := by
  have hrun := h.running
  have hst := h.stopped i m.workers[i] (List.getElem?_eq_getElem hi)
  rcases hc with hc | hc <;> rw [hc] at hrun hst <;>
    simpa [State.due, hi, hrun, Ctrl.shutdown, Ctrl.stopped] using hst

theorem Inv.joins (h : Inv s) {i : Nat} {w : WorkerThread} (hc : s.ctrl = .joining i)
    (hw : s.workers[i]? = some w) : ¬ Blocked s w ∧ (w.pc = .exited ∨ CanStep s i) := by
  by_cases hexit : w.pc = .exited
  · refine ⟨?_, .inl hexit⟩
    rintro ⟨sem, hpc, -⟩
    simp [hpc] at hexit
  · have hcan := h.canStep_of_joining hc hw hexit
    exact ⟨hcan.not_blocked hw, .inr hcan⟩

theorem exited_no_step (h : ∀ w ∈ s.workers, w.pc = .exited) (i : Nat) (a : WorkerAct) :
    step s (.worker i a) = none := by
  simp only [step]
  split
  · rfl
  · rename_i w hw
    have hpc := h w (List.mem_of_getElem? hw)
    cases a <;> simp [workerStep, WorkerThread.localStep, hpc]

/-- If no `semaphore_wait` fails, every run of a controller that waits for each round before the
next wakeup shuts down cleanly, from whatever state the destructor is called in. -/
theorem clean_shutdown (h : Exec.Guarded step Uninterrupted (init cores) tr s) :
    CleanShutdown cores tr s := by
  have hinv := guarded_inv h
  constructor
  case rounds =>
    rintro pre mid post m v rfl hm hv hmid hend
    exact rounds_complete h hm hv hmid hend
  case wakeups =>
    rintro pre post m rfl hm hc i hi
    exact due_of_wakeup (guarded_inv (h.prefix_unique hm)) hc hi
  case stored =>
    rintro pre post m rfl hm hrun
    exact no_callback_after_store hm hrun h
  case leaves =>
    rintro pre post m rfl hm hc
    obtain ⟨-, hlen, -, hleft, hacts⟩ := after_final_release hm hc h
    exact ⟨hlen, hleft, hacts⟩
  case ends =>
    rintro pre post m rfl hm hc
    obtain ⟨hf, -, hrem, -⟩ := after_final_release hm hc h
    exact ⟨by omega, hinv.shutdown_progress hf⟩
  case joins =>
    intro i w hc hw
    exact hinv.joins hc hw
  case destroyed =>
    intro hc
    have hat := hinv.ctrlAt
    rw [hc] at hat
    exact ⟨hat, exited_no_step hat⟩

end Shutdown

/-- The destructor is called before the worker has taken its token. -/
def shutdownRun : List Label :=
  addWorkerRun ⟨0, 75, none, 0, 0, .ok⟩ 0 ++
    [.call .wakeupWorkers, .release, .ctrl, .ctrl, .ret .wakeupWorkers, .call .destroy, .ctrl] ++
    callbackRun 0 ++ [.ctrl, .ctrl, .release, .ctrl, .ctrl, .worker 0 .take,
      .worker 0 .loadPoolRunning, .worker 0 .leave, .ctrl, .ctrl]

theorem clean_shutdown_one : ∃ s, run (init (CoreTable.buildCoreList 0 1)) shutdownRun = some s ∧
    s.ctrl = .destroyed ∧ CleanShutdown (CoreTable.buildCoreList 0 1) shutdownRun s := by
  obtain ⟨s, hs⟩ := Exec.guarded_of_isSome step Uninterrupted
    (init (CoreTable.buildCoreList 0 1)) shutdownRun (by decide)
  have hc : s.ctrl = .destroyed := by
    obtain rfl := Option.some.inj hs.run
    rfl
  exact ⟨s, hs.run, hc, clean_shutdown hs⟩

/-- A join on a blocked worker is the end of the run when nobody else has a step. -/
theorem no_step_in_join {s : State} {i : Nat} {w : WorkerThread} (hc : s.ctrl = .joining i)
    (hw : s.workers[i]? = some w) (hblocked : Blocked s w)
    (hothers : ∀ j, j ≠ i → ∀ a, step s (.worker j a) = none) {l : Label}
    (hl : l.interrupts = false) : step s l = none := by
  cases l with
  | worker j a =>
    by_cases hj : j = i
    · subst hj
      exact hblocked.no_step hw (interrupts_worker.mp hl)
    · exact hothers j hj a
  | ctrl =>
    obtain ⟨sem, hpc, -⟩ := hblocked
    simp [step, ctrlStep, hc, hw, hpc]
  | _ => simp [step, hc]

/-- The first worker is interrupted while the second one is being added, and registers a second
time: the barrier is full before the second worker has got there. It registers after the final
release, on the other semaphore. -/
def hangRun : List Label :=
  addWorkerRun ⟨0, 75, none, 0, 0, .ok⟩ 0 ++
    [.call (.addWorker ⟨0, 75, none, 0, 0, .ok⟩), .ctrl, .ctrl] ++
    .worker 0 .interrupted :: (callbackRun 0).drop 1 ++
    [.ctrl, .ctrl, .ret (.addWorker (.ok, .ok)), .call .destroy, .ctrl, .ctrl, .release,
      .ctrl, .ctrl, .ctrl, .worker 0 .take, .worker 0 .loadPoolRunning, .worker 0 .leave, .ctrl,
      .worker 1 .init, .worker 1 .register]

/-- The destructor joins a worker that no token will ever wake. -/
theorem interrupted_wait_hangs_join :
    ∃ s, Exec.Guarded step Disciplined (init (CoreTable.buildCoreList 0 2)) hangRun s ∧
      s.ctrl = .joining 1 ∧ (∃ w, s.workers[1]? = some w ∧ Blocked s w) ∧
      (∀ l, l.interrupts = false → step s l = none) ∧
      ¬ CleanShutdown (CoreTable.buildCoreList 0 2) hangRun s := by
  obtain ⟨s, hs⟩ := Exec.guarded_of_isSome step Disciplined
    (init (CoreTable.buildCoreList 0 2)) hangRun (by decide)
  have hc : s.ctrl = .joining 1 := by
    obtain rfl := Option.some.inj hs.run
    rfl
  have hblocked : ∃ w, s.workers[1]? = some w ∧ Blocked s w := by
    obtain rfl := Option.some.inj hs.run
    exact ⟨_, rfl, 1, rfl, rfl⟩
  obtain ⟨w, hw, hwait⟩ := hblocked
  have hothers : ∀ j, j ≠ 1 → ∀ a, step s (.worker j a) = none := by
    intro j hj a
    obtain rfl := Option.some.inj hs.run
    match j with
    | 0 => cases a <;> rfl
    | 1 => exact absurd rfl hj
    | _ + 2 => rfl
  exact ⟨s, hs, hc, ⟨w, hw, hwait⟩, fun l hl => no_step_in_join hc hw hwait hothers hl,
    fun h => (h.joins 1 w hc hw).1 hwait⟩

end Twine.Pool
