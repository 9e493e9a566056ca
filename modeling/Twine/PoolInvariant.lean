import Twine.Pool

/-!
# The invariant of a worker pool

`Inv` ties the counters of the barrier to the program points of the workers:
the count is the number of workers parked on the active semaphore, which holds
no token; the other semaphore holds one token, posted or still to be posted,
for every worker that is parked on it. The remaining clauses relate the thread
counts, the two running flags and the controller's program point. `step_inv`
covers every step but an interrupted `semaphore_wait`, under the one assumption
that a wakeup is called when all workers are registered.
-/
namespace Twine.Pool

open Placement

/-! ## The two semaphores -/

@[simp] theorem other_ne (a : Fin 2) : 1 - a ≠ a := by revert a; decide
@[simp] theorem ne_other (a : Fin 2) : a ≠ 1 - a := by revert a; decide
@[simp] theorem other_other (a : Fin 2) : 1 - (1 - a) = a := by revert a; decide

theorem eq_other_of_ne {a q : Fin 2} (h : q ≠ a) : q = 1 - a := by revert a q; decide

/-! ## Counting parked workers -/

def parkedOn (ws : List WorkerThread) (sem : Fin 2) : Nat :=
  ws.countP fun w => w.pc = .parked sem

theorem parkedOn_le (ws : List WorkerThread) (sem : Fin 2) : parkedOn ws sem ≤ ws.length :=
  List.countP_le_length

theorem parkedOn_set {ws : List WorkerThread} {i : Nat} {w : WorkerThread} (w' : WorkerThread)
    (h : ws[i]? = some w) (sem : Fin 2) :
    parkedOn (ws.set i w') sem + (if w.pc = .parked sem then 1 else 0) =
      parkedOn ws sem + (if w'.pc = .parked sem then 1 else 0) := by
  obtain ⟨hi, rfl⟩ := List.getElem?_eq_some_iff.mp h
  have hpos : ws[i].pc = .parked sem → 0 < parkedOn ws sem := fun hp =>
    List.countP_pos_iff.mpr ⟨ws[i], List.getElem_mem hi, by simp [hp]⟩
  simp only [parkedOn] at hpos ⊢
  rw [List.countP_set hi]
  by_cases hp : ws[i].pc = .parked sem
  · have := hpos hp
    simp [hp]
    omega
  · simp [hp]

theorem parkedOn_append (ws : List WorkerThread) (w : WorkerThread) (sem : Fin 2) :
    parkedOn (ws ++ [w]) sem = parkedOn ws sem + (if w.pc = .parked sem then 1 else 0) := by
  simp [parkedOn, List.countP_cons]

theorem parkedOn_dropLast {ws : List WorkerThread} {w : WorkerThread} (h : ws.getLast? = some w)
    {sem : Fin 2} (hpc : w.pc ≠ .parked sem) : parkedOn ws.dropLast sem = parkedOn ws sem := by
  conv_rhs => rw [← List.dropLast_append_getLast? w h]
  simp [parkedOn_append, hpc]

theorem all_parked_of_parkedOn {ws : List WorkerThread} {sem : Fin 2}
    (h : parkedOn ws sem = ws.length) : ∀ w ∈ ws, w.pc = .parked sem := by
  simpa [parkedOn] using List.countP_eq_length.mp h

theorem parkedOn_of_all {ws : List WorkerThread} {sem : Fin 2}
    (h : ∀ w ∈ ws, w.pc = .parked sem) : parkedOn ws sem = ws.length :=
  List.countP_eq_length.mpr (by simpa using h)

/-- A semaphore on which some worker is not parked is short of the number of workers. -/
theorem parkedOn_lt {ws : List WorkerThread} {sem : Fin 2} {w : WorkerThread} (hw : w ∈ ws)
    (h : w.pc ≠ .parked sem) : parkedOn ws sem < ws.length := by
  have hle := parkedOn_le ws sem
  have hne : parkedOn ws sem ≠ ws.length := fun he => h (all_parked_of_parkedOn he w hw)
  omega

theorem parkedOn_pos {ws : List WorkerThread} {sem : Fin 2} {w : WorkerThread} (hw : w ∈ ws)
    (h : w.pc = .parked sem) : 0 < parkedOn ws sem :=
  List.countP_pos_iff.mpr ⟨w, hw, by simp [h]⟩

theorem parkedOn_eq_zero {ws : List WorkerThread} {sem : Fin 2} :
    parkedOn ws sem = 0 ↔ ∀ w ∈ ws, w.pc ≠ .parked sem := by
  simp [parkedOn, List.countP_eq_zero]

/-! ## The controller's program points -/

/-- `add_worker` has asked for one thread more than there are. -/
def Ctrl.raised : Ctrl → Nat
  | .starting _ _ | .lowering _ => 1
  | _ => 0

/-- The stopped worker is out of the counts, but not yet out of the list. -/
def Ctrl.popped : Ctrl → Nat
  | .popping _ => 1
  | _ => 0

/-- The tokens that the posting loop still has to post. -/
def Ctrl.unposted (noThreads : Nat) : Ctrl → Nat
  | .posting _ _ i => noThreads - i
  | _ => 0

/-- From the store to `_running` on. -/
def Ctrl.shutdown : Ctrl → Bool
  | .releasing .destructor | .posting .destructor _ _ | .joining _ | .destroyed => true
  | _ => false

/-- From the store to `_thread_running` of the last worker until it is gone. -/
def Ctrl.stopped : Ctrl → Bool
  | .releasing (.stopThread _ _) | .posting (.stopThread _ _) _ _ | .retiring _ _ | .popping _ => true
  | _ => false

def Waiter.adds : Waiter → Bool
  | .addWorker _ => true
  | _ => false

def Releaser.stops : Releaser → Bool
  | .stopThread _ _ => true
  | _ => false

/-- The calls whose return tells the caller that the last round is over. -/
def Ret.waits : Ret → Bool
  | .addWorker (.ok, _) | .waitForWorkersIdle | .wakeupAndWait => true
  | _ => false

/-- The assertion of `release_all` and `release_and_wait`. -/
def AtRest (s : State) : Prop := s.barrier.noThreadsCurrentlyOnBarrier = s.barrier.noThreads

/-- The stopped worker is past its last registration. -/
def LastLeaves (s : State) : Prop :=
  0 < s.workers.length ∧
    ∀ w, s.workers.getLast? = some w → w.pc ≠ .parked s.barrier.activeSemIdx

def Releaser.Released (s : State) : Releaser → Prop
  | .stopThread _ _ => LastLeaves s
  | .destructor => s.barrier.noThreadsCurrentlyOnBarrier = 0
  | .wakeupWorkers | .wakeupAndWait => True

/-- What holds at each program point of the controller. -/
def Ctrl.At (s : State) : Ctrl → Prop
  | .returning r => r.waits = true → AtRest s
  | .waitForAll k | .woken k => k.adds = true → 0 < s.workers.length
  | .asleep k =>
    s.barrier.noThreadsCurrentlyOnBarrier < s.barrier.noThreads ∧
      (k.adds = true → 0 < s.workers.length)
  | .checkingInit _ | .stopping _ _ => AtRest s ∧ 0 < s.workers.length
  | .releasing k => AtRest s ∧ (k.stops = true → 0 < s.workers.length)
  | .posting k prevSem i =>
    prevSem ≠ s.barrier.activeSemIdx ∧ i ≤ s.barrier.noThreads ∧ k.Released s
  | .retiring _ _ | .popping _ => LastLeaves s
  | .storingRunning => AtRest s
  | .joining i =>
    s.barrier.noThreadsCurrentlyOnBarrier = 0 ∧
      ∀ j < i, ∀ w, s.workers[j]? = some w → w.pc = .exited
  | .destroyed => ∀ w ∈ s.workers, w.pc = .exited
  | .lowering status => status ≠ .ok
  | .idle | .raising _ _ | .starting _ _ => True

/-- The program points that a worker can be at, given the flags it reads. -/
def WorkerOk (running : Bool) (w : WorkerThread) : Prop :=
  match w.pc with
  | .starting _ | .entering | .ready | .inCallback => running = true ∧ w.threadRunning = true
  | .polled => running = true
  | .breaking | .exited => running = false ∨ w.threadRunning = false
  | .parked _ | .woken => True

structure Inv (s : State) : Prop where
  size : s.barrier.noThreads + s.ctrl.popped = s.workers.length + s.ctrl.raised
  noWorkers : s.noWorkers + s.ctrl.popped = s.workers.length
  registered :
    s.barrier.noThreadsCurrentlyOnBarrier = parkedOn s.workers s.barrier.activeSemIdx
  activeEmpty : s.barrier.semaphores s.barrier.activeSemIdx = 0
  tokens : s.barrier.semaphores (1 - s.barrier.activeSemIdx) +
    s.ctrl.unposted s.barrier.noThreads = parkedOn s.workers (1 - s.barrier.activeSemIdx)
  running : s.running = !s.ctrl.shutdown
  stopped : ∀ i w, s.workers[i]? = some w →
    (w.threadRunning = false ↔ s.ctrl.stopped = true ∧ i + 1 = s.workers.length)
  workerOk : ∀ w ∈ s.workers, WorkerOk s.running w
  ctrlAt : s.ctrl.At s

theorem init_inv (cores : List CoreTable.CpuInfo) : Inv (init cores) := by
  constructor <;> simp [init, Barrier.new, Ctrl.popped, Ctrl.raised, Ctrl.unposted, Ctrl.shutdown,
    Ctrl.At, parkedOn]

/-- With as many threads as workers, the barrier's assertion means that every worker is
parked on the active semaphore. -/
theorem Inv.all_parked {s : State} (h : Inv s) (hr : AtRest s)
    (hn : s.barrier.noThreads = s.workers.length) :
    ∀ w ∈ s.workers, w.pc = .parked s.barrier.activeSemIdx :=
  all_parked_of_parkedOn (by rw [← h.registered, hr, hn])

/-! ## Steps of a worker on its own fields -/

/-- Such a step, with what enables it and what it leaves. -/
inductive WorkerThread.Local (running : Bool) (w : WorkerThread) :
    WorkerAct → WorkerThread → Prop where
  | init {status : AppleThreadingStatus} : w.pc = .starting status →
      Local running w .init { w with pc := .entering, status := status }
  | loadPoolRunning : w.pc = .woken →
      Local running w .loadPoolRunning { w with pc := if running then .polled else .breaking }
  | loadThreadRunning : w.pc = .polled →
      Local running w .loadThreadRunning
        { w with pc := if w.threadRunning then .ready else .breaking }
  | callbackStart : w.pc = .ready → Local running w .callbackStart { w with pc := .inCallback }
  | callbackEnd : w.pc = .inCallback → Local running w .callbackEnd { w with pc := .entering }
  | leave : w.pc = .breaking → Local running w .leave { w with pc := .exited }

theorem localStep_local {running : Bool} {w w' : WorkerThread} {a : WorkerAct}
    (h : w.localStep running a = some w') : w.Local running a w' := by
  cases a <;> simp only [WorkerThread.localStep] at h
  case register | take | interrupted => cases h
  case init =>
    split at h <;> cases h
    exact .init (by assumption)
  all_goals
    split at h <;> cases h
    rename_i hpc
  case loadPoolRunning => exact .loadPoolRunning hpc
  case loadThreadRunning => exact .loadThreadRunning hpc
  case callbackStart => exact .callbackStart hpc
  case callbackEnd => exact .callbackEnd hpc
  case leave => exact .leave hpc

/-- All that the invariant needs to know about it. -/
theorem localStep_spec {running : Bool} {w w' : WorkerThread} {a : WorkerAct}
    (h : w.localStep running a = some w') :
    w'.threadRunning = w.threadRunning ∧ (∀ q, w.pc ≠ .parked q) ∧ (∀ q, w'.pc ≠ .parked q) ∧
      w.pc ≠ .exited ∧ (WorkerOk running w → WorkerOk running w') := by
  cases localStep_local h with
  | loadPoolRunning hpc => cases running <;> simp_all [WorkerOk]
  | loadThreadRunning hpc => cases ht : w.threadRunning <;> simp_all [WorkerOk]
  | init hpc | callbackStart hpc | callbackEnd hpc | leave hpc => simp_all [WorkerOk]

/-- Looking up a worker after one of them was replaced. -/
theorem getElem?_set_cases {ws : List WorkerThread} {i j : Nat} {w w' v : WorkerThread}
    (hw : ws[i]? = some w) (h : (ws.set i w')[j]? = some v) :
    (j = i ∧ v = w') ∨ (j ≠ i ∧ ws[j]? = some v) := by
  rw [List.getElem?_set] at h
  split at h
  · rename_i hij
    have hi : i < ws.length := (List.getElem?_eq_some_iff.mp hw).1
    simp only [hi, if_true, Option.some.injEq] at h
    exact .inl ⟨hij.symm, h.symm⟩
  · rename_i hij
    exact .inr ⟨fun e => hij e.symm, h⟩

theorem forall_set {P : WorkerThread → Prop} {ws : List WorkerThread} {i : Nat}
    {w' : WorkerThread} (hP : ∀ w ∈ ws, P w) (hw' : P w') : ∀ w ∈ ws.set i w', P w := by
  intro v hv
  rcases List.mem_or_eq_of_mem_set hv with hv | rfl
  · exact hP v hv
  · exact hw'

/-- A worker step that keeps `_thread_running` keeps the clause about it. -/
theorem stopped_set {s : State} (h : Inv s) {i : Nat} {w : WorkerThread} (w' : WorkerThread)
    (hw : s.workers[i]? = some w) (ht : w'.threadRunning = w.threadRunning) :
    ∀ j v, (s.workers.set i w')[j]? = some v →
      (v.threadRunning = false ↔ s.ctrl.stopped = true ∧ j + 1 = s.workers.length) := by
  intro j v hv
  rcases getElem?_set_cases hw hv with ⟨rfl, rfl⟩ | ⟨-, hv⟩
  · rw [ht]
    exact h.stopped _ w hw
  · exact h.stopped j v hv

theorem getLast?_set_cases {ws : List WorkerThread} {i : Nat} {w w' v : WorkerThread}
    (hw : ws[i]? = some w) (h : (ws.set i w').getLast? = some v) :
    (i + 1 = ws.length ∧ v = w') ∨ ws.getLast? = some v := by
  rw [List.getLast?_eq_getElem?, List.length_set] at h
  rcases getElem?_set_cases hw h with ⟨hi, rfl⟩ | ⟨-, h⟩
  · have := (List.getElem?_eq_some_iff.mp hw).1
    exact .inl ⟨by omega, rfl⟩
  · exact .inr (by rw [List.getLast?_eq_getElem?]; exact h)

/-- The controller's clause survives the step of a worker that changes no count. -/
theorem ctrlAt_set {s : State} (h : Inv s) {i : Nat} {w w' : WorkerThread} {b : Barrier}
    (hw : s.workers[i]? = some w) (hpc : w.pc ≠ .exited)
    (hpark : w'.pc ≠ .parked s.barrier.activeSemIdx)
    (hb : b.activeSemIdx = s.barrier.activeSemIdx ∧ b.noThreads = s.barrier.noThreads ∧
      b.noThreadsCurrentlyOnBarrier = s.barrier.noThreadsCurrentlyOnBarrier) :
    s.ctrl.At { s.setWorker i w' with barrier := b } := by
  obtain ⟨hb₁, hb₂, hb₃⟩ := hb
  have hlast : LastLeaves s → LastLeaves { s.setWorker i w' with barrier := b } := by
    rintro ⟨hpos, hl⟩
    refine ⟨by simpa [State.setWorker] using hpos, fun v hv => ?_⟩
    simp only [State.setWorker, hb₁] at hv ⊢
    rcases getLast?_set_cases hw hv with ⟨-, rfl⟩ | hv
    · exact hpark
    · exact hl v hv
  have hat := h.ctrlAt
  cases hc : s.ctrl <;> rw [hc] at hat <;>
    simp only [Ctrl.At, AtRest, State.setWorker, List.length_set, hb₁, hb₂, hb₃] at hat ⊢
  case posting k q j =>
    refine ⟨hat.1, hat.2.1, ?_⟩
    cases k <;> simp only [Releaser.Released, hb₃] at hat ⊢
    · exact hlast hat.2.2
    · exact hat.2.2
  case retiring | popping => exact hlast hat
  case joining n =>
    refine ⟨hat.1, fun j hj v hv => ?_⟩
    rcases getElem?_set_cases hw hv with ⟨rfl, rfl⟩ | ⟨-, hv⟩
    · exact absurd (hat.2 _ hj w hw) hpc
    · exact hat.2 j hj v hv
  case destroyed => exact absurd (hat w (List.mem_of_getElem? hw)) hpc
  all_goals exact hat

theorem Inv.localStep {s : State} (h : Inv s) {i : Nat} {w w' : WorkerThread} {a : WorkerAct}
    (hw : s.workers[i]? = some w) (hl : w.localStep s.running a = some w') :
    Inv (s.setWorker i w') := by
  obtain ⟨ht, hp, hp', hpc, hok⟩ := localStep_spec hl
  have hpark : ∀ q, parkedOn (s.workers.set i w') q = parkedOn s.workers q := by
    intro q
    simpa [hp q, hp' q] using parkedOn_set w' hw q
  constructor
  case size => simpa [State.setWorker] using h.size
  case noWorkers => simpa [State.setWorker] using h.noWorkers
  case registered => simpa [State.setWorker, hpark] using h.registered
  case activeEmpty => exact h.activeEmpty
  case tokens => simpa [State.setWorker, hpark] using h.tokens
  case running => exact h.running
  case stopped => simpa [State.setWorker] using stopped_set h w' hw ht
  case workerOk => exact forall_set h.workerOk (hok (h.workerOk w (List.mem_of_getElem? hw)))
  case ctrlAt => exact ctrlAt_set h hw hpc (hp' _) ⟨rfl, rfl, rfl⟩

/-! ## Taking a token and registering -/

/-- A token is never taken from the active semaphore. -/
theorem Inv.take_other {s : State} (h : Inv s) {sem : Fin 2} (hs : s.barrier.semaphores sem ≠ 0) :
    sem = 1 - s.barrier.activeSemIdx :=
  eq_other_of_ne fun he => hs (he ▸ h.activeEmpty)

theorem Inv.take {s : State} (h : Inv s) {i : Nat} {w : WorkerThread} {sem : Fin 2}
    (hw : s.workers[i]? = some w) (hpc : w.pc = .parked sem)
    (hs : s.barrier.semaphores sem ≠ 0) :
    Inv { s.setWorker i { w with pc := .woken } with barrier := s.barrier.take sem } := by
  obtain rfl := h.take_other hs
  have hact := parkedOn_set { w with pc := .woken } hw s.barrier.activeSemIdx
  have hoth := parkedOn_set { w with pc := .woken } hw (1 - s.barrier.activeSemIdx)
  simp only [hpc, WorkerPc.parked.injEq, other_ne, if_false, Nat.add_zero, reduceCtorEq,
    if_true] at hact hoth
  constructor
  case size => simpa [State.setWorker, Barrier.take] using h.size
  case noWorkers => simpa [State.setWorker] using h.noWorkers
  case registered => simpa [State.setWorker, Barrier.take, hact] using h.registered
  case activeEmpty =>
    simpa [State.setWorker, Barrier.take, Function.update_of_ne (ne_other _)] using h.activeEmpty
  case tokens =>
    have := h.tokens
    simp only [State.setWorker, Barrier.take, Function.update_self]
    omega
  case running => exact h.running
  case stopped => simpa [State.setWorker] using stopped_set h { w with pc := .woken } hw rfl
  case workerOk => exact forall_set h.workerOk trivial
  case ctrlAt => exact ctrlAt_set h hw (by simp [hpc]) (by simp) ⟨rfl, rfl, rfl⟩

@[simp] theorem signalled_raised (c : Ctrl) : c.signalled.raised = c.raised := by cases c <;> rfl
@[simp] theorem signalled_popped (c : Ctrl) : c.signalled.popped = c.popped := by cases c <;> rfl
@[simp] theorem signalled_unposted (c : Ctrl) (n : Nat) :
    c.signalled.unposted n = c.unposted n := by cases c <;> rfl
@[simp] theorem signalled_shutdown (c : Ctrl) : c.signalled.shutdown = c.shutdown := by
  cases c <;> rfl
@[simp] theorem signalled_stopped (c : Ctrl) : c.signalled.stopped = c.stopped := by
  cases c <;> rfl

theorem unposted_of_free {c : Ctrl} (h : c.holdsMutex = false) (n : Nat) : c.unposted n = 0 := by
  cases c <;> simp_all [Ctrl.holdsMutex, Ctrl.unposted]

theorem Waiter.next_free (k : Waiter) : k.next.holdsMutex = false := by cases k <;> rfl

/-- A worker that is still on its way to the barrier keeps it from being full. -/
theorem Inv.not_atRest {s : State} (h : Inv s) {w : WorkerThread} (hw : w ∈ s.workers)
    (hpc : w.pc ≠ .parked s.barrier.activeSemIdx)
    (hn : s.barrier.noThreads = s.workers.length) : ¬ AtRest s :=
  fun hr => hpc (h.all_parked hr hn w hw)

/-- The controller's clause when a worker registers: no program point that promises a
full barrier allows it, and a sleeping controller is woken by the last one. -/
theorem ctrlAt_register {s : State} (h : Inv s) {i : Nat} {w : WorkerThread}
    (hw : s.workers[i]? = some w) (hpc : w.pc = .entering) (hm : s.ctrl.holdsMutex = false) :
    (s.register i w).ctrl.At (s.register i w) := by
  have hmem := List.mem_of_getElem? hw
  have hok := h.workerOk w hmem
  simp only [WorkerOk, hpc] at hok
  have hrun := h.running
  have hsize := h.size
  have hno : s.barrier.noThreads = s.workers.length → ¬ AtRest s :=
    h.not_atRest hmem (by simp [hpc])
  have hlast : s.ctrl.stopped = true → LastLeaves s → LastLeaves (s.register i w) := by
    rintro hst ⟨hpos, hl⟩
    refine ⟨by simpa [State.register] using hpos, fun v hv => ?_⟩
    rcases getLast?_set_cases hw hv with ⟨hi, -⟩ | hv
    · -- the last worker has been stopped, and a stopped worker does not register
      have := (h.stopped i w hw).mpr ⟨hst, hi⟩
      simp [hok.2] at this
    · exact hl v hv
  have hat := h.ctrlAt
  cases hc : s.ctrl <;> rw [hc] at hat hrun hsize hm hlast
  case asleep k =>
    by_cases hfull : s.barrier.noThreadsCurrentlyOnBarrier + 1 ≥ s.barrier.noThreads
    · simpa [State.register, hc, hfull, Ctrl.signalled, Ctrl.At] using hat.2
    · simp only [State.register, hc, hfull, if_false, Ctrl.At, Barrier.enter, List.length_set]
      exact ⟨by omega, hat.2⟩
  case posting => simp [Ctrl.holdsMutex] at hm
  case joining | destroyed => simp [hok.1, Ctrl.shutdown] at hrun
  case checkingInit | stopping | releasing =>
    simp only [Ctrl.popped, Ctrl.raised, Nat.add_zero] at hsize
    exact absurd hat.1 (hno hsize)
  case storingRunning =>
    simp only [Ctrl.popped, Ctrl.raised, Nat.add_zero] at hsize
    exact absurd hat (hno hsize)
  case returning r =>
    simp only [Ctrl.popped, Ctrl.raised, Nat.add_zero] at hsize
    simp only [State.register, hc, Ctrl.signalled, ite_self, Ctrl.At]
    exact fun hr => absurd (hat hr) (hno hsize)
  case retiring | popping =>
    rw [show (s.register i w).ctrl = s.ctrl by simp [State.register, hc, Ctrl.signalled], hc]
    exact hlast rfl hat
  case waitForAll | woken | lowering => simpa [State.register, hc, Ctrl.signalled, Ctrl.At] using hat
  all_goals simp [State.register, hc, Ctrl.signalled, Ctrl.At]

theorem Inv.register {s : State} (h : Inv s) {i : Nat} {w : WorkerThread}
    (hw : s.workers[i]? = some w) (hpc : w.pc = .entering) (hm : s.ctrl.holdsMutex = false) :
    Inv (s.register i w) := by
  let w' : WorkerThread := { w with pc := .parked s.barrier.activeSemIdx }
  have hact := parkedOn_set w' hw s.barrier.activeSemIdx
  have hoth := parkedOn_set w' hw (1 - s.barrier.activeSemIdx)
  simp only [w', hpc, reduceCtorEq, if_false, Nat.add_zero, if_true, WorkerPc.parked.injEq,
    ne_other] at hact hoth
  have hctrl : (s.register i w).ctrl = s.ctrl ∨ (s.register i w).ctrl = s.ctrl.signalled := by
    simp only [State.register]
    split <;> simp
  have hsig : ∀ {β : Type} (f : Ctrl → β), f s.ctrl.signalled = f s.ctrl →
      f (s.register i w).ctrl = f s.ctrl := by
    intro β f hf
    rcases hctrl with hc | hc <;> simp [hc, hf]
  constructor
  case size =>
    rw [hsig _ (signalled_popped _), hsig _ (signalled_raised _)]
    simpa [State.register, Barrier.enter] using h.size
  case noWorkers =>
    rw [hsig _ (signalled_popped _)]
    simpa [State.register] using h.noWorkers
  case registered =>
    have := h.registered
    simp only [State.register, Barrier.enter]
    omega
  case activeEmpty => exact h.activeEmpty
  case tokens =>
    rw [hsig (fun c => c.unposted _) (signalled_unposted _ _)]
    have := h.tokens
    simp only [State.register, Barrier.enter, unposted_of_free hm] at this ⊢
    omega
  case running =>
    rw [hsig _ (signalled_shutdown _)]
    exact h.running
  case stopped =>
    rw [hsig _ (signalled_stopped _)]
    simpa [State.register] using stopped_set h w' hw rfl
  case workerOk => exact forall_set h.workerOk trivial
  case ctrlAt => exact ctrlAt_register h hw hpc hm

/-- What a worker's step can do. -/
theorem worker_cases {s t : State} {i : Nat} {a : WorkerAct}
    (h : step s (.worker i a) = some t) : ∃ w, s.workers[i]? = some w ∧
      ((a = .register ∧ w.pc = .entering ∧ s.ctrl.holdsMutex = false ∧ t = s.register i w) ∨
        (a = .take ∧ ∃ sem, w.pc = .parked sem ∧ s.barrier.semaphores sem ≠ 0 ∧
          t = { s.setWorker i { w with pc := .woken } with barrier := s.barrier.take sem }) ∨
        (a = .interrupted ∧ ∃ sem, w.pc = .parked sem ∧
          t = s.setWorker i { w with pc := .woken }) ∨
        ∃ w', w.localStep s.running a = some w' ∧ t = s.setWorker i w') := by
  simp only [step] at h
  split at h
  · cases h
  · rename_i w hw
    refine ⟨w, hw, ?_⟩
    cases a <;> simp only [workerStep] at h
    case register =>
      split at h <;> cases h
      rename_i hg
      exact .inl ⟨rfl, hg.1, hg.2, rfl⟩
    case take =>
      split at h
      · split at h <;> cases h
        rename_i sem hpc hs
        exact .inr (.inl ⟨rfl, sem, hpc, hs, rfl⟩)
      · cases h
    case interrupted =>
      split at h <;> cases h
      rename_i sem hpc
      exact .inr (.inr (.inl ⟨rfl, sem, hpc, rfl⟩))
    all_goals
      obtain ⟨w', hw', rfl⟩ := Option.map_eq_some_iff.mp h
      exact .inr (.inr (.inr ⟨w', hw', rfl⟩))

/-- What every step of a worker keeps of itself, the steps of all the workers keep of the last. -/
theorem worker_last {P : WorkerThread → Prop}
    (hpark : ∀ w sem, w.pc = .entering → P w → P { w with pc := .parked sem })
    (hwoken : ∀ w sem, w.pc = .parked sem → P w → P { w with pc := .woken })
    (hlocal : ∀ running a w w', P w → w.localStep running a = some w' → P w')
    {s t : State} {i : Nat} {a : WorkerAct} (h : ∀ w, s.workers.getLast? = some w → P w)
    (hstep : step s (.worker i a) = some t) : ∀ w, t.workers.getLast? = some w → P w := by
  obtain ⟨w, hw, hcases⟩ := worker_cases hstep
  have hset : ∀ w', (P w → P w') → ∀ v, (s.workers.set i w').getLast? = some v → P v := by
    intro w' hp v hv
    rcases getLast?_set_cases hw hv with ⟨hi, rfl⟩ | hv
    · refine hp (h w ?_)
      rw [List.getLast?_eq_getElem?, ← hw]
      congr 1
      omega
    · exact h v hv
  rcases hcases with ⟨-, hpc, -, rfl⟩ | ⟨-, sem, hpc, -, rfl⟩ | ⟨-, sem, hpc, rfl⟩ | ⟨w', hl, rfl⟩
  · exact hset _ (hpark w _ hpc)
  · exact hset _ (hwoken w sem hpc)
  · exact hset _ (hwoken w sem hpc)
  · exact hset _ fun hp => hlocal _ _ _ _ hp hl

theorem Inv.worker {s t : State} (h : Inv s) {i : Nat} {a : WorkerAct} (ha : a ≠ .interrupted)
    (hstep : step s (.worker i a) = some t) : Inv t := by
  obtain ⟨w, hw, hr | hk | hi | ⟨w', hl, rfl⟩⟩ := worker_cases hstep
  · obtain ⟨-, hpc, hm, rfl⟩ := hr
    exact h.register hw hpc hm
  · obtain ⟨-, sem, hpc, hs, rfl⟩ := hk
    exact h.take hw hpc hs
  · exact absurd hi.1 ha
  · exact h.localStep hw hl

end Twine.Pool
