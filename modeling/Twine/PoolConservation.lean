import Twine.PoolRuns

/-!
# Whatever the caller does

Nothing is assumed of the controlling thread here: it may release rounds that are not
complete, or several of them without a wait, and a `semaphore_wait` may return an error.
The totals over all workers still balance: the tokens that are taken against those that the
releases post, and the passes of the barrier against the callbacks and the exits.
-/
namespace Twine.Pool

open Placement

/-! ## Tokens -/

/-- The tokens on the active semaphore and on the other one. -/
def Barrier.tokens (b : Barrier) : Nat :=
  b.semaphores b.activeSemIdx + b.semaphores b.swapSemaphores.activeSemIdx

theorem Barrier.tokens_eq (b : Barrier) (sem : Fin 2) :
    b.tokens = b.semaphores sem + b.semaphores (1 - sem) := by
  by_cases h : sem = b.activeSemIdx
  · subst h
    rfl
  · rw [eq_other_of_ne h, other_other, Nat.add_comm]
    rfl

theorem Barrier.tokens_signal (b : Barrier) (sem : Fin 2) :
    (b.signal sem).tokens = b.tokens + 1 := by
  rw [tokens_eq _ sem, tokens_eq b sem]
  simp [Barrier.signal]
  omega

theorem Barrier.tokens_take (b : Barrier) {sem : Fin 2} (h : b.semaphores sem ≠ 0) :
    (b.take sem).tokens + 1 = b.tokens := by
  rw [tokens_eq _ sem, tokens_eq b sem]
  simp [Barrier.take]
  omega

@[simp] theorem Barrier.tokens_release (b : Barrier) : b.release.tokens = b.tokens := by
  rw [tokens_eq _ b.activeSemIdx, tokens_eq b b.activeSemIdx]
  rfl

@[simp] theorem Barrier.tokens_enter (b : Barrier) : b.enter.tokens = b.tokens := rfl

@[simp] theorem Barrier.tokens_setNoThreads (b : Barrier) (threads : Nat) :
    (b.setNoThreads threads).tokens = b.tokens := rfl

def Label.takes : Label → Bool
  | .worker _ .take => true
  | _ => false

/-- The threads that a step lets through the barrier. -/
def released (s : State) : Label → Nat
  | .release => s.barrier.noThreads
  | _ => 0

theorem enter_free (cores : List CoreTable.CpuInfo) (c : Call) :
    (c.enter cores).holdsMutex = false := by
  cases c with
  | addWorker a =>
    simp only [Call.enter]
    split <;> rfl
  | _ => rfl

theorem Releaser.next_free (k : Releaser) (b : Barrier) : (k.next b).holdsMutex = false := by
  cases k with
  | wakeupAndWait =>
    simp only [Releaser.next]
    split <;> rfl
  | _ => rfl

/-- Between two program points outside of the posting loop nothing is owed. -/
theorem tokens_free {s t : State} {l : Label} (hbarrier : t.barrier.tokens = s.barrier.tokens)
    (hs : s.ctrl.holdsMutex = false) (ht : t.ctrl.holdsMutex = false) (htakes : l.takes = false)
    (hreleased : released s l = 0) :
    t.barrier.tokens + t.ctrl.unposted t.barrier.noThreads + (if l.takes then 1 else 0) =
      s.barrier.tokens + s.ctrl.unposted s.barrier.noThreads + released s l := by
  simp only [unposted_of_free hs, unposted_of_free ht, hbarrier, htakes, hreleased]
  rfl

/-- A release that has begun owes the rest of its posts. -/
theorem tokens_step {s t : State} {l : Label} (hstep : step s l = some t) :
    t.barrier.tokens + t.ctrl.unposted t.barrier.noThreads + (if l.takes then 1 else 0) =
      s.barrier.tokens + s.ctrl.unposted s.barrier.noThreads + released s l := by
  cases l with
  | call c =>
    obtain ⟨hc, rfl⟩ := call_idle hstep
    exact tokens_free rfl (by rw [hc]; rfl) (enter_free s.cores c) rfl rfl
  | ret r =>
    obtain ⟨hc, rfl⟩ := ret_returning hstep
    exact tokens_free rfl (by rw [hc]; rfl) rfl rfl rfl
  | release =>
    obtain ⟨k, hc, rfl⟩ := release_releasing hstep
    simp only [hc, Ctrl.unposted, released, Label.takes, Barrier.tokens_release]
    rfl
  | spurious =>
    obtain ⟨k, hc, rfl⟩ := spurious_asleep hstep
    exact tokens_free rfl (by rw [hc]; rfl) rfl rfl rfl
  | worker i a =>
    obtain ⟨w, -, ⟨rfl, -, -, rfl⟩ | ⟨rfl, sem, -, htoken, rfl⟩ | ⟨rfl, sem, -, rfl⟩ |
      ⟨w', hw', rfl⟩⟩ := worker_cases hstep
    · simp only [State.register, Barrier.tokens_enter, released, Label.takes]
      split <;> simp [Barrier.enter]
    · have htake := s.barrier.tokens_take htoken
      simp only [released, Label.takes, if_true, ← htake]
      simp only [Barrier.take, State.setWorker]
      omega
    · rfl
    · cases localStep_local hw' <;> rfl
  | ctrl =>
    change ctrlStep s = some t at hstep
    cases ctrl_cases hstep with
    | post hc hi =>
      simp only [hc, Ctrl.unposted, released, Label.takes, Barrier.tokens_signal]
      simp only [Barrier.signal, Bool.false_eq_true, if_false]
      omega
    | posted hc hi =>
      simp only [State.setCtrl, unposted_of_free (Releaser.next_free _ _)]
      simp only [hc, Ctrl.unposted, released, Label.takes, Bool.false_eq_true, if_false]
      omega
    | proceed hc _ =>
      refine tokens_free rfl ?_ (Waiter.next_free _) rfl rfl
      cases hc <;> rename_i hc <;> rw [hc] <;> rfl
    | sleep hc _ =>
      refine tokens_free rfl ?_ rfl rfl rfl
      cases hc <;> rename_i hc <;> rw [hc] <;> rfl
    | raise hc | spawn hc | runFails hc | lower hc | accept hc | refuse hc | stop hc | retire hc
    | pop hc | storeRunning hc | join hc | joined hc =>
      exact tokens_free rfl (by rw [hc]; rfl) rfl rfl rfl

/-! ## Stages of a worker -/

/-- The steps between the program points. -/
inductive Moves : WorkerPc → WorkerAct → WorkerPc → Prop where
  | init (status : AppleThreadingStatus) : Moves (.starting status) .init .entering
  | register (sem : Fin 2) : Moves .entering .register (.parked sem)
  | take (sem : Fin 2) : Moves (.parked sem) .take .woken
  | interrupted (sem : Fin 2) : Moves (.parked sem) .interrupted .woken
  | poolRunning : Moves .woken .loadPoolRunning .polled
  | poolStopped : Moves .woken .loadPoolRunning .breaking
  | threadRunning : Moves .polled .loadThreadRunning .ready
  | threadStopped : Moves .polled .loadThreadRunning .breaking
  | callbackStart : Moves .ready .callbackStart .inCallback
  | callbackEnd : Moves .inCallback .callbackEnd .entering
  | leave : Moves .breaking .leave .exited

theorem moves_of_localStep {running : Bool} {w w' : WorkerThread} {a : WorkerAct}
    (h : w.localStep running a = some w') : Moves w.pc a w'.pc := by
  cases localStep_local h with
  | init hpc =>
    rw [hpc]
    exact .init _
  | loadPoolRunning hpc =>
    rw [hpc]
    cases running with
    | true => exact .poolRunning
    | false => exact .poolStopped
  | loadThreadRunning hpc =>
    rw [hpc]
    cases hrunning : w.threadRunning with
    | true => simpa [hrunning] using Moves.threadRunning
    | false => simpa [hrunning] using Moves.threadStopped
  | callbackStart hpc =>
    rw [hpc]
    exact .callbackStart
  | callbackEnd hpc =>
    rw [hpc]
    exact .callbackEnd
  | leave hpc =>
    rw [hpc]
    exact .leave

/-- A worker's step changes that worker, and no other. -/
theorem worker_moves {s t : State} {i : Nat} {a : WorkerAct}
    (hstep : step s (.worker i a) = some t) : ∃ w w', s.workers[i]? = some w ∧
      t.workers = s.workers.set i w' ∧ Moves w.pc a w'.pc := by
  obtain ⟨w, hw, ⟨rfl, hpc, -, rfl⟩ | ⟨rfl, sem, hpc, -, rfl⟩ | ⟨rfl, sem, hpc, rfl⟩ |
    ⟨w', hw', rfl⟩⟩ := worker_cases hstep
  · exact ⟨w, _, hw, rfl, hpc ▸ .register _⟩
  · exact ⟨w, _, hw, rfl, hpc ▸ .take sem⟩
  · exact ⟨w, _, hw, rfl, hpc ▸ .interrupted sem⟩
  · exact ⟨w, w', hw, rfl, moves_of_localStep hw'⟩

/-- A part of the thread function, with the steps that lead into it and out of it. A thread is
neither created nor joined in it. -/
structure Stage where
  inside : WorkerPc → Bool
  enters : WorkerAct → Bool
  leaves : WorkerAct → Bool
  starting : ∀ status, inside (.starting status) = false
  exited : inside .exited = false
  moves : ∀ p a p', Moves p a p' →
    (if inside p' then 1 else 0) + (if leaves a then 1 else 0) =
      (if inside p then 1 else 0) + if enters a then 1 else 0

/-- In `semaphore_wait`. -/
def Stage.waiting : Stage where
  inside
    | .parked _ => true
    | _ => false
  enters a := a = .register
  leaves a := a = .take ∨ a = .interrupted
  starting _ := rfl
  exited := rfl
  moves p a p' h := by cases h <;> rfl

/-- Out of `wait`, before the callback or the end of the loop. -/
def Stage.passing : Stage where
  inside
    | .woken | .polled | .ready | .breaking => true
    | _ => false
  enters a := a = .take ∨ a = .interrupted
  leaves a := a = .callbackStart ∨ a = .leave
  starting _ := rfl
  exited := rfl
  moves p a p' h := by cases h <;> rfl

def Stage.running : Stage where
  inside p := p = .inCallback
  enters a := a = .callbackStart
  leaves a := a = .callbackEnd
  starting _ := rfl
  exited := rfl
  moves p a p' h := by cases h <;> rfl

/-- The workers in a stage. -/
def Stage.count (g : Stage) (s : State) : Nat := s.workers.countP fun w => g.inside w.pc

def Label.acts (p : WorkerAct → Bool) : Label → Bool
  | .worker _ a => p a
  | _ => false

theorem countP_set_add {α : Type} {l : List α} {i : Nat} {a : α} (p : α → Bool) (b : α)
    (h : l[i]? = some a) :
    (l.set i b).countP p + (if p a then 1 else 0) = l.countP p + if p b then 1 else 0 := by
  obtain ⟨hi, rfl⟩ := List.getElem?_eq_some_iff.mp h
  have hpos : p l[i] = true → 0 < l.countP p := fun hp =>
    List.countP_pos_iff.mpr ⟨l[i], List.getElem_mem hi, hp⟩
  rw [List.countP_set hi]
  by_cases hp : p l[i] = true
  · have := hpos hp
    simp only [hp, if_true]
    omega
  · simp [hp]

theorem Stage.count_ctrl (g : Stage) {s t : State} (hstep : ctrlStep s = some t) :
    g.count t = g.count s := by
  cases ctrl_cases hstep with
  | spawn hc _ _ => simp [Stage.count, spawn, List.countP_append, g.starting]
  | stop hc hw =>
    rename_i w
    have hset := countP_set_add (fun w => g.inside w.pc) { w with threadRunning := false }
      (List.getLast?_eq_getElem? ▸ hw)
    exact Nat.add_right_cancel hset
  | pop hc hw hexit =>
    have hlast := List.dropLast_append_getLast? _ hw
    simp only [Stage.count]
    conv_rhs => rw [← hlast]
    simp [List.countP_append, hexit, g.exited]
  | _ => rfl

theorem Stage.count_step (g : Stage) {s t : State} {l : Label} (hstep : step s l = some t) :
    g.count t + (if l.acts g.leaves then 1 else 0) =
      g.count s + if l.acts g.enters then 1 else 0 := by
  cases l with
  | call c =>
    obtain ⟨-, rfl⟩ := call_idle hstep
    rfl
  | ret r =>
    obtain ⟨-, rfl⟩ := ret_returning hstep
    rfl
  | release =>
    obtain ⟨k, -, rfl⟩ := release_releasing hstep
    rfl
  | spurious =>
    obtain ⟨k, -, rfl⟩ := spurious_asleep hstep
    rfl
  | ctrl =>
    change ctrlStep s = some t at hstep
    rw [g.count_ctrl hstep]
    rfl
  | worker i a =>
    obtain ⟨w, w', hw, ht, hmoves⟩ := worker_moves hstep
    have hset := countP_set_add (fun w => g.inside w.pc) w' hw
    have hstage := g.moves _ _ _ hmoves
    rw [Stage.count, ht]
    show (s.workers.set i w').countP (fun w => g.inside w.pc) + (if g.leaves a then 1 else 0) =
      s.workers.countP (fun w => g.inside w.pc) + if g.enters a then 1 else 0
    omega

/-! ## Whole runs -/

section Runs

variable {cores : List CoreTable.CpuInfo} {tr : List Label} {s : State}

theorem Stage.count_run (g : Stage) (h : run (init cores) tr = some s) :
    g.count s + tr.countP (Label.acts g.leaves) = tr.countP (Label.acts g.enters) := by
  have hrun := Exec.run_conserves g.count (Label.acts g.enters) (Label.acts g.leaves)
    (fun _ _ _ hstep => g.count_step hstep) h
  rw [hrun]
  exact Nat.zero_add _

/-- The times that the workers have passed the barrier. -/
def passes (tr : List Label) : Nat := tr.countP (Label.acts Stage.passing.enters)

theorem passes_eq (tr : List Label) :
    passes tr = tr.countP Label.takes + tr.countP (Label.acts fun a => a = .interrupted) := by
  induction tr with
  | nil => rfl
  | cons l tr ih =>
    simp only [passes, List.countP_cons] at ih ⊢
    rw [ih]
    cases l with
    | worker i a => cases a <;> simp [Label.acts, Label.takes, Stage.passing] <;> omega
    | _ => rfl

theorem starts_le (tr : List Label) :
    tr.countP (Label.acts Stage.running.enters) ≤ tr.countP (Label.acts Stage.passing.leaves) := by
  apply List.countP_mono_left
  intro l _ hl
  cases l with
  | worker i a =>
    simp only [Label.acts, Stage.running, decide_eq_true_eq] at hl
    simp [Label.acts, Stage.passing, hl]
  | _ => cases hl

/-- What holds whatever the caller does. The counts are totals over all workers. -/
structure Paid (cores : List CoreTable.CpuInfo) (tr : List Label) (s : State) : Prop where
  /-- The releases post as many tokens as they release threads, and each is taken once. -/
  tokens : s.barrier.tokens + s.ctrl.unposted s.barrier.noThreads + tr.countP Label.takes =
    Exec.total step released (init cores) tr
  /-- There are as many registrations as passes of the barrier and workers waiting there. -/
  registered : Stage.waiting.count s + passes tr = tr.countP (Label.acts Stage.waiting.enters)
  /-- There are as many passes as callbacks and exits, and workers on the way to either. -/
  passed : Stage.passing.count s + tr.countP (Label.acts Stage.passing.leaves) = passes tr
  callbacks : tr.countP (Label.acts Stage.running.enters) ≤
    Exec.total step released (init cores) tr + tr.countP (Label.acts fun a => a = .interrupted)

/-- In every run of every caller, and over all workers together, the passes of the barrier are
paid for by the releases, but for those in which `semaphore_wait` failed, and the callbacks by
the passes. -/
theorem passes_paid (h : run (init cores) tr = some s) : Paid cores tr s := by
  have htokens : s.barrier.tokens + s.ctrl.unposted s.barrier.noThreads + tr.countP Label.takes =
      Exec.total step released (init cores) tr := by
    rw [← Exec.total_countP Label.takes h]
    have hrun := Exec.run_balances
      (fun s => s.barrier.tokens + s.ctrl.unposted s.barrier.noThreads) released
      (fun _ l => if l.takes then 1 else 0) (fun _ _ _ hstep => tokens_step hstep) h
    rw [hrun]
    exact Nat.zero_add _
  have hpassing := Stage.passing.count_run h
  refine ⟨htokens, Stage.waiting.count_run h, hpassing, ?_⟩
  have hstarts := starts_le tr
  have hpasses := passes_eq tr
  rw [passes] at hpasses
  omega

end Runs

/-- The caller releases a second round before the worker has run its callback, and the token of
that round stays on its semaphore. -/
def doubleWakeup : List Label :=
  addWorkerRun ⟨0, 75, none, 0, 0, .ok⟩ 0 ++
  [.call .wakeupWorkers, .release, .ctrl, .ctrl, .ret .wakeupWorkers,
    .call .wakeupWorkers, .release, .ctrl, .ctrl, .ret .wakeupWorkers] ++
  callbackRun 0

theorem passes_paid_doubleWakeup : ∃ s, run (init (CoreTable.buildCoreList 0 1)) doubleWakeup =
    some s ∧ Paid (CoreTable.buildCoreList 0 1) doubleWakeup s := by
  obtain ⟨s, hs⟩ := Option.isSome_iff_exists.mp
    (show (run (init (CoreTable.buildCoreList 0 1)) doubleWakeup).isSome from by decide)
  exact ⟨s, hs, passes_paid hs⟩

end Twine.Pool
