import Twine.PoolProgress
import Twine.PoolWorkgroups

/-!
# The barrier, statement by statement

The members of `BarrierWithTrigger` run under `_calling_mutex`, and the pool of
`Twine.Pool` takes what they do with the mutex as one step, or as one step for every post.
Here every statement is a step of its own, between the lock and the unlock, and the other
threads go on in between. The statements refine the steps: what a section has done so far
shows either as nothing or as the whole of it.
-/
namespace Twine.BarrierStatements

open Pool (Ctrl Waiter Releaser WorkerAct Uninterrupted waited)

/-- The statements of `wait` with the mutex locked. -/
inductive Waiting where
  /-- Before `active_sem = _semaphores[_active_sem_idx]`. -/
  | reading
  /-- Before the increment of the count and its comparison. -/
  | counting (activeSem : Fin 2)
  /-- Before `condition_signal`. -/
  | signalling
  | unlocking
  deriving DecidableEq, Repr

/-- The statements of the members that the controlling thread calls, with the mutex locked. -/
inductive Calling where
  /-- `set_no_threads` before the store. -/
  | storing
  /-- `wait_for_all` before its first load of the count. -/
  | loading
  /-- Before `current_threads == _no_threads`. -/
  | comparing (currentThreads : Nat)
  /-- Before a load of the count that the test of the loop follows. -/
  | reloading
  /-- Before `current_threads < _no_threads`. -/
  | testing (currentThreads : Nat)
  /-- `release_all` or `release_and_wait` before the assertion and the reset of the count. -/
  | resetting
  /-- Before `prev_sem = _semaphores[_active_sem_idx]`. -/
  | picking
  /-- Before `_swap_semaphores()`. -/
  | swapping (prevSem : Fin 2)
  /-- In the posting loop. -/
  | posting
  | unlocking
  deriving DecidableEq, Repr

/-- The thread that holds the mutex, and its next statement. -/
inductive Holder where
  | worker (i : Nat) (next : Waiting)
  | ctrl (next : Calling)
  deriving DecidableEq, Repr

/-- The shared variables and the program points of the threads outside their sections. A
worker is past `mutex_lock` of its `wait` while it is the holder. -/
structure State where
  pool : Pool.State
  holder : Option Holder

def init (cores : List CoreTable.CpuInfo) : State := ⟨Pool.init cores, none⟩

inductive Label where
  | call (c : Pool.Call)
  | ret (r : Pool.Ret)
  /-- The controlling thread locks the mutex, or has it back from `condition_wait`. -/
  | lock
  /-- Worker `i` locks the mutex. -/
  | lockWorker (i : Nat)
  /-- The next statement of the holder, but for the reset of the count. -/
  | statement
  /-- The assertion and the reset of the count. -/
  | reset
  /-- A step of the controlling thread outside the barrier. -/
  | ctrl
  | spurious
  /-- A step of a worker outside the section of `wait`. -/
  | worker (i : Nat) (a : WorkerAct)
  deriving DecidableEq, Repr

/-- The first statement of the section that the controlling thread is before. -/
def firstStatement : Ctrl → Option Calling
  | .raising _ _ | .lowering _ | .retiring _ _ => some .storing
  | .waitForAll _ => some .loading
  | .woken _ => some .reloading
  | .releasing _ => some .resetting
  | _ => none

/-- Whose loop the test of the count belongs to. -/
def waiterOf : Ctrl → Option Waiter
  | .waitForAll k | .woken k => some k
  | .posting .wakeupAndWait _ _ => some .wakeupAndWait
  | _ => none

def State.inSection (s : State) : Bool :=
  match s.holder with
  | some (.ctrl _) => true
  | _ => false

def State.holds (s : State) (i : Nat) : Bool :=
  match s.holder with
  | some (.worker j _) => i = j
  | _ => false

/-- A step of the pool outside the sections. -/
def State.lift (s : State) (l : Pool.Label) : Option State :=
  (Pool.step s.pool l).map fun p => { s with pool := p }

/-- A statement of `wait`. -/
def waitStatement (s : State) (i : Nat) : Waiting → Option State
  | .reading => some { s with holder := some (.worker i (.counting s.pool.barrier.activeSemIdx)) }
  | .counting activeSem =>
    s.pool.workers[i]?.map fun w =>
      { pool := { s.pool with
          barrier := s.pool.barrier.enter
          workers := s.pool.workers.set i { w with pc := .parked activeSem } }
        holder := some (.worker i
          (if s.pool.barrier.noThreadsCurrentlyOnBarrier + 1 ≥ s.pool.barrier.noThreads
            then .signalling else .unlocking)) }
  | .signalling =>
    some ⟨s.pool.setCtrl s.pool.ctrl.signalled, some (.worker i .unlocking)⟩
  | .unlocking => some { s with holder := none }

/-- A statement of the controlling thread in its section. -/
def callStatement (s : State) : Calling → Option State
  | .storing => (Pool.ctrlStep s.pool).map fun p => ⟨p, some (.ctrl .unlocking)⟩
  | .loading =>
    some { s with holder := some (.ctrl (.comparing s.pool.barrier.noThreadsCurrentlyOnBarrier)) }
  | .comparing currentThreads =>
    match s.pool.ctrl with
    | .waitForAll k =>
      if currentThreads = s.pool.barrier.noThreads then
        some ⟨s.pool.setCtrl k.next, some (.ctrl .unlocking)⟩
      else some { s with holder := some (.ctrl (.testing currentThreads)) }
    | _ => none
  | .reloading =>
    some { s with holder := some (.ctrl (.testing s.pool.barrier.noThreadsCurrentlyOnBarrier)) }
  | .testing currentThreads =>
    (waiterOf s.pool.ctrl).map fun k =>
      -- `condition_wait` unlocks the mutex
      if currentThreads < s.pool.barrier.noThreads then ⟨s.pool.setCtrl (.asleep k), none⟩
      else ⟨s.pool.setCtrl k.next, some (.ctrl .unlocking)⟩
  | .resetting => none
  | .picking => some { s with holder := some (.ctrl (.swapping s.pool.barrier.activeSemIdx)) }
  | .swapping prevSem =>
    match s.pool.ctrl with
    | .releasing k =>
      some ⟨{ s.pool with
        barrier := s.pool.barrier.swapSemaphores
        ctrl := .posting k prevSem 0 }, some (.ctrl .posting)⟩
    | _ => none
  | .posting =>
    match s.pool.ctrl with
    | .posting k prevSem i =>
      if i < s.pool.barrier.noThreads then
        some { s with pool := { s.pool with
          barrier := s.pool.barrier.signal prevSem
          ctrl := .posting k prevSem (i + 1) } }
      else if k = .wakeupAndWait then some { s with holder := some (.ctrl .reloading) }
      else some ⟨s.pool.setCtrl (k.next s.pool.barrier), some (.ctrl .unlocking)⟩
    | _ => none
  | .unlocking => some { s with holder := none }

def step (s : State) : Label → Option State
  | .call c => if s.inSection then none else s.lift (.call c)
  | .ret r => if s.inSection then none else s.lift (.ret r)
  | .spurious => if s.inSection then none else s.lift .spurious
  | .ctrl =>
    if s.inSection = true ∨ firstStatement s.pool.ctrl ≠ none then none else s.lift .ctrl
  | .lock =>
    match s.holder, firstStatement s.pool.ctrl with
    | none, some next => some { s with holder := some (.ctrl next) }
    | _, _ => none
  | .lockWorker i =>
    match s.holder, s.pool.workers[i]? with
    | none, some w =>
      if w.pc = .entering then some { s with holder := some (.worker i .reading) } else none
    | _, _ => none
  | .statement =>
    match s.holder with
    | none => none
    | some (.worker i next) => waitStatement s i next
    | some (.ctrl next) => callStatement s next
  | .reset =>
    match s.holder with
    | some (.ctrl .resetting) =>
      some ⟨{ s.pool with barrier := { s.pool.barrier with noThreadsCurrentlyOnBarrier := 0 } },
        some (.ctrl .picking)⟩
    | _ => none
  | .worker i a => if a = .register ∨ s.holds i = true then none else s.lift (.worker i a)

/-! ## The state of the pool that a state of the statements stands for -/

/-- The count and the semaphores as they are after the release that has begun. -/
def released (p : Pool.State) : Pool.State :=
  match p.ctrl with
  | .releasing k =>
    { p with barrier := p.barrier.release, ctrl := .posting k p.barrier.activeSemIdx 0 }
  | _ => p

/-- The increment of the count stands for all of `wait`, and the reset for the swap. -/
def State.abs (s : State) : Pool.State :=
  match s.holder with
  | some (.worker _ .signalling) => s.pool.setCtrl s.pool.ctrl.signalled
  | some (.ctrl .picking) | some (.ctrl (.swapping _)) => released s.pool
  | _ => s.pool

/-- The controller is at the load after the posting loop of `release_and_wait`. -/
def Posted (p : Pool.State) : Prop :=
  ∃ sem i, p.ctrl = .posting .wakeupAndWait sem i ∧ p.barrier.noThreads ≤ i

/-- What holds at the next statement of the holder. -/
def Holder.Ok (p : Pool.State) : Holder → Prop
  | .worker i .reading =>
    p.ctrl.holdsMutex = false ∧ ∃ w, p.workers[i]? = some w ∧ w.pc = .entering
  | .worker i (.counting activeSem) =>
    p.ctrl.holdsMutex = false ∧ activeSem = p.barrier.activeSemIdx ∧
      ∃ w, p.workers[i]? = some w ∧ w.pc = .entering
  | .worker _ .signalling | .worker _ .unlocking => p.ctrl.holdsMutex = false
  | .ctrl .storing => firstStatement p.ctrl = some .storing
  | .ctrl .loading => ∃ k, p.ctrl = .waitForAll k
  | .ctrl (.comparing currentThreads) =>
    (∃ k, p.ctrl = .waitForAll k) ∧ currentThreads = p.barrier.noThreadsCurrentlyOnBarrier
  | .ctrl .reloading => (∃ k, p.ctrl = .woken k) ∨ Posted p
  | .ctrl (.testing currentThreads) =>
    ((∃ k, p.ctrl = .waitForAll k ∧ currentThreads ≠ p.barrier.noThreads) ∨
      (∃ k, p.ctrl = .woken k) ∨ Posted p) ∧
      currentThreads = p.barrier.noThreadsCurrentlyOnBarrier
  | .ctrl .resetting => ∃ k, p.ctrl = .releasing k
  | .ctrl .picking => (∃ k, p.ctrl = .releasing k) ∧ p.barrier.noThreadsCurrentlyOnBarrier = 0
  | .ctrl (.swapping prevSem) =>
    (∃ k, p.ctrl = .releasing k) ∧ p.barrier.noThreadsCurrentlyOnBarrier = 0 ∧
      prevSem = p.barrier.activeSemIdx
  | .ctrl .posting => ∃ k sem i, p.ctrl = .posting k sem i
  | .ctrl .unlocking => p.ctrl.holdsMutex = false

def Ok (s : State) : Prop :=
  match s.holder with
  | none => s.pool.ctrl.holdsMutex = false
  | some h => h.Ok s.pool

theorem init_ok (cores : List CoreTable.CpuInfo) : Ok (init cores) := rfl

/-! ## Steps outside the sections -/

theorem lift_some {s t : State} {l : Pool.Label} (h : s.lift l = some t) :
    ∃ p, Pool.step s.pool l = some p ∧ t = { s with pool := p } := by
  obtain ⟨p, hp, rfl⟩ := Option.map_eq_some_iff.mp h
  exact ⟨p, hp, rfl⟩

/-- The variables under the mutex replaced by others. -/
def masked (p : Pool.State) (activeSemIdx : Fin 2) (count : Nat) (c : Ctrl) : Pool.State :=
  { p with
    barrier := { p.barrier with
      activeSemIdx := activeSemIdx
      noThreadsCurrentlyOnBarrier := count }
    ctrl := c }

/-- A worker outside its section does not look at them. -/
theorem worker_masked {p q : Pool.State} {i : Nat} {a : WorkerAct} (ha : a ≠ .register)
    (h : Pool.step p (.worker i a) = some q) (activeSemIdx : Fin 2) (count : Nat) (c : Ctrl) :
    Pool.step (masked p activeSemIdx count c) (.worker i a) =
      some (masked q activeSemIdx count c) := by
  obtain ⟨w, hw, ⟨hr, -⟩ | ⟨rfl, sem, hpc, hsem, rfl⟩ | ⟨rfl, sem, hpc, rfl⟩ | ⟨w', hl, rfl⟩⟩ :=
    Pool.worker_cases h
  · exact absurd hr ha
  · simp [Pool.step, masked, hw, Pool.workerStep, hpc, hsem, Pool.State.setWorker,
      Pool.Barrier.take]
  · simp [Pool.step, masked, hw, Pool.workerStep, hpc, Pool.State.setWorker]
  · cases a
    case register | take | interrupted => cases hl
    all_goals simp [Pool.step, masked, hw, Pool.workerStep, hl, Pool.State.setWorker]

/-- Nor does it change them. -/
theorem worker_keeps {p q : Pool.State} {i : Nat} {a : WorkerAct} (ha : a ≠ .register)
    (h : Pool.step p (.worker i a) = some q) :
    q.ctrl = p.ctrl ∧ q.barrier.activeSemIdx = p.barrier.activeSemIdx ∧
      q.barrier.noThreadsCurrentlyOnBarrier = p.barrier.noThreadsCurrentlyOnBarrier ∧
      q.barrier.noThreads = p.barrier.noThreads := by
  obtain ⟨w, hw, ⟨hr, -⟩ | ⟨-, sem, -, -, rfl⟩ | ⟨-, sem, -, rfl⟩ | ⟨w', -, rfl⟩⟩ :=
    Pool.worker_cases h
  · exact absurd hr ha
  all_goals exact ⟨rfl, rfl, rfl, rfl⟩

/-- A step of the controlling thread that is in no section and leads into none. -/
structure Outside (p q : Pool.State) : Prop where
  barrier : q.barrier = p.barrier
  holdsMutex : q.ctrl.holdsMutex = false
  before : p.ctrl.signalled = p.ctrl
  after : q.ctrl.signalled = q.ctrl

theorem outside_call {p q : Pool.State} {c : Pool.Call} (h : Pool.step p (.call c) = some q) :
    Outside p q := by
  obtain ⟨hc, rfl⟩ := Pool.call_idle h
  have hstart : (c.enter p.cores).holdsMutex = false ∧
      (c.enter p.cores).signalled = c.enter p.cores := by
    cases c with
    | addWorker a =>
      simp only [Pool.Call.enter]
      split <;> exact ⟨rfl, rfl⟩
    | _ => exact ⟨rfl, rfl⟩
  exact ⟨rfl, hstart.1, by rw [hc]; rfl, hstart.2⟩

theorem outside_ret {p q : Pool.State} {r : Pool.Ret} (h : Pool.step p (.ret r) = some q) :
    Outside p q := by
  obtain ⟨hc, rfl⟩ := Pool.ret_returning h
  exact ⟨rfl, rfl, by rw [hc]; rfl, rfl⟩

theorem outside_ctrl {p q : Pool.State} (hs : firstStatement p.ctrl = none)
    (hm : p.ctrl.holdsMutex = false) (h : Pool.step p .ctrl = some q) : Outside p q := by
  cases Pool.ctrl_cases h with
  | raise hc | lower hc | retire hc => simp [hc, firstStatement] at hs
  | sleep hc | proceed hc =>
    cases hc with
    | inl hc | inr hc => simp [hc, firstStatement] at hs
  | post hc | posted hc => simp [hc, Ctrl.holdsMutex] at hm
  | spawn hc | runFails hc | accept hc | refuse hc | stop hc | pop hc | storeRunning hc | join hc
  | joined hc => exact ⟨rfl, rfl, by rw [hc]; rfl, rfl⟩

/-- A worker that is at the call of `wait` stays there until its own next step. -/
theorem entering_stays {p q : Pool.State} {l : Pool.Label} {i : Nat} {w : Pool.WorkerThread}
    (h : Pool.step p l = some q) (hl : ∀ a, l ≠ .worker i a) (hw : p.workers[i]? = some w)
    (hpc : w.pc = .entering) : ∃ w', q.workers[i]? = some w' ∧ w'.pc = .entering := by
  obtain ⟨w', hw', hpc'⟩ := PoolWorkgroups.pc_kept h hl hw (by simp [hpc])
  exact ⟨w', hw', hpc'.trans hpc⟩

/-! ## The statements refine the steps -/

/-- The labels of the pool but for the controller's own steps and the registrations. -/
def shown : Pool.Label → Option Pool.Label
  | .ctrl | .spurious | .worker _ .register => none
  | l => some l

def Label.shown : Label → Option Pool.Label
  | .call c => some (.call c)
  | .ret r => some (.ret r)
  | .reset => some .release
  | .worker i a => BarrierStatements.shown (.worker i a)
  | .lock | .lockWorker _ | .statement | .ctrl | .spurious => none

/-- The statements until the next one that the pool has a step for. A section has one, and
may take the mutex for it first. -/
def pending : Option Holder → Nat
  | some (.worker _ (.counting _)) => 0
  | some (.ctrl .storing) | some (.ctrl (.testing _)) | some (.ctrl .resetting) => 0
  | some (.worker _ .reading) | some (.ctrl (.comparing _)) | some (.ctrl .reloading) => 1
  | some (.ctrl .loading) | some (.ctrl .posting) => 2
  | none | some (.ctrl (.swapping _)) => 3
  | some (.worker _ .unlocking) | some (.ctrl .picking) | some (.ctrl .unlocking) => 4
  | some (.worker _ .signalling) => 5

/-- The pool takes no step, or one that shows as the statement does. -/
inductive Follows (s t : State) (l : Label) : Prop where
  | stutters (habs : t.abs = s.abs) (hl : l.shown = none)
    (hless : l ≠ .spurious → pending t.holder < pending s.holder)
    (hspurious : l = .spurious → t.holder = s.holder)
  | steps {k : Pool.Label} (hstep : Pool.step s.abs k = some t.abs) (hk : shown k = l.shown)
    (hspurious : k = .spurious → l = .spurious)

section Refinement

variable {s t : State} {l : Label}

theorem follows_step {k : Pool.Label} (h : Pool.step s.abs k = some t.abs)
    (hk : shown k = l.shown) (hspurious : k ≠ .spurious) : Follows s t l :=
  .steps h hk fun hk => absurd hk hspurious

theorem follows_same (h : t.abs = s.abs) (hl : l.shown = none) (hlabel : l ≠ .spurious)
    (hless : pending t.holder < pending s.holder) : Follows s t l :=
  .stutters h hl (fun _ => hless) fun h => absurd h hlabel

/-- Between the sections of the controller at most a signal is on its way. -/
theorem abs_outside (hsec : s.inSection = false) (hc : s.pool.ctrl.signalled = s.pool.ctrl) :
    s.abs = s.pool := by
  cases hh : s.holder with
  | none => simp [State.abs, hh]
  | some h =>
    cases h with
    | ctrl next => simp [State.inSection, hh] at hsec
    | worker i next => cases next <;> simp [State.abs, hh, hc, Pool.State.setCtrl]

theorem Ok.free (h : Ok s) (hsec : s.inSection = false) : s.pool.ctrl.holdsMutex = false := by
  cases hh : s.holder with
  | none => simpa [Ok, hh] using h
  | some holder =>
    cases holder with
    | ctrl next => simp [State.inSection, hh] at hsec
    | worker i next =>
      simp only [Ok, hh] at h
      cases next with
      | reading | counting => exact h.1
      | signalling | unlocking => exact h

theorem Ok.outside {p : Pool.State} {k : Pool.Label} (h : Ok s) (hsec : s.inSection = false)
    (hout : Outside s.pool p) (hk : ∀ i a, k ≠ .worker i a)
    (hp : Pool.step s.pool k = some p) : Ok { s with pool := p } := by
  cases hh : s.holder with
  | none => simpa [Ok, hh] using hout.holdsMutex
  | some holder =>
    cases holder with
    | ctrl next => simp [State.inSection, hh] at hsec
    | worker i next =>
      simp only [Ok, hh] at h ⊢
      cases next with
      | reading =>
        obtain ⟨w, hw, hpc⟩ := h.2
        exact ⟨hout.holdsMutex, entering_stays hp (hk i) hw hpc⟩
      | counting activeSem =>
        obtain ⟨w, hw, hpc⟩ := h.2.2
        exact ⟨hout.holdsMutex, by rw [hout.barrier]; exact h.2.1, entering_stays hp (hk i) hw hpc⟩
      | signalling | unlocking => exact hout.holdsMutex

/-- A step of the controlling thread outside the barrier. -/
theorem Ok.lift {k : Pool.Label} (h : Ok s) (hsec : s.inSection = false)
    (hout : ∀ p, Pool.step s.pool k = some p → Outside s.pool p) (hk : ∀ i a, k ≠ .worker i a)
    (hl : shown k = l.shown) (hspurious : k ≠ .spurious) (hstep : s.lift k = some t) :
    Ok t ∧ Follows s t l := by
  obtain ⟨p, hp, rfl⟩ := lift_some hstep
  have ho := hout p hp
  refine ⟨h.outside hsec ho hk hp, follows_step (k := k) ?_ hl hspurious⟩
  rw [abs_outside hsec ho.before, abs_outside (s := { s with pool := p }) hsec ho.after]
  exact hp

theorem Ok.spurious (h : Ok s) (hsec : s.inSection = false)
    (hstep : s.lift .spurious = some t) : Ok t ∧ Follows s t .spurious := by
  obtain ⟨p, hp, rfl⟩ := lift_some hstep
  obtain ⟨k, hc, rfl⟩ := Pool.spurious_asleep hp
  cases hh : s.holder with
  | none =>
    refine ⟨by simp [Ok, Pool.State.setCtrl, Ctrl.holdsMutex],
      .steps (k := .spurious) ?_ rfl fun _ => rfl⟩
    simpa [State.abs, hh] using hp
  | some holder =>
    cases holder with
    | ctrl next => simp [State.inSection, hh] at hsec
    | worker i next =>
      simp only [Ok, hh] at h ⊢
      cases next with
      | reading | counting =>
        refine ⟨⟨rfl, h.2⟩, .steps (k := .spurious) ?_ rfl fun _ => rfl⟩
        simpa [State.abs, hh] using hp
      | signalling =>
        -- the signal comes too late for a controller that has woken up by itself
        refine ⟨rfl, .stutters ?_ rfl (fun hl => absurd rfl hl) fun _ => hh.symm⟩
        simp [State.abs, hh, hc, Pool.State.setCtrl, Ctrl.signalled]
      | unlocking =>
        refine ⟨rfl, .steps (k := .spurious) ?_ rfl fun _ => rfl⟩
        simpa [State.abs, hh] using hp

theorem ok_lock (hstep : step s .lock = some t) : Ok t ∧ Follows s t .lock := by
  simp only [step] at hstep
  split at hstep
  · rename_i next hh hsec
    cases hstep
    constructor
    · simp only [Ok]
      cases hc : s.pool.ctrl <;> simp only [hc, firstStatement, reduceCtorEq, Option.some.injEq] at hsec <;>
        subst hsec <;> simp [Holder.Ok, hc, firstStatement]
    · cases hc : s.pool.ctrl <;>
        simp only [hc, firstStatement, reduceCtorEq, Option.some.injEq] at hsec <;>
        subst hsec <;>
        exact follows_same (by simp [State.abs, hh]) rfl (by simp) (by simp [pending, hh])
  · cases hstep

theorem Ok.lockWorker {i : Nat} (h : Ok s) (hstep : step s (.lockWorker i) = some t) :
    Ok t ∧ Follows s t (.lockWorker i) := by
  simp only [step] at hstep
  split at hstep
  · rename_i w hh hw
    split at hstep
    · rename_i hpc
      cases hstep
      simp only [Ok, hh] at h
      exact ⟨⟨h, w, hw, hpc⟩, follows_same (by simp [State.abs, hh]) rfl (by simp)
        (by simp [pending, hh])⟩
    · cases hstep
  · cases hstep

theorem Ok.reset (h : Ok s) (hstep : step s .reset = some t) : Ok t ∧ Follows s t .reset := by
  simp only [step] at hstep
  split at hstep
  · rename_i hh
    cases hstep
    simp only [Ok, hh] at h
    obtain ⟨k, hc⟩ := h
    refine ⟨⟨⟨k, hc⟩, rfl⟩, follows_step (k := .release) ?_ rfl (by simp)⟩
    simp [State.abs, hh, released, hc, Pool.step, Pool.Barrier.release]
  · cases hstep

/-- The releasing controller's part of the mask. -/
theorem released_masked (s : Pool.State) : ∃ (activeSemIdx : Fin 2) (count : Nat) (c : Ctrl),
    ∀ p : Pool.State, p.ctrl = s.ctrl → p.barrier.activeSemIdx = s.barrier.activeSemIdx →
      p.barrier.noThreadsCurrentlyOnBarrier = s.barrier.noThreadsCurrentlyOnBarrier →
      released p = masked p activeSemIdx count c := by
  by_cases hk : ∃ k, s.ctrl = .releasing k
  · obtain ⟨k, hk⟩ := hk
    refine ⟨1 - s.barrier.activeSemIdx, 0, .posting k s.barrier.activeSemIdx 0, fun p hc hi _ => ?_⟩
    simp [released, hc, hk, hi, masked, Pool.Barrier.release]
  · refine ⟨s.barrier.activeSemIdx, s.barrier.noThreadsCurrentlyOnBarrier, s.ctrl,
      fun p hc hi hn => ?_⟩
    have hnone : released p = p := by
      unfold released
      split
      · rename_i k hpk
        exact absurd ⟨k, hc ▸ hpk⟩ hk
      · rfl
    rw [hnone]
    simp [masked, ← hc, ← hi, ← hn]

/-- What a state stands for differs from it in the variables under the mutex only. -/
theorem abs_masked (s : State) : ∃ (activeSemIdx : Fin 2) (count : Nat) (c : Ctrl),
    ∀ p : Pool.State, p.ctrl = s.pool.ctrl →
      p.barrier.activeSemIdx = s.pool.barrier.activeSemIdx →
      p.barrier.noThreadsCurrentlyOnBarrier = s.pool.barrier.noThreadsCurrentlyOnBarrier →
      ({ s with pool := p } : State).abs = masked p activeSemIdx count c := by
  obtain ⟨pool, holder⟩ := s
  have hplain : (∀ p, State.abs ⟨p, holder⟩ = p) → ∃ (activeSemIdx : Fin 2) (count : Nat) (c : Ctrl),
      ∀ p : Pool.State, p.ctrl = pool.ctrl →
        p.barrier.activeSemIdx = pool.barrier.activeSemIdx →
        p.barrier.noThreadsCurrentlyOnBarrier = pool.barrier.noThreadsCurrentlyOnBarrier →
        State.abs ⟨p, holder⟩ = masked p activeSemIdx count c := by
    intro habs
    refine ⟨pool.barrier.activeSemIdx, pool.barrier.noThreadsCurrentlyOnBarrier, pool.ctrl,
      fun p hc hi hn => ?_⟩
    rw [habs p]
    simp [masked, ← hc, ← hi, ← hn]
  cases holder with
  | none => exact hplain fun _ => rfl
  | some holder =>
    cases holder with
    | worker i next =>
      cases next with
      | signalling =>
        refine ⟨pool.barrier.activeSemIdx, pool.barrier.noThreadsCurrentlyOnBarrier,
          pool.ctrl.signalled, fun p hc hi hn => ?_⟩
        dsimp only at hc hi hn
        simp [State.abs, masked, Pool.State.setCtrl, ← hc, ← hi, ← hn]
      | _ => exact hplain fun _ => rfl
    | ctrl next =>
      cases next with
      | picking | swapping => simpa [State.abs] using released_masked pool
      | _ => exact hplain fun _ => rfl

/-- The holder's next statement looks at the variables under the mutex, and a worker's at
the worker. -/
theorem Holder.Ok.kept {p q : Pool.State} {holder : Holder} (h : holder.Ok p)
    (hc : q.ctrl = p.ctrl) (hi : q.barrier.activeSemIdx = p.barrier.activeSemIdx)
    (hn : q.barrier.noThreadsCurrentlyOnBarrier = p.barrier.noThreadsCurrentlyOnBarrier)
    (ht : q.barrier.noThreads = p.barrier.noThreads)
    (hw : ∀ i next, holder = .worker i next → (∃ w, p.workers[i]? = some w ∧ w.pc = .entering) →
      ∃ w, q.workers[i]? = some w ∧ w.pc = .entering) : holder.Ok q := by
  cases holder with
  | worker i next =>
    have hent := hw i next rfl
    cases next with
    | reading => exact ⟨by rw [hc]; exact h.1, hent h.2⟩
    | counting activeSem => exact ⟨by rw [hc]; exact h.1, by rw [hi]; exact h.2.1, hent h.2.2⟩
    | signalling | unlocking => simpa [Holder.Ok, hc] using h
  | ctrl next => cases next <;> simpa [Holder.Ok, Posted, hc, hi, hn, ht] using h

theorem Ok.worker {i : Nat} {a : WorkerAct} (h : Ok s)
    (hstep : step s (.worker i a) = some t) : Ok t ∧ Follows s t (.worker i a) := by
  simp only [step] at hstep
  split at hstep
  · cases hstep
  · rename_i hn
    simp only [not_or, Bool.not_eq_true] at hn
    obtain ⟨ha, hholds⟩ := hn
    obtain ⟨p, hp, rfl⟩ := lift_some hstep
    obtain ⟨hctrl, hidx, hcount, hthreads⟩ := worker_keeps ha hp
    constructor
    · cases hh : s.holder with
      | none => simpa [Ok, hh, hctrl] using h
      | some holder =>
        simp only [Ok, hh] at h ⊢
        apply h.kept hctrl hidx hcount hthreads
        rintro j next rfl ⟨w, hw, hpc⟩
        have hij : i ≠ j := by simpa [State.holds, hh] using hholds
        exact entering_stays hp (by simp [hij]) hw hpc
    · obtain ⟨activeSemIdx, count, c, habs⟩ := abs_masked s
      apply follows_step (k := .worker i a) ?_ rfl (by simp)
      rw [habs p hctrl hidx hcount, show s.abs = _ from habs s.pool rfl rfl rfl]
      exact worker_masked ha hp activeSemIdx count c

/-! ## The statements of a section -/

variable {p : Pool.State}

theorem wait_ok {i : Nat} {next : Waiting} (h : (Holder.worker i next).Ok p)
    (hstep : waitStatement ⟨p, some (.worker i next)⟩ i next = some t) :
    Ok t ∧ Follows ⟨p, some (.worker i next)⟩ t .statement := by
  cases next with
  | reading =>
    cases hstep
    exact ⟨⟨h.1, rfl, h.2⟩, follows_same rfl rfl (by simp) (by simp [pending])⟩
  | counting activeSem =>
    obtain ⟨hm, rfl, w, hw, hpc⟩ := h
    simp only [waitStatement, hw, Option.map_some, Option.some.injEq] at hstep
    subst hstep
    have hregister : Pool.step p (.worker i .register) = some (p.register i w) := by
      simp [Pool.step, hw, Pool.workerStep, hpc, hm]
    by_cases hfull : p.barrier.noThreadsCurrentlyOnBarrier + 1 ≥ p.barrier.noThreads
    · rw [if_pos hfull]
      refine ⟨hm, follows_step (k := .worker i .register) (hregister.trans ?_) rfl (by simp)⟩
      simp only [Pool.State.register, if_pos hfull]
      rfl
    · rw [if_neg hfull]
      refine ⟨hm, follows_step (k := .worker i .register) (hregister.trans ?_) rfl (by simp)⟩
      simp only [Pool.State.register, if_neg hfull]
      rfl
  | signalling =>
    cases hstep
    have hm : p.ctrl.signalled.holdsMutex = false := by
      have hfree : p.ctrl.holdsMutex = false := h
      cases hc : p.ctrl <;> simp_all [Ctrl.signalled, Ctrl.holdsMutex]
    exact ⟨hm, follows_same rfl rfl (by simp) (by simp [pending])⟩
  | unlocking =>
    cases hstep
    exact ⟨h, follows_same rfl rfl (by simp) (by simp [pending])⟩

/-- `set_no_threads` stores once. -/
theorem store_ok (h : (Holder.ctrl .storing).Ok p)
    (hstep : callStatement ⟨p, some (.ctrl .storing)⟩ .storing = some t) :
    Ok t ∧ Follows ⟨p, some (.ctrl .storing)⟩ t .statement := by
  obtain ⟨q, hq, rfl⟩ := Option.map_eq_some_iff.mp hstep
  refine ⟨?_, follows_step (k := .ctrl) hq rfl (by simp)⟩
  have hq : Pool.ctrlStep p = some q := hq
  have hsec : firstStatement p.ctrl = some .storing := h
  cases Pool.ctrl_cases hq with
  | raise | lower | retire => rfl
  | sleep hc | proceed hc =>
    cases hc with
    | inl hc | inr hc => simp [hc, firstStatement] at hsec
  | spawn hc | runFails hc | accept hc | refuse hc | stop hc | post hc | posted hc | pop hc
  | storeRunning hc | join hc | joined hc => simp [hc, firstStatement] at hsec

/-- `current_threads == _no_threads` ends `wait_for_all` or leads to its loop. -/
theorem compare_ok {n : Nat} (h : (Holder.ctrl (.comparing n)).Ok p)
    (hstep : callStatement ⟨p, some (.ctrl (.comparing n))⟩ (.comparing n) = some t) :
    Ok t ∧ Follows ⟨p, some (.ctrl (.comparing n))⟩ t .statement := by
  obtain ⟨⟨k, hc⟩, rfl⟩ := h
  simp only [callStatement, hc] at hstep
  split at hstep <;> rename_i heq <;> cases hstep
  · refine ⟨Pool.Waiter.next_free k, follows_step (k := .ctrl) ?_ rfl (by simp)⟩
    simp [State.abs, Pool.step, Pool.ctrlStep, hc, heq]
  · exact ⟨⟨.inl ⟨k, hc, heq⟩, rfl⟩, follows_same rfl rfl (by simp) (by simp [pending])⟩

/-- `current_threads < _no_threads` leads to `condition_wait` or out of the loop. -/
theorem test_ok {n : Nat} (h : (Holder.ctrl (.testing n)).Ok p)
    (hstep : callStatement ⟨p, some (.ctrl (.testing n))⟩ (.testing n) = some t) :
    Ok t ∧ Follows ⟨p, some (.ctrl (.testing n))⟩ t .statement := by
  obtain ⟨hwait, rfl⟩ := h
  obtain ⟨k, hk, rfl⟩ := Option.map_eq_some_iff.mp hstep
  dsimp only at hk ⊢
  by_cases hlt : p.barrier.noThreadsCurrentlyOnBarrier < p.barrier.noThreads
  · rw [if_pos hlt]
    refine ⟨rfl, follows_step (k := .ctrl) ?_ rfl (by simp)⟩
    rcases hwait with ⟨k', hc, hne⟩ | ⟨k', hc⟩ | ⟨sem, i, hc, hi⟩ <;>
      simp only [hc, waiterOf, Option.some.injEq] at hk <;> subst hk
    · simp [State.abs, Pool.step, Pool.ctrlStep, hc, hne, hlt]
    · simp [State.abs, Pool.step, Pool.ctrlStep, hc, hlt]
    · simp [State.abs, Pool.step, Pool.ctrlStep, hc, hlt, Nat.not_lt.mpr hi, Releaser.next]
  · rw [if_neg hlt]
    refine ⟨Pool.Waiter.next_free k, follows_step (k := .ctrl) ?_ rfl (by simp)⟩
    rcases hwait with ⟨k', hc, hne⟩ | ⟨k', hc⟩ | ⟨sem, i, hc, hi⟩ <;>
      simp only [hc, waiterOf, Option.some.injEq] at hk <;> subst hk
    · simp [State.abs, Pool.step, Pool.ctrlStep, hc, hne, hlt]
    · simp [State.abs, Pool.step, Pool.ctrlStep, hc, hlt]
    · simp [State.abs, Pool.step, Pool.ctrlStep, hc, hlt, Nat.not_lt.mpr hi, Releaser.next,
        Waiter.next]

/-- The swap completes the release that the reset of the count stood for. -/
theorem swap_ok {sem : Fin 2} (h : (Holder.ctrl (.swapping sem)).Ok p)
    (hstep : callStatement ⟨p, some (.ctrl (.swapping sem))⟩ (.swapping sem) = some t) :
    Ok t ∧ Follows ⟨p, some (.ctrl (.swapping sem))⟩ t .statement := by
  obtain ⟨⟨k, hc⟩, hcount, rfl⟩ := h
  simp only [callStatement, hc, Option.some.injEq] at hstep
  subst hstep
  refine ⟨⟨k, _, _, rfl⟩, follows_same ?_ rfl (by simp) (by simp [pending])⟩
  simp [State.abs, released, hc, Pool.Barrier.release, Pool.Barrier.swapSemaphores, ← hcount]

/-- One pass of the posting loop, or its end. -/
theorem post_ok (h : (Holder.ctrl .posting).Ok p)
    (hstep : callStatement ⟨p, some (.ctrl .posting)⟩ .posting = some t) :
    Ok t ∧ Follows ⟨p, some (.ctrl .posting)⟩ t .statement := by
  obtain ⟨k, sem, i, hc⟩ := h
  simp only [callStatement, hc] at hstep
  split at hstep
  · rename_i hi
    cases hstep
    refine ⟨⟨k, sem, i + 1, rfl⟩, follows_step (k := .ctrl) ?_ rfl (by simp)⟩
    simp [State.abs, Pool.step, Pool.ctrlStep, hc, hi]
  · rename_i hi
    split at hstep <;> rename_i hk <;> cases hstep
    · subst hk
      exact ⟨.inr ⟨sem, i, hc, Nat.not_lt.mp hi⟩, follows_same rfl rfl (by simp) (by simp [pending])⟩
    · refine ⟨?_, follows_step (k := .ctrl) ?_ rfl (by simp)⟩
      · cases k <;> first | rfl | exact absurd rfl hk
      · simp [State.abs, Pool.step, Pool.ctrlStep, hc, hi]

theorem call_ok {next : Calling} (h : (Holder.ctrl next).Ok p)
    (hstep : callStatement ⟨p, some (.ctrl next)⟩ next = some t) :
    Ok t ∧ Follows ⟨p, some (.ctrl next)⟩ t .statement := by
  cases next with
  | storing => exact store_ok h hstep
  | comparing n => exact compare_ok h hstep
  | testing n => exact test_ok h hstep
  | swapping sem => exact swap_ok h hstep
  | posting => exact post_ok h hstep
  | resetting => cases hstep
  | loading =>
    cases hstep
    exact ⟨⟨h, rfl⟩, follows_same rfl rfl (by simp) (by simp [pending])⟩
  | reloading =>
    cases hstep
    exact ⟨⟨.inr h, rfl⟩, follows_same rfl rfl (by simp) (by simp [pending])⟩
  | picking =>
    cases hstep
    exact ⟨⟨h.1, h.2, rfl⟩, follows_same rfl rfl (by simp) (by simp [pending])⟩
  | unlocking =>
    cases hstep
    exact ⟨h, follows_same rfl rfl (by simp) (by simp [pending])⟩

/-- Every statement is one step of the pool, or none. -/
theorem Ok.step (h : Ok s) (hstep : step s l = some t) : Ok t ∧ Follows s t l := by
  cases l with
  | call c =>
    obtain ⟨hsec, hlift⟩ := Option.ite_none_left_eq_some.mp hstep
    exact h.lift (by simpa using hsec) (fun _ hp => outside_call hp) (by simp) rfl (by simp) hlift
  | ret r =>
    obtain ⟨hsec, hlift⟩ := Option.ite_none_left_eq_some.mp hstep
    exact h.lift (by simpa using hsec) (fun _ hp => outside_ret hp) (by simp) rfl (by simp) hlift
  | spurious =>
    obtain ⟨hsec, hlift⟩ := Option.ite_none_left_eq_some.mp hstep
    exact h.spurious (by simpa using hsec) hlift
  | ctrl =>
    obtain ⟨hn, hlift⟩ := Option.ite_none_left_eq_some.mp hstep
    simp only [not_or, Bool.not_eq_true, ne_eq, not_not] at hn
    exact h.lift hn.1 (fun _ hp => outside_ctrl hn.2 (h.free hn.1) hp) (by simp) rfl (by simp)
      hlift
  | lock => exact ok_lock hstep
  | lockWorker i => exact h.lockWorker hstep
  | reset => exact h.reset hstep
  | worker i a => exact h.worker hstep
  | statement =>
    obtain ⟨p, holder⟩ := s
    cases holder with
    | none => cases hstep
    | some holder =>
      cases holder with
      | worker i next => exact wait_ok h hstep
      | ctrl next => exact call_ok h hstep

end Refinement

/-! ## Runs of the statements -/

/-- The condition on the controlling thread, and no `semaphore_wait` that returns an error. -/
def Disciplined (tr : List Label) (s : State) (l : Label) : Prop :=
  match l.shown with
  | none => True
  | some k => Uninterrupted (tr.filterMap Label.shown) s.pool k

instance (tr : List Label) (s : State) (l : Label) : Decidable (Disciplined tr s l) := by
  unfold Disciplined
  split <;> infer_instance

section Runs

variable {cores : List CoreTable.CpuInfo} {tr : List Label} {s t : State}

/-- Every run of the statements is a run of the pool, with the same calls, returns, releases
and steps of the workers. -/
theorem statements_refine {obs : List Pool.Label}
    (h : Exec.Reaches step Label.shown (init cores) obs s) :
    Exec.Reaches Pool.step shown (Pool.init cores) obs s.abs := by
  have hsim : ∀ s p l t, (Ok s ∧ p = s.abs) → step s l = some t →
      ∃ q, Exec.Reaches Pool.step shown p (Label.shown l).toList q ∧ Ok t ∧ q = t.abs := by
    rintro s p l t ⟨hok, rfl⟩ hstep
    obtain ⟨hok', hfollows⟩ := hok.step hstep
    refine ⟨t.abs, ?_, hok', rfl⟩
    cases hfollows with
    | stutters habs hl =>
      rw [habs, hl]
      exact .refl _
    | steps hnext hk => exact hk ▸ .single hnext
  obtain ⟨p, hp, -, rfl⟩ := h.simulates hsim ⟨init_ok cores, rfl⟩
  exact hp

/-- The thread that holds the mutex always has its next statement. -/
theorem holder_goes_on (h : Ok s) {holder : Holder} (hh : s.holder = some holder) :
    ∃ l, (l = .statement ∨ l = .reset) ∧ (step s l).isSome = true := by
  simp only [Ok, hh] at h
  cases holder with
  | worker i next =>
    refine ⟨.statement, .inl rfl, ?_⟩
    cases next with
    | counting activeSem =>
      obtain ⟨-, -, w, hw, -⟩ := h
      simp [step, hh, waitStatement, hw]
    | _ => simp [step, hh, waitStatement]
  | ctrl next =>
    cases next with
    | resetting => exact ⟨.reset, .inr rfl, by simp [step, hh]⟩
    | storing =>
      refine ⟨.statement, .inl rfl, ?_⟩
      have hsec : firstStatement s.pool.ctrl = some .storing := h
      cases hc : s.pool.ctrl <;> simp [hc, firstStatement] at hsec <;>
        simp [step, hh, callStatement, Pool.ctrlStep, hc]
    | comparing n =>
      obtain ⟨⟨k, hc⟩, -⟩ := h
      refine ⟨.statement, .inl rfl, ?_⟩
      simp only [step, hh, callStatement, hc]
      split <;> rfl
    | testing n =>
      refine ⟨.statement, .inl rfl, ?_⟩
      obtain ⟨⟨k, hc, -⟩ | ⟨k, hc⟩ | ⟨sem, i, hc, -⟩, -⟩ := h <;>
        simp [step, hh, callStatement, hc, waiterOf]
    | swapping sem =>
      obtain ⟨⟨k, hc⟩, -⟩ := h
      exact ⟨.statement, .inl rfl, by simp [step, hh, callStatement, hc]⟩
    | posting =>
      obtain ⟨k, sem, i, hc⟩ := h
      refine ⟨.statement, .inl rfl, ?_⟩
      simp only [step, hh, callStatement, hc]
      repeat' split
      all_goals rfl
    | _ => exact ⟨.statement, .inl rfl, by simp [step, hh, callStatement]⟩

/-- With the mutex free, a worker that has a step in the pool has one, or locks the mutex. -/
theorem worker_goes_on (hh : s.holder = none) {i : Nat} {a : WorkerAct}
    (hstep : (Pool.step s.pool (.worker i a)).isSome = true) :
    (step s (.lockWorker i)).isSome = true ∨ (step s (.worker i a)).isSome = true := by
  by_cases hr : a = .register
  · subst hr
    obtain ⟨p, hp⟩ := Option.isSome_iff_exists.mp hstep
    obtain ⟨w, hw, ⟨-, hpc, -⟩ | ⟨hr, -⟩ | ⟨hr, -⟩ | ⟨w', hl, -⟩⟩ := Pool.worker_cases hp
    · exact .inl (by simp [step, hh, hw, hpc])
    · cases hr
    · cases hr
    · cases hl
  · exact .inr (by simpa [step, hr, State.holds, hh, State.lift] using hstep)

end Runs

end Twine.BarrierStatements
