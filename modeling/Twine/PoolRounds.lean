import Twine.PoolRuns
import Twine.Rounds

/-!
# Every round runs every callback exactly once

The pool refines the abstract rounds: a worker is due from the release that it
waits for until its callback starts, busy in the callback, and idle otherwise.
A release of the barrier is a release of the abstract machine, the two ends of a
callback are its events, and every other step leaves the phases alone.
-/
namespace Twine.Pool

open Placement
open Rounds (Phase Event)

def WorkerThread.phase (running : Bool) (activeSemIdx : Fin 2) (w : WorkerThread) : Phase :=
  match w.pc with
  | .parked sem =>
    if sem ≠ activeSemIdx ∧ running = true ∧ w.threadRunning = true then .due else .idle
  | .woken => if running = true ∧ w.threadRunning = true then .due else .idle
  | .polled => if w.threadRunning = true then .due else .idle
  | .ready => .due
  | .inCallback => .busy
  | .starting _ | .entering | .breaking | .exited => .idle

def phases (s : State) (i : Nat) : Phase :=
  match s.workers[i]? with
  | none => .idle
  | some w => w.phase s.running s.barrier.activeSemIdx

def event : Label → Option (Event Nat)
  | .release => some .release
  | .worker i .callbackStart => some (.start i)
  | .worker i .callbackEnd => some (.finish i)
  | _ => none

theorem phases_some {s : State} {i : Nat} {w : WorkerThread} (hw : s.workers[i]? = some w) :
    phases s i = w.phase s.running s.barrier.activeSemIdx := by
  simp [phases, hw]

/-- Replacing one worker updates one phase. -/
theorem phases_set {s t : State} {i : Nat} {w w' : WorkerThread} (hw : s.workers[i]? = some w)
    (hws : t.workers = s.workers.set i w') (hrun : t.running = s.running)
    (hb : t.barrier.activeSemIdx = s.barrier.activeSemIdx) :
    phases t = Function.update (phases s) i (w'.phase s.running s.barrier.activeSemIdx) := by
  have hi := (List.getElem?_eq_some_iff.mp hw).1
  funext j
  by_cases hj : j = i
  · subst hj
    simp [phases, hws, hrun, hb, hi]
  · have hij : i ≠ j := fun h => hj h.symm
    simp [phases, hws, hrun, hb, Function.update_of_ne hj, List.getElem?_set_ne hij]

theorem phases_set_same {s t : State} {i : Nat} {w w' : WorkerThread}
    (hw : s.workers[i]? = some w) (hws : t.workers = s.workers.set i w')
    (hrun : t.running = s.running)
    (hb : t.barrier.activeSemIdx = s.barrier.activeSemIdx)
    (hp : w'.phase s.running s.barrier.activeSemIdx = w.phase s.running s.barrier.activeSemIdx) :
    phases t = phases s := by
  rw [phases_set hw hws hrun hb, hp, ← phases_some hw]
  exact Function.update_eq_self i _

/-- Registered workers are idle. -/
theorem AllRegistered.phases_idle {s : State} (h : AllRegistered s) (i : Nat) :
    phases s i = .idle := by
  simp only [phases]
  split
  · rfl
  · rename_i w hw
    simp [WorkerThread.phase, h w (List.mem_of_getElem? hw)]

/-- And so is everybody while no round is open. -/
theorem Settled.phases_idle {s : State} (h : Settled s) (i : Nat) : phases s i = .idle := by
  cases hw : s.workers[i]? with
  | none => simp [phases, hw]
  | some w =>
    rw [phases_some hw]
    rcases h i w hw with hpc | ⟨-, -, hpc | ⟨status, hpc⟩⟩ <;> simp [WorkerThread.phase, hpc]

/-! ## Each step is a step of the abstract machine, or none -/

theorem localStep_phase {running : Bool} {w w' : WorkerThread} {a : WorkerAct} (active : Fin 2)
    (hl : w.localStep running a = some w') :
    match a with
    | .callbackStart => w.phase running active = .due ∧ w'.phase running active = .busy
    | .callbackEnd => w.phase running active = .busy ∧ w'.phase running active = .idle
    | _ => w'.phase running active = w.phase running active := by
  cases localStep_local hl with
  | loadPoolRunning hpc => cases running <;> simp [WorkerThread.phase, hpc]
  | loadThreadRunning hpc =>
    by_cases ht : w.threadRunning = true <;> simp [WorkerThread.phase, hpc, ht]
  | init hpc | callbackStart hpc | callbackEnd hpc | leave hpc => simp [WorkerThread.phase, hpc]

theorem worker_refines {s t : State} (h : Inv s) {i : Nat} {a : WorkerAct}
    (ha : a ≠ .interrupted) (hstep : step s (.worker i a) = some t) :
    (event (.worker i a) = none → phases t = phases s) ∧
      ∀ e, event (.worker i a) = some e → Rounds.Step (phases s) e (phases t) := by
  obtain ⟨w, hw, ⟨rfl, hpc, -, rfl⟩ | ⟨rfl, sem, hpc, hsem, rfl⟩ | hi | ⟨w', hl, rfl⟩⟩ :=
    worker_cases hstep
  · refine ⟨fun _ => phases_set_same hw rfl rfl rfl ?_, nofun⟩
    simp [WorkerThread.phase, hpc]
  · -- the token was posted by the release that made this worker due
    obtain rfl := h.take_other hsem
    refine ⟨fun _ => phases_set_same hw rfl rfl rfl ?_, nofun⟩
    simp [WorkerThread.phase, hpc]
  · exact absurd hi.1 ha
  · have hphase := localStep_phase s.barrier.activeSemIdx hl
    have hp := phases_set (t := s.setWorker i w') hw rfl rfl rfl
    cases a
    case callbackStart =>
      refine ⟨nofun, fun e he => ?_⟩
      cases he
      rw [hp, hphase.2]
      exact .start i (by rw [phases_some hw, hphase.1])
    case callbackEnd =>
      refine ⟨nofun, fun e he => ?_⟩
      cases he
      rw [hp, hphase.2]
      exact .finish i (by rw [phases_some hw, hphase.1])
    all_goals exact ⟨fun _ => phases_set_same hw rfl rfl rfl hphase, nofun⟩

theorem ctrl_refines {s t : State} (h : Inv s) (hstep : ctrlStep s = some t) :
    phases t = phases s := by
  have hall : AtRest s → s.ctrl.popped = 0 ∧ s.ctrl.raised = 0 → AllRegistered s := by
    rintro hat ⟨hpopped, hraised⟩
    have hsize := h.size
    rw [hpopped, hraised] at hsize
    exact h.all_parked hat hsize
  have hat := h.ctrlAt
  cases ctrl_cases hstep with
  | spawn =>
    funext i
    simp only [phases, List.getElem?_append]
    by_cases hi : i < s.workers.length
    · simp [hi]
    · have hnone : s.workers[i]? = none := List.getElem?_eq_none_iff.mpr (by omega)
      cases i - s.workers.length with
      | zero => simp [hi, Pool.spawn, WorkerThread.phase]
      | succ k => simp [hi]
  | stop hc hw =>
    rw [hc] at hat
    have hp := hall hat.1 (by simp [hc, Ctrl.popped, Ctrl.raised]) _ (List.mem_of_getLast? hw)
    rw [List.getLast?_eq_getElem?] at hw
    refine phases_set_same hw rfl rfl rfl ?_
    simp [WorkerThread.phase, hp]
  | pop hc hw hexit =>
    rw [List.getLast?_eq_getElem?] at hw
    funext i
    simp only [phases, List.getElem?_dropLast]
    by_cases hi : i < s.workers.length - 1
    · simp [hi]
    · by_cases hlast : i = s.workers.length - 1
      · simp [hlast, hw, WorkerThread.phase, hexit]
      · simp [hi, List.getElem?_eq_none_iff.mpr (show s.workers.length ≤ i by omega)]
  | storeRunning hc =>
    rw [hc] at hat
    have hreg := hall hat (by simp [hc, Ctrl.popped, Ctrl.raised])
    funext i
    rw [hreg.phases_idle i]
    exact AllRegistered.phases_idle (s := { s with running := false, ctrl := _ }) hreg i
  | _ => rfl

/-- A release finds everybody idle, and makes those due whose flags are still set. -/
theorem release_refines {s t : State} (h : Inv s) (hstep : step s .release = some t) :
    Rounds.Step (phases s) .release (phases t) ∧
      ∀ i, phases t i = if ∃ w, s.workers[i]? = some w ∧ s.running = true ∧ w.threadRunning = true
        then .due else .idle := by
  obtain ⟨k, hc, rfl⟩ := release_releasing hstep
  have hat := h.ctrlAt
  have hsize := h.size
  simp only [hc, Ctrl.At, Ctrl.popped, Ctrl.raised, Nat.add_zero] at hat hsize
  have hall : AllRegistered s := h.all_parked hat.1 hsize
  let t : State :=
    { s with barrier := s.barrier.release, ctrl := .posting k s.barrier.activeSemIdx 0 }
  have hph : ∀ i, phases t i =
      if ∃ w, s.workers[i]? = some w ∧ s.running = true ∧ w.threadRunning = true
      then .due else .idle := by
    intro i
    cases hi : s.workers[i]? with
    | none => simp [t, phases, hi]
    | some w =>
      simp [t, phases, hi, WorkerThread.phase, hall w (List.mem_of_getElem? hi), Barrier.release]
  refine ⟨.release hall.phases_idle fun i => ?_, hph⟩
  rw [hph]
  split <;> simp

theorem step_refines {s t : State} {l : Label} (h : Inv s) (hi : l.interrupts = false)
    (hstep : step s l = some t) :
    (event l = none → phases t = phases s) ∧
      ∀ e, event l = some e → Rounds.Step (phases s) e (phases t) := by
  cases l with
  | call c =>
    obtain ⟨-, rfl⟩ := call_idle hstep
    exact ⟨fun _ => rfl, nofun⟩
  | ret r =>
    obtain ⟨-, rfl⟩ := ret_returning hstep
    exact ⟨fun _ => rfl, nofun⟩
  | release =>
    refine ⟨nofun, fun e he => ?_⟩
    cases he
    exact (release_refines h hstep).1
  | ctrl => exact ⟨fun _ => ctrl_refines h hstep, nofun⟩
  | spurious =>
    obtain ⟨k, -, rfl⟩ := spurious_asleep hstep
    exact ⟨fun _ => rfl, nofun⟩
  | worker i a => exact worker_refines h (interrupts_worker.mp hi) hstep

/-- Every run of the pool is a run of the abstract rounds. -/
theorem refines_rounds {cores : List CoreTable.CpuInfo} {pre post : List Label} {s t : State}
    (hs : Exec.Guarded step Uninterrupted (init cores) pre s)
    (h : Exec.Guarded step Uninterrupted (init cores) (pre ++ post) t) :
    Exec.Path Rounds.Step (phases s) (post.filterMap event) (phases t) :=
  Exec.Guarded.simulates event phases
    (fun _ _ _ _ hu hg hstep => (step_refines (guarded_inv hu) hg.1 hstep).1)
    (fun _ _ _ _ e hu hg hstep => (step_refines (guarded_inv hu) hg.1 hstep).2 e) hs h

/-! ## The callbacks of one worker in a run -/

def callbacksOf (i : Nat) (tr : List Label) : List Label :=
  tr.filter fun l => l = .worker i .callbackStart ∨ l = .worker i .callbackEnd

/-- One run of the callback of worker `i`. -/
def oneCallback (i : Nat) : List Label := [.worker i .callbackStart, .worker i .callbackEnd]

def eventLabel : Event Nat → Label
  | .release => .release
  | .start i => .worker i .callbackStart
  | .finish i => .worker i .callbackEnd

theorem callbacksOf_eq (i : Nat) (tr : List Label) :
    callbacksOf i tr = (Rounds.eventsOf i (tr.filterMap event)).map eventLabel := by
  induction tr with
  | nil => rfl
  | cons l tr ih =>
    have hcons : callbacksOf i (l :: tr) = callbacksOf i [l] ++ callbacksOf i tr := by
      simp only [callbacksOf, ← List.filter_append, List.singleton_append]
    have hone : callbacksOf i [l] =
        (Rounds.eventsOf i ([l].filterMap event)).map eventLabel := by
      rcases l with c | r | _ | _ | _ | ⟨j, a⟩
      case worker =>
        cases a <;> by_cases hj : j = i <;>
          simp [callbacksOf, event, Rounds.eventsOf, eventLabel, hj]
      all_goals simp [callbacksOf, event, Rounds.eventsOf]
    rw [hcons, ih, hone, ← List.map_append, ← Rounds.eventsOf_append, ← List.filterMap_append,
      List.singleton_append]

theorem release_not_mem {tr : List Label} (h : .release ∉ tr) :
    .release ∉ tr.filterMap event := by
  intro hm
  obtain ⟨l, hl, he⟩ := List.mem_filterMap.mp hm
  rcases l with c | r | _ | _ | _ | ⟨j, a⟩
  case release => exact h hl
  case worker => cases a <;> cases he
  all_goals cases he

/-- A round from its release to a moment at which all workers are registered: who was
due has run once, and nobody else has run. -/
theorem round_complete {cores : List CoreTable.CpuInfo} {pre mid : List Label} {s t v : State}
    (hs : Exec.Guarded step Uninterrupted (init cores) pre s) (hstep : step s .release = some t)
    (hv : Exec.Guarded step Uninterrupted (init cores) (pre ++ .release :: mid) v)
    (hmid : .release ∉ mid) (hidle : ∀ i, phases v i = .idle) (i : Nat) :
    callbacksOf i mid =
      if ∃ w, s.workers[i]? = some w ∧ s.running = true ∧ w.threadRunning = true
      then oneCallback i else [] := by
  have hph := (release_refines (guarded_inv hs) hstep).2 i
  rw [show pre ++ .release :: mid = (pre ++ [.release]) ++ mid by simp] at hv
  obtain ⟨u, hu, -⟩ := hv.split
  obtain ⟨s', hs', -, hstep'⟩ := hu.snoc
  obtain rfl : s' = s := Option.some.inj (hs'.run.symm.trans hs.run)
  obtain rfl : u = t := Option.some.inj (hstep'.symm.trans hstep)
  have hpath := refines_rounds hu hv
  rw [callbacksOf_eq]
  split at hph
  · rename_i hw
    rw [Rounds.due_runs_once hpath (release_not_mem hmid) hph (hidle i), if_pos hw]
    rfl
  · rename_i hw
    rw [(Rounds.idle_stays hpath (release_not_mem hmid) hph).1, if_neg hw]
    rfl

/-- No callback starts or ends while no round is open. -/
theorem callback_in_round {cores : List CoreTable.CpuInfo} {pre : List Label} {s t : State}
    {i : Nat} {a : WorkerAct} (hs : Exec.Guarded step Uninterrupted (init cores) pre s)
    (hstep : step s (.worker i a) = some t) (ha : a = .callbackStart ∨ a = .callbackEnd) :
    waited pre = false := by
  cases hw : waited pre with
  | false => rfl
  | true =>
    exfalso
    obtain ⟨w, hwi, hcases⟩ := worker_cases hstep
    have hset := (guarded_inv_settled hs).2 hw i w hwi
    rcases ha with rfl | rfl
    all_goals
      simp only [reduceCtorEq, false_and, false_or] at hcases
      obtain ⟨w', hl, -⟩ := hcases
      cases localStep_local hl
      rename_i hpc
      rcases hset with hp | ⟨-, -, hp | ⟨status, hp⟩⟩ <;> simp [hpc] at hp

/-! ## Callers whose workers all initialise, and who do not destroy the pool -/

/-- A controller that calls `add_worker`, `wakeup_workers`, `wait_for_workers_idle` and
`wakeup_and_wait`, waits between two wakeups, and only adds workers that initialise. -/
def RoundCaller (tr : List Label) (s : State) (l : Label) : Prop :=
  Uninterrupted tr s l ∧ l.initFails = false ∧ l.destroys = false

instance (tr : List Label) (s : State) (l : Label) : Decidable (RoundCaller tr s l) := by
  unfold RoundCaller
  infer_instance

/-- The program points of such a controller. -/
def Ctrl.Plain : Ctrl → Prop
  | .raising a _ | .starting a _ => a.init = .ok
  | .waitForAll k | .asleep k | .woken k => k ≠ .destructor
  | .releasing k | .posting k _ _ => k = .wakeupWorkers ∨ k = .wakeupAndWait
  | .stopping _ _ | .retiring _ _ | .popping _ | .storingRunning | .joining _ | .destroyed => False
  | .idle | .returning _ | .lowering _ | .checkingInit _ => True

def WorkerThread.Plain (w : WorkerThread) : Prop :=
  w.status = .ok ∧ ∀ status, w.pc = .starting status → status = .ok

structure Plain (s : State) : Prop where
  ctrl : s.ctrl.Plain
  workers : ∀ w ∈ s.workers, w.Plain

theorem Plain.localStep {running : Bool} {w w' : WorkerThread} {a : WorkerAct} (h : w.Plain)
    (hl : w.localStep running a = some w') : w'.Plain := by
  cases localStep_local hl with
  | @init status hpc => exact ⟨h.2 status hpc, by simp⟩
  | loadPoolRunning => exact ⟨h.1, by cases running <;> simp⟩
  | loadThreadRunning => exact ⟨h.1, by cases w.threadRunning <;> simp⟩
  | callbackStart | callbackEnd | leave => exact ⟨h.1, by simp⟩

theorem signalled_plain {c : Ctrl} (h : c.Plain) : c.signalled.Plain := by cases c <;> exact h

theorem Plain.worker {s t : State} (h : Plain s) {i : Nat} {a : WorkerAct}
    (hstep : step s (.worker i a) = some t) : Plain t := by
  obtain ⟨w, hw, ⟨-, -, -, rfl⟩ | ⟨-, sem, -, -, rfl⟩ | ⟨-, sem, -, rfl⟩ | ⟨w', hl, rfl⟩⟩ :=
    worker_cases hstep
  all_goals have hp := h.workers w (List.mem_of_getElem? hw)
  · refine ⟨?_, forall_set h.workers ⟨hp.1, by simp⟩⟩
    simp only [State.register]
    split
    · exact signalled_plain h.ctrl
    · exact h.ctrl
  · exact ⟨h.ctrl, forall_set h.workers ⟨hp.1, by simp⟩⟩
  · exact ⟨h.ctrl, forall_set h.workers ⟨hp.1, by simp⟩⟩
  · exact ⟨h.ctrl, forall_set h.workers (Plain.localStep hp hl)⟩

theorem Waiter.next_plain {k : Waiter} (h : k ≠ .destructor) : k.next.Plain := by
  cases k <;> simp_all [Waiter.next, Ctrl.Plain]

theorem Plain.ctrlStep {s t : State} (h : Plain s) (hstep : Pool.ctrlStep s = some t) :
    Plain t := by
  have hat := h.ctrl
  cases ctrl_cases hstep with
  | raise hc =>
    rw [hc] at hat
    exact ⟨hat, h.workers⟩
  | @spawn a core info hc =>
    rw [hc] at hat
    refine ⟨by simp [Ctrl.Plain], fun w hw => ?_⟩
    rcases List.mem_append.mp hw with hw | hw
    · exact h.workers w hw
    · rw [List.mem_singleton.mp hw]
      exact ⟨rfl, by simpa [Pool.spawn, Ctrl.Plain] using hat⟩
  | sleep hc =>
    rcases hc with hc | hc <;> rw [hc] at hat <;> exact ⟨hat, h.workers⟩
  | proceed hc =>
    rcases hc with hc | hc <;> rw [hc] at hat <;> exact ⟨Waiter.next_plain hat, h.workers⟩
  | refuse hc hw hne => exact absurd (h.workers _ (List.mem_of_getLast? hw)).1 hne
  | post hc =>
    rw [hc] at hat
    exact ⟨hat, h.workers⟩
  | @posted k _ _ hc =>
    rw [hc] at hat
    refine ⟨?_, h.workers⟩
    rcases hat with rfl | rfl
    · trivial
    · simp only [State.setCtrl, Releaser.next]
      split <;> simp [Ctrl.Plain]
  | runFails | lower | accept => exact ⟨trivial, h.workers⟩
  | stop hc | retire hc | pop hc | storeRunning hc | join hc | joined hc =>
    rw [hc] at hat
    exact hat.elim

theorem Plain.step {s t : State} {l : Label} (h : Plain s) (hi : l.initFails = false)
    (hd : l.destroys = false) (hstep : Pool.step s l = some t) : Plain t := by
  cases l with
  | call c =>
    obtain ⟨-, rfl⟩ := call_idle hstep
    refine ⟨?_, h.workers⟩
    cases c with
    | addWorker a =>
      have ha : a.init = .ok := by simpa [Label.initFails] using hi
      simp only [State.setCtrl, Call.enter]
      split
      · trivial
      · exact ha
    | wakeupWorkers => exact .inl rfl
    | wakeupAndWait => exact .inr rfl
    | waitForWorkersIdle => simp [State.setCtrl, Call.enter, Ctrl.Plain]
    | destroy => simp [Label.destroys] at hd
  | ret r =>
    obtain ⟨-, rfl⟩ := ret_returning hstep
    exact ⟨trivial, h.workers⟩
  | release =>
    obtain ⟨k, hc, rfl⟩ := release_releasing hstep
    have hat := h.ctrl
    rw [hc] at hat
    exact ⟨hat, h.workers⟩
  | ctrl => exact h.ctrlStep hstep
  | spurious =>
    obtain ⟨k, hc, rfl⟩ := spurious_asleep hstep
    have hat := h.ctrl
    rw [hc] at hat
    exact ⟨hat, h.workers⟩
  | worker i a => exact h.worker hstep

section RoundCaller

variable {cores : List CoreTable.CpuInfo} {pre mid post tr : List Label} {s t : State}

theorem uninterrupted_of_roundCaller (h : Exec.Guarded step RoundCaller (init cores) tr s) :
    Exec.Guarded step Uninterrupted (init cores) tr s :=
  h.mono fun _ _ _ hg => hg.1

theorem roundCaller_plain (h : Exec.Guarded step RoundCaller (init cores) tr s) : Plain s :=
  h.invariant (I := fun _ s => Plain s) (⟨trivial, by simp [init]⟩ : Plain (init cores))
    fun _ _ _ _ hp hg hstep => hp.step hg.2.1 hg.2.2 hstep

/-- All workers present at a release of such a caller are due. -/
theorem roundCaller_due (h : Exec.Guarded step RoundCaller (init cores) tr s)
    (hstep : step s .release = some t) (i : Nat) :
    (∃ w, s.workers[i]? = some w ∧ s.running = true ∧ w.threadRunning = true) ↔
      i < s.workers.length := by
  have hinv := guarded_inv (uninterrupted_of_roundCaller h)
  have hplain := (roundCaller_plain h).ctrl
  obtain ⟨k, hc, rfl⟩ := release_releasing hstep
  constructor
  · rintro ⟨w, hw, -⟩
    exact (List.getElem?_eq_some_iff.mp hw).1
  · intro hi
    refine ⟨s.workers[i], List.getElem?_eq_getElem hi, ?_, ?_⟩
    · rw [hinv.running, hc]
      rw [hc] at hplain
      rcases hplain with rfl | rfl <;> rfl
    · have hst := hinv.stopped i s.workers[i] (List.getElem?_eq_getElem hi)
      rw [hc] at hst hplain
      rcases hplain with rfl | rfl <;> simpa [Ctrl.stopped] using hst

theorem Waiter.next_ne_releasing (k : Waiter) (k' : Releaser) : k.next ≠ .releasing k' := by
  cases k <;> simp [Waiter.next]

/-- A step of such a caller does not leave the controller before a release, unless it is
a wakeup. -/
theorem not_releasing_step (hp : Plain s) {l : Label} (hw : l.wakes = false)
    (hc : ∀ k, s.ctrl ≠ .releasing k) (hstep : step s l = some t) :
    ∀ k, t.ctrl ≠ .releasing k := by
  intro k
  have hat := hp.ctrl
  cases l with
  | call c =>
    obtain ⟨-, rfl⟩ := call_idle hstep
    cases c <;> simp [Label.wakes] at hw
    · simp only [State.setCtrl, Call.enter]
      split <;> simp
    · simp [State.setCtrl, Call.enter]
    · simp [State.setCtrl, Call.enter]
  | ret r =>
    obtain ⟨-, rfl⟩ := ret_returning hstep
    simp [State.setCtrl]
  | release =>
    obtain ⟨k', hk, -⟩ := release_releasing hstep
    exact absurd hk (hc k')
  | ctrl =>
    change ctrlStep s = some t at hstep
    cases ctrl_cases hstep with
    | proceed => exact Waiter.next_ne_releasing _ _
    | posted hcs =>
      rw [hcs] at hat
      rcases hat with rfl | rfl
      · simp [State.setCtrl, Releaser.next]
      · simp only [State.setCtrl, Releaser.next]
        split <;> simp
    | stop hcs | storeRunning hcs =>
      rw [hcs] at hat
      exact hat.elim
    | _ => simp [State.setCtrl]
  | spurious =>
    obtain ⟨k', -, rfl⟩ := spurious_asleep hstep
    simp [State.setCtrl]
  | worker i a =>
    obtain ⟨w, -, ⟨-, -, -, rfl⟩ | ⟨-, sem, -, -, rfl⟩ | ⟨-, sem, -, rfl⟩ | ⟨w', -, rfl⟩⟩ :=
      worker_cases hstep
    · simp only [State.register]
      split
      · cases hcs : s.ctrl <;> simp_all [Ctrl.signalled]
      · exact hc k
    all_goals exact hc k

/-- Between a release and the next wait that returns there is no other release. -/
theorem no_release_before_wait (hs : Exec.Guarded step RoundCaller (init cores) (pre ++ [.release]) s)
    (h : Exec.Guarded step RoundCaller (init cores) ((pre ++ [.release]) ++ mid) t)
    (hmid : ∀ l ∈ mid, l.waitReturns = false) : .release ∉ mid := by
  have hJ := Exec.Guarded.segment
    (J := fun mid u => (∀ l ∈ mid, l.waitReturns = false) →
      .release ∉ mid ∧ waited ((pre ++ [.release]) ++ mid) = false ∧ ∀ k, u.ctrl ≠ .releasing k)
    hs ?_ ?_ h
  · exact (hJ hmid).1
  · intro _
    obtain ⟨m, -, -, hstep⟩ := hs.snoc
    obtain ⟨k, -, rfl⟩ := release_releasing hstep
    exact ⟨by simp, by simp [waited_snoc], nofun⟩
  · intro mid u l v hu hJ hg hstep hwait
    obtain ⟨hr, hw, hc⟩ := hJ fun l hl => hwait l (by simp [hl])
    have hlw : l.wakes = false := by
      cases hlw : l.wakes with
      | false => rfl
      | true => rw [hg.1.2 hlw] at hw; cases hw
    have hlr : l ≠ .release := by
      rintro rfl
      obtain ⟨k, hk, -⟩ := release_releasing hstep
      exact hc k hk
    refine ⟨by simp [hr, hlr.symm], ?_, not_releasing_step (roundCaller_plain hu) hlw hc hstep⟩
    rw [← List.append_assoc, waited_snoc, if_neg (by simp [hlr, hlw]), hw, hwait l (by simp)]
    rfl

/-- Exactly-once rounds, for every interleaving. At every wakeup the barrier's assertion holds.
From a wakeup to the return of the next wait every worker that was present runs its callback
exactly once, and no other worker runs one. No callback starts or ends unless a wakeup
has been issued and not yet been waited for. -/
theorem exactly_once_rounds (h : Exec.Guarded step RoundCaller (init cores) tr s) :
    (∀ pre post m, tr = pre ++ .release :: post → run (init cores) pre = some m → AtRest m) ∧
    (∀ pre mid post r m, tr = pre ++ .release :: (mid ++ .ret r :: post) →
      run (init cores) pre = some m → r.waits = true → (∀ l ∈ mid, l.waitReturns = false) →
      ∀ i, callbacksOf i mid = if i < m.workers.length then oneCallback i else []) ∧
    (∀ pre post i a, tr = pre ++ .worker i a :: post → a = .callbackStart ∨ a = .callbackEnd →
      waited pre = false) := by
  refine ⟨?_, ?_, ?_⟩
  · rintro pre post m rfl hm
    obtain ⟨m', u, hm', -, hstep, -, -⟩ := h.cut
    obtain rfl : m = m' := Option.some.inj (hm.symm.trans hm'.run)
    have hat := (guarded_inv (uninterrupted_of_roundCaller hm')).ctrlAt
    obtain ⟨k, hc, -⟩ := release_releasing hstep
    rw [hc] at hat
    exact hat.1
  · rintro pre mid post r m rfl hm hr hmid i
    obtain ⟨m', u, hm', -, hstep, hu, -⟩ := h.cut
    obtain rfl : m = m' := Option.some.inj (hm.symm.trans hm'.run)
    rw [show pre ++ .release :: (mid ++ .ret r :: post) =
      (pre ++ .release :: mid) ++ .ret r :: post by simp] at h
    obtain ⟨v, v', hv, -, hret, -, -⟩ := h.cut
    have hv' := uninterrupted_of_roundCaller hv
    have hall := (guarded_inv hv').wait_returned hr hret
    obtain ⟨-, rfl⟩ := ret_returning hret
    have hrel : .release ∉ mid := by
      rw [show pre ++ .release :: mid = (pre ++ [.release]) ++ mid by simp] at hv
      exact no_release_before_wait hu hv hmid
    rw [round_complete (uninterrupted_of_roundCaller hm') hstep hv' hrel
      (fun j => AllRegistered.phases_idle (s := v) hall j) i]
    simp only [roundCaller_due hm' hstep i]
  · rintro pre post i a rfl ha
    obtain ⟨m, u, hm, -, hstep, -, -⟩ := h.cut
    exact callback_in_round (uninterrupted_of_roundCaller hm) hstep ha

end RoundCaller

/-- Two workers, of which the second one finishes before the first one has its token. -/
theorem exactly_once_rounds_two :
    callbacksOf 0 ([.ctrl, .ctrl, .ctrl] ++ callbackRun 1 ++ callbackRun 0 ++ [.ctrl]) =
        oneCallback 0 ∧
      callbacksOf 1 ([.ctrl, .ctrl, .ctrl] ++ callbackRun 1 ++ callbackRun 0 ++ [.ctrl]) =
        oneCallback 1 := by
  let a : AddWorker := ⟨0, 75, none, 0, 0, .ok⟩
  let pre := addWorkerRun a 0 ++ addWorkerRun a 1 ++ [.call .wakeupAndWait]
  let mid := [.ctrl, .ctrl, .ctrl] ++ callbackRun 1 ++ callbackRun 0 ++ [.ctrl]
  obtain ⟨s, hs⟩ := Exec.guarded_of_isSome step RoundCaller
    (init (CoreTable.buildCoreList 0 2)) (pre ++ .release :: (mid ++ [.ret .wakeupAndWait]))
    (by decide)
  have hrun := (exactly_once_rounds hs).2.1 pre mid [] .wakeupAndWait _ rfl rfl rfl (by decide)
  exact ⟨hrun 0, hrun 1⟩

end Twine.Pool
