import Twine.PoolConservation
import Twine.PoolWorkgroups
import Twine.XenomaiCondVar

/-!
# The route of a notification

`notify` of the Xenomai condition variable asks `ThreadRtFlag` for its route, a counter of
the calling thread's flags. A worker has one on its stack as long as its function runs, and
every thread may construct more, in a callback as well. The pool, the counters and the
condition variable run together here; any thread notifies.
-/
namespace Twine.RtNotify

open Pool (WorkerThread WorkerPc)

inductive Thread where
  | worker (i : Nat)
  | other (t : Nat)
  deriving DecidableEq, Repr

structure State where
  pool : Pool.State
  condVar : XenomaiCondVar.State
  /-- `_instance_counter` is thread-local. -/
  instanceCounter : Thread → Int
  /-- What no step of the library reads: the flags that the code of the application has on the
  stack of the thread. -/
  scopes : Thread → Nat

def init (cores : List CoreTable.CpuInfo) : State :=
  ⟨Pool.init cores, XenomaiCondVar.init, fun _ => 0, fun _ => 0⟩

inductive Label where
  | pool (l : Pool.Label)
  /-- The application constructs a flag, and destroys the last one that it constructed. -/
  | construct (t : Thread)
  | destroy (t : Thread)
  | notify (t : Thread)
  /-- A step of the thread that waits. -/
  | wait (l : XenomaiCondVar.Label)
  deriving DecidableEq

/-- `ThreadRtFlag::is_realtime`. -/
def State.isRealtime (s : State) (t : Thread) : Bool := 0 < s.instanceCounter t

def addFlags (counter : Thread → Int) (t : Thread) (n : Int) : Thread → Int :=
  Function.update counter t (counter t + n)

/-- `rt_flag` is constructed in the first step of a worker and destroyed in its last; a new
thread has a counter of its own. -/
def State.counters (s : State) (pool : Pool.State) : Pool.Label → Thread → Int
  | .worker i .init => addFlags s.instanceCounter (.worker i) 1
  | .worker i .leave => addFlags s.instanceCounter (.worker i) (-1)
  | .ctrl =>
    if s.pool.workers.length < pool.workers.length then
      Function.update s.instanceCounter (.worker s.pool.workers.length) 0
    else s.instanceCounter
  | _ => s.instanceCounter

/-- There is a worker `i`, at such a program point. -/
def isAt (workers : List WorkerThread) (points : WorkerPc → Bool) (i : Nat) : Bool :=
  (workers[i]?).any fun w => points w.pc

/-- The code of the application runs on a worker only in a callback. -/
def State.runsCode (s : State) : Thread → Bool
  | .worker i => isAt s.pool.workers (· = .inCallback) i
  | .other _ => true

/-- A callback has destroyed its flags when it returns. -/
def State.allows (s : State) : Pool.Label → Bool
  | .worker i .callbackEnd => s.scopes (.worker i) = 0
  | _ => true

def isNotify : XenomaiCondVar.Label → Bool
  | .notifyRt | .notifyNonRt => true
  | _ => false

def step (s : State) : Label → Option State
  | .pool l =>
    if s.allows l then
      (Pool.step s.pool l).map fun p =>
        { s with pool := p, instanceCounter := s.counters p l }
    else none
  | .construct t =>
    if s.runsCode t then
      some { s with
        instanceCounter := addFlags s.instanceCounter t 1
        scopes := Function.update s.scopes t (s.scopes t + 1) }
    else none
  | .destroy t =>
    if s.runsCode t = true ∧ 0 < s.scopes t then
      some { s with
        instanceCounter := addFlags s.instanceCounter t (-1)
        scopes := Function.update s.scopes t (s.scopes t - 1) }
    else none
  | .notify t =>
    if s.runsCode t then
      (XenomaiCondVar.step s.condVar (if s.isRealtime t then .notifyRt else .notifyNonRt)).map
        fun c => { s with condVar := c }
    else none
  | .wait l =>
    if isNotify l then none else (XenomaiCondVar.step s.condVar l).map fun c => { s with condVar := c }

abbrev run : State → List Label → Option State := Exec.run step

/-- The state when the application has constructed or destroyed a flag of `t`. -/
def State.scope (s : State) (t : Thread) (n : Int) (scopes : Nat) : State :=
  { s with
    instanceCounter := addFlags s.instanceCounter t n
    scopes := Function.update s.scopes t scopes }

/-- Which part a step moves, and what it may. -/
inductive Stepped (s : State) : Label → State → Prop where
  | pool {l p} (hallows : s.allows l = true) (hpool : Pool.step s.pool l = some p) :
    Stepped s (.pool l) { s with pool := p, instanceCounter := s.counters p l }
  | construct {t} (hruns : s.runsCode t = true) :
    Stepped s (.construct t) (s.scope t 1 (s.scopes t + 1))
  | destroy {t} (hruns : s.runsCode t = true) (hscopes : 0 < s.scopes t) :
    Stepped s (.destroy t) (s.scope t (-1) (s.scopes t - 1))
  | notify {t c} (hruns : s.runsCode t = true)
    (hc : XenomaiCondVar.step s.condVar (if s.isRealtime t then .notifyRt else .notifyNonRt) =
      some c) : Stepped s (.notify t) { s with condVar := c }
  | wait {l c} (hc : XenomaiCondVar.step s.condVar l = some c) :
    Stepped s (.wait l) { s with condVar := c }

theorem step_cases {s t : State} {l : Label} (h : step s l = some t) : Stepped s l t := by
  cases l with
  | pool l =>
    simp only [step] at h
    split at h
    · obtain ⟨p, hp, rfl⟩ := Option.map_eq_some_iff.mp h
      exact .pool (by assumption) hp
    · cases h
  | construct u =>
    simp only [step] at h
    split at h <;> cases h
    exact .construct (by assumption)
  | destroy u =>
    simp only [step] at h
    split at h <;> cases h
    rename_i hg
    exact .destroy hg.1 hg.2
  | notify u =>
    simp only [step] at h
    split at h
    · obtain ⟨c, hc, rfl⟩ := Option.map_eq_some_iff.mp h
      exact .notify (by assumption) hc
    · cases h
  | wait k =>
    simp only [step] at h
    split at h
    · cases h
    · obtain ⟨c, hc, rfl⟩ := Option.map_eq_some_iff.mp h
      exact .wait hc

/-! ## The routes, told from the history -/

/-- A worker is a realtime thread whenever it runs the code of the application, and another
thread while it has more flags constructed than destroyed. -/
def inRtContext (tr : List Label) : Thread → Bool
  | .worker _ => true
  | .other t => tr.count (.destroy (.other t)) < tr.count (.construct (.other t))

def routed (tr : List Label) : Label → Option XenomaiCondVar.Label
  | .notify t => some (if inRtContext tr t then .notifyRt else .notifyNonRt)
  | .wait l => some l
  | .pool _ | .construct _ | .destroy _ => none

/-- What the condition variable sees of a run. -/
def condVarSteps (tr : List Label) : List XenomaiCondVar.Label :=
  (tr.foldl (fun x l => (x.1 ++ [l], x.2 ++ (routed x.1 l).toList)) ([], [])).2

def poolSteps (tr : List Label) : List Pool.Label :=
  tr.filterMap fun
    | .pool l => some l
    | _ => none

theorem condVarSteps_snoc (tr : List Label) (l : Label) :
    condVarSteps (tr ++ [l]) = condVarSteps tr ++ (routed tr l).toList := by
  have hpast : ∀ tr : List Label,
      (tr.foldl (fun (x : List Label × List XenomaiCondVar.Label) l =>
        (x.1 ++ [l], x.2 ++ (routed x.1 l).toList)) ([], [])).1 = tr := by
    intro tr
    induction tr using List.reverseRecOn with
    | nil => rfl
    | append_singleton tr l ih => rw [List.foldl_append, List.foldl_cons, ih, List.foldl_nil]
  rw [condVarSteps, List.foldl_append, List.foldl_cons, List.foldl_nil, hpast]
  rfl

theorem condVarSteps_routed (tr : List Label) {l : Label} {k : XenomaiCondVar.Label}
    (h : routed tr l = some k) : condVarSteps (tr ++ [l]) = condVarSteps tr ++ [k] := by
  rw [condVarSteps_snoc, h]
  rfl

theorem condVarSteps_unrouted (tr : List Label) {l : Label} (h : routed tr l = none) :
    condVarSteps (tr ++ [l]) = condVarSteps tr := by
  rw [condVarSteps_snoc, h]
  exact List.append_nil _

/-! ## Where the workers are -/

section Workers

variable {workers : List WorkerThread} {w w' : WorkerThread} {i : Nat}

theorem isAt_set (hw : workers[i]? = some w) (points : WorkerPc → Bool) (j : Nat) :
    isAt (workers.set i w') points j = if j = i then points w'.pc else isAt workers points j := by
  have hi := (List.getElem?_eq_some_iff.mp hw).1
  by_cases hj : j = i
  · subst hj
    simp [isAt, hi]
  · simp [isAt, List.getElem?_set_ne (Ne.symm hj), hj]

theorem isAt_append (points : WorkerPc → Bool) (j : Nat) :
    isAt (workers ++ [w]) points j =
      if j = workers.length then points w.pc else isAt workers points j := by
  by_cases hj : j = workers.length
  · subst hj
    simp [isAt]
  · rw [if_neg hj]
    by_cases hlt : j < workers.length
    · rw [isAt, isAt, List.getElem?_append_left hlt]
    · have hnone : (workers ++ [w])[j]? = none := by
        rw [List.getElem?_eq_none_iff, List.length_append, List.length_singleton]
        omega
      rw [isAt, isAt, hnone, List.getElem?_eq_none (Nat.not_lt.mp hlt)]

theorem isAt_dropLast (hw : workers.getLast? = some w) {points : WorkerPc → Bool}
    (hnot : points w.pc = false) (j : Nat) :
    isAt workers.dropLast points j = isAt workers points j := by
  have hlast := List.dropLast_append_getLast? w hw
  have happend : isAt (workers.dropLast ++ [w]) points j = _ := isAt_append points j
  rw [hlast, hnot] at happend
  rw [happend]
  split
  · rename_i hj
    simp [isAt, hj]
  · rfl

theorem isAt_congr {workers' : List WorkerThread}
    (h : workers'.map WorkerThread.pc = workers.map WorkerThread.pc) (points : WorkerPc → Bool)
    (j : Nat) : isAt workers' points j = isAt workers points j := by
  have hj := congrArg (fun pcs => (pcs[j]?).any points) h
  simpa [isAt, Option.any_map, Function.comp_def] using hj

end Workers

/-! ## The counters -/

/-- The flag of the thread function is there. -/
def State.flagged (s : State) : Thread → Bool
  | .worker i => isAt s.pool.workers PoolWorkgroups.running i
  | .other _ => false

structure Inv (s : State) : Prop where
  counter : ∀ t, s.instanceCounter t = s.scopes t + (s.flagged t).toNat
  scopes : ∀ t, 0 < s.scopes t → s.runsCode t = true

theorem init_inv (cores : List CoreTable.CpuInfo) : Inv (init cores) where
  counter := by
    intro t
    cases t <;> rfl
  scopes := by
    intro t ht
    cases ht

theorem addFlags_self (counter : Thread → Int) (t : Thread) (n : Int) :
    addFlags counter t n t = counter t + n := Function.update_self _ _ _

theorem addFlags_of_ne (counter : Thread → Int) {t u : Thread} (h : u ≠ t) (n : Int) :
    addFlags counter t n u = counter u := Function.update_of_ne h _ _

section Pool

variable {s : State} {p : Pool.State} {l : Pool.Label} {w w' : WorkerThread} {i : Nat}

/-- A worker moves, and its counter with it. -/
theorem counter_move (h : Inv s) (hw : s.pool.workers[i]? = some w)
    (hp : p.workers = s.pool.workers.set i w') {n : Int}
    (hn : ((PoolWorkgroups.running w'.pc).toNat : Int) =
      (PoolWorkgroups.running w.pc).toNat + n) (t : Thread) :
    addFlags s.instanceCounter (.worker i) n t =
      s.scopes t + (State.flagged { s with pool := p } t).toNat := by
  have ht := h.counter t
  by_cases hti : t = .worker i
  · subst hti
    have hold : isAt s.pool.workers PoolWorkgroups.running i = PoolWorkgroups.running w.pc := by
      simp [isAt, hw]
    simp only [State.flagged, hold] at ht
    simp only [addFlags_self, State.flagged, hp, isAt_set hw, if_true]
    omega
  · rw [addFlags_of_ne _ hti, ht]
    cases t with
    | other t => rfl
    | worker j =>
      have hj : j ≠ i := fun hj => hti (hj ▸ rfl)
      simp only [State.flagged, hp, isAt_set hw, if_neg hj]

theorem counter_stay (h : Inv s)
    (hp : ∀ j, isAt p.workers PoolWorkgroups.running j =
      isAt s.pool.workers PoolWorkgroups.running j) (t : Thread) :
    s.instanceCounter t = s.scopes t + (State.flagged { s with pool := p } t).toNat := by
  rw [h.counter t]
  cases t with
  | other t => rfl
  | worker j => simp only [State.flagged, hp]

/-- Where the flags of the thread functions change, the counters change as much. -/
theorem counters_eq (h : Inv s) (hstep : Pool.step s.pool l = some p) (t : Thread) :
    s.counters p l t = s.scopes t + (State.flagged { s with pool := p } t).toNat := by
  cases PoolWorkgroups.pool_resized hstep with
  | init hw hpc hp hpc' => exact counter_move h hw hp (by rw [hpc, hpc']; rfl) t
  | leave hw hpc hp hpc' => exact counter_move h hw hp (by rw [hpc, hpc']; rfl) t
  | @run i a w w' hinit hleave hw hpc hp hpc' =>
    have hcounters : s.counters p (.worker i a) = addFlags s.instanceCounter (.worker i) 0 := by
      rw [addFlags, Int.add_zero, Function.update_eq_self]
      cases a with
      | init => exact absurd rfl hinit
      | leave => exact absurd rfl hleave
      | _ => rfl
    rw [hcounters]
    exact counter_move h hw hp (by rw [hpc, hpc', Int.add_zero]) t
  | @spawn w status hp hpc =>
    have hlt : s.pool.workers.length < p.workers.length := by simp [hp]
    simp only [State.counters, if_pos hlt]
    by_cases hnew : t = .worker s.pool.workers.length
    · -- nobody has run there
      subst hnew
      have hscopes : s.scopes (.worker s.pool.workers.length) = 0 := by
        by_contra hne
        have hruns := h.scopes _ (Nat.pos_of_ne_zero hne)
        simp [State.runsCode, isAt] at hruns
      simp [hscopes, State.flagged, hp, isAt_append, hpc, PoolWorkgroups.running]
    · rw [Function.update_of_ne hnew, h.counter t]
      cases t with
      | other t => rfl
      | worker j =>
        have hj : j ≠ s.pool.workers.length := fun hj => hnew (hj ▸ rfl)
        simp only [State.flagged, hp, isAt_append, if_neg hj]
  | pop hw hexit hp =>
    have hlt : ¬ s.pool.workers.length < p.workers.length := by simp [hp]
    simp only [State.counters, if_neg hlt]
    apply counter_stay h
    intro j
    rw [hp]
    exact isAt_dropLast hw (by rw [hexit]; rfl) j
  | same hl hp =>
    have hlt : ¬ s.pool.workers.length < p.workers.length := by
      have hlength := congrArg List.length hp
      simp only [List.length_map] at hlength
      omega
    have hcounters : s.counters p l = s.instanceCounter := by
      cases l with
      | worker i a => exact absurd rfl (hl i a)
      | ctrl => exact if_neg hlt
      | _ => rfl
    rw [hcounters]
    exact counter_stay h (isAt_congr hp PoolWorkgroups.running) t

/-- A callback with flags on its stack goes on. -/
theorem inCallback_stays (hstep : Pool.step s.pool l = some p) (hallows : s.allows l = true)
    {j : Nat} (hj : 0 < s.scopes (.worker j))
    (hruns : isAt s.pool.workers (· = .inCallback) j = true) :
    isAt p.workers (· = .inCallback) j = true := by
  simp only [isAt, Option.any_eq_true, decide_eq_true_eq] at hruns ⊢
  obtain ⟨w, hw, hpc⟩ := hruns
  by_cases hl : ∃ a, l = .worker j a
  · -- it could only return
    obtain ⟨a, rfl⟩ := hl
    obtain ⟨v, v', hv, -, hmoves⟩ := Pool.worker_moves hstep
    obtain rfl : w = v := Option.some.inj (hw.symm.trans hv)
    rw [hpc] at hmoves
    generalize v'.pc = q at hmoves
    cases hmoves
    simp only [State.allows, decide_eq_true_eq] at hallows
    omega
  · obtain ⟨w', hw', hpc'⟩ :=
      PoolWorkgroups.pc_kept hstep (fun a ha => hl ⟨a, ha⟩) hw (by simp [hpc])
    exact ⟨w', hw', hpc'.trans hpc⟩

end Pool

section Runs

variable {cores : List CoreTable.CpuInfo} {tr : List Label} {s t : State} {l : Label}

/-- The application constructs or destroys a flag of a thread that runs its code. -/
theorem Inv.scope (h : Inv s) {u : Thread} (hruns : s.runsCode u = true) {n : Int} {scopes : Nat}
    (hscopes : (scopes : Int) = s.scopes u + n) : Inv (s.scope u n scopes) := by
  constructor
  case counter =>
    intro v
    have hv := h.counter v
    by_cases hvu : v = u
    · subst hvu
      simp only [State.scope, State.flagged, addFlags_self, Function.update_self, hscopes, hv]
      exact Int.add_right_comm _ _ _
    · simp only [State.scope, State.flagged, addFlags_of_ne _ hvu, Function.update_of_ne hvu]
      exact hv
  case scopes =>
    intro v hpos
    by_cases hvu : v = u
    · subst hvu
      exact hruns
    · exact h.scopes v (by simpa [State.scope, Function.update_of_ne hvu] using hpos)

theorem Inv.step (h : Inv s) (hstep : step s l = some t) : Inv t := by
  cases step_cases hstep with
  | pool hallows hpool =>
    constructor
    case counter => exact counters_eq h hpool
    case scopes =>
      intro u hu
      cases u with
      | other u => rfl
      | worker j => exact inCallback_stays hpool hallows hu (h.scopes _ hu)
  | construct hruns => exact h.scope hruns (by simp)
  | destroy hruns hscopes => exact h.scope hruns (by omega)
  | notify hruns hc => exact ⟨h.counter, h.scopes⟩
  | wait hc => exact ⟨h.counter, h.scopes⟩

/-- The parts of the system run on their own, with the routes that the history tells. -/
structure Routed (cores : List CoreTable.CpuInfo) (tr : List Label) (s : State) : Prop where
  inv : Inv s
  scopes : ∀ t, s.scopes t + tr.count (.destroy t) = tr.count (.construct t)
  pool : Pool.run (Pool.init cores) (poolSteps tr) = some s.pool
  condVar : Exec.run XenomaiCondVar.step XenomaiCondVar.init (condVarSteps tr) = some s.condVar

/-- Where the code of the application runs, the counter tells what the history tells. -/
theorem Routed.isRealtime (h : Routed cores tr s) {t : Thread} (hruns : s.runsCode t = true) :
    s.isRealtime t = inRtContext tr t := by
  have hcounter := h.inv.counter t
  have hscopes := h.scopes t
  cases t with
  | worker i =>
    have hflagged : s.flagged (.worker i) = true := by
      simp only [State.runsCode, isAt, Option.any_eq_true] at hruns
      obtain ⟨w, hw, hpc⟩ := hruns
      simp [State.flagged, isAt, hw, of_decide_eq_true hpc, PoolWorkgroups.running]
    rw [hflagged] at hcounter
    simp [State.isRealtime, inRtContext, hcounter]
  | other t =>
    simp only [State.flagged, Bool.toNat_false] at hcounter
    simp only [State.isRealtime, inRtContext, hcounter, decide_eq_decide]
    omega

theorem count_snoc (tr : List Label) (k l : Label) :
    (tr ++ [l]).count k = tr.count k + if l = k then 1 else 0 := by
  rw [List.count_append, List.count_singleton]
  simp

/-- The flags of the application, counted after one more step. -/
theorem scopes_snoc (hscopes : ∀ v, s.scopes v + tr.count (.destroy v) = tr.count (.construct v))
    (hstep : RtNotify.step s l = some t) (v : Thread) :
    t.scopes v + (tr ++ [l]).count (.destroy v) = (tr ++ [l]).count (.construct v) := by
  have hv := hscopes v
  rw [count_snoc, count_snoc]
  cases step_cases hstep with
  | pool | notify | wait => simpa using hv
  | @construct u hruns | @destroy u hruns hpos =>
    by_cases huv : u = v
    · subst huv
      simp only [State.scope, Function.update_self, reduceCtorEq, if_false, if_true]
      omega
    · simpa [State.scope, Function.update_of_ne (Ne.symm huv), huv] using hv

theorem Routed.step (h : Routed cores tr s) (hstep : step s l = some t) :
    Routed cores (tr ++ [l]) t := by
  have hinv := h.inv.step hstep
  have hscopes := scopes_snoc h.scopes hstep
  have hpool : ∀ k, poolSteps (tr ++ [k]) = poolSteps tr ++ poolSteps [k] := fun k =>
    List.filterMap_append
  cases step_cases hstep with
  | pool hallows hp =>
    refine ⟨hinv, hscopes, ?_, ?_⟩
    · rw [hpool]
      exact Exec.run_join h.pool (by simp [poolSteps, Exec.run_cons, hp])
    · rw [condVarSteps_unrouted tr rfl]
      exact h.condVar
  | construct | destroy =>
    refine ⟨hinv, hscopes, ?_, ?_⟩
    · rw [hpool]
      exact (List.append_nil _).symm ▸ h.pool
    · rw [condVarSteps_unrouted tr rfl]
      exact h.condVar
  | notify hruns hc =>
    refine ⟨hinv, hscopes, ?_, ?_⟩
    · rw [hpool]
      exact (List.append_nil _).symm ▸ h.pool
    · rw [h.isRealtime hruns] at hc
      rw [condVarSteps_routed tr rfl]
      exact Exec.run_join h.condVar (by simp [Exec.run_cons, hc])
  | wait hc =>
    refine ⟨hinv, hscopes, ?_, ?_⟩
    · rw [hpool]
      exact (List.append_nil _).symm ▸ h.pool
    · rw [condVarSteps_routed tr rfl]
      exact Exec.run_join h.condVar (by simp [Exec.run_cons, hc])

theorem routed_run (h : run (init cores) tr = some s) : Routed cores tr s := by
  have hguarded : Exec.Guarded step (fun _ _ _ => True) (init cores) tr s :=
    Exec.guarded_of_run h fun _ _ _ _ _ _ => trivial
  refine hguarded.invariant (I := Routed cores) ?_ ?_
  · exact ⟨init_inv cores, fun _ => rfl, rfl, rfl⟩
  · intro tr s l t hs _ hstep
    exact hs.step hstep

/-- In every run of a pool and its application: each thread that runs code of the application is
a realtime one by its counter exactly when the history says so, and the pool and the condition
variable run as on their own, the notifications on the routes that the history tells. -/
theorem notifications_routed (h : run (init cores) tr = some s) :
    (∀ t, s.runsCode t = true → s.isRealtime t = inRtContext tr t) ∧
      Pool.run (Pool.init cores) (poolSteps tr) = some s.pool ∧
      Exec.run XenomaiCondVar.step XenomaiCondVar.init (condVarSteps tr) = some s.condVar := by
  have hrouted := routed_run h
  exact ⟨fun t hruns => hrouted.isRealtime hruns, hrouted.pool, hrouted.condVar⟩

end Runs

/-- A callback notifies with a flag of its own on the stack, then the controlling thread
notifies without one. -/
def notifiesTwice : List Label :=
  (Pool.addWorkerRun ⟨0, 75, none, 0, 0, .ok⟩ 0).map .pool ++
  [.pool (.call .wakeupWorkers), .pool .release, .pool .ctrl, .pool .ctrl] ++
  ((Pool.callbackRun 0).take 4).map .pool ++
  [.construct (.worker 0), .notify (.worker 0), .destroy (.worker 0), .notify (.worker 0),
    .notify (.other 0), .wait .wait, .wait .poll] ++
  ((Pool.callbackRun 0).drop 4).map .pool

theorem notifications_routed_twice : ∃ s, run (init (CoreTable.buildCoreList 0 1)) notifiesTwice =
    some s ∧ Exec.run XenomaiCondVar.step XenomaiCondVar.init
      [.notifyRt, .notifyRt, .notifyNonRt, .wait, .poll] = some s.condVar := by
  obtain ⟨s, hs⟩ := Option.isSome_iff_exists.mp
    (show (run (init (CoreTable.buildCoreList 0 1)) notifiesTwice).isSome from by decide)
  have hsteps : condVarSteps notifiesTwice =
      [.notifyRt, .notifyRt, .notifyNonRt, .wait, .poll] := by decide
  exact ⟨s, hs, hsteps ▸ (notifications_routed hs).2.2⟩

end Twine.RtNotify
