import Twine.AppleThreading
import Twine.PoolRuns

/-!
# The workgroups of the workers' threads

Each worker's thread joins the workgroup that its constructor found when it
initialises itself, and leaves it when it is out of its loop. The thread that is
started as the `n`th one gets the `n`th of the answers of the system; all else is
the pool with its labels.
-/
namespace Twine.PoolWorkgroups

open AppleThreading
open Exec (Throughout Steps)
open Placement (AppleThreadingStatus)
open Pool (WorkerPc WorkerThread)

/-- The answers to the constructor of a worker and to its thread. The token is what
`os_workgroup_join` writes when it returns 0. -/
structure Setup where
  devices : DeviceList
  realtime : Bool
  calls : JoinCalls
  token : Nat

/-- Whether the system has workgroups, and the device of the pool. -/
structure Config where
  macOS11 : Bool
  deviceName : List Char

/-- `_p_workgroup` -/
def Setup.workgroup (c : Config) (u : Setup) : Option Workgroup :=
  (newWorker c.macOS11 c.deviceName u.devices).1

def Setup.status (c : Config) (u : Setup) : AppleThreadingStatus :=
  initStatus c.macOS11 c.deviceName u.devices u.realtime u.calls

inductive Event where
  /-- `os_workgroup_join` with its result and the token that it wrote, if it did. -/
  | joined (w : Workgroup) (result : Int) (token : Nat)
  | left (w : Workgroup) (token : Option Nat)
  | exited
  deriving DecidableEq, Repr

/-- `_join_token` is none as long as no join has written it. -/
structure Thread where
  setup : Setup
  joinToken : Option Nat
  log : List Event

/-- The token and the calls of `join_workgroup`. -/
def Setup.join (c : Config) (u : Setup) : Option Nat × List Event :=
  if c.macOS11 then
    match u.workgroup c with
    | none => (none, [])
    | some w =>
      if u.calls.cancelled then (none, [])
      else (if u.calls.result = 0 then some u.token else none, [.joined w u.calls.result u.token])
  else (none, [])

/-- `_init_apple_thread` -/
def Thread.init (c : Config) (th : Thread) : Thread :=
  { th with joinToken := (th.setup.join c).1, log := th.log ++ (th.setup.join c).2 }

def leaveWorkgroupIfNeeded (c : Config) (joinToken : Option Nat) (workgroup : Option Workgroup) :
    List Event :=
  match workgroup with
  | none => []
  | some w => if c.macOS11 then [.left w joinToken] else []

/-- The end of `_internal_worker_function`. -/
def Thread.exit (c : Config) (th : Thread) : Thread :=
  { th with
    log := th.log ++ leaveWorkgroupIfNeeded c th.joinToken (th.setup.workgroup c) ++ [.exited] }

/-- The threads of the workers in the list of the pool, and those of the removed ones. -/
structure State where
  pool : Pool.State
  threads : List Thread
  removed : List Thread

def init (cores : List CoreTable.CpuInfo) : State := ⟨Pool.init cores, [], []⟩

def State.started (s : State) : Nat := s.removed.length + s.threads.length

/-- The list of the workers has grown or shrunk at its end. -/
def State.resize (s : State) (u : Setup) (pool : Pool.State) : State :=
  if s.pool.workers.length < pool.workers.length then
    ⟨pool, s.threads ++ [⟨u, none, []⟩], s.removed⟩
  else if pool.workers.length < s.pool.workers.length then
    ⟨pool, s.threads.dropLast, s.removed ++ s.threads.getLast?.toList⟩
  else { s with pool := pool }

def State.follow (c : Config) (s : State) (u : Setup) (pool : Pool.State) : Pool.Label → State
  | .worker i .init => ⟨pool, s.threads.modify i (Thread.init c), s.removed⟩
  | .worker i .leave => ⟨pool, s.threads.modify i (Thread.exit c), s.removed⟩
  | _ => s.resize u pool

/-- The new worker's thread ends its initialisation as the answers say. -/
def fits (status : AppleThreadingStatus) : Pool.Label → Bool
  | .call (.addWorker a) => a.init = status
  | _ => true

def step (c : Config) (answers : Nat → Setup) (s : State) (l : Pool.Label) : Option State :=
  let u := answers s.started
  if fits (u.status c) l then (Pool.step s.pool l).map fun pool => s.follow c u pool l else none

/-- The calls of one thread: it leaves once at most, with the token of a join that returned 0, and
after such a join it leaves before it exits. -/
structure Paired (log : List Event) : Prop where
  once : ∀ pre w token post, log = pre ++ .left w token :: post → ∀ token', .left w token' ∉ post
  joined : ∀ pre w token post, log = pre ++ .left w token :: post →
    ∃ token', .joined w 0 token' ∈ pre ∧ token = some token'
  leaves : ∀ pre post w token, log = pre ++ .exited :: post → .joined w 0 token ∈ pre →
    .left w (some token) ∈ pre

def AllPaired (s : State) : Prop := ∀ th ∈ s.threads ++ s.removed, Paired th.log

/-- There is a workgroup, but it was cancelled before the join, or the join failed. -/
def Setup.Unjoined (c : Config) (u : Setup) : Prop :=
  u.workgroup c ≠ none ∧ ¬ (u.calls.cancelled = false ∧ u.calls.result = 0)

/-- A thread with a workgroup that it did not join comes to its end. -/
def LeavesUnjoined (c : Config) (s : State) (l : Pool.Label) : Prop :=
  ∃ i th, l = .worker i .leave ∧ s.threads[i]? = some th ∧ th.setup.Unjoined c

/-! ## One thread -/

section Thread

variable {c : Config} {u : Setup}

theorem workgroup_none (h : c.macOS11 = false) : u.workgroup c = none := by
  simp [Setup.workgroup, newWorker, h]

/-- The calls of a thread that has exited. -/
def Setup.log (c : Config) (u : Setup) : List Event :=
  (u.join c).2 ++ leaveWorkgroupIfNeeded c (u.join c).1 (u.workgroup c) ++ [.exited]

theorem macOS11_of_workgroup {w : Workgroup} (h : u.workgroup c = some w) : c.macOS11 = true := by
  cases hmac : c.macOS11 with
  | true => rfl
  | false => cases h.symm.trans (workgroup_none hmac)

theorem log_none (h : u.workgroup c = none) : u.log c = [.exited] := by
  simp [Setup.log, Setup.join, leaveWorkgroupIfNeeded, h]

/-- Without a join the leave has no token. -/
theorem log_cancelled {w : Workgroup} (h : u.workgroup c = some w)
    (hcancelled : u.calls.cancelled = true) : u.log c = [.left w none, .exited] := by
  simp [Setup.log, Setup.join, leaveWorkgroupIfNeeded, h, hcancelled, macOS11_of_workgroup h]

theorem log_joined {w : Workgroup} (h : u.workgroup c = some w)
    (hcancelled : u.calls.cancelled = false) :
    u.log c = [.joined w u.calls.result u.token,
      .left w (if u.calls.result = 0 then some u.token else none), .exited] := by
  simp [Setup.log, Setup.join, leaveWorkgroupIfNeeded, h, hcancelled, macOS11_of_workgroup h]

theorem paired_nil : Paired [] where
  once := by simp
  joined := by simp
  leaves := by simp

theorem paired_exited : Paired [.exited] where
  once := by simp +contextual [List.cons_eq_append_iff]
  joined := by simp +contextual [List.cons_eq_append_iff]
  leaves := by simp +contextual [List.cons_eq_append_iff]

theorem paired_joined (w : Workgroup) (result : Int) (token : Nat) :
    Paired [.joined w result token] where
  once := by simp +contextual [List.cons_eq_append_iff]
  joined := by simp +contextual [List.cons_eq_append_iff]
  leaves := by simp +contextual [List.cons_eq_append_iff]

theorem paired_left (w : Workgroup) (token : Nat) :
    Paired [.joined w 0 token, .left w (some token), .exited] where
  once := by simp +contextual [List.cons_eq_append_iff]
  joined := by simp +contextual [List.cons_eq_append_iff]
  leaves := by simp +contextual [List.cons_eq_append_iff]

theorem paired_join : Paired (u.join c).2 := by
  simp only [Setup.join]
  split
  · split
    · exact paired_nil
    · split
      · exact paired_nil
      · exact paired_joined _ _ _
  · exact paired_nil

/-- A leave is paired with a join that returned 0 or with nothing. -/
theorem paired_log : Paired (u.log c) ↔ ¬ u.Unjoined c := by
  cases hw : u.workgroup c with
  | none => simp [log_none hw, paired_exited, Setup.Unjoined, hw]
  | some w =>
    cases hcancelled : u.calls.cancelled with
    | true =>
      rw [log_cancelled hw hcancelled]
      refine iff_of_false (fun hp => ?_) (by simp [Setup.Unjoined, hw, hcancelled])
      obtain ⟨token, hmem, -⟩ := hp.joined [] w none _ rfl
      cases hmem
    | false =>
      rw [log_joined hw hcancelled]
      by_cases hresult : u.calls.result = 0
      · refine iff_of_true ?_ (by simp [Setup.Unjoined, hcancelled, hresult])
        rw [hresult, if_pos rfl]
        exact paired_left w u.token
      · refine iff_of_false (fun hp => ?_) (by simp [Setup.Unjoined, hw, hresult])
        rw [if_neg hresult] at hp
        obtain ⟨token, -, hnone⟩ := hp.joined [_] w none _ rfl
        cases hnone

/-- A worker that `add_worker` accepts has joined its workgroup, unless its new thread was in it
before. -/
theorem joined_of_status (h : u.status c = .ok) (hresult : u.calls.result ≠ EALREADY) :
    ¬ u.Unjoined c := by
  rintro ⟨hw, hjoin⟩
  obtain ⟨w, hw⟩ := Option.ne_none_iff_exists'.mp hw
  have hmac := macOS11_of_workgroup hw
  rw [Setup.workgroup, hmac, newWorker_eq] at hw
  rw [Setup.status, hmac, initStatus_ok, hw] at h
  obtain ⟨-, -, h⟩ := h
  refine hjoin ?_
  simp only [joinWorkgroup, if_true] at h
  split at h
  · cases h
  · rename_i hcancelled
    split at h
    · exact ⟨by simpa using hcancelled, by assumption⟩
    · split at h <;> cases h

end Thread

/-! ## What a step does to the threads -/

/-- Between the initialisation and the exit. -/
def running : WorkerPc → Bool
  | .starting _ | .exited => false
  | _ => true

/-- What a thread has called at the program points of its worker. -/
def Thread.At (c : Config) (th : Thread) : WorkerPc → Prop
  | .starting _ => th.log = []
  | .exited => th.log = th.setup.log c
  | _ => th.joinToken = (th.setup.join c).1 ∧ th.log = (th.setup.join c).2

theorem at_running {c : Config} {th : Thread} {pc : WorkerPc} (h : running pc = true) :
    th.At c pc ↔ th.joinToken = (th.setup.join c).1 ∧ th.log = (th.setup.join c).2 := by
  cases pc with
  | starting | exited => cases h
  | _ => exact Iff.rfl

theorem init_log {c : Config} {th : Thread} {status : AppleThreadingStatus}
    (h : th.At c (.starting status)) : (th.init c).log = (th.setup.join c).2 := by
  have hlog : th.log = [] := h
  simp [Thread.init, hlog]

theorem exit_log {c : Config} {th : Thread} (h : th.At c .breaking) :
    (th.exit c).log = th.setup.log c := by
  rw [at_running rfl] at h
  rw [Thread.exit, h.1, h.2]
  rfl

/-- How a step of the pool changes the list of its workers. -/
inductive Resized (s t : Pool.State) : Pool.Label → Prop where
  | init {i : Nat} {w w' : WorkerThread} {status : AppleThreadingStatus} :
      s.workers[i]? = some w → w.pc = .starting status → t.workers = s.workers.set i w' →
      w'.pc = .entering → Resized s t (.worker i .init)
  | leave {i : Nat} {w w' : WorkerThread} : s.workers[i]? = some w → w.pc = .breaking →
      t.workers = s.workers.set i w' → w'.pc = .exited → Resized s t (.worker i .leave)
  | run {i : Nat} {a : Pool.WorkerAct} {w w' : WorkerThread} : a ≠ .init → a ≠ .leave →
      s.workers[i]? = some w → running w.pc = true → t.workers = s.workers.set i w' →
      running w'.pc = true → Resized s t (.worker i a)
  | spawn {w : WorkerThread} {status : AppleThreadingStatus} :
      t.workers = s.workers ++ [w] → w.pc = .starting status → Resized s t .ctrl
  | pop {w : WorkerThread} : s.workers.getLast? = some w → w.pc = .exited →
      t.workers = s.workers.dropLast → Resized s t .ctrl
  | same {l : Pool.Label} : (∀ i a, l ≠ .worker i a) →
      t.workers.map WorkerThread.pc = s.workers.map WorkerThread.pc → Resized s t l

theorem worker_resized {s t : Pool.State} {i : Nat} {a : Pool.WorkerAct}
    (h : Pool.step s (.worker i a) = some t) : Resized s t (.worker i a) := by
  obtain ⟨w, hw, ⟨rfl, hpc, -, rfl⟩ | ⟨rfl, sem, hpc, -, rfl⟩ | ⟨rfl, sem, hpc, rfl⟩ | ⟨w', hl, rfl⟩⟩ :=
    Pool.worker_cases h
  · exact .run (by simp) (by simp) hw (by rw [hpc]; rfl) rfl rfl
  · exact .run (by simp) (by simp) hw (by rw [hpc]; rfl) rfl rfl
  · exact .run (by simp) (by simp) hw (by rw [hpc]; rfl) rfl rfl
  · cases Pool.localStep_local hl with
    | init hpc => exact .init hw hpc rfl rfl
    | leave hpc => exact .leave hw hpc rfl rfl
    | loadPoolRunning hpc | loadThreadRunning hpc | callbackStart hpc | callbackEnd hpc =>
      refine .run (by simp) (by simp) hw (by rw [hpc]; rfl) rfl ?_
      simp only
      repeat' split
      all_goals rfl

theorem ctrl_resized {s t : Pool.State} (h : Pool.ctrlStep s = some t) : Resized s t .ctrl := by
  cases Pool.ctrl_cases h with
  | @spawn a core info => exact .spawn rfl rfl
  | @pop status w hc hw hexit => exact .pop hw hexit rfl
  | @stop core status w hc hw =>
    refine .same (by simp) ?_
    rw [List.getLast?_eq_getElem?] at hw
    obtain ⟨hlt, rfl⟩ := List.getElem?_eq_some_iff.mp hw
    refine List.ext_getElem (by simp [Pool.State.setWorker, Pool.State.setCtrl]) fun j h₁ h₂ => ?_
    by_cases hj : s.workers.length - 1 = j
    · subst hj
      simp [Pool.State.setWorker, Pool.State.setCtrl]
    · simp [Pool.State.setWorker, Pool.State.setCtrl, hj]
  | _ => exact .same (by simp) rfl

theorem pool_resized {s t : Pool.State} {l : Pool.Label} (h : Pool.step s l = some t) :
    Resized s t l := by
  cases l with
  | call x =>
    obtain ⟨-, rfl⟩ := Pool.call_idle h
    exact .same (by simp) rfl
  | ret r =>
    obtain ⟨-, rfl⟩ := Pool.ret_returning h
    exact .same (by simp) rfl
  | release =>
    obtain ⟨k, -, rfl⟩ := Pool.release_releasing h
    exact .same (by simp) rfl
  | ctrl => exact ctrl_resized h
  | spurious =>
    obtain ⟨k, -, rfl⟩ := Pool.spurious_asleep h
    exact .same (by simp) rfl
  | worker i a => exact worker_resized h

/-- Only its own steps move a worker, and only an exited one is removed. -/
theorem pc_kept {s t : Pool.State} {l : Pool.Label} {i : Nat} {w : WorkerThread}
    (h : Pool.step s l = some t) (hl : ∀ a, l ≠ .worker i a) (hw : s.workers[i]? = some w)
    (hpc : w.pc ≠ .exited) : ∃ w', t.workers[i]? = some w' ∧ w'.pc = w.pc := by
  have hset : ∀ j v, j ≠ i → t.workers = s.workers.set j v →
      ∃ w', t.workers[i]? = some w' ∧ w'.pc = w.pc := by
    intro j v hj he
    exact ⟨w, by rw [he, List.getElem?_set_ne hj, hw], rfl⟩
  have hi := (List.getElem?_eq_some_iff.mp hw).1
  cases pool_resized h with
  | @init j v v' _ _ _ he => exact hset j v' (fun hj => hl .init (by rw [hj])) he
  | @leave j v v' _ _ he => exact hset j v' (fun hj => hl .leave (by rw [hj])) he
  | @run j a v v' _ _ _ _ he => exact hset j v' (fun hj => hl a (by rw [hj])) he
  | spawn he => exact ⟨w, by rw [he, List.getElem?_append_left hi, hw], rfl⟩
  | @pop v hlast hexit he =>
    have hne : i ≠ s.workers.length - 1 := by
      rintro rfl
      rw [List.getLast?_eq_getElem?, hw] at hlast
      cases hlast
      exact hpc hexit
    exact ⟨w, by rw [he, List.getElem?_dropLast, if_pos (by omega), hw], rfl⟩
  | same _ he =>
    have hat := congrArg (fun pcs => pcs[i]?) he
    simp only [List.getElem?_map, hw, Option.map_some] at hat
    exact Option.map_eq_some_iff.mp hat

/-! ## The threads of the workers -/

/-- Every thread has called what it calls up to the program point of its worker. -/
structure Inv (c : Config) (s : State) : Prop where
  size : s.threads.length = s.pool.workers.length
  threads : ∀ (i : Nat) (w : WorkerThread) (th : Thread), s.pool.workers[i]? = some w →
    s.threads[i]? = some th → th.At c w.pc
  removed : ∀ th ∈ s.removed, th.At c .exited

theorem init_inv (c : Config) (cores : List CoreTable.CpuInfo) :
    Inv c (init cores) where
  size := rfl
  threads := by simp [init, Pool.init]
  removed := by simp [init]

theorem getElem?_modify_cases {ths : List Thread} {f : Thread → Thread} {i j : Nat} {v : Thread}
    (h : (ths.modify i f)[j]? = some v) :
    (j = i ∧ ∃ th, ths[i]? = some th ∧ v = f th) ∨ (j ≠ i ∧ ths[j]? = some v) := by
  rw [List.getElem?_modify] at h
  obtain ⟨th, hth, rfl⟩ := Option.map_eq_some_iff.mp h
  by_cases hij : i = j
  · subst hij
    exact .inl ⟨rfl, th, hth, by simp⟩
  · exact .inr ⟨Ne.symm hij, by simp [hij, hth]⟩

section Step

variable {c : Config} {answers : Nat → Setup} {s t : State} {l : Pool.Label} {u : Setup}
  {p : Pool.State}

theorem step_follow (h : step c answers s l = some t) :
    ∃ p, Pool.step s.pool l = some p ∧ t = s.follow c (answers s.started) p l := by
  simp only [step] at h
  split at h
  · obtain ⟨p, hp, rfl⟩ := Option.map_eq_some_iff.mp h
    exact ⟨p, hp, rfl⟩
  · cases h

theorem follow_resize (hinit : ∀ i, l ≠ .worker i .init) (hleave : ∀ i, l ≠ .worker i .leave) :
    s.follow c u p l = s.resize u p := by
  cases l with
  | worker i a =>
    cases a with
    | init => exact absurd rfl (hinit i)
    | leave => exact absurd rfl (hleave i)
    | _ => rfl
  | _ => rfl

theorem resize_same (h : p.workers.length = s.pool.workers.length) :
    s.resize u p = { s with pool := p } := by
  simp [State.resize, h]

theorem resize_spawn {w : WorkerThread} (h : p.workers = s.pool.workers ++ [w]) :
    s.resize u p = ⟨p, s.threads ++ [⟨u, none, []⟩], s.removed⟩ := by
  simp [State.resize, h]

theorem resize_pop {w : WorkerThread} (hw : s.pool.workers.getLast? = some w)
    (h : p.workers = s.pool.workers.dropLast) :
    s.resize u p = ⟨p, s.threads.dropLast, s.removed ++ s.threads.getLast?.toList⟩ := by
  have hne : s.pool.workers ≠ [] := by
    rintro hnil
    simp [hnil] at hw
  have hpos := List.length_pos_iff.mpr hne
  have hlen : p.workers.length = s.pool.workers.length - 1 := by simp [h]
  rw [State.resize, if_neg (by omega), if_pos (by omega)]

/-- One worker and its thread go on. -/
theorem Inv.advance (h : Inv c s) {i : Nat} {w w' : WorkerThread} {f : Thread → Thread}
    (hw : s.pool.workers[i]? = some w) (hp : p.workers = s.pool.workers.set i w')
    (hf : ∀ th, s.threads[i]? = some th → th.At c w.pc → (f th).At c w'.pc) :
    Inv c ⟨p, s.threads.modify i f, s.removed⟩ where
  size := by simp [hp, h.size]
  threads := by
    intro j v th hv hth
    rw [hp] at hv
    rcases getElem?_modify_cases hth with ⟨rfl, th, hold, rfl⟩ | ⟨hj, hold⟩
    · rcases Pool.getElem?_set_cases hw hv with ⟨-, rfl⟩ | ⟨hne, -⟩
      · exact hf th hold (h.threads j w th hw hold)
      · exact absurd rfl hne
    · rcases Pool.getElem?_set_cases hw hv with ⟨rfl, -⟩ | ⟨-, hv⟩
      · exact absurd rfl hj
      · exact h.threads j v th hv hold
  removed := h.removed

/-- The new thread has called nothing. -/
theorem Inv.spawn (h : Inv c s) {w : WorkerThread} {status : AppleThreadingStatus}
    (hp : p.workers = s.pool.workers ++ [w]) (hw : w.pc = .starting status) :
    Inv c ⟨p, s.threads ++ [⟨u, none, []⟩], s.removed⟩ where
  size := by simp [hp, h.size]
  threads := by
    intro j v th hv hth
    rw [hp, List.getElem?_append] at hv
    rw [List.getElem?_append, h.size] at hth
    split at hv
    · rename_i hlt
      rw [if_pos hlt] at hth
      exact h.threads j v th hv hth
    · rename_i hlt
      rw [if_neg hlt] at hth
      obtain rfl := List.mem_singleton.mp (List.mem_of_getElem? hv)
      obtain rfl := List.mem_singleton.mp (List.mem_of_getElem? hth)
      rw [hw]
      rfl
  removed := h.removed

/-- The last worker has exited. -/
theorem Inv.pop (h : Inv c s) {w : WorkerThread} (hw : s.pool.workers.getLast? = some w)
    (hexit : w.pc = .exited) (hp : p.workers = s.pool.workers.dropLast) :
    Inv c ⟨p, s.threads.dropLast, s.removed ++ s.threads.getLast?.toList⟩ where
  size := by simp [hp, h.size]
  threads := by
    intro j v th hv hth
    rw [hp, List.getElem?_dropLast] at hv
    rw [List.getElem?_dropLast] at hth
    split at hv
    · split at hth
      · exact h.threads j v th hv hth
      · cases hth
    · cases hv
  removed := by
    intro th hth
    rcases List.mem_append.mp hth with hth | hth
    · exact h.removed th hth
    · have hlast : s.threads.getLast? = some th := by simpa using hth
      rw [List.getLast?_eq_getElem?] at hw hlast
      rw [h.size] at hlast
      exact hexit ▸ h.threads _ w th hw hlast

/-- The workers stay where they are. -/
theorem Inv.same (h : Inv c s)
    (hp : p.workers.map WorkerThread.pc = s.pool.workers.map WorkerThread.pc) :
    Inv c { s with pool := p } where
  size := by
    have hlen := congrArg List.length hp
    simp only [List.length_map] at hlen
    rw [hlen]
    exact h.size
  threads := by
    intro j v th hv hth
    have hpc := congrArg (fun pcs => pcs[j]?) hp
    simp only [List.getElem?_map, hv, Option.map_some] at hpc
    obtain ⟨w, hw, hpc⟩ := Option.map_eq_some_iff.mp hpc.symm
    exact hpc ▸ h.threads j w th hw hth
  removed := h.removed

theorem Inv.step (h : Inv c s) (hstep : step c answers s l = some t) : Inv c t := by
  obtain ⟨p, hp, rfl⟩ := step_follow hstep
  cases pool_resized hp with
  | init hw hpc hset hpc' =>
    refine h.advance hw hset fun th _ hat => ?_
    rw [hpc] at hat
    rw [hpc']
    exact ⟨rfl, init_log hat⟩
  | leave hw hpc hset hpc' =>
    refine h.advance hw hset fun th _ hat => ?_
    rw [hpc] at hat
    rw [hpc']
    exact exit_log hat
  | run hinit hleave hw hpc hset hpc' =>
    rw [follow_resize (by simpa using hinit) (by simpa using hleave), resize_same (by simp [hset])]
    have hsame := h.advance (f := id) hw hset fun th _ hat =>
      (at_running hpc').mpr ((at_running hpc).mp hat)
    rwa [List.modify_id] at hsame
  | spawn hset hpc =>
    rw [follow_resize (by simp) (by simp), resize_spawn hset]
    exact h.spawn hset hpc
  | pop hw hexit hset =>
    rw [follow_resize (by simp) (by simp), resize_pop hw hset]
    exact h.pop hw hexit hset
  | same hl hset =>
    have hlen := congrArg List.length hset
    simp only [List.length_map] at hlen
    rw [follow_resize (fun i => hl i _) (fun i => hl i _), resize_same hlen]
    exact h.same hset

theorem AllPaired.advance (h : AllPaired s) {i : Nat} {f : Thread → Thread}
    (hf : ∀ th, s.threads[i]? = some th → Paired (f th).log) :
    AllPaired ⟨p, s.threads.modify i f, s.removed⟩ := by
  intro th hth
  rcases List.mem_append.mp hth with hth | hth
  · obtain ⟨j, hj⟩ := List.mem_iff_getElem?.mp hth
    rcases getElem?_modify_cases hj with ⟨-, v, hv, rfl⟩ | ⟨-, hold⟩
    · exact hf v hv
    · exact h th (List.mem_append_left _ (List.mem_of_getElem? hold))
  · exact h th (List.mem_append_right _ hth)

theorem AllPaired.resize (h : AllPaired s) : AllPaired (s.resize u p) := by
  intro th hth
  simp only [State.resize] at hth
  split at hth
  · simp only [List.mem_append, List.mem_singleton] at hth
    rcases hth with (hth | rfl) | hth
    · exact h th (List.mem_append_left _ hth)
    · exact paired_nil
    · exact h th (List.mem_append_right _ hth)
  · split at hth
    · simp only [List.mem_append, Option.mem_toList] at hth
      rcases hth with hth | hth | hth
      · exact h th (List.mem_append_left _ ((List.dropLast_sublist _).subset hth))
      · exact h th (List.mem_append_right _ hth)
      · exact h th (List.mem_append_left _ (List.mem_of_getLast? hth))
    · exact h th hth

/-- A thread that exits with its join, or without a workgroup, is paired. -/
theorem AllPaired.step (hi : Inv c s) (h : AllPaired s) (hl : ¬ LeavesUnjoined c s l)
    (hstep : PoolWorkgroups.step c answers s l = some t) : AllPaired t := by
  obtain ⟨p, hp, rfl⟩ := step_follow hstep
  cases pool_resized hp with
  | @init i w _ _ hw hpc =>
    refine h.advance fun th hth => ?_
    rw [init_log (hpc ▸ hi.threads i w th hw hth)]
    exact paired_join
  | @leave i w _ hw hpc =>
    refine h.advance fun th hth => ?_
    rw [exit_log (hpc ▸ hi.threads i w th hw hth), paired_log]
    exact fun hunjoined => hl ⟨i, th, rfl, hth, hunjoined⟩
  | run hinit hleave =>
    rw [follow_resize (by simpa using hinit) (by simpa using hleave)]
    exact h.resize
  | spawn | pop =>
    rw [follow_resize (by simp) (by simp)]
    exact h.resize
  | same hl =>
    rw [follow_resize (fun i => hl i _) (fun i => hl i _)]
    exact h.resize

/-- A thread that exits without the join of its workgroup is not. -/
theorem Inv.unpaired (h : Inv c s) (hl : LeavesUnjoined c s l)
    (hstep : PoolWorkgroups.step c answers s l = some t) : ¬ AllPaired t := by
  obtain ⟨i, th, rfl, hth, hunjoined⟩ := hl
  obtain ⟨p, hp, rfl⟩ := step_follow hstep
  intro hall
  cases pool_resized hp with
  | leave hw hpc hset hpc' =>
    have hmem : th.exit c ∈ s.threads.modify i (Thread.exit c) := by
      refine List.mem_of_getElem? (i := i) ?_
      simp [hth]
    have hpaired := hall (th.exit c) (List.mem_append_left _ hmem)
    rw [exit_log (hpc ▸ h.threads i _ th hw hth), paired_log] at hpaired
    exact hpaired hunjoined
  | run _ hleave => exact absurd rfl hleave
  | same hl => exact absurd rfl (hl i _)

end Step

/-- In every run the threads leave the workgroups that they joined, and no others, if and only if
no thread comes to its end with a workgroup that it did not join. -/
theorem allPaired_iff (c : Config) (cores : List CoreTable.CpuInfo) (answers : Nat → Setup)
    (tr : List Pool.Label) :
    Throughout (step c answers) (init cores) (fun _ s => AllPaired s) tr ↔
      Steps (step c answers) (init cores) (fun s l => ¬ LeavesUnjoined c s l) tr := by
  refine Exec.throughout_iff (I := fun _ s => Inv c s ∧ AllPaired s) (O := fun _ _ => True)
    ⟨init_inv c cores, by simp [AllPaired, init]⟩ ?_ (fun _ _ hi => hi.2) ?_ Exec.steps_true
  · rintro tr s l t ⟨hi, hall⟩ - hl hstep
    exact ⟨hi.step hstep, hall.step hi hl hstep⟩
  · rintro tr s l t ⟨hi, -⟩ - hl hstep
    exact hi.unpaired hl hstep

/-- The device has a workgroup that is cancelled already. -/
def cancelledSetup : Setup where
  devices := ⟨noErr, 4, noErr, 4,
    [⟨noErr, 8, noErr, some ⟨some ['d', 'a', 'c'], none⟩, noErr, noErr, some 1, true⟩], rfl⟩
  realtime := true
  calls := ⟨true, 0⟩
  token := 0

def dac : Config := ⟨true, ['d', 'a', 'c']⟩

/-- `add_worker` removes the worker again, and its thread exits. -/
def cancelledRun : List Pool.Label :=
  [.call (.addWorker ⟨0, 75, none, 0, 0, .workgroupAlreadyCancelled⟩), .ctrl, .ctrl,
    .worker 0 .init, .worker 0 .register, .ctrl, .ctrl, .ctrl, .release, .ctrl, .ctrl,
    .worker 0 .take, .worker 0 .loadPoolRunning, .worker 0 .loadThreadRunning, .worker 0 .leave]

theorem cancelled_left :
    ¬ Throughout (step dac fun _ => cancelledSetup) (init [⟨0, 0⟩]) (fun _ s => AllPaired s)
      cancelledRun := by
  intro h
  have hlogs : (Exec.run (step dac fun _ => cancelledSetup) (init [⟨0, 0⟩]) cancelledRun).map
      (fun s => s.threads.map Thread.log) = some [[.left 1 none, .exited]] := rfl
  obtain ⟨s, hrun, hlogs⟩ := Option.map_eq_some_iff.mp hlogs
  obtain ⟨th, hth, hlog⟩ := List.map_eq_singleton_iff.mp hlogs
  have hpaired := h cancelledRun [] s (by simp) hrun th (by simp [hth])
  rw [hlog] at hpaired
  obtain ⟨token, hmem, -⟩ := hpaired.joined [] 1 none _ rfl
  cases hmem

end Twine.PoolWorkgroups
