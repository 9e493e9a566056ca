import Twine.Pool

/-!
# Which threads the pool joins

The destructor of a worker joins if the thread handle is not zero; whether its
thread was created is recorded nowhere else. A history is a list of calls of
`add_worker`, each with the results of its system calls, and then the
destruction of the pool.
-/
namespace Twine.ThreadHandles

open CoreTable (CpuInfo)
open Placement

/-- A call of `add_worker`, and what `thread_create` leaves in the handle, if it is called. -/
structure Attempt extends Pool.AddWorker where
  handle : Nat
  deriving DecidableEq, Repr

inductive Event where
  | created (handle : Nat)
  /-- `thread_create` returned an error. -/
  | failed (handle : Nat)
  | joined (handle : Nat)
  deriving DecidableEq, Repr

structure State where
  cores : List CpuInfo
  /-- The `_thread_handle` of each worker in the list. -/
  workers : List Nat
  log : List Event
  deriving DecidableEq, Repr

def init (cores : List CpuInfo) : State := ⟨cores, [], []⟩

/-- `thread_create` is called if the priority is in range and the affinity is set. -/
def ReachesCreate (a : Attempt) : Prop :=
  (0 ≤ a.schedPriority ∧ a.schedPriority ≤ 100) ∧ a.affinity = 0

instance (a : Attempt) : Decidable (ReachesCreate a) := by
  unfold ReachesCreate
  infer_instance

/-- `WorkerThread::run`: the handle, which is zero before, and what happens. -/
def runHandle (a : Attempt) : Nat × List Event :=
  if ReachesCreate a then
    (a.handle, [if a.create = 0 then .created a.handle else .failed a.handle])
  else (0, [])

/-- `~WorkerThread` -/
def destroyWorker (handle : Nat) : List Event := if handle ≠ 0 then [.joined handle] else []

def addWorker (s : State) (a : Attempt) : Option State :=
  match coreInfo s.cores a.cpuId with
  | none => some s
  | some core =>
    -- `core_info` is dereferenced here; the end iterator has no step
    match s.cores[core]? with
    | none => none
    | some _ =>
      let cores := s.cores.modify core CpuInfo.incWorkers
      let (handle, events) := runHandle a
      match errnoToWorkerStatus (workerThreadRun a.schedPriority a.affinity a.create) with
      | .ok =>
        if a.init = .ok then some ⟨cores, s.workers ++ [handle], s.log ++ events⟩
        else some ⟨cores.modify core CpuInfo.decWorkers, s.workers,
          s.log ++ events ++ destroyWorker handle⟩
      | _ => some ⟨cores, s.workers, s.log ++ events ++ destroyWorker handle⟩

/-- The workers go with the pool. -/
def destroyPool (s : State) : List Event := s.log ++ s.workers.flatMap destroyWorker

abbrev run : State → List Attempt → Option State := Exec.run addWorker

/-- The joins are those of the created threads. -/
structure JoinsCreated (log : List Event) : Prop where
  once : ∀ handle, log.count (.joined handle) = log.count (.created handle)
  /-- At each one there is a created thread with this handle that was not joined yet. -/
  own : ∀ pre handle post, log = pre ++ .joined handle :: post →
    pre.count (.joined handle) < pre.count (.created handle)

/-- `add_worker` finds a core and gets as far as `thread_create`. -/
def CallsCreate (cores : List CpuInfo) (a : Attempt) : Prop :=
  coreInfo cores a.cpuId ≠ none ∧ ReachesCreate a

/-- The handle tells whether the thread was created. -/
def HandleTells (s : State) (a : Attempt) : Prop :=
  CallsCreate s.cores a → (a.create = 0 ↔ a.handle ≠ 0)

/-! ## What a call does -/

theorem run_ok {a : Attempt} :
    errnoToWorkerStatus (workerThreadRun a.schedPriority a.affinity a.create) = .ok ↔
      ReachesCreate a ∧ a.create = 0 := by
  rw [errnoToWorkerStatus_ok, workerThreadRun_eq_zero, ReachesCreate, and_assoc, and_assoc, and_assoc]

theorem addWorker_cases {s t : State} {a : Attempt} (h : addWorker s a = some t) :
    (¬ CallsCreate s.cores a ∧ t.workers = s.workers ∧ t.log = s.log) ∨
    (CallsCreate s.cores a ∧ a.create ≠ 0 ∧ t.workers = s.workers ∧
      t.log = s.log ++ .failed a.handle :: destroyWorker a.handle) ∨
    (CallsCreate s.cores a ∧ a.create = 0 ∧ t.workers = s.workers ++ [a.handle] ∧
      t.log = s.log ++ [.created a.handle]) ∨
    (CallsCreate s.cores a ∧ a.create = 0 ∧ t.workers = s.workers ∧
      t.log = s.log ++ .created a.handle :: destroyWorker a.handle) := by
  simp only [addWorker] at h
  split at h
  · rename_i hcore
    cases h
    exact .inl ⟨fun hc => hc.1 hcore, rfl, rfl⟩
  · rename_i core hcore
    have hknown : coreInfo s.cores a.cpuId ≠ none := by simp [hcore]
    split at h
    · cases h
    · by_cases hreach : ReachesCreate a
      · by_cases hcreate : a.create = 0
        · rw [run_ok.mpr ⟨hreach, hcreate⟩] at h
          simp only [runHandle, hreach, hcreate, if_true] at h
          split at h <;> cases h
          · exact .inr (.inr (.inl ⟨⟨hknown, hreach⟩, hcreate, rfl, rfl⟩))
          · exact .inr (.inr (.inr ⟨⟨hknown, hreach⟩, hcreate, rfl, by simp⟩))
        · simp only [runHandle, hreach, hcreate, if_true, if_false] at h
          split at h
          · exact absurd (run_ok.mp ‹_›).2 hcreate
          · cases h
            exact .inr (.inl ⟨⟨hknown, hreach⟩, hcreate, rfl, by simp⟩)
      · simp only [runHandle, hreach, if_false] at h
        split at h
        · exact absurd (run_ok.mp ‹_›).1 hreach
        · cases h
          exact .inl ⟨fun hc => hreach hc.2, rfl, by simp [destroyWorker]⟩

/-! ## Counting the threads -/

@[simp] theorem count_destroyWorker_joined (handle h : Nat) :
    (destroyWorker handle).count (.joined h) = if h ≠ 0 ∧ handle = h then 1 else 0 := by
  by_cases hz : handle = 0
  · subst hz
    by_cases hh : h = 0 <;> simp [destroyWorker, hh, Ne.symm]
  · by_cases hh : handle = h
    · subst hh
      simp [destroyWorker, hz]
    · simp [destroyWorker, hz, hh]

@[simp] theorem count_destroyWorker_created (handle h : Nat) :
    (destroyWorker handle).count (.created h) = 0 := by
  simp only [destroyWorker]
  split <;> simp

@[simp] theorem count_destroyWorker_failed (handle h : Nat) :
    (destroyWorker handle).count (.failed h) = 0 := by
  simp only [destroyWorker]
  split <;> simp

theorem count_destroyPool_joined (s : State) {h : Nat} (hh : h ≠ 0) :
    (destroyPool s).count (.joined h) = s.log.count (.joined h) + s.workers.count h := by
  have hworkers : ∀ ws : List Nat, (ws.flatMap destroyWorker).count (.joined h) = ws.count h := by
    intro ws
    induction ws with
    | nil => rfl
    | cons w ws ih => simp [List.count_append, List.count_cons, ih, hh, Nat.add_comm]
  rw [destroyPool, List.count_append, hworkers]

theorem count_destroyPool_zero (s : State) :
    (destroyPool s).count (.joined 0) = s.log.count (.joined 0) := by
  have hworkers : ∀ ws : List Nat, (ws.flatMap destroyWorker).count (.joined 0) = 0 := by
    intro ws
    induction ws with
    | nil => rfl
    | cons w ws ih => simp [List.count_append, ih]
  rw [destroyPool, List.count_append, hworkers, Nat.add_zero]

theorem count_destroyPool_created (s : State) (h : Nat) :
    (destroyPool s).count (.created h) = s.log.count (.created h) := by
  have hworkers : ∀ ws : List Nat, (ws.flatMap destroyWorker).count (.created h) = 0 := by
    intro ws
    induction ws with
    | nil => rfl
    | cons w ws ih => simp [List.count_append, ih]
  rw [destroyPool, List.count_append, hworkers, Nat.add_zero]

/-- Whatever a failed `thread_create` leaves counts as a thread, except zero. -/
structure Account (s : State) : Prop where
  nonzero : ∀ h, h ≠ 0 → s.log.count (.joined h) + s.workers.count h =
    s.log.count (.created h) + s.log.count (.failed h)
  zero : s.log.count (.joined 0) = 0

theorem init_account (cores : List CpuInfo) : Account (init cores) := by
  constructor <;> simp [init]

theorem Account.addWorker {s t : State} {a : Attempt} (h : Account s)
    (ha : addWorker s a = some t) : Account t := by
  have hzero := h.zero
  constructor
  case nonzero =>
    intro x hx
    have hs := h.nonzero x hx
    rcases addWorker_cases ha with ⟨-, hw, hl⟩ | ⟨-, -, hw, hl⟩ | ⟨-, -, hw, hl⟩ | ⟨-, -, hw, hl⟩ <;>
      rw [hw, hl]
    · exact hs
    · by_cases he : a.handle = x <;> simp [List.count_append, hx, he] <;> omega
    · by_cases he : a.handle = x <;> simp [List.count_append, he] <;> omega
    · by_cases he : a.handle = x <;> simp [List.count_append, hx, he] <;> omega
  case zero =>
    rcases addWorker_cases ha with ⟨-, -, hl⟩ | ⟨-, -, -, hl⟩ | ⟨-, -, -, hl⟩ | ⟨-, -, -, hl⟩ <;>
      rw [hl]
    · exact hzero
    all_goals simp [List.count_append, hzero]

/-- Every handle in the log is that of a created thread, and none of these is zero. -/
structure Tells (log : List Event) : Prop where
  created : log.count (.created 0) = 0
  failed : ∀ h, h ≠ 0 → log.count (.failed h) = 0

theorem tells_append (log events : List Event) : Tells (log ++ events) ↔ Tells log ∧ Tells events := by
  constructor
  · rintro ⟨hc, hf⟩
    simp only [List.count_append, Nat.add_eq_zero_iff] at hc hf
    exact ⟨⟨hc.1, fun h hh => (hf h hh).1⟩, hc.2, fun h hh => (hf h hh).2⟩
  · rintro ⟨⟨hc, hf⟩, hc', hf'⟩
    constructor
    · rw [List.count_append, hc, hc']
    · intro h hh
      rw [List.count_append, hf h hh, hf' h hh]

theorem tells_destroyWorker (handle : Nat) : Tells (destroyWorker handle) :=
  ⟨count_destroyWorker_created handle 0, fun h _ => count_destroyWorker_failed handle h⟩

theorem tells_created (handle : Nat) : Tells [.created handle] ↔ handle ≠ 0 := by
  constructor
  · rintro ⟨hc, -⟩ rfl
    simp at hc
  · intro hne
    exact ⟨by simp [hne], by simp⟩

theorem tells_failed (handle : Nat) : Tells [.failed handle] ↔ handle = 0 := by
  constructor
  · rintro ⟨-, hf⟩
    by_contra hne
    simpa using hf handle hne
  · rintro rfl
    exact ⟨by simp, fun h hh => by simp [Ne.symm hh]⟩

theorem tells_addWorker {s t : State} {a : Attempt} (ha : addWorker s a = some t) :
    Tells t.log ↔ Tells s.log ∧ HandleTells s a := by
  rcases addWorker_cases ha with ⟨hc, -, hl⟩ | ⟨hc, hcreate, -, hl⟩ | ⟨hc, hcreate, -, hl⟩ |
    ⟨hc, hcreate, -, hl⟩ <;> rw [hl]
  · exact ⟨fun h => ⟨h, fun hc' => absurd hc' hc⟩, fun h => h.1⟩
  · have htells : HandleTells s a ↔ a.handle = 0 := by simp [HandleTells, hc, hcreate]
    rw [List.append_cons, tells_append, tells_append, tells_failed, htells]
    simp only [tells_destroyWorker, and_true]
  · have htells : HandleTells s a ↔ a.handle ≠ 0 := by simp [HandleTells, hc, hcreate]
    rw [tells_append, tells_created, htells]
  · have htells : HandleTells s a ↔ a.handle ≠ 0 := by simp [HandleTells, hc, hcreate]
    rw [List.append_cons, tells_append, tells_append, tells_created, htells]
    simp only [tells_destroyWorker, and_true]

theorem tells_run {s t : State} {attempts : List Attempt} (h : run s attempts = some t) :
    Tells t.log ↔ Tells s.log ∧ Exec.Steps addWorker s HandleTells attempts := by
  induction attempts generalizing s with
  | nil =>
    cases h
    simp only [Exec.steps_nil, and_true]
  | cons a attempts ih =>
    obtain ⟨u, hu, h⟩ := Exec.run_cons_split h
    rw [ih h, tells_addWorker hu, Exec.steps_cons hu, and_assoc]

/-! ## The order of the joins -/

def Owned (log : List Event) : Prop :=
  ∀ pre handle post, log = pre ++ .joined handle :: post →
    pre.count (.joined handle) < pre.count (.created handle)

theorem Owned.snoc {log : List Event} (h : Owned log) {e : Event}
    (he : ∀ handle, e = .joined handle →
      log.count (.joined handle) < log.count (.created handle)) : Owned (log ++ [e]) := by
  intro pre handle post hsplit
  rcases List.eq_nil_or_concat post with rfl | ⟨post', e', rfl⟩
  · obtain ⟨rfl, hlast⟩ := List.append_inj' hsplit rfl
    exact he handle (by simpa using hlast)
  · refine h pre handle post' ?_
    have hsplit' : log ++ [e] = (pre ++ .joined handle :: post') ++ [e'] := by simpa using hsplit
    exact (List.append_inj' hsplit' rfl).1

theorem Owned.destroyWorker {log : List Event} (h : Owned log) {handle : Nat}
    (he : handle ≠ 0 → log.count (.joined handle) < log.count (.created handle)) :
    Owned (log ++ destroyWorker handle) := by
  simp only [ThreadHandles.destroyWorker]
  split
  · rename_i hne
    refine h.snoc ?_
    rintro _ ⟨rfl⟩
    exact he hne
  · simpa using h

/-- The pool joins what was created and is still in its list. -/
theorem Owned.destroyPool {ws : List Nat} {log : List Event} (h : Owned log)
    (hle : ∀ x, x ≠ 0 → log.count (.joined x) + ws.count x ≤ log.count (.created x)) :
    Owned (log ++ ws.flatMap ThreadHandles.destroyWorker) := by
  induction ws generalizing log with
  | nil => simpa using h
  | cons w ws ih =>
    rw [List.flatMap_cons, ← List.append_assoc]
    refine ih (h.destroyWorker fun hw => ?_) fun x hx => ?_
    · have := hle w hw
      simp only [List.count_cons_self] at this
      omega
    · have := hle x hx
      by_cases he : w = x <;> simp [List.count_append, hx, he] at this ⊢ <;> omega

theorem Owned.addWorker {s t : State} {a : Attempt} (h : Owned s.log) (hs : Account s)
    (ht : Tells t.log) (ha : addWorker s a = some t) : Owned t.log := by
  obtain ⟨htells, htell⟩ := (tells_addWorker ha).mp ht
  rcases addWorker_cases ha with ⟨-, -, hl⟩ | ⟨hc, hcreate, -, hl⟩ | ⟨-, -, -, hl⟩ | ⟨-, -, -, hl⟩ <;>
    rw [hl]
  · exact h
  · -- nothing was created and the handle is zero
    have hzero : a.handle = 0 := by
      by_contra hne
      exact hcreate ((htell hc).mpr hne)
    rw [List.append_cons, hzero]
    refine (h.snoc (by simp)).destroyWorker fun hne => absurd rfl hne
  · exact h.snoc (by simp)
  · rw [List.append_cons]
    refine (h.snoc (by simp)).destroyWorker fun hne => ?_
    have hnonzero := hs.nonzero a.handle hne
    have hfailed := htells.failed a.handle hne
    simp [List.count_append]
    omega

theorem account_run {s t : State} {attempts : List Attempt} (hs : Account s)
    (h : run s attempts = some t) : Account t :=
  Exec.run_invariant (P := fun _ => True) (fun _ _ _ hs _ ha => hs.addWorker ha) hs
    (fun _ _ => trivial) h

theorem owned_run {s t : State} {attempts : List Attempt} (ho : Owned s.log) (hs : Account s)
    (ht : Tells t.log) (h : run s attempts = some t) : Owned t.log := by
  induction attempts generalizing s with
  | nil =>
    cases h
    exact ho
  | cons a attempts ih =>
    obtain ⟨u, hu, h⟩ := Exec.run_cons_split h
    exact ih (ho.addWorker hs ((tells_run h).mp ht).1 hu) (hs.addWorker hu) h

theorem joinsCreated_of_tells {s : State} (hs : Account s) (ho : Owned s.log) (ht : Tells s.log) :
    JoinsCreated (destroyPool s) where
  once := by
    intro x
    rw [count_destroyPool_created]
    by_cases hx : x = 0
    · rw [hx, count_destroyPool_zero, hs.zero, ht.created]
    · have hnonzero := hs.nonzero x hx
      rw [count_destroyPool_joined s hx, hnonzero, ht.failed x hx, Nat.add_zero]
  own := by
    refine ho.destroyPool fun x hx => ?_
    have hnonzero := hs.nonzero x hx
    have hfailed := ht.failed x hx
    omega

theorem tells_of_joinsCreated {s : State} (hs : Account s) (h : JoinsCreated (destroyPool s)) :
    Tells s.log where
  created := by
    have hzero := h.once 0
    rw [count_destroyPool_zero, count_destroyPool_created, hs.zero] at hzero
    exact hzero.symm
  failed := by
    intro x hx
    have hnonzero := hs.nonzero x hx
    have honce := h.once x
    rw [count_destroyPool_joined s hx, count_destroyPool_created] at honce
    omega

/-- Over a history the joins are those of the created threads if and only if each `thread_create`
leaves zero when it fails and something else when it succeeds. -/
theorem joinsCreated_iff {cores : List CpuInfo} {attempts : List Attempt} {s : State}
    (h : run (init cores) attempts = some s) :
    JoinsCreated (destroyPool s) ↔ Exec.Steps addWorker (init cores) HandleTells attempts := by
  have hs := account_run (init_account cores) h
  have hinit : Tells (init cores).log := ⟨rfl, fun _ _ => rfl⟩
  have htells := tells_run h
  constructor
  · intro hj
    exact (htells.mp (tells_of_joinsCreated hs hj)).2
  · intro hsteps
    have ht := htells.mpr ⟨hinit, hsteps⟩
    refine joinsCreated_of_tells hs (owned_run ?_ (init_account cores) ht h) ht
    intro pre handle post he
    simp [init] at he

/-- A thread is created, and then the system has no more of them. -/
def limitExceeded (left : Nat) : List Attempt :=
  [⟨⟨0, 75, none, 0, 0, .ok⟩, 5⟩, ⟨⟨0, 75, none, 0, EAGAIN, .ok⟩, left⟩]

theorem joinsCreated_iff_limitExceeded :
    ∃ s, run (init (CoreTable.buildCoreList 0 2)) (limitExceeded 0) = some s ∧
      (JoinsCreated (destroyPool s) ↔
        Exec.Steps addWorker (init (CoreTable.buildCoreList 0 2)) HandleTells (limitExceeded 0)) :=
  ⟨_, rfl, joinsCreated_iff rfl⟩

/-- The failed call leaves a handle, which is joined. -/
theorem leftover_is_joined :
    ∃ s, run (init (CoreTable.buildCoreList 0 2)) (limitExceeded 7) = some s ∧
      ¬ JoinsCreated (destroyPool s) := by
  refine ⟨_, rfl, fun h => ?_⟩
  have honce := h.once 7
  exact absurd honce (by decide)

end Twine.ThreadHandles
