import Mathlib.Data.Fintype.Prod
import Twine.Actions
import Twine.PoolRounds

/-!
# A pool whose callbacks work on shared data

The pool of `Twine.Pool` together with the data that the callbacks and the controlling
thread work on. A callback is a program of atomic actions, chosen by the function and the
data pointer that `add_worker` was given; the actions of different workers interleave.
The serial pool takes the same labels, but runs the callbacks of a round one after the
other at the moment of the release.
-/
namespace Twine.PoolMemory

open Actions
open Pool (phases waited Uninterrupted WorkerThread)

variable {σ : Type} {prog : Nat → List (σ → σ)}

structure State (σ : Type) where
  pool : Pool.State
  store : σ
  /-- What is left of the callback that a worker is in. -/
  left : Nat → List (σ → σ)

def init (cores : List CoreTable.CpuInfo) (store : σ) : State σ :=
  ⟨Pool.init cores, store, fun _ => []⟩

inductive Label (σ : Type) where
  | pool (l : Pool.Label)
  /-- The next action of the callback of a worker. -/
  | act (i : Nat)
  /-- The controlling thread changes the data between two calls. -/
  | host (f : σ → σ)

/-- The program of the callback of a worker. -/
def program (prog : Nat → List (σ → σ)) (p : Pool.State) (i : Nat) : List (σ → σ) :=
  match p.workers[i]? with
  | none => []
  | some w => prog w.callback

/-- A callback ends after its last action. -/
def State.allows (s : State σ) : Pool.Label → Bool
  | .worker i .callbackEnd => (s.left i).isEmpty
  | _ => true

/-- A callback starts with all of its actions ahead. -/
def State.follow (prog : Nat → List (σ → σ)) (s : State σ) (p : Pool.State) :
    Pool.Label → State σ
  | .worker i .callbackStart =>
    { s with pool := p, left := Function.update s.left i (program prog p i) }
  | _ => { s with pool := p }

def step (prog : Nat → List (σ → σ)) (s : State σ) : Label σ → Option (State σ)
  | .pool l => if s.allows l then (Pool.step s.pool l).map fun p => s.follow prog p l else none
  | .act i =>
    match s.pool.workers[i]?, s.left i with
    | some w, a :: p =>
      if w.pc = .inCallback then
        some { s with store := a s.store, left := Function.update s.left i p }
      else none
    | _, _ => none
  | .host f => if s.pool.ctrl = .idle then some { s with store := f s.store } else none

/-! ## The serial pool -/

/-- The programs of the workers that a release makes due. -/
def round (prog : Nat → List (σ → σ)) (p : Pool.State) : List (List (σ → σ)) :=
  p.workers.map fun w => if p.running = true ∧ w.threadRunning = true then prog w.callback else []

def serialStep (prog : Nat → List (σ → σ)) (s : Pool.State × σ) :
    Label σ → Option (Pool.State × σ)
  | .pool .release =>
    (Pool.step s.1 .release).map fun p => (p, runAll (round prog s.1).flatten s.2)
  | .pool l => (Pool.step s.1 l).map fun p => (p, s.2)
  | .act _ => some s
  | .host f => if s.1.ctrl = .idle then some (s.1, f s.2) else none

/-! ## The use of the data -/

def poolLabel : Label σ → Option Pool.Label
  | .pool l => some l
  | _ => none

/-- What the pool has done. -/
def poolLabels (tr : List (Label σ)) : List Pool.Label := tr.filterMap poolLabel

/-- The pool waits between two wakeups and no `semaphore_wait` fails, callbacks that run in the
same round are independent, and the controlling thread leaves the data alone from a wakeup until
it has waited. -/
def Orderly (prog : Nat → List (σ → σ)) (tr : List (Label σ)) (s : State σ) : Label σ → Prop
  | .pool l => Uninterrupted (poolLabels tr) s.pool l ∧
      (l = .release → (round prog s.pool).Pairwise Independent)
  | .act _ => True
  | .host _ => waited (poolLabels tr) = true

instance [Fintype σ] [DecidableEq σ] (tr : List (Label σ)) (s : State σ) (l : Label σ) :
    Decidable (Orderly prog tr s l) := by
  cases l <;> simp only [Orderly] <;> infer_instance

/-! ## What each step does -/

theorem pool_step {s t : State σ} {l : Pool.Label} (h : step prog s (.pool l) = some t) :
    s.allows l = true ∧ ∃ p, Pool.step s.pool l = some p ∧ t = s.follow prog p l := by
  simp only [step] at h
  split at h
  · rename_i hl
    obtain ⟨p, hp, rfl⟩ := Option.map_eq_some_iff.mp h
    exact ⟨hl, p, hp, rfl⟩
  · cases h

theorem act_step {s t : State σ} {i : Nat} (h : step prog s (.act i) = some t) :
    ∃ w a p, s.pool.workers[i]? = some w ∧ w.pc = .inCallback ∧ s.left i = a :: p ∧
      t = { s with store := a s.store, left := Function.update s.left i p } := by
  simp only [step] at h
  split at h
  · rename_i w a p hw hleft
    split at h
    · rename_i hpc
      cases h
      exact ⟨w, a, p, hw, hpc, hleft, rfl⟩
    · cases h
  · cases h

theorem host_step {s t : State σ} {f : σ → σ} (h : step prog s (.host f) = some t) :
    s.pool.ctrl = .idle ∧ t = { s with store := f s.store } := by
  simp only [step] at h
  split at h
  · rename_i hc
    cases h
    exact ⟨hc, rfl⟩
  · cases h

@[simp] theorem follow_pool (s : State σ) (p : Pool.State) (l : Pool.Label) :
    (s.follow prog p l).pool = p := by
  unfold State.follow
  split <;> rfl

@[simp] theorem follow_store (s : State σ) (p : Pool.State) (l : Pool.Label) :
    (s.follow prog p l).store = s.store := by
  unfold State.follow
  split <;> rfl

/-- Nobody else's program is touched. -/
theorem follow_left (s : State σ) (p : Pool.State) (l : Pool.Label) {i : Nat}
    (h : l ≠ .worker i .callbackStart) : (s.follow prog p l).left i = s.left i := by
  unfold State.follow
  split
  · rename_i j
    have hij : i ≠ j := fun he => h (by rw [he])
    simp [Function.update_of_ne hij]
  · rfl

theorem poolLabels_pool (tr : List (Label σ)) (l : Pool.Label) :
    poolLabels (tr ++ [.pool l]) = poolLabels tr ++ [l] := by
  simp [poolLabels, poolLabel]

theorem poolLabels_act (tr : List (Label σ)) (i : Nat) :
    poolLabels (tr ++ [.act i]) = poolLabels tr := by
  simp [poolLabels, poolLabel]

theorem poolLabels_host (tr : List (Label σ)) (f : σ → σ) :
    poolLabels (tr ++ [.host f]) = poolLabels tr := by
  simp [poolLabels, poolLabel]

/-- No step of the pool gives a worker another callback. -/
theorem callback_kept {s t : Pool.State} {l : Pool.Label} (h : Pool.step s l = some t) {i : Nat}
    {v w : WorkerThread} (hw : s.workers[i]? = some w) (hv : t.workers[i]? = some v) :
    v.callback = w.callback := by
  have hsame : t.workers = s.workers → v.callback = w.callback := by
    intro he
    rw [he, hw] at hv
    cases hv
    rfl
  have hset : ∀ j u u', s.workers[j]? = some u → t.workers = s.workers.set j u' →
      u'.callback = u.callback → v.callback = w.callback := by
    intro j u u' hu he hcb
    rw [he] at hv
    cases Pool.getElem?_set_cases hu hv with
    | inl hj =>
      obtain ⟨rfl, rfl⟩ := hj
      obtain rfl : u = w := Option.some.inj (hu.symm.trans hw)
      exact hcb
    | inr hj =>
      obtain rfl : v = w := Option.some.inj (hj.2.symm.trans hw)
      rfl
  cases l with
  | call c =>
    obtain ⟨-, rfl⟩ := Pool.call_idle h
    exact hsame rfl
  | ret r =>
    obtain ⟨-, rfl⟩ := Pool.ret_returning h
    exact hsame rfl
  | release =>
    obtain ⟨k, -, rfl⟩ := Pool.release_releasing h
    exact hsame rfl
  | spurious =>
    obtain ⟨k, -, rfl⟩ := Pool.spurious_asleep h
    exact hsame rfl
  | ctrl =>
    cases Pool.ctrl_cases h with
    | spawn =>
      rw [List.getElem?_append_left (List.getElem?_eq_some_iff.mp hw).1, hw] at hv
      cases hv
      rfl
    | stop hc hu =>
      rw [List.getLast?_eq_getElem?] at hu
      exact hset _ _ _ hu rfl rfl
    | pop =>
      rw [(Pool.getElem?_dropLast_of_some hv).1] at hw
      cases hw
      rfl
    | _ => exact hsame rfl
  | worker j a =>
    obtain ⟨u, hu, ⟨-, -, -, rfl⟩ | ⟨-, sem, -, -, rfl⟩ | ⟨-, sem, -, rfl⟩ | ⟨u', hl, rfl⟩⟩ :=
      Pool.worker_cases h
    · exact hset j u _ hu rfl rfl
    · exact hset j u _ hu rfl rfl
    · exact hset j u _ hu rfl rfl
    · apply hset j u u' hu rfl
      cases Pool.localStep_local hl <;> rfl

/-! ## What is left of the round -/

/-- The actions that a worker still has to take in the open round. -/
def State.pending (prog : Nat → List (σ → σ)) (s : State σ) (i : Nat) : List (σ → σ) :=
  match phases s.pool i with
  | .idle => []
  | .due => program prog s.pool i
  | .busy => s.left i

/-- What is left of the round leads to the result of the serial pool. -/
def Serial (prog : Nat → List (σ → σ)) (s : State σ) (result : σ) : Prop :=
  ∃ left, Leads left s.store result ∧ ∀ i, left[i]?.getD [] = s.pending prog i

theorem phases_idle_of_none {p : Pool.State} {i : Nat} (h : p.workers[i]? = none) :
    phases p i = .idle := by
  simp [phases, h]

theorem program_kept {s t : Pool.State} {l : Pool.Label} (h : Pool.step s l = some t) {i : Nat}
    (hs : phases s i ≠ .idle) (ht : phases t i ≠ .idle) :
    program prog t i = program prog s i := by
  cases hw : s.workers[i]? with
  | none => exact absurd (phases_idle_of_none hw) hs
  | some w =>
    cases hv : t.workers[i]? with
    | none => exact absurd (phases_idle_of_none hv) ht
    | some v => simp [program, hw, hv, callback_kept h hw hv]

theorem pending_idle {s : State σ} {i : Nat} (h : phases s.pool i = .idle) :
    s.pending prog i = [] := by
  simp [State.pending, h]

theorem pending_due {s : State σ} {i : Nat} (h : phases s.pool i = .due) :
    s.pending prog i = program prog s.pool i := by
  simp [State.pending, h]

theorem pending_busy {s : State σ} {i : Nat} (h : phases s.pool i = .busy) :
    s.pending prog i = s.left i := by
  simp [State.pending, h]

/-- A worker whose phase stays the same has the same actions ahead. -/
theorem pending_kept {s : State σ} {p : Pool.State} {l : Pool.Label}
    (h : Pool.step s.pool l = some p) {i : Nat} (hl : l ≠ .worker i .callbackStart)
    (hph : phases p i = phases s.pool i) :
    (s.follow prog p l).pending prog i = s.pending prog i := by
  cases hp : phases s.pool i with
  | idle => rw [pending_idle hp, pending_idle (by simp [hph, hp])]
  | due =>
    have hprog : program prog p i = program prog s.pool i :=
      program_kept h (by simp [hp]) (by simp [hph, hp])
    rw [pending_due hp, pending_due (by simp [hph, hp]), follow_pool, hprog]
  | busy => rw [pending_busy hp, pending_busy (by simp [hph, hp]), follow_left s p l hl]

/-- When nobody is at work, nothing is left. -/
theorem Serial.done {s : State σ} {result : σ} (h : Serial prog s result)
    (hidle : ∀ i, phases s.pool i = .idle) :
    ∃ left, Leads left s.store result ∧ (∀ p ∈ left, p = []) ∧
      ∀ i, left[i]?.getD [] = s.pending prog i := by
  obtain ⟨left, hleads, hpending⟩ := h
  refine ⟨left, hleads, fun p hp => ?_, hpending⟩
  obtain ⟨i, hi⟩ := List.mem_iff_getElem?.mp hp
  have hpi := hpending i
  rw [pending_idle (hidle i), hi] at hpi
  exact hpi

theorem Serial.store_eq {s : State σ} {result : σ} (h : Serial prog s result)
    (hidle : ∀ i, phases s.pool i = .idle) : s.store = result := by
  obtain ⟨left, hleads, hdone, -⟩ := h.done hidle
  exact hleads.done hdone

/-! ## Each step of the pool is a step of the serial pool -/

/-- The steps that are neither a release nor an end of a callback. -/
theorem Serial.quiet {s : State σ} {result : σ} {p : Pool.State} {l : Pool.Label}
    (h : Serial prog s result) (hstep : Pool.step s.pool l = some p)
    (hl : ∀ i, l ≠ .worker i .callbackStart) (hph : phases p = phases s.pool) :
    Serial prog (s.follow prog p l) result := by
  obtain ⟨left, hleads, hpending⟩ := h
  refine ⟨left, by simpa using hleads, fun i => ?_⟩
  rw [hpending i, pending_kept hstep (hl i) (by rw [hph])]

/-- At a release nothing is left of the last round, and the next one is ahead. -/
theorem Serial.release {s : State σ} {result : σ} {p : Pool.State} (h : Serial prog s result)
    (hinv : Pool.Inv s.pool) (hstep : Pool.step s.pool .release = some p)
    (hround : (round prog s.pool).Pairwise Independent) :
    Serial prog (s.follow prog p .release) (runAll (round prog s.pool).flatten result) := by
  have hrefines := Pool.release_refines hinv hstep
  have hidle : ∀ i, phases s.pool i = .idle := by
    cases hrefines.1 with
    | release hidle => exact hidle
  rw [← h.store_eq hidle]
  refine ⟨round prog s.pool, by simpa using leads_fork hround s.store, fun i => ?_⟩
  have hph := hrefines.2 i
  obtain ⟨k, -, rfl⟩ := Pool.release_releasing hstep
  cases hw : s.pool.workers[i]? with
  | none =>
    rw [pending_idle (by simpa [hw] using hph)]
    simp [round, hw]
  | some w =>
    by_cases hrun : s.pool.running = true ∧ w.threadRunning = true
    · rw [pending_due (by simpa [hw, hrun] using hph)]
      simp [round, hw, hrun, program]
    · rw [pending_idle (by simpa [hw, hrun] using hph)]
      simp [round, hw, hrun]

/-- A callback that starts has its whole program ahead, as it had when it was due. -/
theorem Serial.start {s : State σ} {result : σ} {p : Pool.State} {i : Nat}
    (h : Serial prog s result) (hstep : Pool.step s.pool (.worker i .callbackStart) = some p)
    (hph : Rounds.Step (phases s.pool) (.start i) (phases p)) :
    Serial prog (s.follow prog p (.worker i .callbackStart)) result := by
  obtain ⟨left, hleads, hpending⟩ := h
  refine ⟨left, by simpa using hleads, fun j => ?_⟩
  rw [hpending j]
  generalize hq : phases p = q at hph
  cases hph with
  | start _ hdue =>
    by_cases hj : j = i
    · subst hj
      have hbusy : phases p j = .busy := by simp [hq]
      have hprog : program prog p j = program prog s.pool j :=
        program_kept hstep (by simp [hdue]) (by simp [hbusy])
      rw [pending_due hdue, pending_busy (by simpa using hbusy)]
      simp [State.follow, hprog]
    · have hij : i ≠ j := fun he => hj he.symm
      rw [pending_kept hstep (by simp [hij])]
      simp [hq, Function.update_of_ne hj]

/-- A callback that ends has nothing left. -/
theorem Serial.finish {s : State σ} {result : σ} {p : Pool.State} {i : Nat}
    (h : Serial prog s result) (hstep : Pool.step s.pool (.worker i .callbackEnd) = some p)
    (hempty : s.left i = []) (hph : Rounds.Step (phases s.pool) (.finish i) (phases p)) :
    Serial prog (s.follow prog p (.worker i .callbackEnd)) result := by
  obtain ⟨left, hleads, hpending⟩ := h
  refine ⟨left, by simpa using hleads, fun j => ?_⟩
  rw [hpending j]
  generalize hq : phases p = q at hph
  cases hph with
  | finish _ hbusy =>
    by_cases hj : j = i
    · subst hj
      rw [pending_busy hbusy, pending_idle (by simp [hq]), hempty]
    · rw [pending_kept hstep (by simp)]
      simp [hq, Function.update_of_ne hj]

/-- The next action of a callback is the next action of its program. -/
theorem Serial.act {s t : State σ} {result : σ} {i : Nat} (h : Serial prog s result)
    (hstep : step prog s (.act i) = some t) : Serial prog t result := by
  obtain ⟨w, a, p, hw, hpc, hleft, rfl⟩ := act_step hstep
  obtain ⟨left, hleads, hpending⟩ := h
  have hbusy : phases s.pool i = .busy := by simp [Pool.phases_some hw, WorkerThread.phase, hpc]
  have hi : left[i]? = some (a :: p) := by
    have hpi := hpending i
    rw [pending_busy hbusy, hleft] at hpi
    cases hli : left[i]? with
    | none => simp [hli] at hpi
    | some q => simpa [hli] using hpi
  refine ⟨left.set i p, hleads.act hi, fun j => ?_⟩
  by_cases hj : j = i
  · subst hj
    simp [State.pending, hbusy, (List.getElem?_eq_some_iff.mp hi).1]
  · have hij : i ≠ j := fun he => hj he.symm
    rw [List.getElem?_set_ne hij, hpending j]
    cases hp : phases s.pool j <;> simp [State.pending, hp, program, Function.update_of_ne hj]

section Runs

variable {cores : List CoreTable.CpuInfo} {store : σ} {tr : List (Label σ)} {s t : State σ}
  {l : Label σ} {result : σ}

/-- The pool's labels of an orderly run are a run of the pool. -/
theorem Serial.pool_step {l : Pool.Label} {p : Pool.State} (h : Serial prog s result)
    (hinv : Pool.Inv s.pool) (hi : l.interrupts = false)
    (hround : l = .release → (round prog s.pool).Pairwise Independent)
    (hallows : s.allows l = true) (hstep : Pool.step s.pool l = some p) :
    ∃ next, serialStep prog (s.pool, result) (.pool l) = some (p, next) ∧
      Serial prog (s.follow prog p l) next := by
  have hrefines := Pool.step_refines hinv hi hstep
  by_cases hr : l = .release
  · subst hr
    refine ⟨runAll (round prog s.pool).flatten result, ?_, h.release hinv hstep (hround rfl)⟩
    simp [serialStep, hstep]
  · have hserial : serialStep prog (s.pool, result) (.pool l) = some (p, result) := by
      cases l with
      | release => exact absurd rfl hr
      | _ => simp [serialStep, hstep]
    refine ⟨result, hserial, ?_⟩
    cases he : Pool.event l with
    | none =>
      apply h.quiet hstep ?_ (hrefines.1 he)
      intro i hl
      subst hl
      cases he
    | some e =>
      have hph := hrefines.2 e he
      cases l with
      | release => exact absurd rfl hr
      | worker i a =>
        cases a <;> cases he
        · exact h.start hstep hph
        · exact h.finish hstep (by simpa [State.allows] using hallows) hph
      | _ => cases he

theorem Serial.step (h : Serial prog s result)
    (hpool : Exec.Guarded Pool.step Uninterrupted (Pool.init cores) (poolLabels tr) s.pool)
    (hg : Orderly prog tr s l) (hstep : PoolMemory.step prog s l = some t) :
    Exec.Guarded Pool.step Uninterrupted (Pool.init cores) (poolLabels (tr ++ [l])) t.pool ∧
      ∃ next, serialStep prog (s.pool, result) l = some (t.pool, next) ∧ Serial prog t next := by
  cases l with
  | pool l =>
    obtain ⟨hallows, p, hp, rfl⟩ := PoolMemory.pool_step hstep
    obtain ⟨hl, hround⟩ := hg
    rw [poolLabels_pool, follow_pool]
    exact ⟨.next l hpool hl hp, h.pool_step (Pool.guarded_inv hpool) hl.1 hround hallows hp⟩
  | act i =>
    have hact := h.act hstep
    obtain ⟨w, a, p, -, -, -, rfl⟩ := act_step hstep
    rw [poolLabels_act]
    exact ⟨hpool, result, rfl, hact⟩
  | host f =>
    obtain ⟨hc, rfl⟩ := host_step hstep
    rw [poolLabels_host]
    have hidle := ((Pool.guarded_inv_settled hpool).2 hg).phases_idle
    obtain ⟨left, hleads, hdone, hpending⟩ := h.done hidle
    exact ⟨hpool, f result, by simp [serialStep, hc], left, hleads.host hdone f, hpending⟩

end Runs

end Twine.PoolMemory
