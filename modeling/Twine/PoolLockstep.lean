import Twine.PoolRounds

/-!
# The workers run in lockstep

Over any stretch of a run, not only from a wakeup to the next wait, a worker has run its
callback once for every release, up to the run that is open at either end. So the workers
are never more than one callback apart, and no wakeup is lost or served twice.
-/
namespace Twine.Pool

open Placement
open Rounds (Phase Event)

section Lockstep

variable {cores : List CoreTable.CpuInfo} {pre post : List Label} {s t : State} {l : Label}

/-- Such a caller never loses a worker. -/
theorem Plain.length_le (h : Plain s) (hstep : Pool.step s l = some t) :
    s.workers.length ≤ t.workers.length := by
  have hat := h.ctrl
  cases l with
  | call c =>
    obtain ⟨-, rfl⟩ := call_idle hstep
    exact Nat.le_refl _
  | ret r =>
    obtain ⟨-, rfl⟩ := ret_returning hstep
    exact Nat.le_refl _
  | release =>
    obtain ⟨k, -, rfl⟩ := release_releasing hstep
    exact Nat.le_refl _
  | spurious =>
    obtain ⟨k, -, rfl⟩ := spurious_asleep hstep
    exact Nat.le_refl _
  | ctrl =>
    cases ctrl_cases hstep with
    | spawn => simp
    | stop hc | pop hc =>
      rw [hc] at hat
      exact hat.elim
    | _ => exact Nat.le_refl _
  | worker i a =>
    obtain ⟨w, -, ⟨-, -, -, rfl⟩ | ⟨-, sem, -, -, rfl⟩ | ⟨-, sem, -, rfl⟩ | ⟨w', -, rfl⟩⟩ :=
      worker_cases hstep <;> simp [State.register, State.setWorker]

/-- What a worker still has to do, at both ends of a stretch. -/
structure Arrears (mid : List Label) (s t : State) (i : Nat) : Prop where
  starts : mid.count (.worker i .callbackStart) + (phases t i).unstarted =
    mid.count .release + (phases s i).unstarted
  finishes : mid.count (.worker i .callbackEnd) + (phases t i).unfinished =
    mid.count .release + (phases s i).unfinished

/-- The counts of a label, by the event that it is. -/
theorem count_event (l : Label) (i : Nat) :
    [l].count .release = (if event l = some .release then 1 else 0) ∧
    [l].count (.worker i .callbackStart) = (if event l = some (.start i) then 1 else 0) ∧
    [l].count (.worker i .callbackEnd) = (if event l = some (.finish i) then 1 else 0) := by
  cases l with
  | worker j a => cases a <;> simp [event, List.count_singleton]
  | _ => simp [event]

theorem Arrears.snoc {mid : List Label} {u v : State} {i : Nat} (h : Arrears mid s u i)
    (hinv : Inv u) (hl : l.interrupts = false) (hstep : step u l = some v)
    (hdue : l = .release → phases v i = .due) : Arrears (mid ++ [l]) s v i := by
  obtain ⟨hrelease, hstart, hfinish⟩ := count_event l i
  obtain ⟨hstarts, hfinishes⟩ := h
  have hrefines := step_refines hinv hl hstep
  cases he : event l with
  | none =>
    rw [he] at hrelease hstart hfinish
    have hph := hrefines.1 he
    constructor <;>
      simp only [List.count_append, hrelease, hstart, hfinish, hph, reduceCtorEq, if_false] <;>
      omega
  | some e =>
    rw [he] at hrelease hstart hfinish
    have hr : e = .release → phases v i = .due := by
      rintro rfl
      apply hdue
      cases l with
      | worker j a => cases a <;> cases he
      | release => rfl
      | _ => cases he
    obtain ⟨hs, hf⟩ := Rounds.step_arrears (hrefines.2 e he) i hr
    constructor <;>
      simp only [List.count_append, hrelease, hstart, hfinish, Option.some.injEq] <;>
      omega

theorem arrears_run {i : Nat} (hs : Exec.Guarded step RoundCaller (init cores) pre s)
    (h : Exec.Guarded step RoundCaller (init cores) (pre ++ post) t) (hi : i < s.workers.length) :
    Arrears post s t i := by
  refine (Exec.Guarded.segment
    (J := fun mid u => i < u.workers.length ∧ Arrears mid s u i) hs ⟨hi, by simp, by simp⟩ ?_ h).2
  intro mid u l v hu hJ hg hstep
  obtain ⟨hlt, harrears⟩ := hJ
  have hinv := guarded_inv (uninterrupted_of_roundCaller hu)
  refine ⟨Nat.lt_of_lt_of_le hlt ((roundCaller_plain hu).length_le hstep), ?_⟩
  apply harrears.snoc hinv hg.1.1 hstep
  rintro rfl
  rw [(release_refines hinv hstep).2 i, if_pos ((roundCaller_due hu hstep i).mpr hlt)]

theorem phases_of_waited {tr : List Label}
    (h : Exec.Guarded step RoundCaller (init cores) tr s) (hw : waited tr = true) (i : Nat) :
    phases s i = .idle :=
  ((guarded_inv_settled (uninterrupted_of_roundCaller h)).2 hw).phases_idle i

/-- For every stretch of every run in which no `semaphore_wait` fails, no initialisation fails
and the destructor is not called: each worker that was there at its beginning has finished
its callback once for every release, but for the run that is due or busy at either end. If
the stretch begins with all rounds waited for, no two of these workers are more than one
callback apart, and if it ends so, each of them has run exactly as often as the barrier was
released. -/
theorem workers_in_lockstep (hs : Exec.Guarded step RoundCaller (init cores) pre s)
    (h : Exec.Guarded step RoundCaller (init cores) (pre ++ post) t) {i : Nat}
    (hi : i < s.workers.length) :
    Arrears post s t i ∧
    (waited pre = true → ∀ j < s.workers.length,
      post.count (.worker i .callbackEnd) ≤ post.count (.worker j .callbackEnd) + 1) ∧
    (waited pre = true → waited (pre ++ post) = true →
      post.count (.worker i .callbackEnd) = post.count .release) := by
  have hat := arrears_run hs h hi
  have hfinishes := hat.finishes
  refine ⟨hat, fun hw j hj => ?_, fun hw hw' => ?_⟩
  · have hother := (arrears_run hs h hj).finishes
    have hle : ∀ p : Phase, p.unfinished ≤ 1 := by
      intro p
      cases p <;> simp [Phase.unfinished]
    have hlast := hle (phases t j)
    rw [phases_of_waited hs hw] at hfinishes hother
    omega
  · rw [phases_of_waited hs hw, phases_of_waited h hw'] at hfinishes
    simpa using hfinishes

end Lockstep

def twoWorkers : List Label :=
  addWorkerRun ⟨0, 75, none, 0, 0, .ok⟩ 0 ++ addWorkerRun ⟨0, 75, none, 0, 0, .ok⟩ 1

/-- Two wakeups, in the second of which only the second worker gets to its callback. -/
def twoWakeups : List Label :=
  [.call .wakeupAndWait, .release, .ctrl, .ctrl, .ctrl] ++ callbackRun 0 ++ callbackRun 1 ++
    [.ctrl, .ret .wakeupAndWait, .call .wakeupWorkers, .release, .ctrl, .ctrl, .ctrl,
      .ret .wakeupWorkers] ++ callbackRun 1

theorem workers_in_lockstep_two : ∃ s t,
    run (init (CoreTable.buildCoreList 0 2)) twoWorkers = some s ∧
    run (init (CoreTable.buildCoreList 0 2)) (twoWorkers ++ twoWakeups) = some t ∧
    Arrears twoWakeups s t 1 ∧ twoWakeups.count (.worker 1 .callbackEnd) ≤
      twoWakeups.count (.worker 0 .callbackEnd) + 1 := by
  obtain ⟨s, hs⟩ := Exec.guarded_of_isSome step RoundCaller
    (init (CoreTable.buildCoreList 0 2)) twoWorkers (by decide)
  obtain ⟨t, ht⟩ := Exec.guarded_of_isSome step RoundCaller
    (init (CoreTable.buildCoreList 0 2)) (twoWorkers ++ twoWakeups) (by decide)
  have hlen : s.workers.length = 2 := by
    obtain rfl := Option.some.inj hs.run
    rfl
  obtain ⟨harrears, hapart, -⟩ := workers_in_lockstep hs ht (i := 1) (by omega)
  exact ⟨s, t, hs.run, ht.run, harrears, hapart (by decide) 0 (by omega)⟩

end Twine.Pool
