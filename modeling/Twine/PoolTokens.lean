import Twine.PoolRounds

/-!
# A worker passes the barrier only on a token

`wait` ignores what `semaphore_wait` returns. As long as it never returns an
error, every worker that leaves the barrier has taken a token of a release that
came after its registration; an interrupted `semaphore_wait` lets it through
without one.
-/
namespace Twine.Pool

open Placement

/-- A parked worker stays parked until its own next step. -/
theorem parked_stays {s t : State} {l : Label} {i : Nat} {w : WorkerThread} {sem : Fin 2}
    (hw : s.workers[i]? = some w) (hpc : w.pc = .parked sem) (hl : ∀ a, l ≠ .worker i a)
    (hstep : step s l = some t) : ∃ w', t.workers[i]? = some w' ∧ w'.pc = .parked sem := by
  cases l with
  | call c => exact ⟨w, by rw [(call_idle hstep).2]; exact hw, hpc⟩
  | ret r => exact ⟨w, by rw [(ret_returning hstep).2]; exact hw, hpc⟩
  | release =>
    obtain ⟨k, -, rfl⟩ := release_releasing hstep
    exact ⟨w, hw, hpc⟩
  | spurious =>
    obtain ⟨k, -, rfl⟩ := spurious_asleep hstep
    exact ⟨w, hw, hpc⟩
  | worker j a =>
    have hj : j ≠ i := by
      rintro rfl
      exact hl a rfl
    obtain ⟨v, -, ⟨-, -, -, rfl⟩ | ⟨-, q, -, -, rfl⟩ | ⟨-, q, -, rfl⟩ | ⟨v', -, rfl⟩⟩ :=
      worker_cases hstep
    all_goals exact ⟨w, by simpa [State.register, State.setWorker, List.getElem?_set_ne hj] using hw, hpc⟩
  | ctrl =>
    change ctrlStep s = some t at hstep
    have hi := (List.getElem?_eq_some_iff.mp hw).1
    cases ctrl_cases hstep with
    | spawn => exact ⟨w, by simpa [List.getElem?_append_left hi] using hw, hpc⟩
    | stop _ hv =>
      rw [List.getLast?_eq_getElem?] at hv
      by_cases hlast : s.workers.length - 1 = i
      · subst hlast
        cases hw.symm.trans hv
        exact ⟨{ w with threadRunning := false }, by simp [State.setCtrl, State.setWorker, hi], hpc⟩
      · exact ⟨w, by simpa [State.setCtrl, State.setWorker, List.getElem?_set_ne hlast] using hw, hpc⟩
    | pop _ hv hexit =>
      rw [List.getLast?_eq_getElem?] at hv
      have hlast : i ≠ s.workers.length - 1 := by
        rintro rfl
        cases hw.symm.trans hv
        simp [hpc] at hexit
      refine ⟨w, ?_, hpc⟩
      rw [List.getElem?_dropLast, if_pos (by omega), hw]
    | _ => exact ⟨w, hw, hpc⟩

/-- Only a release swaps the semaphores. -/
theorem active_stays {s t : State} {l : Label} (hl : l ≠ .release) (hstep : step s l = some t) :
    t.barrier.activeSemIdx = s.barrier.activeSemIdx := by
  cases l with
  | call c => rw [(call_idle hstep).2]; rfl
  | ret r => rw [(ret_returning hstep).2]; rfl
  | release => exact absurd rfl hl
  | spurious => obtain ⟨k, -, rfl⟩ := spurious_asleep hstep; rfl
  | worker j a =>
    obtain ⟨v, -, ⟨-, -, -, rfl⟩ | ⟨-, q, -, -, rfl⟩ | ⟨-, q, -, rfl⟩ | ⟨v', -, rfl⟩⟩ :=
      worker_cases hstep
    all_goals rfl
  | ctrl =>
    change ctrlStep s = some t at hstep
    cases ctrl_cases hstep <;> rfl

theorem Inv.count_le_noThreads {s : State} (h : Inv s) :
    s.barrier.noThreadsCurrentlyOnBarrier ≤ s.barrier.noThreads := by
  have hle := h.count_le
  have hsize := h.size
  have hat := h.ctrlAt
  cases hc : s.ctrl <;> simp only [hc, Ctrl.popped, Ctrl.raised, Ctrl.At] at hsize hat
  case popping status =>
    -- the worker that is still in the list is the one that left
    obtain ⟨hpos, hlast⟩ := hat
    obtain ⟨w, hw⟩ := List.getLast?_isSome.mpr (List.ne_nil_of_length_pos hpos) |>
      Option.isSome_iff_exists.mp
    have := parkedOn_lt (List.mem_of_getLast? hw) (hlast w hw)
    rw [← h.registered] at this
    omega
  all_goals omega

/-- Both semaphores are empty when a round is released. -/
theorem Inv.drained {s t : State} (h : Inv s) (hstep : step s .release = some t) (sem : Fin 2) :
    s.barrier.semaphores sem = 0 := by
  obtain ⟨k, hc, -⟩ := release_releasing hstep
  have hat := h.ctrlAt
  have hsize := h.size
  have htok := h.tokens
  simp only [hc, Ctrl.At, Ctrl.popped, Ctrl.raised, Ctrl.unposted, Nat.add_zero] at hat hsize htok
  by_cases hsem : sem = s.barrier.activeSemIdx
  · rw [hsem]
    exact h.activeEmpty
  · have hall := h.all_parked hat.1 hsize
    have hnone : parkedOn s.workers (1 - s.barrier.activeSemIdx) = 0 :=
      parkedOn_eq_zero.mpr fun w hw => by simp [hall w hw]
    rw [eq_other_of_ne hsem]
    omega

/-- What the barrier promises along a run. -/
structure OnTokens (cores : List CoreTable.CpuInfo) (tr : List Label) : Prop where
  /-- Whoever leaves `semaphore_wait` takes a token from the semaphore. -/
  takes : ∀ (pre : List Label) (l : Label) (post : List Label) (m m' : State) (i : Nat)
    (w w' : WorkerThread) (sem : Fin 2), tr = pre ++ l :: post → run (init cores) pre = some m →
    step m l = some m' → m.workers[i]? = some w → w.pc = .parked sem →
    m'.workers[i]? = some w' → w'.pc ≠ .parked sem →
    m'.barrier.semaphores sem + 1 = m.barrier.semaphores sem
  /-- The semaphore on which a worker registers holds no token. -/
  fresh : ∀ pre i post m, tr = pre ++ .worker i .register :: post →
    run (init cores) pre = some m → m.barrier.semaphores m.barrier.activeSemIdx = 0
  /-- Between its registration and its next step there is a release. -/
  released : ∀ pre i mid a post, tr = pre ++ .worker i .register :: (mid ++ .worker i a :: post) →
    (∀ a, .worker i a ∉ mid) → .release ∈ mid
  /-- No callback runs while no round is open. -/
  rounds : ∀ pre i a post, tr = pre ++ .worker i a :: post →
    a = .callbackStart ∨ a = .callbackEnd → waited pre = false
  count : ∀ pre post m, tr = pre ++ post → run (init cores) pre = some m →
    m.barrier.noThreadsCurrentlyOnBarrier ≤ m.barrier.noThreads
  /-- No token is left for a later round. -/
  drained : ∀ pre post m, tr = pre ++ .release :: post → run (init cores) pre = some m →
    ∀ sem, m.barrier.semaphores sem = 0

section Tokens

variable {cores : List CoreTable.CpuInfo} {tr pre mid post : List Label} {s m m' : State}

/-- Without an error from `semaphore_wait`, leaving it takes a token. -/
theorem step_takes {l : Label} (hl : l.interrupts = false) (hstep : step m l = some m') {i : Nat}
    {w w' : WorkerThread} {sem : Fin 2} (hw : m.workers[i]? = some w) (hpc : w.pc = .parked sem)
    (hw' : m'.workers[i]? = some w') (hpc' : w'.pc ≠ .parked sem) :
    m'.barrier.semaphores sem + 1 = m.barrier.semaphores sem := by
  by_cases hwi : ∃ a, l = .worker i a
  · obtain ⟨a, rfl⟩ := hwi
    obtain ⟨v, hv, ⟨-, hv', -, -⟩ | ⟨-, q, hq, htoken, rfl⟩ | ⟨rfl, -⟩ | ⟨v', hloc, -⟩⟩ :=
      worker_cases hstep
    all_goals obtain rfl : w = v := Option.some.inj (hw.symm.trans hv)
    · simp [hpc] at hv'
    · obtain rfl : sem = q := by simpa [hpc] using hq
      simp only [Barrier.take, Function.update_self]
      omega
    · simp [Label.interrupts] at hl
    · exact absurd hpc ((localStep_spec hloc).2.1 sem)
  · push Not at hwi
    obtain ⟨v, hv, hpark⟩ := parked_stays hw hpc hwi hstep
    obtain rfl : w' = v := Option.some.inj (hw'.symm.trans hv)
    exact absurd hpark hpc'

/-- A registered worker is parked on the active semaphore until a release. -/
theorem registered_until_release {i : Nat}
    (hs : Exec.Guarded step Uninterrupted (init cores) (pre ++ [.worker i .register]) s)
    (h : Exec.Guarded step Uninterrupted (init cores) ((pre ++ [.worker i .register]) ++ mid) m)
    (hmid : ∀ a, .worker i a ∉ mid) :
    .release ∈ mid ∨ ∃ w, m.workers[i]? = some w ∧ w.pc = .parked m.barrier.activeSemIdx := by
  refine Exec.Guarded.segment (J := fun mid u => (∀ a, .worker i a ∉ mid) → .release ∈ mid ∨
    ∃ w, u.workers[i]? = some w ∧ w.pc = .parked u.barrier.activeSemIdx) hs ?_ ?_ h hmid
  · intro _
    obtain ⟨u, -, -, hstep⟩ := hs.snoc
    obtain ⟨w, hw, ⟨-, -, -, rfl⟩ | ⟨h, -⟩ | ⟨h, -⟩ | ⟨w', hl, -⟩⟩ := worker_cases hstep
    · have hi := (List.getElem?_eq_some_iff.mp hw).1
      exact .inr ⟨{ w with pc := .parked u.barrier.activeSemIdx },
        by simp [State.register, hi], rfl⟩
    · cases h
    · cases h
    · simp [WorkerThread.localStep] at hl
  · intro mid u l t hu hJ hg hstep hmem
    by_cases hrel : l = .release
    · exact .inl (by simp [hrel])
    · rcases hJ fun a ha => hmem a (by simp [ha]) with hr | ⟨w, hw, hpc⟩
      · exact .inl (by simp [hr])
      · have hl : ∀ a, l ≠ .worker i a := by
          rintro a rfl
          exact hmem a (by simp)
        rw [active_stays hrel hstep]
        exact .inr (parked_stays hw hpc hl hstep)

theorem released_between {i : Nat} {a : WorkerAct}
    (h : Exec.Guarded step Uninterrupted (init cores)
      (pre ++ .worker i .register :: (mid ++ .worker i a :: post)) s)
    (hmid : ∀ a, .worker i a ∉ mid) : .release ∈ mid := by
  obtain ⟨m, m', -, -, -, hreg, -⟩ := h.cut
  rw [show pre ++ .worker i .register :: (mid ++ .worker i a :: post) =
    ((pre ++ [.worker i .register]) ++ mid) ++ .worker i a :: post by simp] at h
  obtain ⟨u, v, hu, hg, hstep, -, -⟩ := h.cut
  rcases registered_until_release hreg hu hmid with hrel | ⟨w, hw, hpc⟩
  · exact hrel
  · -- it could not have left the empty active semaphore
    obtain ⟨w', hw', ⟨-, hpc', -⟩ | ⟨-, sem, hpc', htoken, -⟩ | ⟨rfl, -⟩ | ⟨v', hl, -⟩⟩ :=
      worker_cases hstep
    all_goals obtain rfl : w = w' := Option.some.inj (hw.symm.trans hw')
    · simp [hpc] at hpc'
    · obtain rfl : u.barrier.activeSemIdx = sem := by simpa [hpc] using hpc'
      exact absurd (guarded_inv hu).activeEmpty htoken
    · simp [Uninterrupted, Label.interrupts] at hg
    · exact absurd hpc ((localStep_spec hl).2.1 _)

/-- Under a controller that waits for each round before the next wakeup, the barrier keeps
its promise along a run if and only if no `semaphore_wait` returned an error. -/
theorem on_tokens_iff (h : Exec.Guarded step Disciplined (init cores) tr s) :
    OnTokens cores tr ↔ ∀ i, .worker i .interrupted ∉ tr := by
  constructor
  · intro hon i hmem
    obtain ⟨pre, post, rfl⟩ := List.append_of_mem hmem
    obtain ⟨m, m', hm, -, hstep, -, -⟩ := h.cut
    obtain ⟨w, hw, ⟨hx, -⟩ | ⟨hx, -⟩ | ⟨-, sem, hpc, rfl⟩ | ⟨w', hl, -⟩⟩ := worker_cases hstep
    · cases hx
    · cases hx
    · have hi := (List.getElem?_eq_some_iff.mp hw).1
      have htaken := hon.takes pre _ post m _ i w { w with pc := .woken } sem rfl hm.run hstep hw hpc
        (by simp [State.setWorker, hi]) (by simp)
      simp [State.setWorker] at htaken
    · simp [WorkerThread.localStep] at hl
  · intro hno
    have hint : ∀ l ∈ tr, l.interrupts = false := by
      rintro l hl
      cases l with
      | worker i a =>
        cases a with
        | interrupted => exact absurd hl (hno i)
        | _ => rfl
      | _ => rfl
    have hun : Exec.Guarded step Uninterrupted (init cores) tr s := by
      refine Exec.guarded_of_run h.run fun pre l post m he hm => ⟨hint l (by simp [he]), ?_⟩
      subst he
      obtain ⟨m', -, hm', hg, -⟩ := h.cut
      exact hg
    constructor
    case takes =>
      rintro pre l post m m' i w w' sem rfl hm hstep hw hpc hw' hpc'
      exact step_takes (hint l (by simp)) hstep hw hpc hw' hpc'
    case fresh =>
      rintro pre i post m rfl hm
      exact (guarded_inv (hun.prefix_unique hm)).activeEmpty
    case released =>
      rintro pre i mid a post rfl hmid
      exact released_between hun hmid
    case rounds =>
      rintro pre i a post rfl ha
      obtain ⟨m, m', hm, -, hstep, -, -⟩ := hun.cut
      exact callback_in_round hm hstep ha
    case count =>
      rintro pre post m rfl hm
      exact (guarded_inv (hun.prefix_unique hm)).count_le_noThreads
    case drained =>
      rintro pre post m rfl hm sem
      obtain ⟨m', m'', hm', -, hstep, -, -⟩ := hun.cut
      obtain rfl : m = m' := Option.some.inj (hm.symm.trans hm'.run)
      exact (guarded_inv hm').drained hstep sem

end Tokens

/-- The only worker is interrupted in its first wait, and runs its callback. -/
def interruptedRun : List Label :=
  addWorkerRun ⟨0, 75, none, 0, 0, .ok⟩ 0 ++ [.worker 0 .interrupted, .worker 0 .loadPoolRunning,
    .worker 0 .loadThreadRunning, .worker 0 .callbackStart]

theorem on_tokens_iff_interrupted : OnTokens (CoreTable.buildCoreList 0 1) interruptedRun ↔
    ∀ i, .worker i .interrupted ∉ interruptedRun := by
  obtain ⟨s, hs⟩ := Exec.guarded_of_isSome step Disciplined
    (init (CoreTable.buildCoreList 0 1)) interruptedRun (by decide)
  exact on_tokens_iff hs

/-- A callback that no wakeup asked for. -/
theorem interrupted_wait_runs_callback :
    ¬ OnTokens (CoreTable.buildCoreList 0 1) interruptedRun := by
  intro h
  have hround := h.rounds (addWorkerRun ⟨0, 75, none, 0, 0, .ok⟩ 0 ++ [.worker 0 .interrupted,
    .worker 0 .loadPoolRunning, .worker 0 .loadThreadRunning]) 0 .callbackStart [] rfl (.inl rfl)
  exact absurd hround (by decide)

end Twine.Pool
