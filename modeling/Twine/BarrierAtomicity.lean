import Twine.BarrierStatements

/-!
# The steps of the pool as sections

The converse of the refinement. A step of the pool is a run of one thread's statements, from
the lock of the mutex to the unlock, or in the posting loop, with no other thread in between.
So what the pool does the statements do, and what can go wrong there can go wrong here.
-/
namespace Twine.BarrierStatements

open Pool (Ctrl Waiter WorkerAct)

abbrev Reaches : State → List Pool.Label → State → Prop := Exec.Reaches step Label.shown

/-- Where no section has begun: in the posting loop the controlling thread has the mutex, and
at all other points of the pool nobody. -/
def between (p : Pool.State) : State :=
  ⟨p, if p.ctrl.holdsMutex then some (.ctrl .posting) else none⟩

section Sections

variable {s t u : State} {p q : Pool.State} {obs : List Pool.Label}

theorem step_reaches {l : Label} (h : step s l = some t) : Reaches s l.shown.toList t :=
  Exec.Reaches.single h

theorem lock_reaches {next : Calling} (hfirst : firstStatement p.ctrl = some next)
    (h : Reaches ⟨p, some (.ctrl next)⟩ obs u) : Reaches ⟨p, none⟩ obs u :=
  .silent (l := .lock) (t := ⟨p, some (.ctrl next)⟩) (by simp [step, hfirst]) rfl h

theorem statement_reaches {next : Calling}
    (hstep : callStatement ⟨p, some (.ctrl next)⟩ next = some t) (h : Reaches t obs u) :
    Reaches ⟨p, some (.ctrl next)⟩ obs u :=
  .silent (l := .statement) hstep rfl h

theorem between_free (h : p.ctrl.holdsMutex = false) : between p = ⟨p, none⟩ := by
  simp [between, h]

theorem between_posting {k : Pool.Releaser} {sem : Fin 2} {i : Nat}
    (h : p.ctrl = .posting k sem i) : between p = ⟨p, some (.ctrl .posting)⟩ := by
  simp [between, h, Ctrl.holdsMutex]

theorem abs_between (p : Pool.State) : (between p).abs = p := by
  cases hm : p.ctrl.holdsMutex <;> simp [between, hm, State.abs]

/-- The end of every section. -/
theorem unlock_reaches {next : Holder} (hnext : next = .ctrl .unlocking ∨
    ∃ i, next = .worker i .unlocking) (h : p.ctrl.holdsMutex = false) :
    Reaches ⟨p, some next⟩ [] (between p) := by
  rw [between_free h]
  obtain rfl | ⟨i, rfl⟩ := hnext
  · exact .silent (l := .statement) rfl rfl (.refl _)
  · exact .silent (l := .statement) rfl rfl (.refl _)

/-! ## The sections of the workers -/

theorem register_reaches {i : Nat} {w : Pool.WorkerThread} (hw : p.workers[i]? = some w)
    (hpc : w.pc = .entering) (hm : p.ctrl.holdsMutex = false) :
    Reaches (between p) [] (between (p.register i w)) := by
  rw [between_free hm]
  refine .silent (l := .lockWorker i) (t := ⟨p, some (.worker i .reading)⟩) (by simp [step, hw, hpc])
    rfl ?_
  refine .silent (l := .statement) rfl rfl ?_
  let counted : Pool.State := { p with
    barrier := p.barrier.enter
    workers := p.workers.set i { w with pc := .parked p.barrier.activeSemIdx } }
  by_cases hfull : p.barrier.noThreadsCurrentlyOnBarrier + 1 ≥ p.barrier.noThreads
  · simp only [Pool.State.register, if_pos hfull]
    refine .silent (l := .statement) (t := ⟨counted, some (.worker i .signalling)⟩)
      (by simp [step, waitStatement, hw, hfull, counted]) rfl ?_
    refine .silent (l := .statement) rfl rfl (unlock_reaches (.inr ⟨i, rfl⟩) ?_)
    cases hc : p.ctrl <;> simp_all [counted, Ctrl.signalled, Ctrl.holdsMutex, Pool.State.setCtrl]
  · simp only [Pool.State.register, if_neg hfull]
    refine .silent (l := .statement) (t := ⟨counted, some (.worker i .unlocking)⟩)
      (by simp [step, waitStatement, hw, hfull, counted]) rfl ?_
    exact unlock_reaches (.inr ⟨i, rfl⟩) hm

theorem worker_reaches {i : Nat} {a : WorkerAct} (h : Pool.step p (.worker i a) = some q) :
    Reaches (between p) (shown (.worker i a)).toList (between q) := by
  by_cases ha : a = .register
  · subst ha
    obtain ⟨w, hw, ⟨-, hpc, hm, rfl⟩ | ⟨hr, -⟩ | ⟨hr, -⟩ | ⟨w', hl, -⟩⟩ := Pool.worker_cases h
    · exact register_reaches hw hpc hm
    · cases hr
    · cases hr
    · cases hl
  · have hctrl := (worker_keeps ha h).1
    refine step_reaches (l := .worker i a) ?_
    cases hm : p.ctrl.holdsMutex <;>
      simp [step, ha, State.holds, State.lift, between, h, hctrl, hm]

/-! ## The sections of the controlling thread -/

theorem store_reaches (hfirst : firstStatement p.ctrl = some .storing)
    (h : Pool.ctrlStep p = some q) (hm : p.ctrl.holdsMutex = false)
    (hm' : q.ctrl.holdsMutex = false) : Reaches (between p) [] (between q) := by
  rw [between_free hm]
  apply lock_reaches hfirst
  refine statement_reaches (t := ⟨q, some (.ctrl .unlocking)⟩) (by simp [callStatement, h]) ?_
  exact unlock_reaches (.inl rfl) hm'

/-- From the test of the loop on. -/
theorem test_reaches {k : Waiter} (hk : waiterOf p.ctrl = some k) :
    Reaches ⟨p, some (.ctrl (.testing p.barrier.noThreadsCurrentlyOnBarrier))⟩ []
      (between (p.setCtrl
        (if p.barrier.noThreadsCurrentlyOnBarrier < p.barrier.noThreads then .asleep k
          else k.next))) := by
  by_cases hlt : p.barrier.noThreadsCurrentlyOnBarrier < p.barrier.noThreads
  · rw [if_pos hlt, between_free rfl]
    exact statement_reaches (by simp [callStatement, hk, hlt]) (.refl _)
  · rw [if_neg hlt]
    refine statement_reaches (t := ⟨p.setCtrl k.next, some (.ctrl .unlocking)⟩)
      (by simp [callStatement, hk, hlt]) ?_
    exact unlock_reaches (.inl rfl) (Pool.Waiter.next_free k)

theorem waitForAll_reaches {k : Waiter} (hc : p.ctrl = .waitForAll k) :
    Reaches (between p) []
      (between (p.setCtrl
        (if p.barrier.noThreadsCurrentlyOnBarrier < p.barrier.noThreads then .asleep k
          else k.next))) := by
  rw [between_free (by simp [hc, Ctrl.holdsMutex])]
  have hfirst : firstStatement p.ctrl = some .loading := by simp [hc, firstStatement]
  apply lock_reaches hfirst
  refine statement_reaches rfl ?_
  by_cases heq : p.barrier.noThreadsCurrentlyOnBarrier = p.barrier.noThreads
  · rw [if_neg (by omega)]
    refine statement_reaches (t := ⟨p.setCtrl k.next, some (.ctrl .unlocking)⟩)
      (by simp [callStatement, hc, heq]) ?_
    exact unlock_reaches (.inl rfl) (Pool.Waiter.next_free k)
  · refine statement_reaches (by simp [callStatement, hc, heq]; rfl) ?_
    exact test_reaches (by simp [hc, waiterOf])

theorem woken_reaches {k : Waiter} (hc : p.ctrl = .woken k) :
    Reaches (between p) []
      (between (p.setCtrl
        (if p.barrier.noThreadsCurrentlyOnBarrier < p.barrier.noThreads then .asleep k
          else k.next))) := by
  rw [between_free (by simp [hc, Ctrl.holdsMutex])]
  have hfirst : firstStatement p.ctrl = some .reloading := by simp [hc, firstStatement]
  apply lock_reaches hfirst
  refine statement_reaches rfl ?_
  exact test_reaches (by simp [hc, waiterOf])

theorem posted_reaches {k : Pool.Releaser} {sem : Fin 2} {i : Nat} (hc : p.ctrl = .posting k sem i)
    (hi : ¬ i < p.barrier.noThreads) :
    Reaches (between p) [] (between (p.setCtrl (k.next p.barrier))) := by
  rw [between_posting hc]
  by_cases hk : k = .wakeupAndWait
  · subst hk
    refine statement_reaches (t := ⟨p, some (.ctrl .reloading)⟩)
      (by simp [callStatement, hc, hi]) ?_
    have htest := test_reaches (p := p) (k := .wakeupAndWait) (by simp [hc, waiterOf])
    exact statement_reaches rfl htest
  · refine statement_reaches (t := ⟨p.setCtrl (k.next p.barrier), some (.ctrl .unlocking)⟩)
      (by simp [callStatement, hc, hi, hk]) ?_
    apply unlock_reaches (.inl rfl)
    cases k <;> first | rfl | exact absurd rfl hk

theorem release_reaches {k : Pool.Releaser} (hc : p.ctrl = .releasing k) :
    Reaches (between p) [.release]
      (between { p with
        barrier := p.barrier.release
        ctrl := .posting k p.barrier.activeSemIdx 0 }) := by
  rw [between_free (by simp [hc, Ctrl.holdsMutex]), between_posting rfl]
  have hfirst : firstStatement p.ctrl = some .resetting := by simp [hc, firstStatement]
  apply lock_reaches hfirst
  have hreset := step_reaches (s := ⟨p, some (.ctrl .resetting)⟩) (l := .reset) rfl
  refine hreset.trans (statement_reaches rfl (statement_reaches ?_ (.refl _)))
  simp [callStatement, hc, Pool.Barrier.swapSemaphores, Pool.Barrier.release]

/-- Outside the barrier the statements are the steps. -/
theorem outside_reaches (hfirst : firstStatement p.ctrl = none) (hm : p.ctrl.holdsMutex = false)
    (h : Pool.step p .ctrl = some q) : Reaches (between p) [] (between q) := by
  rw [between_free hm, between_free (outside_ctrl hfirst hm h).holdsMutex]
  refine .silent (l := .ctrl) (t := ⟨q, none⟩) ?_ rfl (.refl _)
  simp [step, State.inSection, hfirst, State.lift, h]

theorem ctrl_reaches (h : Pool.ctrlStep p = some q) : Reaches (between p) [] (between q) := by
  cases Pool.ctrl_cases h with
  | raise hc | lower hc | retire hc =>
    exact store_reaches (by simp [hc, firstStatement]) h (by simp [hc, Ctrl.holdsMutex]) rfl
  | @sleep k hc hlt =>
    have hsleep : (if p.barrier.noThreadsCurrentlyOnBarrier < p.barrier.noThreads then
        Ctrl.asleep k else k.next) = .asleep k := if_pos hlt
    cases hc with
    | inl hc => exact hsleep ▸ waitForAll_reaches hc
    | inr hc => exact hsleep ▸ woken_reaches hc
  | @proceed k hc hge =>
    have hnext : (if p.barrier.noThreadsCurrentlyOnBarrier < p.barrier.noThreads then
        Ctrl.asleep k else k.next) = k.next := if_neg hge
    cases hc with
    | inl hc => exact hnext ▸ waitForAll_reaches hc
    | inr hc => exact hnext ▸ woken_reaches hc
  | post hc hi =>
    rw [between_posting hc, between_posting rfl]
    exact statement_reaches (by simp [callStatement, hc, hi]) (.refl _)
  | posted hc hi => exact posted_reaches hc hi
  | spawn hc | runFails hc | accept hc | refuse hc | stop hc | pop hc | storeRunning hc | join hc
  | joined hc =>
    exact outside_reaches (by simp [hc, firstStatement]) (by simp [hc, Ctrl.holdsMutex]) h

theorem pool_reaches {k : Pool.Label} (h : Pool.step p k = some q) :
    Reaches (between p) (shown k).toList (between q) := by
  cases k with
  | worker i a => exact worker_reaches h
  | ctrl => exact ctrl_reaches h
  | release =>
    obtain ⟨k, hc, rfl⟩ := Pool.release_releasing h
    exact release_reaches hc
  | spurious =>
    obtain ⟨k, hc, rfl⟩ := Pool.spurious_asleep h
    rw [between_free (by simp [hc, Ctrl.holdsMutex]), between_free rfl]
    exact .silent (l := .spurious) (by simp [step, State.inSection, State.lift, h]) rfl (.refl _)
  | call c =>
    obtain ⟨hc, -⟩ := Pool.call_idle h
    rw [between_free (by simp [hc, Ctrl.holdsMutex]), between_free (outside_call h).holdsMutex]
    exact step_reaches (l := .call c) (by simp [step, State.inSection, State.lift, h])
  | ret r =>
    obtain ⟨hc, -⟩ := Pool.ret_returning h
    rw [between_free (by simp [hc, Ctrl.holdsMutex]), between_free (outside_ret h).holdsMutex]
    exact step_reaches (l := .ret r) (by simp [step, State.inSection, State.lift, h])

theorem steps_reach (h : Exec.Reaches Pool.step shown p obs q) :
    Reaches (between p) obs (between q) := by
  have hsim : ∀ p s k q, s = between p → Pool.step p k = some q →
      ∃ t, Reaches s (shown k).toList t ∧ t = between q := by
    rintro p s k q rfl hstep
    exact ⟨between q, pool_reaches hstep, rfl⟩
  obtain ⟨t, ht, rfl⟩ := h.simulates hsim rfl
  exact ht

end Sections

/-- The states that the statements stand for are those of the pool whose sections are steps,
and they are reached by runs with the same calls, returns, releases and steps of the workers. -/
theorem sections_atomic (cores : List CoreTable.CpuInfo) (p : Pool.State) (obs : List Pool.Label) :
    (∃ s, Exec.Reaches step Label.shown (init cores) obs s ∧ s.abs = p) ↔
      Exec.Reaches Pool.step shown (Pool.init cores) obs p := by
  constructor
  · rintro ⟨s, hs, rfl⟩
    exact statements_refine hs
  · intro h
    exact ⟨between p, steps_reach h, abs_between p⟩

end Twine.BarrierStatements
