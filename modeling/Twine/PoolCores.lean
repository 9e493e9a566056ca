import Twine.PoolBooks

/-!
# Whether `add_worker` has a core to select

The core table is built once and keeps its length. It is empty exactly when the
pool was made for no cores, whatever the file of the isolated cpus says. The
search for a requested cpu is compared with the end of the table, the least used
core is not.
-/
namespace Twine.Pool

open CoreTable (CpuInfo)
open Exec (Throughout Steps)
open Placement

/-- A call of `add_worker` rejects its arguments or selects a core of the table, and the
`core_info` whose count is raised refers to a core. -/
structure Selected (tr : List Label) (s : State) : Prop where
  called : ∀ pre a, tr = pre ++ [.call (.addWorker a)] →
    s.ctrl = .returning (.addWorker (.invalidArguments, .empty)) ∨
      ∃ core, s.ctrl = .raising a core ∧ core < s.cores.length
  update : ∀ a core, s.ctrl = .starting a core → core < s.cores.length

/-! ## The two builders -/

theorem buildCoreList_nil {cores : Int} : CoreTable.buildCoreList 0 cores = [] ↔ cores ≤ 0 := by
  rw [CoreTable.buildCoreList, List.map_eq_nil_iff, ← List.length_eq_zero_iff,
    CoreTable.length_intRange]
  omega

theorem getIsolatedCpus_nil {file : Option (List Char)} {cores : Int} {table : List CpuInfo}
    (h : CoreTable.getIsolatedCpus file cores = .ok (some table)) : table = [] ↔ cores ≤ 0 := by
  cases file with
  | none => cases h
  | some text =>
    simp only [CoreTable.getIsolatedCpus] at h
    split at h
    · cases h
    · split at h
      · cases h
        rw [List.map_eq_nil_iff, ← List.length_eq_zero_iff, List.length_take]
        omega
      · cases h

/-- The fallback is for a file without isolated cpus, not for an empty list of them. -/
theorem poolCores_nil {build : CoreTable.Build} {cores : Int} {table : List CpuInfo}
    (h : CoreTable.poolCores build cores = .ok table) : table = [] ↔ cores ≤ 0 := by
  cases build with
  | plain =>
    cases h
    exact buildCoreList_nil
  | evl file =>
    simp only [CoreTable.poolCores] at h
    split at h
    · cases h
    · rename_i t ht
      cases h
      cases t with
      | none => exact buildCoreList_nil
      | some t => exact getIsolatedCpus_nil ht

/-! ## Selection -/

theorem coreInfo_nil {id : Int} : coreInfo [] (some id) = none := rfl

/-- The table is not empty, or the call asks for a core. -/
theorem selects {cores : List CpuInfo} {a : AddWorker} (h : cores = [] → a.cpuId ≠ none) :
    (Call.addWorker a).enter cores = .returning (.addWorker (.invalidArguments, .empty)) ∨
      ∃ core, (Call.addWorker a).enter cores = .raising a core ∧ core < cores.length := by
  simp only [Call.enter]
  cases hcore : coreInfo cores a.cpuId with
  | none => exact .inl rfl
  | some core =>
    refine .inr ⟨core, rfl, coreInfo_lt hcore ?_⟩
    rintro rfl
    obtain ⟨id, hid⟩ := Option.ne_none_iff_exists'.mp (h rfl)
    rw [hid, coreInfo_nil] at hcore
    cases hcore

/-- The selection from an empty table gives its end. -/
theorem selects_end {a : AddWorker} (ha : a.cpuId = none) :
    (Call.addWorker a).enter [] = .raising a 0 := by
  simp [Call.enter, ha, coreInfo, minElement]

/-! ## The core of a call -/

/-- The `core_info` of an `add_worker` before the update. -/
def Ctrl.selection : Ctrl → Option Nat
  | .raising _ core | .starting _ core => some core
  | _ => none

theorem signalled_selection (c : Ctrl) : c.signalled.selection = c.selection := by cases c <;> rfl

theorem Waiter.next_selection (k : Waiter) : k.next.selection = none := by cases k <;> rfl

theorem Releaser.next_selection (b : Barrier) (k : Releaser) : (k.next b).selection = none := by
  cases k with
  | wakeupAndWait =>
    simp only [Releaser.next]
    split <;> rfl
  | _ => rfl

/-- A step of the controller keeps the length of the table, and the selection until the update. -/
theorem ctrlStep_selection {s t : State} (hstep : ctrlStep s = some t) :
    t.cores.length = s.cores.length ∧
      (t.ctrl.selection = none ∨ t.ctrl.selection = s.ctrl.selection) := by
  cases ctrl_cases hstep with
  | raise hc => exact ⟨rfl, .inr (by rw [hc]; rfl)⟩
  | spawn | runFails | retire => exact ⟨by simp, .inl rfl⟩
  | @proceed k => exact ⟨rfl, .inl k.next_selection⟩
  | @posted k => exact ⟨rfl, .inl (k.next_selection _)⟩
  | _ => exact ⟨rfl, .inl rfl⟩

/-- Only a call of `add_worker` makes a selection. -/
theorem step_selection {s t : State} {l : Label} (hl : ∀ a, l ≠ .call (.addWorker a))
    (hstep : step s l = some t) : t.cores.length = s.cores.length ∧
      (t.ctrl.selection = none ∨ t.ctrl.selection = s.ctrl.selection) := by
  cases l with
  | call c =>
    obtain ⟨-, rfl⟩ := call_idle hstep
    cases c with
    | addWorker a => exact absurd rfl (hl a)
    | _ => exact ⟨rfl, .inl rfl⟩
  | ret r =>
    obtain ⟨-, rfl⟩ := ret_returning hstep
    exact ⟨rfl, .inl rfl⟩
  | release =>
    obtain ⟨k, -, rfl⟩ := release_releasing hstep
    exact ⟨rfl, .inl rfl⟩
  | ctrl => exact ctrlStep_selection hstep
  | spurious =>
    obtain ⟨k, -, rfl⟩ := spurious_asleep hstep
    exact ⟨rfl, .inl rfl⟩
  | worker i x =>
    obtain ⟨hb, hc⟩ := worker_books hstep
    have hcores : t.cores = s.cores := congrArg Books.cores hb
    refine ⟨by rw [hcores], .inr ?_⟩
    rcases hc with hc | hc
    · rw [hc]
    · rw [hc, signalled_selection]

/-- Every selection refers to a core of a table that is as long as the first one. -/
structure Selecting (table : List CpuInfo) (tr : List Label) (s : State) : Prop where
  length : s.cores.length = table.length
  selection : ∀ core, s.ctrl.selection = some core → core < s.cores.length
  called : ∀ pre a, tr = pre ++ [.call (.addWorker a)] →
    s.ctrl = .returning (.addWorker (.invalidArguments, .empty)) ∨
      ∃ core, s.ctrl = .raising a core ∧ core < s.cores.length

section Selecting

variable {table : List CpuInfo} {tr : List Label} {s t : State} {l : Label}

theorem Selecting.selected (h : Selecting table tr s) : Selected tr s where
  called := h.called
  update := fun a core hc => h.selection core (by rw [hc]; rfl)

theorem Selecting.step (h : Selecting table tr s)
    (hl : ∀ a, l = .call (.addWorker a) → table = [] → a.cpuId ≠ none)
    (hstep : step s l = some t) : Selecting table (tr ++ [l]) t := by
  by_cases hcall : ∃ a, l = .call (.addWorker a)
  · obtain ⟨a, rfl⟩ := hcall
    obtain ⟨-, rfl⟩ := call_idle hstep
    have hselects := @selects s.cores a fun hnil =>
      hl a rfl (List.length_eq_zero_iff.mp (by rw [← h.length, hnil, List.length_nil]))
    refine ⟨h.length, ?_, ?_⟩
    · intro core hcore
      rcases hselects with hr | ⟨core', hr, hlt⟩
      · simp [State.setCtrl, hr, Ctrl.selection] at hcore
      · simp only [State.setCtrl, hr, Ctrl.selection, Option.some.injEq] at hcore
        exact hcore ▸ hlt
    · intro pre a' he
      obtain ⟨-, he⟩ := List.append_inj' he rfl
      cases he
      exact hselects
  · push Not at hcall
    obtain ⟨hlen, hsel⟩ := step_selection hcall hstep
    refine ⟨hlen.trans h.length, ?_, ?_⟩
    · intro core hcore
      rw [hlen]
      rcases hsel with hsel | hsel
      · rw [hsel] at hcore
        cases hcore
      · exact h.selection core (hsel ▸ hcore)
    · intro pre a he
      obtain ⟨-, he⟩ := List.append_inj' he rfl
      cases he
      exact absurd rfl (hcall a)

end Selecting

/-- In every run every call of `add_worker` selects a core or rejects its arguments if and only
if, where the pool was made for no cores, no call leaves the core to the pool. -/
theorem selected_iff {build : CoreTable.Build} {cores : Int} {table : List CpuInfo}
    (htable : CoreTable.poolCores build cores = .ok table) (tr : List Label) :
    Throughout step (init table) Selected tr ↔
      Steps step (init table)
        (fun _ l => ¬ ∃ a, l = .call (.addWorker a) ∧ a.cpuId = none ∧ cores ≤ 0) tr := by
  refine Exec.throughout_iff (I := Selecting table) (O := fun _ _ => True) ?_ ?_
    (fun _ _ hi => hi.selected) ?_ Exec.steps_true
  · refine ⟨rfl, fun core hcore => ?_, fun pre a he => ?_⟩
    · cases hcore
    · simp at he
  · intro tr s l t hi _ hl hstep
    refine hi.step (fun a ha hnil hnone => hl ⟨a, ha, hnone, ?_⟩) hstep
    exact (poolCores_nil htable).mp hnil
  · rintro tr s l t hi - ⟨a, rfl, hnone, hcores⟩ hstep hsel
    obtain ⟨-, rfl⟩ := call_idle hstep
    have hnil : s.cores = [] := by
      rw [← List.length_eq_zero_iff, hi.length, (poolCores_nil htable).mpr hcores, List.length_nil]
    have hend : (s.setCtrl ((Call.addWorker a).enter s.cores)).ctrl = .raising a 0 := by
      rw [hnil]
      exact selects_end hnone
    rcases hsel.called tr a rfl with hr | ⟨core, hr, hlt⟩
    · cases hend.symm.trans hr
    · simp [State.setCtrl, hnil] at hlt

/-- A pool for two cores. -/
theorem selected_iff_two :
    Throughout step (init (CoreTable.buildCoreList 0 2)) Selected
        (addWorkerRun ⟨0, 75, none, 0, 0, .ok⟩ 0) ↔
      Steps step (init (CoreTable.buildCoreList 0 2))
        (fun _ l => ¬ ∃ a, l = .call (.addWorker a) ∧ a.cpuId = none ∧ (2 : Int) ≤ 0)
        (addWorkerRun ⟨0, 75, none, 0, 0, .ok⟩ 0) :=
  @selected_iff .plain 2 _ rfl _

/-- `add_worker` on a pool for no cores takes the end of the table for a core. -/
theorem no_cores_selects_end :
    CoreTable.poolCores .plain 0 = .ok [] ∧
      ¬ Throughout step (init []) Selected [.call (.addWorker ⟨0, 75, none, 0, 0, .ok⟩), .ctrl] := by
  refine ⟨rfl, fun h => ?_⟩
  have hsel := h [.call (.addWorker ⟨0, 75, none, 0, 0, .ok⟩), .ctrl] [] _ rfl rfl
  exact absurd (hsel.update ⟨0, 75, none, 0, 0, .ok⟩ 0 rfl) (by decide)

end Twine.Pool
