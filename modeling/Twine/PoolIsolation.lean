import Twine.PoolLedger
import Twine.RangeParser

/-!
# From the file of the isolated cpus to the threads

The constructor of an EVL pool reads the first line of a file and makes its core table from
it, and every thread is pinned to the id of an entry. What the line says is what the pool
keeps to for all its life.
-/
namespace Twine.Pool

open CoreTable (Build CpuInfo INT_MAX buildCoreList getIsolatedCpus getline intRange poolCores
  rangeLoop)
open Placement
open RangeParser (Bounds)

/-- The cpus that a pool for `cores` cores may use. A line that states a range which is not
empty gives its first ones; with any other line, or no file, they count from zero. -/
def Usable (build : Build) (cores id : Int) : Prop :=
  match build with
  | .evl (some file) =>
    (∃ first last, Bounds (getline file) first last ∧ first ≤ id ∧ id ≤ last ∧ id < first + cores) ∨
      (∀ first last, Bounds (getline file) first last → last < first) ∧ 0 ≤ id ∧ id < cores
  | .plain | .evl none => 0 ≤ id ∧ id < cores

/-! ## The table -/

theorem mem_buildCoreList {cores id : Int} :
    id ∈ (buildCoreList 0 cores).map CpuInfo.id ↔ 0 ≤ id ∧ id < cores := by
  have hids : (buildCoreList 0 cores).map CpuInfo.id = intRange 0 (cores + 0 - 1) := by
    simp [buildCoreList, Function.comp_def]
  rw [hids, RangeParser.mem_intRange]
  omega

/-- The first `n` numbers of a range. -/
theorem mem_take_intRange {first last id : Int} {n : Nat} :
    id ∈ (intRange first last).take n ↔ first ≤ id ∧ id ≤ last ∧ id < first + n := by
  have htake : (intRange first last).take n =
      intRange first (first + (min n (last + 1 - first).toNat : Nat) - 1) := by
    have hlength : (first + (min n (last + 1 - first).toNat : Nat) - 1 + 1 - first).toNat =
        min n (last + 1 - first).toNat := by omega
    rw [intRange, intRange, ← List.map_take, List.take_range, hlength]
  rw [htake, RangeParser.mem_intRange]
  omega

theorem rangeLoop_bounds {str : List Char} {first last : Int} {list : List Int}
    (h : Bounds str first last) (hloop : rangeLoop first last [] = .ok list) :
    list = intRange first last := by
  obtain ⟨_, _, _, _, hfirst, hlast⟩ := h
  have hle := (RangeParser.stoi_bounds hlast).2
  by_cases hmax : last = INT_MAX
  · subst hmax
    rw [RangeParser.rangeLoop_overflows (RangeParser.stoi_bounds hfirst).2] at hloop
    cases hloop
  · have hlt : last < INT_MAX := by omega
    rw [CoreTable.rangeLoop_ok hlt] at hloop
    cases hloop
    rfl

theorem usable_range {file : List Char} {first last : Int} (h : Bounds (getline file) first last)
    (hle : first ≤ last) {cores id : Int} : Usable (.evl (some file)) cores id ↔
      first ≤ id ∧ id ≤ last ∧ id < first + cores := by
  constructor
  · rintro (⟨first', last', h', hid⟩ | ⟨hempty, -⟩)
    · obtain ⟨rfl, rfl⟩ := h.unique h'
      exact hid
    · exact absurd (hempty first last h) (Int.not_lt.mpr hle)
  · intro hid
    exact .inl ⟨first, last, h, hid⟩

theorem usable_otherwise {file : List Char}
    (h : ∀ first last, Bounds (getline file) first last → last < first) {cores id : Int} :
    Usable (.evl (some file)) cores id ↔ 0 ≤ id ∧ id < cores := by
  constructor
  · rintro (⟨first, last, hb, hid⟩ | ⟨-, hid⟩)
    · exact absurd (h first last hb) (by omega)
    · exact hid
  · exact fun hid => .inr ⟨h, hid⟩

/-- A line without a range, or with an empty one, gives no table. -/
theorem mem_isolated {file : List Char} {cores : Int} {table : Option (List CpuInfo)}
    (h : getIsolatedCpus (some file) cores = .ok table) (id : Int) :
    id ∈ (table.getD (buildCoreList 0 cores)).map CpuInfo.id ↔
      Usable (.evl (some file)) cores id := by
  simp only [getIsolatedCpus] at h
  split at h
  · cases h
  rename_i info hinfo
  by_cases hbounds : ∃ first last, Bounds (getline file) first last
  · obtain ⟨first, last, hb⟩ := hbounds
    rw [RangeParser.readIsolatedCores_bounds hb] at hinfo
    obtain rfl := rangeLoop_bounds hb hinfo
    rw [CoreTable.length_intRange] at h
    by_cases hle : first ≤ last
    · rw [if_pos (by omega)] at h
      cases h
      rw [usable_range hb hle]
      simp only [Option.getD_some, List.map_map, Function.comp_def, List.map_id', mem_take_intRange]
      omega
    · have hempty : ∀ first' last', Bounds (getline file) first' last' → last' < first' := by
        intro first' last' hb'
        obtain ⟨rfl, rfl⟩ := hb.unique hb'
        omega
      rw [if_neg (by omega)] at h
      cases h
      rw [usable_otherwise hempty, Option.getD_none, mem_buildCoreList]
  · have hnone : ∀ first last, Bounds (getline file) first last → last < first :=
      fun first last hb => absurd ⟨first, last, hb⟩ hbounds
    rw [RangeParser.readIsolatedCores_otherwise hbounds] at hinfo
    cases hinfo
    cases h
    rw [usable_otherwise hnone, Option.getD_none, mem_buildCoreList]

theorem mem_poolCores {build : Build} {cores : Int} {table : List CpuInfo}
    (h : poolCores build cores = .ok table) (id : Int) :
    id ∈ table.map CpuInfo.id ↔ Usable build cores id := by
  cases build with
  | plain =>
    cases h
    exact mem_buildCoreList
  | evl file =>
    simp only [poolCores] at h
    split at h
    · cases h
    · rename_i isolated hisolated
      cases h
      cases file with
      | none =>
        cases hisolated
        exact mem_buildCoreList
      | some file => exact mem_isolated hisolated id

/-! ## The runs -/

/-- The table has these ids, and every worker is pinned to one of them. -/
structure Books.On (ids : List Int) (b : Books) : Prop where
  cores : b.cores.map CpuInfo.id = ids
  workers : ∀ w ∈ b.workers, w.2 ∈ ids

section Runs

variable {ids : List Int} {s t : State} {l : Label}

/-- The same table up to its counts, and some of the workers. -/
theorem Books.On.less (h : s.books.On ids)
    (hcores : t.cores.map CpuInfo.id = s.cores.map CpuInfo.id)
    (hworkers : ∀ w ∈ t.books.workers, w ∈ s.books.workers) : t.books.On ids :=
  ⟨hcores.trans h.cores, fun w hw => h.workers w (hworkers w hw)⟩

theorem Books.On.ctrlStep (h : s.books.On ids) (hstep : ctrlStep s = some t) : t.books.On ids := by
  cases ctrl_cases hstep with
  | @spawn a core info hc hinfo =>
    refine ⟨(ids_incWorkers s.cores core).trans h.cores, fun w hw => ?_⟩
    simp only [State.books, List.map_append, List.mem_append, List.map_cons, List.map_nil,
      List.mem_singleton] at hw
    cases hw with
    | inl hw => exact h.workers w hw
    | inr hw =>
      subst hw
      rw [← h.cores]
      exact List.mem_map_of_mem (List.mem_of_getElem? hinfo)
  | runFails => exact h.less (ids_incWorkers s.cores _) fun w hw => hw
  | retire => exact h.less (ids_modify (f := CpuInfo.decWorkers) (fun _ => rfl) s.cores _) fun w hw => hw
  | @stop core status w hc hw =>
    rw [List.getLast?_eq_getElem?] at hw
    have hsame : (s.workers.set (s.workers.length - 1) { w with threadRunning := false }).map
        (fun w => (w.callback, w.cpuId)) = s.books.workers := books_setWorker hw rfl rfl
    exact h.less rfl fun v hv => hsame ▸ hv
  | pop =>
    refine h.less rfl fun v hv => ?_
    simp only [State.books, List.map_dropLast] at hv ⊢
    exact List.dropLast_subset _ hv
  | raise | lower | sleep | proceed | accept | refuse | post | posted | storeRunning | join
  | joined => exact h.less rfl fun w hw => hw

theorem Books.On.step (h : s.books.On ids) (hstep : step s l = some t) : t.books.On ids := by
  cases l with
  | call c =>
    obtain ⟨-, rfl⟩ := call_idle hstep
    exact h.less rfl fun w hw => hw
  | ret r =>
    obtain ⟨-, rfl⟩ := ret_returning hstep
    exact h.less rfl fun w hw => hw
  | release =>
    obtain ⟨k, -, rfl⟩ := release_releasing hstep
    exact h.less rfl fun w hw => hw
  | spurious =>
    obtain ⟨k, -, rfl⟩ := spurious_asleep hstep
    exact h.less rfl fun w hw => hw
  | ctrl => exact h.ctrlStep hstep
  | worker i a => exact (worker_books hstep).1 ▸ h

/-- The search for a requested cpu fails when no entry has its id. -/
theorem enter_rejects {a : AddWorker} {id : Int} (ha : a.cpuId = some id) :
    (Call.addWorker a).enter s.cores = .returning (.addWorker (.invalidArguments, .empty)) ↔
      id ∉ s.cores.map CpuInfo.id := by
  have hfound : (s.cores.findIdx fun i => i.id = id) = s.cores.length ↔
      id ∉ s.cores.map CpuInfo.id := by
    rw [List.findIdx_eq_length]
    simp
  rw [← hfound]
  simp only [Call.enter, coreInfo, ha]
  by_cases hend : (s.cores.findIdx fun i => i.id = id) = s.cores.length
  · simp [hend]
  · simp [hend]

end Runs

/-- In every run of a pool, made for any file: each thread is pinned to a usable cpu, and a
request for a cpu is rejected exactly when that one is not usable. -/
theorem pinned_to_usable {build : Build} {cores : Int} {table : List CpuInfo}
    (htable : poolCores build cores = .ok table) {tr : List Label} {s : State}
    (h : run (init table) tr = some s) :
    (∀ w ∈ s.workers, Usable build cores w.cpuId) ∧
      ∀ a id t, a.cpuId = some id → step s (.call (.addWorker a)) = some t →
        (t.ctrl = .returning (.addWorker (.invalidArguments, .empty)) ↔ ¬ Usable build cores id) := by
  have hon : s.books.On (table.map CpuInfo.id) :=
    Exec.run_invariant (P := fun _ => True) (I := fun s => s.books.On (table.map CpuInfo.id))
      (fun u l v hu _ hstep => hu.step hstep) ⟨rfl, by simp [State.books, init]⟩
      (fun _ _ => trivial) h
  constructor
  · intro w hw
    rw [← mem_poolCores htable]
    exact hon.workers (w.callback, w.cpuId) (List.mem_map_of_mem hw)
  · intro a id t ha hstep
    obtain ⟨-, rfl⟩ := call_idle hstep
    rw [← mem_poolCores htable, ← hon.cores]
    exact enter_rejects ha

/-- A worker that asks for cpu 3, with `2-3` in the file. -/
theorem pinned_to_usable_isolated : ∃ s w,
    run (init [⟨2, 0⟩, ⟨3, 0⟩]) (addWorkerRun ⟨0, 75, some 3, 0, 0, .ok⟩ 0) = some s ∧
      s.workers = [w] ∧ w.cpuId = 3 ∧ Usable (.evl (some "2-3\n".toList)) 4 w.cpuId := by
  have hbounds : Bounds (getline "2-3\n".toList) 2 3 :=
    ⟨['2'], ['3'], by decide, by decide, by decide, by decide⟩
  have hloop : rangeLoop 2 3 [] = .ok [2, 3] := CoreTable.rangeLoop_ok (by decide) 2 []
  have htable : poolCores (.evl (some "2-3\n".toList)) 4 = .ok [⟨2, 0⟩, ⟨3, 0⟩] := by
    simp only [poolCores, getIsolatedCpus, RangeParser.readIsolatedCores_bounds hbounds, hloop]
    rfl
  obtain ⟨s, hs⟩ := Option.isSome_iff_exists.mp
    (show (run (init [⟨2, 0⟩, ⟨3, 0⟩])
      (addWorkerRun ⟨0, 75, some 3, 0, 0, .ok⟩ 0)).isSome from by decide)
  have hworkers : ∃ w, s.workers = [w] ∧ w.cpuId = 3 := by
    obtain rfl := Option.some.inj hs
    exact ⟨_, rfl, rfl⟩
  obtain ⟨w, hw, hcpu⟩ := hworkers
  exact ⟨s, w, hs, hw, hcpu, (pinned_to_usable htable hs).1 w (by simp [hw])⟩

end Twine.Pool
