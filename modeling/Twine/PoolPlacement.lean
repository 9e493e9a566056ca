import Twine.LevelFilling
import Twine.PoolBooks

/-!
# Where the workers go that ask for no core

Without a `cpu_id` an `add_worker` takes the first core with the least workers,
and it is the count of that core that goes up. Over a run of such calls, all of
them successful, the counts fill level by level, from whatever they were.
-/
namespace Twine.Pool

open CoreTable (CpuInfo)
open Placement
open LevelFilling

/-- The worker count of the core at this position. -/
def counts (cores : List CpuInfo) (core : Nat) : Int := ((cores[core]?).map CpuInfo.workers).getD 0

/-! ## std::min_element -/

theorem minElementFrom_firstLeast {cores rest : List CpuInfo} {i smallest : Nat}
    (hrest : cores.drop i = rest) (hi : i ≤ cores.length)
    (h : FirstLeast (Finset.range i) (counts cores) smallest) :
    FirstLeast (Finset.range cores.length) (counts cores)
      (minElementFrom rest i smallest (counts cores smallest)) := by
  induction rest generalizing i smallest with
  | nil =>
    have hlen : i = cores.length := le_antisymm hi (List.drop_eq_nil_iff.mp hrest)
    exact hlen ▸ h
  | cons c rest ih =>
    have hlt : i < cores.length := by
      by_contra hge
      rw [List.drop_eq_nil_of_le (by omega)] at hrest
      cases hrest
    rw [List.drop_eq_getElem_cons hlt, List.cons.injEq] at hrest
    have hc : counts cores i = c.workers := by
      simp [counts, List.getElem?_eq_getElem hlt, hrest.1]
    rw [minElementFrom, ← hc]
    split
    · rename_i hless
      refine ih hrest.2 hlt ⟨by simp, fun k hk => ?_, fun k hk hki => ?_⟩
      · rcases Nat.lt_succ_iff_lt_or_eq.mp (Finset.mem_range.mp hk) with hki | rfl
        · exact le_trans hless.le (h.least k (Finset.mem_range.mpr hki))
        · exact le_refl _
      · exact lt_of_lt_of_le hless (h.least k (Finset.mem_range.mpr hki))
    · rename_i hnot
      have hsmall := Finset.mem_range.mp h.mem
      refine ih hrest.2 hlt ⟨by simp; omega, fun k hk => ?_, fun k _ hks => ?_⟩
      · rcases Nat.lt_succ_iff_lt_or_eq.mp (Finset.mem_range.mp hk) with hki | rfl
        · exact h.least k (Finset.mem_range.mpr hki)
        · exact not_lt.mp hnot
      · exact h.first k (Finset.mem_range.mpr (by omega)) hks

theorem minElement_firstLeast {cores : List CpuInfo} (h : cores ≠ []) :
    FirstLeast (Finset.range cores.length) (counts cores) (minElement cores) := by
  cases cores with
  | nil => exact absurd rfl h
  | cons c rest =>
    have hfirst : FirstLeast (Finset.range 1) (counts (c :: rest)) 0 := ⟨by simp, by simp, by simp⟩
    have hscan : (c :: rest).drop 1 = rest := rfl
    exact minElementFrom_firstLeast hscan (by simp) hfirst

theorem counts_incWorkers {cores : List CpuInfo} {core : Nat} (h : core < cores.length) :
    counts (cores.modify core CpuInfo.incWorkers) = pour (counts cores) core := by
  funext k
  by_cases hk : k = core
  · subst hk
    simp [counts, List.getElem?_eq_getElem h]
  · rw [pour_other _ hk]
    simp [counts, Ne.symm hk]

/-- The call takes the first least used core and counts its worker there. -/
theorem Books.Adding.automatic {b₀ b : Books} {a : AddWorker} {core : Nat} (h : b₀.Adding a core b)
    (ha : a.cpuId = none) :
    FirstLeast (Finset.range b₀.cores.length) (counts b₀.cores) core ∧
      counts b.cores = pour (counts b₀.cores) core := by
  obtain ⟨info, hinfo, hcore, -, rfl⟩ := h
  have hlt := (List.getElem?_eq_some_iff.mp hinfo).1
  have hne : b₀.cores ≠ [] := List.ne_nil_of_length_pos (by omega)
  rw [ha, coreInfo, Option.some.injEq] at hcore
  exact ⟨hcore ▸ minElement_firstLeast hne, counts_incWorkers hlt⟩

/-! ## Runs of automatic calls -/

def Label.addReturns : Label → Bool
  | .ret (.addWorker _) => true
  | _ => false

/-- The calls of `add_worker` that have returned. -/
def adds (tr : List Label) : Nat := tr.countP Label.addReturns

/-- No `add_worker` asks for a core, and all of them succeed. -/
structure Automatic (tr : List Label) : Prop where
  calls : ∀ a, .call (.addWorker a) ∈ tr → a.cpuId = none
  returns : ∀ status apple, .ret (.addWorker (status, apple)) ∈ tr → status = .ok

theorem adds_snoc (tr : List Label) (l : Label) :
    adds (tr ++ [l]) = adds tr + if l.addReturns then 1 else 0 := by
  simp [adds, List.countP_append, List.countP_singleton]

/-- Between calls the books are `P` of the number of calls that have returned, and within one
they are as `InAdd` says. -/
def Placing (P : Nat → Books → Prop) (tr : List Label) (s : State) : Prop :=
  (s.ctrl.Outside ∧ P (adds tr) s.books) ∨
    ∃ b₀ a, P (adds tr) b₀ ∧ a.cpuId = none ∧ s.ctrl.InAdd b₀ a s.books

section Placing

variable {P : Nat → Books → Prop} {tr : List Label} {s t : State} {l : Label}

theorem Placing.step (hsound : ∀ n b, P n b → b.Sound)
    (hadd : ∀ n b a core b', P n b → a.cpuId = none → b.Adding a core b' → P (n + 1) b')
    (h : Placing P tr s) (hcall : ∀ a, l = .call (.addWorker a) → a.cpuId = none)
    (hret : ∀ status apple, l = .ret (.addWorker (status, apple)) → status = .ok)
    (hstep : Pool.step s l = some t) : Placing P (tr ++ [l]) t := by
  rcases h with ⟨hout, hp⟩ | ⟨b₀, a, hp, ha, hin⟩
  · have hnot : l.addReturns = false := by
      cases l with
      | ret r =>
        rw [(ret_returning hstep).1] at hout
        cases r with
        | addWorker r => exact hout.elim
        | _ => rfl
      | _ => rfl
    have hadds : adds (tr ++ [l]) = adds tr := by simp [adds_snoc, hnot]
    obtain ⟨hb, hout' | ⟨a, rfl, hin⟩⟩ := hout.step hstep
    · exact .inl ⟨hout', by rwa [hadds, hb]⟩
    · exact .inr ⟨s.books, a, by rwa [hadds], hcall a rfl, hin⟩
  · by_cases hreturns : ∃ r, l = .ret r
    · obtain ⟨r, rfl⟩ := hreturns
      obtain ⟨status, apple, rfl, hcases⟩ := hin.ret hstep
      obtain rfl := hret status apple rfl
      have hadds : adds (tr ++ [.ret (.addWorker (.ok, apple))]) = adds tr + 1 := by
        simp [adds_snoc, Label.addReturns]
      refine .inl ⟨by rw [(ret_returning hstep).2]; trivial, ?_⟩
      rw [hadds]
      rcases hcases with ⟨-, hne, -⟩ | ⟨core, -, hne, -⟩ | ⟨core, hadding, -⟩ | ⟨-, hne, -⟩
      · exact absurd rfl hne
      · exact absurd rfl hne
      · exact hadd _ b₀ a core _ hp ha hadding
      · exact absurd rfl hne
    · push Not at hreturns
      have hadds : adds (tr ++ [l]) = adds tr := by
        cases l with
        | ret r => exact absurd rfl (hreturns r)
        | _ => simp [adds_snoc, Label.addReturns]
      exact .inr ⟨b₀, a, by rwa [hadds], ha, hin.step (hsound _ b₀ hp).1 hreturns hstep⟩

/-- What each automatic `add_worker` keeps holds after a run of them. -/
theorem placing_run (hsound : ∀ n b, P n b → b.Sound)
    (hadd : ∀ n b a core b', P n b → a.cpuId = none → b.Adding a core b' → P (n + 1) b')
    (hs : s.ctrl = .idle) (hp : P 0 s.books) (hauto : Automatic tr) (hrun : run s tr = some t)
    (ht : t.ctrl = .idle) : P (adds tr) t.books := by
  have hall : Exec.Throughout step s (Placing P) tr := by
    refine Exec.throughout_of_steps (.inl ⟨by rw [hs]; trivial, hp⟩) ?_
    rintro pre l post u v rfl - hu hstep
    refine hu.step hsound hadd ?_ ?_ hstep
    · rintro a rfl
      exact hauto.calls a (by simp)
    · rintro status apple rfl
      exact hauto.returns status apple (by simp)
  rcases hall tr [] t (by simp) hrun with ⟨-, h⟩ | ⟨b₀, a, -, -, hin⟩
  · exact h
  · rw [ht] at hin
    exact hin.elim

end Placing

/-! ## The levels -/

theorem Books.Adding.ids {b₀ b : Books} {a : AddWorker} {core : Nat} (h : b₀.Adding a core b) :
    b.cores.map CpuInfo.id = b₀.cores.map CpuInfo.id := by
  obtain ⟨info, -, -, -, rfl⟩ := h
  refine List.ext_getElem (by simp [Books.added]) fun k h₁ h₂ => ?_
  simp only [Books.added, List.getElem_map, List.getElem_modify]
  split <;> rfl

/-- The table has the same cores, filled up by the number of calls. -/
structure Levelled (cores : List CpuInfo) (n : Nat) (b : Books) : Prop where
  sound : b.Sound
  ids : b.cores.map CpuInfo.id = cores.map CpuInfo.id
  level : ∃ L, AtLevel L (Finset.range cores.length) (counts cores) (counts b.cores)
  total : ∑ j ∈ Finset.range cores.length, counts b.cores j =
    ∑ j ∈ Finset.range cores.length, counts cores j + n

theorem Levelled.length {cores : List CpuInfo} {n : Nat} {b : Books} (h : Levelled cores n b) :
    b.cores.length = cores.length := by
  simpa using congrArg List.length h.ids

theorem Levelled.add {cores : List CpuInfo} {n : Nat} {b b' : Books} {a : AddWorker} {core : Nat}
    (h : Levelled cores n b) (ha : a.cpuId = none) (hadd : b.Adding a core b') :
    Levelled cores (n + 1) b' := by
  obtain ⟨hfirst, hcounts⟩ := hadd.automatic ha
  rw [h.length] at hfirst
  obtain ⟨L, hlevel⟩ := h.level
  refine ⟨hadd.sound h.sound, hadd.ids.trans h.ids, ?_, ?_⟩
  · rw [hcounts]
    exact hlevel.pour hfirst
  · rw [hcounts, sum_pour _ hfirst.mem, h.total]
    push_cast
    ring

/-- From an empty pool the workers go to the cores in turn. -/
structure InTurn (cores : List CpuInfo) (n : Nat) (b : Books) : Prop where
  sound : b.Sound
  ids : b.cores.map CpuInfo.id = cores.map CpuInfo.id
  counts : RoundRobin cores.length n (counts b.cores)
  length : b.workers.length = n
  cpus : ∀ i w, b.workers[i]? = some w → (cores[i % cores.length]?).map CpuInfo.id = some w.2

theorem InTurn.add {cores : List CpuInfo} {n : Nat} {b b' : Books} {a : AddWorker} {core : Nat}
    (h : InTurn cores n b) (ha : a.cpuId = none) (hadd : b.Adding a core b') :
    InTurn cores (n + 1) b' := by
  obtain ⟨hfirst, hcounts⟩ := hadd.automatic ha
  have hlen : b.cores.length = cores.length := by simpa using congrArg List.length h.ids
  rw [hlen] at hfirst
  have hpick := h.counts.pick hfirst
  have hpos : 0 < cores.length := by
    have := Finset.mem_range.mp hfirst.mem
    omega
  refine ⟨hadd.sound h.sound, hadd.ids.trans h.ids, ?_, ?_, ?_⟩
  · rw [hcounts, hpick]
    exact h.counts.pour hpos
  · obtain ⟨info, -, -, -, rfl⟩ := hadd
    simp [Books.added, h.length]
  · obtain ⟨info, hinfo, -, -, rfl⟩ := hadd
    intro i w hw
    simp only [Books.added, List.getElem?_append] at hw
    split at hw
    · exact h.cpus i w hw
    · rename_i hge
      rw [List.getElem?_singleton] at hw
      split at hw
      · rename_i hlast
        cases hw
        have hi : i = n := by
          rw [h.length] at hge hlast
          omega
        have hid := congrArg (fun ids => ids[core]?) h.ids
        simp only [List.getElem?_map, hinfo, Option.map_some] at hid
        rw [hi, ← hpick, ← hid]
      · cases hw

/-- Any number of successful calls of `add_worker` without a core fills the counts of the core
table, whatever they are, level by level. From an empty pool the workers go to the cores in turn,
and no two counts differ by more than one. -/
theorem automatic_placement {table : List CpuInfo} {pre tr : List Label} {s t : State}
    (hne : s.cores ≠ []) (hpre : run (init table) pre = some s) (hs : s.ctrl = .idle)
    (hrun : run s tr = some t) (ht : t.ctrl = .idle) (hauto : Automatic tr) :
    t.cores.map CpuInfo.id = s.cores.map CpuInfo.id ∧
    Filled (Finset.range s.cores.length) (counts s.cores) (counts t.cores) (adds tr) ∧
    (s.workers = [] ∧ (∀ c ∈ s.cores, c.workers = 0) →
      t.workers.length = adds tr ∧
      (∀ i w, t.workers[i]? = some w →
        (s.cores[i % s.cores.length]?).map CpuInfo.id = some w.cpuId) ∧
      ∀ i < s.cores.length, ∀ j < s.cores.length, counts t.cores i ≤ counts t.cores j + 1) := by
  have hsound : s.books.Sound := sound_of_idle hpre hs
  have hlevelled : Levelled s.cores (adds tr) t.books := by
    refine placing_run (P := Levelled s.cores) (fun _ _ h => h.sound)
      (fun _ _ _ _ _ h ha hadd => h.add ha hadd) hs ⟨hsound, rfl, ?_, by simp [State.books]⟩ hauto
      hrun ht
    exact exists_atLevel (Finset.nonempty_range_iff.mpr (by simpa using hne)) _
  obtain ⟨L, hlevel⟩ := hlevelled.level
  refine ⟨hlevelled.ids, ⟨⟨L, hlevel.toFilledTo⟩, hlevelled.total⟩, ?_⟩
  rintro ⟨hempty, hzero⟩
  have hcounts : RoundRobin s.cores.length 0 (counts s.cores) := by
    intro j hj
    simp [counts, List.getElem?_eq_getElem hj, hzero _ (List.getElem_mem hj)]
  have hturn : InTurn s.cores (adds tr) t.books := by
    refine placing_run (P := InTurn s.cores) (fun _ _ h => h.sound)
      (fun _ _ _ _ _ h ha hadd => h.add ha hadd) hs ⟨hsound, rfl, hcounts, ?_, ?_⟩ hauto hrun ht
    all_goals simp [State.books, hempty]
  refine ⟨by simpa [State.books] using hturn.length, ?_, ?_⟩
  · intro i w hw
    exact hturn.cpus i (w.callback, w.cpuId) (by simp [State.books, hw])
  · intro i hi j hj
    exact hturn.counts.balanced hi hj

/-- Two workers on three cores, the second core with a pinned one. -/
def pinnedRun : List Label := addWorkerRun ⟨0, 75, some 1, 0, 0, .ok⟩ 0

def automaticRun : List Label :=
  addWorkerRun ⟨1, 75, none, 0, 0, .ok⟩ 1 ++ addWorkerRun ⟨2, 75, none, 0, 0, .ok⟩ 2

theorem automatic_placement_pinned :
    ∃ s t, run (init (CoreTable.buildCoreList 0 3)) pinnedRun = some s ∧ run s automaticRun = some t ∧
      Filled (Finset.range s.cores.length) (counts s.cores) (counts t.cores) (adds automaticRun) := by
  have hpre : run (init (CoreTable.buildCoreList 0 3)) pinnedRun = some _ := rfl
  refine ⟨_, _, rfl, rfl, (automatic_placement (by decide) hpre rfl rfl rfl ⟨?_, ?_⟩).2.1⟩
  · intro a ha
    simp [automaticRun, addWorkerRun] at ha
    rcases ha with rfl | rfl <;> rfl
  · intro status apple h
    simp [automaticRun, addWorkerRun] at h
    simp [h]

end Twine.Pool
