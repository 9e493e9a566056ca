import Twine.PoolBooks

/-!
# The bookkeeping as an account of the calls

The four pieces of state that say which workers there are, computed from nothing but
the calls of `add_worker` and the statuses that they returned. The account also keeps
the cores that were charged for a worker that never ran. Between two calls the books
are those of the account, whatever the schedule and whoever is woken too early.
-/
namespace Twine.Pool

open CoreTable (CpuInfo)
open Placement

structure Account where
  books : Books
  /-- The cpu of every core that a failed `WorkerThread::run` has charged. -/
  charges : List Int

/-- The account of a call of `add_worker` that returned a status. -/
def Account.settle (x : Account) (a : AddWorker) (status : WorkerPoolStatus) : Account :=
  match coreInfo x.books.cores a.cpuId with
  | none => x
  | some core =>
    match x.books.cores[core]? with
    | none => x
    | some info =>
      if workerThreadRun a.schedPriority a.affinity a.create ≠ 0 then
        ⟨x.books.charged core, x.charges ++ [info.id]⟩
      else if status = .ok then { x with books := x.books.added a.callback core info.id }
      else x

/-- The account, and the call of `add_worker` that has not returned. -/
structure Accounting where
  account : Account
  pending : Option AddWorker

def Accounting.next (x : Accounting) : Label → Accounting
  | .call (.addWorker a) => { x with pending := some a }
  | .ret (.addWorker (status, _)) =>
    match x.pending with
    | none => x
    | some a => ⟨x.account.settle a status, none⟩
  | _ => x

def accounting (table : List CpuInfo) (tr : List Label) : Accounting :=
  tr.foldl Accounting.next ⟨⟨⟨0, [], table, 0⟩, []⟩, none⟩

/-! ## What the account keeps -/

/-- The thread counts agree, and every core counts its workers and its charges. -/
structure Account.Exact (x : Account) : Prop where
  sound : x.books.Sound
  nodup : (x.books.cores.map CpuInfo.id).Nodup
  counts : ∀ c ∈ x.books.cores,
    c.workers = x.books.workers.countP (fun w => w.2 = c.id) + x.charges.count c.id

theorem ids_modify {f : CpuInfo → CpuInfo} (hf : ∀ c, (f c).id = c.id) (cores : List CpuInfo)
    (core : Nat) : (cores.modify core f).map CpuInfo.id = cores.map CpuInfo.id := by
  refine List.ext_getElem (by simp) fun k h₁ h₂ => ?_
  simp only [List.getElem_map, List.getElem_modify]
  split
  · exact hf _
  · rfl

theorem ids_incWorkers (cores : List CpuInfo) (core : Nat) :
    (cores.modify core CpuInfo.incWorkers).map CpuInfo.id = cores.map CpuInfo.id :=
  ids_modify (f := CpuInfo.incWorkers) (fun _ => rfl) cores core

/-- A core of the raised table counts one more exactly when it has the id of the raised one. -/
theorem incWorkers_count {cores : List CpuInfo} {core : Nat} {info c : CpuInfo}
    (hnodup : (cores.map CpuInfo.id).Nodup) (hinfo : cores[core]? = some info)
    (hc : c ∈ cores.modify core CpuInfo.incWorkers) :
    ∃ c' ∈ cores, c'.id = c.id ∧ c.workers = c'.workers + if info.id = c.id then 1 else 0 := by
  obtain ⟨k, hk⟩ := List.mem_iff_getElem?.mp hc
  rw [List.getElem?_modify] at hk
  obtain ⟨c', hc', rfl⟩ := Option.map_eq_some_iff.mp hk
  refine ⟨c', List.mem_of_getElem? hc', ?_⟩
  by_cases hkc : core = k
  · subst hkc
    obtain rfl : info = c' := Option.some.inj (hinfo.symm.trans hc')
    simp
  · have hne : info.id ≠ c'.id := by
      intro he
      have hlt := (List.getElem?_eq_some_iff.mp hinfo).1
      exact hkc ((List.getElem?_inj (by simpa using hlt) hnodup).mp (by simp [hinfo, hc', he]))
    simp [hkc, hne]

theorem Account.Exact.charge {x : Account} (h : x.Exact) {core : Nat} {info : CpuInfo}
    (hinfo : x.books.cores[core]? = some info) :
    Account.Exact ⟨x.books.charged core, x.charges ++ [info.id]⟩ := by
  refine ⟨h.sound, by simpa [Books.charged, ids_incWorkers] using h.nodup, fun c hc => ?_⟩
  obtain ⟨c', hc', hid, hcount⟩ := incWorkers_count h.nodup hinfo hc
  have hold := h.counts c' hc'
  rw [hid] at hold
  by_cases he : info.id = c.id
  · rw [if_pos he] at hcount
    simp only [Books.charged, List.count_append, he, List.count_singleton_self, Int.natCast_add]
    omega
  · rw [if_neg he] at hcount
    simp [Books.charged, List.count_append, he, hcount, hold]

theorem Account.Exact.add {x : Account} (h : x.Exact) (callback : Nat) {core : Nat}
    {info : CpuInfo} (hinfo : x.books.cores[core]? = some info) :
    Account.Exact { x with books := x.books.added callback core info.id } := by
  refine ⟨⟨rfl, by simp [Books.added, h.sound.2]⟩,
    by simpa [Books.added, ids_incWorkers] using h.nodup, fun c hc => ?_⟩
  obtain ⟨c', hc', hid, hcount⟩ := incWorkers_count h.nodup hinfo hc
  have hold := h.counts c' hc'
  rw [hid] at hold
  by_cases he : info.id = c.id
  · rw [if_pos he] at hcount
    simp only [Books.added, List.countP_append, List.countP_singleton, he, decide_true, if_true,
      Int.natCast_add]
    omega
  · rw [if_neg he] at hcount
    simp [Books.added, List.countP_append, he, hcount, hold]

theorem Account.Exact.settle {x : Account} (h : x.Exact) (a : AddWorker)
    (status : WorkerPoolStatus) : (x.settle a status).Exact := by
  unfold Account.settle
  split
  · exact h
  · split
    · exact h
    · rename_i info hinfo
      split
      · exact h.charge hinfo
      · split
        · exact h.add a.callback hinfo
        · exact h

/-! ## The books are those of the account -/

theorem accounting_snoc (table : List CpuInfo) (tr : List Label) (l : Label) :
    accounting table (tr ++ [l]) = (accounting table tr).next l := by
  simp [accounting]

/-- Between two calls the books are in the account; during an `add_worker` the account has
the books that the call found. -/
def Accounted (x : Accounting) (s : State) : Prop :=
  (s.ctrl.Outside ∧ x.pending = none ∧ s.books = x.account.books) ∨
    ∃ a, x.pending = some a ∧ s.ctrl.InAdd x.account.books a s.books

theorem next_of_outside {x : Accounting} {l : Label} (hx : x.pending = none)
    (hl : ∀ a, l ≠ .call (.addWorker a)) : x.next l = x := by
  cases l with
  | call c =>
    cases c with
    | addWorker a => exact absurd rfl (hl a)
    | _ => rfl
  | ret r =>
    cases r with
    | addWorker r => simp [Accounting.next, hx]
    | _ => rfl
  | _ => rfl

theorem next_of_inside {x : Accounting} {l : Label} (hcall : ∀ c, l ≠ .call c)
    (hret : ∀ r, l ≠ .ret r) : x.next l = x := by
  cases l with
  | call c => exact absurd rfl (hcall c)
  | ret r => exact absurd rfl (hret r)
  | _ => rfl

/-- The return of `add_worker` settles the account of the call. -/
theorem settle_of_ret {x : Account} {a : AddWorker} {s t : State} {r : Ret}
    (h : s.ctrl.InAdd x.books a s.books) (hstep : step s (.ret r) = some t) :
    ∃ status apple, r = .addWorker (status, apple) ∧ t.books = (x.settle a status).books := by
  obtain ⟨status, apple, rfl, hcases⟩ := h.ret hstep
  refine ⟨status, apple, rfl, ?_⟩
  rcases hcases with ⟨hcore, -, hb⟩ | ⟨core, ⟨hlt, hcore, hrun⟩, -, hb⟩ |
    ⟨core, ⟨info, hinfo, hcore, hrun, hb⟩, hok⟩ | ⟨hrun, hstatus, hb⟩
  · simp [Account.settle, hcore, hb]
  · simp [Account.settle, hcore, List.getElem?_eq_getElem hlt, hrun, hb]
  · simp [Account.settle, hcore, hinfo, hrun, hok, hb]
  · simp only [Account.settle, hrun, hstatus, hb]
    split
    · rfl
    · split <;> rfl

theorem Accounted.step {x : Accounting} {s t : State} {l : Label} (h : Accounted x s)
    (hsound : x.account.books.Sound) (hstep : Pool.step s l = some t) :
    Accounted (x.next l) t := by
  cases h with
  | inl hout =>
    obtain ⟨hctrl, hopen, hbooks⟩ := hout
    obtain ⟨hb, hout' | ⟨a, rfl, hin⟩⟩ := hctrl.step hstep
    · refine .inl ⟨hout', ?_⟩
      rw [next_of_outside hopen]
      · exact ⟨hopen, hb.trans hbooks⟩
      · rintro a rfl
        -- a call of `add_worker` leads inside
        obtain ⟨-, rfl⟩ := call_idle hstep
        simp only [State.setCtrl, Call.enter] at hout'
        split at hout' <;> exact hout'.elim
    · rw [hbooks] at hin
      exact .inr ⟨a, rfl, hin⟩
  | inr hin =>
    obtain ⟨a, hopen, hin⟩ := hin
    by_cases hret : ∃ r, l = .ret r
    · obtain ⟨r, rfl⟩ := hret
      obtain ⟨status, apple, rfl, hb⟩ := settle_of_ret hin hstep
      obtain ⟨-, rfl⟩ := ret_returning hstep
      refine .inl ⟨trivial, ?_⟩
      simp only [Accounting.next, hopen]
      exact ⟨trivial, hb⟩
    · push Not at hret
      have hcall : ∀ c, l ≠ .call c := by
        rintro c rfl
        rw [(call_idle hstep).1] at hin
        exact hin.elim
      rw [next_of_inside hcall hret]
      exact .inr ⟨a, hopen, hin.step hsound.1 hret hstep⟩

theorem next_exact {x : Accounting} (h : x.account.Exact) (l : Label) :
    (x.next l).account.Exact := by
  unfold Accounting.next
  split
  · exact h
  · split
    · exact h
    · exact h.settle _ _
  · exact h

theorem accounted_run {table : List CpuInfo} {tr : List Label} {s : State}
    (hfresh : CoreTable.Fresh table) (h : Exec.Guarded step (fun _ _ _ => True) (init table) tr s) :
    Accounted (accounting table tr) s ∧ (accounting table tr).account.Exact := by
  induction h with
  | start =>
    refine ⟨.inl ⟨trivial, rfl, rfl⟩, ⟨⟨rfl, rfl⟩, hfresh.nodup, fun c hcore => ?_⟩⟩
    simp [accounting, hfresh.unused c hcore]
  | next l _ _ hstep ih =>
    obtain ⟨haccounted, hexact⟩ := ih
    rw [accounting_snoc]
    exact ⟨haccounted.step hexact.sound hstep, next_exact hexact l⟩

/-- Between two calls, in every run of every controller: the books are those of the account,
and every core counts the workers that are pinned to it and the times that a start on it
failed. -/
theorem books_accounted {build : CoreTable.Build} {cores : Int} {table : List CpuInfo}
    {tr : List Label} {s : State} (htable : CoreTable.poolCores build cores = .ok table)
    (h : run (init table) tr = some s) (hc : s.ctrl = .idle) :
    s.books = (accounting table tr).account.books ∧
      ∀ c ∈ s.cores, c.workers = s.workers.countP (fun w => w.cpuId = c.id) +
        (accounting table tr).account.charges.count c.id := by
  obtain ⟨haccounted, hexact⟩ :=
    accounted_run (CoreTable.poolCores_fresh htable) (Exec.guarded_of_run h fun _ _ _ _ _ _ => trivial)
  cases haccounted with
  | inl hout =>
    obtain ⟨-, -, hbooks⟩ := hout
    refine ⟨hbooks, fun c hcore => ?_⟩
    have hcount := hexact.counts c (by rw [← hbooks]; exact hcore)
    rw [← hbooks] at hcount
    simpa [State.books, List.countP_map, Function.comp_def] using hcount
  | inr hin =>
    obtain ⟨a, -, hin⟩ := hin
    rw [hc] at hin
    exact hin.elim

/-- A worker on the first core, and a start on the second one that fails. -/
def chargingRun : List Label :=
  addWorkerRun ⟨7, 75, none, 0, 0, .ok⟩ 0 ++
    [.call (.addWorker ⟨8, 75, none, 0, 11, .ok⟩), .ctrl, .ctrl, .ctrl,
      .ret (.addWorker (errnoToWorkerStatus 11, .ok))]

theorem books_accounted_failed :
    ∃ s, run (init (CoreTable.buildCoreList 0 2)) chargingRun = some s ∧ ∀ c ∈ s.cores,
      c.workers = s.workers.countP (fun w => w.cpuId = c.id) + [1].count c.id := by
  have htable : CoreTable.poolCores .plain 2 = .ok (CoreTable.buildCoreList 0 2) := rfl
  have hrun : run (init (CoreTable.buildCoreList 0 2)) chargingRun = some _ := rfl
  exact ⟨_, hrun, (books_accounted htable hrun rfl).2⟩

end Twine.Pool
