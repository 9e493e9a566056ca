import Twine.Exec
import Mathlib.Data.Finset.Card
import Mathlib.Data.Finset.Range

/-!
# The ids of the realtime condition variables

The factory takes an id out of a static table, and giving it back is left to the
destructor of each backend. A history is a list of creations and destructions
in which all system calls succeed; `init_xenomai` decides whether the factory
builds a realtime object, which has an id, or a POSIX one, which has none.
-/
namespace Twine.CondVarIds

inductive Build where
  | xenomai | evl
  deriving DecidableEq, Repr

/-- A created object; `id` is the `_id` of the realtime backends. -/
structure CondVar where
  id : Option Nat
  deriving DecidableEq, Repr

inductive Fault where
  | maximumReached
  deriving DecidableEq, Repr

structure State where
  runningXenomaiRealtime : Bool
  activeIds : List Bool
  objects : List CondVar
  deriving DecidableEq, Repr

def init (maxRtCondVars : Nat) : State := ⟨false, List.replicate maxRtCondVars false, []⟩

def getNextId (activeIds : List Bool) : Except Fault (Nat × List Bool) :=
  match activeIds.findIdx? fun active => active = false with
  | some i => .ok (i, activeIds.set i true)
  | none => .error .maximumReached

def deregisterId (activeIds : List Bool) (id : Nat) : List Bool := activeIds.set id false

def createRtConditionVariable (s : State) : Except Fault State :=
  if s.runningXenomaiRealtime then
    match getNextId s.activeIds with
    | .ok (id, activeIds) => .ok { s with activeIds := activeIds, objects := s.objects ++ [⟨some id⟩] }
    | .error e => .error e
  else .ok { s with objects := s.objects ++ [⟨none⟩] }

/-- What the destructor of an object does to the table. -/
def destroyCondVar (build : Build) (activeIds : List Bool) (o : CondVar) : List Bool :=
  match o.id, build with
  | some id, .xenomai => deregisterId activeIds id
  | _, _ => activeIds

inductive Op where
  | initXenomai
  | create
  /-- The object at this position among the live ones is destroyed. -/
  | destroy (k : Nat)
  deriving DecidableEq, Repr

/-- A creation that throws leaves everything as it was. -/
def step (build : Build) (s : State) : Op → Option State
  | .initXenomai => some { s with runningXenomaiRealtime := true }
  | .create =>
    match createRtConditionVariable s with
    | .ok t => some t
    | .error _ => some s
  | .destroy k =>
    match s.objects[k]? with
    | none => none
    | some o => some { s with
        activeIds := destroyCondVar build s.activeIds o
        objects := s.objects.eraseIdx k }

abbrev run (build : Build) : State → List Op → Option State := Exec.run (step build)

/-- The ids of the live objects. -/
def State.liveIds (s : State) : List Nat := s.objects.filterMap CondVar.id

/-- The table and the live objects agree. -/
structure Tracks (maxRtCondVars : Nat) (s : State) : Prop where
  marked : ∀ i, s.activeIds[i]? = some true ↔ i ∈ s.liveIds
  distinct : s.liveIds.Nodup
  throws : createRtConditionVariable s = .error .maximumReached ↔
    s.runningXenomaiRealtime = true ∧ s.liveIds.length = maxRtCondVars

/-- A destruction in this state is that of an object with an id. -/
def DestroysRt (s : State) (op : Op) : Prop :=
  ∃ k o, op = .destroy k ∧ s.objects[k]? = some o ∧ o.id ≠ none

/-! ## The table -/

theorem getNextId_full {activeIds : List Bool} (h : false ∉ activeIds) :
    getNextId activeIds = .error .maximumReached := by
  have hnone : activeIds.findIdx? (fun active => active = false) = none := by
    rw [List.findIdx?_eq_none_iff]
    intro b hb
    exact decide_eq_false fun he => h (he ▸ hb)
  rw [getNextId, hnone]

/-- The first free id is taken. -/
theorem getNextId_free {activeIds : List Bool} (h : false ∈ activeIds) :
    ∃ id, activeIds[id]? = some false ∧ getNextId activeIds = .ok (id, activeIds.set id true) := by
  cases hfind : activeIds.findIdx? fun active => active = false with
  | none => exact absurd (List.findIdx?_eq_none_iff.mp hfind false h) (by decide)
  | some id =>
    obtain ⟨hlt, hfree, -⟩ := List.findIdx?_eq_some_iff_getElem.mp hfind
    refine ⟨id, ?_, by rw [getNextId, hfind]⟩
    rw [List.getElem?_eq_getElem hlt, of_decide_eq_true hfree]

structure Inv (maxRtCondVars : Nat) (s : State) : Prop where
  size : s.activeIds.length = maxRtCondVars
  marked : ∀ i, s.activeIds[i]? = some true ↔ i ∈ s.liveIds
  distinct : s.liveIds.Nodup

theorem init_inv (n : Nat) : Inv n (init n) where
  size := by simp [init]
  marked := by
    intro i
    simp [init, State.liveIds, List.getElem?_replicate]
  distinct := by simp [init, State.liveIds]

theorem Inv.mem_lt {n : Nat} {s : State} (h : Inv n s) {i : Nat} (hi : i ∈ s.liveIds) : i < n := by
  rw [← h.size]
  exact (List.getElem?_eq_some_iff.mp ((h.marked i).mpr hi)).1

/-- The table is full exactly when as many objects are alive as it has places. -/
theorem Inv.full_iff {n : Nat} {s : State} (h : Inv n s) :
    (∀ i < n, i ∈ s.liveIds) ↔ s.liveIds.length = n := by
  have hsub : s.liveIds.toFinset ⊆ Finset.range n := fun i hi =>
    Finset.mem_range.mpr (h.mem_lt (List.mem_toFinset.mp hi))
  have hcard := List.toFinset_card_of_nodup h.distinct
  constructor
  · intro hall
    have heq : s.liveIds.toFinset = Finset.range n := hsub.antisymm fun i hi =>
      List.mem_toFinset.mpr (hall i (Finset.mem_range.mp hi))
    rw [← hcard, heq, Finset.card_range]
  · intro hlen i hi
    have heq := Finset.eq_of_subset_of_card_le hsub (by rw [Finset.card_range, hcard, hlen])
    exact List.mem_toFinset.mp (heq ▸ Finset.mem_range.mpr hi)

theorem getNextId_error {n : Nat} {s : State} (h : Inv n s) :
    getNextId s.activeIds = .error .maximumReached ↔ s.liveIds.length = n := by
  rw [← h.full_iff]
  constructor
  · intro hnone i hi
    rw [← h.marked, List.getElem?_eq_getElem (h.size.symm ▸ hi), Option.some.injEq]
    by_contra hfree
    have hmem : false ∈ s.activeIds := by
      rw [← Bool.eq_false_of_not_eq_true hfree]
      exact List.getElem_mem (h.size.symm ▸ hi)
    obtain ⟨id, -, hok⟩ := getNextId_free hmem
    cases hnone.symm.trans hok
  · intro hall
    refine getNextId_full fun hfree => ?_
    obtain ⟨i, hi⟩ := List.mem_iff_getElem?.mp hfree
    have hlt := (List.getElem?_eq_some_iff.mp hi).1
    have htrue := (h.marked i).mpr (hall i (h.size ▸ hlt))
    cases Option.some.inj (hi.symm.trans htrue)

theorem Inv.tracks {n : Nat} {s : State} (h : Inv n s) : Tracks n s where
  marked := h.marked
  distinct := h.distinct
  throws := by
    rw [← getNextId_error h]
    simp only [createRtConditionVariable]
    split
    · cases hnext : getNextId s.activeIds with
      | ok r => simp
      | error e => cases e; simp_all
    · simp_all

theorem getNextId_ok {n : Nat} {s : State} (h : Inv n s) {id : Nat} {activeIds : List Bool}
    (hnext : getNextId s.activeIds = .ok (id, activeIds)) :
    id < n ∧ id ∉ s.liveIds ∧ activeIds = s.activeIds.set id true := by
  by_cases hfree : false ∈ s.activeIds
  · obtain ⟨i, hi, hok⟩ := getNextId_free hfree
    obtain ⟨rfl, rfl⟩ : id = i ∧ activeIds = s.activeIds.set i true := by
      simpa using hnext.symm.trans hok
    refine ⟨h.size ▸ (List.getElem?_eq_some_iff.mp hi).1, fun hmem => ?_, rfl⟩
    cases Option.some.inj (hi.symm.trans ((h.marked id).mpr hmem))
  · cases hnext.symm.trans (getNextId_full hfree)

/-- A free id is marked and given to the new object. -/
theorem Inv.create {n : Nat} {s t : State} (h : Inv n s) (hc : createRtConditionVariable s = .ok t) :
    Inv n t := by
  simp only [createRtConditionVariable] at hc
  split at hc
  · split at hc <;> cases hc
    rename_i id activeIds hnext
    obtain ⟨hlt, hfree, rfl⟩ := getNextId_ok h hnext
    have hlive : State.liveIds { s with
        activeIds := s.activeIds.set id true, objects := s.objects ++ [⟨some id⟩] } =
        s.liveIds ++ [id] := by simp [State.liveIds]
    constructor
    · simpa using h.size
    · intro i
      rw [hlive, List.mem_append, List.mem_singleton, ← h.marked, List.getElem?_set]
      by_cases hi : id = i
      · subst hi
        simp [h.size, hlt]
      · simp [hi, Ne.symm hi]
    · rw [hlive]
      exact h.distinct.append (List.nodup_singleton id) (by simpa using hfree)
  · cases hc
    have hlive : State.liveIds { s with objects := s.objects ++ [⟨none⟩] } = s.liveIds := by
      simp [State.liveIds]
    exact ⟨h.size, by rw [hlive]; exact h.marked, by rw [hlive]; exact h.distinct⟩

theorem objects_split {s : State} {k : Nat} {o : CondVar} (ho : s.objects[k]? = some o) :
    ∃ l₁ l₂, s.objects = l₁ ++ o :: l₂ ∧ s.objects.eraseIdx k = l₁ ++ l₂ := by
  obtain ⟨hk, rfl⟩ := List.getElem?_eq_some_iff.mp ho
  refine ⟨s.objects.take k, s.objects.drop (k + 1), ?_, List.eraseIdx_eq_take_drop_succ _ _⟩
  rw [List.getElem_cons_drop, List.take_append_drop]

/-- A destroyed object without an id leaves the live ids as they were; one with an id is
taken out of them. -/
theorem liveIds_destroy {s : State} {k : Nat} {o : CondVar} (ho : s.objects[k]? = some o)
    (hd : s.liveIds.Nodup) (activeIds : List Bool) :
    let t := { s with activeIds := activeIds, objects := s.objects.eraseIdx k }
    t.liveIds.Nodup ∧ (∀ id, o.id = some id → id ∈ s.liveIds) ∧
      ∀ i, i ∈ t.liveIds ↔ i ∈ s.liveIds ∧ o.id ≠ some i := by
  obtain ⟨l₁, l₂, hobj, herase⟩ := objects_split ho
  simp only [State.liveIds, herase]
  rw [State.liveIds, hobj] at hd
  rw [hobj]
  cases hid : o.id with
  | none =>
    simp only [List.filterMap_append, List.filterMap_cons, hid] at hd ⊢
    exact ⟨hd, by simp, by simp⟩
  | some id =>
    simp only [List.filterMap_append, List.filterMap_cons, hid] at hd ⊢
    have hperm := List.perm_middle.nodup_iff.mp hd
    obtain ⟨hnot, hrest⟩ := List.nodup_cons.mp hperm
    refine ⟨hrest, by simp, fun i => ?_⟩
    by_cases hi : id = i
    · subst hi
      simpa using hnot
    · simp [hi, Ne.symm hi]

theorem Inv.destroy {n : Nat} {build : Build} {s : State} (h : Inv n s) {k : Nat} {o : CondVar}
    (ho : s.objects[k]? = some o) (hb : build = .xenomai ∨ o.id = none) :
    Inv n { s with
      activeIds := destroyCondVar build s.activeIds o, objects := s.objects.eraseIdx k } := by
  obtain ⟨hd, hmem, hlive⟩ := liveIds_destroy ho h.distinct (destroyCondVar build s.activeIds o)
  refine ⟨?_, fun i => ?_, hd⟩
  · simp only [destroyCondVar]
    split <;> simp [deregisterId, h.size]
  · rw [hlive, ← h.marked]
    cases hid : o.id with
    | none => simp [destroyCondVar, hid]
    | some id =>
      obtain rfl : build = .xenomai := by simpa [hid] using hb
      simp only [destroyCondVar, hid, deregisterId, List.getElem?_set]
      by_cases hi : id = i
      · subst hi
        have := h.mem_lt (hmem id hid)
        simp [h.size, this]
      · simp [hi]

theorem Inv.step {n : Nat} {build : Build} {s t : State} {op : Op} (h : Inv n s)
    (hb : build = .xenomai ∨ ¬ DestroysRt s op) (hstep : step build s op = some t) : Inv n t := by
  cases op with
  | initXenomai =>
    cases hstep
    exact ⟨h.size, h.marked, h.distinct⟩
  | create =>
    simp only [CondVarIds.step] at hstep
    split at hstep <;> cases hstep
    · rename_i hc
      exact h.create hc
    · exact h
  | destroy k =>
    simp only [CondVarIds.step] at hstep
    split at hstep <;> cases hstep
    rename_i o ho
    refine h.destroy ho (hb.imp_right fun hno => ?_)
    by_contra hid
    exact hno ⟨k, o, rfl, ho, hid⟩

/-! ## Histories -/

section Histories

variable {n : Nat} {build : Build} {tr : List Op} {s : State}

/-- The table agrees with the live objects after every operation of the history. -/
def TracksThroughout (n : Nat) (build : Build) (tr : List Op) : Prop :=
  ∀ pre post s, tr = pre ++ post → run build (init n) pre = some s → Tracks n s

/-- No object with an id is destroyed in the history. -/
def NoRtDestroyed (n : Nat) (build : Build) (tr : List Op) : Prop :=
  ∀ pre op post s, tr = pre ++ op :: post → run build (init n) pre = some s → ¬ DestroysRt s op

theorem inv_of_run (h : run build (init n) tr = some s)
    (hb : build = .xenomai ∨ NoRtDestroyed n build tr) : Inv n s := by
  have hguarded : Exec.Guarded (step build)
      (fun _ s op => build = .xenomai ∨ ¬ DestroysRt s op) (init n) tr s :=
    Exec.guarded_of_run h fun pre op post m he hm => hb.imp_right fun hno => hno pre op post m he hm
  refine hguarded.invariant (I := fun _ s => Inv n s) (init_inv n) ?_
  intro tr s op t hinv hg hstep
  exact hinv.step hg hstep

/-- An EVL object takes its id with it. -/
theorem evl_leaks {t : State} {op : Op} (hs : Tracks n s) (hd : DestroysRt s op)
    (hstep : step .evl s op = some t) : ¬ Tracks n t := by
  obtain ⟨k, o, rfl, ho, hid⟩ := hd
  obtain ⟨id, hid⟩ := Option.ne_none_iff_exists'.mp hid
  simp only [step, ho, Option.some.injEq] at hstep
  subst hstep
  obtain ⟨-, hmem, hlive⟩ := liveIds_destroy ho hs.distinct (destroyCondVar .evl s.activeIds o)
  intro ht
  have hmarked := (hs.marked id).mpr (hmem id hid)
  have hgone := (hlive id).mp ((ht.marked id).mp (by simpa [destroyCondVar, hid] using hmarked))
  exact hgone.2 hid

/-- The ids track the live objects through a history if and only if the backend is Xenomai,
or no object with an id is destroyed. -/
theorem tracks_iff (h : run build (init n) tr = some s) :
    TracksThroughout n build tr ↔ build = .xenomai ∨ NoRtDestroyed n build tr := by
  constructor
  · intro htracks
    cases build with
    | xenomai => exact .inl rfl
    | evl =>
      refine .inr fun pre op post m he hm hd => ?_
      subst he
      obtain ⟨m', hm', hrun⟩ := Exec.run_split h
      obtain rfl : m = m' := Option.some.inj (hm.symm.trans hm')
      obtain ⟨t, ht, -⟩ := Exec.run_cons_split hrun
      have hpost := htracks (pre ++ [op]) post t (by simp)
        (Exec.run_join hm (by simp [Exec.run_cons, ht]))
      exact evl_leaks (htracks pre (op :: post) m rfl hm) hd ht hpost
  · rintro hb pre post m rfl hm
    refine (inv_of_run hm (hb.imp_right fun hno => ?_)).tracks
    rintro pre' op post' m' rfl hm'
    exact hno pre' op (post' ++ post) m' (by simp) hm'

end Histories

/-- One object is created and destroyed. -/
def createDestroy : List Op := [.initXenomai, .create, .destroy 0]

theorem tracks_iff_createDestroy : TracksThroughout 32 .xenomai createDestroy :=
  (tracks_iff (s := ⟨true, List.replicate 32 false, []⟩) (by decide)).mpr (.inl rfl)

/-- The id of the destroyed object stays marked. -/
theorem evl_createDestroy_leaks : ¬ TracksThroughout 32 .evl createDestroy := by
  intro h
  have hmarked := (h createDestroy [] _ rfl rfl).marked 0
  exact absurd hmarked (by decide)

end Twine.CondVarIds
