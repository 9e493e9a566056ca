import Twine.IdAllocator

/-!
# The id allocator under many threads

Each read and each write of a slot, each lock and each unlock of the mutex is a
step of its own. `deregister_id` takes the mutex, `get_next_id` does not: between
its read of a free slot and its write to it any other thread may claim the slot.
-/
namespace Twine.IdThreads

open Exec (Throughout Steps)
open Slots

variable {ι : Type} [DecidableEq ι]

/-- Where a thread is. -/
inductive Point where
  | outside
  /-- `get_next_id`, before the test of slot `i`. -/
  | scanning (i : Nat)
  /-- `get_next_id`, slot `i` was read as free. -/
  | claiming (i : Nat)
  /-- `deregister_id`, before the lock. -/
  | locking (id : Nat)
  /-- `deregister_id`, with the mutex. -/
  | clearing (id : Nat)
  | unlocking
  deriving DecidableEq, Repr

inductive Act where
  | getNextId
  | scan
  | claim
  | deregisterId (id : Nat)
  | lock
  | clear
  | unlock
  deriving DecidableEq, Repr

/-- A thread holds an id from the write that marks its slot to the write that clears it. -/
structure State (ι : Type) where
  activeIds : List Bool
  mutex : Option ι
  point : ι → Point
  held : ι → Finset Nat

def init (maxRtCondVars : Nat) : State ι :=
  ⟨List.replicate maxRtCondVars false, none, fun _ => .outside, fun _ => ∅⟩

def State.moveTo (s : State ι) (t : ι) (p : Point) : State ι :=
  { s with point := Function.update s.point t p }

def State.write (s : State ι) (t : ι) (id : Nat) (active : Bool) (held : Finset Nat) : State ι :=
  { s with activeIds := s.activeIds.set id active, held := Function.update s.held t held }

/-- In `get_next_id`. -/
def Point.inside : Point → Bool
  | .scanning _ | .claiming _ => true
  | _ => false

/-- A thread gives back only an id that it holds. -/
def step (s : State ι) (l : ι × Act) : Option (State ι) :=
  let t := l.1
  match l.2, s.point t with
  | .getNextId, .outside => some (s.moveTo t (.scanning 0))
  | .scan, .scanning i =>
    match s.activeIds[i]? with
    | some false => some (s.moveTo t (.claiming i))
    | some true => some (s.moveTo t (.scanning (i + 1)))
    -- past the end of the table: the exception
    | none => some (s.moveTo t .outside)
  | .claim, .claiming i => some ((s.write t i true (insert i (s.held t))).moveTo t .outside)
  | .deregisterId id, .outside =>
    if id ∈ s.held t then some (s.moveTo t (.locking id)) else none
  | .lock, .locking id =>
    if s.mutex = none then some ({ s with mutex := some t }.moveTo t (.clearing id)) else none
  | .clear, .clearing id => some ((s.write t id false ((s.held t).erase id)).moveTo t .unlocking)
  | .unlock, .unlocking => some ({ s with mutex := none }.moveTo t .outside)
  | _, _ => none

/-- No two threads hold the same id, and every held id is marked. -/
structure Unique (s : State ι) : Prop where
  apart : ∀ t t' id, id ∈ s.held t → id ∈ s.held t' → t = t'
  marked : ∀ t id, id ∈ s.held t → s.activeIds[id]? = some true

/-- The step marks a slot that another thread has marked since it was read as free. -/
def ClaimsTaken (s : State ι) (l : ι × Act) : Prop :=
  l.2 = .claim ∧ ∃ i, s.point l.1 = .claiming i ∧ s.activeIds[i]? = some true

/-! ## What a step does -/

/-- The steps of thread `t`, with what enables them and what they leave. -/
inductive Effect (s : State ι) (t : ι) : Act → State ι → Prop where
  | getNextId : s.point t = .outside → Effect s t .getNextId (s.moveTo t (.scanning 0))
  | free {i : Nat} : s.point t = .scanning i → s.activeIds[i]? = some false →
      Effect s t .scan (s.moveTo t (.claiming i))
  | active {i : Nat} : s.point t = .scanning i → s.activeIds[i]? = some true →
      Effect s t .scan (s.moveTo t (.scanning (i + 1)))
  | throws {i : Nat} : s.point t = .scanning i → s.activeIds[i]? = none →
      Effect s t .scan (s.moveTo t .outside)
  | claim {i : Nat} : s.point t = .claiming i →
      Effect s t .claim ((s.write t i true (insert i (s.held t))).moveTo t .outside)
  | deregisterId {id : Nat} : s.point t = .outside → id ∈ s.held t →
      Effect s t (.deregisterId id) (s.moveTo t (.locking id))
  | lock {id : Nat} : s.point t = .locking id → s.mutex = none →
      Effect s t .lock ({ s with mutex := some t }.moveTo t (.clearing id))
  | clear {id : Nat} : s.point t = .clearing id →
      Effect s t .clear ((s.write t id false ((s.held t).erase id)).moveTo t .unlocking)
  | unlock : s.point t = .unlocking → Effect s t .unlock ({ s with mutex := none }.moveTo t .outside)

theorem step_effect {s s' : State ι} {t : ι} {a : Act} (h : step s (t, a) = some s') :
    Effect s t a s' := by
  simp only [step] at h
  split at h
  case h_1 hp =>
    cases h
    exact .getNextId hp
  case h_2 hp =>
    split at h
    · cases h
      exact .free hp ‹_›
    · cases h
      exact .active hp ‹_›
    · cases h
      exact .throws hp ‹_›
  case h_3 hp =>
    cases h
    exact .claim hp
  case h_4 hp =>
    obtain ⟨hid, h⟩ := Option.ite_none_right_eq_some.mp h
    cases h
    exact .deregisterId hp hid
  case h_5 hp =>
    obtain ⟨hm, h⟩ := Option.ite_none_right_eq_some.mp h
    cases h
    exact .lock hp hm
  case h_6 hp =>
    cases h
    exact .clear hp
  case h_7 hp =>
    cases h
    exact .unlock hp
  case h_8 => cases h

@[simp] theorem moveTo_activeIds (s : State ι) (t : ι) (p : Point) :
    (s.moveTo t p).activeIds = s.activeIds := rfl

@[simp] theorem moveTo_held (s : State ι) (t : ι) (p : Point) : (s.moveTo t p).held = s.held := rfl

@[simp] theorem moveTo_point (s : State ι) (t : ι) (p : Point) :
    (s.moveTo t p).point = Function.update s.point t p := rfl

@[simp] theorem write_activeIds (s : State ι) (t : ι) (id : Nat) (active : Bool) (held : Finset Nat) :
    (s.write t id active held).activeIds = s.activeIds.set id active := rfl

@[simp] theorem write_held (s : State ι) (t : ι) (id : Nat) (active : Bool) (held : Finset Nat) :
    (s.write t id active held).held = Function.update s.held t held := rfl

@[simp] theorem write_point (s : State ι) (t : ι) (id : Nat) (active : Bool) (held : Finset Nat) :
    (s.write t id active held).point = s.point := rfl

/-! ## What keeps the ids apart -/

def State.used (s : State ι) : Set Nat := {id | ∃ t, id ∈ s.held t}

structure Inv (s : State ι) : Prop where
  marks : Marks s.activeIds s.used
  apart : ∀ t t' id, id ∈ s.held t → id ∈ s.held t' → t = t'
  claiming : ∀ t i, s.point t = .claiming i → i < s.activeIds.length ∧ i ∉ s.held t
  giving : ∀ t id, s.point t = .locking id ∨ s.point t = .clearing id → id ∈ s.held t

omit [DecidableEq ι] in
theorem init_inv (n : Nat) : Inv (init n : State ι) where
  marks := by simpa [init, State.used] using marks_replicate n
  apart := by simp [init]
  claiming := by simp [init]
  giving := by simp [init]

section Inv

variable {s s' : State ι} {t : ι}

omit [DecidableEq ι] in
theorem Inv.unique (h : Inv s) : Unique s where
  apart := h.apart
  marked := fun t id hid => (h.marks id).mpr ⟨t, hid⟩

/-- A step that touches neither the table nor an id. -/
theorem Inv.moveTo (h : Inv s) {p : Point}
    (hclaiming : ∀ i, p = .claiming i → i < s.activeIds.length ∧ i ∉ s.held t)
    (hgiving : ∀ id, p = .locking id ∨ p = .clearing id → id ∈ s.held t) : Inv (s.moveTo t p) where
  marks := h.marks
  apart := h.apart
  claiming := by
    intro u i hu
    by_cases hut : u = t
    · subst hut
      exact hclaiming i (by simpa using hu)
    · exact h.claiming u i (by simpa [hut] using hu)
  giving := by
    intro u id hu
    by_cases hut : u = t
    · subst hut
      exact hgiving id (by simpa using hu)
    · exact h.giving u id (by simpa [hut] using hu)

omit [DecidableEq ι] in
theorem Inv.mutex (h : Inv s) (m : Option ι) : Inv { s with mutex := m } :=
  ⟨h.marks, h.apart, h.claiming, h.giving⟩

/-- The holders after a write: thread `t` has a new set of ids, the others have theirs. -/
theorem mem_used_write {id k : Nat} {active : Bool} {held : Finset Nat} :
    k ∈ (s.write t id active held).used ↔ k ∈ held ∨ ∃ u, u ≠ t ∧ k ∈ s.held u := by
  simp only [State.used, write_held, Set.mem_ofPred_eq]
  constructor
  · rintro ⟨u, hu⟩
    by_cases hut : u = t
    · subst hut
      exact .inl (by simpa using hu)
    · exact .inr ⟨u, hut, by simpa [hut] using hu⟩
  · rintro (hk | ⟨u, hut, hu⟩)
    · exact ⟨t, by simpa using hk⟩
    · exact ⟨u, by simpa [hut] using hu⟩

/-- Thread `t` writes to a slot, and goes where it needs neither a slot nor an id. -/
theorem Inv.write (h : Inv s) {id : Nat} {active : Bool} {held : Finset Nat} {p : Point}
    (hmarks : Marks (s.activeIds.set id active) (s.write t id active held).used)
    (hapart : ∀ u k, k ∈ held → k ∈ s.held u → u = t)
    (hclaiming : ∀ i, p ≠ .claiming i) (hgiving : ∀ k, p ≠ .locking k ∧ p ≠ .clearing k) :
    Inv ((s.write t id active held).moveTo t p) where
  marks := hmarks
  apart := by
    intro u v k hu hv
    simp only [moveTo_held, write_held] at hu hv
    by_cases hut : u = t <;> by_cases hvt : v = t
    · rw [hut, hvt]
    · exact hut.trans (hapart v k (by simpa [hut] using hu) (by simpa [hvt] using hv)).symm
    · exact (hapart u k (by simpa [hvt] using hv) (by simpa [hut] using hu)).trans hvt.symm
    · exact h.apart u v k (by simpa [hut] using hu) (by simpa [hvt] using hv)
  claiming := by
    intro u i hu
    by_cases hut : u = t
    · exact absurd (by simpa [hut] using hu) (hclaiming i)
    · have := h.claiming u i (by simpa [hut] using hu)
      simpa [hut] using this
  giving := by
    intro u k hu
    by_cases hut : u = t
    · have hp : p = .locking k ∨ p = .clearing k := by simpa [hut] using hu
      exact (hp.elim (hgiving k).1 (hgiving k).2).elim
    · have := h.giving u k (by simpa [hut] using hu)
      simpa [hut] using this

/-- A free slot is claimed. -/
theorem Inv.claim (h : Inv s) {i : Nat} (hp : s.point t = .claiming i)
    (hfree : s.activeIds[i]? ≠ some true) :
    Inv ((s.write t i true (insert i (s.held t))).moveTo t .outside) := by
  have hunused : i ∉ s.used := fun hi => hfree ((h.marks i).mpr hi)
  have hused : (s.write t i true (insert i (s.held t))).used = insert i s.used := by
    ext k
    rw [mem_used_write, Finset.mem_insert, Set.mem_insert_iff, or_assoc]
    refine or_congr_right ⟨?_, ?_⟩
    · rintro (hk | ⟨u, -, hu⟩)
      · exact ⟨t, hk⟩
      · exact ⟨u, hu⟩
    · rintro ⟨u, hu⟩
      by_cases hut : u = t
      · exact .inl (hut ▸ hu)
      · exact .inr ⟨u, hut, hu⟩
  refine h.write ?_ (fun u k hk hu => ?_) (by simp) (by simp)
  · rw [hused]
    exact h.marks.raise (h.claiming t i hp).1
  · rcases Finset.mem_insert.mp hk with rfl | hk
    · exact absurd ⟨u, hu⟩ hunused
    · exact h.apart u t k hu hk

/-- The only holder of an id gives it back. -/
theorem Inv.clear (h : Inv s) {id : Nat} (hp : s.point t = .clearing id) :
    Inv ((s.write t id false ((s.held t).erase id)).moveTo t .unlocking) := by
  have hid : id ∈ s.held t := h.giving t id (.inr hp)
  have hused : (s.write t id false ((s.held t).erase id)).used = s.used \ {id} := by
    ext k
    rw [mem_used_write, Finset.mem_erase]
    constructor
    · rintro (⟨hne, hk⟩ | ⟨u, hut, hu⟩)
      · exact ⟨⟨t, hk⟩, hne⟩
      · exact ⟨⟨u, hu⟩, fun hk => hut (h.apart u t id (hk ▸ hu) hid)⟩
    · rintro ⟨⟨u, hu⟩, hne⟩
      by_cases hut : u = t
      · exact .inl ⟨hne, hut ▸ hu⟩
      · exact .inr ⟨u, hut, hu⟩
  refine h.write ?_ (fun u k hk hu => ?_) (by simp) (by simp)
  · rw [hused]
    exact h.marks.lower ⟨t, hid⟩
  · exact h.apart u t k hu (Finset.mem_of_mem_erase hk)

theorem Inv.step (h : Inv s) {l : ι × Act} (hl : ¬ ClaimsTaken s l) (hstep : step s l = some s') :
    Inv s' := by
  obtain ⟨t, a⟩ := l
  cases step_effect hstep with
  | getNextId hp => exact h.moveTo (by simp) (by simp)
  | free hp hfree =>
    refine h.moveTo ?_ (by simp)
    rintro i ⟨⟩
    obtain ⟨hlt, hunused⟩ := h.marks.free_iff.mp hfree
    exact ⟨hlt, fun hheld => hunused ⟨t, hheld⟩⟩
  | active hp hactive => exact h.moveTo (by simp) (by simp)
  | throws hp hend => exact h.moveTo (by simp) (by simp)
  | claim hp => exact h.claim hp fun htaken => hl ⟨rfl, _, hp, htaken⟩
  | deregisterId hp hid => exact h.moveTo (by simp) (by simpa using hid)
  | lock hp hm => exact (h.mutex _).moveTo (by simp) (by simpa using h.giving t _ (.inl hp))
  | clear hp => exact h.clear hp
  | unlock hp => exact (h.mutex _).moveTo (by simp) (by simp)

/-- A claim of a marked slot gives its id to a second thread. -/
theorem Inv.claims_taken (h : Inv s) {l : ι × Act} (hl : ClaimsTaken s l)
    (hstep : IdThreads.step s l = some s') : ¬ Unique s' := by
  obtain ⟨t, a⟩ := l
  obtain ⟨rfl, i, hp, htaken⟩ := hl
  obtain ⟨u, hu⟩ := (h.marks i).mp htaken
  have hut : u ≠ t := fun he => (h.claiming t i hp).2 (he ▸ hu)
  intro hunique
  cases step_effect hstep with
  | claim hp' =>
    cases hp.symm.trans hp'
    exact hut (hunique.apart u t i (by simpa [hut] using hu) (by simp))

end Inv

/-- The held ids are unique and marked throughout exactly the runs in which no thread claims a
slot that was claimed since it read it. -/
theorem unique_iff (maxRtCondVars : Nat) (tr : List (ι × Act)) :
    Throughout step (init maxRtCondVars) (fun _ s => Unique s) tr ↔
      Steps step (init maxRtCondVars) (fun s l => ¬ ClaimsTaken s l) tr :=
  Exec.throughout_iff (I := fun _ s => Inv s) (O := fun _ _ => True) (init_inv maxRtCondVars)
    (fun _ _ _ _ hi _ hl hstep => hi.step hl hstep) (fun _ _ hi => hi.unique)
    (fun _ _ _ _ hi _ hl hstep => hi.claims_taken hl hstep) Exec.steps_true

/-- Two threads read the only slot as free before either marks it. -/
def raceRun : List (Bool × Act) :=
  [(false, .getNextId), (false, .scan), (true, .getNextId), (true, .scan), (false, .claim),
    (true, .claim)]

theorem both_claim : ¬ Throughout step (init 1) (fun _ (s : State Bool) => Unique s) raceRun := by
  intro h
  obtain ⟨s, hrun, hfirst, hsecond⟩ : ∃ s, Exec.run step (init 1 : State Bool) raceRun = some s ∧
      0 ∈ s.held false ∧ 0 ∈ s.held true := ⟨_, rfl, by decide, by decide⟩
  have hunique : Unique s := h raceRun [] s (by simp) hrun
  cases hunique.apart false true 0 hfirst hsecond

/-! ## One thread at a time in `get_next_id` -/

/-- A thread enters `get_next_id` only when no thread is inside. -/
def Serial (s : State ι) (l : ι × Act) : Prop :=
  l.2 = .getNextId → ∀ t, (s.point t).inside = false

structure Alone (s : State ι) : Prop where
  one : ∀ t u, (s.point t).inside = true → (s.point u).inside = true → t = u
  free : ∀ t i, s.point t = .claiming i → s.activeIds[i]? ≠ some true

section Alone

variable {s s' : State ι} {t : ι}

theorem Alone.moveTo (h : Alone s) {p : Point}
    (hone : p.inside = true → ∀ u, (s.point u).inside = true → u = t)
    (hfree : ∀ i, p = .claiming i → s.activeIds[i]? ≠ some true) : Alone (s.moveTo t p) where
  one := by
    intro u v hu hv
    simp only [moveTo_point, Function.update_apply] at hu hv
    split at hu <;> split at hv
    · subst_vars
      rfl
    · subst_vars
      exact (hone hu v hv).symm
    · subst_vars
      exact hone hv u hu
    · exact h.one u v hu hv
  free := by
    intro u i hu
    by_cases hut : u = t
    · subst hut
      exact hfree i (by simpa using hu)
    · exact h.free u i (by simpa [hut] using hu)

omit [DecidableEq ι] in
theorem Alone.mutex (h : Alone s) (m : Option ι) : Alone { s with mutex := m } :=
  ⟨h.one, h.free⟩

/-- A slot that is cleared is free for whoever is about to claim it. -/
theorem Alone.clear (h : Alone s) (id : Nat) (held : Finset Nat) :
    Alone (s.write t id false held) where
  one := h.one
  free := by
    intro u i hu
    have hi := h.free u i hu
    rw [write_activeIds, List.getElem?_set]
    split
    · split <;> simp
    · exact hi

theorem Alone.step (h : Alone s) {l : ι × Act} (hl : Serial s l)
    (hstep : step s l = some s') : Alone s' := by
  obtain ⟨t, a⟩ := l
  cases step_effect hstep with
  | getNextId hp =>
    refine h.moveTo (fun _ u hu => ?_) (by simp)
    rw [hl rfl u] at hu
    cases hu
  | free hp hfree =>
    refine h.moveTo (fun _ u hu => h.one u t hu (by simp [hp, Point.inside])) ?_
    rintro i ⟨⟩
    simp [hfree]
  | active hp hactive =>
    exact h.moveTo (fun _ u hu => h.one u t hu (by simp [hp, Point.inside])) (by simp)
  | throws hp hend => exact h.moveTo (by simp [Point.inside]) (by simp)
  | claim hp =>
    -- nobody else is inside, so nobody else is about to claim the slot
    have hmoved : Alone (s.moveTo t .outside) := h.moveTo (by simp [Point.inside]) (by simp)
    have hnone : ∀ u j, (s.moveTo t .outside).point u ≠ .claiming j := by
      intro u j hu
      by_cases hut : u = t
      · simp [hut] at hu
      · have hclaiming : s.point u = .claiming j := by simpa [hut] using hu
        exact hut (h.one u t (by simp [hclaiming, Point.inside]) (by simp [hp, Point.inside]))
    exact ⟨hmoved.one, fun u j hu => absurd hu (hnone u j)⟩
  | deregisterId hp hid => exact h.moveTo (by simp [Point.inside]) (by simp)
  | lock hp hm => exact (h.mutex _).moveTo (by simp [Point.inside]) (by simp)
  | clear hp =>
    exact (h.clear _ _).moveTo (by simp [Point.inside]) (by simp)
  | unlock hp => exact (h.mutex _).moveTo (by simp [Point.inside]) (by simp)

end Alone

/-- A caller that keeps `get_next_id` to one thread at a time gets unique ids, whatever the other
threads give back meanwhile. -/
theorem serial_unique {maxRtCondVars : Nat} {tr : List (ι × Act)}
    (h : Steps step (init maxRtCondVars) Serial tr) :
    Throughout step (init maxRtCondVars) (fun _ s => Unique s) tr := by
  have hinv : Throughout step (init maxRtCondVars) (fun _ s => Inv s ∧ Alone s) tr := by
    refine Exec.throughout_of_steps ⟨init_inv _, by simp [init, Point.inside], by simp [init]⟩ ?_
    rintro pre l post s t he hs ⟨hi, ha⟩ hstep
    refine ⟨hi.step ?_ hstep, ha.step (h pre l post s t he hs hstep) hstep⟩
    rintro ⟨-, i, hp, htaken⟩
    exact ha.free l.1 i hp htaken
  exact hinv.mono fun _ _ hi => hi.1.unique

/-! ## A call without interruption -/

theorem moveTo_moveTo (s : State ι) (t : ι) (p q : Point) :
    (s.moveTo t p).moveTo t q = s.moveTo t q := by
  simp [State.moveTo]

theorem moveTo_self {s : State ι} {t : ι} {p : Point} (h : s.point t = p) : s.moveTo t p = s := by
  simp [State.moveTo, ← h]

theorem run_scan {s : State ι} {t : ι} {i : Nat} (k : Nat)
    (hactive : ∀ j, i ≤ j → j < i + k → s.activeIds[j]? = some true) :
    Exec.run step (s.moveTo t (.scanning i)) (List.replicate k (t, .scan)) =
      some (s.moveTo t (.scanning (i + k))) := by
  induction k generalizing i with
  | zero => rfl
  | succ k ih =>
    have hstep : step (s.moveTo t (.scanning i)) (t, .scan) =
        some (s.moveTo t (.scanning (i + 1))) := by
      simp [step, hactive i (Nat.le_refl i) (by omega), moveTo_moveTo]
    rw [List.replicate_succ, Exec.run_cons_some _ hstep, ih fun j hj hlt => hactive j (by omega) (by omega)]
    congr 3
    omega

/-- The steps of one thread without the others' are the call of the sequential allocator. -/
theorem run_getNextId {s : State ι} {t : ι} (hp : s.point t = .outside) :
    match IdAllocator.getNextId s.activeIds with
    | (.ok id, activeIds) =>
      Exec.run step s ((t, .getNextId) :: List.replicate id (t, .scan) ++ [(t, .scan), (t, .claim)]) =
        some { s with
          activeIds := activeIds
          held := Function.update s.held t (insert id (s.held t)) }
    | (.error _, activeIds) =>
      Exec.run step s ((t, .getNextId) :: List.replicate activeIds.length (t, .scan) ++ [(t, .scan)]) =
        some s := by
  have hcall : step s (t, .getNextId) = some (s.moveTo t (.scanning 0)) := by simp [step, hp]
  rcases IdAllocator.getNextId_cases s.activeIds with ⟨id, ⟨hfree, hleast⟩, hret⟩ | ⟨hnone, hret⟩
  · have hid : s.activeIds[id]? = some false := hfree
    have hlt := (List.getElem?_eq_some_iff.mp hid).1
    have hscan : step (s.moveTo t (.scanning id)) (t, .scan) = some (s.moveTo t (.claiming id)) := by
      simp [step, hid, moveTo_moveTo]
    have hclaim : step (s.moveTo t (.claiming id)) (t, .claim) = some { s with
        activeIds := s.activeIds.set id true
        held := Function.update s.held t (insert id (s.held t)) } := by
      simp [step, State.write, State.moveTo, ← hp]
    have hruns := run_scan (s := s) (t := t) (i := 0) id fun j _ hj => by
      refine flag_up (by omega) fun hj' => ?_
      have hle := hleast hj'
      omega
    rw [hret]
    simp only [List.cons_append, Exec.run_cons_some _ hcall, Exec.run_append, hruns, Nat.zero_add,
      Option.bind_some, Exec.run_cons_some _ hscan, Exec.run_cons_some _ hclaim, Exec.run_nil]
  · have hend : step (s.moveTo t (.scanning s.activeIds.length)) (t, .scan) = some s := by
      simp [step, moveTo_moveTo, moveTo_self hp]
    have hruns := run_scan (s := s) (t := t) (i := 0) s.activeIds.length fun j _ hj =>
      flag_up (by omega) (hnone j)
    rw [hret]
    simp only [List.cons_append, Exec.run_cons_some _ hcall, Exec.run_append, hruns, Nat.zero_add,
      Option.bind_some, Exec.run_cons_some _ hend, Exec.run_nil]

end Twine.IdThreads
