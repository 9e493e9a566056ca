import Twine.CondVarIds
import Twine.Slots

/-!
# The id allocator, one call at a time

`get_next_id` walks over the table to the first slot that is not active, and
`deregister_id` clears the slot of an id. A history is a list of such calls in
which only ids that were returned and not yet given back are given back. It is
a history of the allocator that always takes the least free number.
-/
namespace Twine.IdAllocator

open CondVarIds (Fault deregisterId)
open Exec (Path Throughout)
open Slots

/-- The loop of `get_next_id` from slot `i` on: what it returns or throws, and the table it
leaves. -/
def getNextIdLoop (activeIds : List Bool) (i : Nat) : Except Fault Nat × List Bool :=
  if h : i < activeIds.length then
    if activeIds[i] = false then (.ok i, activeIds.set i true)
    else getNextIdLoop activeIds (i + 1)
  else (.error .maximumReached, activeIds)
termination_by activeIds.length - i

def getNextId (activeIds : List Bool) : Except Fault Nat × List Bool := getNextIdLoop activeIds 0

inductive Call where
  | getNextId
  | deregisterId (id : Nat)
  deriving DecidableEq, Repr

/-- `held` are the ids that were returned and not yet given back, `log` is what the calls did. -/
structure State where
  activeIds : List Bool
  held : List Nat
  log : List Event
  deriving DecidableEq, Repr

def init (maxRtCondVars : Nat) : State := ⟨List.replicate maxRtCondVars false, [], []⟩

def step (s : State) : Call → Option State
  | .getNextId =>
    match getNextId s.activeIds with
    | (.ok id, activeIds) => some ⟨activeIds, s.held ++ [id], s.log ++ [.takes id]⟩
    | (.error _, activeIds) => some ⟨activeIds, s.held, s.log ++ [.full]⟩
  | .deregisterId id =>
    if id ∈ s.held then
      some ⟨deregisterId s.activeIds id, s.held.erase id, s.log ++ [.gives id]⟩
    else none

/-- The call that an event of the allocator comes from. -/
def callOf : Event → Call
  | .takes _ | .full => .getNextId
  | .gives id => .deregisterId id

def State.used (s : State) : Set Nat := {id | id ∈ s.held}

/-- What the next call does, and what the ids are. -/
structure Lawful (maxRtCondVars : Nat) (s : State) : Prop where
  returns : ∀ id, (getNextId s.activeIds).1 = .ok id ↔ IsLeast {i | i < maxRtCondVars ∧ i ∉ s.held} id
  throws : (getNextId s.activeIds).1 = .error .maximumReached ↔ ∀ i < maxRtCondVars, i ∈ s.held
  unchanged : (getNextId s.activeIds).1 = .error .maximumReached →
    (getNextId s.activeIds).2 = s.activeIds
  takes : ∀ id, (getNextId s.activeIds).1 = .ok id →
    ∀ k, (getNextId s.activeIds).2[k]? = if k = id then some true else s.activeIds[k]?
  frees : ∀ id ∈ s.held,
    ∀ k, (deregisterId s.activeIds id)[k]? = if k = id then some false else s.activeIds[k]?
  marked : ∀ i, s.activeIds[i]? = some true ↔ i ∈ s.held
  distinct : s.held.Nodup
  bounded : ∀ id ∈ s.held, id < maxRtCondVars

/-! ## The loop -/

/-- The loop ends at the first free slot from `i` on, or past the end of the table. -/
theorem getNextIdLoop_cases (activeIds : List Bool) (i : Nat) :
    (∃ id, IsLeast {k | i ≤ k ∧ activeIds[k]? = some false} id ∧
      getNextIdLoop activeIds i = (.ok id, activeIds.set id true)) ∨
    ((∀ k, i ≤ k → activeIds[k]? ≠ some false) ∧
      getNextIdLoop activeIds i = (.error .maximumReached, activeIds)) := by
  fun_induction getNextIdLoop activeIds i with
  | case1 i h hfree =>
    refine .inl ⟨i, ⟨⟨Nat.le_refl i, ?_⟩, fun k hk => hk.1⟩, rfl⟩
    rw [List.getElem?_eq_getElem h, hfree]
  | case2 i h hused ih =>
    -- slot `i` is active, so the free slots from `i` on are those from `i + 1` on
    have hnext : ∀ k, i ≤ k → activeIds[k]? = some false → i + 1 ≤ k := by
      intro k hk hfree
      rcases Nat.eq_or_lt_of_le hk with rfl | hlt
      · rw [List.getElem?_eq_getElem h, Option.some.injEq] at hfree
        exact absurd hfree hused
      · exact hlt
    rcases ih with ⟨id, ⟨⟨hle, hfree⟩, hleast⟩, hret⟩ | ⟨hnone, hret⟩
    · exact .inl ⟨id, ⟨⟨by omega, hfree⟩, fun k hk => hleast ⟨hnext k hk.1 hk.2, hk.2⟩⟩, hret⟩
    · exact .inr ⟨fun k hk hfree => hnone k (hnext k hk hfree) hfree, hret⟩
  | case3 i h =>
    refine .inr ⟨fun k hk hfree => ?_, rfl⟩
    have hlt := (List.getElem?_eq_some_iff.mp hfree).1
    omega

theorem getNextId_cases (activeIds : List Bool) :
    (∃ id, IsLeast {k : Nat | activeIds[k]? = some false} id ∧
      getNextId activeIds = (.ok id, activeIds.set id true)) ∨
    ((∀ k : Nat, activeIds[k]? ≠ some false) ∧
      getNextId activeIds = (.error .maximumReached, activeIds)) := by
  simpa [getNextId] using getNextIdLoop_cases activeIds 0

/-- The loop does what the search for the first free slot says. -/
theorem getNextId_eq (activeIds : List Bool) :
    getNextId activeIds = match CondVarIds.getNextId activeIds with
      | .ok (id, activeIds) => (.ok id, activeIds)
      | .error e => (.error e, activeIds) := by
  rcases getNextId_cases activeIds with ⟨id, ⟨hfree, hleast⟩, hret⟩ | ⟨hnone, hret⟩
  · have hfind : activeIds.findIdx? (fun active => active = false) = some id := by
      obtain ⟨hlt, hid⟩ := List.getElem?_eq_some_iff.mp hfree
      rw [List.findIdx?_eq_some_iff_getElem]
      refine ⟨hlt, by simp [hid], fun j hj => ?_⟩
      intro hj'
      have := hleast (show activeIds[j]? = some false by
        rw [List.getElem?_eq_getElem (hj.trans hlt), of_decide_eq_true hj'])
      omega
    rw [hret, CondVarIds.getNextId, hfind]
  · have hmem : false ∉ activeIds := by
      intro hmem
      obtain ⟨k, hk⟩ := List.mem_iff_getElem?.mp hmem
      exact hnone k hk
    rw [hret, CondVarIds.getNextId_full hmem]

/-! ## The allocator of a set -/

/-- The table holds the flags of the ids that are held, and all calls were those of the allocator
of a set. -/
structure Inv (maxRtCondVars : Nat) (s : State) : Prop where
  size : s.activeIds.length = maxRtCondVars
  marks : Marks s.activeIds s.used
  distinct : s.held.Nodup
  path : Path (Alloc maxRtCondVars) ∅ s.log s.used

theorem init_inv (n : Nat) : Inv n (init n) where
  size := by simp [init]
  marks := by simpa [init, State.used] using marks_replicate n
  distinct := List.nodup_nil
  path := by simpa [init, State.used] using Path.nil ∅

section Inv

variable {n : Nat} {s t : State}

theorem Inv.free_iff (h : Inv n s) {i : Nat} :
    s.activeIds[i]? = some false ↔ i < n ∧ i ∉ s.held := by
  rw [h.marks.free_iff, h.size]
  rfl

/-- What `get_next_id` does, in terms of the held ids. -/
theorem Inv.next (h : Inv n s) :
    (∃ id, IsLeast {i | i < n ∧ i ∉ s.held} id ∧
      getNextId s.activeIds = (.ok id, s.activeIds.set id true)) ∨
    ((∀ i < n, i ∈ s.held) ∧ getNextId s.activeIds = (.error .maximumReached, s.activeIds)) := by
  rcases getNextId_cases s.activeIds with ⟨id, hleast, hret⟩ | ⟨hnone, hret⟩
  · exact .inl ⟨id, by simpa only [h.free_iff] using hleast, hret⟩
  · refine .inr ⟨fun i hi => ?_, hret⟩
    by_contra hfree
    exact hnone i (h.free_iff.mpr ⟨hi, hfree⟩)

/-- The least free id is handed out. -/
theorem Inv.take (h : Inv n s) {id : Nat} (hleast : IsLeast {i | i < n ∧ i ∉ s.held} id) :
    Inv n ⟨s.activeIds.set id true, s.held ++ [id], s.log ++ [.takes id]⟩ := by
  have hused : State.used ⟨s.activeIds.set id true, s.held ++ [id], s.log ++ [.takes id]⟩ =
      insert id s.used := by
    ext i
    simp [State.used, or_comm]
  have hlt : id < s.activeIds.length := h.size ▸ hleast.1.1
  constructor
  · simpa using h.size
  · rw [hused]
    exact h.marks.raise hlt
  · refine List.nodup_append.mpr ⟨h.distinct, List.nodup_singleton id, ?_⟩
    rintro i hi j hj rfl
    exact hleast.1.2 (List.mem_singleton.mp hj ▸ hi)
  · rw [hused]
    exact h.path.snoc (.takes hleast)

/-- A held id is given back. -/
theorem Inv.give (h : Inv n s) {id : Nat} (hid : id ∈ s.held) :
    Inv n ⟨deregisterId s.activeIds id, s.held.erase id, s.log ++ [.gives id]⟩ := by
  have hused : State.used ⟨deregisterId s.activeIds id, s.held.erase id, s.log ++ [.gives id]⟩ =
      s.used \ {id} := by
    ext i
    simp [State.used, h.distinct.mem_erase_iff, and_comm]
  constructor
  · simpa [deregisterId] using h.size
  · rw [hused]
    exact h.marks.lower hid
  · exact h.distinct.erase id
  · rw [hused]
    exact h.path.snoc (.gives hid)

theorem Inv.step (h : Inv n s) {c : Call} (hstep : step s c = some t) : Inv n t := by
  cases c with
  | getNextId =>
    rcases h.next with ⟨id, hleast, hret⟩ | ⟨hfull, hret⟩
    · simp only [IdAllocator.step, hret, Option.some.injEq] at hstep
      exact hstep ▸ h.take hleast
    · simp only [IdAllocator.step, hret, Option.some.injEq] at hstep
      exact hstep ▸ ⟨h.size, h.marks, h.distinct, h.path.snoc (.full hfull)⟩
  | deregisterId id =>
    simp only [IdAllocator.step, Option.ite_none_right_eq_some, Option.some.injEq] at hstep
    obtain ⟨hid, rfl⟩ := hstep
    exact h.give hid

theorem Inv.bounded (h : Inv n s) {id : Nat} (hid : id ∈ s.held) : id < n :=
  h.size ▸ h.marks.lt hid

theorem Inv.lawful (h : Inv n s) : Lawful n s where
  returns := by
    intro id
    rcases h.next with ⟨id', hleast, hret⟩ | ⟨hfull, hret⟩
    · rw [hret]
      constructor
      · intro hid
        cases hid
        exact hleast
      · intro hid
        rw [hid.unique hleast]
    · rw [hret]
      constructor
      · intro hid
        cases hid
      · intro hid
        exact absurd (hfull id hid.1.1) hid.1.2
  throws := by
    rcases h.next with ⟨id, hleast, hret⟩ | ⟨hfull, hret⟩
    · rw [hret]
      constructor
      · intro hid
        cases hid
      · intro hfull
        exact absurd (hfull id hleast.1.1) hleast.1.2
    · rw [hret]
      exact iff_of_true rfl hfull
  unchanged := by
    intro hthrow
    rcases h.next with ⟨id, -, hret⟩ | ⟨-, hret⟩
    · rw [hret] at hthrow
      cases hthrow
    · rw [hret]
  takes := by
    intro id hid k
    rcases h.next with ⟨id', hleast, hret⟩ | ⟨-, hret⟩
    · rw [hret] at hid ⊢
      cases hid
      exact getElem?_set_flag (h.size ▸ hleast.1.1)
    · rw [hret] at hid
      cases hid
  frees := fun id hid k => getElem?_set_flag (h.size ▸ h.bounded hid)
  marked := h.marks
  distinct := h.distinct
  bounded := fun id hid => h.bounded hid

end Inv

theorem inv_throughout (n : Nat) (tr : List Call) :
    Throughout step (init n) (fun _ s => Inv n s) tr :=
  Exec.throughout_of_steps (init_inv n) fun _ _ _ _ _ _ _ hi hstep => hi.step hstep

/-- Every call is logged once. -/
theorem step_log {s t : State} {c : Call} (h : step s c = some t) :
    t.log.map callOf = s.log.map callOf ++ [c] := by
  cases c with
  | getNextId =>
    simp only [step] at h
    split at h <;> cases h <;> simp [callOf]
  | deregisterId id =>
    simp only [step, Option.ite_none_right_eq_some, Option.some.injEq] at h
    obtain ⟨-, rfl⟩ := h
    simp [callOf]

/-- The log of a history has an event for each call, and is one of the allocator of a set. -/
theorem refines (maxRtCondVars : Nat) (calls : List Call) :
    Throughout step (init maxRtCondVars)
      (fun pre s => s.log.map callOf = pre ∧ Path (Alloc maxRtCondVars) ∅ s.log s.used) calls := by
  have hlog : Throughout step (init maxRtCondVars) (fun pre s => s.log.map callOf = pre) calls := by
    refine Exec.throughout_of_steps rfl fun pre c post s t _ _ hpre hstep => ?_
    rw [step_log hstep, hpre]
  intro pre post s he hs
  exact ⟨hlog pre post s he hs, (inv_throughout maxRtCondVars calls pre post s he hs).path⟩

/-- A call is refused only when it gives back an id that is not held. -/
theorem step_isSome (s : State) (c : Call) :
    (step s c).isSome = true ↔ ∀ id, c = .deregisterId id → id ∈ s.held := by
  cases c with
  | getNextId =>
    simp only [step]
    split <;> simp
  | deregisterId id => simp [step]

/-- In every history of calls, whatever the size of the table: the allocator is lawful after each
call, it takes every call but those that give back an id that is not held, and what the calls
did is a path of the allocator of a set. -/
theorem always_lawful (maxRtCondVars : Nat) (calls : List Call) :
    Throughout step (init maxRtCondVars) (fun pre s => Lawful maxRtCondVars s ∧
      (∀ c, (step s c).isSome = true ↔ ∀ id, c = .deregisterId id → id ∈ s.held) ∧
      s.log.map callOf = pre ∧ Path (Alloc maxRtCondVars) ∅ s.log s.used) calls := by
  intro pre post s he hs
  have hinv := inv_throughout maxRtCondVars calls pre post s he hs
  exact ⟨hinv.lawful, step_isSome s, refines maxRtCondVars calls pre post s he hs⟩

end Twine.IdAllocator
