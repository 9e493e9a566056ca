import Twine.CondVarIds

/-!
# Failures while a realtime condition variable is created

The factory takes an id and then runs a constructor that can throw after each of
its system calls. An exception leaves what the statements before it have done:
the destructor of an object that was never constructed does not run. A creation
is given by the results of its system calls.
-/
namespace Twine.CondVarCreation

open Twine.CondVarIds (getNextId)

/-- What the system calls of the Xenomai constructor return. -/
structure XenomaiCalls where
  socket : Int
  /-- No statement reads this one. -/
  setsockopt : Int
  bind : Int
  eventfd : Int
  openRtp : Int
  deriving DecidableEq, Repr

inductive Calls where
  | xenomai (calls : XenomaiCalls)
  | evl (xbufToRt xbufToNonrt : Int)
  deriving DecidableEq, Repr

inductive Fault where
  | ids (fault : CondVarIds.Fault)
  | xddpNotEnabled
  /-- The text for `errno`. -/
  | strerror
  deriving DecidableEq, Repr

structure State where
  activeIds : List Bool
  /-- The open handles, in the order in which they were opened. -/
  handles : List Int
  deriving DecidableEq, Repr

structure CondVar where
  id : Nat
  handles : List Int
  deriving DecidableEq, Repr

/-- An exception does not restore the state. -/
abbrev Creation := EStateM Fault State

def State.opened (s : State) (handle : Int) : State :=
  if 0 ≤ handle then { s with handles := s.handles ++ [handle] } else s

/-- A call that opens a handle if it does not return an error. -/
def acquire (handle : Int) : Creation Unit := modify fun s => s.opened handle

/-- `if (failed) { throw fault; }` -/
def throwIf (failed : Prop) [Decidable failed] (fault : Fault) : Creation Unit :=
  if failed then throw fault else pure ()

def setUpSocket (calls : XenomaiCalls) : Creation Unit := do
  acquire calls.socket
  throwIf (calls.socket < 0) .xddpNotEnabled
  throwIf (calls.bind < 0) .strerror

def setUpFiles (calls : XenomaiCalls) : Creation Unit := do
  acquire calls.eventfd
  throwIf (calls.eventfd ≤ 0) .strerror
  acquire calls.openRtp
  throwIf (calls.openRtp ≤ 0) .strerror

def xenomaiConditionVariable (calls : XenomaiCalls) (id : Nat) : Creation CondVar := do
  setUpSocket calls
  setUpFiles calls
  return ⟨id, [calls.socket, calls.eventfd, calls.openRtp]⟩

/-- Both tests are of the first handle. -/
def evlConditionVariable (xbufToRt xbufToNonrt : Int) (id : Nat) : Creation CondVar := do
  acquire xbufToRt
  throwIf (xbufToRt < 0) .strerror
  acquire xbufToNonrt
  throwIf (xbufToRt < 0) .strerror
  return ⟨id, [xbufToRt, xbufToNonrt]⟩

def takeNextId : Creation Nat := do
  match getNextId (← get).activeIds with
  | .ok (id, activeIds) =>
    modify fun s => { s with activeIds := activeIds }
    return id
  | .error fault => throw (.ids fault)

def construct (id : Nat) : Calls → Creation CondVar
  | .xenomai calls => xenomaiConditionVariable calls id
  | .evl xbufToRt xbufToNonrt => evlConditionVariable xbufToRt xbufToNonrt id

def createRtConditionVariable (calls : Calls) : Creation CondVar := do
  construct (← takeNextId) calls

/-- The calls return what the constructor needs: it takes the handle 0 of an `eventfd` or an
`open` for an error. -/
def Calls.Complete : Calls → Prop
  | .xenomai calls => 0 ≤ calls.socket ∧ 0 ≤ calls.bind ∧ 0 < calls.eventfd ∧ 0 < calls.openRtp
  | .evl xbufToRt xbufToNonrt => 0 ≤ xbufToRt ∧ 0 ≤ xbufToNonrt

/-- The creation returns an object with valid handles, or it throws and leaves nothing. -/
structure Atomic (s : State) (calls : Calls) : Prop where
  returns : ∀ o t, createRtConditionVariable calls s = .ok o t →
    (∀ handle ∈ o.handles, 0 ≤ handle) ∧ t.handles = s.handles ++ o.handles
  throws : ∀ fault t, createRtConditionVariable calls s = .error fault t → t = s

/-! ## Histories of creations -/

def stateAfter {α : Type} : EStateM.Result Fault State α → State
  | .ok _ t | .error _ t => t

def step (s : State) (calls : Calls) : Option State :=
  some (stateAfter (createRtConditionVariable calls s))

abbrev run : State → List Calls → Option State := Exec.run step

/-- How many of the attempts return an object. -/
def created : State → List Calls → Nat
  | _, [] => 0
  | s, calls :: attempts =>
    match createRtConditionVariable calls s with
    | .ok _ t => created t attempts + 1
    | .error _ t => created t attempts

structure AllOrNothing (s : State) (attempts : List Calls) : Prop where
  each : Exec.Steps step s Atomic attempts
  /-- After any number of failed creations as many objects can be created as before. -/
  capacity : ∀ pre post t, attempts = pre ++ post → run s pre = some t → created s pre = 0 →
    ∀ later, created s later ≤ created t later

/-! ## What a creation leaves -/

/-- Only the factory itself changes the table. -/
def KeepsTable {α : Type} (m : Creation α) : Prop :=
  ∀ s, (stateAfter (m s)).activeIds = s.activeIds

section KeepsTable

variable {α β : Type}

theorem keepsTable_bind {m : Creation α} {f : α → Creation β} (hm : KeepsTable m)
    (hf : ∀ a, KeepsTable (f a)) : KeepsTable (m >>= f) := by
  intro s
  have hs := hm s
  simp only [bind, EStateM.bind]
  cases h : m s with
  | ok a t =>
    rw [h] at hs
    exact (hf a t).trans hs
  | error fault t =>
    rw [h] at hs
    exact hs

theorem keepsTable_return (a : α) : KeepsTable (pure a : Creation α) := fun _ => rfl

theorem keepsTable_acquire (handle : Int) : KeepsTable (acquire handle) := by
  intro s
  show (s.opened handle).activeIds = s.activeIds
  simp only [State.opened]
  split <;> rfl

theorem keepsTable_throwIf (failed : Prop) [Decidable failed] (fault : Fault) :
    KeepsTable (throwIf failed fault) := by
  intro s
  simp only [throwIf]
  split <;> rfl

end KeepsTable

theorem throwIf_neg {failed : Prop} [Decidable failed] (h : ¬ failed) (fault : Fault) :
    throwIf failed fault = pure () := if_neg h

theorem throwIf_pos {failed : Prop} [Decidable failed] (h : failed) (fault : Fault) :
    throwIf failed fault = throw fault := if_pos h

theorem keepsTable_xenomai (calls : XenomaiCalls) (id : Nat) :
    KeepsTable (xenomaiConditionVariable calls id) := by
  refine keepsTable_bind ?_ fun _ => keepsTable_bind ?_ fun _ => keepsTable_return _
  · exact keepsTable_bind (keepsTable_acquire _) fun _ =>
      keepsTable_bind (keepsTable_throwIf _ _) fun _ => keepsTable_throwIf _ _
  · exact keepsTable_bind (keepsTable_acquire _) fun _ =>
      keepsTable_bind (keepsTable_throwIf _ _) fun _ =>
      keepsTable_bind (keepsTable_acquire _) fun _ => keepsTable_throwIf _ _

theorem xenomai_returns {calls : XenomaiCalls} (h : (Calls.xenomai calls).Complete) (id : Nat)
    (s : State) :
    xenomaiConditionVariable calls id s = .ok ⟨id, [calls.socket, calls.eventfd, calls.openRtp]⟩
      (((s.opened calls.socket).opened calls.eventfd).opened calls.openRtp) := by
  obtain ⟨hsocket, hbind, heventfd, hopen⟩ := h
  simp only [xenomaiConditionVariable, setUpSocket, setUpFiles, throwIf_neg hsocket.not_gt,
    throwIf_neg hbind.not_gt, throwIf_neg heventfd.not_ge, throwIf_neg hopen.not_ge]
  rfl

theorem xenomai_throws {calls : XenomaiCalls} (h : ¬ (Calls.xenomai calls).Complete) (id : Nat)
    (s : State) : ∃ fault t, xenomaiConditionVariable calls id s = .error fault t := by
  by_cases hsocket : calls.socket < 0
  · simp only [xenomaiConditionVariable, setUpSocket, throwIf_pos hsocket]
    exact ⟨_, _, rfl⟩
  by_cases hbind : calls.bind < 0
  · simp only [xenomaiConditionVariable, setUpSocket, throwIf_neg hsocket, throwIf_pos hbind]
    exact ⟨_, _, rfl⟩
  by_cases heventfd : calls.eventfd ≤ 0
  · simp only [xenomaiConditionVariable, setUpSocket, setUpFiles, throwIf_neg hsocket,
      throwIf_neg hbind, throwIf_pos heventfd]
    exact ⟨_, _, rfl⟩
  by_cases hopen : calls.openRtp ≤ 0
  · simp only [xenomaiConditionVariable, setUpSocket, setUpFiles, throwIf_neg hsocket,
      throwIf_neg hbind, throwIf_neg heventfd, throwIf_pos hopen]
    exact ⟨_, _, rfl⟩
  · exact absurd ⟨by omega, by omega, by omega, by omega⟩ h

theorem evl_throws {xbufToRt : Int} (h : xbufToRt < 0) (xbufToNonrt : Int) (id : Nat) (s : State) :
    evlConditionVariable xbufToRt xbufToNonrt id s = .error .strerror s := by
  have hs : s.opened xbufToRt = s := by
    simp only [State.opened, if_neg h.not_ge]
  simp only [evlConditionVariable, throwIf_pos h]
  show EStateM.Result.error _ (s.opened xbufToRt) = _
  rw [hs]

/-- The second buffer is not tested. -/
theorem evl_returns {xbufToRt : Int} (h : 0 ≤ xbufToRt) (xbufToNonrt : Int) (id : Nat) (s : State) :
    evlConditionVariable xbufToRt xbufToNonrt id s =
      .ok ⟨id, [xbufToRt, xbufToNonrt]⟩ ((s.opened xbufToRt).opened xbufToNonrt) := by
  simp only [evlConditionVariable, throwIf_neg h.not_gt]
  rfl

theorem keepsTable_evl (xbufToRt xbufToNonrt : Int) (id : Nat) :
    KeepsTable (evlConditionVariable xbufToRt xbufToNonrt id) :=
  keepsTable_bind (keepsTable_acquire _) fun _ =>
    keepsTable_bind (keepsTable_throwIf _ _) fun _ =>
    keepsTable_bind (keepsTable_acquire _) fun _ =>
    keepsTable_bind (keepsTable_throwIf _ _) fun _ => keepsTable_return _

theorem keepsTable_construct (id : Nat) (calls : Calls) : KeepsTable (construct id calls) := by
  cases calls with
  | xenomai calls => exact keepsTable_xenomai calls id
  | evl xbufToRt xbufToNonrt => exact keepsTable_evl xbufToRt xbufToNonrt id

theorem opened_of_valid (s : State) {handle : Int} (h : 0 ≤ handle) :
    s.opened handle = ⟨s.activeIds, s.handles ++ [handle]⟩ := if_pos h

theorem construct_complete {calls : Calls} (h : calls.Complete) (id : Nat) (s : State) :
    ∃ o t, construct id calls s = .ok o t ∧ (∀ handle ∈ o.handles, 0 ≤ handle) ∧
      t.handles = s.handles ++ o.handles := by
  cases calls with
  | xenomai calls =>
    refine ⟨_, _, xenomai_returns h id s, ?_, ?_⟩
    · simp [h.1, h.2.2.1.le, h.2.2.2.le]
    · simp [opened_of_valid, h.1, h.2.2.1.le, h.2.2.2.le]
  | evl xbufToRt xbufToNonrt =>
    refine ⟨_, _, evl_returns h.1 xbufToNonrt id s, ?_, ?_⟩
    · simp [h.1, h.2]
    · simp [opened_of_valid, h.1, h.2]

/-- A call failed: the constructor throws, or its object has a handle that is not one. -/
theorem construct_incomplete {calls : Calls} (h : ¬ calls.Complete) (id : Nat) (s : State) :
    (∃ fault t, construct id calls s = .error fault t) ∨
      ∃ o t, construct id calls s = .ok o t ∧ ∃ handle ∈ o.handles, handle < 0 := by
  cases calls with
  | xenomai calls => exact .inl (xenomai_throws h id s)
  | evl xbufToRt xbufToNonrt =>
    by_cases hrt : xbufToRt < 0
    · exact .inl ⟨_, _, evl_throws hrt xbufToNonrt id s⟩
    · have hnonrt : xbufToNonrt < 0 := by
        by_contra hge
        exact h ⟨by omega, by omega⟩
      exact .inr ⟨_, _, evl_returns (by omega) xbufToNonrt id s, xbufToNonrt, by simp, hnonrt⟩

/-! ## All or nothing -/

theorem takeNextId_eq (s : State) : takeNextId s =
    match getNextId s.activeIds with
    | .ok (id, activeIds) => .ok id { s with activeIds := activeIds }
    | .error fault => .error (.ids fault) s := by
  show (match getNextId s.activeIds with
    | .ok (id, activeIds) => (modify fun s => { s with activeIds := activeIds }) *> pure id
    | .error fault => throw (.ids fault) : Creation Nat) s = _
  cases getNextId s.activeIds <;> rfl

theorem create_full {s : State} (h : false ∉ s.activeIds) (calls : Calls) :
    createRtConditionVariable calls s = .error (.ids .maximumReached) s := by
  have hid : takeNextId s = .error (.ids .maximumReached) s := by
    rw [takeNextId_eq, CondVarIds.getNextId_full h]
  simp only [createRtConditionVariable, bind, EStateM.bind, hid]

/-- The constructor runs with a marked id. -/
theorem create_free {s : State} (h : false ∈ s.activeIds) (calls : Calls) :
    ∃ id t, s.activeIds[id]? = some false ∧ t.activeIds[id]? = some true ∧ t.handles = s.handles ∧
      createRtConditionVariable calls s = construct id calls t := by
  obtain ⟨id, hfree, hnext⟩ := CondVarIds.getNextId_free h
  have hid : takeNextId s = .ok id { s with activeIds := s.activeIds.set id true } := by
    rw [takeNextId_eq, hnext]
  refine ⟨id, { s with activeIds := s.activeIds.set id true }, hfree, ?_, rfl, ?_⟩
  · exact List.getElem?_set_self (List.getElem?_eq_some_iff.mp hfree).1
  · simp only [createRtConditionVariable, bind, EStateM.bind, hid]

theorem atomic_iff (s : State) (calls : Calls) :
    Atomic s calls ↔ (false ∈ s.activeIds → calls.Complete) := by
  by_cases hfree : false ∈ s.activeIds
  · obtain ⟨id, u, hs, hu, hhandles, hcreate⟩ := create_free hfree calls
    constructor
    · intro h _
      by_contra hc
      rcases construct_incomplete hc id u with ⟨fault, t, he⟩ | ⟨o, t, hok, handle, hmem, hlt⟩
      · -- the id stays marked
        have hkeeps := keepsTable_construct id calls u
        rw [he] at hkeeps
        obtain rfl := h.throws fault t (hcreate.trans he)
        have hmarked : t.activeIds[id]? = some true := hkeeps ▸ hu
        cases hs.symm.trans hmarked
      · exact absurd ((h.returns o t (hcreate.trans hok)).1 handle hmem) hlt.not_ge
    · intro h
      obtain ⟨o, t, hok, hvalid, hopened⟩ := construct_complete (h hfree) id u
      rw [hhandles] at hopened
      constructor
      · intro o' t' hok'
        cases (hcreate.trans hok).symm.trans hok'
        exact ⟨hvalid, hopened⟩
      · intro fault t' he
        cases (hcreate.trans hok).symm.trans he
  · have hfull := create_full hfree calls
    refine ⟨fun _ h => absurd h hfree, fun _ => ⟨?_, ?_⟩⟩
    · intro o t hok
      cases hfull.symm.trans hok
    · intro fault t he
      cases hfull.symm.trans he
      rfl

/-- Failed creations that are each undone leave everything as it was. -/
theorem unchanged_of_failed {s t : State} {attempts : List Calls}
    (hatomic : Exec.Steps step s Atomic attempts) (hrun : run s attempts = some t)
    (hfailed : created s attempts = 0) : t = s := by
  induction attempts generalizing s with
  | nil => exact (Option.some.inj hrun).symm
  | cons calls attempts ih =>
    have hstep : step s calls = some (stateAfter (createRtConditionVariable calls s)) := rfl
    obtain ⟨hs, hatomic⟩ := (Exec.steps_cons hstep).mp hatomic
    simp only [created] at hfailed
    cases he : createRtConditionVariable calls s with
    | ok o u => simp [he] at hfailed
    | error fault u =>
      obtain rfl := hs.throws fault u he
      simp only [he, stateAfter] at hfailed hstep hatomic
      exact ih hatomic ((Exec.run_cons_some attempts hstep).symm.trans hrun) hfailed

/-- Creating is all-or-nothing throughout a history if and only if, whenever an id is free, the
calls that the constructor needs succeed. -/
theorem allOrNothing_iff (s : State) (attempts : List Calls) :
    AllOrNothing s attempts ↔
      Exec.Steps step s (fun s calls => false ∈ s.activeIds → calls.Complete) attempts := by
  constructor
  · intro h pre calls post t u he ht hu
    exact (atomic_iff t calls).mp (h.each pre calls post t u he ht hu)
  · intro h
    have heach : Exec.Steps step s Atomic attempts := fun pre calls post t u he ht hu =>
      (atomic_iff t calls).mpr (h pre calls post t u he ht hu)
    refine ⟨heach, ?_⟩
    rintro pre post t rfl ht hfailed later
    have hpre : Exec.Steps step s Atomic pre := fun pre' calls post' v w he hv hw =>
      heach pre' calls (post' ++ post) v w (by simp [he]) hv hw
    rw [unchanged_of_failed hpre ht hfailed]

/-- The kernel has no XDDP sockets, and the only id is lost. -/
theorem failed_socket_leaks_id :
    ¬ AllOrNothing ⟨[false], []⟩ [.xenomai ⟨-1, 0, 0, 3, 4⟩] := by
  intro h
  have hatomic := h.each [] _ [] ⟨[false], []⟩ ⟨[true], []⟩ rfl rfl (by decide)
  have he := hatomic.throws .xddpNotEnabled ⟨[true], []⟩ rfl
  cases he

end Twine.CondVarCreation
