import Twine.PosixCondVar

/-!
# The condition variable on a mutex and a flag

`StdConditionVariable` is to behave like the semaphore, up to notifications that
are merged because nobody has waited in between. The steps are the sections
that hold the mutex: `notify` is one, and `wait` has two, up to the sleep and
from the wakeup on.
-/
namespace Twine.StdCondVar

inductive Waiter where
  | outside
  | asleep
  /-- Notified or woken spuriously, before the mutex is locked again. -/
  | woken
  deriving DecidableEq, Repr

structure State where
  flag : Bool
  waiter : Waiter
  deriving DecidableEq, Repr

def init : State := ⟨false, .outside⟩

inductive Label where
  | notify
  | wait
  | spurious
  /-- `wait` returns this value. -/
  | ret (notified : Bool)
  deriving DecidableEq, Repr

/-- `notify_one` wakes the only thread that can sleep. -/
def Waiter.notified : Waiter → Waiter
  | .asleep => .woken
  | w => w

def step (s : State) : Label → Option State
  | .notify => some ⟨true, s.waiter.notified⟩
  | .wait => if s.waiter = .outside then some { s with waiter := .asleep } else none
  | .spurious => if s.waiter = .asleep then some { s with waiter := .woken } else none
  | .ret notified =>
    if s.waiter = .woken ∧ notified = s.flag then some ⟨false, .outside⟩ else none

def notifications (tr : List Label) : Nat := tr.count .notify

def trueReturns (tr : List Label) : Nat := tr.count (.ret true)

/-! ## The run of the semaphore -/

/-- The calls on the semaphore, and what they leave: a token that was posted and not taken, and
a `sem_wait` under way. -/
structure Match where
  pending : Bool
  waiting : Bool
  calls : List PosixCondVar.Label
  deriving DecidableEq, Repr

/-- A notification counts only as the first one since the last true return, and a wait that
returns false goes on in the next one. -/
def Match.next (m : Match) : Label → Match
  | .notify => if m.pending then m else { m with pending := true, calls := m.calls ++ [.notify] }
  | .wait => if m.waiting then m else { m with waiting := true, calls := m.calls ++ [.wait] }
  | .ret true => ⟨false, false, m.calls ++ [.take]⟩
  | .ret false | .spurious => m

def matching (tr : List Label) : Match := tr.foldl Match.next ⟨false, false, []⟩

theorem matching_snoc (tr : List Label) (l : Label) :
    matching (tr ++ [l]) = (matching tr).next l := by
  simp [matching]

/-- The state that the semaphore is in after its calls. -/
def Match.state (m : Match) : PosixCondVar.State := ⟨m.pending.toNat, m.waiting⟩

/-- The flag refines the semaphore. -/
structure Refines (semValueMax : Nat) (tr : List Label) (s : State) : Prop where
  /-- The same calls with merged notifications are a run of the semaphore, with the same true
  returns. -/
  matched : PosixCondVar.run semValueMax PosixCondVar.init (matching tr).calls =
    some (matching tr).state
  trueReturns : PosixCondVar.trueReturns (matching tr).calls = trueReturns tr
  returns : StdCondVar.trueReturns tr ≤ notifications tr
  /-- Each true return has a notification made since the one before. -/
  noticed : ∀ pre, tr = pre ++ [.ret true] → (matching pre).pending = true
  /-- No notification is slept over: the waiter sleeps only when the semaphore blocks it. -/
  neverLost : s.waiter = .asleep →
    s.flag = false ∧ PosixCondVar.Blocked semValueMax (matching tr).state

/-- `wait` is called with a notification that no wait has consumed. -/
def WaitsLate (s : State) (l : Label) : Prop := l = .wait ∧ s.flag = true

/-! ## What a step does -/

/-- The steps with what enables them and what they leave. -/
inductive Effect (s : State) : Label → State → Prop where
  | notify : Effect s .notify ⟨true, s.waiter.notified⟩
  | wait : s.waiter = .outside → Effect s .wait { s with waiter := .asleep }
  | spurious : s.waiter = .asleep → Effect s .spurious { s with waiter := .woken }
  | ret {notified : Bool} : s.waiter = .woken → notified = s.flag →
      Effect s (.ret notified) ⟨false, .outside⟩

theorem step_effect {s t : State} {l : Label} (h : step s l = some t) : Effect s l t := by
  cases l with
  | notify =>
    cases h
    exact .notify
  | wait =>
    simp only [step] at h
    split at h <;> cases h
    exact .wait (by assumption)
  | spurious =>
    simp only [step] at h
    split at h <;> cases h
    exact .spurious (by assumption)
  | ret notified =>
    simp only [step] at h
    split at h <;> cases h
    rename_i hw
    exact .ret hw.1 hw.2

/-! ## The run of the semaphore goes on -/

theorem Match.next_run {semValueMax : Nat} (hmax : 0 < semValueMax) {m : Match} {l : Label}
    (h : PosixCondVar.run semValueMax PosixCondVar.init m.calls = some m.state)
    (hret : l = .ret true → m.pending = true ∧ m.waiting = true) :
    PosixCondVar.run semValueMax PosixCondVar.init (m.next l).calls = some (m.next l).state := by
  cases l with
  | notify =>
    simp only [Match.next]
    split
    · exact h
    · rename_i hp
      refine Exec.run_join h ?_
      simp [Match.state, hp, Exec.run_cons, PosixCondVar.step, hmax]
  | wait =>
    simp only [Match.next]
    split
    · exact h
    · rename_i hw
      refine Exec.run_join h ?_
      simp [Match.state, hw, Exec.run_cons, PosixCondVar.step]
  | spurious => exact h
  | ret notified =>
    cases notified with
    | false => exact h
    | true =>
      obtain ⟨hp, hw⟩ := hret rfl
      refine Exec.run_join h ?_
      simp [Match.state, Match.next, hp, hw, Exec.run_cons, PosixCondVar.step]

theorem Match.next_trueReturns (m : Match) (l : Label) :
    PosixCondVar.trueReturns (m.next l).calls =
      PosixCondVar.trueReturns m.calls + if l = .ret true then 1 else 0 := by
  cases l with
  | notify =>
    simp only [Match.next]
    split <;> simp [PosixCondVar.trueReturns_snoc, PosixCondVar.Label.returned]
  | wait =>
    simp only [Match.next]
    split <;> simp [PosixCondVar.trueReturns_snoc, PosixCondVar.Label.returned]
  | spurious => simp [Match.next]
  | ret notified =>
    cases notified <;> simp [Match.next, PosixCondVar.trueReturns_snoc, PosixCondVar.Label.returned]

theorem Match.next_pending (m : Match) (l : Label) :
    (m.next l).pending = (decide (l = .notify) || m.pending && decide (l ≠ .ret true)) := by
  cases l with
  | notify => by_cases hp : m.pending <;> simp [Match.next, hp]
  | wait => by_cases hw : m.waiting <;> simp [Match.next, hw]
  | spurious => simp [Match.next]
  | ret notified => cases notified <;> simp [Match.next]

theorem Match.next_waiting (m : Match) (l : Label) :
    (m.next l).waiting = (decide (l = .wait) || m.waiting && decide (l ≠ .ret true)) := by
  cases l with
  | notify => by_cases hp : m.pending <;> simp [Match.next, hp]
  | wait => by_cases hw : m.waiting <;> simp [Match.next, hw]
  | spurious => simp [Match.next]
  | ret notified => cases notified <;> simp [Match.next]

/-! ## The invariant -/

structure Inv (semValueMax : Nat) (tr : List Label) (s : State) : Prop where
  pending : (matching tr).pending = s.flag
  waiting : s.waiter ≠ .outside → (matching tr).waiting = true
  asleep : s.waiter = .asleep → s.flag = false
  matched : PosixCondVar.run semValueMax PosixCondVar.init (matching tr).calls =
    some (matching tr).state
  trueReturns : PosixCondVar.trueReturns (matching tr).calls = StdCondVar.trueReturns tr
  returns : StdCondVar.trueReturns tr + s.flag.toNat ≤ notifications tr
  noticed : ∀ pre, tr = pre ++ [.ret true] → (matching pre).pending = true

theorem init_inv (semValueMax : Nat) : Inv semValueMax [] init where
  pending := rfl
  waiting := by simp [init]
  asleep := by simp [init]
  matched := rfl
  trueReturns := rfl
  returns := by decide
  noticed := by simp

theorem Inv.refines {semValueMax : Nat} {tr : List Label} {s : State} (h : Inv semValueMax tr s) :
    Refines semValueMax tr s where
  matched := h.matched
  trueReturns := h.trueReturns
  returns := Nat.le_of_add_right_le h.returns
  noticed := h.noticed
  neverLost := by
    intro hs
    have hflag := h.asleep hs
    have hwaiting := h.waiting (by simp [hs])
    refine ⟨hflag, hwaiting, ?_⟩
    simp [PosixCondVar.step, Match.state, h.pending, hflag]

theorem Inv.step {semValueMax : Nat} (hmax : 0 < semValueMax) {tr : List Label} {s t : State}
    {l : Label} (h : Inv semValueMax tr s) (hl : ¬ WaitsLate s l) (hstep : step s l = some t) :
    Inv semValueMax (tr ++ [l]) t := by
  have heffect := step_effect hstep
  have hret : l = .ret true → s.flag = true ∧ (matching tr).waiting = true := by
    rintro rfl
    cases heffect with
    | ret hw hflag => exact ⟨hflag.symm, h.waiting (by simp [hw])⟩
  have hreturns := h.returns
  constructor
  case matched =>
    rw [matching_snoc]
    exact Match.next_run hmax h.matched fun he => ⟨h.pending.trans (hret he).1, (hret he).2⟩
  case trueReturns =>
    rw [matching_snoc, Match.next_trueReturns, h.trueReturns]
    simp [StdCondVar.trueReturns, List.count_append, List.count_singleton]
  case noticed =>
    intro pre he
    obtain ⟨rfl, hlast⟩ := List.append_inj' he rfl
    obtain rfl : l = .ret true := by simpa using hlast
    exact h.pending.trans (hret rfl).1
  case pending =>
    rw [matching_snoc, Match.next_pending, h.pending]
    cases heffect with
    | notify | wait | spurious => simp
    | ret _ hflag => simp [hflag]
  case waiting =>
    intro ht
    rw [matching_snoc, Match.next_waiting]
    cases heffect with
    | notify =>
      have hs : s.waiter ≠ .outside := fun he => ht (by simp [he, Waiter.notified])
      simp [h.waiting hs]
    | wait => simp
    | spurious hs => simp [h.waiting (by simp [hs])]
    | ret => exact absurd rfl ht
  case asleep =>
    intro ht
    cases heffect with
    | notify => cases hs : s.waiter <;> simp [hs, Waiter.notified] at ht
    | wait => simpa [WaitsLate] using hl
    | spurious => cases ht
    | ret => rfl
  case returns =>
    cases heffect with
    | notify =>
      simp [StdCondVar.trueReturns, notifications, List.count_append] at hreturns ⊢
      omega
    | wait | spurious =>
      simpa [StdCondVar.trueReturns, notifications, List.count_append] using hreturns
    | @ret notified _ hflag =>
      cases notified <;>
        simp [StdCondVar.trueReturns, notifications, List.count_append, ← hflag] at hreturns ⊢ <;>
        omega

/-- The flag refines the semaphore throughout a run if and only if no `wait` is called with a
notification that no wait has consumed. -/
theorem refines_iff {semValueMax : Nat} (hmax : 0 < semValueMax) (tr : List Label) :
    Exec.Throughout step init (Refines semValueMax) tr ↔
      Exec.Steps step init (fun s l => ¬ WaitsLate s l) tr := by
  refine Exec.throughout_iff (I := Inv semValueMax) (B := WaitsLate) (init_inv semValueMax) ?_ ?_ ?_
    Exec.steps_true
  · rintro tr s l t h - hl hstep
    exact h.step hmax hl hstep
  · intro tr s h
    exact h.refines
  · rintro tr s l t - - ⟨rfl, hflag⟩ hstep hrefines
    -- the waiter falls asleep on the notification
    cases step_effect hstep with
    | wait =>
      have hlost := (hrefines.neverLost rfl).1
      simp [hflag] at hlost

theorem refines_iff_afterSleep :
    Exec.Throughout step init (Refines 2147483647) [.wait, .notify, .ret true] ↔
      Exec.Steps step init (fun s l => ¬ WaitsLate s l) [.wait, .notify, .ret true] :=
  refines_iff (by decide) _

/-- A notification before the first `wait`, which sleeps. -/
theorem early_notification_is_lost :
    ¬ Exec.Throughout step init (Refines 2147483647) [.notify, .wait] := by
  intro h
  have hlost := (h [.notify, .wait] [] ⟨true, .asleep⟩ rfl rfl).neverLost rfl
  cases hlost.1

end Twine.StdCondVar
