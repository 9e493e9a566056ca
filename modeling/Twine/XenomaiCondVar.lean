import Twine.Exec

/-!
# The condition variable of the Xenomai build

A realtime thread notifies through a byte queue, any other thread through an
eventfd semaphore. `wait` polls both and reads those that the poll reported; it
returns whether it has read more than one byte in total. Any number of threads
notify and one thread waits.
-/
namespace Twine.XenomaiCondVar

/-- The size of the queue and of the buffer that is read into. -/
def NUM_ELEMENTS : Nat := 64

/-- What a read of an eventfd returns. -/
def NON_RT_MSG_SIZE : Int := 8

inductive Waiter where
  | outside
  | polling
  /-- The channels that the poll reported and that are not read yet, and the bytes read. -/
  | draining (rt nonRt : Bool) (len : Int)
  deriving DecidableEq, Repr

structure State where
  /-- The bytes in the queue. -/
  rtPending : Nat
  /-- The value of the eventfd. -/
  nonRtPending : Nat
  waiter : Waiter
  /-- What no step reads: the notifications that the current wait has consumed, and whether
  there were any when it was called. -/
  consumed : Nat
  owed : Bool
  deriving DecidableEq, Repr

def init : State := ⟨0, 0, .outside, 0, false⟩

inductive Label where
  | notifyRt
  | notifyNonRt
  | wait
  | poll
  /-- `poll` returns an error. -/
  | pollInterrupted
  /-- The next `read`. -/
  | read
  | ret (notified : Bool)
  deriving DecidableEq, Repr

/-- A full queue merges the notification with those that it holds. -/
def sendTo (pending : Nat) : Nat := if pending < NUM_ELEMENTS then pending + 1 else pending

/-- A read of the queue, which does not block: what it returns, and what is left. -/
def readRt (pending : Nat) : Int × Nat :=
  if pending = 0 then (-1, 0) else (min pending NUM_ELEMENTS, pending - min pending NUM_ELEMENTS)

/-- A poll is interrupted only when it would sleep, and a read of the eventfd blocks at zero. -/
def step (s : State) : Label → Option State
  | .notifyRt => some { s with rtPending := sendTo s.rtPending }
  | .notifyNonRt => some { s with nonRtPending := s.nonRtPending + 1 }
  | .wait =>
    if s.waiter = .outside then
      some { s with
        waiter := .polling
        consumed := 0
        owed := 0 < s.rtPending + s.nonRtPending }
    else none
  | .poll =>
    if s.waiter = .polling ∧ 0 < s.rtPending + s.nonRtPending then
      some { s with waiter := .draining (0 < s.rtPending) (0 < s.nonRtPending) 0 }
    else none
  | .pollInterrupted =>
    if s.waiter = .polling ∧ s.rtPending + s.nonRtPending = 0 then
      some { s with waiter := .draining false false 0 }
    else none
  | .read =>
    match s.waiter with
    | .draining true nonRt len =>
      let (bytes, rest) := readRt s.rtPending
      some { s with
        rtPending := rest
        waiter := .draining false nonRt (len + bytes)
        consumed := s.consumed + (s.rtPending - rest) }
    | .draining false true len =>
      if s.nonRtPending = 0 then none
      else some { s with
        nonRtPending := s.nonRtPending - 1
        waiter := .draining false false (len + NON_RT_MSG_SIZE)
        consumed := s.consumed + 1 }
    | _ => none
  | .ret notified =>
    match s.waiter with
    | .draining false false len =>
      if notified = decide (1 < len) then some { s with waiter := .outside } else none
    | _ => none

/-- What the wait is about to return. -/
def State.result (s : State) : Option Bool :=
  match s.waiter with
  | .draining false false len => some (decide (1 < len))
  | _ => none

/-- The waiting thread can take a step without an error of the poll. -/
def CanStep (s : State) : Prop :=
  (step s .poll).isSome ∨ (step s .read).isSome ∨ ∃ notified, (step s (.ret notified)).isSome

/-- A wait reports what it consumed. -/
structure Reports (s : State) : Prop where
  result : ∀ notified, s.result = some notified → (notified = true ↔ 0 < s.consumed)
  /-- With a notification that was not consumed before the call, or that is pending now, the wait
  is not blocked. -/
  unblocked : s.waiter ≠ .outside → (s.owed = true ∨ 0 < s.rtPending + s.nonRtPending) → CanStep s
  /-- A notification that was not consumed before the call makes the wait return true. -/
  next : ∀ notified, s.result = some notified → s.owed = true → notified = true

/-- The read of a queue that holds one byte, when the poll has not reported the eventfd. -/
def ReadsLoneByte (s : State) (l : Label) : Prop :=
  l = .read ∧ (∃ len, s.waiter = .draining true false len) ∧ s.rtPending = 1

/-! ## The invariant -/

/-- The waiting thread, given what is pending. -/
def WaiterOk (s : State) : Prop :=
  match s.waiter with
  | .outside => True
  | .polling => s.consumed = 0 ∧ (s.owed = true → 0 < s.rtPending + s.nonRtPending)
  | .draining true nonRt len =>
    len = 0 ∧ s.consumed = 0 ∧ 0 < s.rtPending ∧ (nonRt = true → 0 < s.nonRtPending)
  | .draining false true len => len = s.consumed ∧ 0 < s.nonRtPending
  | .draining false false len =>
    (1 < len ↔ 0 < s.consumed) ∧ (s.owed = true → 0 < s.consumed)

structure Inv (s : State) : Prop where
  bound : s.rtPending ≤ NUM_ELEMENTS
  waiterOk : WaiterOk s

theorem init_inv : Inv init := ⟨Nat.zero_le _, trivial⟩

/-- A read takes all that is pending. -/
theorem readRt_pending {pending : Nat} (h₀ : 0 < pending) (h : pending ≤ NUM_ELEMENTS) :
    readRt pending = ((pending : Int), 0) := by
  have hne : pending ≠ 0 := by omega
  simp only [NUM_ELEMENTS] at h
  simp only [readRt, NUM_ELEMENTS, if_neg hne, Prod.mk.injEq]
  omega

theorem le_sendTo (pending : Nat) : pending ≤ sendTo pending := by
  simp only [sendTo]
  split <;> omega

theorem sendTo_le {pending : Nat} (h : pending ≤ NUM_ELEMENTS) : sendTo pending ≤ NUM_ELEMENTS := by
  simp only [sendTo]
  split <;> omega

/-- More notifications do not disturb the waiting thread. -/
theorem WaiterOk.notify {s : State} (h : WaiterOk s) {rt nonRt : Nat} (hrt : s.rtPending ≤ rt)
    (hnonRt : s.nonRtPending ≤ nonRt) :
    WaiterOk { s with rtPending := rt, nonRtPending := nonRt } := by
  rcases hw : s.waiter with _ | _ | ⟨_ | _, _ | _, len⟩ <;> simp only [WaiterOk, hw] at h ⊢
  case polling => exact ⟨h.1, fun ho => by have := h.2 ho; omega⟩
  case draining.false.false => exact h
  case draining.false.true => exact ⟨h.1, by omega⟩
  case draining.true.false => exact ⟨h.1, h.2.1, by omega, nofun⟩
  case draining.true.true => exact ⟨h.1, h.2.1, by omega, fun _ => by have := h.2.2.2 trivial; omega⟩

theorem Inv.canStep {s : State} (h : Inv s) (hw : s.waiter ≠ .outside)
    (hp : s.owed = true ∨ 0 < s.rtPending + s.nonRtPending) : CanStep s := by
  have hok := h.waiterOk
  rcases hc : s.waiter with _ | _ | ⟨_ | _, _ | _, len⟩ <;> simp only [WaiterOk, hc] at hok
  case outside => exact absurd hc hw
  case polling =>
    have hpending : 0 < s.rtPending + s.nonRtPending := hp.elim hok.2 id
    exact .inl (by simp only [step, hc, hpending, and_self, if_true, Option.isSome_some])
  case draining.false.false =>
    exact .inr (.inr ⟨decide (1 < len), by simp [step, hc]⟩)
  case draining.false.true =>
    have hne : s.nonRtPending ≠ 0 := by omega
    exact .inr (.inl (by simp [step, hc, hne]))
  case draining.true.false | draining.true.true => exact .inr (.inl (by simp [step, hc]))

theorem Inv.reports {s : State} (h : Inv s) : Reports s where
  result := by
    intro notified hr
    have hok := h.waiterOk
    rcases hc : s.waiter with _ | _ | ⟨_ | _, _ | _, len⟩ <;>
      simp only [State.result, hc, reduceCtorEq, Option.some.injEq] at hr
    simp only [WaiterOk, hc] at hok
    simpa [← hr] using hok.1
  unblocked := h.canStep
  next := by
    intro notified hr ho
    have hok := h.waiterOk
    rcases hc : s.waiter with _ | _ | ⟨_ | _, _ | _, len⟩ <;>
      simp only [State.result, hc, reduceCtorEq, Option.some.injEq] at hr
    simp only [WaiterOk, hc] at hok
    simpa [← hr] using hok.1.mpr (hok.2 ho)

theorem Inv.step {s t : State} {l : Label} (h : Inv s) (hl : ¬ ReadsLoneByte s l)
    (hstep : step s l = some t) : Inv t := by
  have hok := h.waiterOk
  cases l with
  | notifyRt =>
    cases hstep
    exact ⟨sendTo_le h.bound, hok.notify (le_sendTo _) (Nat.le_refl _)⟩
  | notifyNonRt =>
    cases hstep
    exact ⟨h.bound, hok.notify (Nat.le_refl _) (Nat.le_succ _)⟩
  | wait =>
    simp only [XenomaiCondVar.step] at hstep
    split at hstep <;> cases hstep
    exact ⟨h.bound, by simp [WaiterOk]⟩
  | poll =>
    simp only [XenomaiCondVar.step] at hstep
    split at hstep <;> cases hstep
    rename_i hw
    refine ⟨h.bound, ?_⟩
    simp only [WaiterOk, hw.1] at hok
    by_cases hrt : 0 < s.rtPending
    · simp only [WaiterOk, hrt, decide_true, decide_eq_true_eq, imp_self, and_true, hok.1]
    · have hnonRt : 0 < s.nonRtPending := by omega
      simp [WaiterOk, hrt, hnonRt, hok.1]
  | pollInterrupted =>
    simp only [XenomaiCondVar.step] at hstep
    split at hstep <;> cases hstep
    rename_i hw
    simp only [WaiterOk, hw.1] at hok
    have howed : s.owed ≠ true := fun ho => by have := hok.2 ho; omega
    exact ⟨h.bound, by simp [WaiterOk, hok.1, howed]⟩
  | read =>
    simp only [XenomaiCondVar.step] at hstep
    split at hstep
    · rename_i nonRt len hw
      cases hstep
      simp only [WaiterOk, hw] at hok
      obtain ⟨rfl, hconsumed, hrt, hnonRt⟩ := hok
      simp only [readRt_pending hrt h.bound]
      refine ⟨Nat.zero_le _, ?_⟩
      cases nonRt with
      | false =>
        -- the threshold of `wait` is two bytes
        have hlone : s.rtPending ≠ 1 := fun h₁ => hl ⟨rfl, ⟨0, hw⟩, h₁⟩
        simp only [WaiterOk, hconsumed]
        omega
      | true =>
        simp only [WaiterOk, hconsumed]
        exact ⟨by omega, hnonRt rfl⟩
    · rename_i len hw
      split at hstep <;> cases hstep
      simp only [WaiterOk, hw] at hok
      refine ⟨h.bound, ?_⟩
      simp only [WaiterOk, NON_RT_MSG_SIZE, hok.1]
      omega
    · cases hstep
  | ret notified =>
    simp only [XenomaiCondVar.step] at hstep
    split at hstep
    · split at hstep <;> cases hstep
      exact ⟨h.bound, trivial⟩
    · cases hstep

/-- A wait reports what it consumed, and no notification is lost, throughout a run if and only if
no wait of the run reads a single byte alone. -/
theorem reports_iff (tr : List Label) :
    Exec.Throughout step init (fun _ => Reports) tr ↔
      Exec.Steps step init (fun s l => ¬ ReadsLoneByte s l) tr := by
  refine Exec.throughout_iff (I := fun _ => Inv) (B := ReadsLoneByte) init_inv ?_ ?_ ?_
    Exec.steps_true
  · rintro tr s l t h - hl hstep
    exact h.step hl hstep
  · intro tr s h
    exact h.reports
  · rintro tr s l t h - ⟨rfl, ⟨len, hw⟩, hrt⟩ hstep hreports
    -- one byte consumed, and one is not more than one
    have hok := h.waiterOk
    simp only [WaiterOk, hw] at hok
    simp only [step, hw, readRt_pending (Nat.lt_of_lt_of_eq Nat.one_pos hrt.symm) h.bound,
      Option.some.injEq] at hstep
    subst hstep
    have hresult := (hreports.result false (by simp [State.result, hok.1, hrt])).mpr
    simp [hrt] at hresult

/-- A realtime thread notifies once, and the wait that it ends is to return false. -/
theorem lone_byte_is_not_reported :
    ¬ Exec.Throughout step init (fun _ => Reports) [.notifyRt, .wait, .poll, .read] := by
  intro h
  have hreports := h [.notifyRt, .wait, .poll, .read] [] ⟨0, 0, .draining false false 1, 1, true⟩
    rfl (by decide)
  exact absurd (hreports.next false (by decide) rfl) (by decide)

end Twine.XenomaiCondVar
