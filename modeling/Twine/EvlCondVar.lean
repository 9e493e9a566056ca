import Mathlib.Data.List.Basic

/-!
# The wait of the EVL condition variable

A thread in-band polls its buffer with a timeout before it issues the read,
which blocks even when the buffer is closed. A call of `wait` is given by the
outcomes of its polls, of which there may be any number, and by what its read
returns.
-/
namespace Twine.EvlCondVar

abbrev Events := BitVec 16

def POLLIN : Events := 0x001
def POLLERR : Events := 0x008
def POLLHUP : Events := 0x010
def POLLNVAL : Events := 0x020

/-- What `poll` returns for one descriptor, and the events that it reports. -/
structure PollOutcome where
  res : Nat
  revents : Events
  ready : revents ≠ 0 ↔ 0 < res

def PollOutcome.timeout : PollOutcome := ⟨0, 0, by decide⟩

/-- What a call has done once it has seen the outcomes: its polls, the outcome after which it
issued the read, and the value that it returned, if it is not polling still. -/
structure Call where
  polls : Nat
  readAfter : Option PollOutcome
  returned : Option Bool

/-- The loop around `poll`, whose tests join the flags with `|`. -/
def pollLoop (read : Int) : List PollOutcome → Call
  | [] => ⟨0, none, none⟩
  | fd :: outcomes =>
    if 0 < fd.res ∧ fd.revents ||| POLLIN ≠ 0 then ⟨1, some fd, some (0 < read)⟩
    else if fd.revents ||| (POLLERR ||| POLLHUP ||| POLLNVAL) ≠ 0 then ⟨1, none, some false⟩
    else
      let call := pollLoop read outcomes
      { call with polls := 1 + call.polls }

/-- Out-of-band the read comes without a poll. -/
def wait (inband : Bool) (read : Int) (outcomes : List PollOutcome) : Call :=
  if inband then pollLoop read outcomes else ⟨0, none, some (0 < read)⟩

/-! ## What the loop is for -/

/-- One of the flags is among the events. -/
def Events.has (revents flags : Events) : Prop := revents &&& flags ≠ 0

instance (revents flags : Events) : Decidable (revents.has flags) := by
  unfold Events.has
  infer_instance

def PollOutcome.TimedOut (fd : PollOutcome) : Prop := fd.res = 0

instance (fd : PollOutcome) : Decidable fd.TimedOut := by
  unfold PollOutcome.TimedOut
  infer_instance

/-- The call waits for data or for an error of the descriptor. -/
structure Conforms (read : Int) (outcomes : List PollOutcome) (call : Call) : Prop where
  /-- After a timeout comes the next poll. -/
  timeouts : ∀ i fd, outcomes[i]? = some fd → i < call.polls → fd.TimedOut →
    i + 1 < call.polls ∨ i + 1 = outcomes.length ∧ call.returned = none
  reads : ∀ fd, call.readAfter = some fd → fd.revents.has POLLIN
  returnsTrue : call.returned = some true ↔
    ∃ fd, call.readAfter = some fd ∧ fd.revents.has POLLIN ∧ 0 < read
  returnsFalse : (call.returned = some false ∧ call.readAfter = none) ↔
    ∃ fd, outcomes.find? (fun fd => ¬ fd.TimedOut) = some fd ∧
      fd.revents.has (POLLERR ||| POLLHUP ||| POLLNVAL) ∧ ¬ fd.revents.has POLLIN

/-! ## What the loop does -/

/-- Flags that are joined with `|` are there whatever is reported. -/
theorem or_flags_ne_zero (revents : Events) {flags : Events} (h : flags ≠ 0) :
    revents ||| flags ≠ 0 := by
  intro hor
  exact h (BitVec.or_eq_zero_iff.mp hor).2

theorem wait_inband (read : Int) (outcomes : List PollOutcome) :
    wait true read outcomes = pollLoop read outcomes := rfl

/-- The loop ends with its first poll. -/
theorem pollLoop_cons (read : Int) (fd : PollOutcome) (outcomes : List PollOutcome) :
    pollLoop read (fd :: outcomes) =
      if fd.TimedOut then ⟨1, none, some false⟩ else ⟨1, some fd, some (decide (0 < read))⟩ := by
  have hin : fd.revents ||| POLLIN ≠ 0 := or_flags_ne_zero _ (by decide)
  have herr : fd.revents ||| (POLLERR ||| POLLHUP ||| POLLNVAL) ≠ 0 :=
    or_flags_ne_zero _ (by decide)
  by_cases ht : fd.TimedOut
  · have hres : ¬ 0 < fd.res := Nat.not_lt.mpr (Nat.le_of_eq ht)
    simp only [pollLoop, hres, false_and, if_false, if_pos herr, if_pos ht]
  · have hres : 0 < fd.res := Nat.pos_of_ne_zero ht
    simp only [pollLoop, hres, true_and, if_pos hin, if_neg ht]

/-- What is reported comes from a poll that did not time out. -/
theorem Events.has.not_timedOut {fd : PollOutcome} {flags : Events} (h : fd.revents.has flags) :
    ¬ fd.TimedOut := by
  intro ht
  have hzero : fd.revents = 0 := by
    by_contra hne
    exact absurd (fd.ready.mp hne) (Nat.not_lt.mpr (Nat.le_of_eq ht))
  simp [Events.has, hzero] at h

theorem conforms_nil (read : Int) : Conforms read [] (wait true read []) := by
  constructor <;> simp [wait, pollLoop]

/-- The first poll reports data. -/
theorem conforms_of_data (read : Int) {fd : PollOutcome} (outcomes : List PollOutcome)
    (hin : fd.revents.has POLLIN) :
    Conforms read (fd :: outcomes) (wait true read (fd :: outcomes)) := by
  have ht := hin.not_timedOut
  rw [wait_inband, pollLoop_cons, if_neg ht]
  constructor
  case timeouts =>
    intro i fd' hi hlt ht'
    obtain rfl : i = 0 := Nat.lt_one_iff.mp hlt
    obtain rfl : fd = fd' := by simpa using hi
    exact absurd ht' ht
  case reads =>
    intro fd' he
    cases he
    exact hin
  case returnsTrue => simp [hin]
  case returnsFalse => simp [ht, hin]

/-- The call conforms if and only if its first poll, if there is one, reports data. -/
theorem conforms_iff (read : Int) (outcomes : List PollOutcome) :
    Conforms read outcomes (wait true read outcomes) ↔
      ∀ fd, outcomes.head? = some fd → fd.revents.has POLLIN := by
  cases outcomes with
  | nil => simp [conforms_nil]
  | cons fd outcomes =>
    constructor
    · intro h fd' hfd
      cases hfd
      by_cases ht : fd.TimedOut
      · -- it returns because of a timeout
        have hagain := h.timeouts 0 fd rfl
        simp [wait_inband, pollLoop_cons, ht] at hagain
      · exact h.reads fd (by simp [wait_inband, pollLoop_cons, ht])
    · intro h
      exact conforms_of_data read outcomes (h fd rfl)

/-- One second without a notification ends the wait. -/
theorem timeout_ends_wait : ¬ Conforms 1 [.timeout] (wait true 1 [.timeout]) := by
  intro h
  have hagain := h.timeouts 0 .timeout rfl (by decide) rfl
  exact absurd hagain (by decide)

end Twine.EvlCondVar
