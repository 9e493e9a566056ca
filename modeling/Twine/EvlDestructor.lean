import Twine.Exec

/-!
# The destruction of an EVL condition variable under its waiter

One thread is in `wait`, another one destroys the object. The clock counts
milliseconds. A read that blocks goes on blocking when its descriptor is closed;
a `poll` returns after its timeout, and at once on a closed descriptor, as does a
read. The loop of the destructor stops when the waiter is out or the retries are
used up.
-/
namespace Twine.EvlDestructor

open Exec (Throughout Steps)

def EVL_COND_VAR_WAIT_TIMEOUT : Nat := 1000
def EVL_SHUTDOWN_RETRIES : Nat := 10

/-- The sleep between two tests of the destructor. -/
def retryTime : Nat := EVL_COND_VAR_WAIT_TIMEOUT / (EVL_SHUTDOWN_RETRIES / 2)

/-- Where the waiter is in `wait`. -/
inductive Waiter where
  /-- Before the store to `_is_waiting`. -/
  | entering
  | oobRead
  /-- In `oob_read`, on an empty buffer. -/
  | oobBlocked
  | polling
  /-- In `poll`, with the time that is left. -/
  | polled (left : Nat)
  /-- In-band, before the read. -/
  | reading
  /-- Before `_is_waiting` is cleared. -/
  | leaving
  | outside
  deriving DecidableEq, Repr

inductive Destructor where
  | notCalled
  /-- `_xbuf_to_rt` is closed. -/
  | closing
  /-- Before the test of the loop. -/
  | testing (retries : Nat)
  | sleeping (retries left : Nat)
  | returned
  deriving DecidableEq, Repr

def Destructor.rtClosed : Destructor → Bool
  | .notCalled => false
  | _ => true

def Destructor.nonRtClosed : Destructor → Bool
  | .notCalled | .closing => false
  | _ => true

/-- The buffers are given by the number of messages in them. -/
structure State where
  waiter : Waiter
  isWaiting : Bool
  toRt : Nat
  toNonRt : Nat
  destructor : Destructor
  deriving DecidableEq, Repr

/-- `wait` has been called. -/
def init : State := ⟨.entering, false, 0, 0, .notCalled⟩

/-- The next step of the waiter, none where it is blocked or out. -/
def waitStep (inband : Bool) (s : State) : Option State :=
  match s.waiter with
  | .entering => some { s with isWaiting := true, waiter := if inband then .polling else .oobRead }
  | .oobRead =>
    if s.destructor.rtClosed then some { s with waiter := .leaving }
    else if 0 < s.toRt then some { s with toRt := s.toRt - 1, waiter := .leaving }
    else some { s with waiter := .oobBlocked }
  | .oobBlocked =>
    if 0 < s.toRt then some { s with toRt := s.toRt - 1, waiter := .leaving } else none
  | .polling =>
    if s.destructor.nonRtClosed ∨ 0 < s.toNonRt then some { s with waiter := .reading }
    else some { s with waiter := .polled EVL_COND_VAR_WAIT_TIMEOUT }
  | .polled left =>
    if 0 < s.toNonRt then some { s with waiter := .reading }
    -- the test for errors is also passed after a timeout
    else if left = 0 then some { s with waiter := .leaving }
    else none
  | .reading =>
    if s.destructor.nonRtClosed then some { s with waiter := .leaving }
    else if 0 < s.toNonRt then some { s with toNonRt := s.toNonRt - 1, waiter := .leaving }
    else none
  | .leaving => some { s with isWaiting := false, waiter := .outside }
  | .outside => none

inductive Label where
  | wait
  /-- `notify`, from a thread that is in-band, and from one that is not. -/
  | notifyRt | notifyNonRt
  /-- The destructor is called and closes the first buffer. -/
  | destroy
  | close
  | test
  | wake
  | elapse (ms : Nat)
  deriving DecidableEq, Repr

def Waiter.elapse (ms : Nat) : Waiter → Waiter
  | .polled left => .polled (left - ms)
  | w => w

def Destructor.elapse (ms : Nat) : Destructor → Destructor
  | .sleeping retries left => .sleeping retries (left - ms)
  | d => d

def step (inband : Bool) (s : State) : Label → Option State
  | .wait => waitStep inband s
  | .notifyRt => if s.destructor.rtClosed then none else some { s with toRt := s.toRt + 1 }
  | .notifyNonRt => if s.destructor.nonRtClosed then none else some { s with toNonRt := s.toNonRt + 1 }
  | .destroy => if s.destructor = .notCalled then some { s with destructor := .closing } else none
  | .close =>
    if s.destructor = .closing then some { s with destructor := .testing EVL_SHUTDOWN_RETRIES }
    else none
  | .test =>
    match s.destructor with
    | .testing retries =>
      if s.isWaiting = true ∧ 0 < retries then
        some { s with destructor := .sleeping (retries - 1) retryTime }
      else some { s with destructor := .returned }
    | _ => none
  | .wake =>
    match s.destructor with
    | .sleeping retries 0 => some { s with destructor := .testing retries }
    | _ => none
  | .elapse ms =>
    some { s with waiter := s.waiter.elapse ms, destructor := s.destructor.elapse ms }

/-- The destructor does not return before the waiter is out. -/
def Safe (s : State) : Prop :=
  s.destructor = .returned → s.waiter = .outside ∧ s.isWaiting = false

/-- When the destructor tests again after a sleep the waiter has run as far as it could. No
bounded number of sleeps is enough for a waiter that is not scheduled. -/
def Prompt (inband : Bool) (s : State) (l : Label) : Prop :=
  l = .test → s.destructor ≠ .testing EVL_SHUTDOWN_RETRIES → waitStep inband s = none

instance (inband : Bool) (s : State) (l : Label) : Decidable (Prompt inband s l) := by
  unfold Prompt
  infer_instance

/-- The destructor closes a buffer on which the waiter is blocked. -/
def ClosesUnderRead (s : State) (l : Label) : Prop :=
  l = .destroy ∧ s.waiter = .oobBlocked ∧ s.toRt = 0

/-- The destructor tests `_is_waiting` before the waiter has set it. -/
def TestsEarly (s : State) (l : Label) : Prop := l = .test ∧ s.waiter = .entering

/-! ## What a step does -/

/-- The steps of the waiter. -/
inductive Move (inband : Bool) (s : State) : State → Prop where
  | enter : s.waiter = .entering →
      Move inband s { s with isWaiting := true, waiter := if inband then .polling else .oobRead }
  | block : s.waiter = .oobRead → s.destructor.rtClosed = false →
      Move inband s { s with waiter := .oobBlocked }
  | poll : s.waiter = .polling → s.destructor.nonRtClosed = false →
      Move inband s { s with waiter := .polled EVL_COND_VAR_WAIT_TIMEOUT }
  | ready : s.waiter ≠ .entering → s.waiter ≠ .outside →
      s.destructor.nonRtClosed = true ∨ 0 < s.toNonRt → Move inband s { s with waiter := .reading }
  | finish (toRt toNonRt : Nat) : s.waiter ≠ .entering → s.waiter ≠ .outside →
      Move inband s { s with toRt := toRt, toNonRt := toNonRt, waiter := .leaving }
  | leave : s.waiter = .leaving → Move inband s { s with isWaiting := false, waiter := .outside }

theorem wait_move {inband : Bool} {s t : State} (h : waitStep inband s = some t) :
    Move inband s t := by
  cases hw : s.waiter <;> simp only [waitStep, hw] at h
  case entering =>
    cases h
    exact .enter hw
  case oobRead =>
    split at h
    · cases h
      exact .finish s.toRt s.toNonRt (by simp [hw]) (by simp [hw])
    · rename_i hopen
      split at h <;> cases h
      · exact .finish _ s.toNonRt (by simp [hw]) (by simp [hw])
      · exact .block hw (by simpa using hopen)
  case oobBlocked =>
    split at h <;> cases h
    exact .finish _ s.toNonRt (by simp [hw]) (by simp [hw])
  case polling =>
    split at h <;> cases h
    · exact .ready (by simp [hw]) (by simp [hw]) (by assumption)
    · rename_i hnot
      exact .poll hw (by simp_all)
  case polled left =>
    split at h
    · cases h
      exact .ready (by simp [hw]) (by simp [hw]) (.inr (by assumption))
    · split at h <;> cases h
      exact .finish s.toRt s.toNonRt (by simp [hw]) (by simp [hw])
  case reading =>
    split at h
    · cases h
      exact .finish s.toRt s.toNonRt (by simp [hw]) (by simp [hw])
    · split at h <;> cases h
      exact .finish s.toRt _ (by simp [hw]) (by simp [hw])
  case leaving =>
    cases h
    exact .leave hw
  case outside => cases h

/-- Where the waiter has no step. -/
theorem wait_none {inband : Bool} {s : State} (h : waitStep inband s = none) :
    s.waiter = .outside ∨ (∃ left, s.waiter = .polled left ∧ 0 < left) ∨
      (s.waiter = .oobBlocked ∧ s.toRt = 0) ∨
      (s.waiter = .reading ∧ s.destructor.nonRtClosed = false ∧ s.toNonRt = 0) := by
  cases hw : s.waiter <;> simp only [waitStep, hw] at h
  case outside => exact .inl rfl
  case oobBlocked =>
    split at h <;> cases h
    exact .inr (.inr (.inl ⟨rfl, by omega⟩))
  case polled left =>
    split at h
    · cases h
    · split at h <;> cases h
      exact .inr (.inl ⟨left, rfl, by omega⟩)
  case reading =>
    split at h
    · cases h
    · rename_i hopen
      split at h <;> cases h
      exact .inr (.inr (.inr ⟨rfl, by simpa using hopen, by omega⟩))
  all_goals
    repeat' split at h
    all_goals cases h

/-- The steps that are not the waiter's. -/
inductive Other (s : State) : Label → State → Prop where
  | notifyRt : Other s .notifyRt { s with toRt := s.toRt + 1 }
  | notifyNonRt : Other s .notifyNonRt { s with toNonRt := s.toNonRt + 1 }
  | destroy : s.destructor = .notCalled → Other s .destroy { s with destructor := .closing }
  | close : s.destructor = .closing →
      Other s .close { s with destructor := .testing EVL_SHUTDOWN_RETRIES }
  | again {retries : Nat} : s.destructor = .testing retries → s.isWaiting = true → 0 < retries →
      Other s .test { s with destructor := .sleeping (retries - 1) retryTime }
  | give_up {retries : Nat} : s.destructor = .testing retries →
      (s.isWaiting = true → retries = 0) → Other s .test { s with destructor := .returned }
  | wake {retries : Nat} : s.destructor = .sleeping retries 0 →
      Other s .wake { s with destructor := .testing retries }
  | elapse (ms : Nat) : Other s (.elapse ms)
      { s with waiter := s.waiter.elapse ms, destructor := s.destructor.elapse ms }

theorem step_other {inband : Bool} {s t : State} {l : Label} (hl : l ≠ .wait)
    (h : step inband s l = some t) : Other s l t := by
  cases l <;> simp only [step] at h
  case wait => exact absurd rfl hl
  case notifyRt =>
    split at h <;> cases h
    exact .notifyRt
  case notifyNonRt =>
    split at h <;> cases h
    exact .notifyNonRt
  case destroy =>
    split at h <;> cases h
    exact .destroy (by assumption)
  case close =>
    split at h <;> cases h
    exact .close (by assumption)
  case test =>
    split at h
    · split at h <;> cases h
      · rename_i hd hwait
        exact .again hd hwait.1 hwait.2
      · rename_i hd hwait
        exact .give_up hd fun hw => by simpa [hw] using hwait
    · cases h
  case wake =>
    split at h <;> cases h
    exact .wake (by assumption)
  case elapse ms =>
    cases h
    exact .elapse ms

/-! ## The flag -/

/-- `_is_waiting` is set from the first to the last step of the waiter. -/
def Flag (s : State) : Prop := s.isWaiting = false ↔ s.waiter = .entering ∨ s.waiter = .outside

theorem elapse_eq {w w' : Waiter} {ms : Nat} (h : ∀ left, w' ≠ .polled left) :
    w.elapse ms = w' ↔ w = w' := by
  cases w with
  | polled left => simp [Waiter.elapse, (h _).symm]
  | _ => rfl

theorem elapse_polled {w : Waiter} {ms time : Nat} (h : w.elapse ms = .polled time) :
    ∃ left, w = .polled left ∧ time = left - ms := by
  cases w with
  | polled left =>
    cases h
    exact ⟨left, rfl, rfl⟩
  | _ => cases h

theorem Flag.step {inband : Bool} {s t : State} {l : Label} (h : Flag s)
    (hstep : step inband s l = some t) : Flag t := by
  by_cases hl : l = .wait
  · subst hl
    cases wait_move hstep with
    | enter hw =>
      simp only [Flag]
      split <;> simp
    | block hw | poll hw =>
      simp only [Flag, hw] at h ⊢
      simpa using h
    | ready hin hout | finish _ _ hin hout =>
      simp only [Flag, hin, hout, or_self, iff_false] at h ⊢
      simpa using h
    | leave => simp [Flag]
  · cases step_other hl hstep with
    | elapse ms =>
      simp only [Flag] at h ⊢
      rw [h, elapse_eq (by simp), elapse_eq (by simp)]
    | _ => exact h

/-! ## The time that is left -/

/-- What holds of the waiter at each point of the destructor. -/
def Destructor.Allows (w : Waiter) : Destructor → Prop
  | .notCalled | .closing => True
  | .testing retries =>
    retries = EVL_SHUTDOWN_RETRIES ∨
      w ≠ .entering ∧ ∀ time, w = .polled time → time ≤ retries * retryTime
  | .sleeping retries left =>
    w ≠ .entering ∧ ∀ time, w = .polled time → time ≤ left + retries * retryTime
  | .returned => w = .outside

structure Inv (s : State) : Prop where
  flag : Flag s
  timeout : ∀ time, s.waiter = .polled time → time ≤ EVL_COND_VAR_WAIT_TIMEOUT
  reading : s.waiter = .reading → s.destructor.nonRtClosed = true ∨ 0 < s.toNonRt
  blocked : s.waiter = .oobBlocked → s.destructor.rtClosed = true → 0 < s.toRt
  allows : s.destructor.Allows s.waiter

theorem init_inv : Inv init :=
  ⟨by simp [Flag, init], by simp [init], by simp [init], by simp [init], trivial⟩

/-- The waiter goes on, and begins a `poll` only before its buffer is closed. -/
theorem Destructor.Allows.move {d : Destructor} {w w' : Waiter} (h : d.Allows w)
    (hin : w ≠ .outside) (hentered : w' ≠ .entering)
    (hpolled : ∀ time, w' = .polled time → d.nonRtClosed = false) : d.Allows w' := by
  cases d with
  | notCalled | closing => trivial
  | testing => exact .inr ⟨hentered, fun time ht => by cases hpolled time ht⟩
  | sleeping => exact ⟨hentered, fun time ht => by cases hpolled time ht⟩
  | returned => exact absurd h hin

/-- What is left of a poll falls with the clock. -/
theorem polled_elapse_le {w : Waiter} {ms bound bound' : Nat} (hbound : bound - ms ≤ bound')
    (h : ∀ time, w = .polled time → time ≤ bound) :
    ∀ time, w.elapse ms = .polled time → time ≤ bound' := by
  intro time ht
  obtain ⟨left, hw, rfl⟩ := elapse_polled ht
  have hleft := h left hw
  omega

theorem Destructor.Allows.elapse {d : Destructor} {w : Waiter} (h : d.Allows w) (ms : Nat) :
    (d.elapse ms).Allows (w.elapse ms) := by
  have hentered : w.elapse ms = .entering ↔ w = .entering := elapse_eq (by simp)
  cases d with
  | notCalled | closing => trivial
  | testing retries =>
    exact h.imp_right fun ⟨hin, htime⟩ =>
      ⟨mt hentered.mp hin, polled_elapse_le (Nat.sub_le _ _) htime⟩
  | sleeping retries left =>
    obtain ⟨hin, htime⟩ := h
    refine ⟨mt hentered.mp hin, polled_elapse_le ?_ htime⟩
    omega
  | returned => exact (elapse_eq (by simp)).mpr h

theorem elapse_rtClosed (d : Destructor) (ms : Nat) : (d.elapse ms).rtClosed = d.rtClosed := by
  cases d <;> rfl

theorem elapse_nonRtClosed (d : Destructor) (ms : Nat) :
    (d.elapse ms).nonRtClosed = d.nonRtClosed := by
  cases d <;> rfl

section Inv

variable {inband : Bool} {s t : State} {l : Label}

theorem Inv.safe (h : Inv s) : Safe s := by
  intro hd
  have hout := h.allows
  rw [hd] at hout
  exact ⟨hout, h.flag.mpr (.inr hout)⟩

theorem Inv.wait (h : Inv s) (hstep : step inband s .wait = some t) : Inv t := by
  have hflag := h.flag.step hstep
  have hallows := h.allows
  cases wait_move hstep with
  | enter hw =>
    rw [hw] at hallows
    cases inband <;> exact ⟨hflag, by simp, by simp, by simp, hallows.move (by simp) (by simp) (by simp)⟩
  | block hw hopen =>
    rw [hw] at hallows
    refine ⟨hflag, by simp, by simp, fun _ hclosed => ?_, hallows.move (by simp) (by simp) (by simp)⟩
    cases hopen.symm.trans hclosed
  | poll hw hopen =>
    rw [hw] at hallows
    refine ⟨hflag, by simp, by simp, by simp, hallows.move (by simp) (by simp) fun _ _ => hopen⟩
  | ready hin hout hready =>
    exact ⟨hflag, by simp, fun _ => hready, by simp, hallows.move hout (by simp) (by simp)⟩
  | finish toRt toNonRt hin hout =>
    exact ⟨hflag, by simp, by simp, by simp, hallows.move hout (by simp) (by simp)⟩
  | leave hw =>
    rw [hw] at hallows
    exact ⟨hflag, by simp, by simp, by simp, hallows.move (by simp) (by simp) (by simp)⟩

theorem Inv.test (h : Inv s) (hp : Prompt inband s .test) (hearly : s.waiter ≠ .entering)
    (hstep : step inband s .test = some t) : Inv t := by
  have hflag := h.flag.step hstep
  have hallows := h.allows
  cases step_other (by simp) hstep with
  | @again retries hd hwait hpos =>
    rw [hd] at hallows
    have hclosed : s.destructor.rtClosed = true := by rw [hd]; rfl
    refine ⟨hflag, h.timeout, fun _ => .inl rfl, fun hw _ => h.blocked hw hclosed, hearly, ?_⟩
    intro time ht
    have htime := h.timeout time ht
    rcases hallows with rfl | ⟨-, hleft⟩
    · -- the sleeps take longer than the timeout
      exact Nat.le_trans htime (by decide)
    · have := hleft time ht
      simp only [show retryTime = 200 from rfl] at this ⊢
      omega
  | @give_up retries hd hzero =>
    rw [hd] at hallows
    have hout : s.waiter = .outside := by
      cases hwait : s.isWaiting with
      | false => exact (h.flag.mp hwait).resolve_left hearly
      | true =>
        -- after the last sleep nothing is left of the timeout
        obtain rfl := hzero hwait
        rcases wait_none (hp rfl (by simp [hd, EVL_SHUTDOWN_RETRIES])) with
          hout | ⟨left, hw, hpos⟩ | ⟨hw, hempty⟩ | ⟨-, hopen, -⟩
        · exact hout
        · rcases hallows with hfirst | ⟨-, hleft⟩
          · cases hfirst
          · have := hleft left hw
            omega
        · have := h.blocked hw (by rw [hd]; rfl)
          omega
        · rw [hd] at hopen
          cases hopen
    have hin : ∀ w, w ≠ .outside → s.waiter ≠ w := fun w hne he => hne (he ▸ hout)
    exact ⟨hflag, h.timeout, fun hw => absurd hw (hin _ (by simp)),
      fun hw => absurd hw (hin _ (by simp)), hout⟩

theorem Inv.step (h : Inv s) (hp : Prompt inband s l) (hl : ¬ (ClosesUnderRead s l ∨ TestsEarly s l))
    (hstep : step inband s l = some t) : Inv t := by
  by_cases hwait : l = .wait
  · subst hwait
    exact h.wait hstep
  by_cases htest : l = .test
  · subst htest
    exact h.test hp (fun hw => hl (.inr ⟨rfl, hw⟩)) hstep
  have hflag := h.flag.step hstep
  have hallows := h.allows
  cases step_other hwait hstep with
  | notifyRt => exact ⟨hflag, h.timeout, h.reading, fun _ _ => Nat.succ_pos _, h.allows⟩
  | notifyNonRt => exact ⟨hflag, h.timeout, fun _ => .inr (Nat.succ_pos _), h.blocked, h.allows⟩
  | destroy hd =>
    refine ⟨hflag, h.timeout, fun hw => ?_, fun hw _ => ?_, trivial⟩
    · have := h.reading hw
      rwa [hd] at this
    · exact Nat.pos_of_ne_zero fun hzero => hl (.inl ⟨rfl, hw, hzero⟩)
  | close hd =>
    refine ⟨hflag, h.timeout, fun _ => .inl rfl, fun hw _ => h.blocked hw ?_, .inl rfl⟩
    rw [hd]
    rfl
  | again | give_up => exact absurd rfl htest
  | wake hd =>
    rw [hd] at hallows
    refine ⟨hflag, h.timeout, fun _ => .inl rfl, fun hw _ => h.blocked hw ?_, .inr ?_⟩
    · rw [hd]
      rfl
    · simpa [Destructor.Allows] using hallows
  | elapse ms =>
    refine ⟨hflag, polled_elapse_le (Nat.sub_le _ _) h.timeout, ?_, ?_, h.allows.elapse ms⟩
    · intro hw
      rw [elapse_nonRtClosed]
      exact h.reading ((elapse_eq (by simp)).mp hw)
    · intro hw hclosed
      rw [elapse_rtClosed] at hclosed
      exact h.blocked ((elapse_eq (by simp)).mp hw) hclosed

end Inv

/-! ## When the waiter is left behind -/

/-- Nothing unblocks the waiter any more. -/
structure Stuck (s : State) : Prop where
  waiter : s.waiter = .oobBlocked
  empty : s.toRt = 0
  closed : s.destructor.rtClosed = true

theorem Stuck.step {inband : Bool} {s t : State} {l : Label} (h : Stuck s)
    (hstep : step inband s l = some t) : Stuck t := by
  by_cases hl : l = .wait
  · subst hl
    have hnone : waitStep inband s = none := by simp [waitStep, h.waiter, h.empty]
    rw [EvlDestructor.step, hnone] at hstep
    cases hstep
  · have hclosed := h.closed
    cases step_other hl hstep with
    | notifyRt => simp [EvlDestructor.step, hclosed] at hstep
    | elapse ms =>
      refine ⟨(elapse_eq (by simp)).mpr h.waiter, h.empty, ?_⟩
      rw [elapse_rtClosed]
      exact hclosed
    | _ => exact ⟨h.waiter, h.empty, by first | rfl | exact hclosed⟩

theorem stuck_of_closes {inband : Bool} {s t : State} {l : Label} (h : ClosesUnderRead s l)
    (hstep : step inband s l = some t) : Stuck t := by
  obtain ⟨rfl, hw, hempty⟩ := h
  cases step_other (by simp) hstep with
  | destroy => exact ⟨hw, hempty, rfl⟩

theorem Stuck.unsafe {s : State} (h : Stuck s) (hret : s.destructor = .returned) : ¬ Safe s := by
  intro hsafe
  cases h.waiter.symm.trans (hsafe hret).1

theorem unsafe_of_testsEarly {inband : Bool} {s t : State} {l : Label} (h : TestsEarly s l)
    (hflag : Flag s) (hstep : step inband s l = some t) : ¬ Safe t := by
  obtain ⟨rfl, hw⟩ := h
  have hwait : s.isWaiting = false := hflag.mpr (.inl hw)
  intro hsafe
  cases step_other (by simp) hstep with
  | again _ hset => cases hwait.symm.trans hset
  | give_up => cases hw.symm.trans (hsafe rfl).1

section Runs

variable {inband : Bool} {tr : List Label} {s : State}

/-- Under a prompt scheduling no run is unsafe but those that close the buffer under a blocked
read or test the flag before it is set. -/
theorem safe_of_steps (hprompt : Steps (step inband) init (Prompt inband) tr)
    (h : Steps (step inband) init (fun s l => ¬ (ClosesUnderRead s l ∨ TestsEarly s l)) tr) :
    Throughout (step inband) init (fun _ s => Safe s) tr := by
  have hinv : Throughout (step inband) init (fun _ s => Inv s) tr := by
    refine Exec.throughout_of_steps init_inv fun pre l post s t he hs hi hstep => ?_
    exact hi.step (hprompt pre l post s t he hs hstep) (h pre l post s t he hs hstep) hstep
  exact hinv.mono fun _ _ hi => hi.safe

/-- A waiter in-band does not issue the read out-of-band. -/
theorem inband_polls (tr : List Label) :
    Throughout (step true) init
      (fun _ s => s.waiter ≠ .oobRead ∧ s.waiter ≠ .oobBlocked) tr := by
  refine Exec.throughout_of_steps (by simp [init]) ?_
  rintro pre l post s t - - ⟨hread, hblocked⟩ hstep
  by_cases hl : l = .wait
  · subst hl
    cases wait_move hstep with
    | block hw => exact absurd hw hread
    | _ => simp
  · cases step_other hl hstep with
    | elapse ms =>
      rw [ne_eq, ne_eq, elapse_eq (by simp), elapse_eq (by simp)]
      exact ⟨hread, hblocked⟩
    | _ => exact ⟨hread, hblocked⟩

/-- The timeout of the poll is over before the retries are. -/
theorem inband_safe (hprompt : Steps (step true) init (Prompt true) tr)
    (h : Steps (step true) init (fun s l => ¬ TestsEarly s l) tr) :
    Throughout (step true) init (fun _ s => Safe s) tr := by
  refine safe_of_steps hprompt fun pre l post s t he hs hstep hbad => ?_
  rcases hbad with ⟨-, hblocked, -⟩ | hearly
  · exact (inband_polls tr pre (l :: post) s he hs).2 hblocked
  · exact h pre l post s t he hs hstep hearly

/-- A run that is safe throughout, and in which the destructor has returned, has not closed the
buffer under a blocked read nor tested the flag before it was set. -/
theorem steps_of_safe (hrun : Exec.run (step inband) init tr = some s)
    (hret : s.destructor = .returned)
    (hsafe : Throughout (step inband) init (fun _ s => Safe s) tr) :
    Steps (step inband) init (fun s l => ¬ (ClosesUnderRead s l ∨ TestsEarly s l)) tr := by
  have hflag : Throughout (step inband) init (fun _ s => Flag s) tr :=
    Exec.throughout_of_steps (by simp [Flag, init]) fun _ _ _ _ _ _ _ hf hstep => hf.step hstep
  rintro pre l post u v rfl hu hstep (hcloses | hearly)
  · obtain ⟨u', hu', hpost⟩ := Exec.run_split hrun
    obtain rfl : u = u' := Option.some.inj (hu.symm.trans hu')
    obtain ⟨v', hv', hpost⟩ := Exec.run_cons_split hpost
    have hstuck : Stuck s := Exec.run_invariant (P := fun _ => True)
      (fun _ _ _ hi _ hstep => hi.step hstep) (stuck_of_closes hcloses hv') (by simp) hpost
    exact hstuck.unsafe hret (hsafe _ [] s (by simp) hrun)
  · have hv : Exec.run (step inband) init (pre ++ [l]) = some v :=
      Exec.run_join hu (by simp [Exec.run_cons, hstep])
    exact unsafe_of_testsEarly hearly (hflag pre (l :: post) u rfl hu) hstep
      (hsafe (pre ++ [l]) post v (by simp) hv)

/-- A run with a prompt scheduling is safe if it does not close the buffer under a blocked read
and does not test the flag before it is set; when the destructor has returned from it, only
then. The promptness is sufficient, not necessary: a late waiter may still be in time. -/
theorem safe_iff (hprompt : Steps (step inband) init (Prompt inband) tr) :
    (Steps (step inband) init (fun s l => ¬ (ClosesUnderRead s l ∨ TestsEarly s l)) tr →
      Throughout (step inband) init (fun _ s => Safe s) tr) ∧
    ∀ s, Exec.run (step inband) init tr = some s → s.destructor = .returned →
      (Throughout (step inband) init (fun _ s => Safe s) tr ↔
        Steps (step inband) init (fun s l => ¬ (ClosesUnderRead s l ∨ TestsEarly s l)) tr) :=
  ⟨safe_of_steps hprompt,
    fun _ hrun hret => ⟨steps_of_safe hrun hret, safe_of_steps hprompt⟩⟩

end Runs

/-- One round of the loop of the destructor. -/
def retryRun : List Label := [.elapse 200, .wake, .test]

/-- An in-band waiter polls an empty buffer when the destructor is called. -/
def inbandRun : List Label :=
  [.wait, .wait, .destroy, .close, .test] ++ retryRun ++ retryRun ++ retryRun ++ retryRun ++
    [.elapse 200, .wait, .wait, .wake, .test]

theorem safe_iff_inband :
    Throughout (step true) init (fun _ s => Safe s) inbandRun ↔
      Steps (step true) init (fun s l => ¬ (ClosesUnderRead s l ∨ TestsEarly s l)) inbandRun := by
  obtain ⟨s, hs⟩ := Exec.guarded_of_isSome (step true) (fun _ s l => Prompt true s l) init inbandRun
    (by decide)
  exact (safe_iff hs.steps).2 ⟨.outside, false, 0, 0, .returned⟩ (by decide) rfl

/-- An out-of-band waiter is blocked in the read when the destructor is called. -/
def oobRun : List Label :=
  [.wait, .wait, .destroy, .close, .test] ++ (List.replicate EVL_SHUTDOWN_RETRIES retryRun).flatten

theorem oob_waiter_left_behind :
    Steps (step false) init (Prompt false) oobRun ∧
      ¬ Throughout (step false) init (fun _ s => Safe s) oobRun := by
  obtain ⟨s, hs⟩ := Exec.guarded_of_isSome (step false) (fun _ s l => Prompt false s l) init oobRun
    (by decide)
  refine ⟨hs.steps, fun h => ?_⟩
  have hrun : Exec.run (step false) init oobRun = some ⟨.oobBlocked, true, 0, 0, .returned⟩ := by
    decide
  cases (h oobRun [] _ (by simp) hrun rfl).1

end Twine.EvlDestructor
