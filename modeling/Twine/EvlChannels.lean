import Mathlib.Logic.Function.Basic
import Twine.Exec

/-!
# The two buffers of an EVL condition variable

A thread in-band notifies through the buffer that is read out-of-band, and the other way
round. Any number of threads notify and wait, and each of them may be in-band in one call
and out-of-band in the next. A write to a full buffer blocks, and so does a read of an empty
one, unless it is interrupted.
-/
namespace Twine.EvlChannels

def XBUF_SIZE : Nat := 1024

/-- Where a thread is in `wait`. -/
inductive Phase where
  | outside
  /-- In `poll`, in-band. -/
  | polling
  /-- In `read`, or in `oob_read`. -/
  | reading (inband : Bool)
  /-- Before the store to `_is_waiting`. -/
  | returning (inband notified : Bool)
  deriving DecidableEq, Repr

structure State (n : Nat) where
  xbufToRt : Nat
  xbufToNonrt : Nat
  isWaiting : Bool
  phase : Fin n → Phase

def init (n : Nat) : State n := ⟨0, 0, false, fun _ => .outside⟩

/-- What a thread finds when it reads in-band, and out-of-band. -/
def State.pending {n : Nat} (s : State n) : Bool → Nat
  | true => s.xbufToNonrt
  | false => s.xbufToRt

inductive Label (n : Nat) where
  | notify (inband : Bool)
  /-- `wait`, up to its test of `evl_is_inband`. -/
  | wait (i : Fin n) (inband : Bool)
  /-- `poll` reports data. -/
  | pollData (i : Fin n)
  /-- `poll` times out or is interrupted: the tests of the loop take either for an error. -/
  | pollEmpty (i : Fin n)
  | read (i : Fin n) (inband : Bool)
  /-- The read returns an error. -/
  | readFails (i : Fin n) (inband : Bool)
  | ret (i : Fin n) (inband notified : Bool)
  deriving DecidableEq

def State.goto {n : Nat} (s : State n) (i : Fin n) (phase : Phase) : State n :=
  { s with phase := Function.update s.phase i phase }

def State.write {n : Nat} (s : State n) : Bool → State n
  | true => { s with xbufToRt := s.xbufToRt + 1 }
  | false => { s with xbufToNonrt := s.xbufToNonrt + 1 }

def State.read {n : Nat} (s : State n) : Bool → State n
  | true => { s with xbufToNonrt := s.xbufToNonrt - 1 }
  | false => { s with xbufToRt := s.xbufToRt - 1 }

/-- Each step has one access to what the threads share. A thread is in `wait` from its store to
`_is_waiting` on, and the call itself is part of that step. -/
def step {n : Nat} (s : State n) : Label n → Option (State n)
  | .notify inband => if s.pending (!inband) < XBUF_SIZE then some (s.write inband) else none
  | .wait i inband =>
    if s.phase i = .outside then
      some ({ s with isWaiting := true }.goto i (if inband then .polling else .reading false))
    else none
  | .pollData i =>
    if s.phase i = .polling ∧ 0 < s.pending true then some (s.goto i (.reading true)) else none
  | .pollEmpty i =>
    if s.phase i = .polling ∧ s.pending true = 0 then some (s.goto i (.returning true false))
    else none
  | .read i inband =>
    if s.phase i = .reading inband ∧ 0 < s.pending inband then
      some ((s.read inband).goto i (.returning inband true))
    else none
  | .readFails i inband =>
    if s.phase i = .reading inband ∧ s.pending inband = 0 then
      some (s.goto i (.returning inband false))
    else none
  | .ret i inband notified =>
    if s.phase i = .returning inband notified then
      some ({ s with isWaiting := false }.goto i .outside)
    else none

abbrev run {n : Nat} : State n → List (Label n) → Option (State n) := Exec.run step

/-! ## What the labels count -/

section Counts

variable {n : Nat}

def Label.notifies (inband : Bool) (l : Label n) : Bool := l = .notify inband

/-- A message is taken, by whichever thread. -/
def Label.reads (inband : Bool) : Label n → Bool
  | .read _ inband' => inband' = inband
  | _ => false

/-- What decides that a call returns true, and that it returns false. -/
def Label.settles (i : Fin n) (inband : Bool) : Bool → Label n → Bool
  | true, l => l = .read i inband
  | false, l => l = .readFails i inband ∨ inband = true ∧ l = .pollEmpty i

/-- Every message that was written is read once or still there, by the side that it is for; a
call that returns true has read one, and one that returns false has read none. -/
structure Conserved (tr : List (Label n)) (s : State n) : Prop where
  buffers : ∀ inband,
    s.pending inband + tr.countP (Label.reads inband) = tr.countP (Label.notifies !inband)
  returns : ∀ i inband notified,
    (if s.phase i = .returning inband notified then 1 else 0) +
      tr.countP (fun l => l = .ret i inband notified) =
      tr.countP (Label.settles i inband notified)
  room : ∀ inband, s.pending inband ≤ XBUF_SIZE
  /-- The destructor does not wait for nobody. -/
  waiting : s.isWaiting = true → ∃ i, s.phase i ≠ .outside

/-! ## What a step does -/

variable {s t : State n} {l : Label n}

/-- The labels with what enables them and what they leave. -/
inductive Stepped (s : State n) : Label n → State n → Prop where
  | notify {inband} (hroom : s.pending (!inband) < XBUF_SIZE) :
    Stepped s (.notify inband) (s.write inband)
  | wait {i inband} (hphase : s.phase i = .outside) :
    Stepped s (.wait i inband)
      ({ s with isWaiting := true }.goto i (if inband then .polling else .reading false))
  | pollData {i} (hphase : s.phase i = .polling) (hpending : 0 < s.pending true) :
    Stepped s (.pollData i) (s.goto i (.reading true))
  | pollEmpty {i} (hphase : s.phase i = .polling) :
    Stepped s (.pollEmpty i) (s.goto i (.returning true false))
  | read {i inband} (hphase : s.phase i = .reading inband) (hpending : 0 < s.pending inband) :
    Stepped s (.read i inband) ((s.read inband).goto i (.returning inband true))
  | readFails {i inband} (hphase : s.phase i = .reading inband) :
    Stepped s (.readFails i inband) (s.goto i (.returning inband false))
  | ret {i inband notified} (hphase : s.phase i = .returning inband notified) :
    Stepped s (.ret i inband notified) ({ s with isWaiting := false }.goto i .outside)

theorem step_cases (h : step s l = some t) : Stepped s l t := by
  cases l with
  | notify | wait | ret =>
    simp only [step] at h
    split at h <;> cases h
    constructor
    assumption
  | pollData | pollEmpty | read | readFails =>
    simp only [step] at h
    split at h <;> cases h
    rename_i hg
    constructor
    all_goals first | exact hg.1 | exact hg.2

@[simp] theorem pending_goto (s : State n) (i : Fin n) (phase : Phase) (c : Bool) :
    (s.goto i phase).pending c = s.pending c := by
  cases c <;> rfl

@[simp] theorem pending_waiting (s : State n) (b c : Bool) :
    ({ s with isWaiting := b } : State n).pending c = s.pending c := by
  cases c <;> rfl

theorem pending_write (s : State n) (inband c : Bool) :
    (s.write inband).pending c = s.pending c + if c = !inband then 1 else 0 := by
  cases inband <;> cases c <;> rfl

theorem pending_read (s : State n) (inband c : Bool) :
    (s.read inband).pending c = s.pending c - if c = inband then 1 else 0 := by
  cases inband <;> cases c <;> rfl

@[simp] theorem phase_goto (s : State n) (i j : Fin n) (phase : Phase) :
    (s.goto i phase).phase j = if j = i then phase else s.phase j :=
  Function.update_apply _ _ _ _

@[simp] theorem phase_write (s : State n) (inband : Bool) : (s.write inband).phase = s.phase := by
  cases inband <;> rfl

@[simp] theorem phase_read (s : State n) (inband : Bool) : (s.read inband).phase = s.phase := by
  cases inband <;> rfl

theorem pending_step (h : step s l = some t) (c : Bool) :
    t.pending c + (if l.reads c then 1 else 0) =
      s.pending c + if l.notifies !c then 1 else 0 := by
  cases step_cases h with
  | @notify inband hroom =>
    rw [pending_write]
    cases inband <;> cases c <;> rfl
  | @read i inband hphase hpending =>
    rw [pending_goto, pending_read]
    by_cases hc : inband = c
    · subst hc
      simp [Label.reads, Label.notifies]
      omega
    · simp [Label.reads, Label.notifies, hc, Ne.symm hc]
  | wait | pollData | pollEmpty | readFails | ret => simp [Label.reads, Label.notifies]

theorem returns_step (h : step s l = some t) (i : Fin n) (c notified : Bool) :
    (if t.phase i = .returning c notified then 1 else 0) +
      (if decide (l = .ret i c notified) then 1 else 0) =
      (if s.phase i = .returning c notified then 1 else 0) +
        if l.settles i c notified then 1 else 0 := by
  cases step_cases h with
  | notify => cases notified <;> simp [Label.settles]
  | @wait j inband hphase =>
    by_cases hij : i = j
    · subst hij
      cases notified <;> cases inband <;> simp [Label.settles, hphase]
    · cases notified <;> simp [Label.settles, hij]
  | @pollData j hphase | @pollEmpty j hphase | @read j _ hphase | @readFails j _ hphase
  | @ret j _ _ hphase =>
    by_cases hij : i = j
    · subst hij
      cases notified <;> cases c <;> simp [Label.settles, hphase]
    · cases notified <;> simp [Label.settles, hij, Ne.symm hij]

theorem room_step (h : step s l = some t) (hroom : ∀ c, s.pending c ≤ XBUF_SIZE) (c : Bool) :
    t.pending c ≤ XBUF_SIZE := by
  have hc := hroom c
  have hpending := pending_step h c
  cases step_cases h with
  | notify hlt =>
    rw [pending_write]
    split
    · rename_i he
      exact he ▸ hlt
    · exact hc
  | _ =>
    simp only [Label.notifies] at hpending
    simp at hpending ⊢
    omega

theorem waiting_step (h : step s l = some t)
    (hwaiting : s.isWaiting = true → ∃ i, s.phase i ≠ .outside) :
    t.isWaiting = true → ∃ i, t.phase i ≠ .outside := by
  cases step_cases h with
  | @notify inband => cases inband <;> exact hwaiting
  | @wait j inband =>
    refine fun _ => ⟨j, ?_⟩
    cases inband <;> simp
  | @pollData j | @pollEmpty j | @read j | @readFails j => exact fun _ => ⟨j, by simp⟩
  | ret =>
    intro hfalse
    cases hfalse

/-! ## Any number of threads -/

/-- In every run of any number of threads no notification is lost, read twice, or read by a
thread on the side that it came from. -/
theorem channels_conserved {tr : List (Label n)} (h : run (init n) tr = some s) :
    Conserved tr s := by
  constructor
  case buffers =>
    intro inband
    have hzero : (init n).pending inband = 0 := by cases inband <;> rfl
    rw [Exec.run_conserves (fun s => s.pending inband) (Label.notifies !inband)
      (Label.reads inband) (fun s l t hstep => pending_step hstep inband) h, hzero, Nat.zero_add]
  case returns =>
    intro i inband notified
    rw [Exec.run_conserves (fun s => if s.phase i = .returning inband notified then 1 else 0)
      (Label.settles i inband notified) (fun l => l = .ret i inband notified)
      (fun s l t hstep => returns_step hstep i inband notified) h]
    exact Nat.zero_add _
  case room =>
    have hzero : ∀ c, (init n).pending c ≤ XBUF_SIZE := by
      intro c
      cases c <;> exact Nat.zero_le _
    exact Exec.run_invariant (P := fun _ => True)
      (fun s l t hs _ hstep => room_step hstep hs) hzero (fun _ _ => trivial) h
  case waiting =>
    exact Exec.run_invariant (P := fun _ => True)
      (I := fun s => s.isWaiting = true → ∃ i, s.phase i ≠ .outside)
      (fun s l t hs _ hstep => waiting_step hstep hs) (by simp [init]) (fun _ _ => trivial) h

/-! ## One waiter at a time -/

/-- A thread calls `wait` only when no other one is in it. -/
def OneWaiter (_ : List (Label n)) (s : State n) : Label n → Prop
  | .wait _ _ => ∀ i, s.phase i = .outside
  | _ => True

instance (tr : List (Label n)) (s : State n) (l : Label n) : Decidable (OneWaiter tr s l) :=
  match l with
  | .wait _ _ => Nat.decidableForallFin fun i => s.phase i = .outside
  | .notify _ | .pollData _ | .pollEmpty _ | .read _ _ | .readFails _ _ | .ret _ _ _ =>
    .isTrue trivial

structure Alone (s : State n) : Prop where
  one : ∀ i j, s.phase i ≠ .outside → s.phase j ≠ .outside → i = j
  waiting : ∀ i, s.phase i ≠ .outside → s.isWaiting = true
  /-- Nobody takes the message that the poll has reported. -/
  reported : ∀ i, s.phase i = .reading true → 0 < s.pending true

theorem init_alone (n : Nat) : Alone (init n) where
  one := by
    intro i j hi
    exact absurd rfl hi
  waiting := by
    intro i hi
    exact absurd rfl hi
  reported := by
    intro i hi
    cases hi

/-- All but one thread are outside, and that one moves. -/
theorem alone_goto {j : Fin n} {phase : Phase} (hothers : ∀ i, i ≠ j → s.phase i = .outside)
    (hwaiting : phase ≠ .outside → s.isWaiting = true)
    (hreported : phase = .reading true → 0 < s.pending true) : Alone (s.goto j phase) := by
  have hphase : ∀ i, (s.goto j phase).phase i ≠ .outside → i = j ∧ phase ≠ .outside := by
    intro i hi
    rw [phase_goto] at hi
    split at hi
    · exact ⟨‹_›, hi⟩
    · rename_i hij
      exact absurd (hothers i hij) hi
  constructor
  case one =>
    intro i k hi hk
    rw [(hphase i hi).1, (hphase k hk).1]
  case waiting => exact fun i hi => hwaiting (hphase i hi).2
  case reported =>
    intro i hi
    obtain ⟨rfl, -⟩ := hphase i (by rw [hi]; exact Phase.noConfusion)
    rw [pending_goto]
    exact hreported (by simpa using hi)

theorem Alone.others (h : Alone s) {j : Fin n} (hj : s.phase j ≠ .outside) :
    ∀ i, i ≠ j → s.phase i = .outside := by
  intro i hij
  by_contra hi
  exact hij (h.one i j hi hj)

theorem Alone.step {tr : List (Label n)} (h : Alone s) (hg : OneWaiter tr s l)
    (hstep : step s l = some t) : Alone t := by
  cases step_cases hstep with
  | @notify inband =>
    constructor
    case one => simpa using h.one
    case waiting =>
      intro i hi
      have hwaiting := h.waiting i (by simpa using hi)
      cases inband <;> exact hwaiting
    case reported =>
      intro i hi
      have hpos := h.reported i (by simpa using hi)
      rw [pending_write]
      omega
  | @wait j inband =>
    apply alone_goto
    · exact fun i _ => hg i
    · exact fun _ => rfl
    · cases inband <;> simp
  | @pollData j hphase hpending =>
    have hin : s.phase j ≠ .outside := by simp [hphase]
    apply alone_goto (h.others hin)
    · exact fun _ => h.waiting j hin
    · exact fun _ => hpending
  | @pollEmpty j hphase | @readFails j _ hphase =>
    have hin : s.phase j ≠ .outside := by simp [hphase]
    apply alone_goto (h.others hin)
    · exact fun _ => h.waiting j hin
    · simp
  | @read j inband hphase =>
    have hin : s.phase j ≠ .outside := by simp [hphase]
    apply alone_goto
    · simpa using h.others hin
    · intro _
      have hwaiting := h.waiting j hin
      cases inband <;> exact hwaiting
    · simp
  | @ret j inband notified hphase =>
    have hin : s.phase j ≠ .outside := by simp [hphase]
    apply alone_goto
    · exact h.others hin
    · simp
    · simp

/-- The thread that takes a step of `wait`. -/
def Label.waiter : Label n → Option (Fin n)
  | .notify _ => none
  | .wait i _ | .pollData i | .pollEmpty i | .read i _ | .readFails i _ | .ret i _ _ => some i

def Label.isError : Label n → Bool
  | .readFails _ _ => true
  | _ => false

/-- Thread `i` can go on in `wait`, without an error of its read. -/
def CanStep (s : State n) (i : Fin n) : Prop :=
  ∃ l : Label n, l.waiter = some i ∧ l.isError = false ∧ (step s l).isSome = true

theorem Alone.canStep (h : Alone s) {i : Fin n} (hi : s.phase i ≠ .outside) :
    CanStep s i ∨ s.phase i = .reading false ∧ s.pending false = 0 := by
  cases hphase : s.phase i with
  | outside => exact absurd hphase hi
  | polling =>
    left
    by_cases hpending : s.pending true = 0
    · refine ⟨.pollEmpty i, rfl, rfl, ?_⟩
      simp [EvlChannels.step, hphase, hpending]
    · refine ⟨.pollData i, rfl, rfl, ?_⟩
      simp [EvlChannels.step, hphase, Nat.pos_of_ne_zero hpending]
  | reading inband =>
    cases inband with
    | true =>
      left
      refine ⟨.read i true, rfl, rfl, ?_⟩
      simp [EvlChannels.step, hphase, h.reported i hphase]
    | false =>
      by_cases hpending : s.pending false = 0
      · exact .inr ⟨rfl, hpending⟩
      · left
        refine ⟨.read i false, rfl, rfl, ?_⟩
        simp [EvlChannels.step, hphase, Nat.pos_of_ne_zero hpending]
  | returning inband notified =>
    left
    refine ⟨.ret i inband notified, rfl, rfl, ?_⟩
    simp [EvlChannels.step, hphase]

/-- With one waiter at a time the flag that the destructor reads is set from the store at the
beginning of `wait` to the one at its end, no read blocks after its poll, and a thread is only
kept waiting out-of-band, when every notification from in-band has been read. -/
theorem one_waiter {tr : List (Label n)} (h : Exec.Guarded step OneWaiter (init n) tr s) :
    (s.isWaiting = true ↔ ∃ i, s.phase i ≠ .outside) ∧
      ∀ i, s.phase i ≠ .outside → CanStep s i ∨ s.phase i = .reading false ∧
        tr.countP (Label.reads false) = tr.countP (Label.notifies true) := by
  have halone : Alone s := by
    refine h.invariant (I := fun _ s => Alone s) (init_alone n) ?_
    intro tr s l t hs hg hstep
    exact hs.step hg hstep
  have hconserved := channels_conserved h.run
  constructor
  · constructor
    · exact hconserved.waiting
    · rintro ⟨i, hi⟩
      exact halone.waiting i hi
  · intro i hi
    cases halone.canStep hi with
    | inl hstep => exact .inl hstep
    | inr hblocked =>
      have hbuffer := hconserved.buffers false
      rw [hblocked.2, Nat.zero_add] at hbuffer
      exact .inr ⟨hblocked.1, hbuffer⟩

end Counts

/-- The realtime thread waits out-of-band and notifies the other one, which polls. -/
def duplex {n : Nat} (rt nonRt : Fin n) : List (Label n) :=
  [.wait rt false, .notify true, .read rt false, .ret rt false true, .wait nonRt true,
    .pollEmpty nonRt, .ret nonRt true false, .notify false, .wait nonRt true, .pollData nonRt,
    .read nonRt true]

theorem channels_conserved_duplex :
    ∃ s : State 2, run (init 2) (duplex 0 1) = some s ∧ Conserved (duplex 0 1) s := by
  obtain ⟨s, hs⟩ := Option.isSome_iff_exists.mp
    (show (run (init 2) (duplex 0 1)).isSome from by decide)
  exact ⟨s, hs, channels_conserved hs⟩

theorem one_waiter_duplex : ∃ s : State 2, run (init 2) (duplex 0 1) = some s ∧
    (s.isWaiting = true ↔ ∃ i, s.phase i ≠ .outside) := by
  obtain ⟨s, hs⟩ := Exec.guarded_of_isSome step OneWaiter (init 2) (duplex 0 1) (by decide)
  exact ⟨s, hs.run, (one_waiter hs).1⟩

end Twine.EvlChannels
