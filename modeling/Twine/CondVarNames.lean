import Twine.SemaphoreNames

/-!
# The kernel semaphores behind the condition variables

A condition variable draws names until `sem_open` with `O_CREAT | O_EXCL` takes
one that is not linked, and its destructor unlinks that name. Any number of
condition variables is constructed, used and destroyed in any number of threads
and processes; each system call is one step, and the suffixes are arbitrary.
-/
namespace Twine.CondVarNames

open Twine.SemaphoreNames (Namespace)

def COND_VAR_BASE_NAME : String := "/twine_cond_"

def MAX_RETRIES : Nat := 100

def condVarName (suffix : Nat) : String := COND_VAR_BASE_NAME ++ toString suffix

/-- `sem_open(name, O_CREAT | O_EXCL, 0, 0)`, or nothing for `EEXIST`. -/
def semOpenExcl (n : Namespace) (name : String) : Option (Nat × Namespace) :=
  match n.linked name with
  | some _ => none
  | none => some (n.semOpen name)

inductive Point where
  | unborn
  /-- The value of `retries`, before the loop tests it. -/
  | constructing (retries : Nat)
  | alive
  /-- The destructor has called `notify`. -/
  | unlinking
  | gone
  | thrown
  deriving DecidableEq, Repr

/-- The semaphore is not closed when the object goes, so that a thread may wake up in its
`sem_wait` after that. -/
structure CondVar where
  point : Point
  name : String
  semaphore : Option Nat
  deriving DecidableEq, Repr

inductive Action where
  | construct
  /-- The loop goes on: `sem_open` is called with this suffix. -/
  | semOpen (suffix : Nat)
  /-- As before, with another error than `EEXIST`. -/
  | semOpenFails
  | noMoreRetries
  | notify
  /-- A `sem_wait` returns with a token. -/
  | take
  | destroy
  | semUnlink
  deriving DecidableEq, Repr

/-- What the steps of one condition variable do to it and to the namespace. -/
def CondVar.step (names : Namespace) (c : CondVar) : Action → Option (Namespace × CondVar)
  | .construct =>
    match c.point with
    | .unborn => some (names, { c with point := .constructing MAX_RETRIES })
    | _ => none
  | .semOpen suffix =>
    match c.point with
    | .constructing retries =>
      if 0 < retries - 1 then
        match semOpenExcl names (condVarName suffix) with
        | some (sem, names) => some (names, ⟨.alive, condVarName suffix, some sem⟩)
        | none => some (names, { c with point := .constructing (retries - 1) })
      else none
    | _ => none
  | .semOpenFails =>
    match c.point with
    | .constructing retries =>
      if 0 < retries - 1 then some (names, { c with point := .thrown }) else none
    | _ => none
  | .noMoreRetries =>
    match c.point with
    | .constructing retries =>
      if 0 < retries - 1 then none else some (names, { c with point := .thrown })
    | _ => none
  | .notify =>
    match c.point, c.semaphore with
    | .alive, some sem => some (names.semPost sem, c)
    | _, _ => none
  | .take =>
    match c.semaphore with
    | some sem => (names.semWait sem).map fun names => (names, c)
    | none => none
  | .destroy =>
    match c.point, c.semaphore with
    | .alive, some sem => some (names.semPost sem, { c with point := .unlinking })
    | _, _ => none
  | .semUnlink =>
    match c.point with
    | .unlinking => some (names.semUnlink c.name, { c with point := .gone })
    | _ => none

structure State where
  names : Namespace
  condVars : Nat → CondVar

def init : State := ⟨⟨fun _ => none, fun _ => 0, 0⟩, fun _ => ⟨.unborn, "", none⟩⟩

structure Label where
  condVar : Nat
  action : Action
  deriving DecidableEq, Repr

def State.set (s : State) (o : Nat) (r : Namespace × CondVar) : State :=
  ⟨r.1, Function.update s.condVars o r.2⟩

def step (s : State) (l : Label) : Option State :=
  (CondVar.step s.names (s.condVars l.condVar) l.action).map (s.set l.condVar)

abbrev run : State → List Label → Option State := Exec.run step

/-! ## What the condition variables rely on -/

/-- From the return of the constructor until the destructor unlinks the name. -/
def Point.live : Point → Bool
  | .alive | .unlinking => true
  | .unborn | .constructing _ | .gone | .thrown => false

def Action.isSemOpen : Action → Bool
  | .semOpen _ | .semOpenFails => true
  | _ => false

/-- The calls of `sem_open` that a constructor has made. -/
def semOpens (tr : List Label) (o : Nat) : Nat :=
  tr.countP fun l => l.condVar = o ∧ l.action.isSemOpen

/-- The calls of `notify`, that of the destructor included. -/
def notifications (tr : List Label) (o : Nat) : Nat :=
  tr.count ⟨o, .notify⟩ + tr.count ⟨o, .destroy⟩

def taken (tr : List Label) (o : Nat) : Nat := tr.count ⟨o, .take⟩

/-- No step of the condition variable has changed the namespace. -/
def Untouched (tr : List Label) (o : Nat) : Prop :=
  Exec.Steps step init (fun s l => l.condVar = o → ∀ t, step s l = some t → t.names = s.names) tr

/-- No two condition variables share a semaphore. -/
structure Separate (tr : List Label) (s : State) : Prop where
  names : ∀ a b, (s.condVars a).point.live = true → (s.condVars b).point.live = true →
    (s.condVars a).name = (s.condVars b).name → a = b
  semaphores : ∀ a b sem, (s.condVars a).semaphore = some sem →
    (s.condVars b).semaphore = some sem → a = b
  linked : ∀ o, (s.condVars o).point.live = true → ∃ sem,
    (s.condVars o).semaphore = some sem ∧ s.names.linked (s.condVars o).name = some sem
  /-- A destructor unlinks the name of its own semaphore and no other one. -/
  unlinks : ∀ o t, step s ⟨o, .semUnlink⟩ = some t → ∃ sem,
    (s.condVars o).semaphore = some sem ∧ s.names.linked (s.condVars o).name = some sem ∧
      t.names.linked = Function.update s.names.linked (s.condVars o).name none
  attempts : ∀ o, semOpens tr o ≤ MAX_RETRIES - 1
  /-- A constructor that has not returned can go on, or it throws. -/
  proceeds : ∀ o retries, (s.condVars o).point = .constructing retries →
    (∀ suffix, (step s ⟨o, .semOpen suffix⟩).isSome) ∨ (step s ⟨o, .noMoreRetries⟩).isSome
  /-- One that threw has left the namespace as it was. -/
  thrown : ∀ o, (s.condVars o).point = .thrown → Untouched tr o
  /-- The tokens of a semaphore are the notifications of its condition variable that were not
  taken by a waiter of that one. -/
  tokens : ∀ o sem, (s.condVars o).semaphore = some sem →
    s.names.value sem + taken tr o = notifications tr o

/-! ## The invariant -/

def Point.opened : Point → Bool
  | .alive | .unlinking | .gone => true
  | .unborn | .constructing _ | .thrown => false

/-- The loop counts the calls of `sem_open` down. -/
def TriesOk (tr : List Label) (o : Nat) : Point → Prop
  | .unborn => semOpens tr o = 0
  | .constructing retries => semOpens tr o + retries = MAX_RETRIES ∧ 0 < retries
  | _ => semOpens tr o < MAX_RETRIES

/-- One condition variable and its semaphore. -/
structure Sound (tr : List Label) (names : Namespace) (o : Nat) (c : CondVar) : Prop where
  opened : c.semaphore.isSome = c.point.opened
  below : ∀ sem, c.semaphore = some sem → sem < names.created
  linked : c.point.live = true → names.linked c.name = c.semaphore
  tokens : ∀ sem, c.semaphore = some sem → names.value sem + taken tr o = notifications tr o
  quiet : c.semaphore = none → taken tr o = 0 ∧ notifications tr o = 0
  tries : TriesOk tr o c.point
  untouched : c.semaphore = none → Untouched tr o

structure Inv (tr : List Label) (s : State) : Prop where
  sound : ∀ o, Sound tr s.names o (s.condVars o)
  distinct : ∀ a b sem, (s.condVars a).semaphore = some sem → (s.condVars b).semaphore = some sem →
    a = b
  /-- A name is linked only for a condition variable that is live. -/
  owned : ∀ name, s.names.linked name ≠ none →
    ∃ o, (s.condVars o).point.live = true ∧ (s.condVars o).name = name

theorem init_inv : Inv [] init where
  sound := by
    intro o
    constructor <;> simp [init, Point.opened, Point.live, taken, notifications, TriesOk, semOpens]
    intro pre l post s t he
    simp at he
  distinct := by simp [init]
  owned := by simp [init]

theorem Point.opened_of_live {p : Point} (h : p.live = true) : p.opened = true := by
  cases p <;> simp_all [Point.live, Point.opened]

theorem Sound.linked_some {tr : List Label} {names : Namespace} {o : Nat} {c : CondVar}
    (h : Sound tr names o c) (hlive : c.point.live = true) :
    ∃ sem, c.semaphore = some sem ∧ names.linked c.name = some sem := by
  have hsome : c.semaphore.isSome = true := by
    rw [h.opened]
    exact Point.opened_of_live hlive
  obtain ⟨sem, hsem⟩ := Option.isSome_iff_exists.mp hsome
  exact ⟨sem, hsem, (h.linked hlive).trans hsem⟩

theorem Sound.attempts {tr : List Label} {names : Namespace} {o : Nat} {c : CondVar}
    (h : Sound tr names o c) : semOpens tr o ≤ MAX_RETRIES - 1 := by
  have htries := h.tries
  cases hp : c.point <;> simp only [hp, TriesOk, MAX_RETRIES] at htries ⊢ <;> omega

theorem Inv.separate {tr : List Label} {s : State} (h : Inv tr s) : Separate tr s where
  names := by
    intro a b ha hb he
    obtain ⟨sem, hsem, hlinked⟩ := (h.sound a).linked_some ha
    rw [he, (h.sound b).linked hb] at hlinked
    exact h.distinct a b sem hsem hlinked
  semaphores := h.distinct
  linked := fun o => (h.sound o).linked_some
  unlinks := by
    intro o t hstep
    simp only [step, CondVar.step, Option.map_eq_some_iff] at hstep
    obtain ⟨r, hr, rfl⟩ := hstep
    cases hp : (s.condVars o).point <;> simp only [hp, reduceCtorEq, Option.some.injEq] at hr
    subst hr
    obtain ⟨sem, hsem, hlinked⟩ := (h.sound o).linked_some (by rw [hp]; rfl)
    exact ⟨sem, hsem, hlinked, rfl⟩
  attempts := fun o => (h.sound o).attempts
  proceeds := by
    intro o retries hp
    by_cases hr : 0 < retries - 1
    · refine .inl fun suffix => ?_
      cases hx : semOpenExcl s.names (condVarName suffix) <;> simp [step, CondVar.step, hp, hr, hx]
    · exact .inr (by simp [step, CondVar.step, hp, hr])
  thrown := by
    intro o hp
    refine (h.sound o).untouched ?_
    have hopened := (h.sound o).opened
    rw [hp] at hopened
    simpa [Point.opened] using hopened
  tokens := fun o => (h.sound o).tokens

/-! ## Counting the calls -/

theorem semOpens_snoc (tr : List Label) (o : Nat) (a : Action) :
    semOpens (tr ++ [⟨o, a⟩]) o = semOpens tr o + if a.isSemOpen then 1 else 0 := by
  simp [semOpens, List.countP_append, List.countP_singleton]

theorem notifications_snoc (tr : List Label) (o : Nat) (a : Action) :
    notifications (tr ++ [⟨o, a⟩]) o =
      notifications tr o + if a = .notify ∨ a = .destroy then 1 else 0 := by
  cases a <;> simp [notifications, List.count_append, Nat.add_assoc, Nat.add_comm 1]

theorem taken_snoc (tr : List Label) (o : Nat) (a : Action) :
    taken (tr ++ [⟨o, a⟩]) o = taken tr o + if a = .take then 1 else 0 := by
  cases a <;> simp [taken, List.count_append]

theorem counts_other {l : Label} {o : Nat} (h : l.condVar ≠ o) (tr : List Label) :
    semOpens (tr ++ [l]) o = semOpens tr o ∧ notifications (tr ++ [l]) o = notifications tr o ∧
      taken (tr ++ [l]) o = taken tr o := by
  have hne : ∀ a, l ≠ ⟨o, a⟩ := fun a he => h (by rw [he])
  refine ⟨?_, ?_, ?_⟩
  · simp [semOpens, List.countP_append, h]
  · simp [notifications, List.count_append, hne]
  · simp [taken, List.count_append, hne]

/-! ## What a step does -/

theorem semOpenExcl_some {names names' : Namespace} {name : String} {sem : Nat}
    (h : semOpenExcl names name = some (sem, names')) :
    names.linked name = none ∧ sem = names.created ∧
      names' = ⟨Function.update names.linked name (some names.created),
        Function.update names.value names.created 0, names.created + 1⟩ := by
  simp only [semOpenExcl] at h
  split at h
  · cases h
  · rename_i hfree
    simp only [Namespace.semOpen, hfree, Option.some.injEq, Prod.mk.injEq] at h
    exact ⟨hfree, h.1.symm, h.2.symm⟩

/-- The steps of one condition variable, with what enables them and what they leave. -/
inductive CondVar.Effect (names : Namespace) (c : CondVar) :
    Action → Namespace × CondVar → Prop where
  | construct : c.point = .unborn →
      Effect names c .construct (names, { c with point := .constructing MAX_RETRIES })
  | opens {retries suffix sem : Nat} {names' : Namespace} : c.point = .constructing retries →
      0 < retries - 1 → semOpenExcl names (condVarName suffix) = some (sem, names') →
      Effect names c (.semOpen suffix) (names', ⟨.alive, condVarName suffix, some sem⟩)
  | taken {retries suffix : Nat} : c.point = .constructing retries → 0 < retries - 1 →
      Effect names c (.semOpen suffix) (names, { c with point := .constructing (retries - 1) })
  | fails {retries : Nat} : c.point = .constructing retries → 0 < retries - 1 →
      Effect names c .semOpenFails (names, { c with point := .thrown })
  | noMoreRetries {retries : Nat} : c.point = .constructing retries → ¬ 0 < retries - 1 →
      Effect names c .noMoreRetries (names, { c with point := .thrown })
  | notify {sem : Nat} : c.point = .alive → c.semaphore = some sem →
      Effect names c .notify (names.semPost sem, c)
  | take {sem : Nat} {names' : Namespace} : c.semaphore = some sem →
      names.semWait sem = some names' → Effect names c .take (names', c)
  | destroy {sem : Nat} : c.point = .alive → c.semaphore = some sem →
      Effect names c .destroy (names.semPost sem, { c with point := .unlinking })
  | semUnlink : c.point = .unlinking →
      Effect names c .semUnlink (names.semUnlink c.name, { c with point := .gone })

theorem CondVar.step_effect {names : Namespace} {c : CondVar} {a : Action}
    {r : Namespace × CondVar} (h : CondVar.step names c a = some r) : c.Effect names a r := by
  cases a with
  | construct =>
    simp only [CondVar.step] at h
    split at h <;> cases h
    exact .construct ‹_›
  | semOpen suffix =>
    simp only [CondVar.step] at h
    split at h
    · split at h
      · split at h <;> cases h
        · exact .opens ‹_› ‹_› ‹_›
        · exact .taken ‹_› ‹_›
      · cases h
    · cases h
  | semOpenFails =>
    simp only [CondVar.step] at h
    split at h
    · split at h <;> cases h
      exact .fails ‹_› ‹_›
    · cases h
  | noMoreRetries =>
    simp only [CondVar.step] at h
    split at h
    · split at h <;> cases h
      exact .noMoreRetries ‹_› ‹_›
    · cases h
  | notify =>
    simp only [CondVar.step] at h
    split at h <;> cases h
    exact .notify ‹_› ‹_›
  | take =>
    simp only [CondVar.step] at h
    split at h
    · obtain ⟨names', hw, rfl⟩ := Option.map_eq_some_iff.mp h
      exact .take ‹_› hw
    · cases h
  | destroy =>
    simp only [CondVar.step] at h
    split at h <;> cases h
    exact .destroy ‹_› ‹_›
  | semUnlink =>
    simp only [CondVar.step] at h
    split at h <;> cases h
    exact .semUnlink ‹_›

/-! ## What a step leaves to the others -/

/-- Semaphores that exist, and are not that of the condition variable, keep their names and
tokens. -/
structure Frame (names names' : Namespace) (c : CondVar) : Prop where
  created : names.created ≤ names'.created
  value : ∀ sem, sem < names.created → c.semaphore ≠ some sem → names'.value sem = names.value sem
  linked : ∀ name sem, names.linked name = some sem → c.semaphore ≠ some sem →
    names'.linked name = some sem

theorem Frame.refl (names : Namespace) (c : CondVar) : Frame names names c :=
  ⟨Nat.le_refl _, fun _ _ _ => rfl, fun _ _ h _ => h⟩

theorem frame_semOpenExcl {names names' : Namespace} {name : String} {sem : Nat}
    (h : semOpenExcl names name = some (sem, names')) (c : CondVar) : Frame names names' c := by
  obtain ⟨hfree, -, rfl⟩ := semOpenExcl_some h
  refine ⟨Nat.le_succ _, ?_, ?_⟩
  · intro sem hsem _
    exact Function.update_of_ne (Nat.ne_of_lt hsem) _ _
  · intro name' sem hlinked _
    have hne : name' ≠ name := by
      rintro rfl
      cases hfree.symm.trans hlinked
    simpa [Function.update_of_ne hne] using hlinked

theorem frame_semPost (names : Namespace) {c : CondVar} {sem : Nat} (h : c.semaphore = some sem) :
    Frame names (names.semPost sem) c := by
  refine ⟨Nat.le_refl _, ?_, fun _ _ hlinked _ => hlinked⟩
  intro sem' _ hne
  have hsem : sem' ≠ sem := by
    rintro rfl
    exact hne h
  exact Function.update_of_ne hsem _ _

theorem frame_semWait {names names' : Namespace} {c : CondVar} {sem : Nat}
    (h : c.semaphore = some sem) (hw : names.semWait sem = some names') : Frame names names' c := by
  obtain ⟨-, rfl⟩ := Namespace.semWait_some hw
  refine ⟨Nat.le_refl _, ?_, fun _ _ hlinked _ => hlinked⟩
  intro sem' _ hne
  have hsem : sem' ≠ sem := by
    rintro rfl
    exact hne h
  exact Function.update_of_ne hsem _ _

theorem frame_semUnlink {names : Namespace} {c : CondVar} (h : names.linked c.name = c.semaphore) :
    Frame names (names.semUnlink c.name) c := by
  refine ⟨Nat.le_refl _, fun _ _ _ => rfl, ?_⟩
  intro name sem hlinked hne
  have hname : name ≠ c.name := by
    rintro rfl
    exact hne (h.symm.trans hlinked)
  simpa [Namespace.semUnlink, Function.update_of_ne hname] using hlinked

theorem CondVar.step_frame {names : Namespace} {c : CondVar} {a : Action}
    {r : Namespace × CondVar} (hlinked : c.point.live = true → names.linked c.name = c.semaphore)
    (h : CondVar.step names c a = some r) : Frame names r.1 c := by
  cases CondVar.step_effect h with
  | construct | taken | fails | noMoreRetries => exact .refl _ _
  | opens _ _ hx => exact frame_semOpenExcl hx c
  | notify _ hsem | destroy _ hsem => exact frame_semPost names hsem
  | take hsem hw => exact frame_semWait hsem hw
  | semUnlink hp => exact frame_semUnlink (hlinked (by rw [hp]; rfl))

/-- The other condition variables stay sound. -/
theorem Sound.other {tr : List Label} {names names' : Namespace} {o : Nat} {b c : CondVar}
    {l : Label} {s : State} (h : Sound tr names o b) (hl : l.condVar ≠ o)
    (hrun : run init tr = some s) (hf : Frame names names' c)
    (hdistinct : ∀ sem, b.semaphore = some sem → c.semaphore ≠ some sem) :
    Sound (tr ++ [l]) names' o b := by
  obtain ⟨hopens, hnotifications, htaken⟩ := counts_other hl tr
  constructor
  case opened => exact h.opened
  case below =>
    intro sem hsem
    exact Nat.lt_of_lt_of_le (h.below sem hsem) hf.created
  case linked =>
    intro hlive
    obtain ⟨sem, hsem, hlinked⟩ := h.linked_some hlive
    rw [hsem]
    exact hf.linked _ sem hlinked (hdistinct sem hsem)
  case tokens =>
    intro sem hsem
    rw [hnotifications, htaken, hf.value sem (h.below sem hsem) (hdistinct sem hsem)]
    exact h.tokens sem hsem
  case quiet =>
    intro hnone
    rw [hnotifications, htaken]
    exact h.quiet hnone
  case tries =>
    have htries := h.tries
    cases hp : b.point <;> simpa only [hp, TriesOk, hopens] using htries
  case untouched =>
    intro hnone
    exact (h.untouched hnone).snoc hrun fun t _ he => absurd he hl

/-! ## What a step does to its own condition variable -/

section Own

variable {tr : List Label} {names names' : Namespace} {o : Nat} {c : CondVar} {a : Action}
  {s : State}

/-- A constructor that has not opened anything goes on, or throws. -/
theorem Sound.goto (h : Sound tr names o c) {point : Point} (hp : c.point.opened = false)
    (hp' : point.opened = false) (hn : notifications (tr ++ [⟨o, a⟩]) o = notifications tr o)
    (ht : taken (tr ++ [⟨o, a⟩]) o = taken tr o) (htries : TriesOk (tr ++ [⟨o, a⟩]) o point)
    (hrun : run init tr = some s)
    (hstep : ∀ t, step s ⟨o, a⟩ = some t → t.names = s.names) :
    Sound (tr ++ [⟨o, a⟩]) names o { c with point := point } := by
  have hnone : c.semaphore = none := by
    have hopened := h.opened
    rw [hp] at hopened
    simpa using hopened
  constructor
  case opened => simp [hnone, hp']
  case below => simp [hnone]
  case linked =>
    intro hlive
    cases hp'.symm.trans (Point.opened_of_live hlive)
  case tokens => simp [hnone]
  case quiet =>
    intro _
    rw [hn, ht]
    exact h.quiet hnone
  case tries => exact htries
  case untouched =>
    intro _
    exact (h.untouched hnone).snoc hrun fun t hu _ u hu' => hstep u hu'

theorem Sound.opens (h : Sound tr names o c) {retries suffix sem : Nat}
    (hp : c.point = .constructing retries) (hr : 0 < retries - 1)
    (hx : semOpenExcl names (condVarName suffix) = some (sem, names')) :
    Sound (tr ++ [⟨o, .semOpen suffix⟩]) names' o ⟨.alive, condVarName suffix, some sem⟩ := by
  obtain ⟨-, rfl, rfl⟩ := semOpenExcl_some hx
  have htries := h.tries
  have hnone : c.semaphore = none := by
    have hopened := h.opened
    rw [hp] at hopened
    simpa [Point.opened] using hopened
  have hquiet := h.quiet hnone
  constructor
  case opened => rfl
  case below => simp
  case linked => simp
  case tokens =>
    intro sem hsem
    cases hsem
    simp [notifications_snoc, taken_snoc, hquiet.1, hquiet.2]
  case quiet => simp
  case tries =>
    simp only [hp, TriesOk, MAX_RETRIES] at htries
    simp only [TriesOk, semOpens_snoc, Action.isSemOpen, if_true, MAX_RETRIES]
    omega
  case untouched => simp

/-- The semaphore is used, or its name unlinked. -/
theorem Sound.uses (h : Sound tr names o c) (point : Point) {sem : Nat}
    (hsem : c.semaphore = some sem) (hp : point.opened = true) (hopen : a.isSemOpen = false)
    (hcreated : names'.created = names.created)
    (hlinked : point.live = true → c.point.live = true ∧ names'.linked = names.linked)
    (hvalue : names'.value sem + taken (tr ++ [⟨o, a⟩]) o = notifications (tr ++ [⟨o, a⟩]) o) :
    Sound (tr ++ [⟨o, a⟩]) names' o { c with point := point } := by
  have htries : semOpens tr o < MAX_RETRIES :=
    Nat.lt_of_le_of_lt h.attempts (by decide)
  constructor
  case opened => simp [hsem, hp]
  case below =>
    intro sem' hsem'
    rw [hcreated]
    exact h.below sem' hsem'
  case linked =>
    intro hlive
    obtain ⟨hlive', he⟩ := hlinked hlive
    rw [he]
    exact h.linked hlive'
  case tokens =>
    intro sem' hsem'
    obtain rfl : sem = sem' := Option.some.inj (hsem.symm.trans hsem')
    exact hvalue
  case quiet => simp [hsem]
  case tries => cases point <;> simp_all [Point.opened, TriesOk, semOpens_snoc]
  case untouched => simp [hsem]

theorem Sound.step (h : Sound tr s.names o (s.condVars o)) (hrun : run init tr = some s)
    {r : Namespace × CondVar} (hstep : CondVar.step s.names (s.condVars o) a = some r) :
    Sound (tr ++ [⟨o, a⟩]) r.1 o r.2 := by
  have htries := h.tries
  have hs : CondVarNames.step s ⟨o, a⟩ = some (s.set o r) := by
    simp only [CondVarNames.step, hstep, Option.map_some]
  have hnames : r.1 = s.names → ∀ t, CondVarNames.step s ⟨o, a⟩ = some t → t.names = s.names := by
    intro he t ht
    cases hs.symm.trans ht
    exact he
  cases CondVar.step_effect hstep with
  | construct hp =>
    rw [hp] at htries
    refine h.goto (by rw [hp]; rfl) rfl (by simp [notifications_snoc]) (by simp [taken_snoc]) ?_ hrun
      (hnames rfl)
    simpa [TriesOk, semOpens_snoc, Action.isSemOpen, MAX_RETRIES] using htries
  | opens hp hr hx => exact h.opens hp hr hx
  | taken hp hr | fails hp hr =>
    rw [hp] at htries
    refine h.goto (by rw [hp]; rfl) rfl (by simp [notifications_snoc]) (by simp [taken_snoc]) ?_ hrun
      (hnames rfl)
    simp only [TriesOk, semOpens_snoc, Action.isSemOpen, if_true] at htries ⊢
    omega
  | noMoreRetries hp hr =>
    rw [hp] at htries
    refine h.goto (by rw [hp]; rfl) rfl (by simp [notifications_snoc]) (by simp [taken_snoc]) ?_ hrun
      (hnames rfl)
    simp only [TriesOk, semOpens_snoc, Action.isSemOpen, Bool.false_eq_true, if_false] at htries ⊢
    omega
  | notify hp hsem =>
    have htokens := h.tokens _ hsem
    refine h.uses (s.condVars o).point hsem (by rw [hp]; rfl) rfl rfl (fun hl => ⟨hl, rfl⟩) ?_
    simp [Namespace.semPost, notifications_snoc, taken_snoc]
    omega
  | take hsem hw =>
    obtain ⟨hpos, rfl⟩ := Namespace.semWait_some hw
    have htokens := h.tokens _ hsem
    have hopened : (s.condVars o).point.opened = true := by
      rw [← h.opened, hsem]
      rfl
    refine h.uses (s.condVars o).point hsem hopened rfl rfl (fun hl => ⟨hl, rfl⟩) ?_
    simp [notifications_snoc, taken_snoc]
    omega
  | destroy hp hsem =>
    have htokens := h.tokens _ hsem
    refine h.uses .unlinking hsem rfl rfl rfl (fun _ => ⟨by rw [hp]; rfl, rfl⟩) ?_
    simp [Namespace.semPost, notifications_snoc, taken_snoc]
    omega
  | semUnlink hp =>
    obtain ⟨sem, hsem, -⟩ := h.linked_some (by rw [hp]; rfl)
    have htokens := h.tokens sem hsem
    refine h.uses .gone hsem rfl rfl rfl (fun hl => by cases hl) ?_
    simpa [Namespace.semUnlink, notifications_snoc, taken_snoc] using htokens

end Own

/-! ## The invariant holds throughout -/

/-- A condition variable keeps its semaphore, or opens a new one. -/
theorem CondVar.step_semaphore {names : Namespace} {c : CondVar} {a : Action}
    {r : Namespace × CondVar} (h : CondVar.step names c a = some r) :
    r.2.semaphore = c.semaphore ∨ r.2.semaphore = some names.created := by
  cases CondVar.step_effect h with
  | opens _ _ hx => exact .inr (congrArg some (semOpenExcl_some hx).2.1)
  | _ => exact .inl rfl

/-- A name is linked after a step for the condition variable that took it, or was linked before for
another one. -/
theorem CondVar.step_linked {names : Namespace} {c : CondVar} {a : Action}
    {r : Namespace × CondVar} (h : CondVar.step names c a = some r) {name : String}
    (hlinked : r.1.linked name ≠ none) :
    (r.2.point.live = true ∧ r.2.name = name) ∨
      (names.linked name ≠ none ∧ ¬ (c.point.live = true ∧ c.name = name)) := by
  cases CondVar.step_effect h with
  | construct hp | taken hp | fails hp | noMoreRetries hp =>
    exact .inr ⟨hlinked, by simp [hp, Point.live]⟩
  | @opens retries suffix sem names' hp _ hx =>
    obtain ⟨-, rfl, rfl⟩ := semOpenExcl_some hx
    by_cases hname : name = condVarName suffix
    · exact .inl ⟨rfl, hname.symm⟩
    · refine .inr ⟨?_, by simp [hp, Point.live]⟩
      simpa [Function.update_of_ne hname] using hlinked
  | notify hp | destroy hp =>
    by_cases hname : c.name = name
    · exact .inl ⟨by simp [hp, Point.live], hname⟩
    · exact .inr ⟨hlinked, fun he => hname he.2⟩
  | take _ hw =>
    obtain ⟨-, rfl⟩ := Namespace.semWait_some hw
    by_cases hown : c.point.live = true ∧ c.name = name
    · exact .inl hown
    · exact .inr ⟨hlinked, hown⟩
  | semUnlink =>
    have hname : name ≠ c.name := by
      rintro rfl
      simp [Namespace.semUnlink] at hlinked
    refine .inr ⟨?_, fun he => hname he.2.symm⟩
    simpa [Namespace.semUnlink, Function.update_of_ne hname] using hlinked

theorem set_condVars (s : State) (o : Nat) (r : Namespace × CondVar) (b : Nat) :
    (s.set o r).condVars b = if b = o then r.2 else s.condVars b := by
  simp [State.set, Function.update_apply]

theorem Inv.step {tr : List Label} {s t : State} {l : Label} (h : Inv tr s)
    (hrun : run init tr = some s) (hstep : step s l = some t) : Inv (tr ++ [l]) t := by
  obtain ⟨o, a⟩ := l
  obtain ⟨r, hr, rfl⟩ := Option.map_eq_some_iff.mp hstep
  simp only at hr
  have hframe := CondVar.step_frame (h.sound o).linked hr
  -- what another one has open is neither that of `o` nor new
  have hother : ∀ b sem, b ≠ o → (s.condVars b).semaphore = some sem → r.2.semaphore ≠ some sem := by
    intro b sem hb hsem he
    rcases CondVar.step_semaphore hr with hkeep | hnew
    · exact hb (h.distinct b o sem hsem (hkeep.symm.trans he))
    · obtain rfl : s.names.created = sem := Option.some.inj (hnew.symm.trans he)
      exact absurd ((h.sound b).below _ hsem) (Nat.lt_irrefl _)
  constructor
  case sound =>
    intro b
    rw [set_condVars]
    split
    · rename_i hb
      subst hb
      exact (h.sound b).step hrun hr
    · rename_i hb
      exact (h.sound b).other (Ne.symm hb) hrun hframe fun sem hsem he =>
        hb (h.distinct b o sem hsem he)
  case distinct =>
    intro b b' sem hsem hsem'
    rw [set_condVars] at hsem hsem'
    split at hsem <;> split at hsem'
    · rename_i hb hb'
      exact hb.trans hb'.symm
    · exact absurd hsem (hother b' sem ‹_› hsem')
    · exact absurd hsem' (hother b sem ‹_› hsem)
    · exact h.distinct b b' sem hsem hsem'
  case owned =>
    intro name hlinked
    rcases CondVar.step_linked hr hlinked with hown | ⟨hold, hnot⟩
    · exact ⟨o, by simpa [set_condVars] using hown⟩
    · obtain ⟨b, hb⟩ := h.owned name hold
      have hne : b ≠ o := by
        rintro rfl
        exact hnot hb
      exact ⟨b, by simpa [set_condVars, hne] using hb⟩

theorem inv_of_run {tr : List Label} {s : State} (h : run init tr = some s) : Inv tr s := by
  have hall : Exec.Throughout CondVarNames.step init Inv tr :=
    Exec.throughout_of_steps init_inv fun _ _ _ _ _ _ hs hinv hstep => hinv.step hs hstep
  exact hall tr [] s (by simp) h

/-- No two condition variables share a semaphore, in any interleaving of their system calls and
with any suffixes. -/
theorem always_separate (tr : List Label) : Exec.Throughout step init Separate tr :=
  fun _ _ _ _ hs => (inv_of_run hs).separate

/-- The second constructor draws the suffix of the first one, and then another. -/
example : ((run init [⟨0, .construct⟩, ⟨1, .construct⟩, ⟨0, .semOpen 7⟩, ⟨1, .semOpen 7⟩,
    ⟨1, .semOpen 8⟩]).map fun s => ((s.condVars 0).semaphore, (s.condVars 1).semaphore)) =
    some (some 0, some 1) := by
  decide

end Twine.CondVarNames
