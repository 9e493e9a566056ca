import Twine.Exec
import Mathlib.Logic.Function.Basic

/-!
# The kernel semaphores behind the barriers

Every barrier of every pool asks the kernel for two semaphores, by the same two
names. `semaphore_create` unlinks the name and then opens it with `O_CREAT`;
these are two system calls, and those of other threads and processes can come in
between. Here each system call is one step, and any number of barriers is
constructed, used and destroyed in any order.
-/
namespace Twine.SemaphoreNames

/-! ## Named semaphores -/

/-- The names that are linked, and the values of all kernel semaphores made so far,
which are numbered. An open semaphore stays when its name is unlinked. -/
structure Namespace where
  linked : String → Option Nat
  value : Nat → Nat
  created : Nat

def Namespace.semUnlink (n : Namespace) (name : String) : Namespace :=
  { n with linked := Function.update n.linked name none }

/-- `sem_open(name, O_CREAT, 0, 0)`: the linked semaphore, or else a new one. -/
def Namespace.semOpen (n : Namespace) (name : String) : Nat × Namespace :=
  match n.linked name with
  | some sem => (sem, n)
  | none => (n.created,
    { linked := Function.update n.linked name (some n.created)
      value := Function.update n.value n.created 0
      created := n.created + 1 })

def Namespace.semPost (n : Namespace) (sem : Nat) : Namespace :=
  { n with value := Function.update n.value sem (n.value sem + 1) }

/-- `sem_wait` blocks at zero. -/
def Namespace.semWait (n : Namespace) (sem : Nat) : Option Namespace :=
  if 0 < n.value sem then some { n with value := Function.update n.value sem (n.value sem - 1) }
  else none

theorem Namespace.semWait_some {n n' : Namespace} {sem : Nat} (h : n.semWait sem = some n') :
    0 < n.value sem ∧
      n' = { n with value := Function.update n.value sem (n.value sem - 1) } := by
  simp only [semWait] at h
  split at h <;> cases h
  exact ⟨by assumption, rfl⟩

/-! ## The life of a barrier -/

/-- Which of the two semaphores of a barrier. -/
inductive SemIdx where
  | zero | one
  deriving DecidableEq, Repr

def semaphoreName : SemIdx → String
  | .zero => "/twine-barrier-sem-0"
  | .one => "/twine-barrier-sem-1"

/-- Program points of the constructor and the destructor of `BarrierWithTrigger`, with
the system calls of `semaphore_create` and `semaphore_destroy` one by one. -/
inductive Point where
  | unborn
  | createUnlink (k : SemIdx)
  | createOpen (k : SemIdx)
  | alive
  | destroyUnlink (k : SemIdx)
  | destroyClose (k : SemIdx)
  | gone
  /-- The constructor threw, and what it had opened stays open. -/
  | thrown
  deriving DecidableEq, Repr

def Point.afterCreate : SemIdx → Point
  | .zero => .createUnlink .one
  | .one => .alive

def Point.afterDestroy : SemIdx → Point
  | .zero => .destroyUnlink .one
  | .one => .gone

structure Barrier where
  point : Point
  /-- What `sem_open` returned, until `sem_close`. -/
  semaphores : SemIdx → Option Nat

structure State where
  names : Namespace
  barriers : Nat → Barrier

def init : State := ⟨⟨fun _ => none, fun _ => 0, 0⟩, fun _ => ⟨.unborn, fun _ => none⟩⟩

inductive Label where
  | construct (b : Nat)
  | semUnlink (b : Nat)
  | semOpen (b : Nat)
  /-- `SEM_FAILED` with an error, and the constructor throws. -/
  | semOpenFails (b : Nat)
  | destroy (b : Nat)
  | semClose (b : Nat)
  /-- `semaphore_signal` on the semaphore `k` of a barrier. -/
  | semPost (b : Nat) (k : SemIdx)
  /-- `semaphore_wait` on the semaphore `k` of a barrier returns. -/
  | semWait (b : Nat) (k : SemIdx)
  deriving DecidableEq, Repr

def State.set (s : State) (b : Nat) (names : Namespace) (barrier : Barrier) : State :=
  ⟨names, Function.update s.barriers b barrier⟩

/-- The threads of a pool are joined before its barrier is destroyed, so that it is used
only while it is alive. -/
def step (s : State) : Label → Option State
  | .construct b =>
    match (s.barriers b).point with
    | .unborn => some (s.set b s.names { s.barriers b with point := .createUnlink .zero })
    | _ => none
  | .semUnlink b =>
    match (s.barriers b).point with
    | .createUnlink k => some
        (s.set b (s.names.semUnlink (semaphoreName k)) { s.barriers b with point := .createOpen k })
    | .destroyUnlink k => some
        (s.set b (s.names.semUnlink (semaphoreName k)) { s.barriers b with point := .destroyClose k })
    | _ => none
  | .semOpen b =>
    match (s.barriers b).point with
    | .createOpen k =>
      let (sem, names) := s.names.semOpen (semaphoreName k)
      some (s.set b names
        ⟨.afterCreate k, Function.update (s.barriers b).semaphores k (some sem)⟩)
    | _ => none
  | .semOpenFails b =>
    match (s.barriers b).point with
    | .createOpen _ => some (s.set b s.names { s.barriers b with point := .thrown })
    | _ => none
  | .destroy b =>
    match (s.barriers b).point with
    | .alive => some (s.set b s.names { s.barriers b with point := .destroyUnlink .zero })
    | _ => none
  | .semClose b =>
    match (s.barriers b).point with
    | .destroyClose k => some (s.set b s.names
        ⟨.afterDestroy k, Function.update (s.barriers b).semaphores k none⟩)
    | _ => none
  | .semPost b k =>
    match (s.barriers b).point, (s.barriers b).semaphores k with
    | .alive, some sem => some { s with names := s.names.semPost sem }
    | _, _ => none
  | .semWait b k =>
    match (s.barriers b).point, (s.barriers b).semaphores k with
    | .alive, some sem => (s.names.semWait sem).map fun names => { s with names := names }
    | _, _ => none

abbrev run : State → List Label → Option State := Exec.run step

/-- A barrier holds a kernel semaphore from its `sem_open` to its `sem_close`. -/
def State.Holds (s : State) (b : Nat) (k : SemIdx) (sem : Nat) : Prop :=
  (s.barriers b).semaphores k = some sem

/-! ## What the pools rely on -/

/-- No kernel semaphore is held twice, and its value is what its own barrier posted less
what its own barrier took. A barrier holds a semaphore from its `sem_open` to its `sem_close`:
one whose constructor has thrown, and one whose destructor is running, are holders as well. -/
structure Private (tr : List Label) (s : State) : Prop where
  distinct : ∀ a b j k sem, s.Holds a j sem → s.Holds b k sem → a = b ∧ j = k
  own : ∀ b k sem, s.Holds b k sem →
    s.names.value sem + tr.count (.semWait b k) = tr.count (.semPost b k)

/-- The semaphores are private after every step of the run, and each starts at zero. -/
structure Separated (tr : List Label) : Prop where
  isolated : ∀ pre post s, tr = pre ++ post → run init pre = some s → Private pre s
  zero : ∀ pre b post s, tr = pre ++ .semOpen b :: post → run init (pre ++ [.semOpen b]) = some s →
    ∀ m k, run init pre = some m → (m.barriers b).point = .createOpen k →
      ∃ sem, s.Holds b k sem ∧ s.names.value sem = 0

/-- This label opens a name that is linked at this moment. -/
def FindsLinked (s : State) (l : Label) : Prop :=
  ∃ b k, l = .semOpen b ∧ (s.barriers b).point = .createOpen k ∧
    s.names.linked (semaphoreName k) ≠ none

def NoneLinked (tr : List Label) : Prop :=
  ∀ pre l post s, tr = pre ++ l :: post → run init pre = some s → ¬ FindsLinked s l

/-! ## The invariant -/

/-- The semaphores that a barrier may hold at a program point. -/
def Point.mayHold : Point → SemIdx → Bool
  | .unborn, _ | .gone, _ => false
  | .createUnlink k, j | .createOpen k, j => k = .one && j = .zero
  | .alive, _ | .thrown, _ => true
  | .destroyUnlink k, j | .destroyClose k, j => k = .zero || j = .one

/-- The points before a barrier is alive. -/
def Point.unused : Point → Bool
  | .unborn | .createUnlink _ | .createOpen _ | .thrown => true
  | .alive | .destroyUnlink _ | .destroyClose _ | .gone => false

structure Inv (tr : List Label) (s : State) : Prop where
  /-- Only semaphores that exist are held, and none by two. -/
  below : ∀ b k sem, s.Holds b k sem → sem < s.names.created
  distinct : ∀ a b j k sem, s.Holds a j sem → s.Holds b k sem → a = b ∧ j = k
  held : ∀ b k sem, s.Holds b k sem → (s.barriers b).point.mayHold k = true
  /-- A linked semaphore is held, and its holder has not unlinked it. -/
  linkedHeld : ∀ k sem, s.names.linked (semaphoreName k) = some sem →
    ∃ b, s.Holds b k sem ∧ (s.barriers b).point ≠ .destroyClose k
  own : ∀ b k sem, s.Holds b k sem →
    s.names.value sem + tr.count (.semWait b k) = tr.count (.semPost b k)
  quiet : ∀ b k, (s.barriers b).point.unused = true →
    tr.count (.semPost b k) = 0 ∧ tr.count (.semWait b k) = 0

theorem semaphoreName_ne {j k : SemIdx} (h : j ≠ k) : semaphoreName j ≠ semaphoreName k := by
  cases j <;> cases k <;> first | exact absurd rfl h | decide

theorem mayHold_afterCreate {k j : SemIdx} (h : (Point.createOpen k).mayHold j = true ∨ j = k) :
    (Point.afterCreate k).mayHold j = true := by
  cases k <;> cases j <;> simp_all [Point.mayHold, Point.afterCreate]

theorem mayHold_afterDestroy {k j : SemIdx} (h : (Point.destroyClose k).mayHold j = true)
    (hjk : j ≠ k) : (Point.afterDestroy k).mayHold j = true := by
  cases k <;> cases j <;> simp_all [Point.mayHold, Point.afterDestroy]

theorem unused_afterDestroy (k : SemIdx) : (Point.afterDestroy k).unused = false := by
  cases k <;> rfl

theorem afterCreate_ne (k j : SemIdx) : Point.afterCreate k ≠ .destroyClose j := by
  cases k <;> simp [Point.afterCreate]

theorem afterDestroy_ne (k j : SemIdx) : Point.afterDestroy k ≠ .destroyClose j := by
  cases k <;> simp [Point.afterDestroy]

theorem init_inv : Inv [] init where
  below := by simp [State.Holds, init]
  distinct := by simp [State.Holds, init]
  held := by simp [State.Holds, init]
  linkedHeld := by simp [init]
  own := by simp [State.Holds, init]
  quiet := by simp

theorem Inv.isPrivate {tr : List Label} {s : State} (h : Inv tr s) : Private tr s where
  distinct := h.distinct
  own := h.own

theorem set_barriers (s : State) (b : Nat) (names : Namespace) (x : Barrier) (a : Nat) :
    (s.set b names x).barriers a = if a = b then x else s.barriers a := by
  simp [State.set, Function.update_apply]

@[simp] theorem set_names (s : State) (b : Nat) (names : Namespace) (x : Barrier) :
    (s.set b names x).names = names := rfl

theorem holds_update (s : State) (b : Nat) (names : Namespace) (point : Point) (k : SemIdx)
    (sem? : Option Nat) (a : Nat) (j : SemIdx) (sem : Nat) :
    (s.set b names ⟨point, Function.update (s.barriers b).semaphores k sem?⟩).Holds a j sem ↔
      if a = b ∧ j = k then sem? = some sem else s.Holds a j sem := by
  simp only [State.Holds, set_barriers]
  by_cases hab : a = b
  · subst hab
    by_cases hjk : j = k <;> simp [hjk]
  · simp [hab]

/-- A label that is no post and no wait leaves the counts as they were. -/
def Label.isUse : Label → Bool
  | .semPost _ _ | .semWait _ _ => true
  | _ => false

theorem count_of_not_use {l : Label} (hl : l.isUse = false) (tr : List Label) (b : Nat) (k : SemIdx) :
    (tr ++ [l]).count (.semPost b k) = tr.count (.semPost b k) ∧
      (tr ++ [l]).count (.semWait b k) = tr.count (.semWait b k) := by
  cases l <;> simp_all [Label.isUse, List.count_append]

section Steps

variable {tr : List Label} {s : State} {l : Label} {b : Nat}

/-- A barrier goes to another point with what it holds, and at most unlinks a name. -/
theorem Inv.move (h : Inv tr s) (hl : l.isUse = false) {point : Point} {linked : String → Option Nat}
    (hmay : ∀ k, (s.barriers b).point.mayHold k = true → point.mayHold k = true)
    (hunused : point.unused = true → (s.barriers b).point.unused = true)
    (hlinked : ∀ k sem, linked (semaphoreName k) = some sem →
      s.names.linked (semaphoreName k) = some sem ∧ point ≠ .destroyClose k) :
    Inv (tr ++ [l]) (s.set b { s.names with linked := linked } { s.barriers b with point := point }) := by
  have hholds : ∀ a k sem,
      (s.set b { s.names with linked := linked } { s.barriers b with point := point }).Holds a k sem ↔
        s.Holds a k sem := by
    intro a k sem
    by_cases hab : a = b
    · subst hab
      simp [State.Holds, set_barriers]
    · simp [State.Holds, set_barriers, hab]
  constructor
  case below =>
    intro a k sem ha
    exact h.below a k sem ((hholds a k sem).mp ha)
  case distinct =>
    intro a c j k sem ha hc
    exact h.distinct a c j k sem ((hholds a j sem).mp ha) ((hholds c k sem).mp hc)
  case held =>
    intro a k sem ha
    have hmayOld := h.held a k sem ((hholds a k sem).mp ha)
    rw [set_barriers]
    split
    · rename_i hab
      subst hab
      exact hmay k hmayOld
    · exact hmayOld
  case linkedHeld =>
    intro k sem hk
    obtain ⟨hold, hne⟩ := hlinked k sem hk
    obtain ⟨a, ha, hpoint⟩ := h.linkedHeld k sem hold
    refine ⟨a, (hholds a k sem).mpr ha, ?_⟩
    rw [set_barriers]
    split
    · exact hne
    · exact hpoint
  case own =>
    intro a k sem ha
    rw [(count_of_not_use hl tr a k).1, (count_of_not_use hl tr a k).2]
    exact h.own a k sem ((hholds a k sem).mp ha)
  case quiet =>
    intro a k ha
    rw [(count_of_not_use hl tr a k).1, (count_of_not_use hl tr a k).2]
    rw [set_barriers] at ha
    split at ha
    · rename_i hab
      subst hab
      exact h.quiet a k (hunused ha)
    · exact h.quiet a k ha

theorem Inv.goto (h : Inv tr s) (hl : l.isUse = false) {point : Point}
    (hmay : ∀ k, (s.barriers b).point.mayHold k = true → point.mayHold k = true)
    (hunused : point.unused = true → (s.barriers b).point.unused = true)
    (hpoint : ∀ k, point ≠ .destroyClose k) :
    Inv (tr ++ [l]) (s.set b s.names { s.barriers b with point := point }) := by
  have hmove : Inv (tr ++ [l]) (s.set b { s.names with linked := s.names.linked }
      { s.barriers b with point := point }) :=
    h.move hl hmay hunused fun k sem hk => ⟨hk, hpoint k⟩
  exact hmove

/-- A name that is not linked gives a new semaphore. -/
theorem Inv.opens (h : Inv tr s) {k : SemIdx} (hp : (s.barriers b).point = .createOpen k)
    (hfree : s.names.linked (semaphoreName k) = none) :
    Inv (tr ++ [.semOpen b]) (s.set b (s.names.semOpen (semaphoreName k)).2
      ⟨.afterCreate k, Function.update (s.barriers b).semaphores k (some s.names.created)⟩) := by
  have hcount := count_of_not_use (l := .semOpen b) rfl tr
  have hquiet := h.quiet b k (by rw [hp]; rfl)
  simp only [Namespace.semOpen, hfree]
  constructor
  case below =>
    intro a j sem ha
    rw [holds_update] at ha
    split at ha
    · cases ha
      exact Nat.lt_succ_self _
    · exact Nat.lt_succ_of_lt (h.below a j sem ha)
  case distinct =>
    intro a c i j sem ha hc
    rw [holds_update] at ha hc
    split at ha <;> split at hc
    · rename_i hab hcb
      exact ⟨hab.1.trans hcb.1.symm, hab.2.trans hcb.2.symm⟩
    · cases ha
      exact absurd (h.below c j _ hc) (Nat.lt_irrefl _)
    · cases hc
      exact absurd (h.below a i _ ha) (Nat.lt_irrefl _)
    · exact h.distinct a c i j sem ha hc
  case held =>
    intro a j sem ha
    rw [holds_update] at ha
    rw [set_barriers]
    split at ha
    · rename_i hab
      rw [if_pos hab.1]
      exact mayHold_afterCreate (.inr hab.2)
    · have hmay := h.held a j sem ha
      split
      · rename_i hab
        rw [hab, hp] at hmay
        exact mayHold_afterCreate (.inl hmay)
      · exact hmay
  case linkedHeld =>
    intro j sem hj
    by_cases hjk : j = k
    · subst hjk
      simp only [set_names, Function.update_self, Option.some.injEq] at hj
      refine ⟨b, ?_, ?_⟩
      · simp [holds_update, hj]
      · simpa [set_barriers] using afterCreate_ne j j
    · simp only [set_names, Function.update_of_ne (semaphoreName_ne hjk)] at hj
      obtain ⟨a, ha, hpoint⟩ := h.linkedHeld j sem hj
      refine ⟨a, ?_, ?_⟩
      · simpa [holds_update, hjk] using ha
      · rw [set_barriers]
        split
        · exact afterCreate_ne k j
        · exact hpoint
  case own =>
    intro a j sem ha
    rw [(hcount a j).1, (hcount a j).2]
    rw [holds_update] at ha
    split at ha
    · rename_i hab
      obtain ⟨rfl, rfl⟩ := hab
      cases ha
      simp [hquiet.1, hquiet.2]
    · have hne : sem ≠ s.names.created := Nat.ne_of_lt (h.below a j sem ha)
      simpa [Function.update_of_ne hne] using h.own a j sem ha
  case quiet =>
    intro a j ha
    rw [(hcount a j).1, (hcount a j).2]
    rw [set_barriers] at ha
    split at ha
    · rename_i hab
      exact h.quiet a j (by rw [hab, hp]; rfl)
    · exact h.quiet a j ha

theorem Inv.closes (h : Inv tr s) {k : SemIdx} (hp : (s.barriers b).point = .destroyClose k) :
    Inv (tr ++ [.semClose b]) (s.set b s.names
      ⟨.afterDestroy k, Function.update (s.barriers b).semaphores k none⟩) := by
  have hcount := count_of_not_use (l := .semClose b) rfl tr
  have hholds : ∀ a j sem, (s.set b s.names
      ⟨.afterDestroy k, Function.update (s.barriers b).semaphores k none⟩).Holds a j sem →
      ¬ (a = b ∧ j = k) ∧ s.Holds a j sem := by
    intro a j sem ha
    rw [holds_update] at ha
    split at ha
    · cases ha
    · exact ⟨‹_›, ha⟩
  constructor
  case below =>
    intro a j sem ha
    exact h.below a j sem (hholds a j sem ha).2
  case distinct =>
    intro a c i j sem ha hc
    exact h.distinct a c i j sem (hholds a i sem ha).2 (hholds c j sem hc).2
  case held =>
    intro a j sem ha
    obtain ⟨hne, ha⟩ := hholds a j sem ha
    have hmay := h.held a j sem ha
    rw [set_barriers]
    split
    · rename_i hab
      rw [hab, hp] at hmay
      exact mayHold_afterDestroy hmay fun hjk => hne ⟨hab, hjk⟩
    · exact hmay
  case linkedHeld =>
    -- the closed semaphore is not the linked one: its name was unlinked first
    intro j sem hj
    obtain ⟨a, ha, hpoint⟩ := h.linkedHeld j sem hj
    refine ⟨a, ?_, ?_⟩
    · rw [holds_update, if_neg]
      · exact ha
      · rintro ⟨rfl, rfl⟩
        exact hpoint hp
    · rw [set_barriers]
      split
      · exact afterDestroy_ne k j
      · exact hpoint
  case own =>
    intro a j sem ha
    rw [(hcount a j).1, (hcount a j).2]
    exact h.own a j sem (hholds a j sem ha).2
  case quiet =>
    intro a j ha
    rw [(hcount a j).1, (hcount a j).2]
    rw [set_barriers] at ha
    split at ha
    · rw [unused_afterDestroy] at ha
      cases ha
    · exact h.quiet a j ha

/-- The owner of a semaphore posts or takes, and no other barrier sees it. -/
theorem Inv.uses (h : Inv tr s) {k : SemIdx} {sem v : Nat} (hp : (s.barriers b).point = .alive)
    (hsem : s.Holds b k sem) (hl : l = .semPost b k ∨ l = .semWait b k)
    (hv : v + (tr ++ [l]).count (.semWait b k) = (tr ++ [l]).count (.semPost b k)) :
    Inv (tr ++ [l])
      { s with names := { s.names with value := Function.update s.names.value sem v } } := by
  have hother : ∀ a j, ¬ (a = b ∧ j = k) →
      (tr ++ [l]).count (.semPost a j) = tr.count (.semPost a j) ∧
        (tr ++ [l]).count (.semWait a j) = tr.count (.semWait a j) := by
    intro a j hne
    rcases hl with rfl | rfl <;> simp_all [List.count_append, eq_comm]
  refine ⟨h.below, h.distinct, h.held, h.linkedHeld, ?_, ?_⟩
  · intro a j sem' ha
    by_cases hab : a = b ∧ j = k
    · obtain ⟨rfl, rfl⟩ := hab
      obtain rfl : sem' = sem := Option.some.inj (ha.symm.trans hsem)
      simpa using hv
    · have hne : sem' ≠ sem := by
        rintro rfl
        exact hab (h.distinct a b j k sem' ha hsem)
      rw [(hother a j hab).1, (hother a j hab).2]
      simpa [Function.update_of_ne hne] using h.own a j sem' ha
  · intro a j ha
    by_cases hab : a = b ∧ j = k
    · obtain ⟨rfl, rfl⟩ := hab
      have : (s.barriers a).point.unused = true := ha
      rw [hp] at this
      cases this
    · rw [(hother a j hab).1, (hother a j hab).2]
      exact h.quiet a j ha

theorem linked_of_unlink {names : Namespace} {j k : SemIdx} {sem : Nat}
    (h : (names.semUnlink (semaphoreName k)).linked (semaphoreName j) = some sem) :
    j ≠ k ∧ names.linked (semaphoreName j) = some sem := by
  by_cases hjk : j = k
  · simp [Namespace.semUnlink, hjk] at h
  · simp only [Namespace.semUnlink, Function.update_of_ne (semaphoreName_ne hjk)] at h
    exact ⟨hjk, h⟩

theorem Inv.step {t : State} (h : Inv tr s) (hl : ¬ FindsLinked s l)
    (hstep : step s l = some t) : Inv (tr ++ [l]) t := by
  cases l with
  | construct b =>
    simp only [SemaphoreNames.step] at hstep
    split at hstep <;> cases hstep
    rename_i hp
    refine h.goto rfl ?_ ?_ ?_ <;> simp [hp, Point.mayHold, Point.unused]
  | semUnlink b =>
    simp only [SemaphoreNames.step] at hstep
    split at hstep <;> cases hstep
    · rename_i k hp
      refine h.move rfl (by simp [hp, Point.mayHold]) (by simp [hp, Point.unused]) ?_
      intro j sem hj
      exact ⟨(linked_of_unlink hj).2, by simp⟩
    · rename_i k hp
      refine h.move rfl (by simp [hp, Point.mayHold]) (by simp [hp, Point.unused]) ?_
      intro j sem hj
      obtain ⟨hjk, hold⟩ := linked_of_unlink hj
      exact ⟨hold, by simpa using hjk.symm⟩
  | semOpen b =>
    simp only [SemaphoreNames.step] at hstep
    split at hstep
    · rename_i k hp
      have hfree : s.names.linked (semaphoreName k) = none := by
        by_contra hne
        exact hl ⟨b, k, rfl, hp, hne⟩
      have hopen := h.opens hp hfree
      simp only [Namespace.semOpen, hfree, Option.some.injEq] at hstep hopen
      exact hstep ▸ hopen
    · cases hstep
  | semOpenFails b =>
    simp only [SemaphoreNames.step] at hstep
    split at hstep <;> cases hstep
    rename_i hp
    refine h.goto rfl ?_ ?_ ?_ <;> simp [hp, Point.mayHold, Point.unused]
  | destroy b =>
    simp only [SemaphoreNames.step] at hstep
    split at hstep <;> cases hstep
    rename_i hp
    refine h.goto rfl ?_ ?_ ?_ <;> simp [hp, Point.mayHold, Point.unused]
  | semClose b =>
    simp only [SemaphoreNames.step] at hstep
    split at hstep <;> cases hstep
    rename_i k hp
    exact h.closes hp
  | semPost b k =>
    simp only [SemaphoreNames.step] at hstep
    split at hstep <;> cases hstep
    rename_i sem hp hsem
    refine h.uses hp hsem (.inl rfl) ?_
    have := h.own b k sem hsem
    simp [List.count_append]
    omega
  | semWait b k =>
    simp only [SemaphoreNames.step] at hstep
    split at hstep
    · rename_i sem hp hsem
      obtain ⟨names, hwait, rfl⟩ := Option.map_eq_some_iff.mp hstep
      obtain ⟨hpos, rfl⟩ := Namespace.semWait_some hwait
      refine h.uses hp hsem (.inr rfl) ?_
      have := h.own b k sem hsem
      simp [List.count_append]
      omega
    · cases hstep

end Steps

/-! ## Runs -/

/-- A name that is linked when it is opened gives two barriers one semaphore. -/
theorem Inv.shares {tr : List Label} {s : State} {l : Label} (h : Inv tr s) (hl : FindsLinked s l) :
    ∃ t, SemaphoreNames.step s l = some t ∧
      ¬ ∀ a b j k sem, t.Holds a j sem → t.Holds b k sem → a = b ∧ j = k := by
  obtain ⟨b, k, rfl, hp, hlinked⟩ := hl
  obtain ⟨sem, hsem⟩ := Option.ne_none_iff_exists'.mp hlinked
  obtain ⟨a, ha, -⟩ := h.linkedHeld k sem hsem
  have hab : a ≠ b := by
    rintro rfl
    have hmay := h.held a k sem ha
    rw [hp] at hmay
    cases k <;> simp [Point.mayHold] at hmay
  refine ⟨s.set b s.names ⟨.afterCreate k, Function.update (s.barriers b).semaphores k (some sem)⟩,
    by simp [SemaphoreNames.step, hp, Namespace.semOpen, hsem], fun hdistinct => ?_⟩
  refine hab (hdistinct a b k k sem ?_ ?_).1
  · rw [holds_update, if_neg fun he => hab he.1]
    exact ha
  · simp [holds_update]

section Runs

variable {tr pre post : List Label} {s t : State} {l : Label} {b : Nat}

theorem inv_of_noneLinked (hno : NoneLinked tr) (h : run init tr = some s) : Inv tr s := by
  have hguarded : Exec.Guarded step (fun _ s l => ¬ FindsLinked s l) init tr s :=
    Exec.guarded_of_run h hno
  exact hguarded.invariant init_inv fun tr s l t hinv hl hstep => hinv.step hl hstep

theorem NoneLinked.take (h : NoneLinked (pre ++ post)) : NoneLinked pre := by
  rintro pre' l post' m rfl hm
  exact h pre' l (post' ++ post) m (by simp) hm

theorem Separated.not_findsLinked (h : Separated (pre ++ l :: post)) (hs : run init pre = some s)
    (hinv : Inv pre s) : ¬ FindsLinked s l := by
  intro hl
  obtain ⟨t, ht, hshare⟩ := hinv.shares hl
  have hrun : run init (pre ++ [l]) = some t := Exec.run_join hs (by simp [Exec.run_cons, ht])
  exact hshare (h.isolated (pre ++ [l]) post t (by simp) hrun).distinct

/-- As long as the semaphores are apart, no name was found linked. -/
theorem inv_of_separated (h : Separated (pre ++ post)) (hs : run init pre = some s) : Inv pre s := by
  refine Exec.throughout_of_steps init_inv ?_ pre post s rfl hs
  intro pre' l post' m t he hm hinv hstep
  exact hinv.step (Separated.not_findsLinked (he ▸ h) hm hinv) hstep

theorem opens_at_zero (hs : run init pre = some s) (hl : ¬ FindsLinked s (.semOpen b)) {k : SemIdx}
    (hp : (s.barriers b).point = .createOpen k) (ht : run init (pre ++ [.semOpen b]) = some t) :
    ∃ sem, t.Holds b k sem ∧ t.names.value sem = 0 := by
  have hfree : s.names.linked (semaphoreName k) = none := by
    by_contra hne
    exact hl ⟨b, k, rfl, hp, hne⟩
  obtain ⟨m, hm, hstep⟩ := Exec.run_split ht
  obtain rfl : s = m := Option.some.inj (hs.symm.trans hm)
  simp only [Exec.run_cons, step, hp, Namespace.semOpen, hfree, Option.bind_some, Exec.run_nil,
    Option.some.injEq] at hstep
  subst hstep
  exact ⟨s.names.created, by simp [holds_update], by simp⟩

/-- The semaphores of all barriers stay apart through a run if and only if no `sem_open` of
the run finds its name linked. -/
theorem separated_iff (tr : List Label) : Separated tr ↔ NoneLinked tr := by
  constructor
  · rintro h pre l post s rfl hs
    exact h.not_findsLinked hs (inv_of_separated h hs)
  · intro hno
    refine ⟨?_, ?_⟩
    · rintro pre post s rfl hs
      exact (inv_of_noneLinked hno.take hs).isPrivate
    · rintro pre b post t rfl ht m k hm hp
      exact opens_at_zero hm (hno pre (.semOpen b) post m rfl hm) hp ht

end Runs

/-- Two constructors, each of whose unlinks precedes the other's open. -/
def interleaved : List Label :=
  [.construct 0, .construct 1, .semUnlink 0, .semUnlink 1, .semOpen 0, .semOpen 1,
    .semUnlink 0, .semUnlink 1, .semOpen 0, .semOpen 1]

/-- Both barriers are alive with the same two semaphores, and a thread of the second pool can
take what the first pool posted. -/
theorem interleaved_shares :
    (∃ s, run init interleaved = some s ∧ (s.barriers 0).point = .alive ∧
      (s.barriers 1).point = .alive ∧ ∀ k, ∃ sem, s.Holds 0 k sem ∧ s.Holds 1 k sem) ∧
    (run init (interleaved ++ [.semPost 0 .zero, .semWait 1 .zero])).isSome = true ∧
    ¬ Separated interleaved := by
  have hshare : ∃ s, run init interleaved = some s ∧ (s.barriers 0).point = .alive ∧
      (s.barriers 1).point = .alive ∧ ∀ k, ∃ sem, s.Holds 0 k sem ∧ s.Holds 1 k sem := by
    have hview : (run init interleaved).map (fun s => ((s.barriers 0).point, (s.barriers 1).point,
        (s.barriers 0).semaphores .zero, (s.barriers 1).semaphores .zero,
        (s.barriers 0).semaphores .one, (s.barriers 1).semaphores .one)) =
        some (.alive, .alive, some 0, some 0, some 1, some 1) := by rfl
    obtain ⟨s, hs, hview⟩ := Option.map_eq_some_iff.mp hview
    simp only [Prod.mk.injEq] at hview
    obtain ⟨hp₀, hp₁, h₀₀, h₁₀, h₀₁, h₁₁⟩ := hview
    refine ⟨s, hs, hp₀, hp₁, fun k => ?_⟩
    cases k with
    | zero => exact ⟨0, h₀₀, h₁₀⟩
    | one => exact ⟨1, h₀₁, h₁₁⟩
  refine ⟨hshare, by rfl, fun hsep => ?_⟩
  obtain ⟨s, hs, -, -, hsem⟩ := hshare
  obtain ⟨sem, h₀, h₁⟩ := hsem .zero
  have := ((hsep.isolated interleaved [] s (by simp) hs).distinct 0 1 .zero .zero sem h₀ h₁).1
  cases this

end Twine.SemaphoreNames
