import Twine.Exec
import Mathlib.Data.List.Basic

/-!
# The EVL elements of worker pools

An EVL element has a name, and it exists as long as a file descriptor to it is
open. Each `..._create` of `EvlThreadHelper` makes an element and opens it once
more, into the same struct, and each `..._destroy` closes the descriptor that the
struct holds. The names depend on the calling thread alone, which is `tid`.
-/
namespace Twine.EvlElements

open Exec (Throughout Steps)

/-! ## EVL -/

def EEXIST : Int := 17
def ENOENT : Int := 2

/-- The open descriptors with the names of their elements; `next` is the next descriptor. -/
structure Evl where
  fds : List (Nat × String)
  next : Nat
  deriving DecidableEq, Repr

def Evl.names (evl : Evl) : List String := evl.fds.map Prod.snd

def Evl.openFd (evl : Evl) (name : String) : Evl := ⟨evl.fds ++ [(evl.next, name)], evl.next + 1⟩

def evlNew (evl : Evl) (name : String) : Except Int (Nat × Evl) :=
  if name ∈ evl.names then .error (-EEXIST) else .ok (evl.next, evl.openFd name)

def evlOpen (evl : Evl) (name : String) : Except Int (Nat × Evl) :=
  if name ∈ evl.names then .ok (evl.next, evl.openFd name) else .error (-ENOENT)

def evlClose (evl : Evl) (fd : Nat) : Evl := { evl with fds := evl.fds.filter fun f => f.1 ≠ fd }

/-! ## EvlThreadHelper -/

/-- The format `"%s-%d"`. -/
def elementName (tid : Int) (name : String) : String := name ++ ("-" ++ toString tid)

/-- What all three kinds of elements do: the result, the descriptor that the struct holds
afterwards, and the elements. -/
def create (tid : Int) (name : String) (evl : Evl) : Int × Option Nat × Evl :=
  match evlNew evl (elementName tid name) with
  | .error res => (res, none, evl)
  | .ok (fd, evl) =>
    match evlOpen evl (elementName tid name) with
    | .error res => (res, some fd, evl)
    | .ok (fd, evl) => (0, some fd, evl)

def destroy (handle : Option Nat) (evl : Evl) : Evl :=
  match handle with
  | some fd => evlClose evl fd
  | none => evl

def semaphoreCreate := create
def mutexCreate := create
def conditionVarCreate := create
def semaphoreDestroy := destroy
def mutexDestroy := destroy
def conditionVarDestroy := destroy

/-! ## BarrierWithTrigger -/

structure Barrier where
  semaphore0 : Option Nat
  semaphore1 : Option Nat
  callingMutex : Option Nat
  callingCond : Option Nat
  deriving DecidableEq, Repr

/-- How a construction ends: with an exception, or with the ignored results of the mutex and the
condition variable. -/
inductive Construction where
  | threw (res : Int)
  | built (mutex cond : Int)
  deriving DecidableEq, Repr

/-- A constructor that throws runs no destructor. -/
def barrierWithTrigger (tid : Int) (evl : Evl) : Construction × Option Barrier × Evl :=
  let (res, semaphore0, evl) := semaphoreCreate tid "/twine-barrier-sem-0" evl
  if res ≠ 0 then (.threw res, none, evl)
  else
    let (res, semaphore1, evl) := semaphoreCreate tid "/twine-barrier-sem-1" evl
    if res ≠ 0 then (.threw res, none, evl)
    else
      let (mutex, callingMutex, evl) := mutexCreate tid "/twine-barrier-mutex" evl
      let (cond, callingCond, evl) := conditionVarCreate tid "/twine-barrier-condvar" evl
      (.built mutex cond, some ⟨semaphore0, semaphore1, callingMutex, callingCond⟩, evl)

def destroyBarrier (b : Barrier) (evl : Evl) : Evl :=
  semaphoreDestroy b.semaphore1 (semaphoreDestroy b.semaphore0
    (conditionVarDestroy b.callingCond (mutexDestroy b.callingMutex evl)))

/-! ## Histories of pools -/

structure State where
  evl : Evl
  pools : List Barrier
  constructions : List Construction
  deriving DecidableEq, Repr

def init : State := ⟨⟨[], 0⟩, [], []⟩

inductive Op where
  | construct
  /-- The pool at this position among the live ones is destroyed. -/
  | destroy (k : Nat)
  deriving DecidableEq, Repr

def step (tid : Int) (s : State) : Op → Option State
  | .construct =>
    let (c, b, evl) := barrierWithTrigger tid s.evl
    some ⟨evl, s.pools ++ b.toList, s.constructions ++ [c]⟩
  | .destroy k =>
    match s.pools[k]? with
    | none => none
    | some b => some ⟨destroyBarrier b s.evl, s.pools.eraseIdx k, s.constructions⟩

/-- Every construction has made all its elements, and without a live pool there is none. -/
structure Clean (s : State) : Prop where
  built : ∀ c ∈ s.constructions, c = .built 0 0
  closed : s.pools = [] → s.evl.fds = []

/-! ## One element -/

theorem mem_names {evl : Evl} {name : String} : name ∈ evl.names ↔ ∃ fd, (fd, name) ∈ evl.fds := by
  simp [Evl.names]

theorem create_taken {tid : Int} {name : String} {evl : Evl}
    (h : elementName tid name ∈ evl.names) : create tid name evl = (-EEXIST, none, evl) := by
  simp [create, evlNew, h]

/-- The struct holds the second of the two descriptors. -/
theorem create_free {tid : Int} {name : String} {evl : Evl}
    (h : elementName tid name ∉ evl.names) :
    ∃ evl', create tid name evl = (0, some (evl.next + 1), evl') ∧ evl'.next = evl.next + 2 ∧
      evl'.fds = evl.fds ++
        [(evl.next, elementName tid name), (evl.next + 1, elementName tid name)] := by
  have hmem : elementName tid name ∈ (evl.openFd (elementName tid name)).names := by
    simp [Evl.names, Evl.openFd]
  refine ⟨(evl.openFd (elementName tid name)).openFd (elementName tid name), ?_, rfl, ?_⟩
  · simp only [create, evlNew, h, evlOpen, hmem, if_true, if_false]
    rfl
  · simp [Evl.openFd]

theorem mem_destroy {handle : Option Nat} {evl : Evl} {fd : Nat} {name : String} :
    (fd, name) ∈ (destroy handle evl).fds ↔ (fd, name) ∈ evl.fds ∧ handle ≠ some fd := by
  cases handle with
  | none => simp [destroy]
  | some fd' =>
    simp only [destroy, evlClose, List.mem_filter, decide_eq_true_eq, ne_eq, Option.some.injEq]
    rw [eq_comm (a := fd)]

@[simp] theorem elementName_inj {tid : Int} {name name' : String} :
    elementName tid name = elementName tid name' ↔ name = name' :=
  String.append_left_inj _

/-! ## One barrier -/

def elements : List String :=
  ["/twine-barrier-sem-0", "/twine-barrier-sem-1", "/twine-barrier-mutex", "/twine-barrier-condvar"]

/-- The descriptors that the structs hold. -/
def Barrier.handles (b : Barrier) : List (Option Nat) :=
  [b.semaphore0, b.semaphore1, b.callingMutex, b.callingCond]

theorem mem_destroyBarrier {b : Barrier} {evl : Evl} {fd : Nat} {name : String} :
    (fd, name) ∈ (destroyBarrier b evl).fds ↔ (fd, name) ∈ evl.fds ∧ some fd ∉ b.handles := by
  simp only [destroyBarrier, semaphoreDestroy, mutexDestroy, conditionVarDestroy, mem_destroy,
    Barrier.handles, List.mem_cons, List.not_mem_nil, or_false, not_or, eq_comm (a := some fd)]
  tauto

/-- While the name of the first semaphore is taken a constructor throws. -/
theorem construct_taken {tid : Int} {evl : Evl}
    (h : elementName tid "/twine-barrier-sem-0" ∈ evl.names) :
    barrierWithTrigger tid evl = (.threw (-EEXIST), none, evl) := by
  simp [barrierWithTrigger, semaphoreCreate, create_taken h, EEXIST]

/-- Without an element the constructor makes all four, and holds one of the two descriptors of
each. -/
theorem construct_first {tid : Int} {evl : Evl} (h : evl.fds = []) :
    ∃ b evl', barrierWithTrigger tid evl = (.built 0 0, some b, evl') ∧
      ∀ name ∈ elements, ∃ fd, (fd, elementName tid name) ∈ evl'.fds ∧ some fd ∉ b.handles := by
  obtain ⟨evl₁, hsem0, hnext₁, hfds₁⟩ :=
    @create_free tid "/twine-barrier-sem-0" evl (by simp [mem_names, h])
  obtain ⟨evl₂, hsem1, hnext₂, hfds₂⟩ :=
    @create_free tid "/twine-barrier-sem-1" evl₁ (by simp [mem_names, hfds₁, h])
  obtain ⟨evl₃, hmutex, hnext₃, hfds₃⟩ :=
    @create_free tid "/twine-barrier-mutex" evl₂ (by simp [mem_names, hfds₁, hfds₂, h])
  obtain ⟨evl₄, hcond, hnext₄, hfds₄⟩ :=
    @create_free tid "/twine-barrier-condvar" evl₃ (by simp [mem_names, hfds₁, hfds₂, hfds₃, h])
  refine ⟨⟨some (evl.next + 1), some (evl₁.next + 1), some (evl₂.next + 1), some (evl₃.next + 1)⟩,
    evl₄, ?_, ?_⟩
  · simp [barrierWithTrigger, semaphoreCreate, mutexCreate, conditionVarCreate, hsem0, hsem1,
      hmutex, hcond]
  · -- of each element the first descriptor is lost
    intro name hname
    simp only [elements, List.mem_cons, List.not_mem_nil, or_false] at hname
    simp only [Barrier.handles, hfds₄, hfds₃, hfds₂, hfds₁, hnext₃, hnext₂, hnext₁, h]
    rcases hname with rfl | rfl | rfl | rfl
    · exact ⟨evl.next, by simp, by simp; omega⟩
    · exact ⟨evl.next + 2, by simp, by simp⟩
    · exact ⟨evl.next + 4, by simp, by simp⟩
    · exact ⟨evl.next + 6, by simp, by simp⟩

/-! ## What a pool leaves behind -/

/-- Every element has a descriptor that no struct holds. -/
def Leaks (tid : Int) (s : State) : Prop :=
  ∀ name ∈ elements, ∃ fd, (fd, elementName tid name) ∈ s.evl.fds ∧
    ∀ b ∈ s.pools, some fd ∉ b.handles

/-- Before the first construction there is nothing, after it the elements stay. -/
structure Inv (tid : Int) (s : State) : Prop where
  single : s.pools.length ≤ 1
  fresh : s.constructions = [] → s.pools = [] ∧ s.evl.fds = []
  leaks : s.constructions ≠ [] → Leaks tid s

theorem init_inv (tid : Int) : Inv tid init := ⟨by simp [init], fun _ => ⟨rfl, rfl⟩, by simp [init]⟩

section Inv

variable {tid : Int} {s t : State}

theorem Inv.taken (h : Inv tid s) (hc : s.constructions ≠ []) :
    elementName tid "/twine-barrier-sem-0" ∈ s.evl.names := by
  obtain ⟨fd, hfd, -⟩ := h.leaks hc "/twine-barrier-sem-0" (by simp [elements])
  exact mem_names.mpr ⟨fd, hfd⟩

/-- The first construction makes a pool. -/
theorem Inv.construct_first (h : Inv tid s) (hc : s.constructions = [])
    (hstep : step tid s .construct = some t) :
    Inv tid t ∧ t.constructions = [.built 0 0] ∧ t.pools ≠ [] := by
  obtain ⟨hpools, hfds⟩ := h.fresh hc
  obtain ⟨b, evl', hbuilt, hleaks⟩ := @EvlElements.construct_first tid s.evl hfds
  simp only [step, hbuilt, hpools, hc, Option.toList_some, List.nil_append, Option.some.injEq] at hstep
  subst hstep
  exact ⟨⟨by simp, by simp, fun _ name hname => by simpa using hleaks name hname⟩, rfl, by simp⟩

/-- Every further one throws. -/
theorem Inv.construct_again (h : Inv tid s) (hc : s.constructions ≠ [])
    (hstep : step tid s .construct = some t) :
    t = { s with constructions := s.constructions ++ [.threw (-EEXIST)] } := by
  simp only [step, construct_taken (h.taken hc), Option.toList_none, List.append_nil,
    Option.some.injEq] at hstep
  exact hstep.symm

theorem Inv.destroy (h : Inv tid s) {k : Nat} (hstep : step tid s (.destroy k) = some t) :
    Inv tid t ∧ s.constructions ≠ [] ∧ t.pools = [] ∧ t.constructions = s.constructions := by
  simp only [step] at hstep
  split at hstep
  · cases hstep
  · rename_i b hb
    cases hstep
    have hsingle := h.single
    have hk := (List.getElem?_eq_some_iff.mp hb).1
    have hc : s.constructions ≠ [] := by
      intro hc
      rw [(h.fresh hc).1] at hk
      cases hk
    have hpools : s.pools.eraseIdx k = [] := by
      rw [← List.length_eq_zero_iff, List.length_eraseIdx_of_lt hk]
      omega
    refine ⟨⟨by simp [hpools], fun he => absurd he hc, fun _ name hname => ?_⟩, hc, hpools, rfl⟩
    obtain ⟨fd, hfd, hout⟩ := h.leaks hc name hname
    have hleft := mem_destroyBarrier.mpr ⟨hfd, hout b (List.mem_of_getElem? hb)⟩
    exact ⟨fd, hleft, by simp [hpools]⟩

theorem Inv.step (h : Inv tid s) {op : Op} (hstep : step tid s op = some t) : Inv tid t := by
  cases op with
  | construct =>
    by_cases hc : s.constructions = []
    · exact (h.construct_first hc hstep).1
    · rw [h.construct_again hc hstep]
      exact ⟨h.single, by simp, fun _ => h.leaks hc⟩
  | destroy k => exact (h.destroy hstep).1

theorem Leaks.open (h : Leaks tid s) : s.evl.fds ≠ [] := by
  intro hnil
  obtain ⟨fd, hfd, -⟩ := h "/twine-barrier-mutex" (by simp [elements])
  rw [hnil] at hfd
  cases hfd

end Inv

/-- Whatever the history, after the first construction the elements exist for good and every
construction throws. -/
theorem never_again (tid : Int) (tr : List Op) :
    Throughout (step tid) init (fun _ s => s.constructions ≠ [] → Leaks tid s ∧
      barrierWithTrigger tid s.evl = (.threw (-EEXIST), none, s.evl)) tr := by
  have hinv : Throughout (step tid) init (fun _ s => Inv tid s) tr :=
    Exec.throughout_of_steps (init_inv tid) fun _ _ _ _ _ _ _ hi hstep => hi.step hstep
  exact hinv.mono fun _ _ hi hc => ⟨hi.leaks hc, construct_taken (hi.taken hc)⟩

/-- All constructions succeed and all elements go away with the pools exactly in the histories
that construct one pool at most and destroy none. -/
theorem clean_iff (tid : Int) (tr : List Op) :
    Throughout (step tid) init (fun _ s => Clean s) tr ↔
      Steps (step tid) init (fun s op => ¬ (s.constructions ≠ [] ∨ ∃ k, op = .destroy k)) tr := by
  refine Exec.throughout_iff (I := fun _ s => Inv tid s ∧ Clean s) (O := fun _ _ => True)
    ⟨init_inv tid, ⟨by simp [init], fun _ => rfl⟩⟩ ?_ (fun _ _ hi => hi.2) ?_ Exec.steps_true
  · rintro tr s op t ⟨hi, -⟩ - hop hstep
    push Not at hop
    obtain ⟨hc, hop⟩ := hop
    cases op with
    | construct =>
      obtain ⟨ht, hbuilt, hpools⟩ := hi.construct_first hc hstep
      refine ⟨ht, ⟨by simp [hbuilt], fun hnil => absurd hnil hpools⟩⟩
    | destroy k => exact absurd rfl (hop k)
  · rintro tr s op t ⟨hi, hclean⟩ - hop hstep hclean'
    cases op with
    | construct =>
      have hc : s.constructions ≠ [] := by
        rcases hop with hc | ⟨k, he⟩
        · exact hc
        · cases he
      rw [hi.construct_again hc hstep] at hclean'
      have := hclean'.built (.threw (-EEXIST)) (by simp)
      cases this
    | destroy k =>
      obtain ⟨ht, hc, hpools, hsame⟩ := hi.destroy hstep
      exact (ht.leaks (hsame ▸ hc)).open (hclean'.closed hpools)

/-- A pool is destroyed and a second one constructed. -/
theorem second_pool_throws :
    ¬ Throughout (step 1) init (fun _ s => Clean s) [.construct, .destroy 0, .construct] := by
  intro h
  have hrun : ∃ s, Exec.run (step 1) init [.construct, .destroy 0, .construct] = some s ∧
      .threw (-EEXIST) ∈ s.constructions := ⟨_, rfl, by decide⟩
  obtain ⟨s, hrun, hthrew⟩ := hrun
  cases (h _ [] s (by simp) hrun).built _ hthrew

end Twine.EvlElements
