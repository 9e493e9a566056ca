import Mathlib.Data.List.Perm.Basic
import Twine.CondVarCreation

/-!
# What the condition variables of a process hold

A history of creations, whatever their system calls return, and of destructions. Its
account tells from the calls alone which objects are alive, how many ids are lost and
which handles stay open: a creation that throws after it took an id keeps the id and all
that it has opened, and an EVL object keeps its id when it is destroyed.
-/
namespace Twine.CondVarLedger

open CondVarIds (Build deregisterId)
open CondVarCreation (Calls CondVar Fault createRtConditionVariable construct stateAfter)

/-- The table and the open handles, and the objects that are alive. -/
structure State extends CondVarCreation.State where
  objects : List CondVar
  deriving DecidableEq, Repr

def init (maxRtCondVars : Nat) : State := ⟨⟨List.replicate maxRtCondVars false, []⟩, []⟩

def build : Calls → Build
  | .xenomai _ => .xenomai
  | .evl _ _ => .evl

/-- Closing what is not open is an error that nobody looks at. -/
def close (handles : List Int) (handle : Int) : List Int := handles.erase handle

/-- Both destructors close the handles, that of Xenomai in the reverse order. -/
def destroyCondVar (s : CondVarCreation.State) (o : CondVar) : Build → CondVarCreation.State
  | .xenomai => ⟨deregisterId s.activeIds o.id, o.handles.reverse.foldl close s.handles⟩
  | .evl => ⟨s.activeIds, o.handles.foldl close s.handles⟩

inductive Op where
  | create (calls : Calls)
  /-- The object at this position among the live ones is destroyed. -/
  | destroy (k : Nat)
  deriving DecidableEq, Repr

def step (b : Build) (s : State) : Op → Option State
  | .create calls =>
    if build calls = b then
      match createRtConditionVariable calls s.toState with
      | .ok o t => some ⟨t, s.objects ++ [o]⟩
      | .error _ t => some ⟨t, s.objects⟩
    else none
  | .destroy k =>
    match s.objects[k]? with
    | none => none
    | some o => some ⟨destroyCondVar s.toState o b, s.objects.eraseIdx k⟩

abbrev run (b : Build) : State → List Op → Option State := Exec.run (step b)

/-! ## The account -/

/-- The constructor returns. -/
def Returns : Calls → Prop
  | .xenomai calls => (Calls.xenomai calls).Complete
  | .evl xbufToRt _ => 0 ≤ xbufToRt

instance (calls : Calls) : Decidable (Returns calls) := by
  cases calls <;> simp only [Returns, Calls.Complete] <;> infer_instance

/-- What the calls return that the constructor makes, up to the one that fails. -/
def returned : Calls → List Int
  | .xenomai calls =>
    if calls.socket < 0 ∨ calls.bind < 0 then [calls.socket]
    else if calls.eventfd ≤ 0 then [calls.socket, calls.eventfd]
    else [calls.socket, calls.eventfd, calls.openRtp]
  | .evl xbufToRt xbufToNonrt => if xbufToRt < 0 then [xbufToRt] else [xbufToRt, xbufToNonrt]

/-- The handles among them. -/
def valid (returned : List Int) : List Int := returned.filter fun handle => 0 ≤ handle

structure Account where
  /-- The handles of each live object, as its members hold them. -/
  live : List (List Int)
  lostIds : Nat
  leaked : List Int
  deriving DecidableEq, Repr

def Account.create (maxRtCondVars : Nat) (x : Account) (calls : Calls) : Account :=
  if x.live.length + x.lostIds = maxRtCondVars then x
  else if Returns calls then { x with live := x.live ++ [returned calls] }
  else { x with lostIds := x.lostIds + 1, leaked := x.leaked ++ valid (returned calls) }

def Account.destroy (b : Build) (x : Account) (k : Nat) : Account :=
  { x with
    live := x.live.eraseIdx k
    lostIds := if b = .evl then x.lostIds + 1 else x.lostIds }

def Account.next (maxRtCondVars : Nat) (b : Build) (x : Account) : Op → Account
  | .create calls => x.create maxRtCondVars calls
  | .destroy k => x.destroy b k

/-- The account of a history. -/
def account (maxRtCondVars : Nat) (b : Build) (tr : List Op) : Account :=
  tr.foldl (Account.next maxRtCondVars b) ⟨[], 0, []⟩

theorem account_snoc (n : Nat) (b : Build) (tr : List Op) (op : Op) :
    account n b (tr ++ [op]) = (account n b tr).next n b op := by
  simp [account]

/-- The process holds what the account says. -/
structure Accounted (maxRtCondVars : Nat) (s : State) (x : Account) : Prop where
  live : s.objects.map CondVar.handles = x.live
  handles : s.handles.Perm (valid x.live.flatten ++ x.leaked)
  /-- The ids of the live objects are marked, and no two objects share one. -/
  marked : ∀ o ∈ s.objects, s.activeIds[o.id]? = some true
  distinct : (s.objects.map CondVar.id).Nodup
  size : s.activeIds.length = maxRtCondVars
  ids : s.activeIds.count true = x.live.length + x.lostIds
  open_valid : ∀ handle ∈ s.handles, 0 ≤ handle

/-! ## The constructors -/

theorem opened_handles (s : CondVarCreation.State) (handle : Int) :
    (s.opened handle).handles = s.handles ++ valid [handle] := by
  simp only [CondVarCreation.State.opened, valid]
  split
  · rename_i h
    simp [h]
  · rename_i h
    simp [h]

theorem valid_append (l l' : List Int) : valid (l ++ l') = valid l ++ valid l' := by
  simp [valid]

open CondVarCreation (XenomaiCalls xenomaiConditionVariable evlConditionVariable setUpSocket
  setUpFiles throwIf_neg throwIf_pos) in
/-- A constructor that throws leaves open what it has opened. -/
theorem xenomai_leaves {calls : XenomaiCalls} (h : ¬ (Calls.xenomai calls).Complete) (id : Nat)
    (s : CondVarCreation.State) :
    ∃ fault t, (∀ e, fault ≠ .ids e) ∧ xenomaiConditionVariable calls id s = .error fault t ∧
      t.handles = s.handles ++ valid (returned (.xenomai calls)) := by
  by_cases hsocket : calls.socket < 0
  · simp only [xenomaiConditionVariable, setUpSocket, throwIf_pos hsocket, returned, hsocket,
      true_or, if_true]
    exact ⟨.xddpNotEnabled, s.opened calls.socket, by simp, rfl, opened_handles s calls.socket⟩
  by_cases hbind : calls.bind < 0
  · simp only [xenomaiConditionVariable, setUpSocket, throwIf_neg hsocket, throwIf_pos hbind,
      returned, hbind, or_true, if_true]
    exact ⟨.strerror, s.opened calls.socket, by simp, rfl, opened_handles s calls.socket⟩
  have hsocket' : ¬ (calls.socket < 0 ∨ calls.bind < 0) := not_or.mpr ⟨hsocket, hbind⟩
  by_cases heventfd : calls.eventfd ≤ 0
  · simp only [xenomaiConditionVariable, setUpSocket, setUpFiles, throwIf_neg hsocket,
      throwIf_neg hbind, throwIf_pos heventfd, returned, if_neg hsocket', if_pos heventfd]
    refine ⟨.strerror, (s.opened calls.socket).opened calls.eventfd, by simp, rfl, ?_⟩
    rw [opened_handles, opened_handles, List.append_assoc, ← valid_append]
    rfl
  by_cases hopen : calls.openRtp ≤ 0
  · simp only [xenomaiConditionVariable, setUpSocket, setUpFiles, throwIf_neg hsocket,
      throwIf_neg hbind, throwIf_neg heventfd, throwIf_pos hopen, returned, if_neg hsocket',
      if_neg heventfd]
    refine ⟨.strerror, ((s.opened calls.socket).opened calls.eventfd).opened calls.openRtp,
      by simp, rfl, ?_⟩
    simp only [opened_handles, List.append_assoc, ← valid_append]
    rfl
  · exact absurd ⟨by omega, by omega, by omega, by omega⟩ h

/-- The constructor opens what its calls returned, and it throws if the last one failed. -/
theorem construct_outcome (calls : Calls) (id : Nat) (s : CondVarCreation.State) :
    ∃ t : CondVarCreation.State, t.handles = s.handles ++ valid (returned calls) ∧
      if Returns calls then construct id calls s = .ok ⟨id, returned calls⟩ t
      else ∃ fault, (∀ e, fault ≠ .ids e) ∧ construct id calls s = .error fault t := by
  by_cases h : Returns calls
  · simp only [if_pos h]
    cases calls with
    | xenomai calls =>
      have hreturned : returned (.xenomai calls) = [calls.socket, calls.eventfd, calls.openRtp] := by
        obtain ⟨hsocket, hbind, heventfd, -⟩ := h
        simp only [returned, not_or.mpr ⟨hsocket.not_gt, hbind.not_gt⟩, heventfd.not_ge, if_false]
      rw [hreturned]
      refine ⟨_, ?_, CondVarCreation.xenomai_returns h id s⟩
      simp only [opened_handles, List.append_assoc, ← valid_append]
      rfl
    | evl xbufToRt xbufToNonrt =>
      have hreturned : returned (.evl xbufToRt xbufToNonrt) = [xbufToRt, xbufToNonrt] :=
        if_neg (not_lt.mpr h)
      rw [hreturned]
      refine ⟨_, ?_, CondVarCreation.evl_returns h xbufToNonrt id s⟩
      simp only [opened_handles, List.append_assoc, ← valid_append]
      rfl
  · simp only [if_neg h]
    cases calls with
    | xenomai calls =>
      obtain ⟨fault, t, hfault, herror, hopened⟩ := xenomai_leaves h id s
      exact ⟨t, hopened, fault, hfault, herror⟩
    | evl xbufToRt xbufToNonrt =>
      have hlt : xbufToRt < 0 := not_le.mp h
      refine ⟨s, ?_, .strerror, by simp, CondVarCreation.evl_throws hlt xbufToNonrt id s⟩
      simp [returned, valid, hlt]

/-! ## The table -/

theorem exhausted_iff {activeIds : List Bool} :
    false ∉ activeIds ↔ activeIds.count true = activeIds.length := by
  rw [List.count_eq_length]
  constructor
  · intro h active hmem
    cases active with
    | true => rfl
    | false => exact absurd hmem h
  · intro h hmem
    exact absurd (h false hmem) (by decide)

theorem count_mark {activeIds : List Bool} {id : Nat} (h : activeIds[id]? = some false) :
    (activeIds.set id true).count true = activeIds.count true + 1 := by
  obtain ⟨hlt, hfree⟩ := List.getElem?_eq_some_iff.mp h
  rw [List.count_set hlt]
  simp [hfree]

theorem count_deregister {activeIds : List Bool} {id : Nat} (h : activeIds[id]? = some true) :
    (deregisterId activeIds id).count true + 1 = activeIds.count true := by
  obtain ⟨hlt, hmarked⟩ := List.getElem?_eq_some_iff.mp h
  have hpos : 0 < activeIds.count true := List.count_pos_iff.mpr (hmarked ▸ List.getElem_mem hlt)
  rw [deregisterId, List.count_set hlt]
  simp only [hmarked]
  simp
  omega

/-- The id is marked before the constructor runs. -/
theorem create_marks {s : CondVarCreation.State} (h : false ∈ s.activeIds) (calls : Calls) :
    ∃ id, s.activeIds[id]? = some false ∧
      createRtConditionVariable calls s =
        construct id calls { s with activeIds := s.activeIds.set id true } := by
  obtain ⟨id, hfree, hnext⟩ := CondVarIds.getNextId_free h
  refine ⟨id, hfree, ?_⟩
  simp only [createRtConditionVariable, bind, EStateM.bind, CondVarCreation.takeNextId_eq, hnext]

/-! ## What an operation does to the account -/

section Operations

variable {n : Nat} {b : Build} {s t : State} {x : Account}

theorem init_accounted (n : Nat) (b : Build) : Accounted n (init n) (account n b []) where
  live := rfl
  handles := List.Perm.refl _
  marked := by
    intro o ho
    cases ho
  distinct := List.nodup_nil
  size := List.length_replicate
  ids := by simp [init, account, List.count_replicate]
  open_valid := by
    intro handle hh
    cases hh

theorem Accounted.full_iff (h : Accounted n s x) :
    false ∉ s.activeIds ↔ x.live.length + x.lostIds = n := by
  rw [exhausted_iff, h.size, h.ids]

theorem mem_valid {handle : Int} {l : List Int} : handle ∈ valid l ↔ handle ∈ l ∧ 0 ≤ handle := by
  simp [valid]

/-- What a constructor leaves in the table and among the handles, without its object. -/
theorem Accounted.constructed (h : Accounted n s x) {id : Nat}
    (hid : s.activeIds[id]? = some false) {calls : Calls} {u : CondVarCreation.State}
    (hids : u.activeIds = s.activeIds.set id true)
    (hhandles : u.handles = s.handles ++ valid (returned calls)) :
    u.activeIds.length = n ∧ u.activeIds.count true = x.live.length + x.lostIds + 1 ∧
      (∀ handle ∈ u.handles, 0 ≤ handle) ∧ u.activeIds[id]? = some true ∧
      ∀ o ∈ s.objects, u.activeIds[o.id]? = some true ∧ o.id ≠ id := by
  have hlt := (List.getElem?_eq_some_iff.mp hid).1
  rw [hids, hhandles]
  refine ⟨by simpa using h.size, by rw [count_mark hid, h.ids], ?_, ?_, ?_⟩
  · intro handle hh
    cases List.mem_append.mp hh with
    | inl hh => exact h.open_valid handle hh
    | inr hh => exact (mem_valid.mp hh).2
  · exact List.getElem?_set_self hlt
  · intro o ho
    have hmarked := h.marked o ho
    have hne : o.id ≠ id := by
      intro he
      rw [he, hid] at hmarked
      cases hmarked
    exact ⟨by rw [List.getElem?_set_ne hne.symm, hmarked], hne⟩

/-- An object is there whose id is the one that was marked. -/
theorem Accounted.returns (h : Accounted n s x) {id : Nat}
    (hid : s.activeIds[id]? = some false) {calls : Calls} {u : CondVarCreation.State}
    (hids : u.activeIds = s.activeIds.set id true)
    (hhandles : u.handles = s.handles ++ valid (returned calls)) :
    Accounted n ⟨u, s.objects ++ [⟨id, returned calls⟩]⟩
      { x with live := x.live ++ [returned calls] } := by
  obtain ⟨hsize, hcount, hvalid, hmarked, hothers⟩ := h.constructed hid hids hhandles
  constructor
  case live => simp [h.live]
  case handles =>
    rw [hhandles]
    simp only [List.flatten_append, List.flatten_singleton, valid_append]
    have hperm := h.handles.append_right (valid (returned calls))
    rw [List.append_assoc] at hperm ⊢
    exact hperm.trans (List.perm_append_comm.append_left _)
  case marked =>
    intro o ho
    simp only [List.mem_append, List.mem_singleton] at ho
    cases ho with
    | inl ho => exact (hothers o ho).1
    | inr ho =>
      subst ho
      exact hmarked
  case distinct =>
    rw [List.map_append]
    refine h.distinct.append (List.nodup_singleton id) ?_
    simp only [List.map_cons, List.map_nil, List.disjoint_singleton, List.mem_map, not_exists,
      not_and]
    exact fun o ho => (hothers o ho).2
  case size => exact hsize
  case ids =>
    rw [List.length_append, List.length_singleton, Nat.add_right_comm]
    exact hcount
  case open_valid => exact hvalid

/-- The id stays marked and the handles stay open, and nobody has them. -/
theorem Accounted.throws (h : Accounted n s x) {id : Nat}
    (hid : s.activeIds[id]? = some false) {calls : Calls} {u : CondVarCreation.State}
    (hids : u.activeIds = s.activeIds.set id true)
    (hhandles : u.handles = s.handles ++ valid (returned calls)) :
    Accounted n ⟨u, s.objects⟩
      { x with lostIds := x.lostIds + 1, leaked := x.leaked ++ valid (returned calls) } := by
  obtain ⟨hsize, hcount, hvalid, -, hothers⟩ := h.constructed hid hids hhandles
  constructor
  case live => exact h.live
  case handles =>
    rw [hhandles, ← List.append_assoc]
    exact h.handles.append_right _
  case marked => exact fun o ho => (hothers o ho).1
  case distinct => exact h.distinct
  case size => exact hsize
  case ids => exact hcount
  case open_valid => exact hvalid

theorem Accounted.create (h : Accounted n s x) {calls : Calls}
    (hstep : step b s (.create calls) = some t) : Accounted n t (x.create n calls) := by
  have hstep := (Option.ite_none_right_eq_some.mp hstep).2
  by_cases hfree : false ∈ s.activeIds
  · have hroom : x.live.length + x.lostIds ≠ n := fun he => h.full_iff.mpr he hfree
    obtain ⟨id, hid, hcreate⟩ := create_marks hfree calls
    obtain ⟨u, hhandles, houtcome⟩ := construct_outcome calls id
      { s.toState with activeIds := s.activeIds.set id true }
    have hkeeps : (stateAfter (construct id calls
        { s.toState with activeIds := s.activeIds.set id true })).activeIds =
        s.activeIds.set id true := CondVarCreation.keepsTable_construct id calls _
    simp only [Account.create, if_neg hroom]
    by_cases hreturns : Returns calls
    · simp only [if_pos hreturns] at houtcome ⊢
      rw [hcreate, houtcome] at hstep
      simp only [houtcome, stateAfter] at hkeeps
      cases hstep
      exact h.returns hid hkeeps hhandles
    · simp only [if_neg hreturns] at houtcome ⊢
      obtain ⟨fault, -, herror⟩ := houtcome
      rw [hcreate, herror] at hstep
      simp only [herror, stateAfter] at hkeeps
      cases hstep
      exact h.throws hid hkeeps hhandles
  · rw [CondVarCreation.create_full hfree] at hstep
    cases hstep
    simpa only [Account.create, if_pos (h.full_iff.mp hfree)] using h

/-- Closing the handles of an object takes them, those that are handles, out of the open ones. -/
theorem close_all {handles object rest : List Int} (h : handles.Perm (valid object ++ rest))
    (hvalid : ∀ handle ∈ handles, 0 ≤ handle) : (object.foldl close handles).Perm rest := by
  induction object generalizing handles with
  | nil => exact h
  | cons handle object ih =>
    apply ih
    · by_cases hpos : 0 ≤ handle
      · have hcons : valid (handle :: object) = handle :: valid object := by simp [valid, hpos]
        rw [hcons] at h
        have herase := h.erase handle
        simpa [close] using herase
      · have hskip : valid (handle :: object) = valid object := by simp [valid, hpos]
        have hnot : handle ∉ handles := fun hmem => hpos (hvalid handle hmem)
        rw [hskip] at h
        simpa [close, List.erase_of_not_mem hnot] using h
    · exact fun handle' hmem => hvalid handle' (List.mem_of_mem_erase hmem)

theorem mem_of_mem_closed {handles object : List Int} {handle : Int}
    (h : handle ∈ object.foldl close handles) : handle ∈ handles := by
  induction object generalizing handles with
  | nil => exact h
  | cons _ _ ih => exact List.mem_of_mem_erase (ih h)

/-- The handles of the object at position `k`, and all others. -/
theorem Accounted.handles_at (h : Accounted n s x) {k : Nat} (hk : k < s.objects.length) :
    s.handles.Perm (valid s.objects[k].handles ++ (valid (x.live.eraseIdx k).flatten ++ x.leaked)) := by
  have hperm := List.getElem_cons_eraseIdx_perm hk
  have hflat := ((hperm.map CondVar.handles).flatten.filter fun handle => 0 ≤ handle).symm
  rw [List.map_cons, List.flatten_cons, ← List.eraseIdx_map, h.live] at hflat
  rw [← List.append_assoc, ← valid_append]
  exact h.handles.trans (hflat.append_right _)

theorem Accounted.destroy (h : Accounted n s x) {k : Nat}
    (hstep : step b s (.destroy k) = some t) : Accounted n t (x.destroy b k) := by
  simp only [step] at hstep
  split at hstep <;> cases hstep
  rename_i o ho
  obtain ⟨hk, rfl⟩ := List.getElem?_eq_some_iff.mp ho
  have hperm := List.getElem_cons_eraseIdx_perm hk
  have hlive : x.live = s.objects.map CondVar.handles := h.live.symm
  have hlength : (x.live.eraseIdx k).length + 1 = x.live.length :=
    List.length_eraseIdx_add_one (by simpa [hlive] using hk)
  have hmarked := h.marked s.objects[k] (List.getElem_mem hk)
  obtain ⟨hgone, hdistinct⟩ : s.objects[k].id ∉ (s.objects.eraseIdx k).map CondVar.id ∧
      ((s.objects.eraseIdx k).map CondVar.id).Nodup :=
    List.nodup_cons.mp ((hperm.map CondVar.id).nodup_iff.mpr h.distinct)
  have hhandles := h.handles_at hk
  have hothers : ∀ o ∈ s.objects.eraseIdx k, s.activeIds[o.id]? = some true ∧
      s.objects[k].id ≠ o.id := by
    intro o ho
    refine ⟨h.marked o (List.mem_of_mem_eraseIdx ho), fun he => hgone ?_⟩
    exact he ▸ List.mem_map_of_mem ho
  cases b with
  | xenomai =>
    constructor
    case live => simp [Account.destroy, hlive, List.eraseIdx_map]
    case handles =>
      refine close_all (List.Perm.trans hhandles ?_) h.open_valid
      exact ((List.reverse_perm _).symm.filter _).append_right _
    case marked =>
      intro o ho
      show (deregisterId s.activeIds s.objects[k].id)[o.id]? = some true
      rw [deregisterId, List.getElem?_set_ne (hothers o ho).2, (hothers o ho).1]
    case distinct => exact hdistinct
    case size =>
      show (deregisterId s.activeIds s.objects[k].id).length = n
      simp [deregisterId, h.size]
    case ids =>
      have hcount := count_deregister hmarked
      have hids := h.ids
      simp only [destroyCondVar, Account.destroy, reduceCtorEq, if_false]
      omega
    case open_valid => exact fun handle hh => h.open_valid handle (mem_of_mem_closed hh)
  | evl =>
    constructor
    case live => simp [Account.destroy, hlive, List.eraseIdx_map]
    case handles => exact close_all hhandles h.open_valid
    case marked => exact fun o ho => (hothers o ho).1
    case distinct => exact hdistinct
    case size => exact h.size
    case ids =>
      have hids := h.ids
      simp only [destroyCondVar, Account.destroy, if_true]
      omega
    case open_valid => exact fun handle hh => h.open_valid handle (mem_of_mem_closed hh)

theorem Accounted.step {op : Op} (h : Accounted n s x) (hstep : step b s op = some t) :
    Accounted n t (x.next n b op) := by
  cases op with
  | create calls => exact h.create hstep
  | destroy k => exact h.destroy hstep

end Operations

/-! ## Histories -/

section Histories

variable {n : Nat} {b : Build} {tr : List Op} {s : State}

theorem accounted_run (h : run b (init n) tr = some s) : Accounted n s (account n b tr) := by
  have hguarded : Exec.Guarded (step b) (fun _ _ _ => True) (init n) tr s :=
    Exec.guarded_of_run h fun _ _ _ _ _ _ => trivial
  refine hguarded.invariant (I := fun tr s => Accounted n s (account n b tr))
    (init_accounted n b) ?_
  intro tr s op t hs _ hstep
  rw [account_snoc]
  exact hs.step hstep

theorem lostIds_next (n : Nat) (b : Build) (x : Account) (op : Op) :
    x.lostIds ≤ (x.next n b op).lostIds := by
  cases op with
  | create calls =>
    simp only [Account.next, Account.create]
    split
    · exact Nat.le_refl _
    split
    · exact Nat.le_refl _
    · exact Nat.le_succ _
  | destroy k =>
    simp only [Account.next, Account.destroy]
    split
    · exact Nat.le_succ _
    · exact Nat.le_refl _

/-- An id that is lost stays lost. -/
theorem lostIds_mono (n : Nat) (b : Build) (pre post : List Op) :
    (account n b pre).lostIds ≤ (account n b (pre ++ post)).lostIds := by
  induction post using List.reverseRecOn with
  | nil => simp
  | append_singleton post op ih =>
    rw [← List.append_assoc, account_snoc]
    exact ih.trans (lostIds_next n b _ op)

/-- The constructors have no fault of the table. -/
theorem create_exhausted_iff (h : Accounted n s (account n b tr)) (calls : Calls) :
    (∃ t, createRtConditionVariable calls s.toState = .error (.ids .maximumReached) t) ↔
      s.objects.length + (account n b tr).lostIds = n := by
  have hlength : s.objects.length = (account n b tr).live.length := by
    rw [← h.live, List.length_map]
  rw [hlength, ← h.full_iff]
  constructor
  · rintro ⟨t, ht⟩ hfree
    obtain ⟨id, -, hcreate⟩ := create_marks hfree calls
    obtain ⟨u, -, houtcome⟩ := construct_outcome calls id
      { s.toState with activeIds := s.activeIds.set id true }
    rw [hcreate] at ht
    split at houtcome
    · cases houtcome.symm.trans ht
    · obtain ⟨fault, hfault, herror⟩ := houtcome
      cases herror.symm.trans ht
      exact hfault _ rfl
  · intro hfull
    exact ⟨s.toState, CondVarCreation.create_full hfull calls⟩

/-- After every history: the live objects are those of the account, with ids that are marked
and all different; the open handles are theirs and the leaked ones; and the factory has no id
left exactly when as many objects are alive as ids are not lost, for ever after. -/
theorem resources_accounted (h : run b (init n) tr = some s) :
    Accounted n s (account n b tr) ∧
      (∀ calls, (∃ t, createRtConditionVariable calls s.toState =
        .error (.ids .maximumReached) t) ↔ s.objects.length + (account n b tr).lostIds = n) ∧
      ∀ pre post, tr = pre ++ post → s.objects.length + (account n b pre).lostIds ≤ n := by
  have haccounted := accounted_run h
  refine ⟨haccounted, create_exhausted_iff haccounted, ?_⟩
  rintro pre post rfl
  have hlost := lostIds_mono n b pre post
  have hcount : s.activeIds.count true ≤ s.activeIds.length := List.count_le_length
  rw [haccounted.ids, haccounted.size, ← haccounted.live, List.length_map] at hcount
  omega

end Histories

/-- An `open` fails after the socket and the eventfd are there, then an object is created and
destroyed, and another one created. -/
def failedOpen : List Op :=
  [.create (.xenomai ⟨3, 0, 0, 4, -1⟩), .create (.xenomai ⟨5, 0, 0, 6, 7⟩), .destroy 0,
    .create (.xenomai ⟨5, 0, 0, 6, 7⟩)]

theorem resources_accounted_failedOpen :
    Accounted 2 ⟨⟨[true, true], [3, 4, 5, 6, 7]⟩, [⟨1, [5, 6, 7]⟩]⟩
      ⟨[[5, 6, 7]], 1, [3, 4]⟩ :=
  (resources_accounted (n := 2) (b := .xenomai) (s := ⟨⟨[true, true], [3, 4, 5, 6, 7]⟩,
    [⟨1, [5, 6, 7]⟩]⟩) (show run .xenomai (init 2) failedOpen = _ by decide)).1

end Twine.CondVarLedger
