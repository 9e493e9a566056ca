import Twine.CondVarNames
import Mathlib.Data.Nat.Find

/-!
# Running out of retries

In one process, where the calls come one after another, each constructor seeds
the generator with the time in seconds and draws its suffixes from the start of
that second's sequence. A history lists the creations, with their seconds, and
the destructions; every creation and destruction is a run of system calls.
-/
namespace Twine.CondVarRetries

open Twine.SemaphoreNames (Namespace)
open Twine.CondVarNames

/-- The rest of a constructor that has drawn `drawn` terms since `srand`, while no other call is
made and `sem_open` fails only for names that are linked. -/
def finish (terms : Nat → Nat) (o : Nat) : Nat → Nat → State → Option State
  | 0, _, s => step s ⟨o, .noMoreRetries⟩
  | retries + 1, drawn, s =>
    if 0 < retries then
      (step s ⟨o, .semOpen (terms drawn)⟩).bind fun t =>
        if (t.condVars o).point = .alive then some t else finish terms o retries (drawn + 1) t
    else step s ⟨o, .noMoreRetries⟩

inductive Op where
  /-- `std::time` is `now`. -/
  | create (o now : Nat)
  | destroy (o : Nat)
  deriving DecidableEq, Repr

/-- `rand seed` is the sequence that `std::rand` returns after `std::srand(seed)`. -/
def call (rand : Nat → Nat → Nat) (s : State) : Op → Option State
  | .create o now => (step s ⟨o, .construct⟩).bind (finish (rand now) o MAX_RETRIES 0)
  | .destroy o => run s [⟨o, .destroy⟩, ⟨o, .semUnlink⟩]

/-- No constructor has thrown. -/
def NoneThrown (s : State) : Prop := ∀ o, (s.condVars o).point ≠ .thrown

/-- The name belongs to a condition variable that is live. -/
def State.Taken (s : CondVarNames.State) (name : String) : Prop :=
  ∃ o, (s.condVars o).point.live = true ∧ (s.condVars o).name = name

/-- A creation in a second whose sequence starts with the suffixes of live condition variables. -/
def AllTaken (rand : Nat → Nat → Nat) (s : State) (op : Op) : Prop :=
  ∃ o now, op = .create o now ∧ ∀ k < MAX_RETRIES - 1, State.Taken s (condVarName (rand now k))

/-! ## The steps of a constructor -/

section Constructor

variable {s : State} {o retries suffix : Nat}

@[simp] theorem set_names (s : State) (o : Nat) (r : Namespace × CondVar) :
    (s.set o r).names = r.1 := rfl

@[simp] theorem set_self (s : State) (o : Nat) (r : Namespace × CondVar) :
    (s.set o r).condVars o = r.2 := by
  simp [set_condVars]

theorem set_set (s : State) (o : Nat) (r r' : Namespace × CondVar) :
    (s.set o r).set o r' = s.set o r' := by
  simp [State.set]

theorem semOpen_taken (hp : (s.condVars o).point = .constructing (retries + 1)) (hr : 0 < retries)
    (ht : s.names.linked (condVarName suffix) ≠ none) :
    step s ⟨o, .semOpen suffix⟩ =
      some (s.set o (s.names, { s.condVars o with point := .constructing retries })) := by
  obtain ⟨sem, hsem⟩ := Option.ne_none_iff_exists'.mp ht
  simp [step, CondVar.step, hp, hr, semOpenExcl, hsem]

theorem semOpen_free (hp : (s.condVars o).point = .constructing (retries + 1)) (hr : 0 < retries)
    (hf : s.names.linked (condVarName suffix) = none) :
    step s ⟨o, .semOpen suffix⟩ =
      some (s.set o ((s.names.semOpen (condVarName suffix)).2,
        ⟨.alive, condVarName suffix, some s.names.created⟩)) := by
  simp [step, CondVar.step, hp, hr, semOpenExcl, hf, Namespace.semOpen]

theorem noMoreRetries_throws (hp : (s.condVars o).point = .constructing (retries + 1))
    (hr : ¬ 0 < retries) :
    step s ⟨o, .noMoreRetries⟩ =
      some (s.set o (s.names, { s.condVars o with point := .thrown })) := by
  simp [step, CondVar.step, hp, hr]

variable {terms : Nat → Nat} {drawn : Nat}

/-- The terms that are left are all taken. -/
theorem finish_taken (hp : (s.condVars o).point = .constructing (retries + 1))
    (ht : ∀ j < retries, s.names.linked (condVarName (terms (drawn + j))) ≠ none) :
    finish terms o (retries + 1) drawn s =
      some (s.set o (s.names, { s.condVars o with point := .thrown })) := by
  induction retries generalizing s drawn with
  | zero =>
    rw [finish, if_neg (Nat.lt_irrefl 0)]
    exact noMoreRetries_throws hp (Nat.lt_irrefl 0)
  | succ retries ih =>
    have hfirst : s.names.linked (condVarName (terms drawn)) ≠ none := ht 0 (Nat.succ_pos _)
    rw [finish, if_pos (Nat.succ_pos _), semOpen_taken hp (Nat.succ_pos _) hfirst, Option.bind_some,
      if_neg (by simp), ih (by simp)]
    · simp [set_set]
    · intro j hj
      have hnext := ht (j + 1) (by omega)
      rwa [show drawn + (j + 1) = drawn + 1 + j by omega] at hnext

/-- The first term that is free gives the name. -/
theorem finish_free {m : Nat} (hp : (s.condVars o).point = .constructing (retries + 1))
    (hm : m < retries) (ht : ∀ j < m, s.names.linked (condVarName (terms (drawn + j))) ≠ none)
    (hf : s.names.linked (condVarName (terms (drawn + m))) = none) :
    finish terms o (retries + 1) drawn s =
      some (s.set o ((s.names.semOpen (condVarName (terms (drawn + m)))).2,
        ⟨.alive, condVarName (terms (drawn + m)), some s.names.created⟩)) := by
  induction retries generalizing s drawn m with
  | zero => cases hm
  | succ retries ih =>
    rw [finish, if_pos (Nat.succ_pos _)]
    cases m with
    | zero =>
      have hfirst : s.names.linked (condVarName (terms drawn)) = none := hf
      rw [semOpen_free hp (Nat.succ_pos _) hfirst, Option.bind_some, if_pos (by simp)]
      rfl
    | succ m =>
      have hshift : ∀ j, drawn + (j + 1) = drawn + 1 + j := by omega
      have hfirst : s.names.linked (condVarName (terms drawn)) ≠ none := ht 0 (Nat.succ_pos _)
      rw [hshift] at hf
      rw [semOpen_taken hp (Nat.succ_pos _) hfirst, Option.bind_some, if_neg (by simp), hshift m,
        ih (m := m) (by simp) (by omega)]
      · simp [set_set]
      · intro j hj
        have hnext := ht (j + 1) (by omega)
        rwa [hshift] at hnext
      · exact hf

end Constructor

/-! ## The calls -/

section Calls

variable {rand : Nat → Nat → Nat} {s t : State} {o now : Nat}

theorem create_unborn {r : State} (h : call rand s (.create o now) = some r) :
    (s.condVars o).point = .unborn := by
  obtain ⟨u, hu, -⟩ := Option.bind_eq_some_iff.mp h
  obtain ⟨v, hv, -⟩ := Option.map_eq_some_iff.mp hu
  cases CondVar.step_effect hv with
  | construct hp => exact hp

theorem call_create (hp : (s.condVars o).point = .unborn) :
    call rand s (.create o now) = finish (rand now) o MAX_RETRIES 0
      (s.set o (s.names, { s.condVars o with point := .constructing MAX_RETRIES })) := by
  simp [call, step, CondVar.step, hp]

theorem create_taken (hp : (s.condVars o).point = .unborn)
    (ht : ∀ k < MAX_RETRIES - 1, s.names.linked (condVarName (rand now k)) ≠ none) :
    call rand s (.create o now) =
      some (s.set o (s.names, { s.condVars o with point := .thrown })) := by
  rw [call_create hp, show MAX_RETRIES = (MAX_RETRIES - 1) + 1 from rfl, finish_taken (by simp)]
  · simp [set_set]
  · intro j hj
    rw [Nat.zero_add]
    exact ht j hj

theorem create_free {m : Nat} (hp : (s.condVars o).point = .unborn) (hm : m < MAX_RETRIES - 1)
    (ht : ∀ k < m, s.names.linked (condVarName (rand now k)) ≠ none)
    (hf : s.names.linked (condVarName (rand now m)) = none) :
    call rand s (.create o now) =
      some (s.set o ((s.names.semOpen (condVarName (rand now m))).2,
        ⟨.alive, condVarName (rand now m), some s.names.created⟩)) := by
  rw [call_create hp, show MAX_RETRIES = (MAX_RETRIES - 1) + 1 from rfl,
    finish_free (m := m) (by simp) hm]
  · simp [set_set]
  · intro j hj
    rw [Nat.zero_add]
    exact ht j hj
  · rwa [Nat.zero_add]

/-- A call is a run of system calls. -/
theorem finish_run {terms : Nat → Nat} {retries drawn : Nat}
    (h : finish terms o retries drawn s = some t) : ∃ labels, run s labels = some t := by
  induction retries generalizing s drawn with
  | zero => exact ⟨[_], by simpa [finish, Exec.run_cons] using h⟩
  | succ retries ih =>
    rw [finish] at h
    split at h
    · obtain ⟨u, hu, h⟩ := Option.bind_eq_some_iff.mp h
      split at h
      · cases h
        exact ⟨[_], by simpa [Exec.run_cons] using hu⟩
      · obtain ⟨labels, hrun⟩ := ih h
        exact ⟨_ :: labels, (Exec.run_cons_some labels hu).trans hrun⟩
    · exact ⟨[_], by simpa [Exec.run_cons] using h⟩

theorem call_run {op : Op} (h : call rand s op = some t) : ∃ labels, run s labels = some t := by
  cases op with
  | create o now =>
    obtain ⟨u, hu, h⟩ := Option.bind_eq_some_iff.mp h
    obtain ⟨labels, hrun⟩ := finish_run h
    exact ⟨_ :: labels, (Exec.run_cons_some labels hu).trans hrun⟩
  | destroy o => exact ⟨_, h⟩

end Calls

/-! ## Histories -/

/-- A state that the system calls can lead to, in which no constructor has thrown. -/
structure Inv (s : State) : Prop where
  reached : ∃ labels, run init labels = some s
  noneThrown : NoneThrown s

theorem init_inv : Inv init := ⟨⟨[], rfl⟩, by simp [NoneThrown, init]⟩

/-- The linked names are those of the live condition variables. -/
theorem Inv.linked_iff {s : State} (h : Inv s) (name : String) :
    s.names.linked name ≠ none ↔ State.Taken s name := by
  obtain ⟨labels, hrun⟩ := h.reached
  have hinv := inv_of_run hrun
  constructor
  · exact hinv.owned name
  · rintro ⟨o, hlive, rfl⟩
    obtain ⟨sem, -, hlinked⟩ := (hinv.sound o).linked_some hlive
    rw [hlinked]
    simp

theorem NoneThrown.set {s : State} (h : NoneThrown s) {o : Nat} {r : Namespace × CondVar}
    (hr : r.2.point ≠ .thrown) : NoneThrown (s.set o r) := by
  intro b
  rw [set_condVars]
  split
  · exact hr
  · exact h b

theorem Inv.call {rand : Nat → Nat → Nat} {s t : State} {op : Op} (h : Inv s)
    (hop : ¬ AllTaken rand s op) (hcall : call rand s op = some t) : Inv t := by
  obtain ⟨labels, hrun⟩ := h.reached
  obtain ⟨labels', hrun'⟩ := call_run hcall
  refine ⟨⟨labels ++ labels', Exec.run_join hrun hrun'⟩, ?_⟩
  cases op with
  | create o now =>
    have hfree : ∃ k, k < MAX_RETRIES - 1 ∧ s.names.linked (condVarName (rand now k)) = none := by
      by_contra hno
      refine hop ⟨o, now, rfl, fun k hk => (h.linked_iff _).mp fun hnone => hno ⟨k, hk, hnone⟩⟩
    -- the constructor stops at the first of them
    classical
    obtain ⟨hm, hf⟩ := Nat.find_spec hfree
    have hbefore : ∀ k < Nat.find hfree, s.names.linked (condVarName (rand now k)) ≠ none :=
      fun k hk hnone => Nat.find_min hfree hk ⟨Nat.lt_trans hk hm, hnone⟩
    cases hcall.symm.trans (create_free (create_unborn hcall) hm hbefore hf)
    exact h.noneThrown.set (by simp)
  | destroy o =>
    obtain ⟨u, hu, hrest⟩ := Exec.run_cons_split hcall
    obtain ⟨r, hr, rfl⟩ := Option.map_eq_some_iff.mp hu
    obtain ⟨v, hv, hnil⟩ := Exec.run_cons_split hrest
    obtain ⟨r', hr', rfl⟩ := Option.map_eq_some_iff.mp hv
    cases hnil
    cases CondVar.step_effect hr
    cases CondVar.step_effect hr'
    exact (h.noneThrown.set (by simp)).set (by simp)

/-- No creation of a history runs out of retries if and only if, at each one, among the first
suffixes of its second's sequence there is one that no live condition variable has. -/
theorem noneThrown_iff (rand : Nat → Nat → Nat) (tr : List Op) :
    Exec.Throughout (call rand) init (fun _ => NoneThrown) tr ↔
      Exec.Steps (call rand) init (fun s op => ¬ AllTaken rand s op) tr := by
  refine Exec.throughout_iff (I := fun _ => Inv) (B := AllTaken rand) init_inv ?_ ?_ ?_
    Exec.steps_true
  · rintro tr s op t h - hop hcall
    exact h.call hop hcall
  · intro tr s h
    exact h.noneThrown
  · rintro tr s op t h - ⟨o, now, rfl, hall⟩ hcall hnone
    have htaken := create_taken (create_unborn hcall) fun k hk => (h.linked_iff _).mpr (hall k hk)
    cases hcall.symm.trans htaken
    exact hnone o (by simp)

/-! ## Many creations in one second -/

/-- The digits of a suffix are read back. -/
theorem condVarName_inj {a b : Nat} (h : condVarName a = condVarName b) : a = b := by
  have hrepr : a.repr = b.repr := (String.append_right_inj _).mp h
  have hdigits : Nat.toDigits 10 a = Nat.toDigits 10 b := by
    rw [← Nat.toList_repr, ← Nat.toList_repr, hrepr]
  rw [← Nat.ofDigitChars_toDigits (b := 10) (n := a) (by decide) (by decide), hdigits,
    Nat.ofDigitChars_toDigits (by decide) (by decide)]

/-- The creations of one second take the terms of its sequence one after another. -/
theorem crowded {rand : Nat → Nat → Nat} {now : Nat}
    (hinj : ∀ i j, i < MAX_RETRIES - 1 → j < MAX_RETRIES - 1 → rand now i = rand now j → i = j)
    {n : Nat} (hn : n ≤ MAX_RETRIES - 1) :
    ∃ s, Exec.run (call rand) init ((List.range n).map fun o => .create o now) = some s ∧
      (∀ name, s.names.linked name ≠ none ↔ ∃ j < n, name = condVarName (rand now j)) ∧
      ∀ o, n ≤ o → (s.condVars o).point = .unborn := by
  induction n with
  | zero => exact ⟨init, rfl, by simp [init], fun o _ => rfl⟩
  | succ n ih =>
    obtain ⟨s, hrun, hlinked, hunborn⟩ := ih (by omega)
    have hfree : s.names.linked (condVarName (rand now n)) = none := by
      by_contra hne
      obtain ⟨j, hj, he⟩ := (hlinked _).mp hne
      have := hinj n j (by omega) (by omega) (condVarName_inj he)
      omega
    have hcall : call rand s (.create n now) = some _ :=
      create_free (hunborn n (Nat.le_refl n)) (by omega) (fun k hk => (hlinked _).mpr ⟨k, hk, rfl⟩) hfree
    simp only [List.range_succ, List.map_append, List.map_cons, List.map_nil]
    refine ⟨_, Exec.run_join hrun ((Exec.run_cons_some [] hcall).trans rfl), ?_, ?_⟩
    · intro name
      by_cases hname : name = condVarName (rand now n)
      · simp only [set_names, Namespace.semOpen, hfree, hname, Function.update_self, ne_eq,
          reduceCtorEq, not_false_eq_true, true_iff]
        exact ⟨n, Nat.lt_succ_self n, rfl⟩
      · simp only [set_names, Namespace.semOpen, hfree, Function.update_of_ne hname, hlinked]
        constructor
        · rintro ⟨j, hj, he⟩
          exact ⟨j, by omega, he⟩
        · rintro ⟨j, hj, rfl⟩
          have hne : j ≠ n := by
            rintro rfl
            exact hname rfl
          exact ⟨j, by omega, rfl⟩
    · intro o ho
      have hne : o ≠ n := by omega
      rw [set_condVars, if_neg hne]
      exact hunborn o (by omega)

/-- With as many condition variables alive as there are tries, all from one second in which no
suffix comes twice, the next creation throws. -/
theorem next_throws {rand : Nat → Nat → Nat} {now : Nat}
    (hinj : ∀ i j, i < MAX_RETRIES - 1 → j < MAX_RETRIES - 1 → rand now i = rand now j → i = j) :
    ¬ Exec.Throughout (call rand) init (fun _ => NoneThrown)
      ((List.range MAX_RETRIES).map fun o => .create o now) := by
  intro h
  obtain ⟨s, hrun, hlinked, hunborn⟩ := crowded hinj (Nat.le_refl _)
  have hcall : call rand s (.create (MAX_RETRIES - 1) now) = some _ :=
    create_taken (hunborn (MAX_RETRIES - 1) (Nat.le_refl _)) fun k hk => (hlinked _).mpr ⟨k, hk, rfl⟩
  have hall := Exec.run_join hrun ((Exec.run_cons_some [] hcall).trans rfl)
  have hsplit : List.range MAX_RETRIES = List.range (MAX_RETRIES - 1) ++ [MAX_RETRIES - 1] :=
    List.range_succ
  refine h _ [] _ ?_ hall (MAX_RETRIES - 1) (by simp)
  rw [hsplit, List.map_append, List.append_nil]
  rfl

/-- A hundred creations in one second, with a generator that counts. -/
theorem hundredth_throws :
    ¬ Exec.Throughout (call fun _ k => k) init (fun _ => NoneThrown)
      ((List.range 100).map fun o => .create o 0) :=
  next_throws fun _ _ _ _ h => h

end Twine.CondVarRetries
