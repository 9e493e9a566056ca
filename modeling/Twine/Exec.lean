import Mathlib.Data.List.Induction

/-!
# Runs of a partial step function

A system is a partial function `step : σ → ℓ → Option σ`: the label resolves
every choice (whose turn it is, and what the environment answers), and `none`
means that the label is not enabled. An interleaving is then a list of labels.
`Guarded` restricts the labels by a condition that may read the history, which
is how the assumptions on a caller are stated.
-/
namespace Exec

variable {σ ℓ ε α : Type}

def run (step : σ → ℓ → Option σ) : σ → List ℓ → Option σ
  | s, [] => some s
  | s, l :: tr => (step s l).bind fun t => run step t tr

@[simp] theorem run_nil (step : σ → ℓ → Option σ) (s : σ) : run step s [] = some s := rfl

theorem run_cons (step : σ → ℓ → Option σ) (s : σ) (l : ℓ) (tr : List ℓ) :
    run step s (l :: tr) = (step s l).bind fun t => run step t tr := rfl

theorem run_cons_some {step : σ → ℓ → Option σ} {s t : σ} {l : ℓ} (tr : List ℓ)
    (h : step s l = some t) : run step s (l :: tr) = run step t tr := by
  simp [run_cons, h]

theorem run_append (step : σ → ℓ → Option σ) (s : σ) (pre post : List ℓ) :
    run step s (pre ++ post) = (run step s pre).bind fun t => run step t post := by
  induction pre generalizing s with
  | nil => simp
  | cons l pre ih =>
    simp only [List.cons_append, run_cons]
    cases step s l with
    | none => rfl
    | some t => simpa using ih t

/-- Concatenate two checked finite runs. -/
theorem run_join {step : σ → ℓ → Option σ} {s t u : σ} {pre post : List ℓ}
    (h₁ : run step s pre = some t) (h₂ : run step t post = some u) :
    run step s (pre ++ post) = some u := by
  rw [run_append, h₁]
  exact h₂

theorem run_split {step : σ → ℓ → Option σ} {s u : σ} {pre post : List ℓ}
    (h : run step s (pre ++ post) = some u) :
    ∃ t, run step s pre = some t ∧ run step t post = some u := by
  rw [run_append] at h
  exact Option.bind_eq_some_iff.mp h

theorem run_cons_split {step : σ → ℓ → Option σ} {s u : σ} {l : ℓ} {tr : List ℓ}
    (h : run step s (l :: tr) = some u) : ∃ t, step s l = some t ∧ run step t tr = some u :=
  Option.bind_eq_some_iff.mp h

/-- Every label of a run keeps what every step keeps. -/
theorem run_invariant {step : σ → ℓ → Option σ} {I : σ → Prop} {P : ℓ → Prop}
    (hstep : ∀ s l t, I s → P l → step s l = some t → I t) {s t : σ} {tr : List ℓ}
    (hs : I s) (hok : ∀ l ∈ tr, P l) (h : run step s tr = some t) : I t := by
  induction tr generalizing s with
  | nil =>
    simp only [run_nil, Option.some.injEq] at h
    exact h ▸ hs
  | cons l tr ih =>
    obtain ⟨u, hu, h⟩ := run_cons_split h
    exact ih (hstep s l u hs (hok l (by simp)) hu) (fun k hk => hok k (by simp [hk])) h

/-! ## Guarded runs -/

section Guarded

variable {step : σ → ℓ → Option σ} {guard guard' : List ℓ → σ → ℓ → Prop} {s₀ s t : σ}
  {tr pre post : List ℓ}

/-- The runs whose every label passed the guard at the moment it was taken. -/
inductive Guarded (step : σ → ℓ → Option σ) (guard : List ℓ → σ → ℓ → Prop) (s₀ : σ) :
    List ℓ → σ → Prop where
  | start : Guarded step guard s₀ [] s₀
  | next {tr : List ℓ} {s t : σ} (l : ℓ) : Guarded step guard s₀ tr s → guard tr s l →
      step s l = some t → Guarded step guard s₀ (tr ++ [l]) t

theorem Guarded.run (h : Guarded step guard s₀ tr s) : Exec.run step s₀ tr = some s := by
  induction h with
  | start => rfl
  | next l _ _ hstep ih => exact run_join ih (by simp [run_cons, hstep])

theorem Guarded.mono (hg : ∀ tr s l, guard tr s l → guard' tr s l)
    (h : Guarded step guard s₀ tr s) : Guarded step guard' s₀ tr s := by
  induction h with
  | start => exact .start
  | next l _ hl hstep ih => exact .next l ih (hg _ _ _ hl) hstep

/-- Induction over guarded runs, with the history at hand. -/
theorem Guarded.invariant {I : List ℓ → σ → Prop} (hstart : I [] s₀)
    (hnext : ∀ tr s l t, I tr s → guard tr s l → step s l = some t → I (tr ++ [l]) t)
    (h : Guarded step guard s₀ tr s) : I tr s := by
  induction h with
  | start => exact hstart
  | next l _ hl hstep ih => exact hnext _ _ l _ ih hl hstep

theorem Guarded.snoc {l : ℓ} (h : Guarded step guard s₀ (tr ++ [l]) t) :
    ∃ s, Guarded step guard s₀ tr s ∧ guard tr s l ∧ step s l = some t := by
  generalize htr : tr ++ [l] = tr' at h
  cases h with
  | start => simp at htr
  | next k hk hg hstep =>
    obtain ⟨rfl, hl⟩ := List.append_inj' htr rfl
    obtain rfl : l = k := by simpa using hl
    exact ⟨_, hk, hg, hstep⟩

/-- Every prefix of a guarded run is one, and the rest runs on from it. -/
theorem Guarded.split (h : Guarded step guard s₀ (pre ++ post) t) :
    ∃ s, Guarded step guard s₀ pre s ∧ Exec.run step s post = some t := by
  induction post using List.reverseRecOn generalizing t with
  | nil => exact ⟨t, by simpa using h, rfl⟩
  | append_singleton post l ih =>
    rw [← List.append_assoc] at h
    obtain ⟨u, hu, -, hstep⟩ := h.snoc
    obtain ⟨s, hs, hrun⟩ := ih hu
    exact ⟨s, hs, run_join hrun (by simp [run_cons, hstep])⟩

/-- A guarded run cut at one of its labels. -/
theorem Guarded.cut {l : ℓ} (h : Guarded step guard s₀ (pre ++ l :: post) t) :
    ∃ s u, Guarded step guard s₀ pre s ∧ guard pre s l ∧ step s l = some u ∧
      Guarded step guard s₀ (pre ++ [l]) u ∧ Exec.run step u post = some t := by
  rw [show pre ++ l :: post = (pre ++ [l]) ++ post by simp] at h
  obtain ⟨u, hu, hrun⟩ := h.split
  obtain ⟨s, hs, hg, hstep⟩ := hu.snoc
  exact ⟨s, u, hs, hg, hstep, hu, hrun⟩

theorem Guarded.prefix_unique (h : Guarded step guard s₀ (pre ++ post) t)
    (hs : Exec.run step s₀ pre = some s) : Guarded step guard s₀ pre s := by
  obtain ⟨u, hu, -⟩ := h.split
  have he : s = u := Option.some.inj (hs.symm.trans hu.run)
  exact he ▸ hu

/-- Go on with labels that pass the guard in any history. -/
theorem Guarded.extend (h : Guarded step guard s₀ pre s) (hg : ∀ l ∈ post, ∀ tr u, guard tr u l)
    (hrun : Exec.run step s post = some t) : Guarded step guard s₀ (pre ++ post) t := by
  induction post generalizing pre s with
  | nil =>
    simp only [run_nil, Option.some.injEq] at hrun
    simpa [hrun] using h
  | cons l post ih =>
    obtain ⟨u, hu, hrun⟩ := run_cons_split hrun
    rw [show pre ++ l :: post = (pre ++ [l]) ++ post by simp]
    exact ih (.next l h (hg l (by simp) pre s) hu) (fun k hk => hg k (by simp [hk])) hrun

/-- A run all of whose labels pass the guard. -/
theorem guarded_of_run (h : Exec.run step s₀ tr = some t)
    (hg : ∀ pre l post m, tr = pre ++ l :: post → Exec.run step s₀ pre = some m → guard pre m l) :
    Guarded step guard s₀ tr t := by
  induction tr using List.reverseRecOn generalizing t with
  | nil =>
    simp only [run_nil, Option.some.injEq] at h
    exact h ▸ .start
  | append_singleton tr l ih =>
    obtain ⟨s, hs, hstep⟩ := run_split h
    have hguarded := ih hs fun pre k post m he hm => hg pre k (post ++ [l]) m (by simp [he]) hm
    refine .next l hguarded (hg tr l [] s (by simp) hs) ?_
    simpa [run_cons] using hstep

/-- The guarded runs that one starting after `pre` goes through. -/
theorem Guarded.segment {J : List ℓ → σ → Prop} (hs : Guarded step guard s₀ pre s) (hJ : J [] s)
    (hnext : ∀ mid u l v, Guarded step guard s₀ (pre ++ mid) u → J mid u →
      guard (pre ++ mid) u l → step u l = some v → J (mid ++ [l]) v)
    (h : Guarded step guard s₀ (pre ++ post) t) : J post t := by
  induction post using List.reverseRecOn generalizing t with
  | nil =>
    have he : s = t := Option.some.inj (hs.run.symm.trans (by simpa using h.run))
    exact he ▸ hJ
  | append_singleton post l ih =>
    rw [← List.append_assoc] at h
    obtain ⟨u, hu, hg, hstep⟩ := h.snoc
    exact hnext post u l t hu (ih hu) hg hstep

/-- Run a list of labels and test the guard before each of them. -/
def runGuarded (step : σ → ℓ → Option σ) (guard : List ℓ → σ → ℓ → Prop)
    [∀ tr s l, Decidable (guard tr s l)] : List ℓ → σ → List ℓ → Option σ
  | _, s, [] => some s
  | pre, s, l :: tr =>
    if guard pre s l then (step s l).bind fun t => runGuarded step guard (pre ++ [l]) t tr
    else none

theorem guarded_of_runGuarded [∀ tr s l, Decidable (guard tr s l)]
    (hs : Guarded step guard s₀ pre s) (h : runGuarded step guard pre s tr = some t) :
    Guarded step guard s₀ (pre ++ tr) t := by
  induction tr generalizing pre s with
  | nil =>
    simp only [runGuarded, Option.some.injEq] at h
    simpa [h] using hs
  | cons l tr ih =>
    simp only [runGuarded] at h
    split at h
    · rename_i hg
      obtain ⟨u, hu, h⟩ := Option.bind_eq_some_iff.mp h
      rw [show pre ++ l :: tr = (pre ++ [l]) ++ tr by simp]
      exact ih (.next l hs hg hu) h
    · cases h

/-- A list of labels that passes the test is a guarded run. -/
theorem guarded_of_isSome (step : σ → ℓ → Option σ) (guard : List ℓ → σ → ℓ → Prop)
    [∀ tr s l, Decidable (guard tr s l)] (s₀ : σ) (tr : List ℓ)
    (h : (runGuarded step guard [] s₀ tr).isSome = true) : ∃ s, Guarded step guard s₀ tr s := by
  obtain ⟨s, hs⟩ := Option.isSome_iff_exists.mp h
  exact ⟨s, guarded_of_runGuarded .start hs⟩

end Guarded

/-! ## What holds throughout a run -/

section Throughout

variable {step : σ → ℓ → Option σ} {s₀ : σ} {I P : List ℓ → σ → Prop} {O B : σ → ℓ → Prop}
  {tr : List ℓ}

/-- The property holds after every prefix of the labels that is a run. -/
def Throughout (step : σ → ℓ → Option σ) (s₀ : σ) (P : List ℓ → σ → Prop) (tr : List ℓ) : Prop :=
  ∀ pre post s, tr = pre ++ post → run step s₀ pre = some s → P pre s

/-- Every step that the labels take is of this kind. -/
def Steps (step : σ → ℓ → Option σ) (s₀ : σ) (ok : σ → ℓ → Prop) (tr : List ℓ) : Prop :=
  ∀ pre l post s t, tr = pre ++ l :: post → run step s₀ pre = some s → step s l = some t → ok s l

theorem Throughout.mono (h : Throughout step s₀ I tr) (hI : ∀ tr s, I tr s → P tr s) :
    Throughout step s₀ P tr :=
  fun pre post s he hs => hI pre s (h pre post s he hs)

/-- Induction over the prefixes of a list of labels. -/
theorem throughout_of_steps (hstart : I [] s₀)
    (hnext : ∀ pre l post s t, tr = pre ++ l :: post → run step s₀ pre = some s → I pre s →
      step s l = some t → I (pre ++ [l]) t) : Throughout step s₀ I tr := by
  intro pre
  induction pre using List.reverseRecOn with
  | nil =>
    intro post s _ hs
    cases hs
    exact hstart
  | append_singleton pre l ih =>
    intro post t he ht
    obtain ⟨s, hs, hstep⟩ := run_split ht
    have he : tr = pre ++ l :: post := by simpa using he
    exact hnext pre l post s t he hs (ih (l :: post) s he hs) (by simpa [run_cons] using hstep)

/-- The good steps keep an invariant under which the property holds, and a bad step breaks the
property: it holds throughout exactly the runs without a bad step. -/
theorem throughout_iff (hstart : I [] s₀)
    (hnext : ∀ tr s l t, I tr s → O s l → ¬ B s l → step s l = some t → I (tr ++ [l]) t)
    (hI : ∀ tr s, I tr s → P tr s)
    (hbad : ∀ tr s l t, I tr s → O s l → B s l → step s l = some t → ¬ P (tr ++ [l]) t)
    (hok : Steps step s₀ O tr) :
    Throughout step s₀ P tr ↔ Steps step s₀ (fun s l => ¬ B s l) tr := by
  constructor
  · intro hP
    have hP' : ∀ pre l post s t, tr = pre ++ l :: post → run step s₀ pre = some s →
        step s l = some t → P (pre ++ [l]) t := by
      intro pre l post s t he hs hstep
      exact hP (pre ++ [l]) post t (by simp [he]) (run_join hs (by simp [run_cons, hstep]))
    have hinv : Throughout step s₀ I tr := by
      refine throughout_of_steps hstart fun pre l post s t he hs hi hstep => ?_
      have hl := hok pre l post s t he hs hstep
      by_cases hb : B s l
      · exact absurd (hP' pre l post s t he hs hstep) (hbad pre s l t hi hl hb hstep)
      · exact hnext pre s l t hi hl hb hstep
    intro pre l post s t he hs hstep hb
    have hi := hinv pre (l :: post) s he hs
    exact hbad pre s l t hi (hok pre l post s t he hs hstep) hb hstep
      (hP' pre l post s t he hs hstep)
  · intro hno
    refine Throughout.mono (throughout_of_steps hstart ?_) hI
    intro pre l post s t he hs hi hstep
    exact hnext pre s l t hi (hok pre l post s t he hs hstep) (hno pre l post s t he hs hstep) hstep

theorem steps_nil : Steps step s₀ O [] := by
  intro pre l post s t he
  simp at he

theorem steps_cons {s t : σ} {l : ℓ} (hstep : step s l = some t) :
    Steps step s O (l :: tr) ↔ O s l ∧ Steps step t O tr := by
  constructor
  · intro h
    refine ⟨h [] l tr s t rfl rfl hstep, ?_⟩
    rintro pre k post u v rfl hu hv
    exact h (l :: pre) k post u v rfl ((run_cons_some pre hstep).trans hu) hv
  · rintro ⟨hl, h⟩ pre k post u v he hu hv
    cases pre with
    | nil =>
      cases he
      cases hu
      exact hl
    | cons l' pre =>
      cases he
      exact h pre k post u v rfl ((run_cons_some pre hstep).symm.trans hu) hv

theorem Steps.snoc {s : σ} {l : ℓ} (h : Steps step s₀ O tr) (hrun : run step s₀ tr = some s)
    (hl : ∀ t, step s l = some t → O s l) : Steps step s₀ O (tr ++ [l]) := by
  intro pre k post u t he hu hstep
  rcases List.eq_nil_or_concat post with rfl | ⟨post', k', rfl⟩
  · obtain ⟨rfl, hk⟩ := List.append_inj' he rfl
    obtain rfl : l = k := by simpa using hk
    obtain rfl : s = u := Option.some.inj (hrun.symm.trans hu)
    exact hl t hstep
  · refine h pre k post' u t ?_ hu hstep
    have he' : tr ++ [l] = (pre ++ k :: post') ++ [k'] := by simpa using he
    exact (List.append_inj' he' rfl).1

theorem Guarded.steps {s : σ} (h : Guarded step (fun _ s l => O s l) s₀ tr s) :
    Steps step s₀ O tr := by
  rintro pre l post m t rfl hm -
  obtain ⟨m', -, hm', hl, -⟩ := h.cut
  obtain rfl : m = m' := Option.some.inj (hm.symm.trans hm'.run)
  exact hl

theorem steps_true : Steps step s₀ (fun _ _ => True) tr := fun _ _ _ _ _ _ _ _ => trivial

end Throughout

/-! ## Rankings -/

/-- Where every step takes one off the rank, and a refunded label puts at most `c` on it, the
rank bounds the length of what is left of a run. -/
theorem Guarded.length_le {step : σ → ℓ → Option σ} {guard : List ℓ → σ → ℓ → Prop} {s₀ s t : σ}
    {pre post : List ℓ} (rank : σ → Nat) (ranked : ℓ → Prop) (refunded : ℓ → Bool) (c : Nat)
    (hrank : ∀ tr u l v, Guarded step guard s₀ tr u → guard tr u l → ranked l →
      step u l = some v → rank v + 1 ≤ rank u + if refunded l then c else 0)
    (hs : Guarded step guard s₀ pre s) (h : Guarded step guard s₀ (pre ++ post) t)
    (hpost : ∀ l ∈ post, ranked l) :
    post.length + rank t ≤ rank s + c * post.countP refunded := by
  refine Guarded.segment (J := fun mid u => (∀ l ∈ mid, ranked l) →
    mid.length + rank u ≤ rank s + c * mid.countP refunded) hs (by simp) ?_ h hpost
  intro mid u l v hu hJ hg hstep hmid
  have hbound := hJ fun k hk => hmid k (by simp [hk])
  have hone := hrank _ u l v hu hg (hmid l (by simp)) hstep
  simp only [List.length_append, List.length_singleton, List.countP_append, List.countP_singleton,
    Nat.mul_add]
  split at hone <;> simp_all <;> omega

/-! ## Conservation -/

/-- What a weight of the steps adds up to along a run. -/
def total (step : σ → ℓ → Option σ) (f : σ → ℓ → Nat) : σ → List ℓ → Nat
  | _, [] => 0
  | s, l :: tr =>
    match step s l with
    | none => 0
    | some t => f s l + total step f t tr

theorem total_cons {step : σ → ℓ → Option σ} {s t : σ} {l : ℓ} (f : σ → ℓ → Nat) (tr : List ℓ)
    (h : step s l = some t) : total step f s (l :: tr) = f s l + total step f t tr := by
  simp [total, h]

/-- What every step puts into an account and takes out of it, the whole run has put in and taken
out. -/
theorem run_balances {step : σ → ℓ → Option σ} {s₀ s : σ} {tr : List ℓ} (content : σ → Nat)
    (puts takes : σ → ℓ → Nat)
    (hstep : ∀ s l t, step s l = some t → content t + takes s l = content s + puts s l)
    (h : run step s₀ tr = some s) :
    content s + total step takes s₀ tr = content s₀ + total step puts s₀ tr := by
  induction tr generalizing s₀ with
  | nil =>
    cases h
    rfl
  | cons l tr ih =>
    obtain ⟨u, hu, hrun⟩ := run_cons_split h
    have hone := hstep s₀ l u hu
    have hrest := ih hrun
    rw [total_cons _ _ hu, total_cons _ _ hu]
    omega

/-- What every step takes out of an account that nothing is put into. -/
theorem run_bounded {step : σ → ℓ → Option σ} {s₀ s : σ} {tr : List ℓ} (content : σ → Nat)
    (takes : σ → ℓ → Nat)
    (hstep : ∀ s l t, step s l = some t → content t + takes s l ≤ content s)
    (h : run step s₀ tr = some s) : content s + total step takes s₀ tr ≤ content s₀ := by
  induction tr generalizing s₀ with
  | nil =>
    cases h
    exact Nat.le_refl _
  | cons l tr ih =>
    obtain ⟨u, hu, hrun⟩ := run_cons_split h
    have hone := hstep s₀ l u hu
    have hrest := ih hrun
    rw [total_cons _ _ hu]
    omega

/-- A weight of the labels counts them. -/
theorem total_countP {step : σ → ℓ → Option σ} {s₀ s : σ} {tr : List ℓ} (p : ℓ → Bool)
    (h : run step s₀ tr = some s) :
    total step (fun _ l => if p l then 1 else 0) s₀ tr = tr.countP p := by
  induction tr generalizing s₀ with
  | nil => rfl
  | cons l tr ih =>
    obtain ⟨u, hu, hrun⟩ := run_cons_split h
    rw [total_cons _ _ hu, ih hrun, List.countP_cons, Nat.add_comm]

theorem run_conserves {step : σ → ℓ → Option σ} {s₀ s : σ} {tr : List ℓ} (content : σ → Nat)
    (puts takes : ℓ → Bool)
    (hstep : ∀ s l t, step s l = some t →
      content t + (if takes l then 1 else 0) = content s + if puts l then 1 else 0)
    (h : run step s₀ tr = some s) :
    content s + tr.countP takes = content s₀ + tr.countP puts := by
  rw [← total_countP takes h, ← total_countP puts h]
  exact run_balances content _ _ hstep h

/-! ## Observations and simulation -/

/-- The paths of a labelled relation. -/
inductive Path (R : α → ε → α → Prop) : α → List ε → α → Prop where
  | nil (a : α) : Path R a [] a
  | cons {a b c : α} {e : ε} {es : List ε} : R a e b → Path R b es c → Path R a (e :: es) c

theorem Path.snoc {R : α → ε → α → Prop} {a b c : α} {e : ε} {es : List ε}
    (h : Path R a es b) (he : R b e c) : Path R a (es ++ [e]) c := by
  induction h with
  | nil a => exact .cons he (.nil c)
  | cons h₁ _ ih => exact .cons h₁ (ih he)

/-- A guarded run maps to a path of the abstract relation when every observed
step maps to an abstract step and every other step leaves the abstraction alone. -/
theorem Guarded.simulates {step : σ → ℓ → Option σ} {guard : List ℓ → σ → ℓ → Prop} {s₀ s t : σ}
    {pre post : List ℓ} {R : α → ε → α → Prop} (obs : ℓ → Option ε) (abs : σ → α)
    (hnone : ∀ tr u l v, Guarded step guard s₀ tr u → guard tr u l → step u l = some v →
      obs l = none → abs v = abs u)
    (hsome : ∀ tr u l v e, Guarded step guard s₀ tr u → guard tr u l → step u l = some v →
      obs l = some e → R (abs u) e (abs v))
    (hs : Guarded step guard s₀ pre s) (h : Guarded step guard s₀ (pre ++ post) t) :
    Path R (abs s) (post.filterMap obs) (abs t) := by
  refine Guarded.segment (J := fun mid u => Path R (abs s) (mid.filterMap obs) (abs u))
    hs (.nil _) ?_ h
  intro mid u l v hu hJ hg hstep
  cases ho : obs l with
  | none => simpa [ho, hnone _ _ _ _ hu hg hstep ho] using hJ
  | some e => simpa [ho] using hJ.snoc (hsome _ _ _ _ _ hu hg hstep ho)

/-- Stuttering forward simulation between two step functions: every step is
answered by a finite run with the same observations. -/
theorem run_simulates {σ' ℓ' : Type} {step : σ → ℓ → Option σ} {step' : σ' → ℓ' → Option σ'}
    (obs : ℓ → Option ε) (obs' : ℓ' → Option ε) {R : σ → σ' → Prop}
    (hsim : ∀ s s' l t, R s s' → step s l = some t →
      ∃ tr' t', run step' s' tr' = some t' ∧ tr'.filterMap obs' = (obs l).toList ∧ R t t')
    {s t : σ} {s' : σ'} {tr : List ℓ} (hR : R s s') (h : run step s tr = some t) :
    ∃ tr' t', run step' s' tr' = some t' ∧ tr'.filterMap obs' = tr.filterMap obs ∧ R t t' := by
  induction tr generalizing s s' with
  | nil =>
    simp only [run_nil, Option.some.injEq] at h
    exact ⟨[], s', rfl, rfl, h ▸ hR⟩
  | cons l tr ih =>
    obtain ⟨u, hu, h⟩ := run_cons_split h
    obtain ⟨tr₁, u', hrun₁, hobs₁, hR₁⟩ := hsim s s' l u hR hu
    obtain ⟨tr₂, t', hrun₂, hobs₂, hR₂⟩ := ih hR₁ h
    refine ⟨tr₁ ++ tr₂, t', run_join hrun₁ hrun₂, ?_, hR₂⟩
    rw [List.filterMap_append, hobs₁, hobs₂]
    cases ho : obs l <;> simp [ho]

/-- A run leads from `s` to `t`, with the observations `os`. -/
def Reaches (step : σ → ℓ → Option σ) (obs : ℓ → Option ε) (s : σ) (os : List ε) (t : σ) : Prop :=
  ∃ tr, run step s tr = some t ∧ tr.filterMap obs = os

section Reaches

variable {step : σ → ℓ → Option σ} {obs : ℓ → Option ε} {s t u : σ} {os os' : List ε}

theorem Reaches.refl (s : σ) : Reaches step obs s [] s := ⟨[], rfl, rfl⟩

theorem Reaches.trans (h : Reaches step obs s os t) (h' : Reaches step obs t os' u) :
    Reaches step obs s (os ++ os') u := by
  obtain ⟨tr, hrun, rfl⟩ := h
  obtain ⟨tr', hrun', rfl⟩ := h'
  exact ⟨tr ++ tr', run_join hrun hrun', List.filterMap_append⟩

theorem Reaches.single {l : ℓ} (h : step s l = some t) : Reaches step obs s (obs l).toList t := by
  refine ⟨[l], by simp [run_cons, h], ?_⟩
  cases ho : obs l <;> simp [ho]

/-- A step without an observation, and then the rest. -/
theorem Reaches.silent {l : ℓ} (h : step s l = some t) (ho : obs l = none)
    (h' : Reaches step obs t os u) : Reaches step obs s os u := by
  have hone : Reaches step obs s (obs l).toList t := .single h
  rw [ho] at hone
  exact hone.trans h'

/-- The runs of a simulation. -/
theorem Reaches.simulates {σ' ℓ' : Type} {step' : σ' → ℓ' → Option σ'} {obs' : ℓ' → Option ε}
    {R : σ → σ' → Prop}
    (hsim : ∀ s s' l t, R s s' → step s l = some t →
      ∃ t', Reaches step' obs' s' (obs l).toList t' ∧ R t t')
    {s' : σ'} (hR : R s s') (h : Reaches step obs s os t) :
    ∃ t', Reaches step' obs' s' os t' ∧ R t t' := by
  obtain ⟨tr, hrun, rfl⟩ := h
  have hsteps : ∀ s s' l t, R s s' → step s l = some t → ∃ tr' t', run step' s' tr' = some t' ∧
      tr'.filterMap obs' = (obs l).toList ∧ R t t' := by
    intro s s' l t hR hstep
    obtain ⟨t', ⟨tr', hrun', hobs⟩, ht⟩ := hsim s s' l t hR hstep
    exact ⟨tr', t', hrun', hobs, ht⟩
  obtain ⟨tr', t', hrun', hobs, ht⟩ := run_simulates obs obs' hsteps hR hrun
  exact ⟨t', ⟨tr', hrun', hobs⟩, ht⟩

end Reaches

end Exec
