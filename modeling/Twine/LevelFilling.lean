import Mathlib.Algebra.BigOperators.Group.Finset.Basic
import Mathlib.Algebra.BigOperators.Ring.Finset
import Mathlib.Data.Finset.Max
import Mathlib.Data.Int.Order.Basic
import Mathlib.Order.Interval.Finset.Nat
import Mathlib.Tactic.Ring

/-!
# Filling the least levels first

Finitely many places hold integer levels. A unit always goes to the first of the
places with the least level. Over any number of units this fills the places like
vessels that are connected: those above the level that is reached keep what they
have, and the others end at that level or, the first of them, one above.
-/
namespace LevelFilling

section Places

variable {ι : Type} [LinearOrder ι] {s : Finset ι} {c c' : ι → Int} {L : Int} {j : ι}

/-- The first place with the least level. -/
structure FirstLeast (s : Finset ι) (c : ι → Int) (j : ι) : Prop where
  mem : j ∈ s
  least : ∀ i ∈ s, c j ≤ c i
  first : ∀ i ∈ s, i < j → c j < c i

def pour (c : ι → Int) (j : ι) : ι → Int := Function.update c j (c j + 1)

@[simp] theorem pour_self (c : ι → Int) (j : ι) : pour c j j = c j + 1 := by simp [pour]

theorem pour_other (c : ι → Int) {i j : ι} (h : i ≠ j) : pour c j i = c i := by simp [pour, h]

/-- From `c` to `c'` the places are filled up to the level `L`. -/
structure FilledTo (L : Int) (s : Finset ι) (c c' : ι → Int) : Prop where
  above : ∀ j ∈ s, L < c j → c' j = c j
  below : ∀ j ∈ s, c j ≤ L → c' j = L ∨ c' j = L + 1
  /-- Those one above the level are the first. -/
  first : ∀ i ∈ s, ∀ j ∈ s, i < j → c i ≤ L → c j ≤ L → c' j = L + 1 → c' i = L + 1

/-- Some place has exactly the level, which is then the least one. -/
structure AtLevel (L : Int) (s : Finset ι) (c c' : ι → Int) : Prop extends FilledTo L s c c' where
  level : ∃ j ∈ s, c' j = L

/-- `c'` is `c` after `m` units. -/
structure Filled (s : Finset ι) (c c' : ι → Int) (m : Nat) : Prop where
  filledTo : ∃ L, FilledTo L s c c'
  total : ∑ j ∈ s, c' j = ∑ j ∈ s, c j + m

theorem exists_atLevel (h : s.Nonempty) (c : ι → Int) : ∃ L, AtLevel L s c c := by
  obtain ⟨j, hj, hmin⟩ := s.exists_min_image c h
  refine ⟨c j, ⟨fun _ _ _ => rfl, fun i hi hle => .inl ?_, fun i hi k hk _ _ hle habove => ?_⟩, j, hj, rfl⟩
  · exact le_antisymm hle (hmin i hi)
  · omega

theorem FilledTo.le (h : FilledTo L s c c') {i : ι} (hi : i ∈ s) : L ≤ c' i := by
  rcases le_or_gt (c i) L with hle | hgt
  · rcases h.below i hi hle with he | he <;> omega
  · have := h.above i hi hgt
    omega

/-- The first least place is at the level, and only it gets a unit. -/
theorem AtLevel.eq_level (h : AtLevel L s c c') (hj : FirstLeast s c' j) : c' j = L := by
  obtain ⟨i, hi, he⟩ := h.level
  exact le_antisymm (he ▸ hj.least i hi) (h.le hj.mem)

theorem AtLevel.pour (h : AtLevel L s c c') (hj : FirstLeast s c' j) :
    ∃ L', AtLevel L' s c (pour c' j) := by
  have hlevel := h.eq_level hj
  have hbelow : c j ≤ L := by
    by_contra hgt
    have := h.above j hj.mem (by omega)
    omega
  by_cases hleft : ∃ i ∈ s, i ≠ j ∧ c' i = L
  · obtain ⟨i, hi, hne, he⟩ := hleft
    refine ⟨L, ⟨?_, ?_, ?_⟩, i, hi, by rw [pour_other _ hne, he]⟩
    · intro k hk hgt
      have hkj : k ≠ j := by
        rintro rfl
        omega
      rw [pour_other _ hkj]
      exact h.above k hk hgt
    · intro k hk hle
      by_cases hkj : k = j
      · subst hkj
        exact .inr (by rw [pour_self, hlevel])
      · rw [pour_other _ hkj]
        exact h.below k hk hle
    · intro k hk l hl hlt hkL hlL hl1
      by_cases hkj : k = j
      · subst hkj
        rw [pour_self, hlevel]
      · rw [pour_other _ hkj]
        by_cases hlj : l = j
        · -- the places before the first least one were above it
          subst hlj
          have hfirst := hj.first k hk hlt
          rcases h.below k hk hkL with he' | he' <;> omega
        · rw [pour_other _ hlj] at hl1
          exact h.first k hk l hl hlt hkL hlL hl1
  · -- the last place at the level: now all of them are one above
    push Not at hleft
    have hup : ∀ k ∈ s, c k ≤ L → LevelFilling.pour c' j k = L + 1 := by
      intro k hk hle
      by_cases hkj : k = j
      · rw [hkj, pour_self, hlevel]
      · rw [pour_other _ hkj]
        rcases h.below k hk hle with he | he
        · exact absurd he (hleft k hk hkj)
        · exact he
    have hkeep : ∀ k ∈ s, L < c k → LevelFilling.pour c' j k = c k := by
      intro k hk hgt
      have hkj : k ≠ j := by
        rintro rfl
        omega
      rw [pour_other _ hkj]
      exact h.above k hk hgt
    refine ⟨L + 1, ⟨?_, ?_, ?_⟩, j, hj.mem, by rw [pour_self, hlevel]⟩
    · intro k hk hgt
      exact hkeep k hk (by omega)
    · intro k hk hle
      rcases le_or_gt (c k) L with hle' | hgt
      · exact .inl (hup k hk hle')
      · exact .inl (by rw [hkeep k hk hgt]; omega)
    · intro k _ l hl _ _ hlL hl1
      rcases le_or_gt (c l) L with hle' | hgt
      · have := hup l hl hle'
        omega
      · have := hkeep l hl hgt
        omega

theorem sum_pour (c : ι → Int) (hj : j ∈ s) : ∑ i ∈ s, pour c j i = ∑ i ∈ s, c i + 1 := by
  simp only [pour, Finset.sum_update_of_mem hj, ← Finset.add_sum_erase s c hj,
    Finset.sdiff_singleton_eq_erase]
  ring

end Places

/-! ## From nothing -/

section RoundRobin

variable {k n : Nat} {c : Nat → Int}

/-- The levels of the first `k` places after `n` units, from nothing. -/
def RoundRobin (k n : Nat) (c : Nat → Int) : Prop :=
  ∀ j < k, c j = (n / k : Nat) + if j < n % k then 1 else 0

theorem RoundRobin.pick {j : Nat} (h : RoundRobin k n c) (hj : FirstLeast (Finset.range k) c j) :
    j = n % k := by
  have hjk := Finset.mem_range.mp hj.mem
  have hlt : n % k < k := Nat.mod_lt n (by omega)
  have hc := h j hjk
  have hn := h (n % k) hlt
  rw [if_neg (Nat.lt_irrefl _)] at hn
  have hle := hj.least (n % k) (Finset.mem_range.mpr hlt)
  rcases Nat.lt_trichotomy j (n % k) with hlow | he | hhigh
  · rw [if_pos hlow] at hc
    omega
  · exact he
  · have hstrict := hj.first (n % k) (Finset.mem_range.mpr hlt) hhigh
    rw [if_neg (by omega)] at hc
    omega

theorem RoundRobin.pour (hk : 0 < k) (h : RoundRobin k n c) :
    RoundRobin k (n + 1) (pour c (n % k)) := by
  have hlt : n % k < k := Nat.mod_lt n hk
  have hdiv := Nat.div_add_mod n k
  intro j hj
  have hc : LevelFilling.pour c (n % k) j = (n / k : Nat) + if j < n % k + 1 then 1 else 0 := by
    by_cases he : j = n % k
    · rw [he, pour_self, h _ hlt]
      simp
    · rw [pour_other _ he, h j hj]
      have hiff : j < n % k ↔ j < n % k + 1 := by omega
      simp only [hiff]
  rw [hc]
  rcases Nat.lt_or_ge (n % k + 1) k with hroom | hfull
  · obtain ⟨hquot, hmod⟩ := (Nat.div_mod_unique (a := n + 1) (d := n / k) hk).mpr
      ⟨by omega, hroom⟩
    rw [hmod, hquot]
  · -- the round is complete
    have hround : n + 1 = k * (n / k + 1) := by
      rw [Nat.mul_add, Nat.mul_one]
      omega
    obtain ⟨hquot, hmod⟩ := (Nat.div_mod_unique (a := n + 1) (c := 0) (d := n / k + 1) hk).mpr
      ⟨by omega, hk⟩
    rw [hmod, hquot, if_pos (by omega), if_neg (Nat.not_lt_zero j)]
    push_cast
    ring

/-- No two places differ by more than one. -/
theorem RoundRobin.balanced (h : RoundRobin k n c) {i j : Nat} (hi : i < k) (hj : j < k) :
    c i ≤ c j + 1 := by
  rw [h i hi, h j hj]
  split <;> split <;> omega

end RoundRobin

end LevelFilling
