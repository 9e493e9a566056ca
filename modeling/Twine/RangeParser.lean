import Twine.CoreTable

/-!
# The range parser on any text

`read_isolated_cores` gets whatever the first line of a file holds. Its result is
determined by the numbers around the first hyphen; the loop between them ends
after `last`, and when `last` is the greatest `int` the counter has nowhere to go.
-/
namespace Twine.RangeParser

open CoreTable

/-! ## What the parser is for -/

/-- The parts before and after the first hyphen parse to these numbers. -/
def Bounds (str : List Char) (first last : Int) : Prop :=
  ∃ left right, str = left ++ '-' :: right ∧ '-' ∉ left ∧
    stoi left = some first ∧ stoi right = some last

/-- The list is what the text says. -/
structure Lists (str : List Char) (list : List Int) : Prop where
  increasing : list.Pairwise (· < ·)
  range : ∀ first last, Bounds str first last → ∀ i, i ∈ list ↔ first ≤ i ∧ i ≤ last
  otherwise : (¬ ∃ first last, Bounds str first last) → list = []

/-! ## Numbers -/

theorem stoi_bounds {str : List Char} {value : Int} (h : stoi str = some value) :
    INT_MIN ≤ value ∧ value ≤ INT_MAX := by
  simp only [stoi] at h
  split at h
  · cases h
  · simp only [Option.ite_none_right_eq_some, Option.some.injEq] at h
    obtain ⟨hvalue, rfl⟩ := h
    exact hvalue

theorem mem_intRange {first last i : Int} : i ∈ intRange first last ↔ first ≤ i ∧ i ≤ last := by
  simp only [intRange, List.mem_map, List.mem_range]
  constructor
  · rintro ⟨k, hk, rfl⟩
    omega
  · intro h
    exact ⟨(i - first).toNat, by omega, by omega⟩

theorem intRange_increasing (first last : Int) : (intRange first last).Pairwise (· < ·) := by
  refine List.Pairwise.map _ ?_ List.pairwise_lt_range
  intro a b hab
  omega

/-! ## The text around the first hyphen -/

theorem findIdx_hyphen {str : List Char} (h : '-' ∉ str) :
    str.findIdx (· = '-') = str.length :=
  List.findIdx_eq_length_of_false fun c hc => decide_eq_false fun (he : c = '-') => h (he ▸ hc)

theorem exists_hyphen {str : List Char} (h : '-' ∈ str) :
    ∃ left right, str = left ++ '-' :: right ∧ '-' ∉ left := by
  induction str with
  | nil => cases h
  | cons c str ih =>
    by_cases hc : '-' = c
    · exact ⟨[], str, by simp [← hc], by simp⟩
    · obtain ⟨left, right, rfl, hleft⟩ := ih (List.mem_of_ne_of_mem hc h)
      exact ⟨c :: left, right, rfl, by simp [hc, hleft]⟩

theorem findIdx_split {left right : List Char} (h : '-' ∉ left) :
    (left ++ '-' :: right).findIdx (· = '-') = left.length := by
  rw [List.findIdx_append, findIdx_hyphen h, if_neg (Nat.lt_irrefl _)]
  simp [List.findIdx_cons]

theorem split_unique {left right left' right' : List Char} (hleft : '-' ∉ left)
    (hleft' : '-' ∉ left') (h : left ++ '-' :: right = left' ++ '-' :: right') :
    left = left' ∧ right = right' := by
  have hlen : left.length = left'.length := by
    rw [← @findIdx_split left right hleft, h, findIdx_split hleft']
  obtain ⟨hl, hr⟩ := List.append_inj h hlen
  exact ⟨hl, List.cons_inj_right _ |>.mp hr⟩

theorem Bounds.unique {str : List Char} {first last first' last' : Int} (h : Bounds str first last)
    (h' : Bounds str first' last') : first = first' ∧ last = last' := by
  obtain ⟨left, right, rfl, hleft, hfirst, hlast⟩ := h
  obtain ⟨left', right', he, hleft', hfirst', hlast'⟩ := h'
  obtain ⟨rfl, rfl⟩ := split_unique hleft hleft' he
  exact ⟨Option.some.inj (hfirst.symm.trans hfirst'), Option.some.inj (hlast.symm.trans hlast')⟩

theorem readIsolatedCores_none {str : List Char} (h : '-' ∉ str) :
    readIsolatedCores str = .ok [] := by
  simp [readIsolatedCores, findIdx_hyphen h]

theorem readIsolatedCores_split {left right : List Char} (h : '-' ∉ left) :
    readIsolatedCores (left ++ '-' :: right) =
      match stoi left, stoi right with
      | some first, some last => rangeLoop first last []
      | _, _ => .ok [] := by
  have htake : (left ++ '-' :: right).take left.length = left := List.take_left' rfl
  have hdrop : (left ++ '-' :: right).drop (left.length + 1) = right := by
    rw [List.drop_append, List.drop_eq_nil_of_le (Nat.le_succ _)]
    simp
  have hlt : left.length < (left ++ '-' :: right).length := by simp
  cases hfirst : stoi left <;> cases hlast : stoi right <;>
    simp only [readIsolatedCores, findIdx_split h, hlt, if_true, htake, hdrop, hfirst, hlast]

theorem readIsolatedCores_bounds {str : List Char} {first last : Int} (h : Bounds str first last) :
    readIsolatedCores str = rangeLoop first last [] := by
  obtain ⟨left, right, rfl, hleft, hfirst, hlast⟩ := h
  rw [readIsolatedCores_split hleft, hfirst, hlast]

/-- Every exception of `stoi` ends in the empty list. -/
theorem readIsolatedCores_otherwise {str : List Char}
    (h : ¬ ∃ first last, Bounds str first last) : readIsolatedCores str = .ok [] := by
  by_cases hmem : '-' ∈ str
  · obtain ⟨left, right, rfl, hleft⟩ := exists_hyphen hmem
    rw [readIsolatedCores_split hleft]
    split
    · rename_i first last hfirst hlast
      exact absurd ⟨first, last, left, right, rfl, hleft, hfirst, hlast⟩ h
    · rfl
  · exact readIsolatedCores_none hmem

/-! ## The end of the range -/

/-- The counter is still an `int` when the last number is listed, and not after that. -/
theorem rangeLoop_overflows {i : Int} (h : i ≤ INT_MAX) (list : List Int) :
    rangeLoop i INT_MAX list = .error .signedOverflow := by
  fun_induction rangeLoop i INT_MAX list with
  | case1 => rfl
  | case2 i list hle hne ih => exact ih (by omega)
  | case3 i list hlt => exact absurd h hlt

theorem lists_intRange {str : List Char} {first last : Int} (h : Bounds str first last) :
    Lists str (intRange first last) where
  increasing := intRange_increasing first last
  range := by
    intro first' last' h'
    obtain ⟨rfl, rfl⟩ := h'.unique h
    exact fun i => mem_intRange
  otherwise := fun hnone => absurd ⟨first, last, h⟩ hnone

/-- The parser ends with the list that the text says if and only if it does not count up to the
greatest `int`. -/
theorem reads_iff (str : List Char) :
    (∃ list, readIsolatedCores str = .ok list ∧ Lists str list) ↔
      ¬ ∃ first, Bounds str first INT_MAX := by
  constructor
  · rintro ⟨list, hread, -⟩ ⟨first, h⟩
    have hfirst : first ≤ INT_MAX := by
      obtain ⟨_, _, _, _, hfirst, _⟩ := h
      exact (stoi_bounds hfirst).2
    rw [readIsolatedCores_bounds h, rangeLoop_overflows hfirst] at hread
    cases hread
  · intro hmax
    by_cases hbounds : ∃ first last, Bounds str first last
    · obtain ⟨first, last, h⟩ := hbounds
      have hlast : last < INT_MAX := by
        have hle : last ≤ INT_MAX := by
          obtain ⟨_, _, _, _, _, hlast⟩ := h
          exact (stoi_bounds hlast).2
        rcases Int.lt_or_eq_of_le hle with hlt | rfl
        · exact hlt
        · exact absurd ⟨first, h⟩ hmax
      refine ⟨intRange first last, ?_, lists_intRange h⟩
      rw [readIsolatedCores_bounds h, rangeLoop_ok hlast, List.nil_append]
    · have hlists : Lists str [] :=
        { increasing := .nil
          range := fun first last h => absurd ⟨first, last, h⟩ hbounds
          otherwise := fun _ => rfl }
      exact ⟨[], readIsolatedCores_otherwise hbounds, hlists⟩

theorem greatest_int_overflows :
    ¬ ∃ list, readIsolatedCores "2147483647-2147483647".toList = .ok list ∧
      Lists "2147483647-2147483647".toList list := by
  rintro ⟨list, hread, -⟩
  have hbounds : Bounds "2147483647-2147483647".toList INT_MAX INT_MAX :=
    ⟨"2147483647".toList, "2147483647".toList, rfl, by decide, by decide, by decide⟩
  rw [readIsolatedCores_bounds hbounds, rangeLoop_overflows (Int.le_refl _)] at hread
  cases hread

end Twine.RangeParser
