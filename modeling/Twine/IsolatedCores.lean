import Twine.RangeParser
import Mathlib.Data.Finset.Sort
import Mathlib.Order.Interval.Finset.Nat

/-!
# The isolated cpus of the kernel

The kernel writes a set of cpus as an ascending list of single numbers and
ranges, separated by commas. `read_isolated_cores` splits the text at its first
hyphen: it reads the first number of the list on the left, the end of the first
range on the right, and returns everything between them.
-/
namespace Twine.IsolatedCores

open CoreTable RangeParser

/-! ## The list format -/

inductive CpuItem where
  | single (cpu : Nat)
  | range (first last : Nat)
  deriving DecidableEq, Repr

def CpuItem.first : CpuItem → Nat
  | .single cpu => cpu
  | .range first _ => first

def CpuItem.last : CpuItem → Nat
  | .single cpu => cpu
  | .range _ last => last

def CpuItem.text : CpuItem → List Char
  | .single cpu => Nat.toDigits 10 cpu
  | .range first last => Nat.toDigits 10 first ++ '-' :: Nat.toDigits 10 last

def cpuListText : List CpuItem → List Char
  | [] => []
  | [item] => item.text
  | item :: items => item.text ++ ',' :: cpuListText items

/-- The set that a list stands for. -/
def cpus : List CpuItem → Finset Nat
  | [] => ∅
  | item :: items => Finset.Icc item.first item.last ∪ cpus items

structure WellFormed (items : List CpuItem) : Prop where
  nonempty : items ≠ []
  ranges : ∀ item ∈ items, item.first ≤ item.last
  bound : ∀ item ∈ items, (item.last : Int) < INT_MAX
  ascending : items.Pairwise fun i j => i.last < j.first

/-- The first number of the list, the least cpu of the set. -/
def listFirst : List CpuItem → Nat
  | [] => 0
  | item :: _ => item.first

/-- The end of the first range of the list. -/
def firstRangeEnd : List CpuItem → Option Nat
  | [] => none
  | .single _ :: items => firstRangeEnd items
  | .range _ last :: _ => some last

theorem mem_cpus {items : List CpuItem} {n : Nat} :
    n ∈ cpus items ↔ ∃ item ∈ items, item.first ≤ n ∧ n ≤ item.last := by
  induction items with
  | nil => simp [cpus]
  | cons item items ih => simp [cpus, ih]

theorem WellFormed.first_le {items : List CpuItem} (h : WellFormed items) {n : Nat}
    (hn : n ∈ cpus items) : listFirst items ≤ n := by
  obtain ⟨item, hitem, hfirst, -⟩ := mem_cpus.mp hn
  cases items with
  | nil => cases hitem
  | cons head items =>
    rcases List.mem_cons.mp hitem with rfl | hmem
    · exact hfirst
    · have hlt := (List.pairwise_cons.mp h.ascending).1 item hmem
      have hle := h.ranges head (by simp)
      simp only [listFirst]
      omega

theorem firstRangeEnd_mem {items : List CpuItem} {last : Nat} (h : firstRangeEnd items = some last) :
    ∃ first, .range first last ∈ items := by
  induction items with
  | nil => cases h
  | cons item items ih =>
    cases item with
    | single cpu =>
      obtain ⟨first, hmem⟩ := ih h
      exact ⟨first, by simp [hmem]⟩
    | range first last' =>
      cases h
      exact ⟨first, by simp⟩

theorem WellFormed.firstRangeEnd {items : List CpuItem} (h : WellFormed items) {last : Nat}
    (hlast : firstRangeEnd items = some last) : last ∈ cpus items ∧ (last : Int) < INT_MAX := by
  obtain ⟨first, hmem⟩ := firstRangeEnd_mem hlast
  have hrange : first ≤ last := h.ranges _ hmem
  have hbound := h.bound _ hmem
  simp only [CpuItem.last] at hbound
  exact ⟨mem_cpus.mpr ⟨_, hmem, hrange, Nat.le_refl last⟩, hbound⟩

/-! ## Reading numbers -/

/-- The text does not go on with a digit. -/
def Delimited (rest : List Char) : Prop := ∀ c, rest.head? = some c → c.isDigit = false

theorem isDigit_of_mem {n : Nat} {c : Char} (h : c ∈ Nat.toDigits 10 n) : c.isDigit = true :=
  Nat.isDigit_of_mem_toDigits (by decide) (by decide) h

theorem takeWhile_toDigits (n : Nat) {rest : List Char} (h : Delimited rest) :
    (Nat.toDigits 10 n ++ rest).takeWhile Char.isDigit = Nat.toDigits 10 n := by
  rw [List.takeWhile_append_of_pos fun c hc => isDigit_of_mem hc]
  cases rest with
  | nil => simp
  | cons c rest => simp [h c rfl]

/-- `stoi` reads the number that its text starts with. -/
theorem stoi_toDigits {n : Nat} {rest : List Char} (hn : (n : Int) ≤ INT_MAX)
    (h : Delimited rest) : stoi (Nat.toDigits 10 n ++ rest) = some (n : Int) := by
  have htake := takeWhile_toDigits n h
  obtain ⟨c, cs, hcs⟩ := List.exists_cons_of_ne_nil (Nat.toDigits_ne_nil (n := n) (b := 10))
  have hdigit : c.isDigit = true := isDigit_of_mem (n := n) (by simp [hcs])
  have hspace : isSpace c = false := by
    by_contra hs
    simp only [Bool.not_eq_false, isSpace, Bool.or_eq_true, decide_eq_true_eq] at hs
    rcases hs with ((((rfl | rfl) | rfl) | rfl) | rfl) | rfl <;> simp at hdigit
  have hsign : splitSign (c :: (cs ++ rest)) = (false, c :: (cs ++ rest)) := by
    unfold splitSign
    split <;> simp_all
  rw [hcs] at htake ⊢
  rw [List.cons_append] at htake ⊢
  have hvalue : (Nat.ofDigitChars 10 (c :: cs) 0 : Int) = n := by
    rw [← hcs, Nat.ofDigitChars_ten_toDigits]
  have hmin : INT_MIN ≤ (n : Int) := by
    simp only [INT_MIN]
    omega
  simp [stoi, hspace, hsign, htake, hvalue, hmin, hn]

/-! ## The text of a list -/

theorem hyphen_not_mem_toDigits (n : Nat) : '-' ∉ Nat.toDigits 10 n := by
  intro h
  have := isDigit_of_mem h
  simp at this

/-- The text around the first hyphen: the first number on its left, the end of the first
range on its right. -/
theorem text_split {items : List CpuItem} {last : Nat} (h : firstRangeEnd items = some last) :
    ∃ left right, cpuListText items =
        (Nat.toDigits 10 (listFirst items) ++ left) ++ '-' :: (Nat.toDigits 10 last ++ right) ∧
      '-' ∉ Nat.toDigits 10 (listFirst items) ++ left ∧ Delimited left ∧ Delimited right := by
  induction items with
  | nil => cases h
  | cons item items ih =>
    cases item with
    | range first last' =>
      cases h
      cases items with
      | nil =>
        exact ⟨[], [], by simp [cpuListText, CpuItem.text, listFirst, CpuItem.first],
          by simpa [listFirst] using hyphen_not_mem_toDigits _, nofun, nofun⟩
      | cons next items =>
        refine ⟨[], ',' :: cpuListText (next :: items),
          by simp [cpuListText, CpuItem.text, listFirst, CpuItem.first],
          by simpa [listFirst] using hyphen_not_mem_toDigits _, nofun, ?_⟩
        intro c hc
        cases hc
        rfl
    | single cpu =>
      obtain ⟨left, right, htext, hleft, -, hright⟩ := ih h
      cases items with
      | nil => cases h
      | cons next items =>
        refine ⟨',' :: (Nat.toDigits 10 (listFirst (next :: items)) ++ left), right, ?_, ?_, ?_, hright⟩
        · simp only [cpuListText] at htext ⊢
          rw [htext]
          simp [CpuItem.text, listFirst, CpuItem.first]
        · intro hm
          rcases List.mem_append.mp hm with hm | hm
          · exact hyphen_not_mem_toDigits _ hm
          · exact hleft (by simpa using hm)
        · intro c hc
          cases hc
          rfl

theorem text_no_hyphen {items : List CpuItem} (h : firstRangeEnd items = none) :
    '-' ∉ cpuListText items := by
  induction items with
  | nil => simp [cpuListText]
  | cons item items ih =>
    cases item with
    | range first last => cases h
    | single cpu =>
      cases items with
      | nil => simpa [cpuListText, CpuItem.text] using hyphen_not_mem_toDigits cpu
      | cons next items =>
        have := ih h
        simp only [cpuListText, CpuItem.text, List.mem_append, List.mem_cons]
        rintro (hm | hm | hm)
        · exact hyphen_not_mem_toDigits _ hm
        · cases hm
        · exact this hm

theorem text_no_newline (items : List CpuItem) : '\n' ∉ cpuListText items := by
  have hdigits : ∀ n, '\n' ∉ Nat.toDigits 10 n := by
    intro n hm
    have := isDigit_of_mem hm
    simp at this
  have htext : ∀ item : CpuItem, '\n' ∉ item.text := by
    intro item hm
    cases item with
    | single cpu => exact hdigits _ hm
    | range first last =>
      rcases List.mem_append.mp hm with hm | hm
      · exact hdigits _ hm
      · exact hdigits last (by simpa using hm)
  fun_induction cpuListText items with
  | case1 => simp
  | case2 item => exact htext item
  | case3 item items _ ih =>
    intro hm
    rcases List.mem_append.mp hm with hm | hm
    · exact htext item hm
    · exact ih (by simpa using hm)

/-! ## What the parser returns -/

theorem readIsolatedCores_range {items : List CpuItem} (h : WellFormed items) {last : Nat}
    (hlast : firstRangeEnd items = some last) :
    readIsolatedCores (cpuListText items) = .ok (intRange (listFirst items) last) := by
  obtain ⟨left, right, htext, hleft, hdl, hdr⟩ := text_split hlast
  obtain ⟨hmem, hbound⟩ := h.firstRangeEnd hlast
  have hfirst := h.first_le hmem
  rw [htext, readIsolatedCores_split hleft,
    stoi_toDigits (show (listFirst items : Int) ≤ INT_MAX by omega) hdl,
    stoi_toDigits (show (last : Int) ≤ INT_MAX by omega) hdr]
  exact rangeLoop_ok hbound _ []

theorem readIsolatedCores_singles {items : List CpuItem} (h : firstRangeEnd items = none) :
    readIsolatedCores (cpuListText items) = .ok [] :=
  readIsolatedCores_none (text_no_hyphen h)

/-! ## Consecutive numbers at the front of an ascending list -/

/-- The list has `m, …, m + C - 1`, and if there is room for more than these it has nothing
above them. -/
def Consecutive (l : List Nat) (m C N : Nat) : Prop :=
  (∀ k < C, m + k ∈ l) ∧ (C < N → ∀ n ∈ l, n < m + C)

theorem consecutive_cons {a m C N : Nat} {l : List Nat} (hlt : ∀ n ∈ l, a < n) (ham : m ≤ a) :
    Consecutive (a :: l) m (C + 1) (N + 1) ↔ a = m ∧ Consecutive l (m + 1) C N := by
  constructor
  · rintro ⟨hin, hout⟩
    have ha : a = m := by
      rcases List.mem_cons.mp (hin 0 (by omega)) with h | h
      · exact h.symm
      · have := hlt _ h
        omega
    subst ha
    refine ⟨rfl, ?_, ?_⟩
    · intro k hk
      rcases List.mem_cons.mp (hin (k + 1) (by omega)) with h | h
      · omega
      · rwa [show a + 1 + k = a + (k + 1) by omega]
    · intro hCN n hn
      have := hout (by omega) n (by simp [hn])
      omega
  · rintro ⟨rfl, hin, hout⟩
    refine ⟨?_, ?_⟩
    · intro k hk
      cases k with
      | zero => simp
      | succ k =>
        have := hin k (by omega)
        exact List.mem_cons_of_mem _ (by rwa [show a + (k + 1) = a + 1 + k by omega])
    · intro hCN n hn
      rcases List.mem_cons.mp hn with rfl | hn
      · omega
      · have := hout (by omega) n hn
        omega

/-- The first `N` of an ascending list of numbers from `m` on are a range exactly when the list
is consecutive up to there. -/
theorem take_eq_range' {l : List Nat} {m C N : Nat} (hl : l.Pairwise (· < ·))
    (hm : ∀ n ∈ l, m ≤ n) (hC : C ≤ N) :
    l.take N = List.range' m C ↔ Consecutive l m C N := by
  induction C generalizing l m N with
  | zero =>
    cases N with
    | zero => simp [Consecutive]
    | succ N =>
      cases l with
      | nil => simp [Consecutive]
      | cons a l =>
        have ham := hm a (by simp)
        constructor
        · intro h
          cases h
        · rintro ⟨-, h⟩
          have := h (Nat.succ_pos N) a (by simp)
          omega
  | succ C ih =>
    obtain ⟨N, rfl⟩ : ∃ N', N = N' + 1 := ⟨N - 1, by omega⟩
    cases l with
    | nil =>
      constructor
      · intro h
        cases h
      · rintro ⟨h, -⟩
        cases h 0 (Nat.succ_pos C)
    | cons a l =>
      obtain ⟨hlt, htail⟩ := List.pairwise_cons.mp hl
      rw [List.range'_succ, List.take_succ_cons, List.cons.injEq,
        consecutive_cons hlt (hm a (by simp))]
      refine and_congr_right fun ha => ?_
      subst ha
      exact ih htail (fun n hn => hlt n hn) (by omega)

theorem take_intRange (first last N : Nat) :
    (intRange first last).take N =
      (List.range' first (min (last + 1 - first) N)).map fun n : Nat => (n : Int) := by
  have hlen : ((last : Int) + 1 - first).toNat = last + 1 - first := by omega
  simp only [intRange, hlen, List.range'_eq_map_range, List.map_map, ← List.map_take,
    List.take_range, Nat.min_comm]
  apply List.map_congr_left
  intro k _
  simp

/-! ## The table of an EVL pool -/

/-- The isolated cpus are honoured: the table comes from the file and is the `cores` smallest of
the set. -/
structure Honoured (S : Finset Nat) (file : Option (List Char)) (cores : Nat) : Prop where
  table : poolCores (.evl file) cores = .ok (((S.sort (· ≤ ·)).take cores).map fun n : Nat => ⟨n, 0⟩)
  isolated : getIsolatedCpus file cores ≠ .ok none

/-- The first number to the end of the first range, as far as the cores reach, is all
isolated, and where the cores reach further nothing else is. -/
def FirstRangeCovers (items : List CpuItem) (cores : Nat) : Prop :=
  ∃ last, firstRangeEnd items = some last ∧
    (∀ n, listFirst items ≤ n → n ≤ last → n < listFirst items + cores → n ∈ cpus items) ∧
    (last + 1 < listFirst items + cores → ∀ n ∈ cpus items, n ≤ last)

theorem getIsolatedCpus_range {items : List CpuItem} {file : List Char} {cores last : Nat}
    (h : WellFormed items) (hfile : getline file = cpuListText items)
    (hlast : firstRangeEnd items = some last) :
    getIsolatedCpus (some file) cores =
      .ok (some ((List.range' (listFirst items) (min (last + 1 - listFirst items) cores)).map
        fun n : Nat => ⟨n, 0⟩)) := by
  have hfirst := h.first_le (h.firstRangeEnd hlast).1
  have hlen : (intRange (listFirst items) last).length = last + 1 - listFirst items := by
    rw [length_intRange]
    omega
  have hmin : (min ((last + 1 - listFirst items : Nat) : Int) (cores : Int)).toNat =
      min (last + 1 - listFirst items) cores := by omega
  simp only [getIsolatedCpus, hfile, readIsolatedCores_range h hlast, hlen, hmin, take_intRange]
  rw [if_pos (by omega), List.map_map, ← Nat.min_assoc, Nat.min_self]
  rfl

theorem getIsolatedCpus_singles {items : List CpuItem} {file : List Char} {cores : Int}
    (hfile : getline file = cpuListText items) (hnone : firstRangeEnd items = none) :
    getIsolatedCpus (some file) cores = .ok none := by
  simp [getIsolatedCpus, hfile, readIsolatedCores_singles hnone]

theorem Honoured.mem {S : Finset Nat} {file : Option (List Char)} {cores : Nat}
    (h : Honoured S file cores) : ∃ table, poolCores (.evl file) cores = .ok table ∧
      ∀ c ∈ table, ∃ n ∈ S, c.id = n := by
  refine ⟨_, h.table, fun c hc => ?_⟩
  obtain ⟨n, hn, rfl⟩ := List.mem_map.mp hc
  exact ⟨n, (Finset.mem_sort _).mp (List.mem_of_mem_take hn), rfl⟩

theorem poolCores_empty {file : List Char} (hfile : getline file = []) (cores : Int) :
    poolCores (.evl (some file)) cores = .ok (buildCoreList 0 cores) := by
  simp [poolCores, getIsolatedCpus, hfile, readIsolatedCores]

theorem honoured_of_range {items : List CpuItem} {file : List Char} {cores last : Nat}
    (h : WellFormed items) (hfile : getline file = cpuListText items)
    (hlast : firstRangeEnd items = some last) :
    Honoured (cpus items) (some file) cores ↔
      ((cpus items).sort (· ≤ ·)).take cores =
        List.range' (listFirst items) (min (last + 1 - listFirst items) cores) := by
  have hinj : Function.Injective fun n : Nat => (⟨n, 0⟩ : CpuInfo) := by
    intro a b hab
    exact Int.ofNat.inj (congrArg CpuInfo.id hab)
  constructor
  · intro hon
    have htable := hon.table
    simp only [poolCores, getIsolatedCpus_range h hfile hlast, Option.getD_some,
      Except.ok.injEq] at htable
    exact (hinj.list_map htable).symm
  · intro htake
    refine ⟨?_, ?_⟩
    · rw [htake]
      simp [poolCores, getIsolatedCpus_range h hfile hlast]
    · simp [getIsolatedCpus_range h hfile hlast]

/-- The isolated cpus are honoured exactly when the list has a range and everything from its
first number to the end of that range is isolated. -/
theorem honoured_iff {items : List CpuItem} {file : List Char} {cores : Nat} (h : WellFormed items)
    (hfile : getline file = cpuListText items) :
    (Honoured (cpus items) (some file) cores ↔ FirstRangeCovers items cores) ∧
      poolCores (.evl none) cores = .ok (buildCoreList 0 cores) ∧
      ∀ empty, getline empty = [] →
        poolCores (.evl (some empty)) cores = .ok (buildCoreList 0 cores) := by
  refine ⟨?_, rfl, fun empty hempty => poolCores_empty hempty cores⟩
  cases hend : firstRangeEnd items with
  | none =>
    constructor
    · intro hon
      exact absurd (getIsolatedCpus_singles hfile hend) hon.isolated
    · rintro ⟨last, hlast, -⟩
      rw [hend] at hlast
      cases hlast
  | some last =>
    have hfirst := h.first_le (h.firstRangeEnd hend).1
    rw [honoured_of_range h hfile hend,
      take_eq_range' (Finset.sortedLT_sort _).pairwise
        (fun n hn => h.first_le ((Finset.mem_sort _).mp hn)) (Nat.min_le_right _ _)]
    simp only [Consecutive, Finset.mem_sort]
    constructor
    · rintro ⟨hin, hout⟩
      refine ⟨last, hend, ?_, ?_⟩
      · intro n hmn hnl hnc
        have := hin (n - listFirst items) (by omega)
        rwa [Nat.add_sub_cancel' hmn] at this
      · intro hlt n hn
        have := hout (by omega) n hn
        omega
    · rintro ⟨last', hlast, hin, hout⟩
      cases hend.symm.trans hlast
      refine ⟨?_, ?_⟩
      · intro k hk
        exact hin _ (by omega) (by omega) (by omega)
      · intro hlt n hn
        have := hout (by omega) n hn
        omega

theorem getline_text (items : List CpuItem) (rest : List Char) :
    getline (cpuListText items ++ '\n' :: rest) = cpuListText items := by
  have hne : ∀ c ∈ cpuListText items, decide (c ≠ '\n') = true := by
    intro c hc
    simp only [ne_eq, decide_eq_true_eq]
    rintro rfl
    exact text_no_newline items hc
  rw [getline, List.takeWhile_append_of_pos hne]
  simp

/-- `2-5,8` on four cores. -/
theorem honoured_iff_rangeFirst :
    Honoured (cpus [.range 2 5, .single 8]) (some (cpuListText [.range 2 5, .single 8] ++ ['\n'])) 4 :=
  (honoured_iff
    { nonempty := by decide, ranges := by decide, bound := by decide, ascending := by decide }
    (getline_text _ _)).1.mpr ⟨5, rfl, by decide +revert, by decide⟩

/-- `2,4-7` on eight cores: the table has core 3. -/
theorem gap_is_filled :
    WellFormed [.single 2, .range 4 7] ∧
      poolCores (.evl (some "2,4-7\n".toList)) 8 =
        .ok [⟨2, 0⟩, ⟨3, 0⟩, ⟨4, 0⟩, ⟨5, 0⟩, ⟨6, 0⟩, ⟨7, 0⟩] ∧
      3 ∉ cpus [.single 2, .range 4 7] ∧
      ¬ Honoured (cpus [.single 2, .range 4 7]) (some "2,4-7\n".toList) 8 := by
  have hwf : WellFormed [.single 2, .range 4 7] :=
    { nonempty := by decide, ranges := by decide, bound := by decide, ascending := by decide }
  have hfile : getline "2,4-7\n".toList = cpuListText [.single 2, .range 4 7] := by decide
  have htable : poolCores (.evl (some "2,4-7\n".toList)) 8 =
      .ok [⟨2, 0⟩, ⟨3, 0⟩, ⟨4, 0⟩, ⟨5, 0⟩, ⟨6, 0⟩, ⟨7, 0⟩] := by
    have h := @getIsolatedCpus_range _ _ 8 _ hwf hfile rfl
    simp only [poolCores]
    rw [show (8 : Int) = (8 : Nat) from rfl, h]
    rfl
  have hgap : 3 ∉ cpus [.single 2, .range 4 7] := by decide
  refine ⟨hwf, htable, hgap, fun hon => ?_⟩
  obtain ⟨table, htable', hmem⟩ := hon.mem
  cases htable.symm.trans htable'
  obtain ⟨n, hn, h3⟩ := hmem ⟨3, 0⟩ (by simp)
  exact hgap ((Int.ofNat.inj h3 : 3 = n) ▸ hn)

end Twine.IsolatedCores
