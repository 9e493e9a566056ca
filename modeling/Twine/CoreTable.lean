import Mathlib.Data.List.Basic
import Mathlib.Data.List.Nodup

/-!
# The core table of a worker pool

`build_core_list`, `read_isolated_cores` and `get_isolated_cpus`, and the table
that the constructor of a pool builds from them. Text is a list of characters,
`int` is an integer with its bounds checked where the source can leave them, and
a signed overflow is an outcome of its own.
-/
namespace Twine.CoreTable

def INT_MAX : Int := 2147483647
def INT_MIN : Int := -2147483648

structure CpuInfo where
  id : Int
  workers : Int
  deriving DecidableEq, Repr

inductive Fault where
  | signedOverflow
  deriving DecidableEq, Repr

/-- The consecutive integers from `first` to `last`, none when `last < first`. -/
def intRange (first last : Int) : List Int :=
  (List.range (last + 1 - first).toNat).map fun k : Nat => first + k

def buildCoreList (startCore cores : Int) : List CpuInfo :=
  (intRange startCore (cores + startCore - 1)).map fun i => ⟨i, 0⟩

def isSpace (c : Char) : Bool :=
  c = ' ' || c = '\t' || c = '\n' || c = '\x0b' || c = '\x0c' || c = '\r'

/-- The optional sign of a number; `true` is a minus. -/
def splitSign : List Char → Bool × List Char
  | '-' :: rest => (true, rest)
  | '+' :: rest => (false, rest)
  | str => (false, str)

/-- `std::stoi` in base ten; `none` is an exception, `invalid_argument` when no
digit follows the optional sign and `out_of_range` when the value is no `int`. -/
def stoi (str : List Char) : Option Int :=
  let (negative, str) := splitSign (str.dropWhile isSpace)
  let digits := str.takeWhile Char.isDigit
  if digits = [] then none
  else
    let value : Int := Nat.ofDigitChars 10 digits 0
    let value := if negative then -value else value
    if INT_MIN ≤ value ∧ value ≤ INT_MAX then some value else none

/-- `for (int i = first; i <= last; ++i) list.push_back(i)`, where the
increment of `INT_MAX` is the overflow. -/
def rangeLoop (i last : Int) (list : List Int) : Except Fault (List Int) :=
  if i ≤ last then
    if i = INT_MAX then .error .signedOverflow else rangeLoop (i + 1) last (list ++ [i])
  else .ok list
termination_by (last + 1 - i).toNat

/-- The `catch` turns every exception of `stoi` into an empty list. -/
def readIsolatedCores (str : List Char) : Except Fault (List Int) :=
  let sep := str.findIdx (· = '-')
  if sep < str.length then
    match stoi (str.take sep), stoi (str.drop (sep + 1)) with
    | some first, some last => rangeLoop first last []
    | _, _ => .ok []
  else .ok []

/-- `std::getline` on a file that was just opened. -/
def getline (text : List Char) : List Char := text.takeWhile (· ≠ '\n')

/-- `file` is the text of the cpu file, `none` when it cannot be opened. -/
def getIsolatedCpus (file : Option (List Char)) (cores : Int) : Except Fault (Option (List CpuInfo)) :=
  match file with
  | none => .ok none
  | some text =>
    match readIsolatedCores (getline text) with
    | .error e => .error e
    | .ok info =>
      if 0 < info.length then
        .ok (some ((info.take (min (info.length : Int) cores).toNat).map fun i => ⟨i, 0⟩))
      else .ok none

/-- Which table the constructor builds: only an EVL pool in an EVL build reads the
isolated cpus. -/
inductive Build where
  | plain
  | evl (isolatedCpusFile : Option (List Char))

def poolCores (build : Build) (cores : Int) : Except Fault (List CpuInfo) :=
  match build with
  | .plain => .ok (buildCoreList 0 cores)
  | .evl file =>
    match getIsolatedCpus file cores with
    | .error e => .error e
    | .ok table => .ok (table.getD (buildCoreList 0 cores))

/-! ## The range loop -/

@[simp] theorem length_intRange (first last : Int) :
    (intRange first last).length = (last + 1 - first).toNat := by
  simp [intRange]

theorem intRange_nodup (first last : Int) : (intRange first last).Nodup := by
  refine List.Nodup.map ?_ List.nodup_range
  intro a b h
  have h : first + (a : Int) = first + b := h
  omega

theorem intRange_of_lt {first last : Int} (h : last < first) : intRange first last = [] := by
  simp [intRange, show (last + 1 - first).toNat = 0 by omega]

theorem intRange_cons {first last : Int} (h : first ≤ last) :
    intRange first last = first :: intRange (first + 1) last := by
  have hn : (last + 1 - first).toNat = (last + 1 - (first + 1)).toNat + 1 := by omega
  simp only [intRange, hn, List.range_succ_eq_map, List.map_cons, List.map_map]
  congr 1
  · simp
  · apply List.map_congr_left
    intro k _
    simp only [Function.comp_apply, Nat.succ_eq_add_one, Int.natCast_add, Int.natCast_one]
    omega

/-- Below `INT_MAX` the loop lists the whole range. -/
theorem rangeLoop_ok {last : Int} (hlast : last < INT_MAX) (i : Int) (list : List Int) :
    rangeLoop i last list = .ok (list ++ intRange i last) := by
  fun_induction rangeLoop i last list with
  | case1 list h => omega
  | case2 i list h hne ih => rw [ih, intRange_cons h, List.append_assoc, List.singleton_append]
  | case3 i list h => simp [intRange_of_lt (show last < i by omega)]

/-! ## What every core table satisfies -/

/-- A fresh table counts no workers and names no core twice. -/
structure Fresh (table : List CpuInfo) : Prop where
  unused : ∀ c ∈ table, c.workers = 0
  nodup : (table.map CpuInfo.id).Nodup

theorem fresh_of_ids {ids : List Int} (h : ids.Nodup) : Fresh (ids.map fun i => ⟨i, 0⟩) where
  unused := by
    intro c hc
    obtain ⟨i, -, rfl⟩ := List.mem_map.mp hc
    rfl
  nodup := by simpa [Function.comp_def] using h

theorem buildCoreList_fresh (startCore cores : Int) : Fresh (buildCoreList startCore cores) :=
  fresh_of_ids (intRange_nodup _ _)

/-- Whatever the loop returns, it lists no integer twice. -/
theorem rangeLoop_nodup {i last : Int} {list res : List Int} (hlist : list.Nodup)
    (hlt : ∀ k ∈ list, k < i) (h : rangeLoop i last list = .ok res) : res.Nodup := by
  fun_induction rangeLoop i last list with
  | case1 => cases h
  | case2 i list _ _ ih =>
    refine ih ?_ ?_ h
    · refine hlist.append (List.nodup_singleton i) ?_
      intro k hk hki
      have := hlt k hk
      rw [List.mem_singleton.mp hki] at this
      omega
    · intro k hk
      rcases List.mem_append.mp hk with hk | hk
      · have := hlt k hk
        omega
      · rw [List.mem_singleton.mp hk]
        omega
  | case3 =>
    cases h
    exact hlist

theorem readIsolatedCores_nodup {str : List Char} {info : List Int}
    (h : readIsolatedCores str = .ok info) : info.Nodup := by
  simp only [readIsolatedCores] at h
  split at h
  · split at h
    · exact rangeLoop_nodup List.nodup_nil (by simp) h
    · cases h
      exact List.nodup_nil
  · cases h
    exact List.nodup_nil

theorem getIsolatedCpus_fresh {file : Option (List Char)} {cores : Int} {table : List CpuInfo}
    (h : getIsolatedCpus file cores = .ok (some table)) : Fresh table := by
  cases file with
  | none => simp [getIsolatedCpus] at h
  | some text =>
    simp only [getIsolatedCpus] at h
    split at h
    · cases h
    · rename_i info hinfo
      split at h
      · cases h
        exact fresh_of_ids ((readIsolatedCores_nodup hinfo).sublist (List.take_sublist _ _))
      · cases h

theorem poolCores_fresh {build : Build} {cores : Int} {table : List CpuInfo}
    (h : poolCores build cores = .ok table) : Fresh table := by
  cases build with
  | plain =>
    cases h
    exact buildCoreList_fresh 0 cores
  | evl file =>
    simp only [poolCores] at h
    split at h
    · cases h
    · rename_i t ht
      cases h
      cases t with
      | none => exact buildCoreList_fresh 0 cores
      | some t => exact getIsolatedCpus_fresh ht

end Twine.CoreTable
