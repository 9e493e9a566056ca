import Twine.Placement

/-!
# Workers on macOS with CoreAudio

The constructor of a worker looks for the workgroup of an audio device by the
name of the device, the worker's thread sets itself to realtime and joins the
workgroup, and each of them may write the status that `add_worker` reads in the
end. The answers of CoreAudio and of the workgroup calls are arguments.
-/
namespace Twine.AppleThreading

open Placement

/-- An `os_workgroup_t` that is not null. -/
abbrev Workgroup := Nat

def noErr : Int := 0

def SIZEOF_AUDIO_OBJECT_ID : Nat := 4
def SIZEOF_CF_STRING_REF : Nat := 8

def EALREADY : Int := 37

/-- What the two calls for a C string return; the buffer of `CFStringGetCString` ends at the
first null character. -/
structure CFString where
  cStringPtr : Option (List Char)
  cString : Option (List Char)
  deriving DecidableEq, Repr

def cfStringToStdString : Option CFString → List Char
  | none => []
  | some ref =>
    match ref.cStringPtr, ref.cString with
    | some cString, _ => cString
    | none, none => []
    | none, some output => output.takeWhile fun c => c ≠ Char.ofNat 0

/-- The answers to the queries for a device, in the order in which they are made. -/
structure Device where
  nameSizeStatus : Int
  nameSize : Nat
  nameStatus : Int
  name : Option CFString
  workgroupSizeStatus : Int
  workgroupStatus : Int
  workgroup : Option Workgroup
  cancelled : Bool
  deriving DecidableEq, Repr

/-- The answers to the queries for the list of devices. The list is as long as the first of the
two sizes says, whatever is written to it. -/
structure DeviceList where
  sizeStatus : Int
  size : Nat
  dataStatus : Int
  dataSize : Nat
  deviceIds : List Device
  sized : deviceIds.length = size / SIZEOF_AUDIO_OBJECT_ID

/-! ## apple_threading.cpp -/

/-- The end of `get_device_workgroup`, for the device with the name. -/
def fetchWorkgroup (d : Device) : Option Workgroup × AppleThreadingStatus :=
  if d.workgroupSizeStatus ≠ noErr then (none, .wgSizeFailed)
  else if d.workgroupStatus ≠ noErr then (none, .wgFailed)
  else if d.cancelled then (d.workgroup, .wgCancelled)
  else (d.workgroup, .ok)

/-- The loop of `get_device_workgroup`. -/
def searchDevices (deviceName : List Char) : List Device → Option Workgroup × AppleThreadingStatus
  | [] => (none, .invalidDeviceNamePassed)
  | d :: rest =>
    if d.nameSizeStatus ≠ noErr then (none, .fetchNameSizeFailed)
    else if d.nameSize ≠ SIZEOF_CF_STRING_REF then (none, .fetchNameSizeFailed)
    else if d.nameStatus ≠ noErr ∨ d.name = none then (none, .fetchNameFailed)
    else if cfStringToStdString d.name = deviceName then fetchWorkgroup d
    else searchDevices deviceName rest

def getDeviceWorkgroup (macOS11 : Bool) (deviceName : List Char) (l : DeviceList) :
    Option Workgroup × AppleThreadingStatus :=
  if macOS11 then
    if l.sizeStatus ≠ noErr then (none, .pdSizeFailed)
    else if l.dataStatus ≠ noErr then (none, .pdFailed)
    else if l.dataSize / SIZEOF_AUDIO_OBJECT_ID ≠ l.size / SIZEOF_AUDIO_OBJECT_ID then
      (none, .pdSizeFailed)
    else searchDevices deviceName l.deviceIds
  else (none, .macos11NotDetected)

/-- What `os_workgroup_testcancel` and `os_workgroup_join` return to the worker's thread. -/
structure JoinCalls where
  cancelled : Bool
  result : Int
  deriving DecidableEq, Repr

/-- The debug assertion on `EALREADY` is left out. -/
def joinWorkgroup (macOS11 : Bool) (workgroup : Option Workgroup) (calls : JoinCalls) :
    AppleThreadingStatus :=
  if macOS11 then
    match workgroup with
    | none => .noWorkgroupPassed
    | some _ =>
      if calls.cancelled then .workgroupAlreadyCancelled
      else if calls.result = 0 then .ok
      else if calls.result = EINVAL then .workgroupAlreadyCancelled
      else if calls.result = EALREADY then .ok
      else .workgroupJoiningUnknownFailure
  else .empty

/-! ## WorkerThread -/

/-- The workgroup and the status after the constructor. -/
def newWorker (macOS11 : Bool) (deviceName : List Char) (l : DeviceList) :
    Option Workgroup × AppleThreadingStatus :=
  if macOS11 then
    let result := getDeviceWorkgroup macOS11 deviceName l
    if result.2 ≠ .ok then result else (result.1, .ok)
  else (none, .ok)

/-- The status after `_init_apple_thread`. -/
def initAppleThread (macOS11 realtime : Bool) (calls : JoinCalls)
    (worker : Option Workgroup × AppleThreadingStatus) : AppleThreadingStatus :=
  let status := if realtime = false then .realtimeFailed else worker.2
  if macOS11 then
    let joined := joinWorkgroup macOS11 worker.1 calls
    if joined ≠ .ok then joined else status
  else status

/-- What `init_status()` returns once the thread has initialised. -/
def initStatus (macOS11 : Bool) (deviceName : List Char) (l : DeviceList) (realtime : Bool)
    (calls : JoinCalls) : AppleThreadingStatus :=
  initAppleThread macOS11 realtime calls (newWorker macOS11 deviceName l)

/-! ## What the search is for -/

def Device.Retrieves (d : Device) (name : List Char) : Prop :=
  d.nameSizeStatus = noErr ∧ d.nameSize = SIZEOF_CF_STRING_REF ∧ d.nameStatus = noErr ∧
    d.name ≠ none ∧ cfStringToStdString d.name = name

/-- The queries for the workgroup succeed with one that is not cancelled. -/
def Device.Provides (d : Device) (w : Option Workgroup) : Prop :=
  d.workgroupSizeStatus = noErr ∧ d.workgroupStatus = noErr ∧ d.cancelled = false ∧ d.workgroup = w

/-- The first device with the name, all of those before it having other names, provides the
workgroup. -/
def Provided (deviceName : List Char) (devices : List Device) (w : Option Workgroup) : Prop :=
  ∃ (i : Nat) (d : Device), devices[i]? = some d ∧
    (∀ j < i, ∀ e : Device, devices[j]? = some e → ∃ name, e.Retrieves name ∧ name ≠ deviceName) ∧
    d.Retrieves deviceName ∧ d.Provides w

def DeviceList.Lists (l : DeviceList) : Prop :=
  l.sizeStatus = noErr ∧ l.dataStatus = noErr ∧
    l.dataSize / SIZEOF_AUDIO_OBJECT_ID = l.size / SIZEOF_AUDIO_OBJECT_ID

/-- A query, and the status that its failure is reported by. -/
structure Query where
  succeeds : Bool
  failure : AppleThreadingStatus
  deriving DecidableEq, Repr

def Device.queries (deviceName : List Char) (d : Device) : List Query :=
  [⟨d.nameSizeStatus = noErr ∧ d.nameSize = SIZEOF_CF_STRING_REF, .fetchNameSizeFailed⟩,
    ⟨d.nameStatus = noErr ∧ d.name ≠ none, .fetchNameFailed⟩] ++
  if cfStringToStdString d.name = deviceName then
    [⟨d.workgroupSizeStatus = noErr, .wgSizeFailed⟩, ⟨d.workgroupStatus = noErr, .wgFailed⟩,
      ⟨d.cancelled = false, .wgCancelled⟩]
  else []

def DeviceList.queries (deviceName : List Char) (l : DeviceList) : List Query :=
  [⟨l.sizeStatus = noErr, .pdSizeFailed⟩, ⟨l.dataStatus = noErr, .pdFailed⟩,
    ⟨l.dataSize / SIZEOF_AUDIO_OBJECT_ID = l.size / SIZEOF_AUDIO_OBJECT_ID, .pdSizeFailed⟩] ++
  l.deviceIds.flatMap (Device.queries deviceName)

/-- The status of the first query that fails. -/
def firstFailure (queries : List Query) : AppleThreadingStatus :=
  match queries.find? fun q => q.succeeds = false with
  | some q => q.failure
  | none => .invalidDeviceNamePassed

/-! ## The loop over the devices -/

section Search

variable {deviceName name : List Char} {d : Device} {rest : List Device} {w : Option Workgroup}

theorem Device.retrieves_unique {name' : List Char} (h : d.Retrieves name) (h' : d.Retrieves name') :
    name = name' := h.2.2.2.2.symm.trans h'.2.2.2.2

theorem Device.name_cases (d : Device) :
    ¬ (d.nameSizeStatus = noErr ∧ d.nameSize = SIZEOF_CF_STRING_REF) ∨
    ((d.nameSizeStatus = noErr ∧ d.nameSize = SIZEOF_CF_STRING_REF) ∧
      ¬ (d.nameStatus = noErr ∧ d.name ≠ none)) ∨
    ∃ name, d.Retrieves name := by
  by_cases hsize : d.nameSizeStatus = noErr ∧ d.nameSize = SIZEOF_CF_STRING_REF
  · by_cases hname : d.nameStatus = noErr ∧ d.name ≠ none
    · exact .inr (.inr ⟨_, hsize.1, hsize.2, hname.1, hname.2, rfl⟩)
    · exact .inr (.inl ⟨hsize, hname⟩)
  · exact .inl hsize

theorem search_sizeFails (h : ¬ (d.nameSizeStatus = noErr ∧ d.nameSize = SIZEOF_CF_STRING_REF)) :
    searchDevices deviceName (d :: rest) = (none, .fetchNameSizeFailed) := by
  simp only [searchDevices]
  by_cases hstatus : d.nameSizeStatus = noErr
  · rw [if_neg (not_not.mpr hstatus), if_pos fun hsize => h ⟨hstatus, hsize⟩]
  · rw [if_pos hstatus]

theorem search_nameFails (h : d.nameSizeStatus = noErr ∧ d.nameSize = SIZEOF_CF_STRING_REF)
    (hname : ¬ (d.nameStatus = noErr ∧ d.name ≠ none)) :
    searchDevices deviceName (d :: rest) = (none, .fetchNameFailed) := by
  have hfails : d.nameStatus ≠ noErr ∨ d.name = none := by
    by_cases hstatus : d.nameStatus = noErr
    · exact .inr (not_not.mp fun hne => hname ⟨hstatus, hne⟩)
    · exact .inl hstatus
  simp only [searchDevices]
  rw [if_neg (not_not.mpr h.1), if_neg (not_not.mpr h.2), if_pos hfails]

theorem search_retrieves (h : d.Retrieves name) :
    searchDevices deviceName (d :: rest) =
      if name = deviceName then fetchWorkgroup d else searchDevices deviceName rest := by
  obtain ⟨hstatus, hsize, hname, href, rfl⟩ := h
  have hok : ¬ (d.nameStatus ≠ noErr ∨ d.name = none) := by simp [hname, href]
  simp only [searchDevices]
  rw [if_neg (not_not.mpr hstatus), if_neg (not_not.mpr hsize), if_neg hok]

theorem provided_cons : Provided deviceName (d :: rest) w ↔
    (d.Retrieves deviceName ∧ d.Provides w) ∨
      ((∃ name, d.Retrieves name ∧ name ≠ deviceName) ∧ Provided deviceName rest w) := by
  constructor
  · rintro ⟨i, e, hi, hbefore, he⟩
    cases i with
    | zero =>
      cases hi
      exact .inl he
    | succ i =>
      refine .inr ⟨hbefore 0 (Nat.succ_pos i) d rfl, i, e, hi, fun j hj e' he' => ?_, he⟩
      exact hbefore (j + 1) (Nat.succ_lt_succ hj) e' he'
  · rintro (he | ⟨hd, i, e, hi, hbefore, he⟩)
    · exact ⟨0, d, rfl, fun j hj => absurd hj (Nat.not_lt_zero j), he⟩
    · refine ⟨i + 1, e, hi, fun j hj e' he' => ?_, he⟩
      cases j with
      | zero =>
        cases he'
        exact hd
      | succ j => exact hbefore j (Nat.lt_of_succ_lt_succ hj) e' he'

@[simp] theorem firstFailure_succeeds (failure : AppleThreadingStatus) (queries : List Query) :
    firstFailure (⟨true, failure⟩ :: queries) = firstFailure queries := by
  simp [firstFailure]

@[simp] theorem firstFailure_fails (failure : AppleThreadingStatus) (queries : List Query) :
    firstFailure (⟨false, failure⟩ :: queries) = failure := by
  simp [firstFailure]

/-- The result is the workgroup that is provided, or the first failure. -/
def Outcome (queries : List Query) (provided : Option Workgroup → Prop)
    (result : Option Workgroup × AppleThreadingStatus) : Prop :=
  (result.2 = .ok ∧ ∀ w, provided w ↔ w = result.1) ∨
    (result.2 ≠ .ok ∧ (∀ w, ¬ provided w) ∧ result.2 = firstFailure queries ∧
      (result.2 ≠ .wgCancelled → result.1 = none))

theorem outcome_device (h : d.Retrieves deviceName) (queries : List Query) :
    Outcome (d.queries deviceName ++ queries) d.Provides (fetchWorkgroup d) := by
  obtain ⟨hstatus, hsize, hname, href, hmatch⟩ := h
  simp only [Outcome, Device.Provides, Device.queries, hstatus, hsize, hname, hmatch,
    fetchWorkgroup]
  by_cases hwgSize : d.workgroupSizeStatus = noErr
  · by_cases hwg : d.workgroupStatus = noErr
    · cases hcancelled : d.cancelled <;> simp [hwgSize, hwg, href, eq_comm]
    · simp [hwgSize, hwg, href]
  · simp [hwgSize, href]

theorem outcome_search (deviceName : List Char) (devices : List Device) :
    Outcome (devices.flatMap (Device.queries deviceName)) (Provided deviceName devices)
      (searchDevices deviceName devices) := by
  induction devices with
  | nil => exact .inr ⟨by simp [searchDevices], by simp [Provided], rfl, fun _ => rfl⟩
  | cons d rest ih =>
    rw [List.flatMap_cons]
    rcases d.name_cases with hsize | ⟨hsize, hname⟩ | ⟨name, hname⟩
    · rw [search_sizeFails hsize]
      refine .inr ⟨by simp, fun w hw => ?_, ?_, fun _ => rfl⟩
      · rcases provided_cons.mp hw with ⟨h, -⟩ | ⟨⟨_, h, -⟩, -⟩ <;> exact hsize ⟨h.1, h.2.1⟩
      · simp [Device.queries, hsize]
    · rw [search_nameFails hsize hname]
      refine .inr ⟨by simp, fun w hw => ?_, ?_, fun _ => rfl⟩
      · rcases provided_cons.mp hw with ⟨h, -⟩ | ⟨⟨_, h, -⟩, -⟩ <;>
          exact hname ⟨h.2.2.1, h.2.2.2.1⟩
      · simp [Device.queries, hsize, hname]
    · rw [search_retrieves hname]
      split
      · rename_i he
        subst he
        have hprovided : Provided name (d :: rest) = d.Provides := by
          funext w
          refine propext (provided_cons.trans ⟨?_, fun hw => .inl ⟨hname, hw⟩⟩)
          rintro (⟨-, hw⟩ | ⟨⟨name', hname', hne⟩, -⟩)
          · exact hw
          · exact absurd (Device.retrieves_unique hname' hname) hne
        rw [hprovided]
        exact outcome_device hname _
      · rename_i hne
        have hprovided : Provided deviceName (d :: rest) = Provided deviceName rest := by
          funext w
          refine propext (provided_cons.trans ⟨?_, fun hw => .inr ⟨⟨name, hname, hne⟩, hw⟩⟩)
          rintro (⟨hname', -⟩ | ⟨-, hw⟩)
          · exact absurd (Device.retrieves_unique hname hname') hne
          · exact hw
        obtain ⟨hstatus, hsize, hfetch, href, hmatch⟩ := hname
        have hqueries : ∀ queries, firstFailure (d.queries deviceName ++ queries) =
            firstFailure queries := by
          simp [Device.queries, hstatus, hsize, hfetch, href, hmatch, hne]
        simpa only [Outcome, hprovided, hqueries] using ih

/-- The result is the workgroup of the device that is searched for, or what went wrong first. -/
theorem outcome_list (deviceName : List Char) (l : DeviceList) :
    Outcome (l.queries deviceName) (fun w => l.Lists ∧ Provided deviceName l.deviceIds w)
      (getDeviceWorkgroup true deviceName l) := by
  have hsearch := outcome_search deviceName l.deviceIds
  by_cases hsize : l.sizeStatus = noErr
  · by_cases hdata : l.dataStatus = noErr
    · by_cases hcount : l.dataSize / SIZEOF_AUDIO_OBJECT_ID = l.size / SIZEOF_AUDIO_OBJECT_ID
      · simpa [Outcome, DeviceList.queries, DeviceList.Lists, getDeviceWorkgroup, hsize, hdata,
          hcount] using hsearch
      · exact .inr (by simp [DeviceList.queries, DeviceList.Lists, getDeviceWorkgroup, hsize, hdata,
          hcount])
    · exact .inr (by simp [DeviceList.queries, DeviceList.Lists, getDeviceWorkgroup, hsize, hdata])
  · exact .inr (by simp [DeviceList.queries, DeviceList.Lists, getDeviceWorkgroup, hsize])

end Search

/-! ## The status that is left -/

section Status

variable {deviceName : List Char} {l : DeviceList} {realtime : Bool} {calls : JoinCalls}

theorem newWorker_eq : newWorker true deviceName l = getDeviceWorkgroup true deviceName l := by
  simp only [newWorker, if_true]
  split
  · rfl
  · rename_i hok
    exact Prod.ext rfl (not_not.mp hok).symm

/-- A later step only replaces the status by a failure of its own. -/
theorem initAppleThread_ok {worker : Option Workgroup × AppleThreadingStatus} :
    initAppleThread true realtime calls worker = .ok ↔
      worker.2 = .ok ∧ realtime = true ∧ joinWorkgroup true worker.1 calls = .ok := by
  simp only [initAppleThread, if_true]
  by_cases hjoin : joinWorkgroup true worker.1 calls = .ok
  · cases realtime <;> simp [hjoin]
  · simp [hjoin]

theorem initStatus_ok : initStatus true deviceName l realtime calls = .ok ↔
    (getDeviceWorkgroup true deviceName l).2 = .ok ∧ realtime = true ∧
      joinWorkgroup true (getDeviceWorkgroup true deviceName l).1 calls = .ok := by
  rw [initStatus, initAppleThread_ok, newWorker_eq]

end Status

end Twine.AppleThreading
