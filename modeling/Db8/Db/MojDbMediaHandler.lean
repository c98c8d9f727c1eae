import Db8.Db.MojDbShardEngine

/-!
# Db.MojDbMediaHandler

The table of the attached devices, and the messages that change it.

* `handleDeviceListResponse` — a list is reconciled with the table: new devices are activated, those that are gone are
  deactivated.
* `handleRegister`           — a device that is ejected or formatted leaves the table, and is released.
* `MediaEvent`               — what is announced, processed and released, in order.
* `Obeys`, `Clear`           — what a message must do, and when the handler does it.
* `lawful_iff`               — a run is lawful just when each of its messages is clear.
-/

namespace Db8

open Lib

/-- The text that goes with a release. -/
inductive ReleaseReason where
  | empty
  | textOf (err : Option MojErr)
  deriving DecidableEq

/-- A device of a list, a call of `processShardInfo` with its error, and a release with `isUsing`. -/
inductive MediaEvent where
  | announced (deviceId : MojString)
  | processed (info : MojDbShardInfo) (err : Option MojErr)
  | release (deviceId : MojString) (reason : ReleaseReason) (isUsing : Bool)
  deriving DecidableEq

/-- The table, and all that has happened so far. -/
structure MojDbMediaHandler where
  shardCache : SortedMap MojString MojDbShardInfo
  events : List MediaEvent

namespace MojDbMediaHandler

/-- `devices`. -/
def DevicesKey : MojString := ⟨[100, 101, 118, 105, 99, 101, 115], by decide⟩
/-- `deviceType`. -/
def DeviceTypeKey : MojString := ⟨[100, 101, 118, 105, 99, 101, 84, 121, 112, 101], by decide⟩
/-- `deviceId`. -/
def DeviceIdKey : MojString := ⟨[100, 101, 118, 105, 99, 101, 73, 100], by decide⟩
/-- `subDevices`. -/
def SubDevicesKey : MojString := ⟨[115, 117, 98, 68, 101, 118, 105, 99, 101, 115], by decide⟩
/-- `deviceName`. -/
def DeviceNameKey : MojString := ⟨[100, 101, 118, 105, 99, 101, 78, 97, 109, 101], by decide⟩
/-- `deviceUri`. -/
def DeviceUriKey : MojString := ⟨[100, 101, 118, 105, 99, 101, 85, 114, 105], by decide⟩
/-- `status`. -/
def StatusKey : MojString := ⟨[115, 116, 97, 116, 117, 115], by decide⟩
/-- `usb`. -/
def usb : MojString := ⟨[117, 115, 98], by decide⟩
/-- `EJECTING`. -/
def ASMDeviceStatusEjecting : MojString := ⟨[69, 74, 69, 67, 84, 73, 78, 71], by decide⟩
/-- `FORMATTING`. -/
def ASMDeviceStatusFormatting : MojString := ⟨[70, 79, 82, 77, 65, 84, 84, 73, 78, 71], by decide⟩

/-! ## A list of devices -/

/-- The locals of `handleDeviceListResponse`; `shardIds` are the known devices that are not processed yet, and `events`
are those of this message. -/
structure Scan where
  shardCache : SortedMap MojString MojDbShardInfo
  shardIds : SortedSet MojString
  accErr : Option MojErr
  events : List MediaEvent

/-- The error, and what is done by then. -/
abbrev Scanned := Except (MojErr × Scan) Scan

/-- `MojErrAccumulate`. -/
def accumulate (acc err : Option MojErr) : Option MojErr := err.or acc

def convert (object : MojObject) : Except MojErr MojDbShardInfo := do
  let deviceId ← object.getRequiredString DeviceIdKey
  let deviceName ← object.getRequiredString DeviceNameKey
  let deviceUri ← object.getRequiredString DeviceUriKey
  pure ⟨0, false, false, 0, .empty, deviceId, deviceUri, .empty, deviceName, .empty, .empty, []⟩

/-- The elements of an array; what is no array has none. -/
def arrayOf : MojObject → List MojObject
  | .array vs => vs
  | _ => []

section List

variable (process : MojDbShardInfo → Option MojErr)

/-- A device that is not in the table is put into it and activated. -/
def announce (scan : Scan) (info : MojDbShardInfo) : Scan :=
  let scan := { scan with
    shardIds := scan.shardIds.del info.deviceId
    events := scan.events ++ [.announced info.deviceId] }
  if scan.shardCache.find info.deviceId = none then
    { scan with
      shardCache := scan.shardCache.insert info.deviceId info
      accErr := accumulate scan.accErr (process info)
      events := scan.events ++ [.processed info (process info)] }
  else scan

def scanSubDevice (parentDeviceId : MojString) (scan : Scan) (object : MojObject) : Scanned :=
  match convert object with
  | .error err => .error (err, scan)
  | .ok info =>
    if info.deviceId.isEmpty then .ok scan
    else .ok (announce process scan { info with parentDeviceId := parentDeviceId, active := true })

def scanSubDevices (parentDeviceId : MojString) : Scan → List MojObject → Scanned
  | scan, [] => .ok scan
  | scan, object :: objects =>
    match scanSubDevice process parentDeviceId scan object with
    | .error e => .error e
    | .ok scan => scanSubDevices parentDeviceId scan objects

/-- The id and the sub devices of a device; of one that is no USB medium there are none to look at. -/
def readDevice (object : MojObject) : Except MojErr (MojString × List MojObject) := do
  let deviceType ← object.getRequiredString DeviceTypeKey
  if deviceType ≠ usb then pure (.empty, [])
  else do
    let parentDeviceId ← object.getRequiredString DeviceIdKey
    let subDevices ← object.getRequired SubDevicesKey
    pure (parentDeviceId, arrayOf subDevices)

def scanDevices : Scan → List MojObject → Scanned
  | scan, [] => .ok scan
  | scan, object :: objects =>
    match readDevice object with
    | .error err => .error (err, scan)
    | .ok (parentDeviceId, subDevices) =>
      match scanSubDevices process parentDeviceId scan subDevices with
      | .error e => .error e
      | .ok scan => scanDevices scan objects

/-- A known device that is not in the list is deactivated and leaves the table, whether that fails or not. -/
def retire (scan : Scan) (id : MojString) : Scan :=
  match scan.shardCache.find id with
  | none => scan
  | some info =>
    let info := { info with active := false }
    { scan with
      shardCache := scan.shardCache.erase id
      accErr := accumulate scan.accErr (process info)
      events := scan.events ++ [.processed info (process info)] }

/-- The error that is returned, and the table and the events. -/
def reconcile (scan : Scan) (payload : MojObject) : Option MojErr × Scan :=
  match payload.getRequired DevicesKey with
  | .error err => (some err, scan)
  | .ok deviceList =>
    match scanDevices process scan (arrayOf deviceList) with
    | .error (err, scan) => (some err, scan)
    | .ok scan =>
      let scan := scan.shardIds.elems.foldl (retire process) scan
      (scan.accErr, scan)

end List

variable (s : MojDbMediaHandler)

/-- `copyShardCache` puts all known devices into the set. -/
def scan : Scan := ⟨s.shardCache, s.shardCache.keys, none, []⟩

def handleDeviceListResponse (payload : MojObject) (errCode : Option MojErr) (process : MojDbShardInfo → Option MojErr) :
    Option MojErr × MojDbMediaHandler :=
  match errCode with
  | some err => (some err, s)
  | none =>
    let (err, scan) := reconcile process s.scan payload
    (err, ⟨scan.shardCache, s.events ++ scan.events⟩)

/-! ## A status of a device -/

/-- The locals of `handleRegister`. -/
structure Eject where
  err : Option MojErr
  erase : List MojString
  events : List MediaEvent

/-- The entries of the device are deactivated, in the order of the table. `err` is that of the last one. -/
def ejectEntry (process : MojDbShardInfo → Option MojErr) (deviceId : MojString) (e : Eject)
    (ref : MojString × MojDbShardInfo) : Eject :=
  if ref.2.parentDeviceId = deviceId then
    let info := { ref.2 with active := false }
    ⟨process info, e.erase ++ [ref.1], e.events ++ [.processed info (process info)]⟩
  else e

/-- The text is that of the error of writing the name, which has not failed. -/
def sendRelease (deviceId : MojString) (errCode : Option MojErr) : MediaEvent :=
  .release deviceId (if errCode = none then .empty else .textOf none) errCode.isSome

/-- A payload without a device is ignored, and so is one without a status or with another status. -/
def ejectedDevice (payload : MojObject) : Option MojString :=
  match payload.get DeviceIdKey, payload.get StatusKey with
  | some deviceId, some status =>
    if status.stringValue = ASMDeviceStatusEjecting ∨ status.stringValue = ASMDeviceStatusFormatting then
      some deviceId.stringValue
    else none
  | _, _ => none

def handleRegister (payload : MojObject) (process : MojDbShardInfo → Option MojErr) : MojDbMediaHandler :=
  match ejectedDevice payload with
  | none => s
  | some deviceId =>
    let e := s.shardCache.entries.foldl (ejectEntry process deviceId) ⟨none, [], []⟩
    ⟨e.erase.foldl SortedMap.erase s.shardCache, s.events ++ e.events ++ [sendRelease deviceId e.err]⟩

/-- `process` says how each call of `processShardInfo` ends. -/
inductive Message where
  | deviceList (payload : MojObject) (errCode : Option MojErr) (process : MojDbShardInfo → Option MojErr)
  | deviceStatus (payload : MojObject) (process : MojDbShardInfo → Option MojErr)

def step : Message → MojDbMediaHandler
  | .deviceList payload errCode process => (s.handleDeviceListResponse payload errCode process).2
  | .deviceStatus payload process => s.handleRegister payload process

def start : MojDbMediaHandler := ⟨.empty, []⟩

/-! ## The devices of a list -/

/-- The sub devices that are read, and the error that ends the reading. -/
def subDevicesOf (parentDeviceId : MojString) : List MojObject → List MojDbShardInfo × Option MojErr
  | [] => ([], none)
  | object :: objects =>
    match convert object with
    | .error err => ([], some err)
    | .ok info =>
      let rest := subDevicesOf parentDeviceId objects
      if info.deviceId.isEmpty then rest
      else ({ info with parentDeviceId := parentDeviceId, active := true } :: rest.1, rest.2)

def devicesOf : List MojObject → List MojDbShardInfo × Option MojErr
  | [] => ([], none)
  | object :: objects =>
    match readDevice object with
    | .error err => ([], some err)
    | .ok (parentDeviceId, subDevices) =>
      let found := subDevicesOf parentDeviceId subDevices
      match found.2 with
      | some err => (found.1, some err)
      | none =>
        let rest := devicesOf objects
        (found.1 ++ rest.1, rest.2)

def listed (payload : MojObject) : List MojDbShardInfo × Option MojErr :=
  match payload.getRequired DevicesKey with
  | .error err => ([], some err)
  | .ok deviceList => devicesOf (arrayOf deviceList)

def ended (scan : Scan) : Option MojErr → Scanned
  | none => .ok scan
  | some err => .error (err, scan)

section Scan

variable (process : MojDbShardInfo → Option MojErr)

theorem scanSubDevices_eq (parentDeviceId : MojString) (scan : Scan) (objects : List MojObject) :
    scanSubDevices process parentDeviceId scan objects =
      ended ((subDevicesOf parentDeviceId objects).1.foldl (announce process) scan)
        (subDevicesOf parentDeviceId objects).2 := by
  induction objects generalizing scan with
  | nil => rfl
  | cons object objects ih =>
    rw [scanSubDevices, scanSubDevice, subDevicesOf]
    cases convert object with
    | error err => rfl
    | ok info =>
      dsimp only
      split_ifs
      · exact ih scan
      · exact ih _

theorem scanDevices_eq (scan : Scan) (objects : List MojObject) :
    scanDevices process scan objects =
      ended ((devicesOf objects).1.foldl (announce process) scan) (devicesOf objects).2 := by
  induction objects generalizing scan with
  | nil => rfl
  | cons object objects ih =>
    rw [scanDevices, devicesOf]
    cases readDevice object with
    | error err => rfl
    | ok r =>
      obtain ⟨parentDeviceId, subDevices⟩ := r
      dsimp only
      rw [scanSubDevices_eq]
      cases (subDevicesOf parentDeviceId subDevices).2 with
      | some err => rfl
      | none =>
        dsimp only [ended]
        rw [ih, List.foldl_append]
        rfl

/-- All that the list has announced, and then, if it was read to its end, all that is gone. -/
theorem reconcile_eq (scan : Scan) (payload : MojObject) :
    (reconcile process scan payload).2 =
      let scan := (listed payload).1.foldl (announce process) scan
      match (listed payload).2 with
      | some _ => scan
      | none => scan.shardIds.elems.foldl (retire process) scan := by
  unfold reconcile listed
  cases payload.getRequired DevicesKey with
  | error err => rfl
  | ok deviceList =>
    dsimp only
    rw [scanDevices_eq]
    cases (devicesOf (arrayOf deviceList)).2 with
    | some err => rfl
    | none => rfl

end Scan

/-! ## What happened to a device -/

/-- The device has been announced, and has not been reported inactive since. -/
def activeSince (d : MojString) (events : List MediaEvent) : Bool :=
  events.foldl (fun on e =>
    match e with
    | .announced deviceId => on || deviceId = d
    | .processed info _ => on && (info.active || info.deviceId ≠ d)
    | .release _ _ _ => on) false

/-- The last activation of the device has failed. -/
def activationFailed (d : MojString) (events : List MediaEvent) : Bool :=
  events.foldl (fun failed e =>
    match e with
    | .processed info err => if info.active && info.deviceId = d then err.isSome else failed
    | _ => failed) false

def activates (d : MojString) : MediaEvent → Bool
  | .processed info _ => info.active && info.deviceId = d
  | _ => false

def reportsInactive (d : MojString) : MediaEvent → Bool
  | .processed info _ => !info.active && info.deviceId = d
  | _ => false

def fails : MediaEvent → Bool
  | .processed _ err => err.isSome
  | _ => false

/-- The report that a device is no longer active. -/
def retirement (process : MojDbShardInfo → Option MojErr) (info : MojDbShardInfo) : MediaEvent :=
  .processed { info with active := false } (process { info with active := false })

theorem activeSince_announced (d deviceId : MojString) (events : List MediaEvent) :
    activeSince d (events ++ [.announced deviceId]) = (activeSince d events || deviceId = d) := by
  unfold activeSince
  rw [List.foldl_append]
  rfl

theorem activeSince_processed (d : MojString) (info : MojDbShardInfo) (err : Option MojErr) (events : List MediaEvent) :
    activeSince d (events ++ [.processed info err]) =
      (activeSince d events && (info.active || decide (info.deviceId ≠ d))) := by
  unfold activeSince
  rw [List.foldl_append]
  rfl

theorem activeSince_release (d deviceId : MojString) (reason : ReleaseReason) (isUsing : Bool)
    (events : List MediaEvent) :
    activeSince d (events ++ [.release deviceId reason isUsing]) = activeSince d events := by
  unfold activeSince
  rw [List.foldl_append]
  rfl

theorem activeSince_retired (process : MojDbShardInfo → Option MojErr) (d : MojString) (infos : List MojDbShardInfo)
    (events : List MediaEvent) :
    activeSince d (events ++ infos.map (retirement process)) = true ↔
      activeSince d events = true ∧ d ∉ infos.map (·.deviceId) := by
  induction infos using List.reverseRecOn with
  | nil => simp
  | append_singleton infos info ih =>
    rw [List.map_append, List.map_singleton, ← List.append_assoc, retirement, activeSince_processed, Bool.and_eq_true, ih,
      List.map_append, List.map_singleton, List.mem_append, List.mem_singleton]
    dsimp only
    rw [Bool.false_or, decide_eq_true_eq, not_or, and_assoc, ne_eq, @eq_comm _ d]

/-- The table has just the devices that are active. -/
structure Tracks (cache : SortedMap MojString MojDbShardInfo) (events : List MediaEvent) : Prop where
  keyed : ∀ id info, cache.find id = some info → info.deviceId = id
  table : ∀ d, cache.find d ≠ none ↔ activeSince d events = true

/-- What the announcements of a list leave. -/
structure Announced (s : MojDbMediaHandler) (infos : List MojDbShardInfo) (scan : Scan) : Prop where
  tracks : Tracks scan.shardCache (s.events ++ scan.events)
  known : ∀ d, scan.shardCache.find d ≠ none ↔ s.shardCache.find d ≠ none ∨ d ∈ infos.map (·.deviceId)
  remaining : ∀ d, d ∈ scan.shardIds ↔ s.shardCache.find d ≠ none ∧ d ∉ infos.map (·.deviceId)
  announced : ∀ d, .announced d ∈ scan.events ↔ d ∈ infos.map (·.deviceId)
  activated : ∀ d, scan.events.any (activates d) = true ↔ s.shardCache.find d = none ∧ d ∈ infos.map (·.deviceId)
  none_retired : ∀ e ∈ scan.events, ∀ d, reportsInactive d e = false
  none_released : ∀ deviceId reason isUsing, .release deviceId reason isUsing ∉ scan.events

section Announce

variable {s : MojDbMediaHandler} (process : MojDbShardInfo → Option MojErr)

theorem announced_start (h : Tracks s.shardCache s.events) : Announced s [] s.scan where
  tracks := by rw [scan, List.append_nil]; exact h
  known d := by simp [scan]
  remaining d := by
    rw [scan, SortedMap.mem_keys]
    simp
  announced d := by simp [scan]
  activated d := by simp [scan]
  none_retired := List.forall_mem_nil _
  none_released _ _ _ := List.not_mem_nil

theorem announced_snoc {infos : List MojDbShardInfo} {scan : Scan} (h : Announced s infos scan) {info : MojDbShardInfo}
    (hactive : info.active = true) : Announced s (infos ++ [info]) (announce process scan info) := by
  have hid : ∀ d, d ∈ (infos ++ [info]).map (·.deviceId) ↔ d ∈ infos.map (·.deviceId) ∨ d = info.deviceId := by
    intro d
    rw [List.map_append, List.mem_append, List.map_singleton, List.mem_singleton]
  unfold announce
  dsimp only
  split_ifs with hnew
  · -- a new device: it is put and activated
    have hnot := (not_congr (h.known info.deviceId)).mp (not_not.mpr hnew)
    rw [not_or, not_not] at hnot
    have hfind : ∀ d, (scan.shardCache.insert info.deviceId info).find d ≠ none ↔
        scan.shardCache.find d ≠ none ∨ d = info.deviceId := by
      intro d
      rw [SortedMap.find_insert]
      split_ifs with hd
      · simp [hd]
      · simp [hd]
    refine ⟨⟨fun id i hi => ?_, fun d => ?_⟩, fun d => ?_, fun d => ?_, fun d => ?_, fun d => ?_, fun e he d => ?_,
      fun deviceId reason isUsing hr => ?_⟩
    · rw [SortedMap.find_insert] at hi
      split_ifs at hi with hd
      · rw [← Option.some.inj hi, hd]
      · exact h.tracks.keyed id i hi
    · rw [hfind, h.tracks.table, ← List.append_assoc, ← List.append_assoc, activeSince_processed, activeSince_announced,
        hactive, Bool.true_or, Bool.and_true, Bool.or_eq_true, decide_eq_true_eq, @eq_comm _ d]
    · rw [hfind, h.known, hid, or_assoc]
    · rw [SortedSet.mem_del, h.remaining, hid, not_or, and_assoc]
    · simp [h.announced]
    · rw [List.any_append, List.any_append, Bool.or_eq_true, Bool.or_eq_true, h.activated, hid]
      simp only [List.any_cons, List.any_nil, activates, hactive, Bool.true_and, Bool.or_false, decide_eq_true_eq,
        Bool.false_eq_true, or_false]
      constructor
      · intro hor
        cases hor with
        | inl hold => exact ⟨hold.1, .inl hold.2⟩
        | inr hself => exact ⟨hself ▸ hnot.1, .inr hself.symm⟩
      · intro hand
        cases hand.2 with
        | inl hmem => exact .inl ⟨hand.1, hmem⟩
        | inr he => exact .inr he.symm
    · simp only [List.mem_append, List.mem_singleton] at he
      obtain (hold | rfl) | rfl := he
      · exact h.none_retired e hold d
      · rfl
      · simp [reportsInactive, hactive]
    · simp only [List.mem_append, List.mem_singleton] at hr
      obtain (hold | hcase) | hcase := hr
      · exact h.none_released _ _ _ hold
      · cases hcase
      · cases hcase
  · -- a known one stays as it is
    have hfind : scan.shardCache.find info.deviceId ≠ none := hnew
    refine ⟨⟨h.tracks.keyed, fun d => ?_⟩, fun d => ?_, fun d => ?_, fun d => ?_, fun d => ?_, fun e he d => ?_,
      fun deviceId reason isUsing hr => ?_⟩
    · rw [← List.append_assoc, activeSince_announced, Bool.or_eq_true, ← h.tracks.table, decide_eq_true_eq]
      exact ⟨.inl, fun hor => hor.elim id fun he => he ▸ hfind⟩
    · rw [h.known, hid, ← or_assoc, ← h.known]
      exact ⟨.inl, fun hor => hor.elim id fun he => he ▸ hfind⟩
    · rw [SortedSet.mem_del, h.remaining, hid, not_or, and_assoc]
    · simp [h.announced]
    · rw [List.any_append, Bool.or_eq_true, h.activated, hid]
      simp only [List.any_cons, List.any_nil, activates, Bool.or_false, Bool.false_eq_true, or_false]
      constructor
      · exact fun hand => ⟨hand.1, .inl hand.2⟩
      · intro hand
        refine ⟨hand.1, hand.2.elim id fun he => ?_⟩
        -- the device is in the table, but was not before: it has been announced
        exact he ▸ (((h.known info.deviceId).mp hfind).resolve_left fun hs => hs (he ▸ hand.1))
    · simp only [List.mem_append, List.mem_singleton] at he
      obtain hold | rfl := he
      · exact h.none_retired e hold d
      · rfl
    · simp only [List.mem_append, List.mem_singleton] at hr
      obtain hold | hcase := hr
      · exact h.none_released _ _ _ hold
      · cases hcase

theorem announced_foldl (h : Tracks s.shardCache s.events) {infos : List MojDbShardInfo}
    (hactive : ∀ info ∈ infos, info.active = true) : Announced s infos (infos.foldl (announce process) s.scan) := by
  induction infos using List.reverseRecOn with
  | nil => exact announced_start h
  | append_singleton infos info ih =>
    rw [List.foldl_append, List.foldl_cons, List.foldl_nil]
    exact announced_snoc process (ih fun i hi => hactive i (List.mem_append_left _ hi)) (hactive info (by simp))

end Announce

theorem active_subDevicesOf (parentDeviceId : MojString) (objects : List MojObject) :
    ∀ info ∈ (subDevicesOf parentDeviceId objects).1, info.active = true := by
  induction objects with
  | nil => exact List.forall_mem_nil _
  | cons object objects ih =>
    rw [subDevicesOf]
    cases convert object with
    | error err => exact List.forall_mem_nil _
    | ok info =>
      dsimp only
      split_ifs
      · exact ih
      · exact List.forall_mem_cons.mpr ⟨rfl, ih⟩

theorem active_devicesOf (objects : List MojObject) : ∀ info ∈ (devicesOf objects).1, info.active = true := by
  induction objects with
  | nil => exact List.forall_mem_nil _
  | cons object objects ih =>
    rw [devicesOf]
    cases readDevice object with
    | error err => exact List.forall_mem_nil _
    | ok r =>
      dsimp only
      have hsub := active_subDevicesOf r.1 r.2
      cases (subDevicesOf r.1 r.2).2 with
      | some err => exact hsub
      | none => exact List.forall_mem_append.mpr ⟨hsub, ih⟩

theorem active_listed (payload : MojObject) : ∀ info ∈ (listed payload).1, info.active = true := by
  unfold listed
  cases payload.getRequired DevicesKey with
  | error err => exact List.forall_mem_nil _
  | ok deviceList => exact active_devicesOf _

/-! ## Devices that leave the table -/

section Retire

variable (process : MojDbShardInfo → Option MojErr)

theorem countP_retired {infos : List MojDbShardInfo} (h : (infos.map (·.deviceId)).Nodup) (d : MojString) :
    (infos.map (retirement process)).countP (reportsInactive d) = if d ∈ infos.map (·.deviceId) then 1 else 0 := by
  rw [← h.count, List.countP_map, List.count, List.countP_map]
  rfl

/-- Known devices are deactivated one after the other. -/
theorem retire_foldl (scan : Scan) {ids : List MojString} (hnodup : ids.Nodup)
    (hkeyed : ∀ id info, scan.shardCache.find id = some info → info.deviceId = id)
    (hknown : ∀ id ∈ ids, scan.shardCache.find id ≠ none) :
    ∃ infos : List MojDbShardInfo, infos.map (·.deviceId) = ids ∧
      (ids.foldl (retire process) scan).events = scan.events ++ infos.map (retirement process) ∧
      ∀ d, (ids.foldl (retire process) scan).shardCache.find d = if d ∈ ids then none else scan.shardCache.find d := by
  induction ids generalizing scan with
  | nil => exact ⟨[], rfl, (List.append_nil _).symm, fun d => (if_neg List.not_mem_nil).symm⟩
  | cons id ids ih =>
    obtain ⟨hnot, hrest⟩ := List.nodup_cons.mp hnodup
    obtain ⟨info, hinfo⟩ := Option.ne_none_iff_exists'.mp (hknown id List.mem_cons_self)
    have hretire : retire process scan id =
        { scan with
          shardCache := scan.shardCache.erase id
          accErr := accumulate scan.accErr (process { info with active := false })
          events := scan.events ++ [retirement process info] } := by
      unfold retire
      rw [hinfo]
      rfl
    have hfind : ∀ j, (retire process scan id).shardCache.find j = if j = id then none else scan.shardCache.find j := by
      intro j
      rw [hretire]
      by_cases hj : j = id
      · simp [hj]
      · simp [hj]
    obtain ⟨infos, hids, hevents, hcache⟩ := ih (retire process scan id) hrest
      (fun j i hi => by
        rw [hfind] at hi
        split_ifs at hi with hj
        exact hkeyed j i hi)
      (fun j hj => by
        rw [hfind, if_neg fun he : j = id => hnot (he ▸ hj)]
        exact hknown j (List.mem_cons_of_mem id hj))
    refine ⟨info :: infos, ?_, ?_, fun d => ?_⟩
    · rw [List.map_cons, hids, hkeyed id info hinfo]
    · rw [List.foldl_cons, hevents, hretire, List.map_cons, List.append_assoc]
      rfl
    · rw [List.foldl_cons, hcache, hfind]
      by_cases hd : d = id
      · simp [hd]
      · simp [hd]

/-- The error of the last of the devices. -/
def lastErr (infos : List MojDbShardInfo) : Option MojErr :=
  infos.getLast?.bind fun info => process { info with active := false }

theorem ejectEntry_foldl (deviceId : MojString) (entries : List (MojString × MojDbShardInfo)) :
    entries.foldl (ejectEntry process deviceId) ⟨none, [], []⟩ =
      let matched := entries.filter fun ref => ref.2.parentDeviceId = deviceId
      ⟨lastErr process (matched.map Prod.snd), matched.map Prod.fst, (matched.map Prod.snd).map (retirement process)⟩ := by
  induction entries using List.reverseRecOn with
  | nil => rfl
  | append_singleton entries ref ih =>
    rw [List.foldl_append, List.foldl_cons, List.foldl_nil, ih, List.filter_append, ejectEntry]
    split_ifs with hparent
    · rw [List.filter_cons_of_pos (by simpa using hparent), List.filter_nil]
      simp [lastErr, retirement]
    · rw [List.filter_cons_of_neg (by simpa using hparent), List.filter_nil, List.append_nil]

theorem find_foldl_erase (ids : List MojString) (cache : SortedMap MojString MojDbShardInfo) (d : MojString) :
    (ids.foldl SortedMap.erase cache).find d = if d ∈ ids then none else cache.find d := by
  induction ids generalizing cache with
  | nil => exact (if_neg List.not_mem_nil).symm
  | cons id ids ih =>
    rw [List.foldl_cons, ih, SortedMap.find_erase]
    by_cases hd : d = id
    · simp [hd]
    · simp [hd]

end Retire

/-! ## What a message must do -/

/-- The events of one message. -/
def newEvents (s : MojDbMediaHandler) (m : Message) : List MediaEvent := (s.step m).events.drop s.events.length

/-- The shards of a device, in the order of the table. -/
def shardsOf (s : MojDbMediaHandler) (deviceId : MojString) : List MojDbShardInfo :=
  (s.shardCache.entries.filter fun ref => ref.2.parentDeviceId = deviceId).map Prod.snd

/-- The table has the devices that are active; a device that a list no longer has is reported inactive once, and no other
is; a device whose activation failed is activated again when it is announced the next time; and a release says that the
device is in use just when a deactivation failed. -/
structure Obeys (s : MojDbMediaHandler) (m : Message) : Prop where
  table : ∀ d, (s.step m).shardCache.find d ≠ none ↔ activeSince d (s.step m).events = true
  reported : ∀ payload process infos, m = .deviceList payload none process → listed payload = (infos, none) →
    ∀ d, (s.newEvents m).countP (reportsInactive d) =
      if s.shardCache.find d ≠ none ∧ d ∉ infos.map (·.deviceId) then 1 else 0
  retried : ∀ d, .announced d ∈ s.newEvents m → activationFailed d s.events = true →
    (s.newEvents m).any (activates d) = true
  released : ∀ deviceId reason isUsing, .release deviceId reason isUsing ∈ s.newEvents m →
    (isUsing = true ↔ (s.newEvents m).any fails = true)

/-- No device of the list is in the table with a failed activation, and if a shard of an ejected device cannot be
deactivated, then the last one cannot. -/
def Clear (s : MojDbMediaHandler) : Message → Prop
  | .deviceList payload errCode _ => errCode = none → ∀ info ∈ (listed payload).1,
      s.shardCache.find info.deviceId ≠ none → activationFailed info.deviceId s.events = false
  | .deviceStatus payload process => ∀ deviceId, ejectedDevice payload = some deviceId →
      (∃ info ∈ s.shardsOf deviceId, process { info with active := false } ≠ none) →
        lastErr process (s.shardsOf deviceId) ≠ none

section Step

variable {s : MojDbMediaHandler}

theorem step_listed (payload : MojObject) (process : MojDbShardInfo → Option MojErr) :
    s.step (.deviceList payload none process) =
      ⟨(reconcile process s.scan payload).2.shardCache, s.events ++ (reconcile process s.scan payload).2.events⟩ := rfl

theorem newEvents_listed (payload : MojObject) (process : MojDbShardInfo → Option MojErr) :
    s.newEvents (.deviceList payload none process) = (reconcile process s.scan payload).2.events := by
  rw [newEvents, step_listed]
  exact List.drop_left

/-- **A list.** The announcements, and behind them the reports of what is gone. -/
theorem reconcile_spec (h : Tracks s.shardCache s.events) (payload : MojObject)
    (process : MojDbShardInfo → Option MojErr) :
    ∃ (scan : Scan) (infos : List MojDbShardInfo), Announced s (listed payload).1 scan ∧
      (reconcile process s.scan payload).2.events = scan.events ++ infos.map (retirement process) ∧
      (∀ d, (reconcile process s.scan payload).2.shardCache.find d =
        if d ∈ infos.map (·.deviceId) then none else scan.shardCache.find d) ∧
      (infos.map (·.deviceId)).Nodup ∧
      ((listed payload).2 = none → ∀ d, d ∈ infos.map (·.deviceId) ↔
        s.shardCache.find d ≠ none ∧ d ∉ (listed payload).1.map (·.deviceId)) := by
  have hann := announced_foldl process h (active_listed payload)
  refine ⟨(listed payload).1.foldl (announce process) s.scan, ?_⟩
  rw [reconcile_eq]
  dsimp only
  cases hend : (listed payload).2 with
  | some err =>
    exact ⟨[], hann, (List.append_nil _).symm, fun d => (if_neg List.not_mem_nil).symm, List.nodup_nil, nofun⟩
  | none =>
    dsimp only
    have hmem : ∀ d, d ∈ ((listed payload).1.foldl (announce process) s.scan).shardIds.elems ↔ _ := hann.remaining
    obtain ⟨infos, hids, hevents, hcache⟩ := retire_foldl process
      ((listed payload).1.foldl (announce process) s.scan) (SortedSet.sorted _).nodup hann.tracks.keyed
      (fun id hid => (hann.known id).mpr (.inl ((hmem id).mp hid).1))
    refine ⟨infos, hann, hevents, fun d => ?_, ?_, fun _ d => ?_⟩
    · rw [hcache, hids]
    · rw [hids]
      exact (SortedSet.sorted _).nodup
    · rw [hids]
      exact hmem d

theorem tracks_listed (h : Tracks s.shardCache s.events) (payload : MojObject) (process : MojDbShardInfo → Option MojErr) :
    Tracks (s.step (.deviceList payload none process)).shardCache (s.step (.deviceList payload none process)).events := by
  obtain ⟨scan, infos, hann, hevents, hcache, -, -⟩ := reconcile_spec h payload process
  rw [step_listed]
  refine ⟨fun id info hi => ?_, fun d => ?_⟩
  · dsimp only at hi
    rw [hcache] at hi
    split_ifs at hi with hid
    exact hann.tracks.keyed id info hi
  · dsimp only
    rw [hcache, hevents, ← List.append_assoc, activeSince_retired, ← hann.tracks.table]
    split_ifs with hd
    · simp [hd]
    · simp [hd]

/-- Each message to a list's handler does what it must just when it is clear. -/
theorem obeys_listed_iff (h : Tracks s.shardCache s.events) (payload : MojObject)
    (process : MojDbShardInfo → Option MojErr) :
    s.Obeys (.deviceList payload none process) ↔ s.Clear (.deviceList payload none process) := by
  obtain ⟨scan, infos, hann, hevents, -, hnodup, hgone⟩ := reconcile_spec h payload process
  have hnew : s.newEvents (.deviceList payload none process) = scan.events ++ infos.map (retirement process) := by
    rw [newEvents_listed, hevents]
  have hannounced : ∀ d, .announced d ∈ s.newEvents (.deviceList payload none process) ↔
      d ∈ (listed payload).1.map (·.deviceId) := by
    intro d
    rw [hnew, List.mem_append, hann.announced]
    exact or_iff_left fun hmem => by simp [retirement] at hmem
  have hactivated : ∀ d, (s.newEvents (.deviceList payload none process)).any (activates d) = true ↔
      s.shardCache.find d = none ∧ d ∈ (listed payload).1.map (·.deviceId) := by
    intro d
    rw [hnew, List.any_append, Bool.or_eq_true, hann.activated]
    exact or_iff_left fun hany => by simp [retirement, activates] at hany
  constructor
  · intro hobeys _ info hinfo hknown
    have hmem : info.deviceId ∈ (listed payload).1.map (·.deviceId) := List.mem_map_of_mem hinfo
    refine Bool.eq_false_of_not_eq_true fun hfailed => hknown ?_
    exact ((hactivated _).mp (hobeys.retried _ ((hannounced _).mpr hmem) hfailed)).1
  · intro hclear
    refine ⟨(tracks_listed h payload process).table, ?_, fun d hd hfailed => ?_, fun deviceId reason isUsing hr => ?_⟩
    · intro payload' process' infos' hm hread d
      obtain ⟨rfl, -, rfl⟩ := Message.deviceList.inj hm
      have hgone := hgone (by rw [hread]) d
      have hnone : scan.events.countP (reportsInactive d) = 0 :=
        List.countP_eq_zero.mpr fun e he => by rw [hann.none_retired e he d]; exact Bool.false_ne_true
      rw [hnew, List.countP_append, hnone, Nat.zero_add, countP_retired process hnodup, hread] at *
      simp only [hgone]
    · rw [hannounced] at hd
      refine (hactivated d).mpr ⟨?_, hd⟩
      obtain ⟨info, hinfo, rfl⟩ := List.mem_map.mp hd
      refine not_not.mp fun hknown => ?_
      rw [hclear rfl info hinfo hknown] at hfailed
      cases hfailed
    · rw [hnew, List.mem_append] at hr
      cases hr with
      | inl hold => exact absurd hold (hann.none_released _ _ _)
      | inr hmem => simp [retirement] at hmem

theorem newEvents_of_same {m : Message} (h : s.step m = s) : s.newEvents m = [] := by
  rw [newEvents, h]
  exact List.drop_length

theorem obeys_of_same (h : Tracks s.shardCache s.events) {m : Message} (hsame : s.step m = s)
    (hlist : ∀ payload process, m ≠ .deviceList payload none process) : s.Obeys m := by
  have hnew := newEvents_of_same hsame
  refine ⟨?_, fun payload process infos hm => absurd hm (hlist payload process), fun d hd => ?_,
    fun deviceId reason isUsing hr => ?_⟩
  · rw [hsame]
    exact h.table
  · rw [hnew] at hd
    cases hd
  · rw [hnew] at hr
    cases hr

/-! ### A status -/

theorem step_ejected {payload : MojObject} {process : MojDbShardInfo → Option MojErr} {deviceId : MojString}
    (hdevice : ejectedDevice payload = some deviceId) :
    s.step (.deviceStatus payload process) =
      ⟨((s.shardCache.entries.filter fun ref => ref.2.parentDeviceId = deviceId).map Prod.fst).foldl SortedMap.erase
          s.shardCache,
        s.events ++ (s.shardsOf deviceId).map (retirement process) ++
          [sendRelease deviceId (lastErr process (s.shardsOf deviceId))]⟩ := by
  unfold step handleRegister
  dsimp only
  rw [hdevice]
  dsimp only
  rw [ejectEntry_foldl]
  rfl

theorem map_deviceId_shardsOf (h : Tracks s.shardCache s.events) (deviceId : MojString) :
    (s.shardsOf deviceId).map (·.deviceId) =
      (s.shardCache.entries.filter fun ref => ref.2.parentDeviceId = deviceId).map Prod.fst := by
  unfold shardsOf
  rw [List.map_map]
  refine List.map_congr_left fun ref href => ?_
  exact h.keyed ref.1 ref.2 (SortedMap.mem_entries.mp (List.mem_of_mem_filter href))

theorem tracks_ejected (h : Tracks s.shardCache s.events) {payload : MojObject}
    {process : MojDbShardInfo → Option MojErr} {deviceId : MojString} (hdevice : ejectedDevice payload = some deviceId) :
    Tracks (s.step (.deviceStatus payload process)).shardCache (s.step (.deviceStatus payload process)).events := by
  rw [step_ejected hdevice, ← map_deviceId_shardsOf h]
  refine ⟨fun id info hi => ?_, fun d => ?_⟩
  · dsimp only at hi
    rw [find_foldl_erase] at hi
    split_ifs at hi
    exact h.keyed id info hi
  · dsimp only [sendRelease]
    rw [find_foldl_erase, activeSince_release, activeSince_retired, ← h.table]
    split_ifs with hd
    · simp [hd]
    · simp [hd]

theorem any_fails_retired (process : MojDbShardInfo → Option MojErr) (infos : List MojDbShardInfo) :
    (infos.map (retirement process)).any fails = true ↔ ∃ info ∈ infos, process { info with active := false } ≠ none := by
  rw [List.any_map, List.any_eq_true]
  refine exists_congr fun info => and_congr_right fun _ => ?_
  exact Option.isSome_iff_ne_none

theorem lastErr_fails {process : MojDbShardInfo → Option MojErr} {infos : List MojDbShardInfo}
    (h : lastErr process infos ≠ none) : ∃ info ∈ infos, process { info with active := false } ≠ none := by
  unfold lastErr at h
  cases hlast : infos.getLast? with
  | none =>
    rw [hlast] at h
    exact absurd rfl h
  | some info =>
    rw [hlast] at h
    exact ⟨info, List.mem_of_mem_getLast? hlast, h⟩

theorem obeys_ejected_iff (h : Tracks s.shardCache s.events) {payload : MojObject}
    {process : MojDbShardInfo → Option MojErr} {deviceId : MojString} (hdevice : ejectedDevice payload = some deviceId) :
    s.Obeys (.deviceStatus payload process) ↔ s.Clear (.deviceStatus payload process) := by
  have hnew : s.newEvents (.deviceStatus payload process) = (s.shardsOf deviceId).map (retirement process) ++
      [sendRelease deviceId (lastErr process (s.shardsOf deviceId))] := by
    rw [newEvents, step_ejected hdevice, List.append_assoc]
    exact List.drop_left
  have hfails : (s.newEvents (.deviceStatus payload process)).any fails = true ↔
      ∃ info ∈ s.shardsOf deviceId, process { info with active := false } ≠ none := by
    rw [hnew, List.any_append, Bool.or_eq_true, any_fails_retired]
    exact or_iff_left fun hany => by simp [sendRelease, fails] at hany
  constructor
  · intro hobeys other hother hexists
    obtain rfl := Option.some.inj (hother.symm.trans hdevice)
    have hrelease := hobeys.released other _ _ (by rw [hnew, sendRelease]; exact List.mem_append_right _ List.mem_cons_self)
    exact Option.isSome_iff_ne_none.mp (hrelease.mpr (hfails.mpr hexists))
  · intro hclear
    refine ⟨(tracks_ejected h hdevice).table, fun payload process infos hm => Message.noConfusion hm, fun d hd => ?_,
      fun id reason isUsing hr => ?_⟩
    · rw [hnew] at hd
      simp [retirement, sendRelease] at hd
    · rw [hfails]
      rw [hnew, List.mem_append, List.mem_singleton] at hr
      obtain hmem | heq := hr
      · simp [retirement] at hmem
      · rw [(MediaEvent.release.inj heq).2.2, Option.isSome_iff_ne_none]
        exact ⟨lastErr_fails, hclear deviceId hdevice⟩

theorem step_ignored {payload : MojObject} {process : MojDbShardInfo → Option MojErr}
    (hdevice : ejectedDevice payload = none) : s.step (.deviceStatus payload process) = s := by
  unfold step handleRegister
  dsimp only
  rw [hdevice]

/-! ### Runs -/

theorem tracks_step (s : MojDbMediaHandler) (m : Message) (h : Tracks s.shardCache s.events) :
    Tracks (s.step m).shardCache (s.step m).events := by
  cases m with
  | deviceList payload errCode process =>
    cases errCode with
    | none => exact tracks_listed h payload process
    | some err => exact h
  | deviceStatus payload process =>
    cases hdevice : ejectedDevice payload with
    | none => exact (step_ignored hdevice).symm ▸ h
    | some deviceId => exact tracks_ejected h hdevice

theorem tracks_run (msgs : List Message) :
    Tracks (run step start msgs).shardCache (run step start msgs).events := by
  have hstart : Tracks start.shardCache start.events := ⟨fun id info => nofun, fun d => ⟨fun hd => absurd rfl hd, nofun⟩⟩
  exact Along.invariant (fun s => Tracks s.shardCache s.events) (fun s m h _ => tracks_step s m h) hstart
    (Along.of_forall (C := fun _ _ => True) (fun _ _ => trivial) start msgs)

theorem obeys_iff (h : Tracks s.shardCache s.events) (m : Message) : s.Obeys m ↔ s.Clear m := by
  cases m with
  | deviceList payload errCode process =>
    cases errCode with
    | none => exact obeys_listed_iff h payload process
    | some err => exact iff_of_true (obeys_of_same h rfl fun p q => by simp) nofun
  | deviceStatus payload process =>
    cases hdevice : ejectedDevice payload with
    | none =>
      refine iff_of_true (obeys_of_same h (step_ignored hdevice) fun p q => Message.noConfusion) fun id hid => ?_
      rw [hdevice] at hid
      cases hid
    | some deviceId => exact obeys_ejected_iff h hdevice

end Step

/-- Each message of the run does what it must. -/
def Lawful (msgs : List Message) : Prop := ∀ pre m, pre ++ [m] <+: msgs → (run step start pre).Obeys m

/-- **The device table.** A run is lawful just when each of its messages is clear in the state before it. -/
theorem lawful_iff (msgs : List Message) : Lawful msgs ↔ Along step Clear start msgs := by
  constructor
  · intro h
    refine Along.of_forall_step fun pre m hpre => ?_
    exact (obeys_iff (tracks_run pre) m).mp (h pre m hpre)
  · intro h pre m hpre
    exact (obeys_iff (tracks_run pre) m).mpr (h.of_isPrefix hpre).last

/-- `s1`. -/
def shard1 : MojString := ⟨[115, 49], by decide⟩
/-- `s2`. -/
def shard2 : MojString := ⟨[115, 50], by decide⟩

def subDevice (id : MojString) : MojObject :=
  .object [(DeviceIdKey, .string id), (DeviceNameKey, .string id), (DeviceUriKey, .string id)]

/-- One medium with two shards. -/
def twoShardList : MojObject :=
  .object [(DevicesKey, .array [.object [(DeviceIdKey, .string usb), (DeviceTypeKey, .string usb),
    (SubDevicesKey, .array [subDevice shard1, subDevice shard2])]])]

def ejecting : MojObject := .object [(DeviceIdKey, .string usb), (StatusKey, .string ASMDeviceStatusEjecting)]

/-- Only the first shard fails. -/
def firstFails (info : MojDbShardInfo) : Option MojErr := if info.deviceId = shard1 then some .dbIo else none

/-- A failed activation is not tried again by the next list, and a release after the first of two deactivations has failed
says that the device is not in use. -/
theorem not_lawful :
    ¬Lawful [.deviceList twoShardList none firstFails, .deviceList twoShardList none fun _ => none] ∧
    ¬Lawful [.deviceList twoShardList none fun _ => none, .deviceStatus ejecting firstFails] := by
  constructor
  · intro h
    have hobeys := h [.deviceList twoShardList none firstFails] (.deviceList twoShardList none fun _ => none) ⟨[], rfl⟩
    have hretried := hobeys.retried shard1 (by decide) (by decide)
    exact absurd hretried (by decide)
  · intro h
    have hobeys := h [.deviceList twoShardList none fun _ => none] (.deviceStatus ejecting firstFails) ⟨[], rfl⟩
    have hreleased := hobeys.released usb .empty false (by decide)
    exact absurd (hreleased.mpr (by decide)) (by decide)

end MojDbMediaHandler

end Db8
