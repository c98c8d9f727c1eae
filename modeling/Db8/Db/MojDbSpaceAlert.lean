import Db8.Core.MojString
import Db8.Core.MojErr
import Db8.Core.MojNumber
import Db8.Lib.Run

/-!
# Db.MojDbSpaceAlert

The periodic check of the space on the file system, with the clean-up and the subscribers it tells.

* `doSpaceCheck`    — one check: read, tell, purge, compact, read again, store the level.
* `Holds`           — what is expected of a check after any run.
* `later_of_failed` — a check that fails leaves nothing behind that a later check goes by.
* `expected_of_run` — what is expected holds while every clean-up succeeds and leaves the level as it was.
-/

namespace Db8

open Lib

namespace MojDbSpaceAlert

/-! ## Readings -/

inductive AlertLevel where
  | neverSentSpaceAlert | noSpaceAlert | alertLevelLow | alertLevelMedium | alertLevelHigh
  deriving DecidableEq

namespace AlertLevel

def toInt : AlertLevel → Int
  | neverSentSpaceAlert => -2
  | noSpaceAlert => -1
  | alertLevelLow => 0
  | alertLevelMedium => 1
  | alertLevelHigh => 2

/-- `level >= AlertLevelLow`. -/
def isAlert (level : AlertLevel) : Bool := alertLevelLow.toInt ≤ level.toInt

end AlertLevel

open AlertLevel

def word (s : String) (h : 0 ∉ s.toList.map ch) : MojString := ⟨s.toList.map ch, h⟩

/-- `SpaceAlertNames`; it is never asked for the name of `NeverSentSpaceAlert`. -/
def getAlertName : AlertLevel → MojString
  | neverSentSpaceAlert => .empty
  | noSpaceAlert => word "none" (by decide)
  | alertLevelLow => word "low" (by decide)
  | alertLevelMedium => word "medium" (by decide)
  | alertLevelHigh => word "high" (by decide)

/-- The fields of `struct statvfs` that are read. -/
structure Statvfs where
  f_blocks : UInt64
  f_bavail : UInt64
  f_frsize : UInt64
  deriving DecidableEq

def MASSIVE_AVAILABLE_SPACE : Int64 := 500000000

structure Reading where
  alertLevel : AlertLevel
  bytesUsed : Int64
  bytesAvailable : Int64

/-- Whether `(double) used / (double) blocks * 100.0` reaches the threshold of a level. -/
abbrev PercentUsed := UInt64 → UInt64 → AlertLevel → Bool

/-- The highest level whose threshold is reached. -/
def levelOf (percentUsed : PercentUsed) (blocksUsed f_blocks : UInt64) : AlertLevel :=
  if percentUsed blocksUsed f_blocks alertLevelHigh then alertLevelHigh
  else if percentUsed blocksUsed f_blocks alertLevelMedium then alertLevelMedium
  else if percentUsed blocksUsed f_blocks alertLevelLow then alertLevelLow
  else noSpaceAlert

/-- `doSpaceCheck` with three results. Without a `statvfs` the call fails, with the level and the numbers
it has set at its beginning. -/
def readSpace (percentUsed : PercentUsed) : Option Statvfs → Reading × Bool
  | none => (⟨noSpaceAlert, 0, 0⟩, false)
  | some dbFsStat =>
    let blocksUsed := dbFsStat.f_blocks - dbFsStat.f_bavail
    let bigBytesUsed := blocksUsed * dbFsStat.f_frsize
    let bigBytesAvailable := dbFsStat.f_blocks * dbFsStat.f_frsize - bigBytesUsed
    let alertLevel := if bigBytesAvailable.toInt64 < MASSIVE_AVAILABLE_SPACE then
      levelOf percentUsed blocksUsed dbFsStat.f_blocks else noSpaceAlert
    (⟨alertLevel, bigBytesUsed.toInt64, bigBytesAvailable.toInt64⟩, true)

/-! ## Checks -/

structure Message where
  severity : MojString
  bytesUsed : Int64
  bytesAvailable : Int64
  path : MojString
  deriving DecidableEq

/-- A `SpaceCheckHandler`, with the message it has sent last. -/
structure Handler where
  id : Nat
  told : Option Message

structure State where
  databaseRoot : MojString
  spaceAlertLevel : AlertLevel
  compactRunning : Bool
  spaceCheckHandlers : List Handler
  nextId : Nat

def init (databaseRoot : MojString) : State := ⟨databaseRoot, neverSentSpaceAlert, false, [], 0⟩

/-- What a check meets: the file system before and after the clean-up, how the clean-up goes (`purge` with
the number of objects purged), and to which handlers a reply can be sent. -/
structure Check where
  before : Option Statvfs
  purge : Except MojErr Nat
  compact : Except MojErr Unit
  after : Option Statvfs
  replies : Nat → Bool

inductive CheckErr where
  | internal
  | db (err : MojErr)

/-- What a check does to the outside: its result, the messages it tries to send, the windows of the purges
it runs, and the levels it reads. -/
structure Outcome where
  err : Option CheckErr
  messages : List (Nat × Message)
  purges : List Nat
  readings : List AlertLevel

/-- `dispatchUpdate` on each handler; the error of a reply is not looked at. -/
def dispatch (s : State) (replies : Nat → Bool) (message : Message) : State :=
  { s with spaceCheckHandlers :=
      s.spaceCheckHandlers.map fun h => if replies h.id then { h with told := some message } else h }

/-- `m_db.purge` is called with no days to keep, or with one for the lowest level. -/
def purgeWindow (level : AlertLevel) : Nat := if alertLevelLow.toInt < level.toInt then 0 else 1

variable (percentUsed : PercentUsed)

/-- From the purge on. -/
def cleanUp (s : State) (c : Check) (reading : Reading) (messages : List (Nat × Message)) : State × Outcome :=
  let s := { s with compactRunning := true }
  let due := reading.alertLevel.isAlert && decide (reading.alertLevel ≠ s.spaceAlertLevel)
  let purges := if due then [purgeWindow reading.alertLevel] else []
  match if due then c.purge else .ok 0 with
  | .error err => (s, ⟨some (.db err), messages, purges, [reading.alertLevel]⟩)
  | .ok count =>
    if 0 < count then
      match c.compact with
      | .error err => (s, ⟨some (.db err), messages, purges, [reading.alertLevel]⟩)
      | .ok () =>
        -- the result of the second reading is not looked at
        let (again, ok) := readSpace percentUsed c.after
        ({ s with compactRunning := false, spaceAlertLevel := again.alertLevel },
          ⟨none, messages, purges, reading.alertLevel :: if ok then [again.alertLevel] else []⟩)
    else
      ({ s with compactRunning := false, spaceAlertLevel := reading.alertLevel },
        ⟨none, messages, purges, [reading.alertLevel]⟩)

def messageOf (s : State) (reading : Reading) : Message :=
  ⟨getAlertName reading.alertLevel, reading.bytesUsed, reading.bytesAvailable, s.databaseRoot⟩

/-- A level other than the stored one is told to all handlers. -/
def announce (s : State) (c : Check) (reading : Reading) : State × List (Nat × Message) :=
  if reading.alertLevel ≠ s.spaceAlertLevel then
    (dispatch s c.replies (messageOf s reading), s.spaceCheckHandlers.map fun h => (h.id, messageOf s reading))
  else (s, [])

def doSpaceCheck (s : State) (c : Check) : State × Outcome :=
  match readSpace percentUsed c.before with
  | (_, false) => (s, ⟨some .internal, [], [], []⟩)
  | (reading, true) =>
    cleanUp percentUsed (announce s c reading).1 c reading (announce s c reading).2

/-- The level that is reported; while the mark is set the file system is read anew. -/
def reported (s : State) (now : Option Statvfs) : AlertLevel :=
  if s.compactRunning then (readSpace percentUsed now).1.alertLevel else s.spaceAlertLevel

/-! ## Runs -/

inductive Action where
  | check (c : Check)
  | subscribe
  | cancel (id : Nat)

/-- `subscribe` and `handleCancel`. -/
def step (s : State) : Action → State
  | .check c => (doSpaceCheck percentUsed s c).1
  | .subscribe =>
    { s with spaceCheckHandlers := s.spaceCheckHandlers ++ [⟨s.nextId, none⟩], nextId := s.nextId + 1 }
  | .cancel id => { s with spaceCheckHandlers := s.spaceCheckHandlers.eraseP (·.id = id) }

def outcome? (s : State) : Action → Option Outcome
  | .check c => some (doSpaceCheck percentUsed s c).2
  | _ => none

/-- What the checks of a run do. -/
def outcomes : State → List Action → List Outcome
  | _, [] => []
  | s, a :: as => (outcome? percentUsed s a).toList ++ outcomes (step percentUsed s a) as

/-- The level read last, with the one from before. -/
def latestOf (latest : AlertLevel) (outcome : Outcome) : AlertLevel := outcome.readings.getLast?.getD latest

/-- The state with the level that was read last. -/
structure Watched where
  state : State
  latest : AlertLevel

def Watched.init (databaseRoot : MojString) : Watched := ⟨MojDbSpaceAlert.init databaseRoot, neverSentSpaceAlert⟩

def Watched.step (w : Watched) (a : Action) : Watched where
  state := MojDbSpaceAlert.step percentUsed w.state a
  latest :=
    match a with
    | .check c => latestOf w.latest (doSpaceCheck percentUsed w.state c).2
    | _ => w.latest

/-- The latest reading when the level has been asked for: asking may read the file system. -/
def latestWhenAsked (w : Watched) (now : Option Statvfs) : AlertLevel :=
  if w.state.compactRunning ∧ (readSpace percentUsed now).2 = true then (readSpace percentUsed now).1.alertLevel
  else w.latest

/-- The level reported is that of the latest reading, and what each subscriber was told last, if anything, is
that level. -/
structure Tells (w : Watched) : Prop where
  reported_latest : ∀ now, reported percentUsed w.state now = latestWhenAsked percentUsed w now
  told_latest : ∀ now, ∀ h ∈ w.state.spaceCheckHandlers, ∀ message, h.told = some message →
    message.severity = getAlertName (latestWhenAsked percentUsed w now)

/-- Whether a check reads an alert level other than the one read last. -/
def entersAlert (w : Watched) (c : Check) : Bool :=
  (readSpace percentUsed c.before).2 && (readSpace percentUsed c.before).1.alertLevel.isAlert &&
    decide ((readSpace percentUsed c.before).1.alertLevel ≠ w.latest)

/-- What is expected of a check in a state. -/
structure Holds (w : Watched) (c : Check) : Prop where
  tells : Tells percentUsed (w.step percentUsed (.check c))
  /-- One clean-up for each change into an alert level. -/
  cleans_up : (doSpaceCheck percentUsed w.state c).2.purges.length = if entersAlert percentUsed w c then 1 else 0
  /-- After a failure later checks do what they would have done without this one. -/
  later : (doSpaceCheck percentUsed w.state c).2.err.isSome → ∀ as,
    outcomes percentUsed (step percentUsed w.state (.check c)) as = outcomes percentUsed w.state as

/-! ## What later checks go by -/

/-- Two states in which checks do the same: the mark, and what subscribers were told, may differ. -/
structure Alike (s t : State) : Prop where
  databaseRoot : s.databaseRoot = t.databaseRoot
  spaceAlertLevel : s.spaceAlertLevel = t.spaceAlertLevel
  ids : s.spaceCheckHandlers.map (·.id) = t.spaceCheckHandlers.map (·.id)
  nextId : s.nextId = t.nextId

theorem map_id_dispatch (s : State) (replies : Nat → Bool) (message : Message) :
    (dispatch s replies message).spaceCheckHandlers.map (·.id) = s.spaceCheckHandlers.map (·.id) := by
  unfold dispatch
  rw [List.map_map]
  refine List.map_congr_left fun h _ => ?_
  dsimp only [Function.comp_apply]
  split_ifs <;> rfl

theorem alike_dispatch (s : State) (replies : Nat → Bool) (message : Message) :
    Alike (dispatch s replies message) s := ⟨rfl, rfl, map_id_dispatch s replies message, rfl⟩

theorem Alike.dispatch {s t : State} (h : Alike s t) (replies : Nat → Bool) (message : Message) :
    Alike (dispatch s replies message) (dispatch t replies message) :=
  ⟨h.databaseRoot, h.spaceAlertLevel, by rw [map_id_dispatch, map_id_dispatch, h.ids], h.nextId⟩

/-- How a clean-up ends: the purge or the compaction fails and the mark stays, or a level is stored, which is
that of the second reading if there was something to compact. -/
theorem cleanUp_cases (s : State) (c : Check) (reading : Reading) (messages : List (Nat × Message)) :
    (∃ err purges, cleanUp percentUsed s c reading messages =
      ({ s with compactRunning := true }, ⟨some (.db err), messages, purges, [reading.alertLevel]⟩)) ∨
    (∃ level purges readings, cleanUp percentUsed s c reading messages =
      ({ s with compactRunning := false, spaceAlertLevel := level }, ⟨none, messages, purges, readings⟩)) := by
  unfold cleanUp
  dsimp only
  cases if reading.alertLevel.isAlert && decide (reading.alertLevel ≠ s.spaceAlertLevel) then c.purge else .ok 0 with
  | error err => exact .inl ⟨_, _, rfl⟩
  | ok count =>
    by_cases hcount : 0 < count
    · simp only [if_pos hcount]
      cases c.compact with
      | error err => exact .inl ⟨_, _, rfl⟩
      | ok _ => exact .inr ⟨_, _, _, rfl⟩
    · simp only [if_neg hcount]
      exact .inr ⟨_, _, _, rfl⟩

/-- A clean-up goes by the stored level alone. -/
theorem Alike.cleanUp {s t : State} (h : Alike s t) (c : Check) (reading : Reading)
    (messages : List (Nat × Message)) :
    Alike (cleanUp percentUsed s c reading messages).1 (cleanUp percentUsed t c reading messages).1 ∧
      (cleanUp percentUsed s c reading messages).2 = (cleanUp percentUsed t c reading messages).2 := by
  unfold MojDbSpaceAlert.cleanUp
  dsimp only
  rw [h.spaceAlertLevel]
  cases if reading.alertLevel.isAlert && decide (reading.alertLevel ≠ t.spaceAlertLevel) then c.purge else .ok 0 with
  | error err => exact ⟨⟨h.databaseRoot, rfl, h.ids, h.nextId⟩, rfl⟩
  | ok count =>
    by_cases hcount : 0 < count
    · simp only [if_pos hcount]
      cases c.compact with
      | error err => exact ⟨⟨h.databaseRoot, rfl, h.ids, h.nextId⟩, rfl⟩
      | ok _ => exact ⟨⟨h.databaseRoot, rfl, h.ids, h.nextId⟩, rfl⟩
    · simp only [if_neg hcount]
      exact ⟨⟨h.databaseRoot, rfl, h.ids, h.nextId⟩, trivial⟩

theorem alike_announce (s : State) (c : Check) (reading : Reading) : Alike (announce s c reading).1 s := by
  unfold announce
  split_ifs
  · exact alike_dispatch s c.replies (messageOf s reading)
  · exact ⟨rfl, rfl, rfl, rfl⟩

theorem Alike.announce {s t : State} (h : Alike s t) (c : Check) (reading : Reading) :
    Alike (announce s c reading).1 (announce t c reading).1 ∧ (announce s c reading).2 = (announce t c reading).2 := by
  have hmessage : messageOf s reading = messageOf t reading := by rw [messageOf, messageOf, h.databaseRoot]
  have hmessages : (s.spaceCheckHandlers.map fun j => (j.id, messageOf t reading)) =
      t.spaceCheckHandlers.map fun j => (j.id, messageOf t reading) := by
    have hids := congrArg (List.map fun id => (id, messageOf t reading)) h.ids
    rwa [List.map_map, List.map_map] at hids
  unfold MojDbSpaceAlert.announce
  rw [h.spaceAlertLevel, hmessage, hmessages]
  split_ifs
  · exact ⟨h.dispatch _ _, rfl⟩
  · exact ⟨h, rfl⟩

theorem Alike.doSpaceCheck {s t : State} (h : Alike s t) (c : Check) :
    Alike (doSpaceCheck percentUsed s c).1 (doSpaceCheck percentUsed t c).1 ∧
      (doSpaceCheck percentUsed s c).2 = (doSpaceCheck percentUsed t c).2 := by
  unfold MojDbSpaceAlert.doSpaceCheck
  obtain ⟨reading, ok⟩ := readSpace percentUsed c.before
  cases ok with
  | false => exact ⟨h, rfl⟩
  | true =>
    obtain ⟨hstate, hmessages⟩ := h.announce c reading
    dsimp only
    rw [hmessages]
    exact hstate.cleanUp percentUsed c reading _

theorem map_eraseP_id (id : Nat) (handlers : List Handler) :
    (handlers.eraseP (·.id = id)).map (·.id) = (handlers.map (·.id)).erase id := by
  induction handlers with
  | nil => rfl
  | cons h handlers ih =>
    by_cases hid : h.id = id
    · simp [hid]
    · rw [List.eraseP_cons_of_neg (by simpa using hid), List.map_cons, List.map_cons,
        List.erase_cons_tail (by simpa using hid), ih]

theorem Alike.step {s t : State} (h : Alike s t) (a : Action) :
    Alike (step percentUsed s a) (step percentUsed t a) := by
  cases a with
  | check c => exact (h.doSpaceCheck percentUsed c).1
  | subscribe =>
    refine ⟨h.databaseRoot, h.spaceAlertLevel, ?_, congrArg Nat.succ h.nextId⟩
    change (s.spaceCheckHandlers ++ [_]).map _ = (t.spaceCheckHandlers ++ [_]).map _
    rw [List.map_append, List.map_append, h.ids, List.map_singleton, List.map_singleton, h.nextId]
  | cancel id =>
    refine ⟨h.databaseRoot, h.spaceAlertLevel, ?_, h.nextId⟩
    change (s.spaceCheckHandlers.eraseP _).map _ = (t.spaceCheckHandlers.eraseP _).map _
    rw [map_eraseP_id, map_eraseP_id, h.ids]

theorem Alike.outcome? {s t : State} (h : Alike s t) (a : Action) :
    outcome? percentUsed s a = outcome? percentUsed t a := by
  cases a with
  | check c => exact congrArg some (h.doSpaceCheck percentUsed c).2
  | subscribe => rfl
  | cancel id => rfl

theorem outcomes_of_alike {s t : State} (h : Alike s t) (as : List Action) :
    outcomes percentUsed s as = outcomes percentUsed t as := by
  induction as generalizing s t with
  | nil => rfl
  | cons a as ih =>
    rw [outcomes, outcomes, h.outcome? percentUsed a, ih (h.step percentUsed a)]

/-- A check that fails has set the mark and told its subscribers, at most. -/
theorem alike_of_failed {s : State} {c : Check} (h : (doSpaceCheck percentUsed s c).2.err.isSome) :
    Alike (doSpaceCheck percentUsed s c).1 s := by
  unfold doSpaceCheck at h ⊢
  generalize readSpace percentUsed c.before = first at h ⊢
  obtain ⟨reading, ok⟩ := first
  cases ok with
  | false => exact ⟨rfl, rfl, rfl, rfl⟩
  | true =>
    dsimp only at h ⊢
    have hstate := alike_announce s c reading
    obtain ⟨err, purges, he⟩ | ⟨level, purges, readings, he⟩ := cleanUp_cases percentUsed
      (announce s c reading).1 c reading (announce s c reading).2
    · rw [he]
      exact ⟨hstate.databaseRoot, hstate.spaceAlertLevel, hstate.ids, hstate.nextId⟩
    · rw [he] at h
      cases h

theorem later_of_failed {s : State} {c : Check} (h : (doSpaceCheck percentUsed s c).2.err.isSome)
    (as : List Action) : outcomes percentUsed (step percentUsed s (.check c)) as = outcomes percentUsed s as :=
  outcomes_of_alike percentUsed (alike_of_failed percentUsed h) as

/-! ## Clean-ups that succeed -/

/-- A clean-up the check runs succeeds, and if it compacts, the second reading gives the level of the first;
and where the check tells its subscribers, the replies can be sent. -/
def Clear (w : Watched) : Action → Prop
  | .check c =>
    (readSpace percentUsed c.before).2 = true →
      (readSpace percentUsed c.before).1.alertLevel ≠ w.state.spaceAlertLevel →
      (∀ h ∈ w.state.spaceCheckHandlers, c.replies h.id = true) ∧
        ((readSpace percentUsed c.before).1.alertLevel.isAlert = true →
          ∃ count, c.purge = .ok count ∧ (0 < count → c.compact = .ok () ∧
            (readSpace percentUsed c.after).2 = true ∧
            (readSpace percentUsed c.after).1.alertLevel = (readSpace percentUsed c.before).1.alertLevel))
  | _ => True

/-- The stored level is that of the latest reading, which is what subscribers were told last; the mark is off. -/
structure Inv (w : Watched) : Prop where
  stored : w.state.spaceAlertLevel = w.latest
  mark : w.state.compactRunning = false
  told : ∀ h ∈ w.state.spaceCheckHandlers, ∀ message, h.told = some message →
    message.severity = getAlertName w.latest

theorem inv_init (databaseRoot : MojString) : Inv (.init databaseRoot) := ⟨rfl, rfl, nofun⟩

theorem Inv.tells {w : Watched} (h : Inv w) : Tells percentUsed w := by
  have hlatest : ∀ now, latestWhenAsked percentUsed w now = w.latest := by
    intro now
    simp [latestWhenAsked, h.mark]
  refine ⟨fun now => ?_, fun now => ?_⟩
  · rw [hlatest, reported, h.mark]
    exact h.stored
  · rw [hlatest]
    exact h.told

/-- A clean-up that succeeds and keeps the level. -/
theorem cleanUp_clear (s : State) {c : Check} {reading : Reading} (messages : List (Nat × Message))
    (hclear : reading.alertLevel ≠ s.spaceAlertLevel → reading.alertLevel.isAlert = true →
      ∃ count, c.purge = .ok count ∧ (0 < count → c.compact = .ok () ∧
        (readSpace percentUsed c.after).2 = true ∧
        (readSpace percentUsed c.after).1.alertLevel = reading.alertLevel)) :
    ∃ readings, cleanUp percentUsed s c reading messages =
        ({ s with compactRunning := false, spaceAlertLevel := reading.alertLevel },
          ⟨none, messages,
            if reading.alertLevel.isAlert && decide (reading.alertLevel ≠ s.spaceAlertLevel) then
              [purgeWindow reading.alertLevel] else [], readings⟩) ∧
      readings.getLast? = some reading.alertLevel := by
  unfold cleanUp
  dsimp only
  by_cases hdue : reading.alertLevel.isAlert = true ∧ reading.alertLevel ≠ s.spaceAlertLevel
  · obtain ⟨count, hpurge, hcompact⟩ := hclear hdue.2 hdue.1
    have hdue' : (reading.alertLevel.isAlert && decide (reading.alertLevel ≠ s.spaceAlertLevel)) = true := by
      simpa using hdue
    rw [if_pos hdue', if_pos hdue', hpurge]
    by_cases hcount : 0 < count
    · obtain ⟨hok, hread, hlevel⟩ := hcompact hcount
      simp only [if_pos hcount, hok, hread, hlevel]
      exact ⟨_, rfl, rfl⟩
    · simp only [if_neg hcount]
      exact ⟨_, rfl, rfl⟩
  · have hdue' : ¬ (reading.alertLevel.isAlert && decide (reading.alertLevel ≠ s.spaceAlertLevel)) = true := by
      simpa using hdue
    rw [if_neg hdue', if_neg hdue']
    exact ⟨_, rfl, rfl⟩

/-- After the announcement all that was told is the level that was read. -/
theorem told_announce {w : Watched} (h : Inv w) {c : Check} {reading : Reading}
    (hreplies : reading.alertLevel ≠ w.state.spaceAlertLevel → ∀ j ∈ w.state.spaceCheckHandlers, c.replies j.id = true) :
    ∀ j ∈ (announce w.state c reading).1.spaceCheckHandlers, ∀ message, j.told = some message →
      message.severity = getAlertName reading.alertLevel := by
  unfold announce
  split_ifs with hlevel
  · intro j hj message hmessage
    obtain ⟨i, hi, rfl⟩ := List.mem_map.mp hj
    rw [if_pos (hreplies hlevel i hi)] at hmessage
    exact Option.some.inj hmessage ▸ rfl
  · rw [not_not] at hlevel
    rw [hlevel, h.stored]
    exact h.told

/-- What a check does when nothing fails in it: it stores and tells the level it reads, and cleans up once if
that is another alert level. -/
theorem doSpaceCheck_clear {w : Watched} (h : Inv w) {c : Check} (hclear : Clear percentUsed w (.check c)) :
    Inv (w.step percentUsed (.check c)) ∧
      (doSpaceCheck percentUsed w.state c).2.purges.length = if entersAlert percentUsed w c then 1 else 0 := by
  unfold Watched.step MojDbSpaceAlert.step doSpaceCheck entersAlert
  unfold Clear at hclear
  dsimp only at hclear ⊢
  generalize readSpace percentUsed c.before = first at hclear ⊢
  obtain ⟨reading, ok⟩ := first
  cases ok with
  | false => exact ⟨h, rfl⟩
  | true =>
    dsimp only at hclear ⊢
    have hlevel := (alike_announce w.state c reading).spaceAlertLevel
    have htold := told_announce h fun hne => (hclear rfl hne).1
    obtain ⟨readings, hclean, hlast⟩ := cleanUp_clear percentUsed (announce w.state c reading).1
      (announce w.state c reading).2 fun hne => (hclear rfl (hlevel ▸ hne)).2
    rw [hclean]
    refine ⟨⟨?_, rfl, ?_⟩, ?_⟩
    · simp [latestOf, hlast]
    · simpa [latestOf, hlast] using htold
    · rw [hlevel, h.stored, Bool.true_and]
      split_ifs <;> rfl

theorem inv_step (w : Watched) (a : Action) (h : Inv w) (hclear : Clear percentUsed w a) :
    Inv (w.step percentUsed a) := by
  cases a with
  | check c => exact (doSpaceCheck_clear percentUsed h hclear).1
  | subscribe =>
    refine ⟨h.stored, h.mark, fun j hj message hmessage => ?_⟩
    rcases List.mem_append.mp hj with hj | hj
    · exact h.told j hj message hmessage
    · obtain rfl := List.mem_singleton.mp hj
      cases hmessage
  | cancel id => exact ⟨h.stored, h.mark, fun j hj => h.told j (List.mem_of_mem_eraseP hj)⟩

/-- In a run whose checks meet the condition each check does what is expected of it: for any readings, and
subscriptions and cancellations at any point. -/
theorem expected_of_run (databaseRoot : MojString) (as : List Action)
    (h : Along (Watched.step percentUsed) (Clear percentUsed) (.init databaseRoot) as) :
    ∀ bs c, bs ++ [.check c] <+: as → Holds percentUsed (run (Watched.step percentUsed) (.init databaseRoot) bs) c := by
  intro bs c hbs
  have hrun := h.of_isPrefix hbs
  have hinv := Along.invariant Inv (inv_step percentUsed) (inv_init databaseRoot) hrun.of_append
  obtain ⟨hinv', hpurges⟩ := doSpaceCheck_clear percentUsed hinv hrun.last
  exact ⟨hinv'.tells percentUsed, hpurges, fun herr => later_of_failed percentUsed herr⟩

/-! ### Two checks -/

/-- The percentage in whole numbers. -/
def percentUsedExact : PercentUsed := fun used blocks level =>
  match level with
  | alertLevelHigh => 95 * blocks ≤ 100 * used
  | alertLevelMedium => 90 * blocks ≤ 100 * used
  | alertLevelLow => 85 * blocks ≤ 100 * used
  | _ => false

def root : MojString := word "/var/db" (by decide)

/-- A thousand blocks of a kilobyte, of which so many are free. -/
def free (blocks : UInt64) : Option Statvfs := some ⟨1000, blocks, 1024⟩

/-- A purge of three objects that does not bring the level down, and a file system that cannot be read. -/
theorem expected_of_run_low :
    Holds percentUsedExact (run (Watched.step percentUsedExact) (.init root)
      [.subscribe, .check ⟨free 120, .ok 3, .ok (), free 130, fun _ => true⟩])
      ⟨none, .ok 0, .ok (), none, fun _ => true⟩ := by
  refine expected_of_run percentUsedExact root
    [.subscribe, .check ⟨free 120, .ok 3, .ok (), free 130, fun _ => true⟩,
      .check ⟨none, .ok 0, .ok (), none, fun _ => true⟩] ⟨trivial, ?_, ?_, trivial⟩ _ _ (List.prefix_refl _)
  · exact fun _ _ => ⟨fun _ _ => rfl, fun _ => ⟨3, rfl, fun _ => ⟨rfl, rfl, by decide⟩⟩⟩
  · exact fun h => absurd h (by decide)

/-- A purge that brings the level from high to none: the subscriber was told that it is high. -/
theorem not_holds_of_purge :
    ¬ Holds percentUsedExact (run (Watched.step percentUsedExact) (.init root) [.subscribe])
      ⟨free 10, .ok 3, .ok (), free 900, fun _ => true⟩ := by
  intro h
  have htold := h.tells.told_latest none
  exact absurd (htold _ (List.mem_singleton.mpr rfl) _ rfl) (by decide)

end MojDbSpaceAlert

end Db8
