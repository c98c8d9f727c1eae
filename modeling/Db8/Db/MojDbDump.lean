import Db8.Db.MojDbFindObjects

/-!
# Db.MojDbDump

`MojDb::dump` with the root kind: the kinds, the live objects and the deleted ones, as far as they fit in a page.

* `dumpObj`   — the line of an object, if there is room for it.
* `dumpKinds` — the kinds that have changed since the key.
* `dumpLoop`  — the objects of a pass, up to the first that does not fit.
* `dumpImpl`  — a pass, and the key it leaves in the response.
* `dump`      — a page; `dumpPages`: the backup service asks again with each key.
-/

namespace Db8

open Lib MojObject
open MojDbIsamQuery (Fault)
open MojDbQuotaEngine (RootKindId)

namespace MojDb

/-- `deletedRev` -/
def DeletedRevKey : MojString := ⟨[100, 101, 108, 101, 116, 101, 100, 82, 101, 118], by decide⟩
/-- `full` -/
def FullKey : MojString := ⟨[102, 117, 108, 108], by decide⟩
/-- `hasMore` -/
def HasMoreKey : MojString := ⟨[104, 97, 115, 77, 111, 114, 101], by decide⟩
/-- `incrementalKey` -/
def IncrementalKey : MojString := ⟨[105, 110, 99, 114, 101, 109, 101, 110, 116, 97, 108, 75, 101, 121], by decide⟩
/-- `version` -/
def VersionKey : MojString := ⟨[118, 101, 114, 115, 105, 111, 110], by decide⟩
/-- `warnings` -/
def WarningsKey : MojString := ⟨[119, 97, 114, 110, 105, 110, 103, 115], by decide⟩

def DatabaseVersion : Int64 := 8

/-! ## The file -/

/-- The objects written, in order, and the bytes of their lines. -/
structure DumpFile where
  objs : List MojObject
  bytesWritten : Nat

/-- The line of an object, without its revision. -/
def dumpLine (obj : MojObject) : List MojByte := (obj.del RevKey).toJson ++ [ch '\n']

def DumpFile.text (file : DumpFile) : List MojByte := file.objs.flatMap dumpLine

/-- `MojDb::dumpObj`; none is `MojErrDbBackupFull`. -/
def dumpObj (maxBytes : Nat) (file : DumpFile) (obj : MojObject) : Option DumpFile :=
  let len := (dumpLine obj).length
  if maxBytes ≠ 0 ∧ maxBytes < file.bytesWritten + len then none
  else some ⟨file.objs ++ [obj], file.bytesWritten + len⟩

/-! ## The response -/

def insertIncrementalKey (keyName : MojString) (curRev response : MojObject) : MojObject :=
  let incremental := (response.get IncrementalKey).getD .undefined
  -- both revs start at -1, which is left out of the key
  if curRev.intValue < 1 then response.put IncrementalKey incremental
  else response.put IncrementalKey (incremental.put keyName curRev)

def handleBackupFull (revParam delRevParam : MojObject) (keyName : MojString) (response : MojObject) : MojObject :=
  let incremental := (response.get IncrementalKey).getD .undefined
  let response := (response.put HasMoreKey (.bool true)).put IncrementalKey incremental
  let other :=
    if keyName = RevNumKey then some (DeletedRevKey, delRevParam)
    else if keyName = DeletedRevKey then some (RevNumKey, revParam)
    else none
  match other with
  | none => response
  | some (otherKey, otherRev) =>
    if (incremental.get otherKey).isNone then insertIncrementalKey otherKey otherRev response else response

/-! ## Passes -/

/-- What a dump is asked for: `response` is whether the caller wants one. -/
structure DumpArgs where
  admin : Bool
  incDel : Bool
  backup : Bool
  maxBytes : Nat
  incrementalKey : Option MojObject
  response : Bool

/-- What a dump has done so far. -/
structure DumpState where
  file : DumpFile
  count : Nat
  response : Option MojObject

/-- The loop of a pass: the last revision dumped, and the index keys without an object. -/
structure DumpPass where
  file : DumpFile
  count : Nat
  curRev : Option MojObject
  warns : Nat

def dumpQuery (backup incDel : Bool) (revParam delRevParam : MojObject) : Except MojErr MojDbQuery := do
  let query ← MojDbQuery.all.addWhere DelKey .opEq (.bool incDel) none
  if backup then do
    let query ← query.addWhere KindContext.ObjectSyncKey .opEq (.bool true) none
    query.addWhere RevKey .opGreaterThan (if incDel then delRevParam else revParam) none
  else return query

/-- One object of a pass; none where the backup is full. -/
def dumpNext (skipKinds : Bool) (maxBytes : Nat) (pass : DumpPass) (obj : MojObject) : Except MojErr (Option DumpPass) := do
  let skip ← if skipKinds then (obj.getRequiredString KindKey).map (decide <| · = KindContext.KindKindId) else .ok false
  if skip then return some pass
  else
    match dumpObj maxBytes pass.file obj with
    | none => return none
    | some file => do
      let curRev ← obj.getRequired RevKey
      return some { pass with file, count := pass.count + 1, curRev := some curRev }

section Loop

variable (src : MojDbIsamQuery.Source) (st : MojDbIsamStore) (skipKinds : Bool) (maxBytes : Nat)

/-- The loop over the cursor; the flag is whether the backup is full. -/
def dumpLoop : Nat → MojDbIsamReads → DumpPass → Except Fault (DumpPass × Bool)
  | 0, _, pass => .ok (pass, false)
  | calls + 1, r, pass =>
    match r.get src st with
    | (.error fault, r) =>
      -- ghost keys are skipped
      if fault = .err .internalIndexOnFind then dumpLoop calls r { pass with warns := pass.warns + 1 } else .error fault
    | (.ok none, _) => .ok (pass, false)
    | (.ok (some item), r) =>
      match (do dumpNext skipKinds maxBytes pass (← item.toObject)) with
      | .error e => .error (.err e)
      | .ok none => .ok (pass, true)
      | .ok (some pass) => dumpLoop calls r pass

end Loop

section Dump

variable (env : MojDbEnv) (d : MojDbData)

/-- `MojDb::dumpImpl`, with the index keys without an object that it came upon. -/
def dumpImpl (args : DumpArgs) (incDel : Bool) (revParam delRevParam : MojObject) (skipKinds : Bool) (keyName : MojString)
    (s : DumpState) : Except Fault (DumpState × Nat) :=
  match (do findImpl env RootKindId (← dumpQuery args.backup incDel revParam delRevParam)) with
  | .error e => .error (.err e)
  | .ok c => do
    let src := c.source env d
    let (pass, full) ← dumpLoop src (d.isamStore c.ki c.query.distinct) skipKinds args.maxBytes (src.keys.size + 1)
      (.ofOpen src) ⟨s.file, s.count, none, 0⟩
    let response :=
      if full then
        let curRev := pass.curRev.getD (if incDel then delRevParam else revParam)
        s.response.map fun response =>
          handleBackupFull revParam delRevParam keyName (insertIncrementalKey keyName curRev response)
      else
        match pass.curRev with
        | none => s.response
        | some curRev => s.response.map (insertIncrementalKey keyName curRev)
    return (⟨pass.file, pass.count, response⟩, pass.warns)

end Dump

/-- The kinds: a backup has those with `sync`, and only those that have changed. -/
def dumpKinds (args : DumpArgs) (revParam delRevParam : MojObject) : List MojObject → DumpState → Except MojErr DumpState
  | [], s => .ok s
  | kind :: kinds, s =>
    if args.backup && !kind.getBool MojDbKind.SyncKey false then dumpKinds args revParam delRevParam kinds s
    else do
      let kindRev ← kind.getRequired RevKey
      let since := if kind.getBool DelKey false then delRevParam else revParam
      if kindRev.compare since = .gt then
        match dumpObj args.maxBytes s.file kind with
        | none => .error .dbBackupFull
        | some file => dumpKinds args revParam delRevParam kinds { s with file, count := s.count + 1 }
      else dumpKinds args revParam delRevParam kinds s

section Dump

variable (env : MojDbEnv) (d : MojDbData) (kindVec : List MojObject)

/-- `MojDb::dump`, with the kinds as `getKinds` gives them. -/
def dump (args : DumpArgs) : Except Fault DumpState :=
  if !args.admin then .error (.err .dbAccessDenied)
  else
    let revOf (key : MojString) : MojObject := (args.incrementalKey.bind fun k => k.get key).getD (.int (-1))
    let revParam := revOf RevNumKey
    let delRevParam := revOf DeletedRevKey
    match dumpKinds args revParam delRevParam kindVec ⟨⟨[], 0⟩, 0, if args.response then some .undefined else none⟩ with
    | .error e => .error (.err e)
    | .ok s => do
      let (s, newwarns) ← dumpImpl env d args false revParam delRevParam true RevNumKey s
      let hasMore := s.response.bind fun response => response.get HasMoreKey
      let (s, delwarns) ←
        if args.incDel && s.response.isSome && hasMore.isNone then
          dumpImpl env d args true revParam delRevParam false DeletedRevKey s
        -- those of the first pass are added once more
        else .ok (s, newwarns)
      let totalwarns := newwarns + delwarns
      let response :=
        if args.backup then
          s.response.map fun response =>
            ((response.put FullKey (.bool args.incrementalKey.isNone)).put VersionKey (.int DatabaseVersion)).put WarningsKey
              (.int (Int64.ofInt (Int32.ofNat totalwarns).toInt))
        else s.response
      return { s with response }

/-- `MojObject::empty`: its `containerSize` is 0. -/
def isEmpty : MojObject → Bool
  | .object ps => ps.isEmpty
  | .array xs => xs.isEmpty
  | _ => true

/-- `handlePreBackup`: a page of a backup after the key. -/
def preBackup (bytes : Nat) (incrementalKey : Option MojObject) : Except Fault DumpState :=
  dump env d kindVec ⟨true, true, true, bytes, incrementalKey.filter (!isEmpty ·), true⟩

/-- The pages of a backup: each comes after the key of the one before, and the last one has no `hasMore`. -/
def dumpPages (bytes : Nat) : Nat → Option MojObject → Except Fault (Option (List DumpState))
  | 0, _ => .ok none
  | fuel + 1, incrementalKey => do
    let page ← preBackup env d kindVec bytes incrementalKey
    let response := page.response.getD .undefined
    if (response.get HasMoreKey).isNone then return some [page]
    else do
      let pages ← dumpPages bytes fuel (response.get IncrementalKey)
      return pages.map (page :: ·)

end Dump

end MojDb

end Db8
