import Db8.Core.MojJsonWriter
import Db8.Db.MojDbPut
import Db8.Db.MojDbQuotaEngine
import Db8.Lib.Fallible
import Db8.Lib.SortedMap

/-!
# Db.MojDbPermissionEngine

The permissions in memory: for each type and object, the operations of each caller.

* `permissionOf`   — what `MojDbPermissionEngine::put` reads from an object, with the errors it throws.
* `put`, `check`   — the nested maps, and the value for an operation.
* `operations`     — what the maps hold for a triple of type, object and caller.
* `check_congr`    — engines that hold the same operations give the same values.
* `load`, `open_`  — the permissions of the configuration, then those stored.
-/

namespace Db8

open Lib

namespace MojObject

/-- `MojObject::getRequired` for a string. -/
def getRequiredString (o : MojObject) (key : MojString) : Except MojErr MojString :=
  match o.get key with
  | some val => .ok val.stringValue
  | none => .error .requiredPropNotFound

/-- `MojObject::getRequired`. -/
def getRequired (o : MojObject) (key : MojString) : Except MojErr MojObject :=
  match o.get key with
  | some val => .ok val
  | none => .error .requiredPropNotFound

end MojObject

namespace MojDbPutHandler

/-- The key of a caller map, in the order of `LengthComp`. -/
structure CallerKey where
  name : MojString
  deriving DecidableEq

/-- Longest first, so that the longest wildcard comes before the others. -/
instance : LinearOrder CallerKey :=
  LinearOrder.lift' (fun k => toLex (OrderDual.toDual k.name.chars.length, k.name)) fun k l h => by
    cases k
    cases l
    exact congrArg CallerKey.mk (Prod.mk.inj h).2

/-- A `*` stands last, alone or after a `.`. -/
def validateWildcard (val : MojString) (errToThrow : MojErr) : Except MojErr Unit :=
  if val.isEmpty then .error errToThrow
  else
    match val.chars.idxOf? 42 with
    | none => .ok ()
    | some wildcardPos =>
      if wildcardPos ≠ val.chars.length - 1 ∨ (wildcardPos ≠ 0 ∧ val.chars[wildcardPos - 1]? ≠ some 46) then
        .error errToThrow
      else .ok ()

end MojDbPutHandler

open MojDbPutHandler MojDbQuotaEngine

/-- `MojDbPermissionEngine::Value`. -/
inductive PermissionValue where
  | undefined | allow | deny
  deriving DecidableEq

abbrev OperationMap := SortedMap MojString PermissionValue
abbrev CallerMap := SortedMap CallerKey OperationMap
abbrev ObjectMap := List (MojString × CallerMap)
abbrev TypeMap := List (MojString × ObjectMap)

/-- What is read from a permission object. -/
structure Permission where
  type : MojString
  object : MojString
  caller : MojString
  operations : OperationMap
  deriving DecidableEq

namespace Permission

def Same (p q : Permission) : Prop := p.type = q.type ∧ p.object = q.object ∧ p.caller = q.caller

instance (p q : Permission) : Decidable (p.Same q) :=
  inferInstanceAs (Decidable (_ ∧ _ ∧ _))

/-- `_permissions/`, then the three names with `-` between them. -/
def id (type object caller : MojString) : MojString :=
  MojString.append ⟨[95, 112, 101, 114, 109, 105, 115, 115, 105, 111, 110, 115, 47], by decide⟩
    (type.append (.append ⟨[45], by decide⟩ (object.append (.append ⟨[45], by decide⟩ caller))))

end Permission

structure MojDbPermissionEngine where
  types : TypeMap
  enabled : Bool

namespace MojDbPermissionEngine

/-- `type`. -/
def TypeKey : MojString := ⟨[116, 121, 112, 101], by decide⟩
/-- `object`. -/
def ObjectKey : MojString := ⟨[111, 98, 106, 101, 99, 116], by decide⟩
/-- `caller`. -/
def CallerKey : MojString := ⟨[99, 97, 108, 108, 101, 114], by decide⟩
/-- `operations`. -/
def OperationsKey : MojString := ⟨[111, 112, 101, 114, 97, 116, 105, 111, 110, 115], by decide⟩
/-- `allow`. -/
def AllowKey : MojString := ⟨[97, 108, 108, 111, 119], by decide⟩
/-- `deny`. -/
def DenyKey : MojString := ⟨[100, 101, 110, 121], by decide⟩
/-- `permissions`. -/
def PermissionsKey : MojString := ⟨[112, 101, 114, 109, 105, 115, 115, 105, 111, 110, 115], by decide⟩
/-- `permissionsEnabled`. -/
def PermissionsEnabledKey : MojString :=
  ⟨[112, 101, 114, 109, 105, 115, 115, 105, 111, 110, 115, 69, 110, 97, 98, 108, 101, 100], by decide⟩
/-- `MojDbKind::PermissionType`, `db.kind`. -/
def PermissionType : MojString := ⟨[100, 98, 46, 107, 105, 110, 100], by decide⟩
/-- `MojDbKindEngine::PermissionId`, `Permission:1`. -/
def PermissionId : MojString := ⟨[80, 101, 114, 109, 105, 115, 115, 105, 111, 110, 58, 49], by decide⟩

/-! ## Reading a permission -/

def valueFromString (str : MojString) : Except MojErr PermissionValue :=
  if str = AllowKey then .ok .allow
  else if str = DenyKey then .ok .deny
  else .error .dbInvalidPermissions

def operationMap (operations : MojObject) : Except MojErr OperationMap :=
  operations.props.foldlM (fun opMap p => do
    let val ← valueFromString p.2.stringValue
    pure (opMap.insert p.1 val)) .empty

/-- The owner of a kind is asked only for a permission on a kind. -/
def kindPermission (checkKind : MojString → Except MojErr Unit) (type object : MojString) : Except MojErr Unit :=
  if type = PermissionType then checkKind object else .ok ()

/-- The first part of `put`, up to the object's own put. `checkKind` is `MojDbKindEngine::checkPermission` for
`OpKindUpdate`. -/
def permissionOf (checkKind : MojString → Except MojErr Unit) (perm : MojObject) : Except MojErr Permission := do
  let type ← perm.getRequiredString TypeKey
  let object ← perm.getRequiredString ObjectKey
  let caller ← perm.getRequiredString CallerKey
  let operations ← perm.getRequired OperationsKey
  validateWildcard caller .dbInvalidCaller
  kindPermission checkKind type object
  let opMap ← operationMap operations
  pure ⟨type, object, caller, opMap⟩

/-- The object reads as a permission, whatever the kinds are. -/
def readPermission (perm : MojObject) : Except MojErr Permission := permissionOf (fun _ => .ok ()) perm

theorem kindPermission_eq_ok {checkKind : MojString → Except MojErr Unit} {type object : MojString} :
    kindPermission checkKind type object = .ok () ↔ (type = PermissionType → checkKind object = .ok ()) := by
  unfold kindPermission
  split_ifs with h
  · exact ⟨fun hc _ => hc, fun hc => hc h⟩
  · exact ⟨fun _ hp => absurd hp h, fun _ => rfl⟩

theorem permissionOf_eq_ok {checkKind : MojString → Except MojErr Unit} {perm : MojObject} {p : Permission} :
    permissionOf checkKind perm = .ok p ↔
      readPermission perm = .ok p ∧ (p.type = PermissionType → checkKind p.object = .ok ()) := by
  unfold readPermission permissionOf
  simp only [bind_eq_ok, pure_eq_ok]
  constructor
  · intro h
    obtain ⟨type, htype, object, hobject, caller, hcaller, operations, hops, ⟨⟩, hvalid, ⟨⟩, hkind, opMap, hmap,
      rfl⟩ := h
    exact ⟨⟨type, htype, object, hobject, caller, hcaller, operations, hops, (), hvalid, (),
      kindPermission_eq_ok.mpr fun _ => rfl, opMap, hmap, rfl⟩, kindPermission_eq_ok.mp hkind⟩
  · intro h
    obtain ⟨⟨type, htype, object, hobject, caller, hcaller, operations, hops, ⟨⟩, hvalid, ⟨⟩, -, opMap, hmap, rfl⟩,
      hcheck⟩ := h
    exact ⟨type, htype, object, hobject, caller, hcaller, operations, hops, (), hvalid, (),
      kindPermission_eq_ok.mpr hcheck, opMap, hmap, rfl⟩

/-! ## The maps -/

variable (engine : MojDbPermissionEngine)

def objectMap (type : MojString) : ObjectMap :=
  match lookup Prod.fst type engine.types with
  | some p => p.2
  | none => []

def callerMap (objects : ObjectMap) (object : MojString) : CallerMap :=
  match lookup Prod.fst object objects with
  | some p => p.2
  | none => .empty

/-- The last part of `put`: the maps are got or created, and the caller's entry is written. -/
def put (p : Permission) : MojDbPermissionEngine :=
  let objects := engine.objectMap p.type
  let callers := callerMap objects p.object
  { engine with
    types := upsert Prod.fst
      (p.type, upsert Prod.fst (p.object, callers.insert ⟨p.caller⟩ p.operations) objects) engine.types }

/-- The caller's own entry, or else the first wildcard that matches. -/
def matching (callers : CallerMap) (caller : MojString) : Option OperationMap :=
  match callers.find ⟨caller⟩ with
  | some opMap => some opMap
  | none => (callers.entries.find? fun e : MojDbPutHandler.CallerKey × OperationMap =>
      matchWildcard e.1.name caller).map Prod.snd

def check (type object caller op : MojString) : PermissionValue :=
  match lookup Prod.fst type engine.types with
  | none => .undefined
  | some (_, objects) =>
    match lookup Prod.fst object objects with
    | none => .undefined
    | some (_, callers) =>
      match matching callers caller with
      | none => .undefined
      | some opMap => (opMap.find op).getD .undefined

/-- The callers of an object. -/
def callers (type object : MojString) : CallerMap := callerMap (engine.objectMap type) object

/-- The operations the engine holds for a triple. -/
def operations (type object caller : MojString) : Option OperationMap := (engine.callers type object).find ⟨caller⟩

variable {engine}

theorem callers_put (p : Permission) (type object : MojString) :
    (engine.put p).callers type object =
      if p.type = type ∧ p.object = object then (engine.callers type object).insert ⟨p.caller⟩ p.operations
      else engine.callers type object := by
  unfold callers objectMap put
  rw [lookup_upsert]
  by_cases htype : p.type = type
  · subst htype
    rw [if_pos rfl]
    unfold callerMap
    dsimp only
    rw [lookup_upsert]
    by_cases hobject : p.object = object
    · subst hobject
      rw [if_pos rfl, if_pos ⟨rfl, rfl⟩]
      rfl
    · rw [if_neg hobject, if_neg fun h => hobject h.2]
      rfl
  · rw [if_neg htype, if_neg fun h => htype h.1]

theorem operations_put (p : Permission) (type object caller : MojString) :
    (engine.put p).operations type object caller =
      if p.type = type ∧ p.object = object ∧ p.caller = caller then some p.operations
      else engine.operations type object caller := by
  unfold operations
  rw [callers_put]
  by_cases hobject : p.type = type ∧ p.object = object
  · rw [if_pos hobject, SortedMap.find_insert]
    by_cases hcaller : caller = p.caller
    · rw [if_pos (congrArg _ hcaller), if_pos ⟨hobject.1, hobject.2, hcaller.symm⟩]
    · rw [if_neg fun h => hcaller (congrArg MojDbPutHandler.CallerKey.name h),
        if_neg fun h => hcaller h.2.2.symm]
  · rw [if_neg hobject, if_neg fun h => hobject ⟨h.1, h.2.1⟩]

theorem check_eq (type object caller op : MojString) :
    engine.check type object caller op =
      match matching (engine.callers type object) caller with
      | none => .undefined
      | some opMap => (opMap.find op).getD .undefined := by
  unfold check callers objectMap callerMap
  cases lookup Prod.fst type engine.types with
  | none => rfl
  | some p =>
    dsimp only
    cases lookup Prod.fst object p.2 with
    | none => rfl
    | some q => rfl

/-- Engines that hold the same operations for each triple give the same values. -/
theorem check_congr {other : MojDbPermissionEngine}
    (h : ∀ type object caller, engine.operations type object caller = other.operations type object caller)
    (type object caller op : MojString) :
    engine.check type object caller op = other.check type object caller op := by
  have hcallers : engine.callers type object = other.callers type object :=
    SortedMap.ext fun k => h type object k.name
  rw [check_eq, check_eq, hcallers]

/-! ## Opening -/

/-- The objects of `permissions` in the configuration. -/
def confObjects (conf : MojObject) : List MojObject :=
  match conf.get PermissionsKey with
  | some (.array vs) => vs
  | _ => []

/-- `put` without the object's own put. -/
def load (checkKind : MojString → Except MojErr Unit) (engine : MojDbPermissionEngine) (perms : List MojObject) :
    Except MojErr MojDbPermissionEngine :=
  perms.foldlM (fun engine perm => do
    let p ← permissionOf checkKind perm
    pure (engine.put p)) engine

def configure (checkKind : MojString → Except MojErr Unit) (engine : MojDbPermissionEngine) (conf : MojObject) :
    Except MojErr MojDbPermissionEngine :=
  load checkKind
    { engine with enabled := ((conf.get PermissionsEnabledKey).map MojObject.boolValue).getD engine.enabled }
    (confObjects conf)

section Load

variable {checkKind : MojString → Except MojErr Unit} {engine engine' : MojDbPermissionEngine}
  {perm : MojObject} {perms : List MojObject}

theorem load_cons_eq_ok :
    load checkKind engine (perm :: perms) = .ok engine' ↔
      ∃ p, permissionOf checkKind perm = .ok p ∧ load checkKind (engine.put p) perms = .ok engine' := by
  unfold load
  rw [List.foldlM_cons, bind_eq_ok]
  constructor
  · intro h
    obtain ⟨e, he, hrest⟩ := h
    obtain ⟨p, hp, hput⟩ := bind_eq_ok.mp he
    obtain rfl := pure_eq_ok.mp hput
    exact ⟨p, hp, hrest⟩
  · intro h
    obtain ⟨p, hp, hrest⟩ := h
    exact ⟨engine.put p, bind_eq_ok.mpr ⟨p, hp, rfl⟩, hrest⟩

theorem exists_load (h : ∀ perm ∈ perms, ∃ p, permissionOf checkKind perm = .ok p) :
    ∃ engine', load checkKind engine perms = .ok engine' := by
  induction perms generalizing engine with
  | nil => exact ⟨engine, rfl⟩
  | cons perm perms ih =>
    obtain ⟨p, hp⟩ := h perm List.mem_cons_self
    obtain ⟨engine', hrest⟩ := @ih (engine.put p) fun q hq => h q (List.mem_cons_of_mem _ hq)
    exact ⟨engine', load_cons_eq_ok.mpr ⟨p, hp, hrest⟩⟩

theorem reads_of_load (h : load checkKind engine perms = .ok engine') :
    ∀ perm ∈ perms, ∃ p, permissionOf checkKind perm = .ok p := by
  induction perms generalizing engine with
  | nil => exact List.forall_mem_nil _
  | cons perm perms ih =>
    obtain ⟨p, hp, hrest⟩ := load_cons_eq_ok.mp h
    exact List.forall_mem_cons.mpr ⟨⟨p, hp⟩, ih hrest⟩

/-- The kinds decide whether the permissions are loaded, not what they are. -/
theorem load_anyway (h : load checkKind engine perms = .ok engine') :
    load (fun _ => .ok ()) engine perms = .ok engine' := by
  induction perms generalizing engine with
  | nil => exact h
  | cons perm perms ih =>
    obtain ⟨p, hp, hrest⟩ := load_cons_eq_ok.mp h
    exact load_cons_eq_ok.mpr ⟨p, (permissionOf_eq_ok.mp hp).1, ih hrest⟩

end Load

/-- `open`; `stored` are the objects the query on the permission kind finds. -/
def open_ (checkKind : MojString → Except MojErr Unit) (engine : MojDbPermissionEngine) (conf : MojObject)
    (stored : List MojObject) : Except MojErr MojDbPermissionEngine := do
  let engine ← configure checkKind engine conf
  load checkKind engine stored

end MojDbPermissionEngine

end Db8
