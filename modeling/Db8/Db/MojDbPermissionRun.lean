import Db8.Db.MojDbPermissionEngine
import Db8.Lib.Run

/-!
# Db.MojDbPermissionRun

Runs of requests that change the stored permissions and the kinds, with the engine that holds the permissions
in memory.

* `PermissionReq`, `perform` — one request: a put writes the object and the maps, a delete and the delete of a
  kind only the objects.
* `MatchesReopened`          — the engine gives the values that opening it again would give.
* `Safe`                     — the requests that keep it so.
* `matchesReopened_of_run`   — it is so after a run of such requests.
-/

namespace Db8

open Lib MojDbPermissionEngine

structure OwnedKind where
  id : MojString
  owner : MojString
  deriving DecidableEq

/-- `MojDbKindEngine::checkPermission` for `OpKindUpdate`. -/
def checkPermission (kinds : List OwnedKind) (enabled admin : Bool) (domain id : MojString) : Except MojErr Unit :=
  match kinds.find? fun kind => kind.id = id with
  | none => .error .dbKindNotRegistered
  | some kind => if admin || kind.owner = domain || !enabled then .ok () else .error .dbPermissionDenied

/-- What is committed: the objects of the permission kind that are not deleted, by id, and the kinds. -/
structure PermissionStore where
  perms : SortedMap MojString MojObject
  kinds : List OwnedKind

structure PermissionMemory where
  engine : MojDbPermissionEngine
  kinds : List OwnedKind

namespace PermissionStore

/-- The object as `MojDb::put` finds it. -/
def named (id : MojString) (perm : MojObject) : MojObject :=
  (perm.put MojDb.IdKey (.string id)).put MojDb.KindKey (.string PermissionId)

variable (store : PermissionStore)

/-- The object that is stored after the put. One that has not changed is not written. -/
def kept (id : MojString) (perm : MojObject) (rev : Int64) (ids : Nat → MojString) : MojObject :=
  if store.perms.find id = some (named id perm) then named id perm else MojDb.stamp rev ids (named id perm)

def put (id : MojString) (perm : MojObject) (rev : Int64) (ids : Nat → MojString) : PermissionStore :=
  { store with
    perms :=
      if (store.kept id perm rev ids).isDeleted then store.perms.erase id
      else store.perms.insert id (store.kept id perm rev ids) }

/-- The query `object = id` finds the object. The values of an array are keys of the index one by one. -/
def namesObject (id : MojString) (obj : MojObject) : Bool :=
  match obj.get ObjectKey with
  | some (.array vs) => vs.contains (.string id)
  | some val => val = .string id
  | none => false

def del (ids : List MojString) : PermissionStore :=
  { store with perms := store.perms.filter fun e => !ids.contains e.1 }

def delKind (id : MojString) : PermissionStore :=
  ⟨store.perms.filter fun e => !namesObject id e.2, store.kinds.filter fun kind => kind.id ≠ id⟩

end PermissionStore

/-! ## One request -/

/-- A request under the schema's write lock. `store` is what its transaction sees. -/
structure PermissionReq where
  domain : MojString
  admin : Bool
  memory : PermissionMemory
  store : PermissionStore
  err : Option MojErr

namespace PermissionReq

/-- `begin` is `MojDb::beginReq`, and `put` one turn of `putConfig`. A `failure` is an error of the object
operations; with the one of a delete of a kind comes whether the kind could be loaded again. A delete of many
objects commits midway (`commitBatch`): the rest of such a request is a request of its own. -/
inductive Op where
  | begin
  | put (perm : MojObject) (rev : Int64) (ids : Nat → MojString) (failure : Option MojErr)
  | del (ids : List MojString) (failure : Option MojErr)
  | delKind (id : MojString) (hasSubKinds : Bool) (failure : Option (MojErr × Bool))

/-- `MojDb::RoleType`, `db.role`. -/
def RoleType : MojString := ⟨[100, 98, 46, 114, 111, 108, 101], by decide⟩
/-- `MojDb::AdminRole`, `admin`. -/
def AdminRole : MojString := ⟨[97, 100, 109, 105, 110], by decide⟩
/-- `*`. -/
def WildcardOperation : MojString := MojDbPropExtractor.WildcardKey

variable (r : PermissionReq)

def fail (err : MojErr) : PermissionReq := { r with err := some err }

def begin : PermissionReq :=
  { r with admin := r.admin || r.memory.engine.check RoleType AdminRole r.domain WildcardOperation = .allow }

def checkKind (id : MojString) : Except MojErr Unit :=
  checkPermission r.memory.kinds r.memory.engine.enabled r.admin r.domain id

/-- `MojDbPermissionEngine::put`: the maps are written at once. -/
def put (perm : MojObject) (rev : Int64) (ids : Nat → MojString) (failure : Option MojErr) : PermissionReq :=
  match permissionOf r.checkKind perm, failure with
  | .error err, _ => r.fail err
  | .ok _, some err => r.fail err
  | .ok p, none =>
    { r with
      store := r.store.put (Permission.id p.type p.object p.caller) perm rev ids
      memory := { r.memory with engine := r.memory.engine.put p } }

def forget (id : MojString) : PermissionReq :=
  { r with memory := { r.memory with kinds := r.memory.kinds.filter fun kind => kind.id ≠ id } }

/-- `MojDb::delKind`. A kind that is not stored is left as it is. -/
def delKind (id : MojString) (hasSubKinds : Bool) (failure : Option (MojErr × Bool)) : PermissionReq :=
  match r.memory.kinds.find? fun kind => kind.id = id with
  | none => r.fail .dbKindNotRegistered
  | some kind =>
    if hasSubKinds then r.fail .dbKindHasSubKinds
    else if !(r.admin || kind.owner = r.domain || !r.memory.engine.enabled) then r.fail .dbPermissionDenied
    else if id ∉ r.store.kinds.map OwnedKind.id then r
    else
      match failure with
      | some (err, true) => r.fail err
      | some (err, false) => (r.forget id).fail err
      | none => { r.forget id with store := r.store.delKind id }

def performOp : Op → PermissionReq
  | .begin => r.begin
  | .put perm rev ids failure => r.put perm rev ids failure
  | .del _ (some err) => r.begin.fail err
  | .del ids none => { r.begin with store := r.store.del ids }
  | .delKind id hasSubKinds failure => r.begin.delKind id hasSubKinds failure

/-- After an error nothing more is done. -/
def perform (op : Op) : PermissionReq := if r.err.isSome then r else r.performOp op

end PermissionReq

/-! ## The database -/

/-- `memory` is there while the database is open. `builtin` are the kinds that are registered at every opening. -/
structure PermissionDb where
  conf : MojObject
  builtin : List OwnedKind
  store : PermissionStore
  memory : Option PermissionMemory

namespace PermissionDb

inductive Action where
  | restart
  | request (domain : MojString) (admin : Bool) (ops : List PermissionReq.Op) (commits : Bool)

variable (db : PermissionDb)

/-- The kinds are opened before the permissions, and the request that opens them is an administrator's. -/
def registered (id : MojString) : Except MojErr Unit :=
  checkPermission (db.builtin ++ db.store.kinds) true true .empty id

/-- The query of `MojDbPutHandler::open` finds objects through the index on `_del`, by its value `false`: the flag has
that value, or is absent. -/
def isFound (obj : MojObject) : Bool :=
  match obj.get MojDb.DelKey with
  | none => true
  | some (.array vs) => vs.contains (.bool false)
  | some val => val = .bool false

/-- A new engine, opened on what is committed. -/
def reopened : Except MojErr MojDbPermissionEngine :=
  open_ db.registered ⟨[], true⟩ db.conf ((db.store.perms.entries.map Prod.snd).filter isFound)

def performAll (memory : PermissionMemory) (domain : MojString) (admin : Bool) (ops : List PermissionReq.Op) :
    PermissionReq :=
  run PermissionReq.perform ⟨domain, admin, memory, db.store, none⟩ ops

def step : Action → PermissionDb
  | .restart =>
    match db.reopened with
    | .ok engine => { db with memory := some ⟨engine, db.builtin ++ db.store.kinds⟩ }
    | .error _ => { db with memory := none }
  | .request domain admin ops commits =>
    match db.memory with
    | none => db
    | some memory =>
      let r := db.performAll memory domain admin ops
      { db with memory := some r.memory, store := if commits && r.err.isNone then r.store else db.store }

/-- A database without permissions, before it is opened. -/
def new (conf : MojObject) (builtin kinds : List OwnedKind) : PermissionDb := ⟨conf, builtin, ⟨.empty, kinds⟩, none⟩

/-- For any type, object, caller and operation the engine gives the value that a new one gives. -/
def MatchesReopened : Prop :=
  ∀ memory, db.memory = some memory → ∃ engine, db.reopened = .ok engine ∧
    ∀ type object caller op, memory.engine.check type object caller op = engine.check type object caller op

/-! ## Requests that keep the engine as the store -/

/-- If a permission was read, it meets a condition. -/
def Gives (read : Except MojErr Permission) (C : Permission → Prop) : Prop :=
  match read with
  | .ok p => C p
  | .error _ => True

instance (read : Except MojErr Permission) (C : Permission → Prop) [∀ p, Decidable (C p)] :
    Decidable (Gives read C) :=
  match read with
  | .ok p => inferInstanceAs (Decidable (C p))
  | .error _ => inferInstanceAs (Decidable True)

theorem gives_iff {read : Except MojErr Permission} {C : Permission → Prop} :
    Gives read C ↔ ∀ p, read = .ok p → C p := by
  cases read with
  | error err => simp [Gives]
  | ok p => simp [Gives]

def Reads (obj : MojObject) (C : Permission → Prop) : Prop := Gives (readPermission obj) C

instance (obj : MojObject) (C : Permission → Prop) [∀ p, Decidable (C p)] : Decidable (Reads obj C) :=
  inferInstanceAs (Decidable (Gives _ C))

/-- The operations the configuration gives. -/
def configured (conf : MojObject) (type object caller : MojString) : Option OperationMap :=
  match configure (fun _ => .ok ()) ⟨[], true⟩ conf with
  | .ok engine => engine.operations type object caller
  | .error _ => none

/-- The configuration gives the permission too. -/
def Configured (conf : MojObject) (p : Permission) : Prop :=
  configured conf p.type p.object p.caller = some p.operations

/-- The flag of a deleted object is absent or `false`. -/
def Unflagged (obj : MojObject) : Prop := ∀ del ∈ obj.get MojDb.DelKey, del = .bool false

instance (obj : MojObject) : Decidable (Unflagged obj) :=
  inferInstanceAs (Decidable (∀ del ∈ obj.get MojDb.DelKey, del = .bool false))

def NamesKind (id : MojString) (p : Permission) : Prop := p.type = PermissionType ∧ p.object = id

instance (conf : MojObject) (p : Permission) : Decidable (Configured conf p) :=
  inferInstanceAs (Decidable (_ = _))

instance (id : MojString) (p : Permission) : Decidable (NamesKind id p) :=
  inferInstanceAs (Decidable (_ ∧ _))

/-- What the operation of a request that commits must meet. A permission is stored as an object that is
not flagged and reads as the permission, and not over one of another triple. A stored permission is removed only when the
configuration gives it too, and a kind only when no other permission is on it. -/
def SafeCommitted (r : PermissionReq) : PermissionReq.Op → Prop
  | .begin => True
  | .put perm rev ids _ =>
    Reads perm fun p =>
      Unflagged (r.store.kept (Permission.id p.type p.object p.caller) perm rev ids) ∧
      readPermission (r.store.kept (Permission.id p.type p.object p.caller) perm rev ids) = .ok p ∧
      ∀ old ∈ r.store.perms.find (Permission.id p.type p.object p.caller), Reads old p.Same
  | .del ids _ => ∀ e ∈ r.store.perms.entries, e.1 ∈ ids → Reads e.2 (Configured db.conf)
  | .delKind id _ _ =>
    id ∈ r.store.kinds.map OwnedKind.id →
      (∀ e ∈ r.store.perms.entries, if PermissionStore.namesObject id e.2 then Reads e.2 (Configured db.conf)
        else Reads e.2 fun p => ¬NamesKind id p) ∧
      ∀ obj ∈ confObjects db.conf, Reads obj fun p => ¬NamesKind id p

/-- What the operation of a request that does not commit must meet: the permission it puts is already there. -/
def SafeUncommitted (r : PermissionReq) : PermissionReq.Op → Prop
  | .put perm _ _ none =>
    r.err = none → Gives (permissionOf r.checkKind perm) fun p =>
      r.memory.engine.operations p.type p.object p.caller = some p.operations
  | _ => True

def Safe : Action → Prop
  | .restart => True
  | .request domain admin ops commits =>
    ∀ memory ∈ db.memory,
      if commits && (db.performAll memory domain admin ops).err.isNone then
        Along PermissionReq.perform db.SafeCommitted ⟨domain, admin, memory, db.store, none⟩ ops
      else Along PermissionReq.perform SafeUncommitted ⟨domain, admin, memory, db.store, none⟩ ops

instance (r : PermissionReq) (op : PermissionReq.Op) : Decidable (db.SafeCommitted r op) := by
  unfold SafeCommitted
  cases op <;> infer_instance

instance (r : PermissionReq) (op : PermissionReq.Op) : Decidable (SafeUncommitted r op) := by
  unfold SafeUncommitted
  split <;> infer_instance

instance (a : Action) : Decidable (db.Safe a) := by
  unfold Safe
  cases a <;> infer_instance

/-! ## What the store and the engine hold -/

/-- The operations an object gives to a triple, when it is the permission of that triple. -/
def operationsOf (type object caller : MojString) (obj : MojObject) : Option OperationMap :=
  match readPermission obj with
  | .ok p => if p.type = type ∧ p.object = object ∧ p.caller = caller then some p.operations else none
  | .error _ => none

/-- The operations that opening the database gives to a triple: those stored, or else those configured. -/
def served (type object caller : MojString) : Option OperationMap :=
  ((db.store.perms.find (Permission.id type object caller)).bind (operationsOf type object caller)).or
    (configured db.conf type object caller)

/-- Every stored object is found, and is a permission that can be loaded, under the id of its triple. -/
def Filed : Prop :=
  ∀ e ∈ db.store.perms.entries, Unflagged e.2 ∧ ∃ p, permissionOf db.registered e.2 = .ok p ∧
    e.1 = Permission.id p.type p.object p.caller

/-- The database can be opened again, and the memory holds what it would hold then. -/
structure Serves (memory : PermissionMemory) : Prop where
  conf : ∀ obj ∈ confObjects db.conf, ∃ p, permissionOf db.registered obj = .ok p
  kinds : ∀ kind ∈ memory.kinds, db.registered kind.id = .ok ()
  operations : ∀ type object caller, memory.engine.operations type object caller = db.served type object caller

structure Inv : Prop where
  filed : db.Filed
  serves : ∀ memory ∈ db.memory, db.Serves memory

variable {db} {r : PermissionReq} {p : Permission} {obj : MojObject} {type object caller id : MojString}

theorem operationsOf_of_same (hread : readPermission obj = .ok p)
    (hsame : p.type = type ∧ p.object = object ∧ p.caller = caller) :
    operationsOf type object caller obj = some p.operations := by
  unfold operationsOf
  rw [hread]
  exact if_pos hsame

theorem operationsOf_of_ne (hread : readPermission obj = .ok p)
    (hne : ¬(p.type = type ∧ p.object = object ∧ p.caller = caller)) :
    operationsOf type object caller obj = none := by
  unfold operationsOf
  rw [hread]
  exact if_neg hne

theorem checkPermission_registered {kinds : List OwnedKind} {enabled admin : Bool} {domain : MojString}
    (h : checkPermission kinds enabled admin domain id = .ok ()) : ∃ kind ∈ kinds, kind.id = id := by
  unfold checkPermission at h
  cases hfind : kinds.find? fun kind => kind.id = id with
  | none => simp [hfind] at h
  | some kind => exact ⟨kind, List.mem_of_find?_eq_some hfind, by simpa using List.find?_some hfind⟩

theorem registered_iff : db.registered id = .ok () ↔ ∃ kind ∈ db.builtin ++ db.store.kinds, kind.id = id := by
  constructor
  · exact checkPermission_registered
  · intro h
    obtain ⟨kind, hkind, hid⟩ := h
    unfold registered checkPermission
    cases hfind : (db.builtin ++ db.store.kinds).find? fun kind => kind.id = id with
    | none => exact absurd hid (by simpa using List.find?_eq_none.mp hfind kind hkind)
    | some other => rfl

/-- A kind stays registered when the entries for it stay stored. -/
theorem registered_of_kept (h : db.registered id = .ok ()) {store : PermissionStore}
    (hkept : ∀ kind ∈ db.store.kinds, kind.id = id → kind ∈ store.kinds) :
    { db with store := store }.registered id = .ok () := by
  obtain ⟨kind, hkind, hid⟩ := registered_iff.mp h
  refine registered_iff.mpr ⟨kind, ?_, hid⟩
  cases List.mem_append.mp hkind with
  | inl hbuiltin => exact List.mem_append_left _ hbuiltin
  | inr hstored => exact List.mem_append_right _ (hkept kind hstored hid)

/-! ## Opening again -/

theorem findList_eq_none_of_lt {entries : List (MojString × MojObject)} (h : ∀ e ∈ entries, id < e.1)
    (hsorted : entries.Pairwise fun e f => e.1 < f.1) : SortedMap.findList id entries = none := by
  rw [Option.eq_none_iff_forall_ne_some]
  intro obj hfind
  exact (h (id, obj) ((SortedMap.findList_eq_some hsorted).mp hfind)).false

/-- What an engine holds after the stored objects have been loaded into it. -/
theorem operations_load {checkKind : MojString → Except MojErr Unit} {engine engine' : MojDbPermissionEngine}
    {entries : List (MojString × MojObject)} (hsorted : entries.Pairwise fun e f => e.1 < f.1)
    (hfiled : ∀ e ∈ entries, ∃ p, permissionOf checkKind e.2 = .ok p ∧
      e.1 = Permission.id p.type p.object p.caller)
    (h : load checkKind engine (entries.map Prod.snd) = .ok engine') (type object caller : MojString) :
    engine'.operations type object caller =
      ((SortedMap.findList (Permission.id type object caller) entries).bind
        (operationsOf type object caller)).or (engine.operations type object caller) := by
  induction entries generalizing engine with
  | nil =>
    obtain rfl : engine = engine' := pure_eq_ok.mp h
    rfl
  | cons e entries ih =>
    obtain ⟨id, obj⟩ := e
    obtain ⟨hlt, hsorted⟩ := List.pairwise_cons.mp hsorted
    obtain ⟨⟨q, hq, hid⟩, hfiled⟩ := List.forall_mem_cons.mp hfiled
    obtain ⟨p, hp, hrest⟩ := load_cons_eq_ok.mp h
    obtain rfl : q = p := Except.ok.inj (hq.symm.trans hp)
    have hread := (permissionOf_eq_ok.mp hp).1
    rw [ih hsorted hfiled hrest, operations_put]
    have hnone : id = Permission.id type object caller →
        SortedMap.findList (Permission.id type object caller) entries = none :=
      fun he => findList_eq_none_of_lt (fun f hf => he ▸ hlt f hf) hsorted
    by_cases hsame : q.type = type ∧ q.object = object ∧ q.caller = caller
    · have he : id = Permission.id type object caller := by
        rw [← hsame.1, ← hsame.2.1, ← hsame.2.2]
        exact hid
      rw [hnone he, SortedMap.findList, if_pos he, if_pos hsame, Option.bind_some,
        operationsOf_of_same hread hsame]
      rfl
    · rw [if_neg hsame, SortedMap.findList]
      split_ifs with he
      · rw [hnone he, Option.bind_some, operationsOf_of_ne hread hsame]
        rfl
      · rfl

theorem configured_of_configure {checkKind : MojString → Except MojErr Unit} {conf : MojObject}
    {engine : MojDbPermissionEngine} (h : configure checkKind ⟨[], true⟩ conf = .ok engine)
    (type object caller : MojString) : configured conf type object caller = engine.operations type object caller := by
  unfold configured
  rw [show configure (fun _ => .ok ()) ⟨[], true⟩ conf = .ok engine from load_anyway h]

theorem Unflagged.isFound (h : Unflagged obj) : isFound obj = true := by
  unfold PermissionDb.isFound
  cases hdel : obj.get MojDb.DelKey with
  | none => rfl
  | some del =>
    rw [h del hdel]
    rfl

theorem Unflagged.isDeleted (h : Unflagged obj) : obj.isDeleted = false := by
  unfold MojObject.isDeleted
  cases hdel : obj.get MojDb.DelKey with
  | none => rfl
  | some del =>
    rw [h del hdel]
    rfl

theorem reopened_eq (hfiled : db.Filed) :
    db.reopened = open_ db.registered ⟨[], true⟩ db.conf (db.store.perms.entries.map Prod.snd) := by
  have hall : (db.store.perms.entries.map Prod.snd).filter isFound = db.store.perms.entries.map Prod.snd := by
    refine List.filter_eq_self.mpr fun obj hobj => ?_
    obtain ⟨e, he, rfl⟩ := List.mem_map.mp hobj
    exact (hfiled e he).1.isFound
  rw [reopened, hall]

theorem operations_reopened (hfiled : db.Filed) {engine : MojDbPermissionEngine} (h : db.reopened = .ok engine)
    (type object caller : MojString) :
    engine.operations type object caller = db.served type object caller := by
  rw [reopened_eq hfiled] at h
  obtain ⟨start, hstart, hload⟩ := bind_eq_ok.mp h
  rw [operations_load db.store.perms.sorted (fun e he => (hfiled e he).2) hload, ← configured_of_configure hstart]
  rfl

theorem exists_reopened (hfiled : db.Filed)
    (hconf : ∀ obj ∈ confObjects db.conf, ∃ p, permissionOf db.registered obj = .ok p) :
    ∃ engine, db.reopened = .ok engine := by
  obtain ⟨start, hstart⟩ := exists_load hconf
  have hstored : ∀ obj ∈ db.store.perms.entries.map Prod.snd, ∃ p, permissionOf db.registered obj = .ok p := by
    intro obj hobj
    obtain ⟨e, he, rfl⟩ := List.mem_map.mp hobj
    obtain ⟨-, p, hp, -⟩ := hfiled e he
    exact ⟨p, hp⟩
  obtain ⟨engine, hload⟩ := exists_load hstored
  rw [reopened_eq hfiled]
  exact ⟨engine, bind_eq_ok.mpr ⟨start, hstart, hload⟩⟩

theorem Inv.matchesReopened (h : db.Inv) : db.MatchesReopened := by
  intro memory hmemory
  have hserves := h.serves memory hmemory
  obtain ⟨engine, hengine⟩ := exists_reopened h.filed hserves.conf
  refine ⟨engine, hengine, check_congr fun type object caller => ?_⟩
  rw [hserves.operations, operations_reopened h.filed hengine]

theorem inv_restart (h : db.Inv) : (db.step .restart).Inv := by
  unfold step
  cases hreopened : db.reopened with
  | error err => exact ⟨h.filed, fun memory hmemory => nomatch hmemory⟩
  | ok engine =>
    refine ⟨h.filed, fun memory hmemory => ?_⟩
    obtain rfl := Option.some.inj hmemory
    obtain ⟨start, hstart, -⟩ := bind_eq_ok.mp hreopened
    exact ⟨reads_of_load hstart, fun kind hkind => registered_iff.mpr ⟨kind, hkind, rfl⟩,
      operations_reopened h.filed hreopened⟩

/-! ## The steps of a request -/

/-- The database as the request sees it. -/
def during (db : PermissionDb) (r : PermissionReq) : PermissionDb :=
  { db with store := r.store, memory := some r.memory }

theorem filed_of_permissionOf {checkKind : MojString → Except MojErr Unit} {e : MojString × MojObject}
    (h : ∃ p, permissionOf checkKind e.2 = .ok p ∧ e.1 = Permission.id p.type p.object p.caller)
    {checkKind' : MojString → Except MojErr Unit}
    (hkinds : ∀ p, readPermission e.2 = .ok p → p.type = PermissionType → checkKind p.object = .ok () →
      checkKind' p.object = .ok ()) :
    ∃ p, permissionOf checkKind' e.2 = .ok p ∧ e.1 = Permission.id p.type p.object p.caller := by
  obtain ⟨p, hp, hid⟩ := h
  obtain ⟨hread, hkind⟩ := permissionOf_eq_ok.mp hp
  exact ⟨p, permissionOf_eq_ok.mpr ⟨hread, fun ht => hkinds p hread ht (hkind ht)⟩, hid⟩

/-- Objects whose permissions are configured too may be taken out of the store. -/
theorem served_filter {keep : MojString × MojObject → Bool} {perms : SortedMap MojString MojObject}
    (hperms : perms = db.store.perms.filter keep) {kinds : List OwnedKind}
    (h : ∀ e ∈ db.store.perms.entries, keep e = false → Reads e.2 (Configured db.conf))
    (type object caller : MojString) :
    { db with store := ⟨perms, kinds⟩ }.served type object caller = db.served type object caller := by
  subst hperms
  unfold served
  cases hfind : db.store.perms.find (Permission.id type object caller) with
  | none =>
    have hnone : (db.store.perms.filter keep).find (Permission.id type object caller) = none := by
      rw [SortedMap.find_filter_of_keep fun v hv => by rw [hfind] at hv; cases hv]
      exact hfind
    rw [hnone]
  | some obj =>
    cases hkeep : keep (Permission.id type object caller, obj) with
    | true =>
      have hsame : (db.store.perms.filter keep).find (Permission.id type object caller) = some obj :=
        SortedMap.find_filter_eq_some.mpr ⟨hfind, hkeep⟩
      rw [hsame]
    | false =>
      have hnone : (db.store.perms.filter keep).find (Permission.id type object caller) = none := by
        rw [Option.eq_none_iff_forall_ne_some]
        intro v hv
        obtain ⟨hv, hk⟩ := SortedMap.find_filter_eq_some.mp hv
        obtain rfl := Option.some.inj (hfind.symm.trans hv)
        exact absurd hk (by simp [hkeep])
      rw [hnone, Option.bind_some]
      unfold operationsOf
      cases hread : readPermission obj with
      | error err => rfl
      | ok p =>
        have hgives := gives_iff.mp (h _ (SortedMap.mem_entries.mpr hfind) hkeep) p hread
        dsimp only
        split_ifs with hsame
        · obtain ⟨rfl, rfl, rfl⟩ := hsame
          exact hgives
        · rfl

/-- What the put of a permission does to what is served. -/
theorem served_put (hread : readPermission obj = .ok p)
    (hold : ∀ old ∈ db.store.perms.find (Permission.id p.type p.object p.caller), Reads old p.Same)
    (type object caller : MojString) :
    { db with store := { db.store with
        perms := db.store.perms.insert (Permission.id p.type p.object p.caller) obj } }.served type object caller =
      if p.type = type ∧ p.object = object ∧ p.caller = caller then some p.operations
      else db.served type object caller := by
  unfold served
  rw [SortedMap.find_insert]
  by_cases hsame : p.type = type ∧ p.object = object ∧ p.caller = caller
  · rw [if_pos hsame]
    obtain ⟨rfl, rfl, rfl⟩ := hsame
    rw [if_pos rfl, Option.bind_some, operationsOf_of_same hread ⟨rfl, rfl, rfl⟩]
    rfl
  · rw [if_neg hsame]
    split_ifs with hid
    · rw [hid, Option.bind_some, operationsOf_of_ne hread hsame]
      -- what was under that id is no permission of this triple either
      cases hfind : db.store.perms.find (Permission.id p.type p.object p.caller) with
      | none => rfl
      | some old =>
        rw [Option.bind_some]
        cases hq : readPermission old with
        | error err => simp [operationsOf, hq]
        | ok q =>
          obtain ⟨htype, hobject, hcaller⟩ := gives_iff.mp (hold old hfind) q hq
          rw [operationsOf_of_ne hq]
          intro hs
          exact hsame ⟨htype.trans hs.1, hobject.trans hs.2.1, hcaller.trans hs.2.2⟩
    · rfl

section Committed

variable {memory : PermissionMemory}

theorem inv_store_put (h : db.Inv) (hmemory : db.memory = some memory) (hflag : Unflagged obj)
    (hread : readPermission obj = .ok p)
    (hkind : p.type = PermissionType → db.registered p.object = .ok ())
    (hold : ∀ old ∈ db.store.perms.find (Permission.id p.type p.object p.caller), Reads old p.Same) :
    Inv { db with
      store := { db.store with perms := db.store.perms.insert (Permission.id p.type p.object p.caller) obj }
      memory := some { memory with engine := memory.engine.put p } } := by
  have hserves := h.serves memory hmemory
  refine ⟨?_, fun m hm => ?_⟩
  · intro e he
    obtain ⟨id, val⟩ := e
    have hfind := SortedMap.mem_entries.mp he
    rw [SortedMap.find_insert] at hfind
    split_ifs at hfind with hid
    · obtain rfl := Option.some.inj hfind
      exact ⟨hflag, p, permissionOf_eq_ok.mpr ⟨hread, hkind⟩, hid⟩
    · exact h.filed (id, val) (SortedMap.mem_entries.mpr hfind)
  · obtain rfl := Option.some.inj hm
    refine ⟨hserves.conf, hserves.kinds, fun type object caller => ?_⟩
    rw [operations_put, hserves.operations]
    exact (served_put hread hold type object caller).symm

theorem inv_store_filter (h : db.Inv) (hmemory : db.memory = some memory) {keep : MojString × MojObject → Bool}
    {kinds kinds' : List OwnedKind}
    (hremoved : ∀ e ∈ db.store.perms.entries, keep e = false → Reads e.2 (Configured db.conf))
    (hkept : ∀ e ∈ db.store.perms.entries, keep e = true → Reads e.2 fun p =>
      p.type = PermissionType → ∀ kind ∈ db.store.kinds, kind.id = p.object → kind ∈ kinds)
    (hconf : ∀ obj ∈ confObjects db.conf, Reads obj fun p =>
      p.type = PermissionType → ∀ kind ∈ db.store.kinds, kind.id = p.object → kind ∈ kinds)
    (hkinds : ∀ kind ∈ kinds', kind ∈ memory.kinds ∧
      ∀ other ∈ db.store.kinds, other.id = kind.id → other ∈ kinds) :
    Inv { db with
      store := ⟨db.store.perms.filter keep, kinds⟩
      memory := some { memory with kinds := kinds' } } := by
  have hserves := h.serves memory hmemory
  refine ⟨?_, fun m hm => ?_⟩
  · intro e he
    obtain ⟨he, hkeep⟩ := List.mem_filter.mp he
    obtain ⟨hflag, hfiled⟩ := h.filed e he
    exact ⟨hflag, filed_of_permissionOf hfiled fun p hread ht hreg =>
      registered_of_kept hreg (gives_iff.mp (hkept e he hkeep) p hread ht)⟩
  · obtain rfl := Option.some.inj hm
    refine ⟨fun obj hobj => ?_, fun kind hkind => ?_, fun type object caller => ?_⟩
    · obtain ⟨p, hp⟩ := hserves.conf obj hobj
      obtain ⟨hread, hreg⟩ := permissionOf_eq_ok.mp hp
      exact ⟨p, permissionOf_eq_ok.mpr ⟨hread, fun ht =>
        registered_of_kept (hreg ht) (gives_iff.mp (hconf obj hobj) p hread ht)⟩⟩
    · obtain ⟨hkind, hstays⟩ := hkinds kind hkind
      exact registered_of_kept (hserves.kinds kind hkind) hstays
    · rw [hserves.operations]
      exact (served_filter rfl hremoved type object caller).symm

end Committed

open PermissionReq

/-- How a put that throws nothing goes. -/
theorem put_eq {perm : MojObject} {rev : Int64} {ids : Nat → MojString} {failure : Option MojErr}
    (hok : (r.put perm rev ids failure).err = none) :
    ∃ p, permissionOf r.checkKind perm = .ok p ∧
      r.put perm rev ids failure = { r with
        store := r.store.put (Permission.id p.type p.object p.caller) perm rev ids
        memory := { r.memory with engine := r.memory.engine.put p } } := by
  unfold PermissionReq.put at hok ⊢
  cases hread : permissionOf r.checkKind perm with
  | error err => simp [hread, PermissionReq.fail] at hok
  | ok p =>
    cases failure with
    | some err => simp [hread, PermissionReq.fail] at hok
    | none => exact ⟨p, rfl, rfl⟩

/-- How the delete of a kind that throws nothing goes. -/
theorem delKind_cases {hasSubKinds : Bool} {failure : Option (MojErr × Bool)}
    (hok : (r.delKind id hasSubKinds failure).err = none) :
    r.delKind id hasSubKinds failure = r ∨
    (id ∈ r.store.kinds.map OwnedKind.id ∧
      r.delKind id hasSubKinds failure = { r.forget id with store := r.store.delKind id }) := by
  unfold PermissionReq.delKind at hok ⊢
  cases hfind : r.memory.kinds.find? fun kind => kind.id = id with
  | none => simp [hfind, PermissionReq.fail] at hok
  | some kind =>
    simp only [hfind] at hok ⊢
    split_ifs at hok ⊢ with hsub hdeny hstored
    · simp [PermissionReq.fail] at hok
    · simp [PermissionReq.fail] at hok
    · cases failure with
      | none => exact .inr ⟨hstored, rfl⟩
      | some f =>
        obtain ⟨err, reloaded⟩ := f
        cases reloaded with
        | true => simp [PermissionReq.fail] at hok
        | false => simp [PermissionReq.fail] at hok
    · exact .inl rfl

theorem inv_put {perm : MojObject} {rev : Int64} {ids : Nat → MojString} {failure : Option MojErr}
    (h : (db.during r).Inv) (hsafe : db.SafeCommitted r (.put perm rev ids failure))
    (hok : (r.put perm rev ids failure).err = none) : (db.during (r.put perm rev ids failure)).Inv := by
  obtain ⟨p, hp, heq⟩ := put_eq hok
  obtain ⟨hread, hkind⟩ := permissionOf_eq_ok.mp hp
  obtain ⟨hflag, hkept, hold⟩ := gives_iff.mp hsafe p hread
  have hput : r.store.put (Permission.id p.type p.object p.caller) perm rev ids =
      { r.store with
        perms := r.store.perms.insert (Permission.id p.type p.object p.caller)
          (r.store.kept (Permission.id p.type p.object p.caller) perm rev ids) } := by
    unfold PermissionStore.put
    rw [if_neg (by simp [hflag.isDeleted])]
  rw [heq, hput]
  refine inv_store_put h rfl hflag hkept (fun ht => ?_) hold
  obtain ⟨kind, hmem, hid⟩ := checkPermission_registered (hkind ht)
  exact hid ▸ (h.serves r.memory rfl).kinds kind hmem

theorem inv_del {ids : List MojString} (h : (db.during r).Inv) (hsafe : db.SafeCommitted r (.del ids none)) :
    (db.during { r.begin with store := r.store.del ids }).Inv := by
  refine inv_store_filter h rfl (fun e he hkeep => hsafe e he ?_) (fun e he hkeep => ?_) (fun obj hobj => ?_)
    fun kind hkind => ?_
  · simpa using hkeep
  · exact gives_iff.mpr fun p _ _ kind hkind _ => hkind
  · exact gives_iff.mpr fun p _ _ kind hkind _ => hkind
  · exact ⟨hkind, fun other hother _ => hother⟩

theorem inv_delKind {hasSubKinds : Bool} {failure : Option (MojErr × Bool)} (h : (db.during r).Inv)
    (hsafe : db.SafeCommitted r (.delKind id hasSubKinds failure))
    (hok : (r.delKind id hasSubKinds failure).err = none) : (db.during (r.delKind id hasSubKinds failure)).Inv := by
  cases delKind_cases hok with
  | inl heq =>
    rw [heq]
    exact h
  | inr hdel =>
    obtain ⟨hstored, heq⟩ := hdel
    obtain ⟨hperms, hconf⟩ := hsafe hstored
    rw [heq]
    have hstays : ∀ object, object ≠ id → ∀ kind ∈ r.store.kinds, kind.id = object →
        kind ∈ r.store.kinds.filter fun kind => kind.id ≠ id := by
      intro object hne kind hkind hid
      exact List.mem_filter.mpr ⟨hkind, by simpa [hid] using hne⟩
    refine inv_store_filter h rfl (fun e he hkeep => ?_) (fun e he hkeep => ?_) (fun obj hobj => ?_)
      fun kind hkind => ?_
    · have hreads := hperms e he
      rwa [if_pos (by simpa using hkeep)] at hreads
    · have hreads := hperms e he
      rw [if_neg (by simpa using hkeep)] at hreads
      exact gives_iff.mpr fun p hread ht => hstays p.object fun hid => gives_iff.mp hreads p hread ⟨ht, hid⟩
    · exact gives_iff.mpr fun p hread ht =>
        hstays p.object fun hid => gives_iff.mp (hconf obj hobj) p hread ⟨ht, hid⟩
    · obtain ⟨hkind, hne⟩ := List.mem_filter.mp hkind
      exact ⟨hkind, fun other hother hid => hstays kind.id (by simpa using hne) other hother hid⟩

theorem inv_perform_committed {op : Op} (h : (db.during r).Inv) (hsafe : db.SafeCommitted r op)
    (hok : (r.performOp op).err = none) : (db.during (r.performOp op)).Inv := by
  cases op with
  | begin => exact h
  | put perm rev ids failure => exact inv_put h hsafe hok
  | del ids failure =>
    cases failure with
    | some err => cases hok
    | none => exact inv_del h hsafe
  | delKind id hasSubKinds failure => exact inv_delKind (r := r.begin) h hsafe hok

theorem memory_put (r : PermissionReq) (perm : MojObject) (rev : Int64) (ids : Nat → MojString) (failure : Option MojErr) :
    (r.put perm rev ids failure).memory = r.memory ∨
    ∃ p, failure = none ∧ permissionOf r.checkKind perm = .ok p ∧
      (r.put perm rev ids failure).memory = { r.memory with engine := r.memory.engine.put p } := by
  unfold PermissionReq.put
  cases hread : permissionOf r.checkKind perm with
  | error err => exact .inl rfl
  | ok p =>
    cases failure with
    | some err => exact .inl rfl
    | none => exact .inr ⟨p, rfl, rfl, rfl⟩

theorem memory_delKind (r : PermissionReq) (id : MojString) (hasSubKinds : Bool) (failure : Option (MojErr × Bool)) :
    (r.delKind id hasSubKinds failure).memory = r.memory ∨
    (r.delKind id hasSubKinds failure).memory = (r.forget id).memory := by
  unfold PermissionReq.delKind
  cases hfind : r.memory.kinds.find? fun kind => kind.id = id with
  | none => exact .inl rfl
  | some kind =>
    dsimp only
    split_ifs with hsub hdeny hstored
    · exact .inl rfl
    · exact .inl rfl
    · cases failure with
      | none => exact .inr rfl
      | some f =>
        obtain ⟨err, reloaded⟩ := f
        cases reloaded with
        | true => exact .inl rfl
        | false => exact .inr rfl
    · exact .inl rfl

/-- What an operation can do to the memory, whether it throws or not. -/
theorem memory_performOp (op : Op) :
    (r.performOp op).memory = r.memory ∨ (∃ id, (r.performOp op).memory = (r.forget id).memory) ∨
    ∃ perm rev ids p, op = .put perm rev ids none ∧ permissionOf r.checkKind perm = .ok p ∧
      (r.performOp op).memory = { r.memory with engine := r.memory.engine.put p } := by
  cases op with
  | begin => exact .inl rfl
  | put perm rev ids failure =>
    cases memory_put r perm rev ids failure with
    | inl heq => exact .inl heq
    | inr hput =>
      obtain ⟨p, rfl, hread, heq⟩ := hput
      exact .inr (.inr ⟨perm, rev, ids, p, rfl, hread, heq⟩)
  | del ids failure =>
    cases failure with
    | some err => exact .inl rfl
    | none => exact .inl rfl
  | delKind id hasSubKinds failure =>
    cases memory_delKind r.begin id hasSubKinds failure with
    | inl heq => exact .inl heq
    | inr heq => exact .inr (.inl ⟨id, heq⟩)

/-- Without a commit the store is as before. The maps are too, and there may be fewer kinds. -/
theorem inv_perform_uncommitted {op : Op} (h : Inv { db with memory := some r.memory }) (herr : r.err = none)
    (hsafe : SafeUncommitted r op) : Inv { db with memory := some (r.performOp op).memory } := by
  have hserves := h.serves r.memory rfl
  obtain heq | ⟨id, heq⟩ | ⟨perm, rev, ids, p, rfl, hread, heq⟩ := memory_performOp op
  · rw [heq]
    exact h
  · rw [heq]
    refine ⟨h.filed, fun memory hmemory => ?_⟩
    obtain rfl := Option.some.inj hmemory
    exact ⟨hserves.conf, fun kind hkind => hserves.kinds kind (List.mem_filter.mp hkind).1, hserves.operations⟩
  · rw [heq]
    refine ⟨h.filed, fun memory hmemory => ?_⟩
    obtain rfl := Option.some.inj hmemory
    have hsame := gives_iff.mp (hsafe herr) p hread
    refine ⟨hserves.conf, hserves.kinds, fun type object caller => ?_⟩
    rw [operations_put]
    split_ifs with htriple
    · obtain ⟨rfl, rfl, rfl⟩ := htriple
      exact hsame.symm.trans (hserves.operations _ _ _)
    · exact hserves.operations type object caller

/-! ## Runs -/

theorem err_of_run (ops : List Op) (h : (run PermissionReq.perform r ops).err = none) : r.err = none := by
  induction ops generalizing r with
  | nil => exact h
  | cons op ops ih =>
    by_contra herr
    have hsame : r.perform op = r := if_pos (Option.isSome_iff_ne_none.mpr herr)
    exact herr (hsame ▸ ih h)

theorem perform_of_err_none (herr : r.err = none) (op : Op) : r.perform op = r.performOp op :=
  if_neg (by simp [herr])

theorem inv_run_committed {ops : List Op} (h : (db.during r).Inv)
    (hsafe : Along PermissionReq.perform db.SafeCommitted r ops)
    (hok : (run PermissionReq.perform r ops).err = none) : (db.during (run PermissionReq.perform r ops)).Inv := by
  induction ops generalizing r with
  | nil => exact h
  | cons op ops ih =>
    have hperform := perform_of_err_none (err_of_run (op :: ops) hok) op
    refine ih ?_ hsafe.2 hok
    rw [hperform]
    exact inv_perform_committed h hsafe.1 (hperform ▸ err_of_run ops hok)

theorem inv_run_uncommitted {ops : List Op} (h : Inv { db with memory := some r.memory })
    (hsafe : Along PermissionReq.perform SafeUncommitted r ops) :
    Inv { db with memory := some (run PermissionReq.perform r ops).memory } := by
  refine Along.invariant (fun r => Inv { db with memory := some r.memory }) (fun r op h hsafe => ?_) h hsafe
  by_cases herr : r.err = none
  · rw [perform_of_err_none herr]
    exact inv_perform_uncommitted h herr hsafe
  · rw [show r.perform op = r from if_pos (Option.isSome_iff_ne_none.mpr herr)]
    exact h

theorem inv_step (db : PermissionDb) (a : Action) (h : db.Inv) (hsafe : db.Safe a) : (db.step a).Inv := by
  cases a with
  | restart => exact inv_restart h
  | request domain admin ops commits =>
    unfold step
    cases hmemory : db.memory with
    | none =>
      dsimp only
      exact h
    | some memory =>
      have hrun := hsafe memory hmemory
      have hstart : Inv { db with memory := some memory } := hmemory ▸ h
      dsimp only
      split_ifs at hrun ⊢ with hcommits
      · have hok : (db.performAll memory domain admin ops).err = none := by
          simp only [Bool.and_eq_true, Option.isNone_iff_eq_none] at hcommits
          exact hcommits.2
        exact inv_run_committed (r := ⟨domain, admin, memory, db.store, none⟩) hstart hrun hok
      · exact inv_run_uncommitted (r := ⟨domain, admin, memory, db.store, none⟩) hstart hrun

/-- After a run of such requests and of openings, the engine gives the values of one that is opened on what is
committed. -/
theorem matchesReopened_of_run (conf : MojObject) (builtin kinds : List OwnedKind) (acts : List Action)
    (h : Along step Safe (new conf builtin kinds) acts) : (run step (new conf builtin kinds) acts).MatchesReopened := by
  have hnew : (new conf builtin kinds).Inv :=
    ⟨fun e he => (nomatch he), fun memory hmemory => (nomatch hmemory)⟩
  exact (Along.invariant Inv inv_step hnew h).matchesReopened

/-- `aa`. -/
def typeA : MojString := ⟨[97, 97], by decide⟩
/-- `aa-bb`. -/
def typeAB : MojString := ⟨[97, 97, 45, 98, 98], by decide⟩
/-- `bb:1`. -/
def objectB : MojString := ⟨[98, 98, 58, 49], by decide⟩
/-- `bb-bb:1`. -/
def objectBB : MojString := ⟨[98, 98, 45, 98, 98, 58, 49], by decide⟩
/-- `cc`. -/
def callerC : MojString := ⟨[99, 99], by decide⟩
/-- `rd`. -/
def opRead : MojString := ⟨[114, 100], by decide⟩

def permissionFor (type object : MojString) : MojObject :=
  .object [(CallerKey, .string callerC), (ObjectKey, .string object),
    (OperationsKey, .object [(opRead, .string AllowKey)]), (TypeKey, .string type)]

def requestOf (ops : List Op) (commits : Bool) : Action := .request .empty true ops commits

def putOf (type object : MojString) : Op := .put (permissionFor type object) 1 (fun _ => .empty) none

/-- The permission is stored, and the database is closed and opened. -/
theorem matchesReopened_put :
    (run step (new (.object []) [] [])
      [.restart, requestOf [.begin, putOf typeA objectB] true, .restart]).MatchesReopened :=
  matchesReopened_of_run _ _ _ _ (by decide)

theorem not_matchesReopened (type object caller op : MojString)
    (h : ∃ memory engine, db.memory = some memory ∧ db.reopened = .ok engine ∧
      memory.engine.check type object caller op ≠ engine.check type object caller op) : ¬db.MatchesReopened := by
  intro hmatches
  obtain ⟨memory, engine, hmemory, hengine, hne⟩ := h
  obtain ⟨other, hother, hsame⟩ := hmatches memory hmemory
  obtain rfl := Except.ok.inj (hengine.symm.trans hother)
  exact hne (hsame type object caller op)

/-- A put that is not committed, the delete of a stored permission, the delete of the kind a permission is on,
and the puts of two permissions with one id. -/
theorem matchesReopened_fails :
    ¬(run step (new (.object []) [] []) [.restart, requestOf [.begin, putOf typeA objectB] false]).MatchesReopened ∧
    ¬(run step (new (.object []) [] []) [.restart, requestOf [.begin, putOf typeA objectB] true,
      requestOf [.del [Permission.id typeA objectB callerC] none] true]).MatchesReopened ∧
    ¬(run step (new (.object []) [] [⟨objectB, .empty⟩]) [.restart, requestOf [.begin, putOf typeA objectB] true,
      requestOf [.delKind objectB false none] true]).MatchesReopened ∧
    ¬(run step (new (.object []) [] []) [.restart, requestOf [.begin, putOf typeAB objectB] true,
      requestOf [.begin, putOf typeA objectBB] true]).MatchesReopened := by
  refine ⟨?_, ?_, ?_, ?_⟩
  · exact not_matchesReopened typeA objectB callerC opRead ⟨_, _, rfl, rfl, by decide⟩
  · exact not_matchesReopened typeA objectB callerC opRead ⟨_, _, rfl, rfl, by decide⟩
  · exact not_matchesReopened typeA objectB callerC opRead ⟨_, _, rfl, rfl, by decide⟩
  · exact not_matchesReopened typeAB objectB callerC opRead ⟨_, _, rfl, rfl, by decide⟩

end PermissionDb

end Db8
