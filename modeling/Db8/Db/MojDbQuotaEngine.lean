import Db8.Core.MojErr
import Db8.Core.MojObject
import Db8.Lib.Ledger
import Db8.Lib.Run

/-!
# Db.MojDbQuotaEngine

The quota engine: how much the kinds store, how much each quota has been charged, and what a
transaction that is still open will add.

* `quotaForKind`        — the quota of a kind: that of a kind it extends, or one that matches its owner.
* `MojDbStorageTxn`     — the offsets of a transaction, one for each kind it has touched.
* `commitImpl`, `finish` — the two halves of a commit: offsets go to the usage database with the first and to
  the quotas with the second.
* `finish_exact_iff`    — what a commit that puts quotas or changes kinds leaves in the quotas is what `refresh`
  would compute, unless it refreshes before its own offsets are applied.
-/

namespace Db8

open Lib

namespace MojDbQuotaEngine

/-- A kind with the kinds it extends. -/
inductive Kind where
  | mk (id owner : MojString) (supers : List Kind)

namespace Kind

def id : Kind → MojString
  | mk id _ _ => id

end Kind

/-- `"Object:1"`. -/
def RootKindId : MojString := ⟨[79, 98, 106, 101, 99, 116, 58, 49], by decide⟩

/-- `'*'`. -/
def wildcard : MojByte := 42

def matchWildcard (expr val : MojString) : Bool :=
  expr.chars.getLast? = some wildcard ∧ val.chars.length ≥ expr.chars.length - 1 ∧
    val.chars.take (expr.chars.length - 1) = expr.chars.dropLast

/-- The quota of an owner: its own, or the first that matches, the longest owners being first. -/
def quotaForOwner (owners : List MojString) (owner : MojString) : Option MojString :=
  if owner ∈ owners then some owner else owners.find? (matchWildcard · owner)

mutual
/-- A quota is known by its owner. -/
def quotaForKind (owners : List MojString) : Kind → Option MojString
  | .mk _ owner supers =>
    match quotaForSupers owners supers with
    | some quota => some quota
    | none => quotaForOwner owners owner

/-- The first super kind that has a quota; that of the root kind is not inherited. -/
def quotaForSupers (owners : List MojString) : List Kind → Option MojString
  | [] => none
  | kind :: supers =>
    if kind.id ≠ RootKindId then
      match quotaForKind owners kind with
      | some quota => some quota
      | none => quotaForSupers owners supers
    else quotaForSupers owners supers
end

/-- `KindMap`: no two kinds have the same id. -/
structure KindMap where
  kinds : List Kind
  nodup : (kinds.map Kind.id).Nodup

structure Quota where
  owner : MojString
  size : Int
  usage : Int
  deriving DecidableEq

/-- `LengthComp`: longer owners are first. -/
def lengthComp (val1 val2 : MojString) : Ordering :=
  if val1.chars.length = val2.chars.length then val1.compare val2
  else Ord.compare val2.chars.length val1.chars.length

def Quota.available (quota : Quota) : Int :=
  if quota.size - quota.usage < 0 then 0 else quota.size - quota.usage

structure Offset where
  kindId : MojString
  offset : Int
  quota : Option MojString
  deriving DecidableEq

end MojDbQuotaEngine

open MojDbQuotaEngine

/-- The kind map, `m_quotas` in their order, and the usage database; a kind without a record there has
used nothing. -/
structure MojDbQuotaEngine where
  kindMap : KindMap
  quotas : List Quota
  usageDb : MojString → Int

/-- What a transaction keeps for the quota engine: `m_offsetMap`, the kind `m_curQuotaOffset` belongs to,
the quotas that are to be put after the commit, and `m_refreshQuotas`. `exclusive` is the schema lock. -/
structure MojDbStorageTxn where
  exclusive : Bool
  offsetMap : List Offset
  cur : Option MojString
  quotaPuts : List (MojString × Int)
  refreshQuotas : Bool

namespace MojDbQuotaEngine

def owners (engine : MojDbQuotaEngine) : List MojString := engine.quotas.map Quota.owner

/-- `Quota::offset` of the quota of an owner. -/
def chargeQuota (owner : MojString) (offset : Int) (quotas : List Quota) : List Quota :=
  quotas.map fun quota => if quota.owner = owner then { quota with usage := quota.usage + offset } else quota

/-- `refresh`: all quotas are zeroed and then charged with what their kinds have used. -/
def refresh (engine : MojDbQuotaEngine) : MojDbQuotaEngine :=
  { engine with
    quotas := engine.kindMap.kinds.foldl
      (fun quotas kind =>
        match quotaForKind (quotas.map Quota.owner) kind with
        | none => quotas
        | some owner => chargeQuota owner (engine.usageDb kind.id) quotas)
      (engine.quotas.map fun quota => { quota with usage := 0 }) }

/-- `curKind`: a kind that has no quota any more keeps the one it had. -/
def curKind (engine : MojDbQuotaEngine) (kind : Kind) (txn : MojDbStorageTxn) : MojDbStorageTxn :=
  let offset := (lookup Offset.kindId kind.id txn.offsetMap).getD ⟨kind.id, 0, none⟩
  let quota := (quotaForKind engine.owners kind).or offset.quota
  { txn with offsetMap := upsert Offset.kindId { offset with quota } txn.offsetMap, cur := some kind.id }

/-- `Offset::apply`. -/
def applyOffset (engine : MojDbQuotaEngine) (o : Offset) (offset : Int) : Except MojErr Offset :=
  let newOffset := o.offset + offset
  match o.quota.bind (lookup Quota.owner · engine.quotas) with
  | some quota => if newOffset > quota.available then .error .dbQuotaExceeded else .ok { o with offset := newOffset }
  | none => .ok { o with offset := newOffset }

/-- `MojDbStorageTxn::offsetQuota`. -/
def offsetQuota (engine : MojDbQuotaEngine) (offset : Int) (txn : MojDbStorageTxn) :
    Except MojErr MojDbStorageTxn :=
  match txn.cur.bind (lookup Offset.kindId · txn.offsetMap) with
  | none => .ok txn
  | some o => do
    let o ← engine.applyOffset o offset
    return { txn with offsetMap := upsert Offset.kindId o txn.offsetMap }

/-! ## Commit -/

/-- `applyOffset`: the records of the usage database that a transaction has in its buffer, each the value that it has
read with its offset added. -/
def usagePuts (offsetMap : List Offset) (read : List Int) : List (MojString × Int) :=
  List.zipWith (fun o usage => (o.kindId, usage + o.offset)) offsetMap read

/-- `commitImpl`: the buffer is written over what is in the usage database now. -/
def commitImpl (engine : MojDbQuotaEngine) (puts : List (MojString × Int)) : MojDbQuotaEngine :=
  { engine with usageDb := Ledger.write engine.usageDb puts }

/-- A quota that is new takes its place in the order. -/
def putQuota (owner : MojString) (size : Int) (quotas : List Quota) : List Quota :=
  if owner ∈ quotas.map Quota.owner then
    quotas.map fun quota => if quota.owner = owner then { quota with size } else quota
  else
    quotas.takeWhile (fun quota => lengthComp quota.owner owner = .lt) ++
      ⟨owner, size, 0⟩ :: quotas.dropWhile (fun quota => lengthComp quota.owner owner = .lt)

/-- `commitQuota` of an open engine. -/
def commitQuota (engine : MojDbQuotaEngine) (put : MojString × Int) : MojDbQuotaEngine :=
  refresh { engine with quotas := putQuota put.1 put.2 engine.quotas }

def applyQuota (engine : MojDbQuotaEngine) (offsetMap : List Offset) : MojDbQuotaEngine :=
  { engine with
    quotas := offsetMap.foldl
      (fun quotas o =>
        match o.quota with
        | none => quotas
        | some owner => chargeQuota owner o.offset quotas)
      engine.quotas }

/-- `MojDbStorageTxn::commit` behind `commitImpl`: the slots that put quotas, then `applyQuota`. A transaction that has
touched no kind has no quota engine. -/
def finish (engine : MojDbQuotaEngine) (txn : MojDbStorageTxn) : MojDbQuotaEngine :=
  let engine := txn.quotaPuts.foldl commitQuota engine
  if txn.offsetMap = [] then engine
  else
    let engine := engine.applyQuota txn.offsetMap
    if txn.refreshQuotas then engine.refresh else engine

/-! ## What the quotas ought to hold -/

/-- What the kinds of a quota have stored. -/
def total (engine : MojDbQuotaEngine) (owner : MojString) : Int :=
  Ledger.total engine.kindMap.kinds Kind.id (quotaForKind engine.owners) engine.usageDb owner

/-- The quotas hold what `refresh` would compute. -/
abbrev Exact (engine : MojDbQuotaEngine) : Prop := ∀ quota ∈ engine.quotas, quota.usage = engine.total quota.owner

/-- The quotas hold what `refresh` would compute, less what is still to be charged to them. -/
def Owed (engine : MojDbQuotaEngine) (pending : MojString → Int) : Prop :=
  ∀ quota ∈ engine.quotas, quota.usage + pending quota.owner = engine.total quota.owner

/-- What the offsets of a transaction charge to a quota. -/
def charged (offsetMap : List Offset) (owner : MojString) : Int :=
  (offsetMap.map fun o => if o.quota = some owner then o.offset else 0).sum

variable {engine : MojDbQuotaEngine} {txn : MojDbStorageTxn} {offsetMap : List Offset} {pending : MojString → Int}

theorem chargeQuota_owners (owner : MojString) (offset : Int) (quotas : List Quota) :
    (chargeQuota owner offset quotas).map Quota.owner = quotas.map Quota.owner := by
  rw [chargeQuota, List.map_map]
  refine List.map_congr_left fun quota _ => ?_
  simp only [Function.comp_apply]
  split_ifs
  · rfl
  · rfl

/-- Charging one quota after the other adds to each what is charged to it. -/
theorem foldl_chargeQuota {α : Type} (group : α → Option MojString) (amount : α → Int) (as : List α)
    (quotas : List Quota) :
    as.foldl (fun quotas a => match group a with
        | none => quotas
        | some owner => chargeQuota owner (amount a) quotas) quotas =
      quotas.map fun quota =>
        { quota with usage := quota.usage +
            (as.map fun a => if group a = some quota.owner then amount a else 0).sum } := by
  induction as generalizing quotas with
  | nil => simp
  | cons a as ih =>
    rw [List.foldl_cons, ih]
    cases hgroup : group a with
    | none => simp [hgroup]
    | some owner =>
      simp only [chargeQuota, List.map_map]
      refine List.map_congr_left fun quota _ => ?_
      simp only [Function.comp_apply, List.map_cons, List.sum_cons, hgroup, Option.some.injEq]
      by_cases howner : quota.owner = owner
      · simp only [howner, if_true]
        rw [add_assoc]
      · rw [if_neg howner, if_neg (Ne.symm howner), zero_add]

theorem applyQuota_quotas (engine : MojDbQuotaEngine) (offsetMap : List Offset) :
    (engine.applyQuota offsetMap).quotas =
      engine.quotas.map fun quota => { quota with usage := quota.usage + charged offsetMap quota.owner } :=
  foldl_chargeQuota Offset.quota Offset.offset offsetMap engine.quotas

theorem refresh_quotas (engine : MojDbQuotaEngine) :
    engine.refresh.quotas = engine.quotas.map fun quota => { quota with usage := engine.total quota.owner } := by
  -- charging does not change whose the quotas are
  have hfixed : ∀ (kinds : List Kind) (quotas : List Quota), quotas.map Quota.owner = engine.owners →
      kinds.foldl (fun quotas kind => match quotaForKind (quotas.map Quota.owner) kind with
        | none => quotas
        | some owner => chargeQuota owner (engine.usageDb kind.id) quotas) quotas =
      kinds.foldl (fun quotas kind => match quotaForKind engine.owners kind with
        | none => quotas
        | some owner => chargeQuota owner (engine.usageDb kind.id) quotas) quotas := by
    intro kinds
    induction kinds with
    | nil =>
      intro quotas _
      rfl
    | cons kind kinds ih =>
      intro quotas howners
      rw [List.foldl_cons, List.foldl_cons, howners]
      cases quotaForKind engine.owners kind with
      | none => exact ih quotas howners
      | some owner => exact ih _ ((chargeQuota_owners owner _ quotas).trans howners)
  have hzero : (engine.quotas.map fun quota => { quota with usage := 0 }).map Quota.owner = engine.owners := by
    rw [List.map_map]
    rfl
  rw [refresh, hfixed engine.kindMap.kinds _ hzero,
    foldl_chargeQuota (quotaForKind engine.owners) (fun kind => engine.usageDb kind.id), List.map_map]
  refine List.map_congr_left fun quota _ => ?_
  simp only [Function.comp_apply, zero_add]
  rfl

theorem refresh_owners (engine : MojDbQuotaEngine) : engine.refresh.owners = engine.owners := by
  rw [owners, refresh_quotas, List.map_map]
  rfl

theorem refresh_total (engine : MojDbQuotaEngine) (owner : MojString) :
    engine.refresh.total owner = engine.total owner := by
  rw [total, refresh_owners]
  rfl

theorem exact_refresh (engine : MojDbQuotaEngine) : engine.refresh.Exact := by
  intro quota hquota
  rw [refresh_quotas, List.mem_map] at hquota
  obtain ⟨old, -, rfl⟩ := hquota
  exact (refresh_total engine old.owner).symm

theorem applyQuota_owners (engine : MojDbQuotaEngine) (offsetMap : List Offset) :
    (engine.applyQuota offsetMap).owners = engine.owners := by
  rw [owners, applyQuota_quotas, List.map_map]
  rfl

theorem applyQuota_total (engine : MojDbQuotaEngine) (offsetMap : List Offset) (owner : MojString) :
    (engine.applyQuota offsetMap).total owner = engine.total owner := by
  rw [total, applyQuota_owners]
  rfl

/-- Offsets that are applied behind a refresh are counted twice. -/
theorem exact_applyQuota_iff (h : engine.Exact) :
    (engine.applyQuota offsetMap).Exact ↔ ∀ quota ∈ engine.quotas, charged offsetMap quota.owner = 0 := by
  constructor
  · intro hexact quota hquota
    have hafter := hexact { quota with usage := quota.usage + charged offsetMap quota.owner } (by
      rw [applyQuota_quotas]
      exact List.mem_map_of_mem hquota)
    have hbefore := h quota hquota
    rw [applyQuota_total] at hafter
    simp only at hafter
    omega
  · intro hzero quota hquota
    rw [applyQuota_quotas, List.mem_map] at hquota
    obtain ⟨old, hold, rfl⟩ := hquota
    rw [applyQuota_total]
    simp only [hzero old hold, add_zero]
    exact h old hold

theorem exact_foldl_commitQuota {quotaPuts : List (MojString × Int)} (hne : quotaPuts ≠ []) :
    (quotaPuts.foldl commitQuota engine).Exact := by
  obtain ⟨puts, put, rfl⟩ := List.eq_nil_or_concat quotaPuts |>.resolve_left hne
  rw [List.concat_eq_append, List.foldl_append, List.foldl_cons, List.foldl_nil]
  exact exact_refresh _

/-- Every offset is charged to the quota its kind has now. -/
def Settled (engine : MojDbQuotaEngine) (offsetMap : List Offset) : Prop :=
  ∀ o ∈ offsetMap, ∃ kind ∈ engine.kindMap.kinds, kind.id = o.kindId ∧ quotaForKind engine.owners kind = o.quota

/-- The engine once the offsets have been added to the usage database. -/
def withUsage (engine : MojDbQuotaEngine) (offsetMap : List Offset) : MojDbQuotaEngine :=
  { engine with usageDb := Ledger.post engine.usageDb (offsetMap.map fun o => (o.kindId, o.offset)) }

theorem withUsage_total (h : engine.Settled offsetMap)
    (owner : MojString) :
    (engine.withUsage offsetMap).total owner = engine.total owner + charged offsetMap owner := by
  have hpost := Ledger.total_post (quotaForKind engine.owners) engine.usageDb owner engine.kindMap.nodup
    (offsetMap.map fun o => (o.kindId, o.offset, o.quota)) (by
      intro p hp
      obtain ⟨o, ho, rfl⟩ := List.mem_map.mp hp
      exact h o ho)
  rw [List.map_map, List.map_map] at hpost
  exact hpost

/-- What has been read is still in the usage database. -/
def Fresh (engine : MojDbQuotaEngine) (offsetMap : List Offset) (read : List Int) : Prop :=
  read = offsetMap.map fun o => engine.usageDb o.kindId

instance (engine : MojDbQuotaEngine) (offsetMap : List Offset) (read : List Int) :
    Decidable (engine.Fresh offsetMap read) :=
  inferInstanceAs (Decidable (read = offsetMap.map fun o => engine.usageDb o.kindId))

/-- **The offsets reach the usage database** when nobody has written there since it was read. -/
theorem commitImpl_of_fresh {read : List Int} (hnodup : (offsetMap.map Offset.kindId).Nodup)
    (hfresh : engine.Fresh offsetMap read) :
    engine.commitImpl (usagePuts offsetMap read) = engine.withUsage offsetMap := by
  have hputs : usagePuts offsetMap read =
      (offsetMap.map fun o => (o.kindId, o.offset)).map fun p => (p.1, engine.usageDb p.1 + p.2) := by
    rw [usagePuts, hfresh, List.zipWith_map_right, List.zipWith_self, List.map_map]
    rfl
  have hkeys : ((offsetMap.map fun o => (o.kindId, o.offset)).map Prod.fst).Nodup := by
    rw [List.map_map]
    exact hnodup
  rw [commitImpl, hputs, Ledger.write_eq_post hkeys fun _ _ => rfl]
  rfl

/-! ## What a commit leaves in the quotas -/

/-- The engine once the quotas of a transaction are put. -/
def withQuotas (engine : MojDbQuotaEngine) (txn : MojDbStorageTxn) : MojDbQuotaEngine :=
  txn.quotaPuts.foldl commitQuota engine

theorem finish_eq (engine : MojDbQuotaEngine) (txn : MojDbStorageTxn) :
    engine.finish txn = if txn.offsetMap = [] then engine.withQuotas txn
      else if txn.refreshQuotas then ((engine.withQuotas txn).applyQuota txn.offsetMap).refresh
      else (engine.withQuotas txn).applyQuota txn.offsetMap := rfl

theorem foldl_commitQuota_eq (quotaPuts : List (MojString × Int)) :
    (quotaPuts.foldl commitQuota engine).kindMap = engine.kindMap ∧
      (quotaPuts.foldl commitQuota engine).usageDb = engine.usageDb := by
  induction quotaPuts generalizing engine with
  | nil => exact ⟨rfl, rfl⟩
  | cons put puts ih => exact ih

theorem finish_kindMap (engine : MojDbQuotaEngine) (txn : MojDbStorageTxn) :
    (engine.finish txn).kindMap = engine.kindMap := by
  have hwith : (engine.withQuotas txn).kindMap = engine.kindMap := (foldl_commitQuota_eq txn.quotaPuts).1
  rw [finish_eq]
  split_ifs
  · exact hwith
  · exact hwith
  · exact hwith

theorem finish_usageDb (engine : MojDbQuotaEngine) (txn : MojDbStorageTxn) :
    (engine.finish txn).usageDb = engine.usageDb := by
  have hwith : (engine.withQuotas txn).usageDb = engine.usageDb := (foldl_commitQuota_eq txn.quotaPuts).2
  rw [finish_eq]
  split_ifs
  · exact hwith
  · exact hwith
  · exact hwith

theorem finish_owners (engine : MojDbQuotaEngine) (txn : MojDbStorageTxn) :
    (engine.finish txn).owners = (engine.withQuotas txn).owners := by
  rw [finish_eq]
  split_ifs
  · rfl
  · rw [refresh_owners, applyQuota_owners]
  · rw [applyQuota_owners]

/-- A transaction that puts a quota charges nothing to any quota, or refreshes once more at its end. -/
abbrev PutsQuotaAlone (engine : MojDbQuotaEngine) (txn : MojDbStorageTxn) : Prop :=
  txn.quotaPuts ≠ [] → txn.refreshQuotas = true ∨
    ∀ quota ∈ (engine.withQuotas txn).quotas, charged txn.offsetMap quota.owner = 0

/-- **What a commit that puts quotas or changes kinds leaves in the quotas** is exact, unless the transaction puts a
quota, charges something to a quota, and does not refresh at its end. -/
theorem finish_exact_iff (hchanges : txn.quotaPuts ≠ [] ∨ txn.refreshQuotas = true)
    (hflagged : txn.refreshQuotas = true → txn.offsetMap ≠ []) :
    (engine.finish txn).Exact ↔ engine.PutsQuotaAlone txn := by
  rw [finish_eq]
  cases hrefresh : txn.refreshQuotas with
  | true =>
    rw [if_neg (hflagged hrefresh), if_pos rfl]
    exact iff_of_true (exact_refresh _) fun _ => .inl hrefresh
  | false =>
    have hputs : txn.quotaPuts ≠ [] := hchanges.resolve_right (by simp [hrefresh])
    have hput : (engine.withQuotas txn).Exact := exact_foldl_commitQuota hputs
    have halone : engine.PutsQuotaAlone txn ↔
        ∀ quota ∈ (engine.withQuotas txn).quotas, charged txn.offsetMap quota.owner = 0 := by
      simp [PutsQuotaAlone, hputs, hrefresh]
    rw [if_neg Bool.false_ne_true, halone]
    split_ifs with hnil
    · refine iff_of_true hput fun quota _ => ?_
      rw [hnil]
      rfl
    · exact exact_applyQuota_iff hput

/-- One that changes neither quotas nor kinds charges its offsets, and that is all. -/
theorem finish_quotas_of_regular (hputs : txn.quotaPuts = []) (hrefresh : txn.refreshQuotas = false) :
    (engine.finish txn).quotas =
      engine.quotas.map fun quota => { quota with usage := quota.usage + charged txn.offsetMap quota.owner } := by
  have hwith : engine.withQuotas txn = engine := by
    rw [withQuotas, hputs, List.foldl_nil]
  rw [finish_eq, hwith, hrefresh, if_neg Bool.false_ne_true]
  split_ifs with hnil
  · rw [hnil]
    simp [charged]
  · rw [applyQuota_quotas]

theorem finish_total_of_nil (hputs : txn.quotaPuts = []) (owner : MojString) :
    (engine.finish txn).total owner = engine.total owner := by
  rw [total, finish_owners, finish_kindMap, finish_usageDb, withQuotas, hputs]
  rfl

/-- What was still to be charged has been charged. -/
theorem owed_finish (hputs : txn.quotaPuts = []) (hrefresh : txn.refreshQuotas = false)
    (h : engine.Owed fun owner => pending owner + charged txn.offsetMap owner) : (engine.finish txn).Owed pending := by
  intro quota hquota
  rw [finish_quotas_of_regular hputs hrefresh, List.mem_map] at hquota
  obtain ⟨old, hold, rfl⟩ := hquota
  rw [finish_total_of_nil hputs, ← h old hold]
  simp only
  omega

/-- Nothing is owed when the quotas are exact, and the other way round. -/
theorem Owed.exact_iff (h : engine.Owed pending) : engine.Exact ↔ ∀ quota ∈ engine.quotas, pending quota.owner = 0 := by
  constructor
  · intro hexact quota hquota
    have howed := h quota hquota
    have hsame := hexact quota hquota
    omega
  · intro hzero quota hquota
    have howed := h quota hquota
    have hnone := hzero quota hquota
    omega

theorem owed_of_exact (h : engine.Exact) (hzero : ∀ owner, pending owner = 0) : engine.Owed pending := by
  intro quota hquota
  rw [hzero, add_zero, h quota hquota]

theorem owed_withUsage (hsettled : engine.Settled offsetMap) (h : engine.Owed pending) :
    (engine.withUsage offsetMap).Owed fun owner => pending owner + charged offsetMap owner := by
  intro quota hquota
  rw [withUsage_total hsettled, ← h quota hquota]
  dsimp only
  omega

end MojDbQuotaEngine

end Db8
