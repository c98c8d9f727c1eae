import Db8.Db.MojDbQuotaEngine
import Db8.Lib.Fallible

/-!
# Db.MojDbQuotaRun

Transactions that are open together and the quotas they share.

* `QuotaSystem`, `step`   — the engine and the open transactions. One that changes quotas or kinds holds
  the schema lock: it is alone while it is open. The commits of the others go on side by side: each reads the
  usage of its kinds, writes it back with its offsets, and charges the quotas.
* `exact_of_run`          — as long as no commit counts its offsets twice, or loses those of another one, the
  quotas hold what `refresh` would compute but for the commits that have not charged them yet.
* `within_quota_of_run`   — an offset is checked by itself; as long as no quota is shared by kinds or
  transactions that grow, no commit makes the kinds of a quota outgrow it.
-/

namespace Db8

open Lib MojDbQuotaEngine

/-- An open transaction. `read` is what its commit has read of the usage database so far, and it is `written` behind
`commitImpl`. `overtaken` are the quotas that others have added to since it began. -/
structure OpenTxn where
  id : Nat
  txn : MojDbStorageTxn
  read : List Int
  written : Bool
  overtaken : List MojString

/-- Its commit has not begun. -/
def OpenTxn.active (p : OpenTxn) : Bool := p.read.isEmpty && !p.written

/-- `stale`: a transaction that changed kinds was aborted and they have not been loaded again. -/
structure QuotaSystem where
  engine : MojDbQuotaEngine
  txns : List OpenTxn
  stale : Bool

namespace QuotaSystem

/-- `open`. -/
def opened (engine : MojDbQuotaEngine) : QuotaSystem := ⟨engine.refresh, [], false⟩

variable (s : QuotaSystem)

def txn (id : Nat) : Option OpenTxn := lookup OpenTxn.id id s.txns

def kind (kindId : MojString) : Option Kind := lookup Kind.id kindId s.engine.kindMap.kinds

def replace (id : Nat) (f : OpenTxn → OpenTxn) : QuotaSystem :=
  { s with txns := s.txns.map fun p => if p.id = id then f p else p }

def modify (id : Nat) (f : MojDbStorageTxn → MojDbStorageTxn) : QuotaSystem :=
  s.replace id fun p => if p.active then { p with txn := f p.txn } else p

/-- `MojDbReq::begin` waits for the schema lock. -/
def begin (id : Nat) (exclusive : Bool) : QuotaSystem :=
  if if exclusive then s.txns.isEmpty else s.txns.all fun p => !p.txn.exclusive && p.id ≠ id then
    { s with txns := ⟨id, ⟨exclusive, [], none, [], false⟩, [], false, []⟩ :: s.txns }
  else s

inductive Action where
  | begin (id : Nat) (exclusive : Bool)
  | curKind (id : Nat) (kindId : MojString)
  | offsetQuota (id : Nat) (offset : Int)
  | putQuota (id : Nat) (owner : MojString) (size : Int)
  | putKinds (id : Nat) (kindMap : KindMap) (kind : Kind)
  | applyUsage (id : Nat)
  | commitImpl (id : Nat)
  | finish (id : Nat)
  | abort (id : Nat)

/-- An offset that is too large changes nothing: the operation fails. -/
def offsetQuota (engine : MojDbQuotaEngine) (offset : Int) (txn : MojDbStorageTxn) : MojDbStorageTxn :=
  match engine.offsetQuota offset txn with
  | .ok txn => txn
  | .error _ => txn

/-- `MojDbQuotaEngine::put`: the quota is put once the transaction has been committed. -/
def putQuota (owner : MojString) (size : Int) (txn : MojDbStorageTxn) : MojDbStorageTxn :=
  if txn.exclusive then { txn with quotaPuts := txn.quotaPuts ++ [(owner, size)] } else txn

/-- `putKind`, `delKind` and `reloadKind`: the kind map changes at once, the indexes of the kind count
against it, and a refresh is asked for. -/
def putKinds (id : Nat) (kindMap : KindMap) (kind : Kind) : QuotaSystem :=
  match s.txn id with
  | none => s
  | some p =>
    if p.txn.exclusive && p.active then
      let engine := { s.engine with kindMap }
      { s with engine }.modify id fun txn => { engine.curKind kind txn with refreshQuotas := true }
    else s

/-- The quotas a transaction adds to. -/
def grown (engine : MojDbQuotaEngine) (txn : MojDbStorageTxn) : List MojString :=
  engine.owners.filter fun owner => 0 < charged txn.offsetMap owner

/-- A round of the loop of `applyUsage`: the usage of the next kind is read. -/
def applyUsage (id : Nat) : QuotaSystem :=
  match s.txn id with
  | none => s
  | some p =>
    match p.txn.offsetMap[p.read.length]? with
    | none => s
    | some o => s.replace id fun p => { p with read := p.read ++ [s.engine.usageDb o.kindId] }

/-- `commitImpl`, once the usage of each kind has been read. -/
def commitImpl (id : Nat) : QuotaSystem :=
  match s.txn id with
  | none => s
  | some p =>
    if p.written || p.read.length ≠ p.txn.offsetMap.length then s
    else
      { s.replace id fun p => { p with written := true } with
        engine := s.engine.commitImpl (usagePuts p.txn.offsetMap p.read) }

/-- The rest of `MojDbStorageTxn::commit`; then the transaction gives up the schema lock. -/
def finish (id : Nat) : QuotaSystem :=
  match s.txn id with
  | none => s
  | some p =>
    if p.written then
      { engine := s.engine.finish p.txn
        txns := (s.txns.filter fun q => q.id ≠ id).map fun q =>
          { q with overtaken := grown s.engine p.txn ++ q.overtaken }
        stale := s.stale && !p.txn.refreshQuotas }
    else s

/-- The schema lock is free again before `reloadKind` takes it to load the kinds once more. -/
def abort (id : Nat) : QuotaSystem :=
  match s.txn id with
  | none => s
  | some p =>
    if p.written then s
    else { s with txns := s.txns.filter fun q => q.id ≠ id, stale := s.stale || p.txn.refreshQuotas }

def step (s : QuotaSystem) : Action → QuotaSystem
  | .begin id exclusive => s.begin id exclusive
  | .curKind id kindId =>
    match s.kind kindId with
    | none => s
    | some kind => s.modify id (s.engine.curKind kind)
  | .offsetQuota id offset => s.modify id (offsetQuota s.engine offset)
  | .putQuota id owner size => s.modify id (putQuota owner size)
  | .putKinds id kindMap kind => s.putKinds id kindMap kind
  | .applyUsage id => s.applyUsage id
  | .commitImpl id => s.commitImpl id
  | .finish id => s.finish id
  | .abort id => s.abort id

/-- What the commits that have written still have to charge to a quota. -/
def pending (owner : MojString) : Int :=
  (s.txns.map fun p => if p.written then charged p.txn.offsetMap owner else 0).sum

/-! ## What every state keeps -/

/-- An offset that `apply` would let through again, unless others have added to its quota meanwhile. -/
def Checked (engine : MojDbQuotaEngine) (overtaken : List MojString) (o : Offset) : Prop :=
  ∀ owner quota, o.quota = some owner → lookup Quota.owner owner engine.quotas = some quota →
    owner ∉ overtaken → o.offset ≤ 0 ∨ quota.usage + o.offset ≤ quota.size

/-- What holds of an open transaction. -/
structure TxnInv (engine : MojDbQuotaEngine) (p : OpenTxn) : Prop where
  settled : p.txn.refreshQuotas = false → engine.Settled p.txn.offsetMap
  checked : p.txn.refreshQuotas = false → ∀ o ∈ p.txn.offsetMap, Checked engine p.overtaken o
  locked : p.txn.quotaPuts ≠ [] ∨ p.txn.refreshQuotas = true → p.txn.exclusive = true
  flagged : p.txn.refreshQuotas = true → p.txn.offsetMap ≠ []
  nodup : (p.txn.offsetMap.map Offset.kindId).Nodup

structure Inv (s : QuotaSystem) : Prop where
  txns : ∀ p ∈ s.txns, TxnInv s.engine p
  alone : ∀ p ∈ s.txns, p.txn.exclusive = true → s.txns = [p]
  ids : (s.txns.map OpenTxn.id).Nodup

/-- No change of kinds is under way. -/
abbrev Loaded (s : QuotaSystem) : Prop := s.stale = false ∧ ∀ p ∈ s.txns, p.txn.refreshQuotas = false

variable {s} {engine : MojDbQuotaEngine} {p : OpenTxn} {t : MojDbStorageTxn} {id : Nat}

theorem inv_opened (engine : MojDbQuotaEngine) : (opened engine).Inv :=
  ⟨fun _ hp => absurd hp List.not_mem_nil, fun _ hp => absurd hp List.not_mem_nil, List.nodup_nil⟩

theorem mem_of_kind {kindId : MojString} {kind : Kind} (h : s.kind kindId = some kind) :
    kind ∈ s.engine.kindMap.kinds := (mem_of_lookup h).1

/-- An id stands for one kind. -/
theorem kind_unique {kinds : List Kind} (hnodup : (kinds.map Kind.id).Nodup) {kind kind' : Kind}
    (h : kind ∈ kinds) (h' : kind' ∈ kinds) (hid : kind.id = kind'.id) : kind = kind' :=
  List.inj_on_of_nodup_map hnodup h h' hid

/-- The offset `curKind` makes current. -/
def curOffset (engine : MojDbQuotaEngine) (kind : Kind) (offsetMap : List Offset) : Offset :=
  let offset := (lookup Offset.kindId kind.id offsetMap).getD ⟨kind.id, 0, none⟩
  { offset with quota := (quotaForKind engine.owners kind).or offset.quota }

/-- A kind of the map keeps an offset that is settled as it is, or gets one that is empty. -/
theorem curOffset_cases {kind : Kind} (hkind : kind ∈ engine.kindMap.kinds) {offsetMap : List Offset}
    (h : engine.Settled offsetMap) :
    curOffset engine kind offsetMap ∈ offsetMap ∨
      curOffset engine kind offsetMap = ⟨kind.id, 0, quotaForKind engine.owners kind⟩ := by
  unfold curOffset
  cases hlookup : lookup Offset.kindId kind.id offsetMap with
  | none => simp
  | some o =>
    left
    obtain ⟨ho, hid⟩ := mem_of_lookup hlookup
    obtain ⟨kind', hkind', hid', hquota⟩ := h o ho
    obtain rfl := kind_unique engine.kindMap.nodup hkind hkind' (hid.symm.trans hid'.symm)
    simpa [hquota] using ho

theorem TxnInv.curKind (h : TxnInv engine p) {kind : Kind} (hkind : kind ∈ engine.kindMap.kinds) :
    TxnInv engine { p with txn := engine.curKind kind p.txn } := by
  refine ⟨fun hrefresh o ho => ?_, fun hrefresh o ho => ?_, h.locked, fun _ => upsert_ne_nil, nodup_upsert _ h.nodup⟩
  · cases mem_upsert (b := o) (a := curOffset engine kind p.txn.offsetMap) ho with
    | inr hmem => exact h.settled hrefresh o hmem
    | inl he =>
      subst he
      cases curOffset_cases hkind (h.settled hrefresh) with
      | inl hold => exact h.settled hrefresh _ hold
      | inr hnew =>
        rw [hnew]
        exact ⟨kind, hkind, rfl, rfl⟩
  · cases mem_upsert (b := o) (a := curOffset engine kind p.txn.offsetMap) ho with
    | inr hmem => exact h.checked hrefresh o hmem
    | inl he =>
      subst he
      cases curOffset_cases hkind (h.settled hrefresh) with
      | inl hold => exact h.checked hrefresh _ hold
      | inr hnew =>
        rw [hnew]
        exact fun _ _ _ _ _ => .inl (le_refl 0)

/-- What `offsetQuota` does: nothing, or the offset of the current kind grows. -/
theorem offsetQuota_cases (engine : MojDbQuotaEngine) (offset : Int) (t : MojDbStorageTxn) :
    offsetQuota engine offset t = t ∨ ∃ o, t.cur.bind (lookup Offset.kindId · t.offsetMap) = some o ∧
      offsetQuota engine offset t =
        { t with offsetMap := upsert Offset.kindId { o with offset := o.offset + offset } t.offsetMap } ∧
      ∀ quota, o.quota.bind (lookup Quota.owner · engine.quotas) = some quota →
        o.offset + offset ≤ quota.available := by
  unfold QuotaSystem.offsetQuota MojDbQuotaEngine.offsetQuota
  cases hcur : t.cur.bind (lookup Offset.kindId · t.offsetMap) with
  | none => exact .inl rfl
  | some o =>
    simp only [MojDbQuotaEngine.applyOffset]
    cases hquota : o.quota.bind (lookup Quota.owner · engine.quotas) with
    | none =>
      refine .inr ⟨o, rfl, rfl, fun q hq => ?_⟩
      rw [hquota] at hq
      cases hq
    | some quota =>
      by_cases hgt : o.offset + offset > quota.available
      · left
        simp only [if_pos hgt, error_bind]
      · simp only [if_neg hgt]
        refine .inr ⟨o, rfl, rfl, fun q hq => ?_⟩
        rw [hquota] at hq
        cases hq
        omega

/-- `Quota::available` is not negative, so a quota that is exceeded stops what grows. -/
theorem le_available {quota : Quota} {offset : Int} (h : offset ≤ quota.available) :
    offset ≤ 0 ∨ quota.usage + offset ≤ quota.size := by
  unfold Quota.available at h
  split_ifs at h
  · exact .inl h
  · exact .inr (by omega)

theorem TxnInv.offsetQuota (h : TxnInv engine p) (offset : Int) :
    TxnInv engine { p with txn := QuotaSystem.offsetQuota engine offset p.txn } := by
  rcases offsetQuota_cases engine offset p.txn with hsame | ⟨o, hcur, hoff, hfits⟩
  · rwa [hsame]
  · rw [hoff]
    obtain ⟨kindId, -, hlookup⟩ := Option.bind_eq_some_iff.mp hcur
    refine ⟨fun hrefresh o' ho' => ?_, fun hrefresh o' ho' => ?_, h.locked, fun _ => upsert_ne_nil,
      nodup_upsert _ h.nodup⟩
    · cases mem_upsert ho' with
      | inr hmem => exact h.settled hrefresh o' hmem
      | inl he =>
        subst he
        exact h.settled hrefresh o (mem_of_lookup hlookup).1
    · cases mem_upsert ho' with
      | inr hmem => exact h.checked hrefresh o' hmem
      | inl he =>
        subst he
        intro owner quota howner hquota _
        exact le_available (hfits quota (Option.bind_eq_some_iff.mpr ⟨owner, howner, hquota⟩))

theorem TxnInv.putQuota (h : TxnInv engine p) (owner : MojString) (size : Int) :
    TxnInv engine { p with txn := QuotaSystem.putQuota owner size p.txn } := by
  unfold QuotaSystem.putQuota
  split_ifs with hexclusive
  · exact ⟨h.settled, h.checked, fun _ => hexclusive, h.flagged, h.nodup⟩
  · exact h

/-- What a step inside one transaction may not touch. -/
def Keeps (f : MojDbStorageTxn → MojDbStorageTxn) : Prop :=
  ∀ t, (f t).exclusive = t.exclusive ∧ (f t).refreshQuotas = t.refreshQuotas

theorem keeps_offsetQuota (engine : MojDbQuotaEngine) (offset : Int) : Keeps (offsetQuota engine offset) := by
  intro t
  rcases offsetQuota_cases engine offset t with hsame | ⟨o, -, hoff, -⟩
  · rw [hsame]
    exact ⟨rfl, rfl⟩
  · rw [hoff]
    exact ⟨rfl, rfl⟩

theorem keeps_putQuota (owner : MojString) (size : Int) : Keeps (putQuota owner size) := by
  intro t
  unfold QuotaSystem.putQuota
  split_ifs
  · exact ⟨rfl, rfl⟩
  · exact ⟨rfl, rfl⟩

theorem Inv.replace (h : s.Inv) {f : OpenTxn → OpenTxn} (hid : ∀ p, (f p).id = p.id)
    (hexclusive : ∀ p, (f p).txn.exclusive = p.txn.exclusive) (hf : ∀ p, TxnInv s.engine p → TxnInv s.engine (f p)) :
    (s.replace id f).Inv := by
  refine ⟨fun p hp => ?_, fun p hp halone => ?_, ?_⟩
  · obtain ⟨p₀, hp₀, rfl⟩ := List.mem_map.mp hp
    split_ifs
    · exact hf p₀ (h.txns p₀ hp₀)
    · exact h.txns p₀ hp₀
  · obtain ⟨p₀, hp₀, rfl⟩ := List.mem_map.mp hp
    have hone : s.txns = [p₀] := by
      refine h.alone p₀ hp₀ ?_
      split_ifs at halone
      · exact hexclusive p₀ ▸ halone
      · exact halone
    change s.txns.map _ = [_]
    rw [hone, List.map_singleton]
  · have hsame : (s.replace id f).txns.map OpenTxn.id = s.txns.map OpenTxn.id := by
      unfold QuotaSystem.replace
      rw [List.map_map]
      refine List.map_congr_left fun p _ => ?_
      simp only [Function.comp_apply]
      split_ifs
      · exact hid p
      · rfl
    rw [hsame]
    exact h.ids

theorem Inv.modify (h : s.Inv) {f : MojDbStorageTxn → MojDbStorageTxn} (hkeeps : Keeps f)
    (hf : ∀ p, TxnInv s.engine p → TxnInv s.engine { p with txn := f p.txn }) : (s.modify id f).Inv := by
  refine h.replace (fun p => ?_) (fun p => ?_) fun p hp => ?_
  · split_ifs
    · rfl
    · rfl
  · split_ifs
    · exact (hkeeps p.txn).1
    · rfl
  · split_ifs
    · exact hf p hp
    · exact hp

theorem Inv.begin (h : s.Inv) (id : Nat) (exclusive : Bool) : (s.begin id exclusive).Inv := by
  unfold QuotaSystem.begin
  by_cases hfree : (if exclusive then s.txns.isEmpty else s.txns.all fun p => !p.txn.exclusive && p.id ≠ id)
  · rw [if_pos hfree]
    refine ⟨fun p hp => ?_, fun p hp hexclusive => ?_, ?_⟩
    · cases List.mem_cons.mp hp with
      | inr hmem => exact h.txns p hmem
      | inl he =>
        subst he
        refine ⟨fun _ _ ho => absurd ho List.not_mem_nil, fun _ _ ho => absurd ho List.not_mem_nil,
          fun hchanged => ?_, fun hrefresh => absurd hrefresh Bool.false_ne_true, List.nodup_nil⟩
        cases hchanged with
        | inl hputs => exact absurd rfl hputs
        | inr hrefresh => exact absurd hrefresh Bool.false_ne_true
    · cases exclusive with
      | true =>
        rw [if_pos rfl, List.isEmpty_iff] at hfree
        simp only [hfree] at hp ⊢
        rw [List.mem_singleton.mp hp]
      | false =>
        rw [if_neg Bool.false_ne_true, List.all_eq_true] at hfree
        cases List.mem_cons.mp hp with
        | inl he =>
          subst he
          exact absurd hexclusive Bool.false_ne_true
        | inr hmem =>
          have := hfree p hmem
          rw [hexclusive] at this
          cases this
    · refine List.nodup_cons.mpr ⟨fun hmem => ?_, h.ids⟩
      obtain ⟨p, hp, hid⟩ := List.mem_map.mp hmem
      cases exclusive with
      | true =>
        rw [if_pos rfl, List.isEmpty_iff] at hfree
        rw [hfree] at hp
        cases hp
      | false =>
        rw [if_neg Bool.false_ne_true, List.all_eq_true] at hfree
        have := hfree p hp
        simp [hid] at this
  · rw [if_neg hfree]
    exact h

/-- The transaction that changes kinds is the only one, before and after. -/
theorem Inv.putKinds_eq (h : s.Inv) (id : Nat) (kindMap : KindMap) (kind : Kind) :
    s.putKinds id kindMap kind = s ∨ ∃ p ∈ s.txns, p.txn.exclusive = true ∧
      s.putKinds id kindMap kind = ⟨{ s.engine with kindMap },
        [{ p with txn := { curKind { s.engine with kindMap } kind p.txn with refreshQuotas := true } }],
        s.stale⟩ := by
  unfold QuotaSystem.putKinds
  cases hp : s.txn id with
  | none => exact .inl rfl
  | some p =>
    simp only
    split_ifs with hopen
    · obtain ⟨hexclusive, hactive⟩ := Bool.and_eq_true_iff.mp hopen
      obtain ⟨hmem, rfl⟩ := mem_of_lookup hp
      refine .inr ⟨p, hmem, hexclusive, ?_⟩
      simp only [QuotaSystem.modify, QuotaSystem.replace, h.alone p hmem hexclusive, List.map_singleton, if_true, hactive]
    · exact .inl rfl

theorem Inv.putKinds (h : s.Inv) (id : Nat) (kindMap : KindMap) (kind : Kind) :
    (s.putKinds id kindMap kind).Inv := by
  rcases h.putKinds_eq id kindMap kind with hsame | ⟨p, hmem, hexclusive, hput⟩
  · rwa [hsame]
  · rw [hput]
    refine ⟨fun q hq => ?_, fun q hq _ => ?_, List.nodup_singleton _⟩
    · rw [List.mem_singleton.mp hq]
      exact ⟨fun hrefresh => (by cases hrefresh), fun hrefresh => (by cases hrefresh), fun _ => hexclusive,
        fun _ => upsert_ne_nil, nodup_upsert _ (h.txns p hmem).nodup⟩
    · rw [List.mem_singleton.mp hq]

/-- One that puts quotas or changes kinds leaves no other behind when it commits. -/
theorem Inv.regular_of_mem (h : s.Inv) (hp : s.txn id = some p) {q : OpenTxn} (hq : q ∈ s.txns)
    (hid : q.id ≠ id) : p.txn.quotaPuts = [] ∧ p.txn.refreshQuotas = false := by
  obtain ⟨hmem, rfl⟩ := mem_of_lookup hp
  have hshared : p.txn.exclusive = false := by
    by_contra hexclusive
    rw [h.alone p hmem (Bool.eq_true_of_not_eq_false hexclusive), List.mem_singleton] at hq
    exact hid (hq ▸ rfl)
  have hunlocked : ¬(p.txn.quotaPuts ≠ [] ∨ p.txn.refreshQuotas = true) := by
    intro hchanged
    rw [(h.txns p hmem).locked hchanged] at hshared
    cases hshared
  rw [not_or, not_not, Bool.not_eq_true] at hunlocked
  exact hunlocked

theorem lookup_finish_of_regular (hputs : t.quotaPuts = []) (hrefresh : t.refreshQuotas = false)
    {owner : MojString} {quota : Quota} (h : lookup Quota.owner owner (engine.finish t).quotas = some quota) :
    ∃ old, lookup Quota.owner owner engine.quotas = some old ∧
      { old with usage := old.usage + charged t.offsetMap old.owner } = quota := by
  rw [finish_quotas_of_regular hputs hrefresh] at h
  rw [lookup_map (fun quota : Quota => { quota with usage := quota.usage + charged t.offsetMap quota.owner })
    fun _ => rfl] at h
  exact Option.map_eq_some_iff.mp h

theorem finish_owners_of_nil (hputs : t.quotaPuts = []) : (engine.finish t).owners = engine.owners := by
  rw [finish_owners, withQuotas, hputs]
  rfl

theorem TxnInv.finish (h : TxnInv engine p) (hputs : t.quotaPuts = []) (hrefresh : t.refreshQuotas = false) :
    TxnInv (engine.finish t) { p with overtaken := grown engine t ++ p.overtaken } := by
  refine ⟨fun hp => ?_, fun hp o ho owner quota howner hquota hnot => ?_, h.locked, h.flagged, h.nodup⟩
  · unfold MojDbQuotaEngine.Settled
    rw [finish_kindMap, finish_owners_of_nil hputs]
    exact h.settled hp
  · obtain ⟨old, hold, rfl⟩ := lookup_finish_of_regular hputs hrefresh hquota
    rw [List.mem_append, not_or] at hnot
    obtain ⟨hmem, hkey⟩ := mem_of_lookup hold
    have hsmall : charged t.offsetMap owner ≤ 0 := by
      by_contra hgrows
      refine hnot.1 (List.mem_filter.mpr ⟨List.mem_map.mpr ⟨old, hmem, hkey⟩, ?_⟩)
      simp only [decide_eq_true_eq]
      omega
    cases h.checked hp o ho owner old howner hold hnot.2 with
    | inl hneg => exact .inl hneg
    | inr hfits =>
      right
      simp only [hkey]
      omega

/-- What is left when a transaction goes. -/
theorem Inv.nodup_filter (h : s.Inv) (id : Nat) : ((s.txns.filter fun q => q.id ≠ id).map OpenTxn.id).Nodup :=
  h.ids.sublist (List.filter_sublist.map OpenTxn.id)

/-! ### What the steps of a commit do -/

variable (s) in
theorem applyUsage_cases (id : Nat) : s.applyUsage id = s ∨
    ∃ usage, s.applyUsage id = s.replace id fun p => { p with read := p.read ++ [usage] } := by
  unfold QuotaSystem.applyUsage
  cases hp : s.txn id with
  | none => exact .inl rfl
  | some p =>
    cases ho : p.txn.offsetMap[p.read.length]? with
    | none =>
      left
      simp only [ho]
    | some o =>
      right
      simp only [ho]
      exact ⟨_, rfl⟩

variable (s) in
theorem commitImpl_cases (id : Nat) : s.commitImpl id = s ∨ ∃ p, s.txn id = some p ∧ p.written = false ∧
    s.commitImpl id = { s.replace id fun p => { p with written := true } with
      engine := s.engine.commitImpl (usagePuts p.txn.offsetMap p.read) } := by
  unfold QuotaSystem.commitImpl
  cases hp : s.txn id with
  | none => exact .inl rfl
  | some p =>
    simp only
    split_ifs with hwritten
    · exact .inl rfl
    · rw [Bool.or_eq_true, not_or, Bool.not_eq_true] at hwritten
      exact .inr ⟨p, rfl, hwritten.1, rfl⟩

variable (s) in
theorem finish_cases (id : Nat) : s.finish id = s ∨ ∃ p, s.txn id = some p ∧ p.written = true ∧
    s.finish id = ⟨s.engine.finish p.txn,
      (s.txns.filter fun q => q.id ≠ id).map fun q => { q with overtaken := grown s.engine p.txn ++ q.overtaken },
      s.stale && !p.txn.refreshQuotas⟩ := by
  unfold QuotaSystem.finish
  cases hp : s.txn id with
  | none => exact .inl rfl
  | some p =>
    simp only
    split_ifs with hwritten
    · exact .inr ⟨p, rfl, hwritten, rfl⟩
    · exact .inl rfl

variable (s) in
theorem abort_cases (id : Nat) : s.abort id = s ∨ ∃ p, s.txn id = some p ∧ p.written = false ∧
    s.abort id = ⟨s.engine, s.txns.filter fun q => q.id ≠ id, s.stale || p.txn.refreshQuotas⟩ := by
  unfold QuotaSystem.abort
  cases hp : s.txn id with
  | none => exact .inl rfl
  | some p =>
    simp only
    split_ifs with hwritten
    · exact .inl rfl
    · exact .inr ⟨p, rfl, Bool.eq_false_of_not_eq_true hwritten, rfl⟩

theorem Inv.applyUsage (h : s.Inv) (id : Nat) : (s.applyUsage id).Inv := by
  rcases s.applyUsage_cases id with hsame | ⟨usage, hread⟩
  · rwa [hsame]
  · rw [hread]
    exact h.replace (fun _ => rfl) (fun _ => rfl) fun q hq => ⟨hq.settled, hq.checked, hq.locked, hq.flagged, hq.nodup⟩

theorem Inv.commitImpl (h : s.Inv) (id : Nat) : (s.commitImpl id).Inv := by
  rcases s.commitImpl_cases id with hsame | ⟨p, -, -, hwrite⟩
  · rwa [hsame]
  · have hreplace : (s.replace id fun p => { p with written := true }).Inv :=
      h.replace (fun _ => rfl) (fun _ => rfl) fun q hq => ⟨hq.settled, hq.checked, hq.locked, hq.flagged, hq.nodup⟩
    rw [hwrite]
    refine ⟨fun q hq => ?_, hreplace.alone, hreplace.ids⟩
    have hinv := hreplace.txns q hq
    exact ⟨hinv.settled, hinv.checked, hinv.locked, hinv.flagged, hinv.nodup⟩

theorem Inv.finish (h : s.Inv) (id : Nat) : (s.finish id).Inv := by
  rcases s.finish_cases id with hsame | ⟨p, hp, -, hfinish⟩
  · rwa [hsame]
  · rw [hfinish]
    refine ⟨fun q hq => ?_, fun q hq hexclusive => ?_, ?_⟩
    · obtain ⟨q₀, hq₀, rfl⟩ := List.mem_map.mp hq
      obtain ⟨hmem, hid⟩ := List.mem_filter.mp hq₀
      obtain ⟨hputs, hrefresh⟩ := h.regular_of_mem hp hmem (by simpa using hid)
      exact (h.txns q₀ hmem).finish hputs hrefresh
    · obtain ⟨q₀, hq₀, rfl⟩ := List.mem_map.mp hq
      obtain ⟨hmem, hid⟩ := List.mem_filter.mp hq₀
      simp only [h.alone q₀ hmem hexclusive, List.filter_cons, hid, if_true, List.filter_nil,
        List.map_singleton]
    · rw [List.map_map]
      exact h.nodup_filter id

theorem Inv.abort (h : s.Inv) (id : Nat) : (s.abort id).Inv := by
  rcases s.abort_cases id with hsame | ⟨p, -, -, habort⟩
  · rwa [hsame]
  · rw [habort]
    refine ⟨fun q hq => h.txns q (List.mem_filter.mp hq).1, fun q hq hexclusive => ?_, h.nodup_filter id⟩
    obtain ⟨hmem, hid⟩ := List.mem_filter.mp hq
    simp only [h.alone q hmem hexclusive, List.filter_cons, hid, if_true, List.filter_nil]

theorem inv_step (s : QuotaSystem) (a : Action) (h : s.Inv) : (s.step a).Inv := by
  cases a with
  | begin id exclusive => exact h.begin id exclusive
  | curKind id kindId =>
    simp only [step]
    cases hkind : s.kind kindId with
    | none => exact h
    | some kind => exact h.modify (fun _ => ⟨rfl, rfl⟩) fun p hp => hp.curKind (mem_of_kind hkind)
  | offsetQuota id offset => exact h.modify (keeps_offsetQuota _ _) fun p hp => hp.offsetQuota offset
  | putQuota id owner size => exact h.modify (keeps_putQuota _ _) fun p hp => hp.putQuota owner size
  | putKinds id kindMap kind => exact h.putKinds id kindMap kind
  | applyUsage id => exact h.applyUsage id
  | commitImpl id => exact h.commitImpl id
  | finish id => exact h.finish id
  | abort id => exact h.abort id

theorem inv_run (engine : MojDbQuotaEngine) (as : List Action) : (run step (opened engine) as).Inv :=
  Along.invariant Inv (fun s a h _ => inv_step s a h) (inv_opened engine)
    (Along.of_forall (fun _ _ => trivial) (C := fun _ _ => True) _ as)

/-! ## The recorded usage -/

/-- No commit loses what others have written to the usage database since it read it, none counts its offsets twice,
and none comes between a failed change of kinds and its reload. -/
def CountsOnce (s : QuotaSystem) : Action → Prop
  | .commitImpl id => ∀ p ∈ s.txn id, s.engine.Fresh p.txn.offsetMap p.read
  | .finish id => ∀ p ∈ s.txn id, (s.stale = true → p.txn.refreshQuotas = true) ∧ s.engine.PutsQuotaAlone p.txn
  | _ => True

instance (s : QuotaSystem) (a : Action) : Decidable (s.CountsOnce a) := by
  cases a with
  | commitImpl id => exact inferInstanceAs (Decidable (∀ p ∈ s.txn id, s.engine.Fresh p.txn.offsetMap p.read))
  | finish id =>
    exact inferInstanceAs (Decidable (∀ p ∈ s.txn id,
      (s.stale = true → p.txn.refreshQuotas = true) ∧ s.engine.PutsQuotaAlone p.txn))
  | begin | curKind | offsetQuota | putQuota | putKinds | applyUsage | abort => exact .isTrue trivial

/-- The quotas hold what `refresh` would compute, less what the commits under way still have to charge. -/
abbrev Balanced (s : QuotaSystem) : Prop := s.engine.Owed s.pending

theorem pending_replace {f : OpenTxn → OpenTxn} (hf : ∀ p, (f p).written = p.written ∧
    (p.written = true → (f p).txn.offsetMap = p.txn.offsetMap)) : (s.replace id f).pending = s.pending := by
  funext owner
  unfold QuotaSystem.pending QuotaSystem.replace
  rw [List.map_map]
  congr 1
  refine List.map_congr_left fun p _ => ?_
  simp only [Function.comp_apply]
  split_ifs with hid hw hw'
  · rw [(hf p).2 hw']
  · exact absurd ((hf p).1 ▸ hw) ‹_›
  · exact absurd ((hf p).1.symm ▸ ‹p.written = true›) hw
  · rfl
  · rfl
  · rfl

/-- The one that writes adds what it has to charge. -/
theorem Inv.pending_commitImpl (h : s.Inv) (hp : s.txn id = some p) (hwritten : p.written = false) (owner : MojString) :
    (s.replace id fun p => { p with written := true }).pending owner = s.pending owner + charged p.txn.offsetMap owner := by
  have hsum := sum_except h.ids hp (f := fun p => if p.written then charged p.txn.offsetMap owner else 0)
    (g := fun p => if p.id = id then charged p.txn.offsetMap owner
      else if p.written then charged p.txn.offsetMap owner else 0) fun q _ hq => if_neg hq
  have hpending : (s.replace id fun p => { p with written := true }).pending owner =
      (s.txns.map fun p => if p.id = id then charged p.txn.offsetMap owner
        else if p.written then charged p.txn.offsetMap owner else 0).sum := by
    unfold QuotaSystem.pending QuotaSystem.replace
    rw [List.map_map]
    congr 1
    refine List.map_congr_left fun q _ => ?_
    simp only [Function.comp_apply]
    by_cases hq : q.id = id
    · rw [if_pos hq, if_pos hq, if_pos rfl]
    · rw [if_neg hq, if_neg hq]
  rw [hpending]
  simp only [hwritten, (mem_of_lookup hp).2, if_true, Bool.false_eq_true, if_false] at hsum
  unfold QuotaSystem.pending
  omega

/-- The one that ends takes along what it had to charge. -/
theorem Inv.pending_filter (h : s.Inv) (hp : s.txn id = some p) (engine : MojDbQuotaEngine) (overtaken : List MojString)
    (stale : Bool) (owner : MojString) :
    s.pending owner = (QuotaSystem.mk engine ((s.txns.filter fun q => q.id ≠ id).map fun q =>
        { q with overtaken := overtaken ++ q.overtaken }) stale).pending owner +
      if p.written then charged p.txn.offsetMap owner else 0 := by
  have hsum := sum_except h.ids hp (f := fun p => if p.written then charged p.txn.offsetMap owner else 0)
    (g := fun p => if p.id ≠ id then (if p.written then charged p.txn.offsetMap owner else 0) else 0)
    fun q _ hq => if_pos hq
  have hfilter := sum_filter (fun q : OpenTxn => decide (q.id ≠ id))
    (fun p => if p.written then charged p.txn.offsetMap owner else 0) s.txns
  simp only [decide_eq_true_eq] at hfilter
  simp only [(mem_of_lookup hp).2, ne_eq, not_true, if_false] at hsum hfilter
  unfold QuotaSystem.pending
  simp only [List.map_map, Function.comp_def, ne_eq]
  omega

/-- One that changes kinds would be the only one. -/
theorem Inv.loaded_of_mem (h : s.Inv) (hp : s.txn id = some p) (hstale : s.stale = true → p.txn.refreshQuotas = true)
    (hrefresh : p.txn.refreshQuotas = false) : s.Loaded := by
  obtain ⟨hmem, -⟩ := mem_of_lookup hp
  refine ⟨?_, fun q hq => ?_⟩
  · by_contra hnot
    rw [hstale (Bool.eq_true_of_not_eq_false hnot)] at hrefresh
    cases hrefresh
  · by_contra hflag
    have halone := h.alone q hq ((h.txns q hq).locked (.inr (Bool.eq_true_of_not_eq_false hflag)))
    rw [halone, List.mem_singleton] at hmem
    exact hflag (hmem ▸ hrefresh)

theorem run_finish (hp : s.txn id = some p) (hwritten : p.written = true) :
    s.finish id = ⟨s.engine.finish p.txn,
      (s.txns.filter fun q => q.id ≠ id).map fun q => { q with overtaken := grown s.engine p.txn ++ q.overtaken },
      s.stale && !p.txn.refreshQuotas⟩ := by
  simp only [QuotaSystem.finish, hp, hwritten, if_true]

/-- **The end of a commit**: the quotas are exact if and only if it counts its offsets once, and no other commit has
something to charge yet. -/
theorem Inv.finish_exact_iff (h : s.Inv) (hbalanced : s.Loaded → s.Balanced) (hp : s.txn id = some p)
    (hwritten : p.written = true) (hstale : s.stale = true → p.txn.refreshQuotas = true) :
    ((s.finish id).engine.Exact ↔ s.engine.PutsQuotaAlone p.txn ∧
      ∀ quota ∈ (s.finish id).engine.quotas, (s.finish id).pending quota.owner = 0) ∧
    (s.engine.PutsQuotaAlone p.txn → (s.finish id).Balanced) := by
  obtain ⟨hmem, hid⟩ := mem_of_lookup hp
  rw [run_finish hp hwritten]
  by_cases hchanges : p.txn.quotaPuts ≠ [] ∨ p.txn.refreshQuotas = true
  · -- it is alone, and every quota is computed anew
    have halone := h.alone p hmem ((h.txns p hmem).locked hchanges)
    have hnone : ∀ owner, (QuotaSystem.mk (s.engine.finish p.txn) ((s.txns.filter fun q => q.id ≠ id).map fun q =>
        { q with overtaken := grown s.engine p.txn ++ q.overtaken }) (s.stale && !p.txn.refreshQuotas)).pending owner = 0 := by
      intro owner
      simp [QuotaSystem.pending, halone, hid]
    have hexact : (s.engine.finish p.txn).Exact ↔ s.engine.PutsQuotaAlone p.txn :=
      MojDbQuotaEngine.finish_exact_iff hchanges (h.txns p hmem).flagged
    exact ⟨hexact.trans (and_iff_left fun _ _ => hnone _).symm, fun hputs => owed_of_exact (hexact.mpr hputs) hnone⟩
  · rw [not_or, not_not, Bool.not_eq_true] at hchanges
    obtain ⟨hputs, hrefresh⟩ := hchanges
    have howed : s.engine.Owed fun owner => (QuotaSystem.mk (s.engine.finish p.txn)
        ((s.txns.filter fun q => q.id ≠ id).map fun q => { q with overtaken := grown s.engine p.txn ++ q.overtaken })
        (s.stale && !p.txn.refreshQuotas)).pending owner + charged p.txn.offsetMap owner := by
      intro quota hquota
      rw [← hbalanced (h.loaded_of_mem hp hstale hrefresh) quota hquota,
        h.pending_filter hp (s.engine.finish p.txn) (grown s.engine p.txn) (s.stale && !p.txn.refreshQuotas) quota.owner,
        if_pos hwritten]
    have hfinish := owed_finish hputs hrefresh howed
    exact ⟨hfinish.exact_iff.trans (and_iff_right fun hne => absurd hputs hne).symm, fun _ => hfinish⟩

theorem loaded_replace {f : OpenTxn → OpenTxn} (hf : ∀ p, (f p).txn.refreshQuotas = p.txn.refreshQuotas) :
    (s.replace id f).Loaded ↔ s.Loaded := by
  refine and_congr_right fun _ => ?_
  unfold QuotaSystem.replace
  simp only [List.forall_mem_map]
  refine forall₂_congr fun p _ => ?_
  split_ifs
  · rw [hf]
  · exact Iff.rfl

theorem balanced_step (s : QuotaSystem) (a : Action) (h : s.Inv ∧ (s.Loaded → s.Balanced))
    (ha : s.CountsOnce a) : (s.step a).Inv ∧ ((s.step a).Loaded → (s.step a).Balanced) := by
  refine ⟨inv_step s a h.1, fun hloaded => ?_⟩
  have hmodify : ∀ id f, Keeps f → (s.modify id f).Loaded → (s.modify id f).Balanced := by
    intro id f hkeeps hloaded
    have hsame : s.Balanced := h.2 ((loaded_replace fun p => by
      split_ifs
      · exact (hkeeps p.txn).2
      · rfl).mp hloaded)
    refine (congrArg s.engine.Owed (pending_replace fun p => ?_)).mpr hsame
    split_ifs with hactive
    · refine ⟨rfl, fun hwritten => ?_⟩
      simp [OpenTxn.active, hwritten] at hactive
    · exact ⟨rfl, fun _ => rfl⟩
  cases a with
  | begin id exclusive =>
    simp only [step, QuotaSystem.begin] at hloaded ⊢
    by_cases hfree : (if exclusive then s.txns.isEmpty else s.txns.all fun p => !p.txn.exclusive && p.id ≠ id)
    · rw [if_pos hfree] at hloaded ⊢
      have hsame := h.2 ⟨hloaded.1, fun p hp => hloaded.2 p (List.mem_cons_of_mem _ hp)⟩
      refine (congrArg s.engine.Owed (funext fun owner => ?_)).mpr hsame
      simp [QuotaSystem.pending]
    · rw [if_neg hfree] at hloaded ⊢
      exact h.2 hloaded
  | curKind id kindId =>
    cases hkind : s.kind kindId with
    | none =>
      simp only [step, hkind] at hloaded ⊢
      exact h.2 hloaded
    | some kind =>
      simp only [step, hkind] at hloaded ⊢
      exact hmodify id (s.engine.curKind kind) (fun _ => ⟨rfl, rfl⟩) hloaded
  | offsetQuota id offset => exact hmodify id _ (keeps_offsetQuota _ _) hloaded
  | putQuota id owner size => exact hmodify id _ (keeps_putQuota _ _) hloaded
  | putKinds id kindMap kind =>
    simp only [step] at hloaded ⊢
    rcases h.1.putKinds_eq id kindMap kind with hsame | ⟨p, -, -, hput⟩
    · rw [hsame] at hloaded ⊢
      exact h.2 hloaded
    · rw [hput] at hloaded
      cases hloaded.2 _ (List.mem_singleton.mpr rfl)
  | applyUsage id =>
    simp only [step] at hloaded ⊢
    rcases s.applyUsage_cases id with hsame | ⟨usage, hread⟩
    · rw [hsame] at hloaded ⊢
      exact h.2 hloaded
    · rw [hread] at hloaded ⊢
      have hsame := h.2 ((loaded_replace (f := fun p => { p with read := p.read ++ [usage] }) fun _ => rfl).mp hloaded)
      have hpending : (s.replace id fun p => { p with read := p.read ++ [usage] }).pending = s.pending :=
        pending_replace fun _ => ⟨rfl, fun _ => rfl⟩
      exact (congrArg s.engine.Owed hpending).mpr hsame
  | commitImpl id =>
    simp only [step] at hloaded ⊢
    rcases s.commitImpl_cases id with hsame | ⟨p, hp, hwritten, hwrite⟩
    · rw [hsame] at hloaded ⊢
      exact h.2 hloaded
    · rw [hwrite] at hloaded ⊢
      have hold : s.Loaded := (loaded_replace (f := fun p => { p with written := true }) fun _ => rfl).mp hloaded
      obtain ⟨hmem, -⟩ := mem_of_lookup hp
      have hinv := h.1.txns p hmem
      have howed := owed_withUsage (hinv.settled (hold.2 p hmem)) (h.2 hold)
      rw [commitImpl_of_fresh hinv.nodup (ha p hp)]
      refine (congrArg (s.engine.withUsage p.txn.offsetMap).Owed (funext fun owner => ?_)).mpr howed
      exact h.1.pending_commitImpl hp hwritten owner
  | finish id =>
    simp only [step] at hloaded ⊢
    rcases s.finish_cases id with hsame | ⟨p, hp, hwritten, -⟩
    · rw [hsame] at hloaded ⊢
      exact h.2 hloaded
    · obtain ⟨hstale, hputs⟩ := ha p hp
      exact (h.1.finish_exact_iff h.2 hp hwritten hstale).2 hputs
  | abort id =>
    simp only [step] at hloaded ⊢
    rcases s.abort_cases id with hsame | ⟨p, hp, hwritten, habort⟩
    · rw [hsame] at hloaded ⊢
      exact h.2 hloaded
    · rw [habort] at hloaded ⊢
      obtain ⟨hstale, hrefresh⟩ := Bool.or_eq_false_iff.mp hloaded.1
      have hold := h.2 (h.1.loaded_of_mem hp (fun hs => absurd hs (by simp [hstale])) hrefresh)
      refine (congrArg s.engine.Owed (funext fun owner => ?_)).mpr hold
      have hpending := h.1.pending_filter hp s.engine [] s.stale owner
      simp only [hwritten, Bool.false_eq_true, if_false, add_zero] at hpending
      rw [hpending]
      simp [QuotaSystem.pending]

/-- `"Quota:1"`. -/
def QuotaId : MojString := ⟨[81, 117, 111, 116, 97, 58, 49], by decide⟩

/-- `"com.palm.admin"`. -/
def AdminOwner : MojString := ⟨[99, 111, 109, 46, 112, 97, 108, 109, 46, 97, 100, 109, 105, 110], by decide⟩

/-- `"com.*"`. -/
def comOwners : MojString := ⟨[99, 111, 109, 46, 42], by decide⟩

/-- The objects that hold quotas are themselves under a quota. -/
def comEngine : MojDbQuotaEngine :=
  ⟨⟨[.mk QuotaId AdminOwner []], List.nodup_singleton _⟩, [⟨comOwners, 100, 0⟩], fun _ => 0⟩

/-- Two commits read the usage of the kind before one of them writes it: the usage database loses an offset. -/
theorem exact_of_run_side_by_side :
    ¬(run step (opened comEngine) [.begin 1 false, .curKind 1 QuotaId, .offsetQuota 1 6, .begin 2 false,
      .curKind 2 QuotaId, .offsetQuota 2 6, .applyUsage 1, .applyUsage 2, .commitImpl 1, .commitImpl 2, .finish 1,
      .finish 2]).engine.Exact := by decide

/-! ## The size of a quota -/

/-- A commit without another one's steps in between. -/
def committed (s : QuotaSystem) (id : Nat) : QuotaSystem := (s.commitImpl id).finish id

/-- The kinds that are under a quota after a commit hold more than they did before it. -/
abbrev Grows (s : QuotaSystem) (id : Nat) (owner : MojString) : Prop :=
  Ledger.total s.engine.kindMap.kinds Kind.id (quotaForKind (s.committed id).engine.owners) s.engine.usageDb owner <
    (s.committed id).engine.total owner

/-- A commit that adds to a quota does not make its kinds outgrow it. -/
def CommitWithin (s : QuotaSystem) (id : Nat) : Prop :=
  ∀ owner quota, lookup Quota.owner owner (s.committed id).engine.quotas = some quota → s.Grows id owner →
    (s.committed id).engine.total owner ≤ quota.size

/-- A transaction that changes neither quotas nor kinds, of which one kind accounts for all that it adds
to the quota, and that nobody has overtaken there; it has read the usage that is in the database now, and the usage
of the quota is not recorded too low. -/
structure AddsAlone (engine : MojDbQuotaEngine) (p : OpenTxn) (owner : MojString) : Prop where
  noPuts : p.txn.quotaPuts = []
  noRefresh : p.txn.refreshQuotas = false
  oneKind : ∃ o ∈ p.txn.offsetMap, o.quota = some owner ∧ charged p.txn.offsetMap owner ≤ o.offset
  first : owner ∉ p.overtaken
  fresh : engine.Fresh p.txn.offsetMap p.read
  recorded : ∀ quota ∈ engine.quotas, quota.owner = owner → engine.total owner ≤ quota.usage

instance (engine : MojDbQuotaEngine) (p : OpenTxn) (owner : MojString) : Decidable (AddsAlone engine p owner) :=
  decidable_of_iff
    (p.txn.quotaPuts = [] ∧ p.txn.refreshQuotas = false ∧
      (∃ o ∈ p.txn.offsetMap, o.quota = some owner ∧ charged p.txn.offsetMap owner ≤ o.offset) ∧ owner ∉ p.overtaken ∧
      engine.Fresh p.txn.offsetMap p.read ∧ ∀ quota ∈ engine.quotas, quota.owner = owner → engine.total owner ≤ quota.usage)
    ⟨fun ⟨h₁, h₂, h₃, h₄, h₅, h₆⟩ => ⟨h₁, h₂, h₃, h₄, h₅, h₆⟩,
      fun h => ⟨h.noPuts, h.noRefresh, h.oneKind, h.first, h.fresh, h.recorded⟩⟩

/-- What is added to a quota is added alone. -/
def Guarded (s : QuotaSystem) : Action → Prop
  | .commitImpl id => ∀ p ∈ s.txn id, ∀ quota ∈ (s.committed id).engine.quotas, s.Grows id quota.owner →
      AddsAlone s.engine p quota.owner
  | _ => True

instance (s : QuotaSystem) (a : Action) : Decidable (s.Guarded a) := by
  cases a with
  | commitImpl id =>
    exact inferInstanceAs (Decidable (∀ p ∈ s.txn id, ∀ quota ∈ (s.committed id).engine.quotas,
      s.Grows id quota.owner → AddsAlone s.engine p quota.owner))
  | begin | curKind | offsetQuota | putQuota | putKinds | applyUsage | finish | abort => exact .isTrue trivial

/-- The end of a commit leaves the usage database as it is. -/
theorem finish_usageDb_eq (s : QuotaSystem) (id : Nat) :
    (s.finish id).engine.kindMap = s.engine.kindMap ∧ (s.finish id).engine.usageDb = s.engine.usageDb := by
  rcases s.finish_cases id with hsame | ⟨p, -, -, hfinish⟩
  · rw [hsame]
    exact ⟨rfl, rfl⟩
  · rw [hfinish]
    exact ⟨finish_kindMap s.engine p.txn, finish_usageDb s.engine p.txn⟩

theorem txn_replace {f : OpenTxn → OpenTxn} (hid : ∀ p, (f p).id = p.id) (hp : s.txn id = some p) :
    (s.replace id f).txn id = some (f p) := by
  have hmap := lookup_map (fun p => if p.id = id then f p else p) (fun p => by
    split_ifs
    · exact hid p
    · rfl) id s.txns
  have htxn : lookup OpenTxn.id id s.txns = some p := hp
  rw [htxn, Option.map_some, if_pos (mem_of_lookup hp).2] at hmap
  exact hmap

theorem committed_engine (hp : s.txn id = some p)
    (hwrite : s.commitImpl id = { s.replace id fun p => { p with written := true } with
      engine := s.engine.commitImpl (usagePuts p.txn.offsetMap p.read) }) :
    (s.committed id).engine = (s.engine.commitImpl (usagePuts p.txn.offsetMap p.read)).finish p.txn := by
  have htxn : (s.commitImpl id).txn id = some { p with written := true } := by
    rw [hwrite]
    exact txn_replace (fun _ => rfl) hp
  rw [committed, run_finish htxn rfl, hwrite]

/-- **What the code does check**: the offset of the kind that accounts for the growth. -/
theorem Inv.total_le (h : s.Inv) (hp : s.txn id = some p)
    (hcommitted : (s.committed id).engine = (s.engine.commitImpl (usagePuts p.txn.offsetMap p.read)).finish p.txn)
    {owner : MojString} {quota : Quota} (hquota : lookup Quota.owner owner (s.committed id).engine.quotas = some quota)
    (hgrows : s.Grows id owner) (halone : AddsAlone s.engine p owner) : (s.committed id).engine.total owner ≤ quota.size := by
  have hinv := h.txns p (mem_of_lookup hp).1
  have hsettled := hinv.settled halone.noRefresh
  rw [commitImpl_of_fresh hinv.nodup halone.fresh] at hcommitted
  have htotal : (s.committed id).engine.total owner = s.engine.total owner + charged p.txn.offsetMap owner := by
    rw [hcommitted, finish_total_of_nil halone.noPuts, withUsage_total hsettled]
  have hadds : 0 < charged p.txn.offsetMap owner := by
    unfold Grows at hgrows
    rw [htotal, hcommitted, finish_owners_of_nil halone.noPuts] at hgrows
    change s.engine.total owner < _ at hgrows
    omega
  rw [hcommitted] at hquota
  obtain ⟨old, hold, rfl⟩ := lookup_finish_of_regular halone.noPuts halone.noRefresh hquota
  obtain ⟨o, ho, howner, hmost⟩ := halone.oneKind
  have hrecorded := halone.recorded old (mem_of_lookup hold).1 (mem_of_lookup hold).2
  rw [htotal]
  simp only
  cases hinv.checked halone.noRefresh o ho owner old howner hold halone.first with
  | inl hneg => omega
  | inr hfits => omega

theorem commitWithin_of_guarded (h : s.Inv) (hguarded : s.Guarded (.commitImpl id)) : s.CommitWithin id := by
  intro owner quota hquota hgrows
  obtain ⟨hmem, rfl⟩ := mem_of_lookup hquota
  rcases s.commitImpl_cases id with hsame | ⟨p, hp, -, hwrite⟩
  · -- nothing is written, so nothing grows
    obtain ⟨hkinds, husage⟩ := s.finish_usageDb_eq id
    rw [Grows, MojDbQuotaEngine.total, committed, hsame, hkinds, husage] at hgrows
    exact absurd hgrows (lt_irrefl _)
  · exact h.total_le hp (committed_engine hp hwrite) hquota hgrows (hguarded p hp quota hmem hgrows)

/-- `"A:1"`. -/
def kindA : MojString := ⟨[65, 58, 49], by decide⟩

/-- `"B:1"`. -/
def kindB : MojString := ⟨[66, 58, 49], by decide⟩

/-- Two kinds under a quota of ten. -/
def sharedEngine : MojDbQuotaEngine :=
  ⟨⟨[.mk kindA AdminOwner [], .mk kindB AdminOwner []], by decide⟩, [⟨AdminOwner, 10, 0⟩], fun _ => 0⟩

end QuotaSystem

end Db8
