import Db8.Db.MojDbKindIds

/-!
# Db.MojDbKindIdsRun

Runs of puts and deletions of kinds, puts of objects, requests that abort, and closes and reopens of the database.

* `Holds`        — ids and tokens are distinct, open kinds use those of the database, and what is stored can be traced
  back by them.
* `Safe`         — the steps after which it is so.
* `ids_hold_of_run` — a run of safe steps, in which no id is ever given to another name.
-/

namespace Db8

open Lib MojDbKindIds

namespace MojDbKindIds

variable {seq : Nat → Int} {builtin : List (MojString × KindObj)} {sys : MojDbKindIds}

/-! ## What is asked of every state -/

/-- The store is the one that the open request sees, and the committed one when there is none. -/
structure Holds (sys : MojDbKindIds) : Prop where
  distinct : ∀ n m v, sys.view.ids n = some v → sys.view.ids m = some v → n = m
  distinct_committed : ∀ n m v, sys.committed.ids n = some v → sys.committed.ids m = some v → n = m
  token : ∀ k kind, sys.memory.kinds k = some kind → sys.view.ids (tokenName k) = some kind.token
  index : ∀ k kind, sys.memory.kinds k = some kind → ∀ index ∈ kind.indexes,
    sys.view.ids (indexName k index.1.name) = some index.2
  entries : ∀ e ∈ sys.view.entries, ∀ n, sys.view.ids n = some e.indexId → n = indexName e.kindId e.index
  objects : ∀ o ∈ sys.view.objects, sys.view.ids (tokenName o.kindId) = some o.token
  resolves : ∀ o ∈ sys.view.objects, sys.memory.tokens o.token = some o.kindId

/-! ## The invariant -/

structure StoreInv (seq : Nat → Int) (builtin : List (MojString × KindObj)) (taken : List IdName) (s : Store) :
    Prop where
  ids : ∀ n v, s.ids n = some v → Owned seq taken n v
  entries : ∀ e ∈ s.entries, Owned seq taken (indexName e.kindId e.index) e.indexId
  objects : ∀ o ∈ s.objects, s.ids (tokenName o.kindId) = some o.token
  registered : ∀ o ∈ s.objects, o.kindId ∈ (builtin ++ s.kinds).map Prod.fst

def Resolves (s : Store) (m : Memory) : Prop := ∀ o ∈ s.objects, m.tokens o.token = some o.kindId

/-- The open kinds except those of `but`. -/
structure MemoryInv (builtin : List (MojString × KindObj)) (s : Store) (m : Memory) (but : MojString → Prop) :
    Prop where
  ok : ∀ k kind, ¬but k → m.kinds k = some kind → OpenOk s k kind
  tokens : ∀ k kind, ¬but k → m.kinds k = some kind → m.tokens kind.token = some k
  registered : ∀ k, ¬but k → (m.kinds k).isSome → k ∈ (builtin ++ s.kinds).map Prod.fst

def NoKind (_ : MojString) : Prop := False

structure Inv (seq : Nat → Int) (builtin : List (MojString × KindObj)) (sys : MojDbKindIds) : Prop where
  committed : StoreInv seq builtin sys.taken sys.committed
  view : StoreInv seq builtin sys.taken sys.view
  memory : MemoryInv builtin sys.view sys.memory NoKind
  resolves_committed : Resolves sys.committed sys.memory
  resolves : Resolves sys.view sys.memory

theorem Inv.holds (hseq : Function.Injective seq) (h : Inv seq builtin sys) : Holds sys where
  distinct n m v hn hm := (h.view.ids n v hn).unique hseq (h.view.ids m v hm)
  distinct_committed n m v hn hm := (h.committed.ids n v hn).unique hseq (h.committed.ids m v hm)
  token k kind hk := (h.memory.ok k kind not_false hk).token
  index k kind hk := (h.memory.ok k kind not_false hk).index
  entries e he n hn := (h.view.ids n _ hn).unique hseq (h.view.entries e he)
  objects := h.view.objects
  resolves := h.resolves

variable {k : MojString} {t t' : Txn} {s : Store} {m m' : Memory} {taken taken' : List IdName}

theorem StoreInv.mono (h : StoreInv seq builtin taken s) (hpre : taken <+: taken') :
    StoreInv seq builtin taken' s where
  ids n v hn := (h.ids n v hn).mono hpre
  entries e he := (h.entries e he).mono hpre
  objects := h.objects
  registered := h.registered

theorem Touches.storeInv (ht : Touches seq k t t') (h : StoreInv seq builtin t.taken t.store) :
    StoreInv seq builtin t'.taken t'.store where
  ids := ht.owned h.ids
  entries e he := (h.entries e (ht.entries e he)).mono ht.taken
  objects o ho := by
    have hold := h.objects o (ht.objects ▸ ho)
    by_cases hk : o.kindId = k
    · subst hk
      exact ht.token _ hold
    · exact (ht.other (tokenName o.kindId) hk).trans hold
  registered o ho := by
    rw [ht.kinds]
    exact h.registered o (ht.objects ▸ ho)

/-! ## A kind is put -/

/-- The kind `k` is open afterwards, with what the database has for it, and the others are as they were. -/
structure Opened (seq : Nat → Int) (k : MojString) (m : Memory) (t : Txn) (m' : Memory) (t' : Txn) : Prop where
  touches : Touches seq k t t'
  others : ∀ j, j ≠ k → m'.kinds j = m.kinds j
  opened : ∃ kind, m'.kinds k = some kind ∧ OpenOk t'.store k kind ∧ m'.tokens kind.token = some k
  keeps : Function.Injective seq → (∀ n v, t.store.ids n = some v → Owned seq t.taken n v) →
    ∀ v j, Owned seq t'.taken (tokenName j) v → m.tokens v = some j → m'.tokens v = some j

theorem opened_put (obj : KindObj) (hok : ∀ kind, m.kinds k = some kind → OpenOk t.store k kind)
    (htok : ∀ kind, m.kinds k = some kind → m.tokens kind.token = some k) :
    Opened seq k m t (enginePutKind seq k obj m t).1 (enginePutKind seq k obj m t).2 := by
  unfold enginePutKind
  cases hk : m.kinds k with
  | none =>
    have htouches : Touches seq k t (configure seq k [] obj t).2 := touches_configure [] obj t
    have hopen : OpenOk (configure seq k [] obj t).2.store k (configure seq k [] obj t).1 :=
      openOk_configure (fun _ h => (List.not_mem_nil h).elim) List.nodup_nil obj
    refine ⟨htouches, fun j hj => Function.update_of_ne hj _ _,
      ⟨_, Function.update_self _ _ _, hopen, Function.update_self _ _ _⟩, fun hseq howned v j hv hj => ?_⟩
    by_cases htoken : v = (configure seq k [] obj t).1.token
    · -- the token of another kind is none of this one's
      have hmine := htouches.owned howned _ _ hopen.token
      have hname := hv.unique hseq (htoken ▸ hmine)
      have hjk : j = k := congrArg IdName.kindId hname
      rw [htoken, hjk]
      exact Function.update_self _ _ _
    · exact (Function.update_of_ne htoken _ _).trans hj
  | some kind =>
    have hold := hok kind hk
    have hopen : OpenOk (configure seq k kind.indexes obj t).2.store k (configure seq k kind.indexes obj t).1 :=
      openOk_configure hold.index hold.nodup obj
    have hid : id seq (tokenName k) t = (kind.token, t) := id_known hold.token
    have hsame : (configure seq k kind.indexes obj t).1.token = kind.token := congrArg Prod.fst hid
    refine ⟨touches_configure kind.indexes obj t, fun j hj => Function.update_of_ne hj _ _,
      ⟨_, Function.update_self _ _ _, hopen, ?_⟩, fun _ _ _ _ _ hj => hj⟩
    change m.tokens (configure seq k kind.indexes obj t).1.token = some k
    rw [hsame]
    exact htok kind hk

/-- Where the other open kinds are right, all of them are after the put. -/
theorem Opened.memoryInv (h : Opened seq k m t m' t') (hseq : Function.Injective seq)
    (hinv : StoreInv seq builtin t.taken t.store) (hmem : MemoryInv builtin t.store m (· = k))
    (hk : k ∈ (builtin ++ t.store.kinds).map Prod.fst) : MemoryInv builtin t'.store m' NoKind := by
  obtain ⟨kind', hkind', hok', htok'⟩ := h.opened
  refine ⟨fun j kind _ hj => ?_, fun j kind _ hj => ?_, fun j _ hj => ?_⟩
  · by_cases hjk : j = k
    · subst hjk
      obtain rfl := Option.some.inj (hkind'.symm.trans hj)
      exact hok'
    · rw [h.others j hjk] at hj
      exact (hmem.ok j kind hjk hj).congr fun n hn => h.touches.other n (hn ▸ hjk)
  · by_cases hjk : j = k
    · subst hjk
      obtain rfl := Option.some.inj (hkind'.symm.trans hj)
      exact htok'
    · rw [h.others j hjk] at hj
      have htoken := hinv.ids _ _ (hmem.ok j kind hjk hj).token
      exact h.keeps hseq hinv.ids _ _ (htoken.mono h.touches.taken) (hmem.tokens j kind hjk hj)
  · rw [h.touches.kinds]
    by_cases hjk : j = k
    · exact hjk ▸ hk
    · rw [h.others j hjk] at hj
      exact hmem.registered j hjk hj

theorem Opened.resolves (h : Opened seq k m t m' t') (hseq : Function.Injective seq)
    (hinv : StoreInv seq builtin t.taken t.store) (hs : StoreInv seq builtin t.taken s) (hres : Resolves s m) :
    Resolves s m' := by
  intro o ho
  have howned := (hs.ids _ _ (hs.objects o ho)).mono h.touches.taken
  exact h.keeps hseq hinv.ids _ _ howned (hres o ho)

/-! ## A kind is deleted -/

theorem touches_engineDelKind (seq : Nat → Int) (k : MojString) (m : Memory) (t : Txn) :
    Touches seq k t (engineDelKind k m t).2 := by
  unfold engineDelKind
  split
  · exact .refl t
  · exact touches_dropIndexes _ t

theorem engineDelKind_kinds (k : MojString) (m : Memory) (t : Txn) :
    (engineDelKind k m t).1.kinds = Function.update m.kinds k none := by
  unfold engineDelKind
  split
  · next hnone =>
    funext j
    by_cases hj : j = k
    · rw [hj, hnone, Function.update_self]
    · rw [Function.update_of_ne hj]
  · rfl

theorem engineDelKind_tokens (k : MojString) (m : Memory) (t : Txn) :
    (engineDelKind k m t).1.tokens = m.tokens := by
  unfold engineDelKind
  split <;> rfl

/-- The kind `k` is not open, and the others are as they were. -/
theorem memoryInv_removed (ht : Touches seq k t t') (hmem : MemoryInv builtin t.store m (· = k))
    (hkinds : m'.kinds = Function.update m.kinds k none) (htokens : m'.tokens = m.tokens) :
    MemoryInv builtin t'.store m' NoKind := by
  have hnone : m'.kinds k = none := by rw [hkinds, Function.update_self]
  have hother : ∀ j, j ≠ k → m'.kinds j = m.kinds j := by
    intro j hj
    rw [hkinds, Function.update_of_ne hj]
  have hne : ∀ j kind, m'.kinds j = some kind → j ≠ k := by
    intro j kind hj he
    rw [he, hnone] at hj
    cases hj
  refine ⟨fun j kind _ hj => ?_, fun j kind _ hj => ?_, fun j _ hj => ?_⟩
  · have hjk := hne j kind hj
    exact (hmem.ok j kind hjk ((hother j hjk).symm.trans hj)).congr fun n hn => ht.other n (hn ▸ hjk)
  · have hjk := hne j kind hj
    rw [htokens]
    exact hmem.tokens j kind hjk ((hother j hjk).symm.trans hj)
  · obtain ⟨kind, hkind⟩ := Option.isSome_iff_exists.mp hj
    have hjk := hne j kind hkind
    rw [ht.kinds]
    exact hmem.registered j hjk (hother j hjk ▸ hj)

/-! ## The requests -/

theorem lookupKind_mem {kinds : List (MojString × KindObj)} (h : (lookupKind k kinds).isSome) :
    k ∈ kinds.map Prod.fst := by
  rw [lookupKind, Option.isSome_map, List.find?_isSome] at h
  obtain ⟨p, hp, he⟩ := h
  exact of_decide_eq_true he ▸ List.mem_map_of_mem hp

theorem mem_setKind {kinds : List (MojString × KindObj)} {obj : KindObj} {j : MojString} :
    j ∈ (setKind k obj kinds).map Prod.fst ↔ j = k ∨ j ∈ kinds.map Prod.fst := by
  rw [setKind, List.map_append, List.mem_append, List.map_singleton, List.mem_singleton]
  constructor
  · intro h
    refine h.elim (fun hold => .inr ?_) .inl
    exact (List.filter_sublist.map Prod.fst).subset hold
  · intro h
    by_cases hjk : j = k
    · exact .inr hjk
    · obtain ⟨p, hp, rfl⟩ := List.mem_map.mp (h.resolve_left hjk)
      exact .inl (List.mem_map_of_mem (List.mem_filter.mpr ⟨hp, decide_eq_true hjk⟩))

/-- Without an open request the committed store is all there is. -/
theorem inv_of_committed (hw : sys.working = none) (hs : StoreInv seq builtin sys.taken sys.committed)
    (hm : MemoryInv builtin sys.committed sys.memory NoKind) (hr : Resolves sys.committed sys.memory) :
    Inv seq builtin sys := by
  have hview : sys.view = sys.committed := by rw [view, hw, Option.getD_none]
  exact ⟨hs, hview ▸ hs, hview ▸ hm, hr, hview ▸ hr⟩

/-- A request writes the store and changes what is open. -/
theorem inv_write (h : Inv seq builtin sys) (hpre : sys.taken <+: t.taken)
    (hs : StoreInv seq builtin t.taken t.store) (hm : MemoryInv builtin t.store m NoKind)
    (hr : Resolves t.store m) (hrc : Resolves sys.committed m) : Inv seq builtin (sys.write t m) := by
  unfold write
  split
  · exact ⟨h.committed.mono hpre, hs, hm, hrc, hr⟩
  · exact inv_of_committed rfl hs hm hr

theorem memoryInv_removeKind (hm : MemoryInv builtin s m (· = k)) :
    MemoryInv builtin s (removeKind m k) (· = k) := by
  have hother : ∀ j, j ≠ k → (removeKind m k).kinds j = m.kinds j := fun j hj => Function.update_of_ne hj _ _
  refine ⟨fun j kind hj hk => ?_, fun j kind hj hk => ?_, fun j hj hk => ?_⟩
  · exact hm.ok j kind hj ((hother j hj).symm.trans hk)
  · exact hm.tokens j kind hj ((hother j hj).symm.trans hk)
  · rw [hother j hj] at hk
    exact hm.registered j hj hk

/-- The open request has changed no id, and stored no kind that was not there. -/
structure Unchanged (sys : MojDbKindIds) : Prop where
  ids : sys.view.ids = sys.committed.ids
  kinds : ∀ k ∈ sys.view.kinds.map Prod.fst, k ∈ sys.committed.kinds.map Prod.fst

/-- Then what is open is also right for the committed store. -/
theorem memoryInv_committed {but : MojString → Prop} (h : MemoryInv builtin sys.view m but) (hun : Unchanged sys) :
    MemoryInv builtin sys.committed m but where
  ok j kind hj hk := (h.ok j kind hj hk).congr fun n _ => (congrFun hun.ids n).symm
  tokens := h.tokens
  registered j hj hk := by
    have hmem := h.registered j hj hk
    rw [List.map_append, List.mem_append] at hmem ⊢
    exact hmem.imp_right (hun.kinds j)

theorem MemoryInv.weaken (h : MemoryInv builtin s m NoKind) (but : MojString → Prop) : MemoryInv builtin s m but :=
  ⟨fun j kind _ => h.ok j kind not_false, fun j kind _ => h.tokens j kind not_false,
    fun j _ => h.registered j not_false⟩

/-- What is open apart from one kind does not depend on that kind. -/
theorem MemoryInv.others (h : MemoryInv builtin s m (· = k)) (hkinds : ∀ j, j ≠ k → m'.kinds j = m.kinds j)
    (htokens : ∀ j kind, j ≠ k → m.kinds j = some kind → m'.tokens kind.token = some j) :
    MemoryInv builtin s m' (· = k) where
  ok j kind hj hk := h.ok j kind hj (hkinds j hj ▸ hk)
  tokens j kind hj hk := htokens j kind hj (hkinds j hj ▸ hk)
  registered j hj hk := h.registered j hj (hkinds j hj ▸ hk)

/-- A reload that fails in the kind engine is of a kind that is stored; one that fails before it finds in memory what was
there before the request; one that fails behind it has changed no id map. -/
def ReloadSafe (seq : Nat → Int) (sys : MojDbKindIds) (k : MojString) (before : Memory) : Option ReloadFault → Prop
  | none => True
  | some .before => sys.memory.kinds k = before.kinds k
  | some (.engine _ _) => (lookupKind k sys.committed.kinds).isSome
  | some .late => ∀ obj, lookupKind k sys.committed.kinds = some obj →
      (enginePutKind seq k obj (removeKind sys.memory k) ⟨sys.committed, sys.taken⟩).2.store = sys.committed

/-- After an abort only the kind that is reloaded may be other than committed. -/
theorem inv_reloadKind (hseq : Function.Injective seq) (hs : StoreInv seq builtin taken sys.committed)
    (hm : MemoryInv builtin sys.committed m (· = k)) (hr : Resolves sys.committed m) {before : Memory}
    (hbefore : MemoryInv builtin sys.committed before NoKind)
    (htokens : ∀ kind, before.kinds k = some kind → m.tokens kind.token = some k) {fault : Option ReloadFault}
    (hsafe : ReloadSafe seq (sys.aborted taken m) k before fault) :
    Inv seq builtin (reloadKind seq (sys.aborted taken m) k fault) := by
  have hunchanged : m.kinds k = before.kinds k → MemoryInv builtin sys.committed m NoKind := by
    intro hsame
    refine ⟨fun j kind _ hk => ?_, fun j kind _ hk => ?_, fun j _ hk => ?_⟩
    · by_cases hj : j = k
      · subst hj
        exact hbefore.ok j kind not_false (hsame ▸ hk)
      · exact hm.ok j kind hj hk
    · by_cases hj : j = k
      · subst hj
        exact htokens kind (hsame ▸ hk)
      · exact hm.tokens j kind hj hk
    · by_cases hj : j = k
      · subst hj
        exact hbefore.registered j not_false (hsame ▸ hk)
      · exact hm.registered j hj hk
  unfold reloadKind
  dsimp only [aborted] at hsafe ⊢
  cases hlookup : lookupKind k sys.committed.kinds with
  | some obj =>
    have hbut := memoryInv_removeKind hm
    have hnone : (removeKind m k).kinds k = none := Function.update_self _ _ _
    have hopened : Opened seq k (removeKind m k) ⟨sys.committed, taken⟩ _ _ :=
      opened_put obj (fun kind hk => nomatch hnone.symm.trans hk) (fun kind hk => nomatch hnone.symm.trans hk)
    have hk : k ∈ (builtin ++ sys.committed.kinds).map Prod.fst := by
      rw [List.map_append]
      exact List.mem_append_right _ (lookupKind_mem (hlookup ▸ rfl))
    have hmemory := hopened.memoryInv hseq hs hbut hk
    cases fault with
    | none =>
      have hstore := hopened.touches.storeInv hs
      refine inv_of_committed rfl hstore hmemory (fun o ho => ?_)
      exact hopened.resolves hseq hs hs hr o (hopened.touches.objects ▸ ho)
    | some fault =>
      cases fault with
      | before => exact inv_of_committed rfl hs (hunchanged hsafe) hr
      | engine used left =>
        have htouches : Touches seq k ⟨sys.committed, taken⟩ ⟨sys.committed, taken⟩ := .refl _
        have hmem : MemoryInv builtin sys.committed (removeKind m k) NoKind := memoryInv_removed htouches hm rfl rfl
        exact inv_of_committed rfl (hs.mono (List.prefix_append _ _)) hmem hr
      | late =>
        rw [hsafe obj hlookup] at hmemory
        exact inv_of_committed rfl (hs.mono hopened.touches.taken) hmemory (hopened.resolves hseq hs hs hr)
  | none =>
    have htouches : Touches seq k ⟨sys.committed, taken⟩ _ := touches_engineDelKind seq k m ⟨sys.committed, taken⟩
    have htokens := engineDelKind_tokens k m ⟨sys.committed, taken⟩
    have hkinds := engineDelKind_kinds k m ⟨sys.committed, taken⟩
    cases fault with
    | none =>
      refine inv_of_committed rfl (htouches.storeInv hs) (memoryInv_removed htouches hm hkinds htokens) (fun o ho => ?_)
      exact (congrFun htokens o.token).trans (hr o (htouches.objects ▸ ho))
    | some fault =>
      cases fault with
      | before => exact inv_of_committed rfl hs (hunchanged hsafe) hr
      | engine used left =>
        have hstored : (lookupKind k sys.committed.kinds).isSome := hsafe
        rw [hlookup] at hstored
        cases hstored
      | late =>
        have hmem := memoryInv_removed (.refl ⟨sys.committed, taken⟩ : Touches seq k _ _) hm hkinds htokens
        refine inv_of_committed rfl (hs.mono htouches.taken) hmem fun o ho => ?_
        exact (congrFun htokens o.token).trans (hr o ho)

/-- When a request fails it has changed no id map, and its reload is safe. -/
def FaultSafe (seq : Nat → Int) (sys : MojDbKindIds) (kindId : MojString) (done : Memory × Txn) (fault : Option Fault) : Prop :=
  match fault with
  | none => True
  | some (.engine used left reload) => Unchanged sys ∧
      ReloadSafe seq (sys.aborted (sys.taken ++ used) (leaveKind sys.memory kindId left)) kindId sys.memory reload
  | some (.later reload) => Unchanged sys ∧ ReloadSafe seq (sys.aborted done.2.taken done.1) kindId sys.memory reload

theorem inv_putKind (hseq : Function.Injective seq) (h : Inv seq builtin sys) (obj : KindObj) {fault : Option Fault}
    (hsafe : FaultSafe seq sys k (enginePutKind seq k obj sys.memory ⟨withKind sys.view k obj, sys.taken⟩) fault) :
    Inv seq builtin (sys.putKind seq k obj fault) := by
  unfold putKind
  split_ifs
  · exact h
  have hnames : ∀ j ∈ (builtin ++ sys.view.kinds).map Prod.fst,
      j ∈ (builtin ++ (withKind sys.view k obj).kinds).map Prod.fst := by
    intro j hj
    rw [List.map_append, List.mem_append] at hj ⊢
    exact hj.imp_right fun hin => mem_setKind.mpr (.inr hin)
  have hmem : MemoryInv builtin (withKind sys.view k obj) sys.memory NoKind := by
    refine ⟨fun j kind hj hk => ?_, h.memory.tokens, fun j hj hk => hnames j (h.memory.registered j hj hk)⟩
    exact (h.memory.ok j kind hj hk).congr fun _ _ => rfl
  have hstore : StoreInv seq builtin sys.taken (withKind sys.view k obj) :=
    ⟨h.view.ids, h.view.entries, h.view.objects, fun o ho => hnames _ (h.view.registered o ho)⟩
  have hopened : Opened seq k sys.memory ⟨withKind sys.view k obj, sys.taken⟩ _ _ :=
    opened_put obj (fun kind hk => hmem.ok k kind not_false hk) (fun kind hk => hmem.tokens k kind not_false hk)
  have hrc := hopened.resolves hseq hstore h.committed h.resolves_committed
  have hpre := hopened.touches.taken
  cases fault with
  | none =>
    have hk : k ∈ (builtin ++ (withKind sys.view k obj).kinds).map Prod.fst := by
      rw [List.map_append, List.mem_append]
      exact .inr (mem_setKind.mpr (.inl rfl))
    refine inv_write h hpre (hopened.touches.storeInv hstore)
      (hopened.memoryInv hseq hstore (hmem.weaken _) hk) (fun o ho => ?_) hrc
    exact hopened.resolves hseq hstore h.view h.resolves o (hopened.touches.objects ▸ ho)
  | some fault =>
    cases fault with
    | engine used left reload =>
      have hbefore := memoryInv_committed h.memory hsafe.1
      have hleft : MemoryInv builtin sys.committed (leaveKind sys.memory k left) (· = k) := (hbefore.weaken _).others
        (fun j hj => Function.update_of_ne hj _ _) fun j kind _ hk => h.memory.tokens j kind not_false hk
      exact inv_reloadKind hseq (h.committed.mono (List.prefix_append _ _)) hleft h.resolves_committed hbefore
        (fun kind hk => h.memory.tokens k kind not_false hk) hsafe.2
    | later reload =>
      have hbefore := memoryInv_committed h.memory hsafe.1
      have hkeeps : ∀ j kind, sys.memory.kinds j = some kind → _ := fun j kind hk =>
        hopened.keeps hseq hstore.ids _ _ ((hstore.ids _ _ (hmem.ok j kind not_false hk).token).mono hpre)
          (hmem.tokens j kind not_false hk)
      exact inv_reloadKind hseq (h.committed.mono hpre)
        ((hbefore.weaken (· = k)).others hopened.others fun j kind _ hk => hkeeps j kind hk) hrc hbefore (hkeeps k) hsafe.2

theorem mem_withoutKind {reached : Nat → Bool} {j : MojString} (hj : j ≠ k)
    (h : j ∈ (builtin ++ s.kinds).map Prod.fst) : j ∈ (builtin ++ (withoutKind s k reached).kinds).map Prod.fst := by
  rw [List.map_append, List.mem_append] at h ⊢
  refine h.imp_right fun hin => ?_
  obtain ⟨p, hp, rfl⟩ := List.mem_map.mp hin
  exact List.mem_map_of_mem (List.mem_filter.mpr ⟨hp, decide_eq_true hj⟩)

theorem inv_delKind (hseq : Function.Injective seq) (h : Inv seq builtin sys) {reached : Nat → Bool}
    {fault : Option Fault} (hreached : ∀ o ∈ sys.view.objects, o.kindId = k → reached o.id = true)
    (hsafe : FaultSafe seq sys k (engineDelKind k sys.memory ⟨withoutKind sys.view k reached, sys.taken⟩) fault) :
    Inv seq builtin (sys.delKind seq k reached fault) := by
  unfold delKind
  split_ifs
  · exact h
  have hstore : StoreInv seq builtin sys.taken (withoutKind sys.view k reached) := by
    refine ⟨h.view.ids, fun e he => h.view.entries e (List.mem_filter.mp he).1,
      fun o ho => h.view.objects o (List.mem_filter.mp ho).1, fun o ho => ?_⟩
    obtain ⟨ho, hkept⟩ := List.mem_filter.mp ho
    have hne : o.kindId ≠ k := fun he => of_decide_eq_true hkept ⟨he, hreached o ho he⟩
    exact mem_withoutKind hne (h.view.registered o ho)
  have hmem : MemoryInv builtin (withoutKind sys.view k reached) sys.memory (· = k) := by
    refine ⟨fun j kind _ hk => ?_, fun j kind _ hk => h.memory.tokens j kind not_false hk, fun j hj hk => ?_⟩
    · exact (h.memory.ok j kind not_false hk).congr fun _ _ => rfl
    · exact mem_withoutKind hj (h.memory.registered j not_false hk)
  have htouches : Touches seq k ⟨withoutKind sys.view k reached, sys.taken⟩ _ :=
    touches_engineDelKind seq k sys.memory ⟨withoutKind sys.view k reached, sys.taken⟩
  have hkinds := engineDelKind_kinds k sys.memory ⟨withoutKind sys.view k reached, sys.taken⟩
  have htokens := engineDelKind_tokens k sys.memory ⟨withoutKind sys.view k reached, sys.taken⟩
  have hrc : Resolves sys.committed (engineDelKind k sys.memory ⟨withoutKind sys.view k reached, sys.taken⟩).1 :=
    fun o ho => (congrFun htokens o.token).trans (h.resolves_committed o ho)
  cases fault with
  | none =>
    refine inv_write h htouches.taken (htouches.storeInv hstore) (memoryInv_removed htouches hmem hkinds htokens)
      (fun o ho => ?_) hrc
    have hold : o ∈ sys.view.objects := (List.mem_filter.mp (htouches.objects ▸ ho)).1
    exact (congrFun htokens o.token).trans (h.resolves o hold)
  | some fault =>
    cases fault with
    | engine used left reload =>
      have hbefore := memoryInv_committed h.memory hsafe.1
      have hleft : MemoryInv builtin sys.committed (leaveKind sys.memory k left) (· = k) := (hbefore.weaken _).others
        (fun j hj => Function.update_of_ne hj _ _) fun j kind _ hk => h.memory.tokens j kind not_false hk
      exact inv_reloadKind hseq (h.committed.mono (List.prefix_append _ _)) hleft h.resolves_committed hbefore
        (fun kind hk => h.memory.tokens k kind not_false hk) hsafe.2
    | later reload =>
      have hbefore := memoryInv_committed h.memory hsafe.1
      have hkept : ∀ j kind, sys.memory.kinds j = some kind → _ := fun j kind hk =>
        (congrFun htokens kind.token).trans (h.memory.tokens j kind not_false hk)
      refine inv_reloadKind hseq (h.committed.mono htouches.taken)
        ((hbefore.weaken (· = k)).others (fun j hj => ?_) fun j kind _ hk => hkept j kind hk) hrc hbefore (hkept k) hsafe.2
      rw [hkinds, Function.update_of_ne hj]

theorem mem_entriesOf {objId shardId : Nat} {e : IndexEntry} (h : e ∈ entriesOf m objId shardId k) :
    ∃ kind, m.kinds k = some kind ∧ ∃ index ∈ kind.indexes, e = ⟨index.2, k, index.1.name, objId, shardId⟩ := by
  unfold entriesOf at h
  cases hk : m.kinds k with
  | none =>
    rw [hk] at h
    cases h
  | some kind =>
    rw [hk] at h
    obtain ⟨index, hindex, he⟩ := List.mem_map.mp h
    exact ⟨kind, rfl, index, hindex, he.symm⟩

theorem inv_putObj (h : Inv seq builtin sys) (objId shardId : Nat) (supers : List MojString) :
    Inv seq builtin (sys.putObj objId shardId k supers) := by
  unfold putObj
  cases hk : sys.memory.kinds k with
  | none => exact h
  | some kind =>
    have hok := h.memory.ok k kind not_false hk
    refine inv_write h List.prefix_rfl ⟨h.view.ids, fun e he => ?_, fun o ho => ?_, fun o ho => ?_⟩
      ⟨fun j kind hj hkind => ?_, h.memory.tokens, h.memory.registered⟩ (fun o ho => ?_) h.resolves_committed
    · cases List.mem_append.mp he with
      | inl hold => exact h.view.entries e (List.mem_filter.mp hold).1
      | inr hnew =>
        obtain ⟨j, -, hj⟩ := List.mem_flatMap.mp hnew
        obtain ⟨kind, hkind, index, hindex, rfl⟩ := mem_entriesOf hj
        exact h.view.ids _ _ ((h.memory.ok j kind not_false hkind).index index hindex)
    · cases List.mem_append.mp ho with
      | inl hold => exact h.view.objects o (List.mem_filter.mp hold).1
      | inr hnew =>
        obtain rfl := List.mem_singleton.mp hnew
        exact hok.token
    · cases List.mem_append.mp ho with
      | inl hold => exact h.view.registered o (List.mem_filter.mp hold).1
      | inr hnew =>
        obtain rfl := List.mem_singleton.mp hnew
        exact h.memory.registered k not_false (Option.isSome_iff_exists.mpr ⟨kind, hk⟩)
    · exact (h.memory.ok j kind hj hkind).congr fun _ _ => rfl
    · cases List.mem_append.mp ho with
      | inl hold => exact h.resolves o (List.mem_filter.mp hold).1
      | inr hnew =>
        obtain rfl := List.mem_singleton.mp hnew
        exact h.memory.tokens k kind not_false hk

/-! ## The database is opened -/

theorem touches_enginePutKind (seq : Nat → Int) (k : MojString) (obj : KindObj) (m : Memory) (t : Txn) :
    Touches seq k t (enginePutKind seq k obj m t).2 := by
  unfold enginePutKind
  split
  · exact touches_configure [] obj t
  · exact touches_configure _ obj t

theorem loadKinds_taken (fails : MojString → Bool) (kinds : List (MojString × KindObj)) (m : Memory) (t : Txn) :
    t.taken <+: (loadKinds seq fails kinds (m, t)).2.taken := by
  induction kinds generalizing m t with
  | nil => exact List.prefix_rfl
  | cons p kinds ih =>
    unfold loadKinds
    split_ifs
    · exact ih m t
    · exact (touches_enginePutKind seq p.1 p.2 m t).taken.trans (ih _ _)

structure Loaded (seq : Nat → Int) (builtin : List (MojString × KindObj)) (kinds : List (MojString × KindObj))
    (m : Memory) (t : Txn) (r : Memory × Txn) : Prop where
  store : StoreInv seq builtin r.2.taken r.2.store
  memory : MemoryInv builtin r.2.store r.1 NoKind
  objects : r.2.store.objects = t.store.objects
  opened : ∀ j, j ∈ kinds.map Prod.fst ∨ (m.kinds j).isSome → (r.1.kinds j).isSome

theorem loaded (hseq : Function.Injective seq) {fails : MojString → Bool} (kinds : List (MojString × KindObj))
    (hfails : ∀ p ∈ kinds, fails p.1 = false) (hs : StoreInv seq builtin t.taken t.store)
    (hm : MemoryInv builtin t.store m NoKind)
    (hreg : ∀ p ∈ kinds, p.1 ∈ (builtin ++ t.store.kinds).map Prod.fst) :
    Loaded seq builtin kinds m t (loadKinds seq fails kinds (m, t)) := by
  induction kinds generalizing m t with
  | nil => exact ⟨hs, hm, rfl, fun j hj => hj.resolve_left List.not_mem_nil⟩
  | cons p kinds ih =>
    obtain ⟨k, obj⟩ := p
    have hk := hreg (k, obj) List.mem_cons_self
    have hopened : Opened seq k m t _ _ := opened_put obj (fun kind hk => hm.ok k kind not_false hk)
      (fun kind hk => hm.tokens k kind not_false hk)
    have hload := ih (fun p hp => hfails p (List.mem_cons_of_mem _ hp)) (hopened.touches.storeInv hs)
      (hopened.memoryInv hseq hs (hm.weaken _) hk) (fun p hp => by
        rw [hopened.touches.kinds]
        exact hreg p (List.mem_cons_of_mem _ hp))
    have hstep : loadKinds seq fails ((k, obj) :: kinds) (m, t) =
        loadKinds seq fails kinds (enginePutKind seq k obj m t) := by
      rw [loadKinds, if_neg (ne_true_of_eq_false (hfails (k, obj) List.mem_cons_self))]
    rw [hstep]
    refine ⟨hload.store, hload.memory, hload.objects.trans hopened.touches.objects, fun j hj => hload.opened j ?_⟩
    by_cases hjk : j = k
    · obtain ⟨kind, hkind, -⟩ := hopened.opened
      rw [hjk]
      exact .inr (Option.isSome_iff_exists.mpr ⟨kind, hkind⟩)
    · rw [List.map_cons, List.mem_cons] at hj
      cases hj with
      | inl hmem => exact .inl (hmem.resolve_left hjk)
      | inr hold => exact .inr (hopened.others j hjk ▸ hold)

/-- Nothing is open. -/
theorem memoryInv_nothing (builtin : List (MojString × KindObj)) (s : Store) :
    MemoryInv builtin s ⟨fun _ => none, fun _ => none⟩ NoKind := by
  refine ⟨fun k kind _ hk => ?_, fun k kind _ hk => ?_, fun k _ hk => ?_⟩
  · cases hk
  · cases hk
  · cases hk

theorem inv_reopen (hseq : Function.Injective seq) (h : Inv seq builtin sys) {fails : MojString → Bool}
    (hfails : ∀ p ∈ builtin ++ sys.committed.kinds, fails p.1 = false) :
    Inv seq builtin (sys.reopen seq builtin fails) := by
  have hempty := memoryInv_nothing builtin sys.committed
  have hload := loaded (t := ⟨sys.committed, sys.taken⟩) hseq (builtin ++ sys.committed.kinds) hfails h.committed hempty
    fun p hp => List.mem_map_of_mem hp
  refine inv_of_committed rfl hload.store hload.memory fun o ho => ?_
  have hmem := h.committed.registered o (hload.objects ▸ ho)
  obtain ⟨kind, hkind⟩ := Option.isSome_iff_exists.mp (hload.opened o.kindId (.inl hmem))
  -- the token of the open kind is the one in the header
  have htoken := (hload.memory.ok o.kindId kind not_false hkind).token
  have hsame : kind.token = o.token := Option.some.inj (htoken.symm.trans (hload.store.objects o ho))
  have htokens := hload.memory.tokens o.kindId kind not_false hkind
  rw [hsame] at htokens
  exact htokens

/-! ## Runs -/

def Safe (seq : Nat → Int) (builtin : List (MojString × KindObj)) (sys : MojDbKindIds) : Action → Prop
  | .putKind kindId obj fault =>
    FaultSafe seq sys kindId (enginePutKind seq kindId obj sys.memory ⟨withKind sys.view kindId obj, sys.taken⟩) fault
  | .delKind kindId reached fault =>
    (∀ o ∈ sys.view.objects, o.kindId = kindId → reached o.id = true) ∧
      FaultSafe seq sys kindId (engineDelKind kindId sys.memory ⟨withoutKind sys.view kindId reached, sys.taken⟩) fault
  | .putObj _ _ _ _ => True
  | .begin => True
  | .finish commits => commits = true ∨ Unchanged sys
  | .reopen fails => ∀ p ∈ builtin ++ sys.committed.kinds, fails p.1 = false

theorem inv_init : Inv seq builtin init := by
  refine inv_of_committed rfl ⟨fun n v h => ?_, fun e he => ?_, fun o ho => ?_, fun o ho => ?_⟩
    (memoryInv_nothing builtin _) fun o ho => ?_
  · cases h
  · cases he
  · cases ho
  · cases ho
  · cases ho

theorem inv_step (hseq : Function.Injective seq) (h : Inv seq builtin sys) (a : Action)
    (hsafe : sys.Safe seq builtin a) : Inv seq builtin (sys.step seq builtin a) := by
  cases a with
  | putKind kindId obj fault => exact inv_putKind hseq h obj hsafe
  | delKind kindId reached fault => exact inv_delKind hseq h hsafe.1 hsafe.2
  | putObj objId shardId kindId supers => exact inv_putObj h objId shardId supers
  | begin => exact ⟨h.committed, h.view, h.memory, h.resolves_committed, h.resolves⟩
  | finish commits =>
    cases commits with
    | true => exact inv_of_committed rfl h.view h.memory h.resolves
    | false =>
      have hunchanged := hsafe.resolve_left Bool.false_ne_true
      have hmemory : MemoryInv builtin sys.committed sys.memory NoKind := memoryInv_committed h.memory hunchanged
      exact inv_of_committed rfl h.committed hmemory h.resolves_committed
  | reopen fails => exact inv_reopen hseq h hsafe

theorem write_taken (t : Txn) (m : Memory) : (sys.write t m).taken = t.taken := by
  unfold write
  split <;> rfl

theorem reloadKind_taken (sys : MojDbKindIds) (k : MojString) (fault : Option ReloadFault) :
    sys.taken <+: (sys.reloadKind seq k fault).taken := by
  unfold reloadKind
  cases lookupKind k sys.committed.kinds with
  | some obj =>
    have hput := (touches_enginePutKind seq k obj (removeKind sys.memory k) ⟨sys.committed, sys.taken⟩).taken
    cases fault with
    | none => exact hput
    | some fault =>
      cases fault with
      | before => exact List.prefix_rfl
      | engine used left => exact List.prefix_append _ _
      | late => exact hput
  | none =>
    have hdel := (touches_engineDelKind seq k sys.memory ⟨sys.committed, sys.taken⟩).taken
    cases fault with
    | none => exact hdel
    | some fault =>
      cases fault with
      | before => exact List.prefix_rfl
      | engine used left => exact List.prefix_append _ _
      | late => exact hdel

theorem putKind_taken (sys : MojDbKindIds) (k : MojString) (obj : KindObj) (fault : Option Fault) :
    sys.taken <+: (sys.putKind seq k obj fault).taken := by
  have hput := (touches_enginePutKind seq k obj sys.memory ⟨withKind sys.view k obj, sys.taken⟩).taken
  unfold putKind
  split_ifs
  · exact List.prefix_rfl
  · cases fault with
    | none => exact hput.trans (write_taken _ _ ▸ List.prefix_rfl)
    | some fault =>
      cases fault with
      | engine used left reload => exact (List.prefix_append _ _).trans (reloadKind_taken (sys.aborted _ _) k reload)
      | later reload => exact hput.trans (reloadKind_taken (sys.aborted _ _) k reload)

theorem delKind_taken (sys : MojDbKindIds) (k : MojString) (reached : Nat → Bool) (fault : Option Fault) :
    sys.taken <+: (sys.delKind seq k reached fault).taken := by
  have hdel := (touches_engineDelKind seq k sys.memory ⟨withoutKind sys.view k reached, sys.taken⟩).taken
  unfold delKind
  split_ifs
  · exact List.prefix_rfl
  · cases fault with
    | none => exact hdel.trans (write_taken _ _ ▸ List.prefix_rfl)
    | some fault =>
      cases fault with
      | engine used left reload => exact (List.prefix_append _ _).trans (reloadKind_taken (sys.aborted _ _) k reload)
      | later reload => exact hdel.trans (reloadKind_taken (sys.aborted _ _) k reload)

theorem putObj_taken (sys : MojDbKindIds) (objId shardId : Nat) (k : MojString) (supers : List MojString) :
    sys.taken <+: (sys.putObj objId shardId k supers).taken := by
  unfold putObj
  split
  · exact List.prefix_rfl
  · rw [write_taken]

/-- What the sequence has given is not given again. -/
theorem step_taken (sys : MojDbKindIds) (a : Action) : sys.taken <+: (sys.step seq builtin a).taken := by
  cases a with
  | putKind kindId obj fault => exact putKind_taken sys kindId obj fault
  | delKind kindId reached fault => exact delKind_taken sys kindId reached fault
  | putObj objId shardId kindId supers => exact putObj_taken sys objId shardId kindId supers
  | begin => exact List.prefix_rfl
  | finish commits => exact List.prefix_rfl
  | reopen fails => exact loadKinds_taken fails _ _ ⟨sys.committed, sys.taken⟩

theorem run_taken (acts : List Action) (sys : MojDbKindIds) :
    sys.taken <+: (run (step seq builtin) sys acts).taken := by
  induction acts generalizing sys with
  | nil => exact List.prefix_rfl
  | cons a acts ih => exact (step_taken sys a).trans (ih _)

/-- And an id that is committed for a name at some point of the run is never committed for another. -/
theorem ids_hold_of_run (hseq : Function.Injective seq) {acts : List Action}
    (hsafe : Along (step seq builtin) (Safe seq builtin) init acts) :
    Holds (run (step seq builtin) init acts) ∧
      ∀ before, before <+: acts → ∀ n m v, (run (step seq builtin) init before).committed.ids n = some v →
        (run (step seq builtin) init acts).committed.ids m = some v → n = m := by
  have hinv : ∀ as, Along (step seq builtin) (Safe seq builtin) init as →
      Inv seq builtin (run (step seq builtin) init as) := fun as has =>
    Along.invariant (Inv seq builtin) (fun _ a h ha => inv_step hseq h a ha) inv_init has
  refine ⟨(hinv acts hsafe).holds hseq, fun before hbefore n m v hn hm => ?_⟩
  have hold := (hinv before (hsafe.of_isPrefix hbefore)).committed.ids n v hn
  have hnow := (hinv acts hsafe).committed.ids m v hm
  obtain ⟨rest, rfl⟩ := hbefore
  rw [run_append] at hnow
  exact (hold.mono (run_taken rest _)).unique hseq hnow

/-- A kind with one index besides that on `_id`. -/
def aKind (other : MojObject) : KindObj := ⟨[⟨MojDb.RevKey, .undefined⟩], other, by decide⟩

theorem ids_hold_of_run_aborts :
    Along (step Nat.cast [(MojDb.KindKey, aKind .null)]) (Safe Nat.cast [(MojDb.KindKey, aKind .null)]) init
        [.reopen fun _ => false, .putKind MojDb.DelKey (aKind .null) none, .putObj 1 0 MojDb.DelKey [MojDb.KindKey],
          .putKind MojDb.DelKey (aKind .undefined) (some (.later none)), .begin,
          .delKind MojDb.DelKey (fun _ => true) none, .finish true, .reopen fun _ => false] ∧
      Holds (run (step Nat.cast [(MojDb.KindKey, aKind .null)]) init
        [.reopen fun _ => false, .putKind MojDb.DelKey (aKind .null) none, .putObj 1 0 MojDb.DelKey [MojDb.KindKey],
          .putKind MojDb.DelKey (aKind .undefined) (some (.later none)), .begin,
          .delKind MojDb.DelKey (fun _ => true) none, .finish true, .reopen fun _ => false]) := by
  have hsafe : Along (step Nat.cast [(MojDb.KindKey, aKind .null)]) (Safe Nat.cast [(MojDb.KindKey, aKind .null)]) init
      [.reopen fun _ => false, .putKind MojDb.DelKey (aKind .null) none, .putObj 1 0 MojDb.DelKey [MojDb.KindKey],
        .putKind MojDb.DelKey (aKind .undefined) (some (.later none)), .begin,
        .delKind MojDb.DelKey (fun _ => true) none, .finish true, .reopen fun _ => false] := by
    refine ⟨fun _ _ => rfl, trivial, trivial, ⟨⟨rfl, fun _ h => h⟩, trivial⟩, trivial, ⟨fun _ _ _ => rfl, trivial⟩, ?_,
      fun _ _ => rfl, trivial⟩
    exact Or.inl rfl
  exact ⟨hsafe, (ids_hold_of_run Nat.cast_injective hsafe).1⟩

/-- A request that has put a kind aborts: the kind stays open, with a token that is not in the database. -/
theorem not_holds_of_abort :
    ¬∀ acts : List Action, Holds (run (step Nat.cast []) init acts) := by
  intro h
  have hrun := (h [.begin, .putKind MojDb.DelKey (aKind .null) none, .finish false]).token MojDb.DelKey
  cases hkind : (run (step Nat.cast []) init
      [.begin, .putKind MojDb.DelKey (aKind .null) none, .finish false]).memory.kinds MojDb.DelKey with
  | none => cases hkind
  | some kind => cases hrun kind hkind

end MojDbKindIds

end Db8
