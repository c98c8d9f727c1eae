import Db8.Core.MojHashBaseMap

/-!
# Core.MojHashBaseRun

Several containers over a run of operations: each is a map of its own.

* `specStep`, `specRun`   — the operations on maps.
* `Shows`                 — the containers have these maps as content.
* `Shows.step`, `Shows.run` — an operation, and a run of them, does with the containers what it does with the maps.
* `Shows.del`             — the chains after `del`.
* `Ok.iterate`, `Ok.bucket` — what is seen on the way through a container, or one chain.
* `Grown`                 — what a run of `put` leaves of the way ahead of an iterator.
-/

namespace Db8

open Lib

namespace MojHashBase

variable {ι κ α : Type} {hash : κ → Nat} {h h' : Heap κ α} {i a : Nat} {m : Impl} {l : List Nat}

/-! ## What is seen of a container -/

theorem mapM_entryOf (hall : ∀ a ∈ l, ∃ e, entryOf h a = some e) : l.mapM (entryOf h) = some (entries h l) := by
  induction l with
  | nil => rfl
  | cons a l ih =>
    obtain ⟨e, he⟩ := hall a List.mem_cons_self
    simp [he, entries_cons he, ih fun b hb => hall b (List.mem_cons_of_mem a hb)]

/-- The nodes of one bucket are those of the table with such a key. -/
theorem Table.entries_chain (ht : Table hash h i m l) {idx : Nat} {chain : List Nat} (hnodup : chain.Nodup)
    (hall : ∀ a, a ∈ chain ↔ a ∈ l ∧ bucketOf hash h m.buckets.length a = some idx) :
    (entries h chain).Perm ((entries h l).filter fun e => bucketForKey hash e.1 m.buckets.length = idx) := by
  have hperm : chain.Perm (l.filter fun a => bucketOf hash h m.buckets.length a = some idx) := by
    refine (List.perm_ext_iff_of_nodup hnodup (ht.nodup.filter _)).mpr fun a => ?_
    rw [hall, List.mem_filter, decide_eq_true_iff]
  refine (hperm.filterMap (entryOf h)).trans (List.Perm.of_eq ?_)
  rw [entries, List.filter_filterMap, List.filterMap_filter]
  refine List.filterMap_congr fun a ha => ?_
  obtain ⟨e, he⟩ := ht.exists_entry ha
  by_cases hidx : bucketForKey hash e.1 m.buckets.length = idx
  · simp [bucketOf, he, hidx, Option.filter]
  · simp [bucketOf, he, hidx, Option.filter]

namespace Ok

variable [Fintype ι] {impls : ι → Option Nat} {nodes : Nat → List Nat} {copy : Option Nat}

/-- From a place in the list of a table on. -/
theorem iterateFrom (hok : Ok hash h impls nodes copy) {before after : List Nat} (hl : nodes i = before ++ a :: after) :
    iterateFrom h (some a) = some (entries h (a :: after)) := by
  have him : ∃ m, h.impls i = some m := by
    cases him : h.impls i with
    | none =>
      rw [hok.nodes_nil i him] at hl
      simp at hl
    | some m => exact ⟨m, rfl⟩
  obtain ⟨m, him⟩ := him
  have ht := hok.tables i m him
  have hchain := ht.linked.chain
  rw [hl] at hchain
  obtain ⟨q, hq, hrest⟩ := hchain.drop
  have hlen := hok.length_le him
  have hnodes : nodesFrom (iterNextOf h) h.newNode (some a) = some (a :: after) := by
    refine (Chain.cons hq hrest).nodesFrom_eq ?_
    simp only [hl, List.length_append] at hlen
    omega
  have hall : ∀ b ∈ a :: after, ∃ e, entryOf h b = some e := fun b hb =>
    ht.exists_entry (hl ▸ List.mem_append_right before hb)
  simp only [MojHashBase.iterateFrom, hnodes, Option.bind_eq_bind, Option.bind_some]
  exact mapM_entryOf hall

theorem positions {c : ι} (hok : Ok hash h impls nodes copy) :
    positions h (impls c) = some (nodesOf nodes (impls c)) := by
  cases hc : impls c with
  | none => cases hn : h.newNode <;> simp [MojHashBase.positions, MojHashBase.begin, nodesFrom, nodesOf]
  | some i =>
    obtain ⟨m, him⟩ := hok.live c i hc
    have hnodes := (hok.tables i m him).linked.chain.nodesFrom_eq (hok.length_le him)
    simp [MojHashBase.positions, MojHashBase.begin, him, hnodes, nodesOf]

theorem exists_entry {c : ι} (hok : Ok hash h impls nodes copy) (ha : a ∈ nodesOf nodes (impls c)) :
    ∃ e, entryOf h a = some e := by
  cases hc : impls c with
  | none =>
    rw [hc] at ha
    cases ha
  | some i =>
    obtain ⟨m, him⟩ := hok.live c i hc
    rw [hc] at ha
    exact (hok.tables i m him).exists_entry ha

theorem iterate {c : ι} (hok : Ok hash h impls nodes copy) :
    iterate h (impls c) = some (entries h (nodesOf nodes (impls c))) := by
  have hpositions := hok.positions (c := c)
  have hmapM := mapM_entryOf (h := h) fun b hb => hok.exists_entry (c := c) hb
  simp only [MojHashBase.positions, Option.bind_eq_bind, Option.bind_eq_some_iff] at hpositions
  obtain ⟨pos, hbegin, hnodes⟩ := hpositions
  simp [MojHashBase.iterate, MojHashBase.iterateFrom, hbegin, hnodes, hmapM]

theorem size {c : ι} (hok : Ok hash h impls nodes copy) :
    size h (impls c) = some (entries h (nodesOf nodes (impls c))).length := by
  cases hc : impls c with
  | none => rfl
  | some i =>
    obtain ⟨m, him⟩ := hok.live c i hc
    have ht := hok.tables i m him
    simp [MojHashBase.size, him, nodesOf, ht.length_entries, ht.size_eq]

theorem nodup_keys {c : ι} (hok : Ok hash h impls nodes copy) :
    ((entries h (nodesOf nodes (impls c))).map Prod.fst).Nodup := by
  cases hc : impls c with
  | none => exact List.nodup_nil
  | some i =>
    obtain ⟨m, him⟩ := hok.live c i hc
    exact (hok.tables i m him).nodup_keys

theorem bucket {c : ι} {n idx : Nat} (hok : Ok hash h impls nodes copy) (hn : numBuckets h (impls c) = some n)
    (hidx : idx < n) :
    ∃ es, bucket h (impls c) idx = some es ∧
      es.Perm ((entries h (nodesOf nodes (impls c))).filter fun e => bucketForKey hash e.1 n = idx) := by
  cases hc : impls c with
  | none =>
    rw [hc] at hn
    cases hn
  | some i =>
    obtain ⟨m, him⟩ := hok.live c i hc
    have ht := hok.tables i m him
    obtain rfl : m.buckets.length = n := by simpa [hc, numBuckets, him] using hn
    obtain ⟨chain, hchain, hall⟩ := ht.buckets idx _ (List.getElem?_eq_getElem hidx)
    have hsub : ∀ a ∈ chain, a ∈ nodes i := fun a ha => ((hall a).mp ha).1
    have hnodes := hchain.nodesFrom_eq ((chain_length_le hchain hsub).trans (hok.length_le him))
    have hmapM := mapM_entryOf fun a ha => ht.exists_entry (hsub a ha)
    refine ⟨entries h chain, ?_, ht.entries_chain hchain.nodup hall⟩
    simp [MojHashBase.bucket, him, List.getElem?_eq_getElem hidx, hnodes, hmapM]

end Ok

/-! ## Containers that get another table -/

section Containers

variable [Fintype ι] [DecidableEq ι] {impls : ι → Option Nat} {nodes nodes' : Nat → List Nat} {c : ι} {p' : Option Nat}
  {es : List (κ × α)}

theorem Ok.clear (hok : Ok hash h impls nodes none) (c : ι) :
    ∃ h' nodes', MojHashBase.release h (impls c) = some h' ∧ After hash h impls nodes c h' none nodes' [] := by
  cases hc : impls c with
  | none =>
    have hupdate : Function.update impls c none = impls := hc ▸ Function.update_eq_self c impls
    exact ⟨h, nodes, rfl, hupdate.symm ▸ hok, .refl _, fun _ _ _ _ => ⟨rfl, fun _ _ => rfl⟩⟩
  | some i =>
    obtain ⟨h', nodes', hrelease, hok', hkeep, -⟩ := hok.release hc
    refine ⟨h', nodes', hrelease, hok', .refl _, fun d hd j hj => ?_⟩
    obtain ⟨m, hm⟩ := hok'.live d j (by rwa [Function.update_of_ne hd])
    exact hkeep j m hm

theorem Ok.assign (hok : Ok hash h impls nodes none) {c d : ι} (hcd : c ≠ d) :
    ∃ h₁ h' nodes', MojHashBase.release h (impls c) = some h₁ ∧ MojHashBase.init h₁ (impls d) = some h' ∧
      After hash h impls nodes c h' (impls d) nodes' (entries h (nodesOf nodes (impls d))) := by
  obtain ⟨h₁, nodes₁, hrelease, hafter⟩ := hok.clear c
  cases hd : impls d with
  | none => exact ⟨h₁, h₁, nodes₁, hrelease, rfl, hafter⟩
  | some j =>
    obtain ⟨m, hm⟩ := hafter.ok.live d j (by rwa [Function.update_of_ne hcd.symm])
    obtain ⟨h', hinit, hok', hnodes'⟩ := hafter.ok.init (Function.update_self _ _ _) hm
    rw [Function.update_idem] at hok'
    obtain ⟨hnodesj, hsamej⟩ := hafter.others d hcd.symm j hd
    refine ⟨h₁, h', nodes₁, hrelease, hinit, hok', List.Perm.of_eq ?_, fun e he k hk => ?_⟩
    · simp only [nodesOf]
      rw [hnodesj]
      exact entries_congr fun b hb => congrArg (Option.map _) ((congrFun hnodes' b).trans (hsamej b hb))
    · obtain ⟨hnodesk, hsamek⟩ := hafter.others e he k hk
      exact ⟨hnodesk, fun b hb => (congrFun hnodes' b).trans (hsamek b hb)⟩

/-- What another container shows after an operation. -/
theorem After.entries_of_ne (hafter : After hash h impls nodes c h' p' nodes' es) {d : ι} (hd : d ≠ c) :
    entries h' (nodesOf nodes' (impls d)) = entries h (nodesOf nodes (impls d)) := by
  cases hj : impls d with
  | none => rfl
  | some j =>
    obtain ⟨hnodesj, hsamej⟩ := hafter.others d hd j hj
    simp only [nodesOf]
    rw [hnodesj]
    exact entries_congr fun b hb => congrArg (Option.map _) (hsamej b hb)

/-! ## Maps -/

variable (hash) in
/-- The content of each container is its map. -/
structure Shows (s : Containers ι κ α) (nodes : Nat → List Nat) (f : ι → κ → Option α) : Prop where
  ok : Ok hash s.heap s.impls nodes none
  content : ∀ c key val, (key, val) ∈ entries s.heap (nodesOf nodes (s.impls c)) ↔ f c key = some val

variable {s : Containers ι κ α} {f : ι → κ → Option α}

theorem After.shows (hshows : Shows hash s nodes f) (hafter : After hash s.heap s.impls nodes c h' p' nodes' es)
    {g : κ → Option α} (hg : ∀ key val, (key, val) ∈ es ↔ g key = some val) :
    Shows hash ⟨h', Function.update s.impls c p'⟩ nodes' (Function.update f c g) := by
  refine ⟨hafter.ok, fun d key val => ?_⟩
  rcases eq_or_ne d c with rfl | hd
  · simp only [Function.update_self]
    rw [hafter.shown.mem_iff, hg]
  · simp only [Function.update_of_ne hd]
    rw [hafter.entries_of_ne hd, hshows.content]

theorem foundVal_eq {key : κ} {node : Option Nat} {g : κ → Option α}
    (hnode : ∀ a, node = some a ↔ a ∈ l ∧ (entryOf h a).map Prod.fst = some key)
    (hg : ∀ val, (key, val) ∈ entries h l ↔ g key = some val) : foundVal h node = some (.found (g key)) := by
  cases node with
  | none =>
    cases hval : g key with
    | none => rfl
    | some val =>
      obtain ⟨a, ha, he⟩ := mem_entries.mp ((hg val).mpr hval)
      cases (hnode a).mpr ⟨ha, by rw [he, Option.map_some]⟩
  | some a =>
    obtain ⟨ha, hkey⟩ := (hnode a).mp rfl
    obtain ⟨⟨k, val⟩, he, rfl⟩ := Option.map_eq_some_iff.mp hkey
    obtain ⟨n, hn, hnval⟩ := Option.map_eq_some_iff.mp he
    have hval : g k = some val := (hg val).mp (mem_entries.mpr ⟨a, ha, he⟩)
    cases hnval
    simp [foundVal, hn, hval]

/-- New nodes are before the others, which stay in their order with their keys. -/
structure Grown (h : Heap κ α) (nodes : Nat → List Nat) (h' : Heap κ α) (nodes' : Nat → List Nat) : Prop where
  suffix : ∀ k, nodes k <:+ nodes' k
  keys : ∀ k, ∀ a ∈ nodes k, (entryOf h' a).map Prod.fst = (entryOf h a).map Prod.fst

theorem Grown.refl (h : Heap κ α) (nodes : Nat → List Nat) : Grown h nodes h nodes :=
  ⟨fun _ => List.suffix_refl _, fun _ _ _ => rfl⟩

theorem Grown.trans {h'' : Heap κ α} {nodes'' : Nat → List Nat} (hg : Grown h nodes h' nodes')
    (hg' : Grown h' nodes' h'' nodes'') : Grown h nodes h'' nodes'' :=
  ⟨fun k => (hg.suffix k).trans (hg'.suffix k),
    fun k a ha => (hg'.keys k a ((hg.suffix k).subset ha)).trans (hg.keys k a ha)⟩

variable [DecidableEq κ]

/-- An operation on a map for each container. -/
def specStep (f : ι → κ → Option α) : Op ι κ α → (ι → κ → Option α) × Result α
  | .put c key val => (Function.update f c (Function.update (f c) key (some val)), .done)
  | .del c key => (Function.update f c (Function.update (f c) key none), .deleted (f c key).isSome)
  | .find c key => (f, .found (f c key))
  | .findWritable c key => (f, .found (f c key))
  | .clear c => (Function.update f c fun _ => none, .done)
  | .assign c d => (Function.update f c (f d), .done)

def specRun (f : ι → κ → Option α) : List (Op ι κ α) → (ι → κ → Option α) × List (Result α)
  | [] => (f, [])
  | op :: ops =>
    let (f, result) := specStep f op
    let (f, results) := specRun f ops
    (f, result :: results)

theorem Shows.put (hshows : Shows hash s nodes f) (c : ι) (key : κ) (val : α) :
    ∃ s' nodes', MojHashBase.step hash s (.put c key val) = some (s', .done) ∧
      Shows hash s' nodes' (specStep f (.put c key val)).1 ∧ Grown s.heap nodes s'.heap nodes' := by
  obtain ⟨h', p', nodes', hput, hafter, hgrown⟩ := hshows.ok.put c key val
  refine ⟨_, nodes', by simp [MojHashBase.step, hput], hafter.shows hshows fun k v => ?_, fun i => ?_, fun i a ha => ?_⟩
  · rcases eq_or_ne k key with rfl | hk
    · simp [eq_comm]
    · simp [hk, hshows.content]
  · cases hi : s.heap.impls i with
    | none => exact hshows.ok.nodes_nil i hi ▸ List.nil_suffix
    | some m => exact (hgrown i m hi).1
  · cases hi : s.heap.impls i with
    | none =>
      rw [hshows.ok.nodes_nil i hi] at ha
      cases ha
    | some m => exact (hgrown i m hi).2 a ha

/-- The chains after `del` are without the node of the key. -/
theorem Shows.del (hshows : Shows hash s nodes f) (c : ι) (key : κ) :
    ∃ s' nodes', MojHashBase.step hash s (.del c key) = some (s', .deleted (f c key).isSome) ∧
      Shows hash s' nodes' (specStep f (.del c key)).1 ∧
      numBuckets s'.heap (s'.impls c) = numBuckets s.heap (s.impls c) ∧
      ∀ n idx, numBuckets s.heap (s.impls c) = some n → idx < n →
        ∃ chain chain', bucket s.heap (s.impls c) idx = some chain ∧ bucket s'.heap (s'.impls c) idx = some chain' ∧
          chain'.Perm (chain.filter fun e => e.1 ≠ key) := by
  obtain ⟨h', p', nodes', found, hdel, hafter, hfound, hnum⟩ := hshows.ok.del c key
  have hresult : found = (f c key).isSome := by
    simp only [hshows.content] at hfound
    rw [Bool.eq_iff_iff, hfound, Option.isSome_iff_exists]
  have hself : Function.update s.impls c p' c = p' := Function.update_self _ _ _
  refine ⟨⟨h', Function.update s.impls c p'⟩, nodes', by simp [MojHashBase.step, hdel, hresult],
    hafter.shows hshows fun k v => ?_, by simpa using hnum, fun n idx hn hidx => ?_⟩
  · rcases eq_or_ne k key with rfl | hk
    · simp
    · simp [hk, hshows.content]
  obtain ⟨chain, hchain, hperm⟩ := hshows.ok.bucket hn hidx
  obtain ⟨chain', hchain', hperm'⟩ := hafter.ok.bucket (c := c) (by rw [hself, hnum, hn]) hidx
  refine ⟨chain, chain', hchain, hchain', hperm'.trans ?_⟩
  rw [hself]
  refine (hafter.shown.filter _).trans ?_
  rw [List.filter_comm]
  exact (hperm.filter _).symm

/-- **An operation does with the containers what it does with the maps.** -/
theorem Shows.step (hshows : Shows hash s nodes f) (op : Op ι κ α) :
    ∃ s' nodes', step hash s op = some (s', (specStep f op).2) ∧ Shows hash s' nodes' (specStep f op).1 := by
  cases op with
  | put c key val =>
    obtain ⟨s', nodes', hput, hshows', -⟩ := hshows.put c key val
    exact ⟨s', nodes', hput, hshows'⟩
  | del c key =>
    obtain ⟨s', nodes', hdel, hshows', -⟩ := hshows.del c key
    exact ⟨s', nodes', hdel, hshows'⟩
  | find c key =>
    obtain ⟨node, idx, hfind, hnode, -⟩ := hshows.ok.find (c := c) rfl key
    have hresult := foundVal_eq hnode fun val => hshows.content c key val
    exact ⟨s, nodes, by simp [MojHashBase.step, hfind, hresult, specStep], hshows⟩
  | findWritable c key =>
    obtain ⟨h', p', node, idx, nodes', hfind, hafter, -, hnode, -⟩ := hshows.ok.findWritable c key
    have hshows' := hafter.shows hshows (hshows.content c)
    rw [Function.update_eq_self] at hshows'
    have hresult := foundVal_eq hnode fun val => hafter.shown.mem_iff.trans (hshows.content c key val)
    exact ⟨_, nodes', by simp [MojHashBase.step, hfind, hresult, specStep], hshows'⟩
  | clear c =>
    obtain ⟨h', nodes', hrelease, hafter⟩ := hshows.ok.clear c
    exact ⟨_, nodes', by simp [MojHashBase.step, hrelease, specStep], hafter.shows hshows fun k v => by simp⟩
  | assign c d =>
    by_cases hcd : c = d
    · subst hcd
      refine ⟨s, nodes, by simp [MojHashBase.step, specStep], ?_⟩
      simpa [specStep] using hshows
    · obtain ⟨h₁, h', nodes', hrelease, hinit, hafter⟩ := hshows.ok.assign hcd
      exact ⟨_, nodes', by simp [MojHashBase.step, hcd, hrelease, hinit, specStep],
        hafter.shows hshows (hshows.content d)⟩

theorem Shows.run (hshows : Shows hash s nodes f) (ops : List (Op ι κ α)) :
    ∃ s' nodes', run hash s ops = some (s', (specRun f ops).2) ∧ Shows hash s' nodes' (specRun f ops).1 := by
  induction ops generalizing s nodes f with
  | nil => exact ⟨s, nodes, rfl, hshows⟩
  | cons op ops ih =>
    obtain ⟨s₁, nodes₁, hstep, hshows₁⟩ := hshows.step op
    obtain ⟨s', nodes', hrun, hshows'⟩ := ih hshows₁
    exact ⟨s', nodes', by simp [MojHashBase.run, hstep, hrun, specRun], hshows'⟩

theorem Shows.runPuts (hshows : Shows hash s nodes f) (puts : List (ι × κ × α)) :
    ∃ s' results nodes', MojHashBase.run hash s (puts.map fun p => .put p.1 p.2.1 p.2.2) = some (s', results) ∧
      (∃ f', Shows hash s' nodes' f') ∧ Grown s.heap nodes s'.heap nodes' := by
  induction puts generalizing s nodes f with
  | nil => exact ⟨s, [], nodes, rfl, ⟨f, hshows⟩, .refl s.heap nodes⟩
  | cons p puts ih =>
    obtain ⟨c, key, val⟩ := p
    obtain ⟨s₁, nodes₁, hstep, hshows₁, hgrown₁⟩ := hshows.put c key val
    obtain ⟨s', results, nodes', hrun, hshows', hgrown'⟩ := ih hshows₁
    exact ⟨s', .done :: results, nodes', by simp [MojHashBase.run, hstep, hrun], hshows', hgrown₁.trans hgrown'⟩

omit [DecidableEq ι] [DecidableEq κ] in
/-- An iterator at `a` passes the same keys after some `put`. -/
theorem Grown.iterateFrom {impls' : ι → Option Nat} (hok : Ok hash h impls nodes none) (hok' : Ok hash h' impls' nodes' none)
    (hgrown : Grown h nodes h' nodes') {before after : List Nat} (hl : nodes i = before ++ a :: after) :
    MojHashBase.iterateFrom h (some a) = some (entries h (a :: after)) ∧
      MojHashBase.iterateFrom h' (some a) = some (entries h' (a :: after)) ∧
      (entries h' (a :: after)).map Prod.fst = (entries h (a :: after)).map Prod.fst := by
  obtain ⟨new, hnew⟩ := hgrown.suffix i
  have hl' : nodes' i = (new ++ before) ++ a :: after := by rw [← hnew, hl, List.append_assoc]
  refine ⟨hok.iterateFrom hl, hok'.iterateFrom hl', ?_⟩
  rw [entries, entries, List.map_filterMap, List.map_filterMap]
  exact List.filterMap_congr fun b hb => hgrown.keys i b (hl ▸ List.mem_append_right before hb)

/-! ## Runs from empty containers -/

variable (ι κ α) in
def noContainers : Containers ι κ α := ⟨.empty, fun _ => none⟩

variable (hash) in
omit [DecidableEq ι] [DecidableEq κ] in
theorem shows_noContainers : Shows hash (noContainers ι κ α) (fun _ => []) fun _ _ => none := by
  refine ⟨⟨nofun, nofun, nofun, nofun, nofun, nofun, fun _ _ => rfl⟩, fun c key val => ?_⟩
  simp [noContainers, nodesOf, entries]

variable (hash) in
/-- What is seen of a container: the pairs of the map `g`, in some order. -/
structure Seen (s : Containers ι κ α) (c : ι) (g : κ → Option α) (es : List (κ × α)) : Prop where
  iterate : iterate s.heap (s.impls c) = some es
  once : (es.map Prod.fst).Nodup
  content : ∀ key val, (key, val) ∈ es ↔ g key = some val
  size : size s.heap (s.impls c) = some es.length
  chains : ∀ n idx, numBuckets s.heap (s.impls c) = some n → idx < n →
    ∃ chain, bucket s.heap (s.impls c) idx = some chain ∧ chain.Perm (es.filter fun e => bucketForKey hash e.1 n = idx)

omit [DecidableEq ι] [DecidableEq κ] in
theorem Shows.seen (hshows : Shows hash s nodes f) (c : ι) :
    Seen hash s c (f c) (entries s.heap (nodesOf nodes (s.impls c))) :=
  ⟨hshows.ok.iterate, hshows.ok.nodup_keys, hshows.content c, hshows.ok.size, fun _ _ hn => hshows.ok.bucket hn⟩

/-- **Containers that share their tables are maps of their own.** What is seen of them, of the way ahead of an iterator after
more nodes and other buckets, and of the chains after `del`. -/
theorem maps_of_run (hash : κ → Nat) (ops : List (Op ι κ α)) :
    ∃ s, MojHashBase.run hash (noContainers ι κ α) ops = some (s, (specRun (fun _ _ => none) ops).2) ∧
      (∀ c, ∃ es, Seen hash s c ((specRun (fun _ _ => none) ops).1 c) es ∧ ∀ puts : List (ι × κ × α),
        ∃ s' results, MojHashBase.run hash s (puts.map fun p => .put p.1 p.2.1 p.2.2) = some (s', results) ∧
          ∀ l a, positions s.heap (s.impls c) = some l → a ∈ l → ∃ passed ahead ahead', es = passed ++ ahead ∧
            iterateFrom s.heap (some a) = some ahead ∧ iterateFrom s'.heap (some a) = some ahead' ∧
            ahead'.map Prod.fst = ahead.map Prod.fst) ∧
      ∀ c key, ∃ s', MojHashBase.step hash s (.del c key) =
          some (s', .deleted ((specRun (fun _ _ => none) ops).1 c key).isSome) ∧
        numBuckets s'.heap (s'.impls c) = numBuckets s.heap (s.impls c) ∧
        ∀ n idx, numBuckets s.heap (s.impls c) = some n → idx < n →
          ∃ chain chain', bucket s.heap (s.impls c) idx = some chain ∧ bucket s'.heap (s'.impls c) idx = some chain' ∧
            chain'.Perm (chain.filter fun e => e.1 ≠ key) := by
  have hstart : Shows hash (noContainers ι κ α) (fun _ => []) fun _ _ => none := shows_noContainers hash
  obtain ⟨s, nodes, hrun, hshows⟩ := hstart.run ops
  refine ⟨s, hrun, fun c => ⟨_, hshows.seen c, fun puts => ?_⟩, fun c key => ?_⟩
  · obtain ⟨s', results, nodes', hputs, ⟨f', hshows'⟩, hgrown⟩ := hshows.runPuts puts
    refine ⟨s', results, hputs, fun l a hl ha => ?_⟩
    obtain rfl := Option.some.inj (hl.symm.trans hshows.ok.positions)
    cases hc : s.impls c with
    | none =>
      rw [hc] at ha
      cases ha
    | some i =>
      rw [hc] at ha
      obtain ⟨before, after, hsplit⟩ := List.append_of_mem ha
      obtain ⟨hahead, hahead', hkeys⟩ := hgrown.iterateFrom hshows.ok hshows'.ok hsplit
      exact ⟨entries s.heap before, _, _, by rw [← entries_append, ← hsplit], hahead, hahead', hkeys⟩
  · obtain ⟨s', nodes', hdel, -, hchains⟩ := hshows.del c key
    exact ⟨s', hdel, hchains⟩

end Containers

end MojHashBase

end Db8
