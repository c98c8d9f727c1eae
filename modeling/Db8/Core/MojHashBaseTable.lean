import Db8.Core.MojHashBase

/-!
# Core.MojHashBaseTable

One table: its nodes are in one list from `m_begin` on, and each in the chain of the bucket of its key.

* `Buckets`          — which nodes are in the chains.
* `Table`            — a table with its nodes.
* `Table.put`        — `Impl::put` of a node with a new key.
* `Table.find`, `Table.delNode` — the node with a key is found, and taken out.
* `Table.realloc`    — other buckets, with the same list of nodes.
-/

namespace Db8

open Lib

namespace MojHashBase

variable {κ α : Type}

/-! ## The memory -/

section Memory

variable (h : Heap κ α)

def iterRefOf (a : Nat) : Option IterRef := (h.nodes a).map (·.iterRef)

variable {h} {a : Nat} {n n' : Node κ α}

@[simp] theorem setImpl_nodes (i : Nat) (m : Impl) : (h.setImpl i m).nodes = h.nodes := rfl
@[simp] theorem setNode_impls : (h.setNode a n).impls = h.impls := rfl
@[simp] theorem setNode_nodes : (h.setNode a n).nodes = Function.update h.nodes a (some n) := rfl
@[simp] theorem setImpl_impls (i : Nat) (m : Impl) : (h.setImpl i m).impls = Function.update h.impls i (some m) := rfl
@[simp] theorem setNode_newNode : (h.setNode a n).newNode = h.newNode := rfl
@[simp] theorem setNode_newImpl : (h.setNode a n).newImpl = h.newImpl := rfl
@[simp] theorem setImpl_newNode (i : Nat) (m : Impl) : (h.setImpl i m).newNode = h.newNode := rfl
@[simp] theorem setImpl_newImpl (i : Nat) (m : Impl) : (h.setImpl i m).newImpl = h.newImpl := rfl

@[simp] theorem bucketNextOf_setImpl (i : Nat) (m : Impl) : bucketNextOf (h.setImpl i m) = bucketNextOf h := rfl
@[simp] theorem iterNextOf_setImpl (i : Nat) (m : Impl) : iterNextOf (h.setImpl i m) = iterNextOf h := rfl
@[simp] theorem iterRefOf_setImpl (i : Nat) (m : Impl) : iterRefOf (h.setImpl i m) = iterRefOf h := rfl
@[simp] theorem entryOf_setImpl (i : Nat) (m : Impl) : entryOf (h.setImpl i m) = entryOf h := rfl

theorem map_update {β : Type} (f : Node κ α → β) (nodes : Nat → Option (Node κ α)) :
    (fun b => (Function.update nodes a (some n) b).map f) =
      Function.update (fun b => (nodes b).map f) a (some (f n)) := by
  funext b
  by_cases hb : b = a
  · subst hb
    simp
  · simp [hb]

theorem bucketNextOf_setNode : bucketNextOf (h.setNode a n) = Function.update (bucketNextOf h) a (some n.bucketNext) :=
  map_update _ _

theorem iterNextOf_setNode : iterNextOf (h.setNode a n) = Function.update (iterNextOf h) a (some n.iterNext) :=
  map_update _ _

theorem iterRefOf_setNode : iterRefOf (h.setNode a n) = Function.update (iterRefOf h) a (some n.iterRef) :=
  map_update _ _

theorem entryOf_setNode : entryOf (h.setNode a n) = Function.update (entryOf h) a (some (n.key, n.val)) :=
  map_update _ _

/-! What a write does not touch. -/

theorem bucketNextOf_write (hn : h.nodes a = some n) (hsame : n'.bucketNext = n.bucketNext) :
    bucketNextOf (h.setNode a n') = bucketNextOf h := by
  rw [bucketNextOf_setNode, hsame]
  exact Function.update_eq_self_iff.mpr (by simp [bucketNextOf, hn])

theorem iterNextOf_write (hn : h.nodes a = some n) (hsame : n'.iterNext = n.iterNext) :
    iterNextOf (h.setNode a n') = iterNextOf h := by
  rw [iterNextOf_setNode, hsame]
  exact Function.update_eq_self_iff.mpr (by simp [iterNextOf, hn])

theorem iterRefOf_write (hn : h.nodes a = some n) (hsame : n'.iterRef = n.iterRef) :
    iterRefOf (h.setNode a n') = iterRefOf h := by
  rw [iterRefOf_setNode, hsame]
  exact Function.update_eq_self_iff.mpr (by simp [iterRefOf, hn])

theorem entryOf_write (hn : h.nodes a = some n) (hkey : n'.key = n.key) (hval : n'.val = n.val) :
    entryOf (h.setNode a n') = entryOf h := by
  rw [entryOf_setNode, hkey, hval]
  exact Function.update_eq_self_iff.mpr (by simp [entryOf, hn])

end Memory

/-! ## The chains of the buckets -/

section Tables

variable (hash : κ → Nat)

/-- The bucket a node belongs to. -/
def bucketOf (h : Heap κ α) (numBuckets a : Nat) : Option Nat := (entryOf h a).map fun e => bucketForKey hash e.1 numBuckets

/-- The nodes of `l` are in the chains, each in its own. -/
def Buckets (h : Heap κ α) (buckets : List (Option Nat)) (l : List Nat) : Prop :=
  ∀ idx p, buckets[idx]? = some p →
    ∃ chain, Chain (bucketNextOf h) p chain ∧ ∀ a, a ∈ chain ↔ a ∈ l ∧ bucketOf hash h buckets.length a = some idx

variable {hash} {h h' : Heap κ α} {buckets : List (Option Nat)} {l l' : List Nat} {i a : Nat} {m : Impl}

namespace Buckets

theorem congr (hb : Buckets hash h buckets l) (hnext : ∀ a ∈ l, bucketNextOf h' a = bucketNextOf h a)
    (hentry : ∀ a ∈ l, (entryOf h' a).map Prod.fst = (entryOf h a).map Prod.fst) (hmem : ∀ a, a ∈ l' ↔ a ∈ l) :
    Buckets hash h' buckets l' := by
  intro idx p hp
  obtain ⟨chain, hchain, hall⟩ := hb idx p hp
  refine ⟨chain, hchain.congr fun a ha => hnext a ((hall a).mp ha).1, fun a => ?_⟩
  rw [hall, hmem]
  refine and_congr_right fun ha => ?_
  have hbucket : bucketOf hash h' buckets.length a = bucketOf hash h buckets.length a := by
    have he := congrArg (Option.map fun key => bucketForKey hash key buckets.length) (hentry a ha)
    simpa [bucketOf, Option.map_map, Function.comp_def] using he
  rw [hbucket]

theorem nil (n : Nat) : Buckets hash h (List.replicate n none) [] := by
  intro idx p hp
  obtain rfl : p = none := by
    rw [List.getElem?_replicate] at hp
    split_ifs at hp
    exact (Option.some.inj hp).symm
  exact ⟨[], .nil, fun a => by simp⟩

/-- The index of a key is one of a bucket. -/
theorem exists_bucket (hash : κ → Nat) (hpos : 0 < buckets.length) (key : κ) :
    ∃ p, buckets[bucketForKey hash key buckets.length]? = some p :=
  ⟨_, List.getElem?_eq_getElem (Nat.mod_lt _ hpos)⟩

end Buckets

/-- A node that is in no chain comes to the head of one. -/
theorem Buckets.insert (hb : Buckets hash h buckets l) {n : Node κ α} (hn : h.nodes a = some n) (ha : a ∉ l)
    {p : Option Nat} (hp : buckets[bucketForKey hash n.key buckets.length]? = some p) :
    Buckets hash (h.setNode a { n with bucketNext := p })
      (buckets.set (bucketForKey hash n.key buckets.length) (some a)) (a :: l) := by
  have hentry : entryOf (h.setNode a { n with bucketNext := p }) = entryOf h := entryOf_write hn rfl rfl
  have hbucket : ∀ k b, bucketOf hash (h.setNode a { n with bucketNext := p }) k b = bucketOf hash h k b := by
    intro k b
    rw [bucketOf, bucketOf, hentry]
  have hself : bucketOf hash h buckets.length a = some (bucketForKey hash n.key buckets.length) := by
    simp [bucketOf, entryOf, hn]
  have hother : ∀ b ∈ l, bucketNextOf (h.setNode a { n with bucketNext := p }) b = bucketNextOf h b := by
    intro b hbl
    have hne : b ≠ a := fun he => ha (he ▸ hbl)
    rw [bucketNextOf_setNode, Function.update_of_ne hne]
  intro idx q hq
  rw [List.length_set]
  simp only [hbucket]
  by_cases hidx : bucketForKey hash n.key buckets.length = idx
  · subst hidx
    obtain ⟨chain, hchain, hall⟩ := hb _ p hp
    obtain rfl : some a = q := by
      have hlt := (List.getElem?_eq_some_iff.mp hp).1
      rw [List.getElem?_set_self hlt] at hq
      exact Option.some.inj hq
    refine ⟨a :: chain, hchain.push ?_ fun b hbc => hother b ((hall b).mp hbc).1, fun b => ?_⟩
    · rw [bucketNextOf_setNode, Function.update_self]
    · rw [List.mem_cons, List.mem_cons, hall]
      constructor
      · rintro (rfl | ⟨hbl, hbb⟩)
        · exact ⟨.inl rfl, hself⟩
        · exact ⟨.inr hbl, hbb⟩
      · rintro ⟨rfl | hbl, hbb⟩
        · exact .inl rfl
        · exact .inr ⟨hbl, hbb⟩
  · rw [List.getElem?_set_ne hidx] at hq
    obtain ⟨chain, hchain, hall⟩ := hb idx q hq
    refine ⟨chain, hchain.congr fun b hbc => hother b ((hall b).mp hbc).1, fun b => ?_⟩
    rw [hall, List.mem_cons]
    constructor
    · exact fun ⟨hbl, hbb⟩ => ⟨.inr hbl, hbb⟩
    · rintro ⟨rfl | hbl, hbb⟩
      · rw [hself] at hbb
        exact absurd (Option.some.inj hbb) hidx
      · exact ⟨hbl, hbb⟩

/-! ## A table -/

variable (hash) in
/-- The table at `i` with its nodes, in the order of the list from `m_begin` on. -/
structure Table (h : Heap κ α) (i : Nat) (m : Impl) (l : List Nat) : Prop where
  impl_eq : h.impls i = some m
  linked : Linked (iterNextOf h) (iterRefOf h) .iterNext (.begin i) m.begin l
  size_eq : m.size = l.length
  pos : 0 < m.buckets.length
  buckets : Buckets hash h m.buckets l
  keys : (l.map fun a => (entryOf h a).map Prod.fst).Nodup

/-- Nothing is written but the table at `i` and nodes of `l`. -/
structure Frame (h h' : Heap κ α) (i : Nat) (l : List Nat) : Prop where
  impls : ∀ j, j ≠ i → h'.impls j = h.impls j
  nodes : ∀ a, a ∉ l → h'.nodes a = h.nodes a
  newNode : h'.newNode = h.newNode
  newImpl : h'.newImpl = h.newImpl

namespace Frame

theorem refl (h : Heap κ α) (i : Nat) (l : List Nat) : Frame h h i l := ⟨fun _ _ => rfl, fun _ _ => rfl, rfl, rfl⟩

theorem trans {h'' : Heap κ α} (hf : Frame h h' i l) (hf' : Frame h' h'' i l) : Frame h h'' i l :=
  ⟨fun j hj => (hf'.impls j hj).trans (hf.impls j hj), fun a ha => (hf'.nodes a ha).trans (hf.nodes a ha),
    hf'.newNode.trans hf.newNode, hf'.newImpl.trans hf.newImpl⟩

theorem mono (hf : Frame h h' i l) (hsub : ∀ a ∈ l, a ∈ l') : Frame h h' i l' :=
  ⟨hf.impls, fun a ha => hf.nodes a fun hal => ha (hsub a hal), hf.newNode, hf.newImpl⟩

theorem setNode {n : Node κ α} (ha : a ∈ l) : Frame h (h.setNode a n) i l := by
  refine ⟨fun _ _ => rfl, fun b hb => ?_, rfl, rfl⟩
  have hne : b ≠ a := fun he => hb (he ▸ ha)
  simp [hne]

theorem setImpl (m : Impl) : Frame h (h.setImpl i m) i l :=
  ⟨fun j hj => by simp [hj], fun _ _ => rfl, rfl, rfl⟩

end Frame

namespace Table

/-- A table is not changed by what is written elsewhere. -/
theorem congr (ht : Table hash h i m l) (himpl : h'.impls i = h.impls i) (hnodes : ∀ a ∈ l, h'.nodes a = h.nodes a) :
    Table hash h' i m l := by
  have hentry : ∀ a ∈ l, entryOf h' a = entryOf h a := fun a ha => congrArg (Option.map _) (hnodes a ha)
  refine ⟨himpl.trans ht.impl_eq, ht.linked.congr ?_ ?_, ht.size_eq, ht.pos, ht.buckets.congr ?_ ?_ fun _ => Iff.rfl, ?_⟩
  · exact fun a ha => congrArg (Option.map _) (hnodes a ha)
  · exact fun a ha => congrArg (Option.map _) (hnodes a ha)
  · exact fun a ha => congrArg (Option.map _) (hnodes a ha)
  · exact fun a ha => congrArg (Option.map Prod.fst) (hentry a ha)
  · rw [List.map_congr_left fun a ha => congrArg (Option.map Prod.fst) (hentry a ha)]
    exact ht.keys

theorem nodup (ht : Table hash h i m l) : l.Nodup := ht.linked.chain.nodup

theorem exists_node (ht : Table hash h i m l) (ha : a ∈ l) : ∃ n, h.nodes a = some n := by
  obtain ⟨q, hq⟩ := ht.linked.chain.exists_next ha
  obtain ⟨n, hn, -⟩ := Option.map_eq_some_iff.mp hq
  exact ⟨n, hn⟩

end Table

/-- The first node of a list is told of another place; nothing else is written. -/
theorem exists_setIterRef {p : Option Nat} (hchain : Chain (iterNextOf h) p l) (ref : IterRef) :
    ∃ h', setIterRef h ref p = some h' ∧ bucketNextOf h' = bucketNextOf h ∧ iterNextOf h' = iterNextOf h ∧
      entryOf h' = entryOf h ∧ (∀ b, p = some b → iterRefOf h' b = some ref) ∧
      (∀ b, p ≠ some b → h'.nodes b = h.nodes b) ∧ h'.impls = h.impls ∧ h'.newNode = h.newNode ∧
      h'.newImpl = h.newImpl := by
  cases hchain with
  | nil => exact ⟨h, rfl, rfl, rfl, rfl, nofun, fun _ _ => rfl, rfl, rfl, rfl⟩
  | @cons b q l hnext rest =>
    obtain ⟨n, hn, -⟩ := Option.map_eq_some_iff.mp hnext
    refine ⟨h.setNode b { n with iterRef := ref }, by simp [setIterRef, hn], bucketNextOf_write hn rfl,
      iterNextOf_write hn rfl, entryOf_write hn rfl rfl, ?_, ?_, rfl, rfl, rfl⟩
    · rintro c hc
      obtain rfl := Option.some.inj hc
      rw [iterRefOf_setNode, Function.update_self]
    · intro c hc
      have hne : c ≠ b := fun he => hc (he ▸ rfl)
      simp [hne]

/-- `Impl::put` of a node with a key that no other node of the table has. -/
theorem Table.put (ht : Table hash h i m l) {n : Node κ α} (hn : h.nodes a = some n) (ha : a ∉ l)
    (hkey : some n.key ∉ l.map fun b => (entryOf h b).map Prod.fst) :
    ∃ h' m', Impl.put h i a (bucketForKey hash n.key m.buckets.length) = some h' ∧ Table hash h' i m' (a :: l) ∧
      m'.refcount = m.refcount ∧ m'.buckets.length = m.buckets.length ∧ Frame h h' i (a :: l) ∧
      entryOf h' = entryOf h := by
  obtain ⟨p, hp⟩ := Buckets.exists_bucket hash ht.pos n.key
  let m₁ : Impl := { m with buckets := m.buckets.set (bucketForKey hash n.key m.buckets.length) (some a) }
  let n₁ : Node κ α := { n with bucketNext := p }
  let h₁ := (h.setNode a n₁).setImpl i m₁
  have hinsert : insert h i (bucketForKey hash n.key m.buckets.length) a = some h₁ := by
    simp [insert, ht.impl_eq, hp, hn, h₁, n₁, m₁]
  have hiter₁ : iterNextOf h₁ = iterNextOf h := iterNextOf_write hn rfl
  have href₁ : iterRefOf h₁ = iterRefOf h := iterRefOf_write hn rfl
  have hentry₁ : entryOf h₁ = entryOf h := entryOf_write hn rfl rfl
  have hlinked₁ : Linked (iterNextOf h₁) (iterRefOf h₁) .iterNext (.begin i) m.begin l := by
    rw [hiter₁, href₁]
    exact ht.linked
  obtain ⟨h₂, hset, hbucket₂, hiter₂, hentry₂, hhead₂, hsame₂, himpls₂, hnew₂, hnewImpl₂⟩ :=
    exists_setIterRef hlinked₁.chain (.iterNext a)
  have hbegin : m.begin ≠ some a := by
    intro he
    exact ha (List.mem_of_mem_head? (ht.linked.chain.eq_head? ▸ he))
  have hn₂ : h₂.nodes a = some n₁ := by
    rw [hsame₂ a hbegin]
    simp [h₁]
  have himpl₂ : h₂.impls i = some m₁ := by
    rw [himpls₂]
    simp [h₁]
  let m' : Impl := { m₁ with begin := some a, size := m₁.size + 1 }
  let h' := (h₂.setNode a { n₁ with iterNext := m.begin, iterRef := .begin i }).setImpl i m'
  have hentry' : entryOf h' = entryOf h₂ := by
    change entryOf (h₂.setNode a _) = _
    exact entryOf_write hn₂ rfl rfl
  refine ⟨h', m', ?_, ?_, rfl, List.length_set, ?_, ?_⟩
  · have himpl₁ : h₁.impls i = some m₁ := by simp [h₁]
    simp [Impl.put, hinsert, himpl₁, hset, hn₂, m₁, h', m']
  · constructor
    · simp [h']
    · refine hlinked₁.push ?_ ?_ (fun b hb => ?_) (fun b hb => ?_) fun b hb hne => ?_
      · exact congrFun iterNextOf_setNode a |>.trans (by simp)
      · exact congrFun iterRefOf_setNode a |>.trans (by simp)
      · have hba : b ≠ a := fun he => hbegin (he ▸ hb)
        exact (congrFun iterRefOf_setNode b |>.trans (Function.update_of_ne hba _ _)).trans (hhead₂ b hb)
      · have hba : b ≠ a := fun he => ha (he ▸ hb)
        exact (congrFun iterNextOf_setNode b |>.trans (Function.update_of_ne hba _ _)).trans (congrFun hiter₂ b)
      · have hba : b ≠ a := fun he => ha (he ▸ hb)
        refine (congrFun iterRefOf_setNode b |>.trans (Function.update_of_ne hba _ _)).trans ?_
        exact congrArg (Option.map _) (hsame₂ b hne)
    · simp [m', m₁, ht.size_eq]
    · simpa [m', m₁] using ht.pos
    · have hbucket' : bucketNextOf h' = bucketNextOf h₂ := bucketNextOf_write hn₂ rfl
      refine (ht.buckets.insert hn ha hp).congr (fun b _ => ?_) (fun b _ => ?_) fun _ => Iff.rfl
      · rw [hbucket', hbucket₂]
        rfl
      · rw [hentry', hentry₂]
        rfl
    · rw [hentry', hentry₂, hentry₁]
      refine List.nodup_cons.mpr ⟨?_, ht.keys⟩
      simpa [entryOf, hn] using hkey
  · refine ⟨fun j hj => ?_, fun b hb => ?_, hnew₂, hnewImpl₂⟩
    · simp [h', himpls₂, h₁, hj]
    · obtain ⟨hba, hbl⟩ := not_or.mp (mt List.mem_cons.mpr hb)
      have hne : m.begin ≠ some b := fun he => hbl (List.mem_of_mem_head? (ht.linked.chain.eq_head? ▸ he))
      simp [h', hba, hsame₂ b hne, h₁]
  · rw [hentry', hentry₂, hentry₁]

/-! ## A node is found -/

theorem chain_length_le {p : Option Nat} {chain : List Nat} (hchain : Chain (bucketNextOf h) p chain)
    (hsub : ∀ a ∈ chain, a ∈ l) : chain.length ≤ l.length := (hchain.nodup.subperm hsub).length_le

theorem findLoop_eq [DecidableEq κ] (key : κ) {p : Option Nat} {chain : List Nat}
    (hchain : Chain (bucketNextOf h) p chain) {fuel : Nat} (hfuel : chain.length ≤ fuel) :
    findLoop h key fuel p = some (chain.find? fun a => (entryOf h a).map Prod.fst = some key) := by
  induction hchain generalizing fuel with
  | nil => cases fuel <;> rfl
  | @cons a q chain hnext _ ih =>
    obtain ⟨n, hn, rfl⟩ := Option.map_eq_some_iff.mp hnext
    cases fuel with
    | zero => simp at hfuel
    | succ fuel =>
      have hrest := ih (Nat.le_of_succ_le_succ hfuel)
      by_cases hkey : n.key = key
      · simp [findLoop, hn, hkey, entryOf]
      · simp [findLoop, hn, hkey, hrest, entryOf]

theorem bucketOf_eq {key : κ} (hkey : (entryOf h a).map Prod.fst = some key) (k : Nat) :
    bucketOf hash h k a = some (bucketForKey hash key k) := by
  obtain ⟨e, he, rfl⟩ := Option.map_eq_some_iff.mp hkey
  rw [bucketOf, he, Option.map_some]

/-- Two nodes of a table do not have the same key. -/
theorem Table.eq_of_key (ht : Table hash h i m l) {b : Nat} (ha : a ∈ l) (hb : b ∈ l)
    (hkey : (entryOf h a).map Prod.fst = (entryOf h b).map Prod.fst) : a = b :=
  List.inj_on_of_nodup_map ht.keys ha hb hkey

/-- **`find` gives the node with the key.** -/
theorem Table.find [DecidableEq κ] (ht : Table hash h i m l) (hfuel : l.length ≤ h.newNode) (key : κ) :
    ∃ node idx, MojHashBase.find hash h (some i) key = some (node, idx) ∧
      (∀ a, node = some a ↔ a ∈ l ∧ (entryOf h a).map Prod.fst = some key) ∧
      (l ≠ [] → idx = bucketForKey hash key m.buckets.length) := by
  by_cases hsize : m.size = 0
  · obtain rfl := List.length_eq_zero_iff.mp (ht.size_eq ▸ hsize)
    exact ⟨none, 0, by simp [MojHashBase.find, ht.impl_eq, hsize], fun a => by simp, fun hne => absurd rfl hne⟩
  · obtain ⟨p, hp⟩ := Buckets.exists_bucket hash ht.pos key
    obtain ⟨chain, hchain, hall⟩ := ht.buckets _ p hp
    have hlen := chain_length_le hchain fun a ha => ((hall a).mp ha).1
    have hloop := findLoop_eq key hchain (hlen.trans hfuel)
    refine ⟨chain.find? fun a => (entryOf h a).map Prod.fst = some key, _, ?_, fun a => ?_, fun _ => rfl⟩
    · simp only [MojHashBase.find, ht.impl_eq, hsize, hp, hloop, Option.bind_eq_bind, Option.bind_some, if_false]
      rfl
    · constructor
      · intro hfind
        have hmem := List.mem_of_find?_eq_some hfind
        have hkey := List.find?_some hfind
        exact ⟨((hall a).mp hmem).1, of_decide_eq_true hkey⟩
      · rintro ⟨ha, hkey⟩
        have hmem : a ∈ chain := (hall a).mpr ⟨ha, bucketOf_eq hkey _⟩
        cases hfind : chain.find? fun a => (entryOf h a).map Prod.fst = some key with
        | none => exact absurd (decide_eq_true hkey) (List.find?_eq_none.mp hfind a hmem)
        | some b =>
          have hb := ((hall b).mp (List.mem_of_find?_eq_some hfind)).1
          have hkey' := List.find?_some hfind
          rw [ht.eq_of_key ha hb (hkey.trans (of_decide_eq_true hkey').symm)]

/-! ## A node is taken out -/

/-- One chain gives way to another one without the node. -/
theorem Buckets.remove (hb : Buckets hash h buckets l) {idx : Nat} {p p' : Option Nat} {chain : List Nat}
    (hp : buckets[idx]? = some p) (hchain : Chain (bucketNextOf h) p chain) (chain' : List Nat)
    (hchain' : Chain (bucketNextOf h') p' chain')
    (hmem : ∀ b, b ∈ chain' ↔ b ∈ chain ∧ b ≠ a) (hnext : ∀ b, b ∉ chain → bucketNextOf h' b = bucketNextOf h b)
    (hentry : entryOf h' = entryOf h) (ha : a ∈ chain) (hmem' : ∀ b, b ∈ l' ↔ b ∈ l ∧ b ≠ a) :
    Buckets hash h' (buckets.set idx p') l' := by
  have hbucket : ∀ k b, bucketOf hash h' k b = bucketOf hash h k b := by
    intro k b
    rw [bucketOf, bucketOf, hentry]
  obtain ⟨chain₀, hchain₀, hall₀⟩ := hb idx p hp
  obtain rfl := hchain.unique hchain₀
  intro idx' q hq
  rw [List.length_set]
  simp only [hbucket, hmem']
  by_cases hidx : idx = idx'
  · subst hidx
    obtain rfl : p' = q := by
      rw [List.getElem?_set_self (List.getElem?_eq_some_iff.mp hp).1] at hq
      exact Option.some.inj hq
    refine ⟨chain', hchain', fun b => ?_⟩
    rw [hmem, hall₀]
    tauto
  · rw [List.getElem?_set_ne hidx] at hq
    obtain ⟨other, hother, hall⟩ := hb idx' q hq
    refine ⟨other, hother.congr fun b hbo => hnext b fun hbc => ?_, fun b => ?_⟩
    · exact hidx (Option.some.inj (((hall₀ b).mp hbc).2.symm.trans ((hall b).mp hbo).2))
    · rw [hall]
      refine ⟨fun ⟨hbl, hbb⟩ => ⟨⟨hbl, ?_⟩, hbb⟩, fun ⟨⟨hbl, _⟩, hbb⟩ => ⟨hbl, hbb⟩⟩
      rintro rfl
      exact hidx (Option.some.inj (((hall₀ b).mp ha).2.symm.trans hbb))

/-- The loop of `Bucket::remove` comes to the pointer to the node. -/
theorem removeLoop_eq {idx : Nat} {p nodePtr : Option Nat} {before after : List Nat}
    (hread : readPtr h i idx nodePtr = some p) (hchain : Chain (bucketNextOf h) p (before ++ a :: after)) {fuel : Nat}
    (hfuel : before.length < fuel) :
    removeLoop h i idx a fuel nodePtr = (do
      let n ← h.nodes a
      let h ← writePtr h i idx n.bucketNext (before.getLast?.or nodePtr)
      let n ← h.nodes a
      return h.setNode a { n with bucketNext := none }) := by
  induction before generalizing p nodePtr fuel with
  | nil =>
    cases hchain with
    | cons hnext rest =>
      cases fuel with
      | zero => simp at hfuel
      | succ fuel => simp [removeLoop, hread]
  | cons b before ih =>
    have hnodup := hchain.nodup
    cases hchain with
    | cons hnext rest =>
      cases fuel with
      | zero => simp at hfuel
      | succ fuel =>
        have hne : b ≠ a := by
          rintro rfl
          exact (List.nodup_cons.mp hnodup).1 (by simp)
        obtain ⟨n, hn, hq⟩ := Option.map_eq_some_iff.mp hnext
        have hread' : readPtr h i idx (some b) = some n.bucketNext := by simp [readPtr, hn]
        have hlast : (b :: before).getLast?.or nodePtr = before.getLast?.or (some b) := by
          rw [List.getLast?_cons]
          cases before.getLast? <;> rfl
        have hrest := ih (hq ▸ hread') rest (Nat.lt_of_succ_lt_succ hfuel)
        simp only [removeLoop, hread, Option.bind_eq_bind, Option.bind_some, if_neg hne, hlast]
        exact hrest

/-- `Bucket::remove` -/
theorem exists_removeLoop {n : Node κ α} (himpl : h.impls i = some m) (hb : Buckets hash h m.buckets l) (ha : a ∈ l)
    (hn : h.nodes a = some n) (hpos : 0 < m.buckets.length) (hmem' : ∀ b, b ∈ l' ↔ b ∈ l ∧ b ≠ a) {fuel : Nat}
    (hfuel : l.length ≤ fuel) :
    ∃ h' buckets', removeLoop h i (bucketForKey hash n.key m.buckets.length) a fuel none = some h' ∧
      h'.impls i = some { m with buckets := buckets' } ∧ buckets'.length = m.buckets.length ∧
      Buckets hash h' buckets' l' ∧ iterNextOf h' = iterNextOf h ∧ iterRefOf h' = iterRefOf h ∧
      entryOf h' = entryOf h ∧ Frame h h' i l := by
  obtain ⟨p, hp⟩ := Buckets.exists_bucket hash hpos n.key
  obtain ⟨chain, hchain, hall⟩ := hb _ p hp
  have hbucket : bucketOf hash h m.buckets.length a = some (bucketForKey hash n.key m.buckets.length) := by
    simp [bucketOf, entryOf, hn]
  have hac : a ∈ chain := (hall a).mpr ⟨ha, hbucket⟩
  have hlen := chain_length_le hchain fun b hb => ((hall b).mp hb).1
  obtain ⟨before, after, rfl⟩ := List.append_of_mem hac
  have hread : readPtr h i (bucketForKey hash n.key m.buckets.length) none = some p := by simp [readPtr, himpl, hp]
  rw [removeLoop_eq hread hchain (by simp at hlen; omega)]
  have hnodup := hchain.nodup
  rcases List.eq_nil_or_concat' before with rfl | ⟨before, b, rfl⟩
  · obtain ⟨q, hq, hrest⟩ := hchain.drop
    obtain rfl : n.bucketNext = q := by simpa [bucketNextOf, hn] using hq
    obtain ⟨hafter, -⟩ := List.nodup_cons.mp hnodup
    let m' : Impl := { m with buckets := m.buckets.set (bucketForKey hash n.key m.buckets.length) n.bucketNext }
    let h' := (h.setImpl i m').setNode a { n with bucketNext := none }
    have hentry : entryOf h' = entryOf h := entryOf_write (h := h) hn rfl rfl
    have hnext : ∀ b, b ≠ a → bucketNextOf h' b = bucketNextOf h b := fun b hb =>
      (congrFun bucketNextOf_setNode b).trans (Function.update_of_ne hb _ _)
    refine ⟨h', m'.buckets, ?_, by simp [h', m'], List.length_set, ?_, iterNextOf_write (h := h) hn rfl,
      iterRefOf_write (h := h) hn rfl, hentry, (Frame.setImpl _).trans (.setNode ha)⟩
    · simp [writePtr, himpl, hn, h', m']
    · refine hb.remove hp hchain after ?_ (fun b => ?_) (fun b hb => ?_) hentry (by simp) hmem'
      · exact hrest.congr fun b hb => hnext b fun he => hafter (he ▸ hb)
      · simp only [List.nil_append, List.mem_cons]
        constructor
        · exact fun hb => ⟨.inr hb, fun he => hafter (he ▸ hb)⟩
        · exact fun ⟨hb, hne⟩ => hb.resolve_left hne
      · exact hnext b fun he => hb (by simp [he])
  · have hsplit : before ++ [b] ++ a :: after = before ++ b :: a :: after := by simp
    rw [hsplit] at hchain hnodup hall
    have hba : b ≠ a := by
      rintro rfl
      simp [List.nodup_append] at hnodup
    obtain ⟨q, hq, -⟩ := (hsplit ▸ hchain : Chain _ p (before ++ [b] ++ a :: after)).drop
    obtain rfl : n.bucketNext = q := by simpa [bucketNextOf, hn] using hq
    obtain ⟨_, hbnext⟩ := hchain.exists_next (a := b) (by simp)
    obtain ⟨nb, hnb, -⟩ := Option.map_eq_some_iff.mp hbnext
    let h₁ := h.setNode b { nb with bucketNext := n.bucketNext }
    have hn₁ : h₁.nodes a = some n := by simp [h₁, hba.symm, hn]
    let h' := h₁.setNode a { n with bucketNext := none }
    have hentry' : entryOf h' = entryOf h₁ := entryOf_write hn₁ rfl rfl
    have hentry : entryOf h' = entryOf h := hentry'.trans (entryOf_write hnb rfl rfl)
    have hiter' : iterNextOf h' = iterNextOf h₁ := iterNextOf_write hn₁ rfl
    have href' : iterRefOf h' = iterRefOf h₁ := iterRefOf_write hn₁ rfl
    have hnext₁ : ∀ c, c ≠ a → bucketNextOf h' c = bucketNextOf h₁ c := fun c hc =>
      (congrFun bucketNextOf_setNode c).trans (Function.update_of_ne hc _ _)
    have hnext : ∀ c, c ≠ a → c ≠ b → bucketNextOf h' c = bucketNextOf h c := fun c hc hcb =>
      (hnext₁ c hc).trans ((congrFun bucketNextOf_setNode c).trans (Function.update_of_ne hcb _ _))
    have hbl : b ∈ l := ((hall b).mp (by simp)).1
    have hset : m.buckets.set (bucketForKey hash n.key m.buckets.length) p = m.buckets := by
      obtain ⟨hlt, he⟩ := List.getElem?_eq_some_iff.mp hp
      rw [← he]
      exact List.set_getElem_self hlt
    refine ⟨h', m.buckets, ?_, by simp [h', h₁, himpl], rfl, ?_, ?_, ?_, hentry, (Frame.setNode hbl).trans (.setNode ha)⟩
    · simp [writePtr, hn, hnb, h', h₁, hba.symm]
    · rw [← hset]
      refine hb.remove hp hchain (before ++ b :: after) ?_ (fun c => ?_) (fun c hc => ?_) hentry (by simp) hmem'
      · refine hchain.remove ?_ fun c hc => ?_
        · rw [hnext₁ b hba, hq]
          exact (congrFun bucketNextOf_setNode b).trans (Function.update_self _ _ _)
        · have hcab : c ≠ a ∧ c ≠ b := by
            constructor
            · rintro rfl
              simp only [List.nodup_append, List.nodup_cons, List.mem_append] at hnodup hc
              grind
            · rintro rfl
              simp only [List.nodup_append, List.nodup_cons, List.mem_append] at hnodup hc
              grind
          exact hnext c hcab.1 hcab.2
      · simp only [List.mem_append, List.mem_cons]
        constructor
        · intro hc
          refine ⟨by tauto, ?_⟩
          rintro rfl
          simp only [List.nodup_append, List.nodup_cons] at hnodup
          grind
        · tauto
      · simp only [List.mem_append, List.mem_cons, not_or] at hc
        exact hnext c hc.2.2.1 hc.2.1
    · exact hiter'.trans (iterNextOf_write hnb rfl)
    · exact href'.trans (iterRefOf_write hnb rfl)

/-- A node is taken out of the list of all nodes. -/
theorem exists_unlink {n : Node κ α} {before after : List Nat} (himpl : h.impls i = some m) (hn : h.nodes a = some n)
    (hlinked : Linked (iterNextOf h) (iterRefOf h) .iterNext (.begin i) m.begin (before ++ a :: after)) :
    ∃ h₁ h' begin', writeIterRef h n.iterNext n.iterRef = some h₁ ∧ setIterRef h₁ n.iterRef n.iterNext = some h' ∧
      h'.impls i = some { m with begin := begin' } ∧
      Linked (iterNextOf h') (iterRefOf h') .iterNext (.begin i) begin' (before ++ after) ∧
      bucketNextOf h' = bucketNextOf h ∧ entryOf h' = entryOf h ∧ Frame h h' i (before ++ a :: after) := by
  obtain ⟨q, hq, href, hrest⟩ := hlinked.drop
  obtain rfl : n.iterNext = q := by simpa [iterNextOf, hn] using hq
  have hnodup := hlinked.chain.nodup
  have hhead : ∀ c, n.iterNext = some c → c ∈ after := fun c hc =>
    List.mem_of_mem_head? (hrest.chain.eq_head? ▸ hc)
  rcases List.eq_nil_or_concat' before with rfl | ⟨before, b, rfl⟩
  · have hbegin : n.iterRef = .begin i := by simpa [iterRefOf, hn] using href
    let h₁ := h.setImpl i { m with begin := n.iterNext }
    obtain ⟨h', hset, hbucket', hiter', hentry', hhead', hsame', himpls', hnew', hnewImpl'⟩ :=
      exists_setIterRef (h := h₁) hrest.chain (.begin i)
    refine ⟨h₁, h', n.iterNext, by simp [hbegin, writeIterRef, himpl, h₁], by rw [hbegin, hset], by simp [himpls', h₁], ?_,
      hbucket', hentry', ?_⟩
    · refine hlinked.removeHead hq hhead' (fun c _ => congrFun hiter' c) fun c _ hne => ?_
      exact congrArg (Option.map _) (hsame' c hne)
    · refine (Frame.setImpl _).trans ⟨fun j _ => congrFun himpls' j, fun c hc => hsame' c fun he => ?_, hnew', hnewImpl'⟩
      exact hc (by simp [hhead c he])
  · have hsplit : before ++ [b] ++ a :: after = before ++ b :: a :: after := by simp
    have hbefore : n.iterRef = .iterNext b := by simpa [iterRefOf, hn] using href
    rw [hsplit] at hlinked hnodup
    have hba : b ≠ a := by
      rintro rfl
      simp [List.nodup_append] at hnodup
    obtain ⟨_, hbnext⟩ := hlinked.chain.exists_next (a := b) (by simp)
    obtain ⟨nb, hnb, -⟩ := Option.map_eq_some_iff.mp hbnext
    let h₁ := h.setNode b { nb with iterNext := n.iterNext }
    have hiter₁ : iterNextOf h₁ = Function.update (iterNextOf h) b (some n.iterNext) := iterNextOf_setNode
    have href₁ : iterRefOf h₁ = iterRefOf h := iterRefOf_write hnb rfl
    have hbucket₁ : bucketNextOf h₁ = bucketNextOf h := bucketNextOf_write hnb rfl
    have hentry₁ : entryOf h₁ = entryOf h := entryOf_write hnb rfl rfl
    have hafter : b ∉ after := by
      simp only [List.nodup_append, List.nodup_cons, List.mem_cons, not_or] at hnodup
      exact hnodup.2.1.1.2
    have hrest₁ : Chain (iterNextOf h₁) n.iterNext after := by
      refine hrest.chain.congr fun c hc => ?_
      have hne : c ≠ b := fun he => hafter (he ▸ hc)
      rw [hiter₁, Function.update_of_ne hne]
    obtain ⟨h', hset, hbucket', hiter', hentry', hhead', hsame', himpls', hnew', hnewImpl'⟩ :=
      exists_setIterRef hrest₁ (.iterNext b)
    refine ⟨h₁, h', m.begin, by simp [hbefore, writeIterRef, hnb, h₁], by rw [hbefore, hset], by simp [himpls', h₁, himpl], ?_,
      hbucket'.trans hbucket₁, hentry'.trans hentry₁, ?_⟩
    · rw [List.append_assoc, List.singleton_append]
      refine hlinked.remove hq ?_ hhead' (fun c hc => ?_) fun c hc hne => ?_
      · rw [hiter', hiter₁, Function.update_self]
      · have hne : c ≠ b := by
          rintro rfl
          simp only [List.nodup_append, List.nodup_cons, List.mem_append, List.mem_cons] at hnodup hc
          grind
        rw [hiter', hiter₁, Function.update_of_ne hne]
      · exact (congrArg (Option.map _) (hsame' c hne)).trans (congrFun href₁ c)
    · rw [hsplit]
      refine (Frame.setNode (by simp)).trans ⟨fun j _ => congrFun himpls' j, fun c hc => hsame' c fun he => ?_, hnew', hnewImpl'⟩
      exact hc (by simp [hhead c he])

theorem deleteNode_nodes {b : Nat} (hb : b ≠ a) : (h.deleteNode a).nodes b = h.nodes b := Function.update_of_ne hb _ _

/-- What `del` does with the node of the key: it is gone from its chain and from the list. -/
theorem Table.delNode (ht : Table hash h i m l) (ha : a ∈ l) {n : Node κ α} (hn : h.nodes a = some n)
    (hfuel : l.length ≤ h.newNode) :
    ∃ h' m', MojHashBase.delNode h i a (bucketForKey hash n.key m.buckets.length) = some h' ∧
      Table hash h' i m' (l.erase a) ∧ m'.refcount = m.refcount ∧ m'.buckets.length = m.buckets.length ∧
      Frame h h' i l ∧ ∀ b, b ≠ a → entryOf h' b = entryOf h b := by
  have hmem : ∀ b, b ∈ l.erase a ↔ b ∈ l ∧ b ≠ a := fun b => by rw [ht.nodup.mem_erase_iff, and_comm]
  obtain ⟨h₁, buckets, hremove, himpl₁, hlength, hbuckets, hiter₁, href₁, hentry₁, hframe₁⟩ :=
    exists_removeLoop ht.impl_eq ht.buckets ha hn ht.pos hmem (hfuel.trans (Nat.le_succ _))
  obtain ⟨before, after, hsplit⟩ := List.append_of_mem ha
  have herase : l.erase a = before ++ after := by
    have hnodup := ht.nodup
    rw [hsplit, List.nodup_append] at hnodup
    rw [hsplit, List.erase_append_right _ fun hab => hnodup.2.2 a hab a List.mem_cons_self rfl, List.erase_cons_head]
  have hlinked₁ : Linked (iterNextOf h₁) (iterRefOf h₁) .iterNext (.begin i) m.begin (before ++ a :: after) := by
    rw [hiter₁, href₁, ← hsplit]
    exact ht.linked
  obtain ⟨n₁, hn₁⟩ : ∃ n₁, h₁.nodes a = some n₁ := by
    obtain ⟨e, he⟩ : ∃ e, entryOf h₁ a = some e := ⟨(n.key, n.val), by rw [hentry₁]; simp [entryOf, hn]⟩
    obtain ⟨n₁, hn₁, -⟩ := Option.map_eq_some_iff.mp he
    exact ⟨n₁, hn₁⟩
  obtain ⟨h₂, h₃, begin', hwrite, hset, himpl₃, hlinked₃, hbucket₃, hentry₃, hframe₃⟩ :=
    exists_unlink himpl₁ hn₁ hlinked₁
  let m' : Impl := { m with buckets := buckets, begin := begin', size := m.size - 1 }
  let h' := (h₃.deleteNode a).setImpl i m'
  have hnodes' : ∀ b, b ≠ a → h'.nodes b = h₃.nodes b := fun b hb => deleteNode_nodes hb
  have hne : ∀ b ∈ l.erase a, b ≠ a := fun b hb => ((hmem b).mp hb).2
  have hentry' : ∀ b, b ≠ a → entryOf h' b = entryOf h b := by
    intro b hb
    rw [← hentry₁, ← hentry₃]
    exact congrArg (Option.map _) (hnodes' b hb)
  refine ⟨h', m', ?_, ?_, rfl, hlength, ?_, hentry'⟩
  · have himpl' : (h₃.deleteNode a).impls i = some { m with buckets := buckets, begin := begin' } := himpl₃
    simp [MojHashBase.delNode, hremove, hn₁, hwrite, hset, himpl', h', m']
  · constructor
    · simp [h']
    · rw [herase]
      refine hlinked₃.congr (fun b hb => ?_) fun b hb => ?_
      · exact congrArg (Option.map _) (hnodes' b (hne b (herase ▸ hb)))
      · exact congrArg (Option.map _) (hnodes' b (hne b (herase ▸ hb)))
    · rw [List.length_erase_of_mem ha, ← ht.size_eq]
    · rw [hlength]
      exact ht.pos
    · refine hbuckets.congr (fun b hb => ?_) (fun b hb => ?_) fun _ => Iff.rfl
      · rw [← hbucket₃]
        exact congrArg (Option.map _) (hnodes' b (hne b hb))
      · rw [hentry' b (hne b hb), hentry₁]
    · rw [List.map_congr_left fun b hb => congrArg (Option.map Prod.fst) (hentry' b (hne b hb))]
      exact ht.keys.sublist (List.erase_sublist.map _)
  · rw [← hsplit] at hframe₃
    refine (hframe₁.trans hframe₃).trans ⟨fun j hj => ?_, fun b hb => ?_, rfl, rfl⟩
    · simp [h', hj, Heap.deleteNode]
    · exact hnodes' b fun he => hb (he ▸ ha)

/-! ## Other buckets -/

theorem exists_reallocLoop {p : Option Nat} {placed rest : List Nat} (himpl : h.impls i = some m)
    (hb : Buckets hash h m.buckets placed) (hpos : 0 < m.buckets.length) (hchain : Chain (iterNextOf h) p rest)
    (hnew : ∀ a ∈ rest, a ∉ placed) {fuel : Nat} (hfuel : rest.length ≤ fuel) :
    ∃ h' buckets', reallocLoop hash h i fuel p = some h' ∧ h'.impls i = some { m with buckets := buckets' } ∧
      buckets'.length = m.buckets.length ∧ Buckets hash h' buckets' (rest.reverse ++ placed) ∧
      iterNextOf h' = iterNextOf h ∧ iterRefOf h' = iterRefOf h ∧ entryOf h' = entryOf h ∧ Frame h h' i rest := by
  induction rest generalizing h m p placed fuel with
  | nil =>
    cases hchain
    exact ⟨h, m.buckets, by cases fuel <;> rfl, himpl, rfl, hb, rfl, rfl, rfl, .refl h i []⟩
  | cons a rest ih =>
    have hnodup := hchain.nodup
    cases hchain with
    | cons hnext hrest =>
      obtain ⟨n, hn, rfl⟩ := Option.map_eq_some_iff.mp hnext
      cases fuel with
      | zero => simp at hfuel
      | succ fuel =>
        obtain ⟨q, hq⟩ := Buckets.exists_bucket hash hpos n.key
        let n₁ : Node κ α := { n with bucketNext := none }
        let h₁ := h.setNode a n₁
        let m₂ : Impl := { m with buckets := m.buckets.set (bucketForKey hash n.key m.buckets.length) (some a) }
        let h₂ := (h₁.setNode a { n₁ with bucketNext := q }).setImpl i m₂
        have hn₁ : h₁.nodes a = some n₁ := by simp [h₁]
        have hinsert : insert h₁ i (bucketForKey hash n.key m.buckets.length) a = some h₂ := by
          simp [insert, h₁, himpl, hq, h₂, m₂]
        have ha : a ∉ placed := hnew a List.mem_cons_self
        have hentry₁ : entryOf h₁ = entryOf h := entryOf_write hn rfl rfl
        have hb₁ : Buckets hash h₁ m.buckets placed := by
          refine hb.congr (fun b hbp => ?_) (fun b _ => by rw [hentry₁]) fun _ => Iff.rfl
          have hne : b ≠ a := fun he => ha (he ▸ hbp)
          exact (congrFun bucketNextOf_setNode b).trans (Function.update_of_ne hne _ _)
        have hb₂ : Buckets hash h₂ m₂.buckets (a :: placed) := hb₁.insert hn₁ ha hq
        have hiter₂ : iterNextOf h₂ = iterNextOf h₁ := iterNextOf_write hn₁ rfl
        have href₂ : iterRefOf h₂ = iterRefOf h₁ := iterRefOf_write hn₁ rfl
        have hentry₂ : entryOf h₂ = entryOf h₁ := entryOf_write hn₁ rfl rfl
        have hiter : iterNextOf h₂ = iterNextOf h := hiter₂.trans (iterNextOf_write hn rfl)
        have href : iterRefOf h₂ = iterRefOf h := href₂.trans (iterRefOf_write hn rfl)
        have hframe : Frame h h₂ i (a :: rest) :=
          (Frame.setNode (by simp)).trans ((Frame.setNode (by simp)).trans (.setImpl _))
        have hnew₂ : ∀ b ∈ rest, b ∉ a :: placed := by
          intro b hb
          simp only [List.mem_cons, not_or]
          exact ⟨fun he => (List.nodup_cons.mp hnodup).1 (he ▸ hb), hnew b (List.mem_cons_of_mem a hb)⟩
        have hpos₂ : 0 < m₂.buckets.length := by simpa [m₂] using hpos
        obtain ⟨h', buckets', hloop, himpl', hlength', hb', hiter', href', hentry', hframe'⟩ :=
          ih (h := h₂) (m := m₂) (by simp [h₂]) hb₂ hpos₂ (hiter ▸ hrest) hnew₂ (Nat.le_of_succ_le_succ hfuel)
        refine ⟨h', buckets', ?_, himpl', by simpa [m₂] using hlength', by simpa using hb', hiter'.trans hiter,
          href'.trans href, hentry'.trans (hentry₂.trans hentry₁),
          hframe.trans (hframe'.mono fun b hb => List.mem_cons_of_mem a hb)⟩
        simp only [reallocLoop, hn, himpl, Option.bind_eq_bind, Option.bind_some]
        change (insert h₁ i _ a).bind _ = _
        rw [hinsert]
        exact hloop

/-- **`realloc` keeps the list of nodes.** -/
theorem Table.realloc {numBuckets : Nat} (himpl : h.impls i = some m)
    (hlinked : Linked (iterNextOf h) (iterRefOf h) .iterNext (.begin i) m.begin l) (hsize : m.size = l.length)
    (hkeys : (l.map fun a => (entryOf h a).map Prod.fst).Nodup) (hpos : 0 < numBuckets) (hfuel : l.length ≤ h.newNode) :
    ∃ h' m', MojHashBase.realloc hash h (some i) numBuckets = some (h', i) ∧ Table hash h' i m' l ∧
      m'.refcount = m.refcount ∧ m'.buckets.length = numBuckets ∧ Frame h h' i l ∧ entryOf h' = entryOf h := by
  let m₁ : Impl := { m with buckets := List.replicate numBuckets none }
  let h₁ := h.setImpl i m₁
  obtain ⟨h', buckets', hloop, himpl', hlength', hb', hiter', href', hentry', hframe'⟩ :=
    exists_reallocLoop (h := h₁) (i := i) (m := m₁) (by simp [h₁]) (.nil _) (by simpa [m₁] using hpos) hlinked.chain
      (fun _ _ => List.not_mem_nil) hfuel
  have hlength : buckets'.length = numBuckets := by simpa [m₁] using hlength'
  refine ⟨h', _, ?_, ⟨himpl', ?_, hsize, hlength ▸ hpos, ?_, ?_⟩, rfl, hlength, (Frame.setImpl _).trans hframe', hentry'⟩
  · simp only [MojHashBase.realloc, himpl, Option.bind_eq_bind, Option.bind_some]
    change (reallocLoop hash h₁ i h.newNode m.begin).bind _ = _
    rw [hloop]
    rfl
  · rw [hiter', href']
    exact hlinked
  · exact hb'.congr (fun _ _ => rfl) (fun _ _ => rfl) fun b => by simp
  · rw [hentry']
    exact hkeys

/-! ## Copying and deleting the nodes -/

/-- The nodes of another list are copied into a table. -/
theorem Table.cloneLoop {p : Option Nat} {rest : List Nat} (ht : Table hash h i m l)
    (hchain : Chain (iterNextOf h) p rest) (hl : ∀ a ∈ l, a < h.newNode) (hrest : ∀ a ∈ rest, a < h.newNode ∧ a ∉ l)
    (hkeys : ((rest ++ l).map fun a => (entryOf h a).map Prod.fst).Nodup) {fuel : Nat} (hfuel : rest.length ≤ fuel) :
    ∃ h' m' l', MojHashBase.cloneLoop hash h i fuel p = some h' ∧ Table hash h' i m' l' ∧ m'.refcount = m.refcount ∧
      m'.buckets.length = m.buckets.length ∧
      l'.map (entryOf h') = (rest.map (entryOf h)).reverse ++ l.map (entryOf h) ∧
      (∀ a ∈ l', (a ∈ l ∨ h.newNode ≤ a) ∧ a < h'.newNode) ∧
      (∀ a, a < h.newNode → a ∉ l → h'.nodes a = h.nodes a) ∧ (∀ j, j ≠ i → h'.impls j = h.impls j) ∧
      h.newNode ≤ h'.newNode ∧ h'.newImpl = h.newImpl := by
  induction rest generalizing h m l p fuel with
  | nil =>
    cases hchain
    exact ⟨h, m, l, by cases fuel <;> rfl, ht, rfl, rfl, by simp, fun a ha => ⟨.inl ha, hl a ha⟩, fun _ _ _ => rfl,
      fun _ _ => rfl, le_rfl, rfl⟩
  | cons a rest ih =>
    cases hchain with
    | cons hnext hchain =>
      obtain ⟨n, hn, rfl⟩ := Option.map_eq_some_iff.mp hnext
      cases fuel with
      | zero => simp at hfuel
      | succ fuel =>
        let h₁ := h.allocNode n.key n.val
        have hold : ∀ b, b < h.newNode → h₁.nodes b = h.nodes b := fun b hb => Function.update_of_ne hb.ne _ _
        have hnew : h.newNode ∉ l := fun hmem => absurd (hl _ hmem) (lt_irrefl _)
        have ht₁ : Table hash h₁ i m l := ht.congr rfl fun b hb => hold b (hl b hb)
        have hn₁ : h₁.nodes h.newNode = some ⟨n.key, n.val, none, none, .null⟩ := Function.update_self _ _ _
        have hentry₁ : ∀ b, b < h.newNode → entryOf h₁ b = entryOf h b := fun b hb => congrArg (Option.map _) (hold b hb)
        have hentryl : l.map (entryOf h₁) = l.map (entryOf h) := List.map_congr_left fun b hb => hentry₁ b (hl b hb)
        have hkey : some n.key ∉ l.map fun b => (entryOf h₁ b).map Prod.fst := by
          rw [List.map_congr_left fun b hb => congrArg (Option.map Prod.fst) (hentry₁ b (hl b hb))]
          rw [List.cons_append, List.map_cons, List.nodup_cons, List.map_append] at hkeys
          intro hmem
          exact hkeys.1 (List.mem_append_right _ (by simpa [entryOf, hn] using hmem))
        obtain ⟨h₂, m₂, hput, ht₂, href₂, hlen₂, hframe₂, hentry₂⟩ := ht₁.put hn₁ hnew hkey
        have hsame : ∀ b, b < h.newNode → b ∉ l → h₂.nodes b = h.nodes b := by
          intro b hb hbl
          rw [hframe₂.nodes b (by simp [hb.ne, hbl]), hold b hb]
        have hnewNode : h₂.newNode = h.newNode + 1 := hframe₂.newNode
        have hchain₂ : Chain (iterNextOf h₂) n.iterNext rest := hchain.congr fun b hb =>
          congrArg (Option.map _) (hsame b (hrest b (by simp [hb])).1 (hrest b (by simp [hb])).2)
        have hentryrest : rest.map (entryOf h₂) = rest.map (entryOf h) := List.map_congr_left fun b hb => by
          rw [hentry₂, hentry₁ b (hrest b (by simp [hb])).1]
        have hentrynew : (h.newNode :: l).map (entryOf h₂) = entryOf h a :: l.map (entryOf h) := by
          rw [hentry₂, List.map_cons, hentryl]
          simp [entryOf, hn₁, hn]
        have hkeys₂ : ((rest ++ h.newNode :: l).map fun b => (entryOf h₂ b).map Prod.fst).Nodup := by
          have hmap : ∀ (g : Heap κ α) (bs : List Nat), (bs.map fun b => (entryOf g b).map Prod.fst) =
              (bs.map (entryOf g)).map (Option.map Prod.fst) := fun g bs => by simp
          rw [hmap, List.map_append, hentryrest, hentrynew, List.map_append, List.map_cons, List.nodup_middle]
          simpa [hmap] using hkeys
        have hl₂ : ∀ b ∈ h.newNode :: l, b < h₂.newNode := by
          intro b hb
          rcases List.mem_cons.mp hb with rfl | hb
          · omega
          · exact (hl b hb).trans (by omega)
        have hrest₂ : ∀ b ∈ rest, b < h₂.newNode ∧ b ∉ h.newNode :: l := by
          intro b hb
          obtain ⟨hlt, hbl⟩ := hrest b (by simp [hb])
          exact ⟨by omega, by simp [hlt.ne, hbl]⟩
        obtain ⟨h', m', l', hloop, ht', href', hlen', hentries', hl', hold', himpls', hnewNode', hnewImpl'⟩ :=
          ih ht₂ hchain₂ hl₂ hrest₂ hkeys₂ (Nat.le_of_succ_le_succ hfuel)
        refine ⟨h', m', l', ?_, ht', href'.trans href₂, hlen'.trans hlen₂, ?_, fun b hb => ?_, fun b hb hbl => ?_, fun j hj => ?_, ?_, ?_⟩
        · simp only [MojHashBase.cloneLoop, hn, ht.impl_eq, Option.bind_eq_bind, Option.bind_some]
          change (Impl.put h₁ i h.newNode _).bind _ = _
          rw [hput]
          exact hloop
        · rw [hentries', hentrynew, hentryrest]
          simp
        · obtain ⟨hmem, hlt⟩ := hl' b hb
          refine ⟨?_, hlt⟩
          rcases hmem with hmem | hge
          · rcases List.mem_cons.mp hmem with rfl | hmem
            · exact .inr le_rfl
            · exact .inl hmem
          · exact .inr (by omega)
        · rw [hold' b (by omega) (by simp [hb.ne, hbl]), hsame b hb hbl]
        · exact (himpls' j hj).trans (hframe₂.impls j hj)
        · omega
        · exact hnewImpl'.trans hframe₂.newImpl

theorem exists_deleteNodeList {p : Option Nat} (hchain : Chain (iterNextOf h) p l) {fuel : Nat} (hfuel : l.length ≤ fuel) :
    ∃ h', deleteNodeList h fuel p = some h' ∧ (∀ a, a ∉ l → h'.nodes a = h.nodes a) ∧ h'.impls = h.impls ∧
      h'.newNode = h.newNode ∧ h'.newImpl = h.newImpl := by
  induction l generalizing h p fuel with
  | nil =>
    cases hchain
    exact ⟨h, by cases fuel <;> rfl, fun _ _ => rfl, rfl, rfl, rfl⟩
  | cons a l ih =>
    have hnodup := hchain.nodup
    cases hchain with
    | cons hnext hchain =>
      obtain ⟨n, hn, rfl⟩ := Option.map_eq_some_iff.mp hnext
      cases fuel with
      | zero => simp at hfuel
      | succ fuel =>
        have hchain₁ : Chain (iterNextOf (h.deleteNode a)) n.iterNext l := hchain.congr fun b hb =>
          congrArg (Option.map _) (deleteNode_nodes fun he => (List.nodup_cons.mp hnodup).1 (he ▸ hb))
        obtain ⟨h', hloop, hnodes, himpls, hnewNode, hnewImpl⟩ := ih hchain₁ (Nat.le_of_succ_le_succ hfuel)
        refine ⟨h', ?_, fun b hb => ?_, himpls, hnewNode, hnewImpl⟩
        · simpa [deleteNodeList, hn] using hloop
        · obtain ⟨hba, hbl⟩ := not_or.mp (mt List.mem_cons.mpr hb)
          exact (hnodes b hbl).trans (deleteNode_nodes hba)

end Tables

end MojHashBase

end Db8
