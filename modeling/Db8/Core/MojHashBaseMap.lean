import Db8.Core.MojHashBaseShared

/-!
# Core.MojHashBaseMap

What an operation does with the content of one container, and that it keeps that of the others.

* `entries`        — the keys and values of some nodes.
* `Table.putNode`, `Ok.putNode` — a node with a new key, with other buckets where there are too few.
* `After`          — the memory after an operation on one container.
* `Ok.find`, `Ok.findWritable`, `Ok.put`, `Ok.del` — the operations.
-/

namespace Db8

open Lib

namespace MojHashBase

variable {ι κ α : Type} {hash : κ → Nat} {h h' : Heap κ α} {i a : Nat} {m : Impl} {l : List Nat}

/-! ## Entries -/

def entries (h : Heap κ α) (l : List Nat) : List (κ × α) := l.filterMap (entryOf h)

theorem entries_cons {e : κ × α} (he : entryOf h a = some e) (l : List Nat) : entries h (a :: l) = e :: entries h l := by
  rw [entries, List.filterMap_cons, he]
  rfl

theorem entries_append (l₁ l₂ : List Nat) : entries h (l₁ ++ l₂) = entries h l₁ ++ entries h l₂ := List.filterMap_append

theorem entries_congr (hsame : ∀ a ∈ l, entryOf h' a = entryOf h a) : entries h' l = entries h l :=
  List.filterMap_congr hsame

theorem mem_entries {e : κ × α} : e ∈ entries h l ↔ ∃ a ∈ l, entryOf h a = some e := List.mem_filterMap

theorem entries_perm {l' : List Nat} (hperm : (l'.map (entryOf h')).Perm (l.map (entryOf h))) :
    (entries h' l').Perm (entries h l) := by
  have hid : ∀ (g : Heap κ α) (l : List Nat), entries g l = (l.map (entryOf g)).filterMap id := fun g l => by
    rw [List.filterMap_map]
    rfl
  rw [hid, hid]
  exact hperm.filterMap id

namespace Table

theorem exists_entry (ht : Table hash h i m l) (ha : a ∈ l) : ∃ e, entryOf h a = some e := by
  obtain ⟨n, hn⟩ := ht.exists_node ha
  exact ⟨(n.key, n.val), by simp [entryOf, hn]⟩

theorem map_entryOf (ht : Table hash h i m l) : l.map (entryOf h) = (entries h l).map some := by
  have hall : ∀ (l' : List Nat), (∀ a ∈ l', ∃ e, entryOf h a = some e) → l'.map (entryOf h) = (entries h l').map some := by
    intro l' hl'
    induction l' with
    | nil => rfl
    | cons a l' ih =>
      obtain ⟨e, he⟩ := hl' a List.mem_cons_self
      rw [entries_cons he, List.map_cons, List.map_cons, he, ih fun b hb => hl' b (List.mem_cons_of_mem a hb)]
  exact hall l fun a ha => ht.exists_entry ha

theorem length_entries (ht : Table hash h i m l) : (entries h l).length = l.length := by
  have hlen := congrArg List.length ht.map_entryOf
  simpa using hlen.symm

theorem nodup_keys (ht : Table hash h i m l) : ((entries h l).map Prod.fst).Nodup := by
  have hkeys := ht.keys
  have hmap : (l.map fun a => (entryOf h a).map Prod.fst) = (l.map (entryOf h)).map (Option.map Prod.fst) := by simp
  rw [hmap, ht.map_entryOf, List.map_map] at hkeys
  have hcomp : (Option.map Prod.fst ∘ some : κ × α → Option κ) = some ∘ Prod.fst := rfl
  rw [hcomp, ← List.map_map] at hkeys
  exact hkeys.of_map

/-- The node of a key, with what is before and behind it. -/
theorem split (ht : Table hash h i m l) {key : κ} {val : α} (ha : a ∈ l) (he : entryOf h a = some (key, val)) :
    ∃ before after, l = before ++ a :: after ∧ a ∉ before ∧ a ∉ after ∧
      ∀ e ∈ entries h before ++ entries h after, e.1 ≠ key := by
  obtain ⟨before, after, rfl⟩ := List.append_of_mem ha
  have hnodup := ht.nodup
  simp only [List.nodup_append, List.nodup_cons] at hnodup
  have hkeys := ht.nodup_keys
  rw [entries_append, entries_cons he, List.map_append, List.map_cons, List.nodup_middle, List.nodup_cons] at hkeys
  refine ⟨before, after, rfl, fun hmem => hnodup.2.2 a hmem a List.mem_cons_self rfl, hnodup.2.1.1, fun e hmem hekey => ?_⟩
  refine hkeys.1 ?_
  rw [← List.map_append]
  exact List.mem_map.mpr ⟨e, hmem, hekey⟩

end Table

/-! ## A new node -/

/-- A table that is full, or that has no node yet, grows first. -/
theorem putNode_eq (him : h.impls i = some m) (idx : Nat) (key : κ) :
    MojHashBase.putNode hash h (some i) a idx key =
      if (if m.size = 0 then 0 else m.buckets.length) * FillFactor ≤ m.size then do
        let (h, i) ← MojHashBase.realloc hash h (some i)
          (max InitialSize ((if m.size = 0 then 0 else m.buckets.length) * 2))
        let m ← h.impls i
        let h ← Impl.put h i a (bucketForKey hash key m.buckets.length)
        return (h, some i)
      else do
        let h ← Impl.put h i a idx
        return (h, some i) := by
  by_cases hsize : m.size = 0
  · simp [MojHashBase.putNode, size, him, hsize]
  · simp [MojHashBase.putNode, size, him, hsize]

/-- `put` of a new node, with other buckets if there are too few. -/
theorem Table.putNode {n : Node κ α} (ht : Table hash h i m l) (hn : h.nodes a = some n) (ha : a ∉ l)
    (hkey : some n.key ∉ l.map fun b => (entryOf h b).map Prod.fst) (hfuel : l.length ≤ h.newNode) {idx : Nat}
    (hidx : l ≠ [] → idx = bucketForKey hash n.key m.buckets.length) :
    ∃ h' m', MojHashBase.putNode hash h (some i) a idx n.key = some (h', some i) ∧ Table hash h' i m' (a :: l) ∧
      m'.refcount = m.refcount ∧ Frame h h' i (a :: l) ∧ entryOf h' = entryOf h := by
  rw [putNode_eq ht.impl_eq]
  generalize hnum : (if m.size = 0 then 0 else m.buckets.length) = numBuckets
  by_cases hgrow : numBuckets * FillFactor ≤ m.size
  · rw [if_pos hgrow]
    have hpos : 0 < max InitialSize (numBuckets * 2) := lt_of_lt_of_le (by decide) (le_max_left _ _)
    obtain ⟨h₁, m₁, hrealloc, ht₁, href₁, -, hframe₁, hentry₁⟩ :=
      Table.realloc ht.impl_eq ht.linked ht.size_eq ht.keys hpos hfuel
    have hn₁ : h₁.nodes a = some n := (hframe₁.nodes a ha).trans hn
    obtain ⟨h₂, m₂, hput₂, ht₂, href₂, -, hframe₂, hentry₂⟩ := ht₁.put hn₁ ha (by rwa [hentry₁])
    refine ⟨h₂, m₂, ?_, ht₂, href₂.trans href₁, (hframe₁.mono fun b hb => List.mem_cons_of_mem a hb).trans hframe₂,
      hentry₂.trans hentry₁⟩
    simp [hrealloc, ht₁.impl_eq, hput₂]
  · rw [if_neg hgrow]
    have hne : l ≠ [] := by
      rintro rfl
      have hzero : m.size = 0 := ht.size_eq
      exact hgrow (by simp [← hnum, hzero])
    obtain ⟨h₂, m₂, hput₂, ht₂, href₂, -, hframe₂, hentry₂⟩ := ht.put hn ha hkey
    refine ⟨h₂, m₂, ?_, ht₂, href₂, hframe₂, hentry₂⟩
    rw [hidx hne]
    simp [hput₂]

/-- The first node of a container makes its table. -/
theorem exists_putNode (hash : κ → Nat) {n : Node κ α} (hn : h.nodes a = some n) (idx : Nat) :
    ∃ h' m', MojHashBase.putNode hash h none a idx n.key = some (h', some h.newImpl) ∧ Table hash h' h.newImpl m' [a] ∧
      m'.refcount = 1 ∧ (∀ j, j ≠ h.newImpl → h'.impls j = h.impls j) ∧ (∀ b, b ≠ a → h'.nodes b = h.nodes b) ∧
      h'.newNode = h.newNode ∧ h'.newImpl = h.newImpl + 1 ∧ entryOf h' = entryOf h := by
  let h₁ := h.allocImpl 0
  let m₁ : Impl := ⟨[], none, 0, 1⟩
  have him₁ : h₁.impls h.newImpl = some m₁ := Function.update_self _ _ _
  obtain ⟨h₂, m₂, hrealloc, ht₂, href₂, -, hframe₂, hentry₂⟩ :=
    Table.realloc (l := []) him₁ .nil rfl List.nodup_nil (by decide : 0 < InitialSize) (Nat.zero_le _)
  have hn₂ : h₂.nodes a = some n := (hframe₂.nodes a List.not_mem_nil).trans hn
  obtain ⟨h₃, m₃, hput₃, ht₃, href₃, -, hframe₃, hentry₃⟩ := ht₂.put hn₂ List.not_mem_nil (by simp)
  have hframe := (hframe₂.mono fun b hb => absurd hb List.not_mem_nil).trans hframe₃
  refine ⟨h₃, m₃, ?_, ht₃, href₃.trans href₂, fun j hj => ?_, fun b hb => ?_, hframe.newNode, hframe.newImpl,
    hentry₃.trans hentry₂⟩
  · have hsame : MojHashBase.realloc hash h none InitialSize = MojHashBase.realloc hash h₁ (some h.newImpl) InitialSize := rfl
    simp [MojHashBase.putNode, size, hsame, hrealloc, ht₂.impl_eq, hput₃]
  · exact (hframe.impls j hj).trans (Function.update_of_ne hj _ _)
  · exact hframe.nodes b (by simpa using hb)

/-- Another value for a key. -/
theorem Table.setVal {n : Node κ α} (ht : Table hash h i m l) (hn : h.nodes a = some n) (val : α) :
    Table hash (h.setNode a { n with val := val }) i m l := by
  have hkey : ∀ b, (entryOf (h.setNode a { n with val := val }) b).map Prod.fst = (entryOf h b).map Prod.fst := by
    intro b
    rw [entryOf_setNode]
    rcases eq_or_ne b a with rfl | hba
    · simp [entryOf, hn]
    · rw [Function.update_of_ne hba]
  have hiter : iterNextOf (h.setNode a { n with val := val }) = iterNextOf h := iterNextOf_write hn rfl
  have href : iterRefOf (h.setNode a { n with val := val }) = iterRefOf h := iterRefOf_write hn rfl
  have hbucket : bucketNextOf (h.setNode a { n with val := val }) = bucketNextOf h := bucketNextOf_write hn rfl
  refine ⟨ht.impl_eq, ?_, ht.size_eq, ht.pos, ht.buckets.congr (fun b _ => congrFun hbucket b) (fun b _ => hkey b)
    fun _ => Iff.rfl, ?_⟩
  · rw [hiter, href]
    exact ht.linked
  · simpa only [hkey] using ht.keys

/-! ## Operations of a container -/

section Containers

variable [Fintype ι] [DecidableEq ι] {impls : ι → Option Nat} {nodes : Nat → List Nat} {c : ι} {m' : Impl} {l' : List Nat}

omit [DecidableEq ι] in
/-- A container writes to its own table. -/
theorem Ok.write (hok : Ok hash h impls nodes none) (him : h.impls i = some m) (ht' : Table hash h' i m' l')
    (href : m'.refcount = m.refcount) (himpls : ∀ j, j ≠ i → h'.impls j = h.impls j)
    (hnodes : ∀ a, a < h.newNode → a ∉ nodes i → h'.nodes a = h.nodes a)
    (hl : ∀ a ∈ l', a < h'.newNode ∧ (a ∈ nodes i ∨ h.newNode ≤ a)) (hnew : h.newNode ≤ h'.newNode)
    (hnewImpl : h'.newImpl = h.newImpl) : Ok hash h' impls (Function.update nodes i l') none := by
  obtain ⟨hcount, hpos⟩ := hok.refcount i m him
  refine hok.modify (fun mi hmi => ?_) (fun hnone => ?_) (fun _ _ => rfl) (fun d j hd => ?_) himpls (fun j hj a ha => ?_)
    (fun a ha => ⟨(hl a ha).1, fun j hj haj => ?_⟩) hnew hnewImpl.ge
  · obtain rfl := Option.some.inj (hmi.symm.trans ht'.impl_eq)
    exact ⟨ht', href.trans hcount, href ▸ hpos, hnewImpl ▸ hok.impls_lt i m him⟩
  · rw [ht'.impl_eq] at hnone
    cases hnone
  · rcases eq_or_ne j i with rfl | hji
    · exact ⟨m', ht'.impl_eq⟩
    · rw [himpls j hji]
      exact hok.live d j hd
  · exact hnodes a (hok.nodes_lt j a ha) fun hai => hj (hok.apart j i a ha hai)
  · rcases (hl a ha).2 with hai | hge
    · exact hj (hok.apart j i a haj hai)
    · exact absurd (hok.nodes_lt j a haj) (not_lt.mpr hge)

/-- A node with a key that the container does not have. -/
theorem Ok.putNode {p : Option Nat} {key : κ} {idx : Nat} (hok : Ok hash h impls nodes none) (hc : impls c = p) (val : α)
    (hkey : ∀ a ∈ nodesOf nodes p, (entryOf h a).map Prod.fst ≠ some key)
    (hidx : ∀ i m, p = some i → h.impls i = some m → nodes i ≠ [] → idx = bucketForKey hash key m.buckets.length) :
    ∃ h' i nodes', MojHashBase.putNode hash (h.allocNode key val) p h.newNode idx key = some (h', some i) ∧
      Ok hash h' (Function.update impls c (some i)) nodes' none ∧ nodes' i = h.newNode :: nodesOf nodes p ∧
      (∀ j, j ≠ i → nodes' j = nodes j) ∧ entryOf h' h.newNode = some (key, val) ∧
      (∀ a, a < h.newNode → entryOf h' a = entryOf h a ∧ (a ∉ nodesOf nodes p → h'.nodes a = h.nodes a)) ∧
      (p = some i ∨ p = none ∧ h.impls i = none) := by
  let h₁ := h.allocNode key val
  let n : Node κ α := ⟨key, val, none, none, .null⟩
  have hn : h₁.nodes h.newNode = some n := Function.update_self _ _ _
  have hold : ∀ a, a < h.newNode → h₁.nodes a = h.nodes a := fun a ha => Function.update_of_ne ha.ne _ _
  have hentry : ∀ a, a < h.newNode → entryOf h₁ a = entryOf h a := fun a ha => congrArg (Option.map _) (hold a ha)
  have hentrynew : entryOf h₁ h.newNode = some (key, val) := by simp [entryOf, hn, n]
  cases p with
  | none =>
    obtain ⟨h', m', hput, ht', href', himpls', hnodes', hnewNode', hnewImpl', hentry'⟩ :=
      exists_putNode hash hn idx
    have hnewNode : h'.newNode = h.newNode + 1 := hnewNode'
    have hnewImpl : h'.newImpl = h.newImpl + 1 := hnewImpl'
    have himpl' : h'.impls h.newImpl = some m' := ht'.impl_eq
    have hnone : h.impls h.newImpl = none := hok.impls_newImpl
    have hupdate := refs_update impls c (some h.newImpl) h.newImpl
    have hzero : refs impls h.newImpl = 0 := hok.refs_newImpl
    rw [if_neg (by simp [hc]), if_pos rfl] at hupdate
    refine ⟨h', h.newImpl, Function.update nodes h.newImpl [h.newNode], hput, ?_, Function.update_self _ _ _,
      fun j hj => Function.update_of_ne hj _ _, ?_, fun a ha => ⟨?_, fun _ => ?_⟩, .inr ⟨rfl, hnone⟩⟩
    · refine hok.modify (fun mi hmi => ?_) (fun hi => ?_) (fun j hj => ?_) (fun d j hd => ?_) himpls'
        (fun j _ a ha => ?_) (fun a ha => ?_) ?_ ?_
      · obtain rfl := Option.some.inj (hmi.symm.trans himpl')
        refine ⟨ht', ?_, by omega, ?_⟩
        · rw [if_neg (by simp)]
          omega
        · rw [hnewImpl]
          exact Nat.lt_succ_self _
      · rw [himpl'] at hi
        cases hi
      · rw [refs_update_of_ne (by simp [hc]) fun he => hj (Option.some.inj he).symm]
      · rcases eq_or_ne j h.newImpl with rfl | hj
        · exact ⟨m', himpl'⟩
        · rw [himpls' j hj]
          rcases eq_or_ne d c with rfl | hdc
          · rw [Function.update_self] at hd
            exact absurd (Option.some.inj hd).symm hj
          · exact hok.live d j (by rwa [Function.update_of_ne hdc] at hd)
      · have hlt := hok.nodes_lt j a ha
        rw [hnodes' a hlt.ne, hold a hlt]
      · obtain rfl := List.mem_singleton.mp ha
        refine ⟨?_, fun j _ haj => absurd (hok.nodes_lt j _ haj) (lt_irrefl _)⟩
        rw [hnewNode]
        exact Nat.lt_succ_self _
      · rw [hnewNode]
        exact Nat.le_succ _
      · rw [hnewImpl]
        exact Nat.le_succ _
    · rw [hentry', hentrynew]
    · rw [hentry', hentry a ha]
    · rw [hnodes' a ha.ne, hold a ha]
  | some i =>
    obtain ⟨m, him⟩ := hok.live c i hc
    have ht := hok.tables i m him
    have hlt := hok.nodes_lt i
    have hnew : h.newNode ∉ nodes i := fun hmem => absurd (hlt _ hmem) (lt_irrefl _)
    have ht₁ : Table hash h₁ i m (nodes i) := ht.congr rfl fun a ha => hold a (hlt a ha)
    have hkey₁ : some n.key ∉ (nodes i).map fun a => (entryOf h₁ a).map Prod.fst := by
      rintro hmem
      obtain ⟨a, ha, he⟩ := List.mem_map.mp hmem
      exact hkey a ha (hentry a (hlt a ha) ▸ he)
    obtain ⟨h', m', hput, ht', href', hframe', hentry'⟩ :=
      ht₁.putNode hn hnew hkey₁ ((hok.length_le him).trans (Nat.le_succ _)) (hidx i m rfl him)
    have hsame : Function.update impls c (some i) = impls := hc ▸ Function.update_eq_self c impls
    have hnodes' : ∀ a, a < h.newNode → a ∉ nodes i → h'.nodes a = h.nodes a := fun a ha hai => by
      rw [hframe'.nodes a (by simp [ha.ne, hai]), hold a ha]
    have hnewNode' : h'.newNode = h.newNode + 1 := hframe'.newNode
    refine ⟨h', i, Function.update nodes i (h.newNode :: nodes i), hput, ?_, Function.update_self _ _ _,
      fun j hj => Function.update_of_ne hj _ _, ?_, fun a ha => ⟨?_, hnodes' a ha⟩, .inl rfl⟩
    · rw [hsame]
      refine hok.write him ht' href' hframe'.impls hnodes' (fun a ha => ?_) (by omega) hframe'.newImpl
      rcases List.mem_cons.mp ha with rfl | ha
      · exact ⟨by omega, .inr le_rfl⟩
      · exact ⟨(hlt a ha).trans (by omega), .inl ha⟩
    · rw [hentry', hentrynew]
    · rw [hentry', hentry a ha]

variable [DecidableEq κ]

omit [DecidableEq ι] in
/-- The node of a key, of a container. -/
theorem Ok.find {copy p : Option Nat} (hok : Ok hash h impls nodes copy) (hc : impls c = p) (key : κ) :
    ∃ node idx, MojHashBase.find hash h p key = some (node, idx) ∧
      (∀ a, node = some a ↔ a ∈ nodesOf nodes p ∧ (entryOf h a).map Prod.fst = some key) ∧
      ∀ i m, p = some i → h.impls i = some m → nodes i ≠ [] → idx = bucketForKey hash key m.buckets.length := by
  cases p with
  | none => exact ⟨none, 0, rfl, fun a => by simp [nodesOf], nofun⟩
  | some i =>
    obtain ⟨m, him⟩ := hok.live c i hc
    obtain ⟨node, idx, hfind, hnode, hidx⟩ := (hok.tables i m him).find (hok.length_le him) key
    refine ⟨node, idx, hfind, hnode, fun j mj hj hmj hne => ?_⟩
    obtain rfl := Option.some.inj hj
    obtain rfl := Option.some.inj (him.symm.trans hmj)
    exact hidx hne

/-- What an operation on `c` leaves: `c` shows `es`, the others what they showed. -/
structure After (hash : κ → Nat) (h : Heap κ α) (impls : ι → Option Nat) (nodes : Nat → List Nat) (c : ι) (h' : Heap κ α)
    (p' : Option Nat) (nodes' : Nat → List Nat) (es : List (κ × α)) : Prop where
  ok : Ok hash h' (Function.update impls c p') nodes' none
  shown : (entries h' (nodesOf nodes' p')).Perm es
  others : ∀ d, d ≠ c → ∀ j, impls d = some j → nodes' j = nodes j ∧ ∀ a ∈ nodes j, h'.nodes a = h.nodes a

/-- The other `find`: the node is one of a table that no other container has. -/
theorem Ok.findWritable (hok : Ok hash h impls nodes none) (c : ι) (key : κ) :
    ∃ h' p' node idx nodes', MojHashBase.findWritable hash h (impls c) key = some (h', p', node, idx) ∧
      After hash h impls nodes c h' p' nodes' (entries h (nodesOf nodes (impls c))) ∧
      (∀ i, p' = some i → refs (Function.update impls c p') i = 1) ∧
      (∀ a, node = some a ↔ a ∈ nodesOf nodes' p' ∧ (entryOf h' a).map Prod.fst = some key) ∧
      (∀ i m, p' = some i → h'.impls i = some m → nodes' i ≠ [] → idx = bucketForKey hash key m.buckets.length) ∧
      numBuckets h' p' = numBuckets h (impls c) ∧
      ∀ k m, h.impls k = some m → nodes' k = nodes k ∧ ∀ a ∈ nodes k, h'.nodes a = h.nodes a := by
  obtain ⟨h', p', nodes', hwrite, hok', hone, hperm, hnum, hkeep⟩ := hok.ensureWritable c
  obtain ⟨node, idx, hfind, hnode, hidx⟩ := hok'.find (c := c) (p := p') (Function.update_self _ _ _) key
  refine ⟨h', p', node, idx, nodes', ?_, ⟨hok', entries_perm hperm, fun d _ j hd => ?_⟩, hone, hnode, hidx, hnum, hkeep⟩
  · simp [MojHashBase.findWritable, hwrite, hfind]
  · obtain ⟨m, hm⟩ := hok.live d j hd
    exact hkeep j m hm

/-- The entries of a table without those of a key. -/
theorem Table.filter_entries (ht : Table hash h i m l) {key : κ} {val : α} (ha : a ∈ l)
    (he : entryOf h a = some (key, val)) :
    ∃ before after, l = before ++ a :: after ∧ a ∉ before ∧ a ∉ after ∧
      ((entries h l).filter fun e => e.1 ≠ key) = entries h before ++ entries h after := by
  obtain ⟨before, after, rfl, hbefore, hafter, hne⟩ := ht.split ha he
  refine ⟨before, after, rfl, hbefore, hafter, ?_⟩
  rw [entries_append, entries_cons he, List.filter_append, List.filter_cons_of_neg (by simp)]
  rw [List.filter_eq_self.mpr fun e he => decide_eq_true (hne e (List.mem_append_left _ he)),
    List.filter_eq_self.mpr fun e he => decide_eq_true (hne e (List.mem_append_right _ he))]

/-- `MojHashMap::put` -/
theorem Ok.put (hok : Ok hash h impls nodes none) (c : ι) (key : κ) (val : α) :
    ∃ h' p' nodes', MojHashBase.put hash h (impls c) key val = some (h', p') ∧
      After hash h impls nodes c h' p' nodes'
        ((key, val) :: (entries h (nodesOf nodes (impls c))).filter fun e => e.1 ≠ key) ∧
      ∀ k m, h.impls k = some m → nodes k <:+ nodes' k ∧
        ∀ a ∈ nodes k, (entryOf h' a).map Prod.fst = (entryOf h a).map Prod.fst := by
  obtain ⟨h₁, p₁, node, idx, nodes₁, hfind, hafter, hone, hnode, hidx, -, hkeep⟩ := hok.findWritable c key
  have hself : Function.update impls c p₁ c = p₁ := Function.update_self _ _ _
  have hothers : ∀ d, d ≠ c → ∀ j, impls d = some j → p₁ ≠ some j := by
    rintro d hd j hj rfl
    refine ne_of_refs (hone j rfl) hself hd ?_
    rw [Function.update_of_ne hd]
    exact hj
  have hfilter := hafter.shown.filter fun e => e.1 ≠ key
  cases node with
  | some a =>
    obtain ⟨ha, hkey⟩ := (hnode a).mp rfl
    cases p₁ with
    | none => cases ha
    | some i =>
      obtain ⟨m, him⟩ := hafter.ok.live c i hself
      have ht := hafter.ok.tables i m him
      obtain ⟨n, hn⟩ := ht.exists_node ha
      obtain rfl : n.key = key := by simpa [entryOf, hn] using hkey
      have ha : a ∈ nodes₁ i := ha
      have hentryn : entryOf h₁ a = some (n.key, n.val) := by simp [entryOf, hn]
      obtain ⟨before, after, hsplit, hbefore, hafter', hfiltered⟩ := ht.filter_entries ha hentryn
      have hentry : ∀ b, b ≠ a → entryOf (h₁.setNode a { n with val := val }) b = entryOf h₁ b := fun b hb => by
        rw [entryOf_setNode, Function.update_of_ne hb]
      have hentrya : entryOf (h₁.setNode a { n with val := val }) a = some (n.key, val) := by
        rw [entryOf_setNode, Function.update_self]
      have hok' := hafter.ok.write him (ht.setVal hn val) rfl (fun _ _ => rfl)
        (fun b _ hb => Function.update_of_ne (fun he : b = a => hb (he ▸ ha)) _ _)
        (fun b hb => ⟨hafter.ok.nodes_lt i b hb, .inl hb⟩) le_rfl rfl
      rw [Function.update_eq_self] at hok'
      refine ⟨h₁.setNode a { n with val := val }, some i, nodes₁, ?_, ⟨hok', ?_, fun d hd j hj => ?_⟩, fun k mk hk => ?_⟩
      · simp [MojHashBase.put, hfind, hn]
      · have hentries : entries (h₁.setNode a { n with val := val }) (nodes₁ i) =
            entries h₁ before ++ (n.key, val) :: entries h₁ after := by
          rw [hsplit, entries_append, entries_cons hentrya,
            entries_congr fun b hb => hentry b fun he => hbefore (he ▸ hb),
            entries_congr fun b hb => hentry b fun he => hafter' (he ▸ hb)]
        have hperm : (entries (h₁.setNode a { n with val := val }) (nodes₁ i)).Perm
            ((n.key, val) :: (entries h₁ (nodes₁ i)).filter fun e => e.1 ≠ n.key) := by
          rw [hentries, hfiltered]
          exact List.perm_middle
        exact hperm.trans (hfilter.cons _)
      · obtain ⟨hnodesj, hsamej⟩ := hafter.others d hd j hj
        refine ⟨hnodesj, fun b hb => (Function.update_of_ne (fun he => ?_) _ _).trans (hsamej b hb)⟩
        subst he
        exact hothers d hd j hj (congrArg some (hafter.ok.apart i j b ha (hnodesj ▸ hb)))
      · obtain ⟨hnodesk, hsamek⟩ := hkeep k mk hk
        refine ⟨hnodesk ▸ List.suffix_refl _, fun b hb => ?_⟩
        have hb' : entryOf h₁ b = entryOf h b := congrArg (Option.map _) (hsamek b hb)
        rcases eq_or_ne b a with rfl | hba
        · rw [hentrya, ← hb', hkey, Option.map_some]
        · rw [hentry b hba, hb']
  | none =>
    have hkey : ∀ a ∈ nodesOf nodes₁ p₁, (entryOf h₁ a).map Prod.fst ≠ some key := fun a ha hkey =>
      absurd ((hnode a).mpr ⟨ha, hkey⟩) (by simp)
    obtain ⟨h', i, nodes', hput, hok', hnodesi, hnodesj, hnew, hold, hi⟩ :=
      hafter.ok.putNode hself val hkey hidx
    have hlt : ∀ b ∈ nodesOf nodes₁ p₁, b < h₁.newNode := by
      intro b hb
      cases p₁ with
      | none => cases hb
      | some j => exact hafter.ok.nodes_lt j b hb
    rw [Function.update_idem] at hok'
    refine ⟨h', some i, nodes', by simp [MojHashBase.put, hfind, hput], ⟨hok', ?_, fun d hd j hj => ?_⟩, fun k mk hk => ?_⟩
    · have hshown : entries h' (nodesOf nodes' (some i)) = (key, val) :: entries h₁ (nodesOf nodes₁ p₁) := by
        rw [nodesOf, hnodesi, entries_cons hnew, entries_congr fun b hb => (hold b (hlt b hb)).1]
      rw [List.filter_eq_self.mpr ?_] at hfilter
      · rw [hshown]
        exact hfilter.cons _
      · intro e he
        obtain ⟨b, hb, hbe⟩ := mem_entries.mp he
        refine decide_eq_true fun hekey => hkey b hb ?_
        rw [hbe, Option.map_some, hekey]
    · obtain ⟨hnodes₁, hsame₁⟩ := hafter.others d hd j hj
      have hj₁ : Function.update impls c p₁ d = some j := by rwa [Function.update_of_ne hd]
      have hji : j ≠ i := by
        rintro rfl
        rcases hi with hi | ⟨-, hi⟩
        · exact hothers d hd j hj hi
        · obtain ⟨mj, hmj⟩ := hafter.ok.live d j hj₁
          rw [hi] at hmj
          cases hmj
      refine ⟨(hnodesj j hji).trans hnodes₁, fun b hb => ?_⟩
      have hb₁ : b ∈ nodes₁ j := hnodes₁ ▸ hb
      refine ((hold b (hafter.ok.nodes_lt j b hb₁)).2 fun hmem => ?_).trans (hsame₁ b hb)
      cases p₁ with
      | none => cases hmem
      | some i' => exact hothers d hd j hj (congrArg some (hafter.ok.apart i' j b hmem hb₁))
    · obtain ⟨hnodesk, hsamek⟩ := hkeep k mk hk
      refine ⟨?_, fun b hb => ?_⟩
      · rcases eq_or_ne k i with rfl | hki
        · rw [hnodesi, ← hnodesk]
          rcases hi with rfl | ⟨-, hi⟩
          · exact List.suffix_cons _ _
          · rw [hafter.ok.nodes_nil k hi]
            exact List.nil_suffix
        · rw [hnodesj k hki, hnodesk]
      · have hb₁ : b ∈ nodes₁ k := hnodesk ▸ hb
        rw [(hold b (hafter.ok.nodes_lt k b hb₁)).1]
        exact congrArg (Option.map Prod.fst) (congrArg (Option.map _) (hsamek b hb))

theorem Ok.del (hok : Ok hash h impls nodes none) (c : ι) (key : κ) :
    ∃ h' p' nodes' found, MojHashBase.del hash h (impls c) key = some (h', p', found) ∧
      After hash h impls nodes c h' p' nodes' ((entries h (nodesOf nodes (impls c))).filter fun e => e.1 ≠ key) ∧
      (found = true ↔ ∃ val, (key, val) ∈ entries h (nodesOf nodes (impls c))) ∧
      numBuckets h' p' = numBuckets h (impls c) := by
  obtain ⟨h₁, p₁, node, idx, nodes₁, hfind, hafter, hone, hnode, hidx, hnum, -⟩ := hok.findWritable c key
  have hself : Function.update impls c p₁ c = p₁ := Function.update_self _ _ _
  have hfilter := hafter.shown.filter fun e => e.1 ≠ key
  have hfound : (∃ a, node = some a) ↔ ∃ val, (key, val) ∈ entries h (nodesOf nodes (impls c)) := by
    simp only [← hafter.shown.mem_iff, mem_entries, hnode]
    constructor
    · rintro ⟨a, ha, hkey⟩
      obtain ⟨⟨k, val⟩, he, rfl⟩ := Option.map_eq_some_iff.mp hkey
      exact ⟨val, a, ha, he⟩
    · rintro ⟨val, a, ha, he⟩
      exact ⟨a, ha, by rw [he, Option.map_some]⟩
  cases node with
  | none =>
    refine ⟨h₁, p₁, nodes₁, false, by simp [MojHashBase.del, hfind], ⟨hafter.ok, ?_, hafter.others⟩, ?_, hnum⟩
    · refine hafter.shown.trans (List.Perm.of_eq (List.filter_eq_self.mpr fun e he => ?_).symm)
      refine decide_eq_true fun hekey => ?_
      obtain ⟨a, ha⟩ := hfound.mpr ⟨e.2, hekey ▸ he⟩
      cases ha
    · exact ⟨nofun, fun hex => nomatch hfound.mpr hex⟩
  | some a =>
    obtain ⟨ha, hkey⟩ := (hnode a).mp rfl
    cases p₁ with
    | none => cases ha
    | some i =>
      obtain ⟨m, him⟩ := hafter.ok.live c i hself
      have ht := hafter.ok.tables i m him
      obtain ⟨n, hn⟩ := ht.exists_node ha
      obtain rfl : n.key = key := by simpa [entryOf, hn] using hkey
      have ha : a ∈ nodes₁ i := ha
      obtain rfl := hidx i m rfl him (List.ne_nil_of_mem ha)
      obtain ⟨h', m', hdel, ht', href', hnum', hframe', hentry'⟩ := ht.delNode ha hn (hafter.ok.length_le him)
      have hentryn : entryOf h₁ a = some (n.key, n.val) := by simp [entryOf, hn]
      obtain ⟨before, after, hsplit, hbefore, -, hfiltered⟩ := ht.filter_entries ha hentryn
      have herase : (nodes₁ i).erase a = before ++ after := by
        rw [hsplit, List.erase_append_right _ hbefore, List.erase_cons_head]
      have hok' := hafter.ok.write him ht' href' hframe'.impls (fun b _ hb => hframe'.nodes b hb)
        (fun b hb => ⟨hframe'.newNode ▸ hafter.ok.nodes_lt i b (List.mem_of_mem_erase hb), .inl (List.mem_of_mem_erase hb)⟩)
        hframe'.newNode.ge hframe'.newImpl
      refine ⟨h', some i, Function.update nodes₁ i ((nodes₁ i).erase a), true, ?_, ⟨hok', ?_, fun d hd j hj => ?_⟩, ?_, ?_⟩
      · simp [MojHashBase.del, hfind, hdel]
      · have hne : ∀ b ∈ (nodes₁ i).erase a, b ≠ a := fun b hb => (ht.nodup.mem_erase_iff.mp hb).1
        rw [nodesOf, Function.update_self, entries_congr fun b hb => hentry' b (hne b hb), herase, entries_append, ← hfiltered]
        exact hfilter
      · obtain ⟨hnodesj, hsamej⟩ := hafter.others d hd j hj
        have hji : j ≠ i := by
          rintro rfl
          refine ne_of_refs (hone j rfl) hself hd ?_
          rwa [Function.update_of_ne hd]
        refine ⟨(Function.update_of_ne hji _ _).trans hnodesj, fun b hb => ?_⟩
        refine (hframe'.nodes b fun hbi => hji ?_).trans (hsamej b hb)
        exact hafter.ok.apart j i b (hnodesj ▸ hb) hbi
      · exact ⟨fun _ => hfound.mp ⟨a, rfl⟩, fun _ => rfl⟩
      · rw [← hnum]
        simp [numBuckets, ht'.impl_eq, him, hnum']

end Containers

end MojHashBase

end Db8
