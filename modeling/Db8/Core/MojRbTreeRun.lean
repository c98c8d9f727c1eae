import Db8.Core.MojRbTreePut
import Db8.Core.MojRbTreeUnlink

/-!
# Core.MojRbTreeRun

Trees that are put to and deleted from, in any order.

* `Valid`                — the pointers make up a red-black tree, ordered by the keys.
* `put_spec`, `del_spec` — both keep it, and insert into the elements or remove from them.
* `content`              — the finite map of the elements.
* `Valid.validate`       — the assertions of the source hold.
* `tree_of_run`          — every run from the empty tree.
-/

namespace Db8

open Lib Lib.BinTree

namespace MojRbTree

variable {κ ν : Type} [LinearOrder κ] {s : MojRbTree κ ν} {h : Heap κ ν} {nodes : Nodes} {t : Tree κ ν} {n r size a : Nat}

structure Valid (s : MojRbTree κ ν) (t : Tree κ ν) : Prop where
  impl : match s.impl with
    | none => t = nil
    | some m => root t = some m.root ∧ m.refcount = 1
  size : s.size = (elems t).length
  linked : Linked s.nodes none t
  nodup : (addrs t).Nodup
  next : head < s.next
  fresh : ∀ a ∈ addrs t, head < a ∧ a < s.next
  items : ∀ x ∈ elems t, s.items x.addr = some (x.key, x.val)
  ordered : (elems t).Pairwise fun x y => x.key < y.key
  black : red t = false
  balanced : ∃ n, Balanced t n

def start (κ ν : Type) : MojRbTree κ ν := ⟨⟨fun _ => none, fun _ => none, 1⟩, none⟩

theorem valid_start : Valid (start κ ν) nil :=
  ⟨rfl, rfl, trivial, .nil, Nat.one_pos, by simp, by simp, .nil, rfl, 0, .nil⟩

/-! ## The dummy root -/

omit [LinearOrder κ] in
theorem mount (ht : Loose nodes t) (hnodup : (addrs t).Nodup) (hhead : head ∉ addrs t) (hroot : root t = some r) :
    ∃ nodes', setChild (Function.update nodes head (some {})) head .right (some r) = some nodes' ∧ Stored nodes' [] t ∧
      ∀ b, b ≠ head → b ∉ addrs t → nodes' b = nodes b := by
  let nodes₁ : Nodes := Function.update nodes head (some {})
  have hsame₁ : ∀ b, b ≠ head → nodes₁ b = nodes b := fun b hb => Function.update_of_ne hb _ _
  obtain ⟨p, ht⟩ := ht
  have ht₁ : Linked nodes₁ p t := ht.congr fun b hb => hsame₁ b fun he => hhead (he ▸ hb)
  have hhead₁ : nodes₁ head = some {} := Function.update_self _ _ _
  obtain ⟨nodes', hset, hhead', ht', hsame'⟩ := setChild_loose hhead₁ hhead ⟨p, ht₁⟩ hnodup .right
  rw [hroot] at hset
  refine ⟨nodes', hset, ⟨?_, ht', List.nodup_cons.mpr ⟨hhead, hnodup⟩⟩, fun b hb hbt => ?_⟩
  · have hsides : Function.update (fun _ => none) .right (root t) = sides .right (root t) none := by
      rw [← update_sides .right none none]
      congr
      funext e
      cases e <;> rfl
    rw [LinkedPath, hhead', hsides]
  · rw [hsame' b hb hbt, hsame₁ b hb]

/-- The root has no parent and is black, and the dummy root is gone. -/
theorem valid_of_stored (hstored : Stored h.nodes [] t) (hbal : Balanced t n) (hroot : root t = some r)
    (hnext : head < h.next) (hfresh : ∀ a ∈ addrs t, a < h.next) (hitems : ∀ x ∈ elems t, h.items x.addr = some (x.key, x.val))
    (hordered : (elems t).Pairwise fun x y => x.key < y.key) (hsize : size = (elems t).length) :
    ∃ nodes₁ nodes₂, setParent h.nodes r none = some nodes₁ ∧ setColor nodes₁ r .black = some nodes₂ ∧
      ∃ t', elems t' = elems t ∧ Valid ⟨{ h with nodes := Function.update nodes₂ head none }, some ⟨r, size, 1⟩⟩ t' := by
  cases t with
  | nil => cases hroot
  | node l x u =>
    obtain ⟨hhead, hnodup⟩ := List.nodup_cons.mp hstored.nodup
    obtain ⟨hx, -⟩ := hstored.tree
    let nodes₁ := Function.update h.nodes x.item.addr (some ⟨x.color, none, sides .left (root l) (root u)⟩)
    obtain rfl := Option.some.inj hroot
    have hset₁ : setParent h.nodes x.item.addr none = some nodes₁ := by simp [setParent, hx, nodes₁]
    have ht₁ : Linked nodes₁ none (fork .left x.color x.item l u) := by
      refine hstored.tree.reparent hnodup (fun b k hb hk => ?_) fun b hb hne => Function.update_of_ne (fun he => hne ?_) _ _
      · obtain rfl := Option.some.inj hb
        obtain rfl := Option.some.inj (hx.symm.trans hk)
        exact Function.update_self _ _ _
      · rw [he]
        rfl
    obtain ⟨nodes₂, hset₂, ht₂, -⟩ := setColor_linked ht₁ hnodup .black
    have helems : elems (fork .left .black x.item l u) = elems (node l x u) := elems_fork_color ..
    have haddrs : addrs (fork .left .black x.item l u) = addrs (node l x u) := congrArg (List.map Elem.addr) helems
    refine ⟨nodes₁, nodes₂, hset₁, hset₂, fork .left .black x.item l u, helems, ⟨root_fork, rfl⟩, ?_, ?_, ?_, hnext, ?_, ?_, ?_, ?_, ?_⟩
    · rw [helems]
      exact hsize
    · refine ht₂.congr fun b hb => Function.update_of_ne (fun he => hhead ?_) _ _
      rw [← he, ← haddrs]
      exact hb
    · rw [haddrs]
      exact hnodup
    · rw [haddrs]
      intro a ha
      have hne : a ≠ head := fun he => hhead (he ▸ ha)
      exact ⟨Nat.pos_of_ne_zero hne, hfresh a ha⟩
    · rw [helems]
      exact hitems
    · rw [helems]
      exact hordered
    · exact red_fork ..
    · cases hbal with
      | red hl hr => exact ⟨_, .black hl hr⟩
      | black hl hr => exact ⟨_, .black hl hr⟩

theorem Valid.deleteNode (hv : Valid s t) (ha : a ∉ addrs t) : Valid { s with toHeap := s.deleteNode a } t := by
  have hne : ∀ b ∈ addrs t, b ≠ a := fun b hb he => ha (he ▸ hb)
  refine { hv with linked := hv.linked.congr fun b hb => Function.update_of_ne (hne b hb) _ _, items := fun x hx => ?_ }
  rw [← hv.items x hx]
  exact Function.update_of_ne (hne x.addr (List.mem_map_of_mem hx)) _ _

theorem Valid.head_not_mem (hv : Valid s t) : head ∉ addrs t := fun hmem => Nat.lt_irrefl _ (hv.fresh _ hmem).1

/-- A tree with nodes. -/
theorem Valid.exists_impl (hv : Valid s t) (ht : t ≠ nil) :
    ∃ r, s.impl = some ⟨r, (elems t).length, 1⟩ ∧ root t = some r := by
  have himpl := hv.impl
  have hsize := hv.size
  cases hs : s.impl with
  | none =>
    rw [hs] at himpl
    exact absurd himpl ht
  | some m =>
    obtain ⟨r, size, refcount⟩ := m
    rw [hs] at himpl
    obtain ⟨hroot, rfl⟩ := himpl
    rw [MojRbTree.size, hs] at hsize
    obtain rfl := hsize
    exact ⟨r, rfl, hroot⟩

omit [LinearOrder κ] in
theorem exists_root_of_mem {x : Elem κ ν} (hx : x ∈ elems t) : ∃ r, root t = some r := by
  cases t with
  | nil => exact absurd hx List.not_mem_nil
  | node l y u => exact ⟨_, rfl⟩

omit [LinearOrder κ] in
theorem elems_eq_nil : elems t = [] ↔ t = nil := by
  cases t <;> simp

/-! ## The operations -/

theorem Valid.impl_nil (hv : Valid s nil) : s.impl = none := by
  have himpl := hv.impl
  cases hs : s.impl with
  | none => rfl
  | some m =>
    rw [hs] at himpl
    cases himpl.1

theorem put_nil (hv : Valid s nil) (key : κ) (val : ν) :
    ∃ s', put s key val = some s' ∧ Valid s' (fork .left .black ⟨s.next, key, val⟩ nil nil) := by
  obtain ⟨⟨nodes, items, next⟩, impl⟩ := s
  obtain rfl : impl = none := hv.impl_nil
  refine ⟨⟨⟨Function.update nodes next (some { color := .black }), Function.update items next (some (key, val)), next + 1⟩,
    some ⟨next, 1, 1⟩⟩, ?_, ⟨⟨rfl, rfl⟩, rfl, linked_fork.mpr ⟨?_, trivial, trivial⟩, List.pairwise_singleton _ _, ?_, ?_, ?_,
    List.pairwise_singleton _ _, rfl, 1, .black .nil .nil⟩⟩
  · simp [put, putNode, ensureWritable, empty, size, Heap.alloc, setColor]
  · have hsides : sides .left none none = fun _ => none := funext fun e => ite_self none
    change _ = some (⟨_, _, sides .left none none⟩ : Node)
    rw [hsides]
    exact Function.update_self _ _ _
  · exact Nat.succ_pos _
  · exact fun a ha => List.mem_singleton.mp ha ▸ ⟨hv.next, Nat.lt_succ_self _⟩
  · exact fun x hx => List.mem_singleton.mp hx ▸ Function.update_self _ _ _

theorem put_node (hv : Valid s t) (ht : t ≠ nil) (key : κ) (val : ν) :
    ∃ s' t' replaced, put s key val = some s' ∧ Valid s' t' ∧ Inserted ⟨s.next, key, val⟩ (elems t) (elems t') replaced := by
  obtain ⟨r, himpl, hroot⟩ := hv.exists_impl ht
  have hnext : s.next ∉ addrs t := fun hmem => Nat.lt_irrefl _ (hv.fresh _ hmem).2
  have hne : s.next ≠ head := (Nat.ne_of_lt hv.next).symm
  have hlength : (elems t).length ≠ 0 := fun he => ht (elems_eq_nil.mp (List.length_eq_zero_iff.mp he))
  obtain ⟨⟨nodes, items, next⟩, impl⟩ := s
  change next ∉ addrs t at hnext
  obtain rfl : impl = some ⟨r, (elems t).length, 1⟩ := himpl
  let nodes₀ := Function.update nodes next (some {})
  let items₀ := Function.update items next (some (key, val))
  have hitems₀ : ∀ x ∈ elems t, items₀ x.addr = some (x.key, x.val) := by
    intro x hx
    have hxnext : x.addr ≠ next := fun he => hnext (he ▸ List.mem_map_of_mem hx)
    rw [← hv.items x hx]
    exact Function.update_of_ne hxnext _ _
  have hlinked₀ : Loose nodes₀ t :=
    ⟨_, hv.linked.congr fun b hb => Function.update_of_ne (ne_of_mem_of_not_mem hb hnext) _ _⟩
  obtain ⟨nodes₁, hset₁, hstored₁, hsame₁⟩ := mount hlinked₀ hv.nodup hv.head_not_mem hroot
  let new : Elem κ ν := ⟨next, key, val⟩
  have hnew : nodes₁ new.addr = some {} := (hsame₁ next hne hnext).trans (Function.update_self _ _ _)
  have hplaces : new.addr ∉ places (plug [] t) := by
    rw [places, List.mem_cons, not_or]
    exact ⟨hne, hnext⟩
  obtain ⟨n, hbal⟩ := hv.balanced
  have hsearch : Searching new.key (elems t) nodes₁ [] t := ⟨hstored₁, ⟨n, .nil, hbal⟩, by rintro ⟨⟩, by simp [Sought], rfl⟩
  have hmode : PutMode new.key (2 * (elems t).length + 2) head none .left [] t :=
    .ready (by omega) rfl rfl (fun he => absurd rfl he) (fun _ => hv.black) (fun _ => rfl) (by rintro ⟨⟩)
  have hdir : ([] : Path κ ν) ≠ [] → Dir.left = side ([] : Path κ ν) := fun he => absurd rfl he
  obtain ⟨nodes₂, replaced, t₂, m, hloop, hstored₂, hbal₂, hinserted⟩ :=
    putLoop_spec hsearch hmode hdir (fun _ => ht) hv.ordered hitems₀ hnew hplaces
  obtain ⟨r₂, hroot₂⟩ := exists_root_of_mem hinserted.new_mem
  have hchild := child_up hstored₂.chain
  rw [hroot₂] at hchild
  have hfresh₂ : ∀ a ∈ addrs t₂, a < next + 1 := by
    intro a ha
    obtain ⟨x, hx, rfl⟩ := List.mem_map.mp ha
    rcases hinserted.mem hx with rfl | hx
    · exact Nat.lt_succ_self _
    · exact Nat.lt_succ_of_lt (hv.fresh _ (List.mem_map_of_mem hx)).2
  have hitems₂ : ∀ x ∈ elems t₂, items₀ x.addr = some (x.key, x.val) := by
    intro x hx
    rcases hinserted.mem hx with rfl | hx
    · exact Function.update_self _ _ _
    · exact hitems₀ x hx
  obtain ⟨nodes₃, nodes₄, hset₃, hset₄, t', helems, hvalid⟩ := valid_of_stored (h := ⟨nodes₂, items₀, next + 1⟩) hstored₂ hbal₂ hroot₂
    (Nat.succ_pos _) hfresh₂ hitems₂ (hinserted.ordered hv.ordered) hinserted.length.symm
  rw [hroot] at hloop
  change putLoop items₀ next key _ nodes₁ head none none (some r) .left .left = _ at hloop
  simp only [up_nil, side] at hchild
  simp only [nodes₀, items₀] at hset₁ hloop
  cases replaced with
  | none =>
    refine ⟨⟨⟨Function.update nodes₄ head none, Function.update items next (some (key, val)), next + 1⟩,
      some ⟨r₂, (elems t).length + 1, 1⟩⟩, t', none, ?_, hvalid, helems ▸ hinserted⟩
    simp [put, putNode, ensureWritable, empty, size, hlength, Heap.alloc, hset₁, hloop, hchild, hset₃, hset₄]
  | some q =>
    have hq : q ∉ addrs t' := by
      rw [addrs, helems]
      exact hinserted.not_mem hv.nodup hnext
    refine ⟨⟨Heap.deleteNode ⟨Function.update nodes₄ head none, Function.update items next (some (key, val)), next + 1⟩ q,
      some ⟨r₂, (elems t).length, 1⟩⟩, t', some q, ?_, hvalid.deleteNode hq, helems ▸ hinserted⟩
    simp [put, putNode, ensureWritable, empty, size, hlength, Heap.alloc, hset₁, hloop, hchild, hset₃, hset₄]

/-- **`put` inserts into the elements.** -/
theorem put_spec (hv : Valid s t) (key : κ) (val : ν) :
    ∃ s' t' replaced, put s key val = some s' ∧ Valid s' t' ∧ Inserted ⟨s.next, key, val⟩ (elems t) (elems t') replaced := by
  by_cases ht : t = nil
  · subst ht
    obtain ⟨s', hput, hv'⟩ := put_nil hv key val
    exact ⟨s', _, none, hput, hv', .added (l := []) (r := []) (by simp) (by simp)⟩
  · exact put_node hv ht key val

theorem del_nil (hv : Valid s nil) (key : κ) : del s key = some (s, false) := by
  obtain ⟨h, impl⟩ := s
  obtain rfl : impl = none := hv.impl_nil
  simp [del, ensureWritable, empty, size]

theorem valid_nil (hnext : head < h.next) : Valid (⟨h, none⟩ : MojRbTree κ ν) nil :=
  ⟨rfl, rfl, trivial, .nil, hnext, by simp, by simp, .nil, rfl, 0, .nil⟩

theorem valid_freed {impl : Option Impl} {f : Option Nat} (hv : Valid ⟨h, impl⟩ t) (hf : ∀ a, f = some a → a ∉ addrs t) :
    Valid ⟨match f with | none => h | some f => h.deleteNode f, impl⟩ t := by
  cases f with
  | none => exact hv
  | some a => exact hv.deleteNode (hf a rfl)

theorem del_node (hv : Valid s t) (ht : t ≠ nil) (key : κ) :
    ∃ s' t' f, del s key = some (s', decide (f ≠ none)) ∧ Valid s' t' ∧ Removed key (elems t) (elems t') f := by
  obtain ⟨r, himpl, hroot⟩ := hv.exists_impl ht
  have hlength : (elems t).length ≠ 0 := fun he => ht (elems_eq_nil.mp (List.length_eq_zero_iff.mp he))
  obtain ⟨⟨nodes, items, next⟩, impl⟩ := s
  obtain rfl : impl = some ⟨r, (elems t).length, 1⟩ := himpl
  obtain ⟨nodes₁, hset₁, hstored₁, -⟩ := mount ⟨_, hv.linked⟩ hv.nodup hv.head_not_mem hroot
  obtain ⟨n, hbal⟩ := hv.balanced
  have hstart : Sinking key (elems t) nodes₁ [] t := ⟨hstored₁, ⟨n, .nil, hbal⟩, by rintro ⟨⟩, by simp [Toward], rfl⟩
  have hfuel : (elems t).length < 2 * (elems t).length + 2 := by omega
  obtain ⟨nodes₂, path, hloop, hsink, hpushed⟩ := delLoop_spec hstart (.inl rfl) hv.ordered hv.items hfuel
  obtain ⟨nodes₃, t₃, m, hstored₃, hbal₃, hremoved, hunlink⟩ := exists_unlinked hsink hpushed hv.ordered
  change delLoop items key _ nodes₁ head none none .right = _ at hloop
  change Removed key (elems t) _ _ at hremoved
  have hchild := child_up hstored₃.chain
  simp only [up_nil, side] at hchild
  have hsub := hremoved.sublist
  have hfreed : ∀ t' : Tree κ ν, elems t' = elems t₃ → ∀ a, found key path = some a → a ∉ addrs t' := by
    intro t' helems a ha
    rw [ha] at hremoved
    rw [addrs, helems]
    exact hremoved.not_mem hv.nodup
  cases hroot₃ : root t₃ with
  | none =>
    have ht₃ : t₃ = nil := by
      cases t₃ with
      | nil => rfl
      | node => cases hroot₃
    rw [ht₃] at hremoved hfreed
    have hvalid := valid_freed (valid_nil (h := ⟨Function.update nodes₃ head none, items, next⟩) hv.next) (hfreed nil rfl)
    refine ⟨_, nil, found key path, ?_, hvalid, hremoved⟩
    rw [hroot₃] at hchild
    obtain ⟨hfound, rfl⟩ | ⟨f, par, hfound, hparent, hunlink⟩ := hunlink
    · simp [del, ensureWritable, empty, size, hlength, hset₁, hloop, hchild, hfound]
    · simp [del, ensureWritable, empty, size, hlength, hset₁, hloop, hparent, hunlink, hchild, hfound]
  | some r₃ =>
    obtain ⟨nodes₄, nodes₅, hset₄, hset₅, t', helems, hvalid⟩ := valid_of_stored (h := ⟨nodes₃, items, next⟩) hstored₃ hbal₃ hroot₃
      hv.next (fun a ha => (hv.fresh a ((hsub.map _).subset ha)).2) (fun x hx => hv.items x (hsub.subset hx))
      (hv.ordered.sublist hsub) hremoved.length.symm
    refine ⟨_, t', found key path, ?_, valid_freed hvalid (hfreed t' helems), helems ▸ hremoved⟩
    rw [hroot₃] at hchild
    obtain ⟨hfound, rfl⟩ | ⟨f, par, hfound, hparent, hunlink⟩ := hunlink
    · simp [del, ensureWritable, empty, size, hlength, hset₁, hloop, hchild, hfound, hset₄, hset₅]
    · simp [del, ensureWritable, empty, size, hlength, hset₁, hloop, hparent, hunlink, hchild, hfound, hset₄, hset₅]

/-- **`del` removes from the elements.** -/
theorem del_spec (hv : Valid s t) (key : κ) :
    ∃ s' t' f, del s key = some (s', decide (f ≠ none)) ∧ Valid s' t' ∧ Removed key (elems t) (elems t') f := by
  by_cases ht : t = nil
  · subst ht
    exact ⟨s, nil, none, del_nil hv key, hv, .absent (by simp)⟩
  · exact del_node hv ht key

/-! ## The finite map -/

/-- The value that the elements have for a key. -/
def lookup (es : List (Elem κ ν)) (key : κ) : Option ν := (es.find? fun x => x.key = key).map Elem.val

def content (t : Tree κ ν) : κ → Option ν := lookup (elems t)

theorem lookup_append (l r : List (Elem κ ν)) (key : κ) : lookup (l ++ r) key = (lookup l key).or (lookup r key) := by
  simp [lookup, List.find?_append, Option.map_or]

theorem lookup_cons (x : Elem κ ν) (r : List (Elem κ ν)) (key : κ) :
    lookup (x :: r) key = if x.key = key then some x.val else lookup r key := by
  by_cases hx : x.key = key <;> simp [lookup, hx]

theorem lookup_eq_none {es : List (Elem κ ν)} {key : κ} : lookup es key = none ↔ ∀ x ∈ es, x.key ≠ key := by
  simp [lookup]

theorem Inserted.lookup {new : Elem κ ν} {es es' : List (Elem κ ν)} {replaced : Option Nat} (hi : Inserted new es es' replaced)
    (hordered : es.Pairwise fun x y => x.key < y.key) :
    MojRbTree.lookup es' = Function.update (MojRbTree.lookup es) new.key (some new.val) := by
  funext key
  cases hi with
  | added hl hr =>
    rw [lookup_append, lookup_cons]
    by_cases hkey : new.key = key
    · subst hkey
      rw [if_pos rfl, Function.update_self, lookup_eq_none.mpr fun x hx => (hl x hx).ne, Option.none_or]
    · rw [if_neg hkey, Function.update_of_ne (Ne.symm hkey), lookup_append]
  | replaced hx =>
    rw [lookup_append, lookup_cons]
    by_cases hkey : new.key = key
    · subst hkey
      have hl := (List.pairwise_append.mp hordered).2.2
      rw [if_pos rfl, Function.update_self, lookup_eq_none.mpr fun y hy => hx ▸ (hl y hy _ List.mem_cons_self).ne, Option.none_or]
    · rw [if_neg hkey, Function.update_of_ne (Ne.symm hkey), lookup_append, lookup_cons, if_neg (hx ▸ hkey)]

theorem Removed.lookup {key : κ} {es es' : List (Elem κ ν)} {f : Option Nat} (hr : Removed key es es' f)
    (hordered : es.Pairwise fun x y => x.key < y.key) :
    MojRbTree.lookup es' = Function.update (MojRbTree.lookup es) key none ∧
      decide (f ≠ none) = (MojRbTree.lookup es key).isSome := by
  cases hr with
  | absent h =>
    have hnone := lookup_eq_none.mpr h
    refine ⟨?_, by simp [hnone]⟩
    rw [← hnone, Function.update_eq_self]
  | removed hx =>
    obtain ⟨-, hr, hl⟩ := List.pairwise_append.mp hordered
    have hnonel := lookup_eq_none.mpr fun y hy => hx ▸ (hl y hy _ List.mem_cons_self).ne
    have hnoner := lookup_eq_none.mpr fun y hy => hx ▸ ((List.pairwise_cons.mp hr).1 y hy).ne'
    refine ⟨funext fun key' => ?_, ?_⟩
    · rw [lookup_append]
      by_cases hkey : key = key'
      · subst hkey
        rw [Function.update_self, hnonel, hnoner, Option.none_or]
      · rw [Function.update_of_ne (Ne.symm hkey), lookup_append, lookup_cons, if_neg (hx ▸ hkey)]
    · rw [lookup_append, lookup_cons, if_pos hx, hnonel]
      rfl

/-! ## Validating -/

/-- A child is on its side of the node. -/
theorem compareKey_root {items : Nat → Option (κ × ν)} {key : κ} {o : Ordering} (hitems : ∀ x ∈ elems t, items x.addr = some (x.key, x.val))
    (ho : ∀ x ∈ elems t, cmp x.key key = o) (ha : root t = some a) : compareKey items a key = some o := by
  cases t with
  | nil => cases ha
  | node l x u =>
    obtain rfl := Option.some.inj ha
    have hx : x.item ∈ elems (node l x u) := by simp
    rw [compareKey, hitems _ hx, Option.map_some, ho _ hx]

theorem validateNode_spec {items : Nat → Option (κ × ν)} {p : Option Nat} {fuel : Nat} (hlinked : Linked nodes p t)
    (hbal : Balanced t n) (hnodup : (addrs t).Nodup) (hitems : ∀ x ∈ elems t, items x.addr = some (x.key, x.val))
    (hordered : (elems t).Pairwise fun x y => x.key < y.key) (hfuel : (elems t).length ≤ fuel) :
    validateNode nodes items fuel (root t) = some (n + 1, (elems t).length) := by
  induction t generalizing p n fuel with
  | nil =>
    cases hbal
    rw [root, validateNode]
    rfl
  | node l x r ihl ihr =>
    obtain ⟨hxl, hxr, hnl, hnr, hlr⟩ := (nodup_addrs_fork (d := .left) (c := x.color) (x := x.item)).mp hnodup
    obtain ⟨hx, hl, hr⟩ := hlinked
    rw [elems_node] at hitems hordered hfuel
    obtain ⟨hol, hor, hlx⟩ := List.pairwise_append.mp hordered
    obtain ⟨hrx, hor⟩ := List.pairwise_cons.mp hor
    have hitemsl : ∀ y ∈ elems l, items y.addr = some (y.key, y.val) := fun y hy => hitems y (by simp [hy])
    have hitemsr : ∀ y ∈ elems r, items y.addr = some (y.key, y.val) := fun y hy => hitems y (by simp [hy])
    have hitem := hitems x.item (by simp)
    obtain ⟨m, hbl, hbr, hreds, hn⟩ := hbal.children
    obtain _ | fuel := fuel
    · simp at hfuel
    rw [List.length_append, List.length_cons] at hfuel
    have hfuell : (elems l).length ≤ fuel := by omega
    have hfuelr : (elems r).length ≤ fuel := by omega
    have hvl := ihl hl hbl hnl hitemsl hol hfuell
    have hvr := ihr hr hbr hnr hitemsr hor hfuelr
    -- the assertions, in their order
    have hself : root l ≠ some x.item.addr ∧ root r ≠ some x.item.addr :=
      ⟨fun he => hxl (mem_addrs_of_root he), fun he => hxr (mem_addrs_of_root he)⟩
    have hdistinct : root l = none ∨ root l ≠ root r := by
      cases hb : root l with
      | none => exact .inl rfl
      | some b => exact .inr fun he => hlr b (mem_addrs_of_root hb) (mem_addrs_of_root he.symm)
    have hlt : ∀ b ∈ root l, compareKey items b x.item.key = some .lt := fun b hb =>
      compareKey_root hitemsl (fun y hy => (cmp_eq_lt_iff _ _).mpr (hlx y hy _ List.mem_cons_self)) hb
    have hgt : ∀ b ∈ root r, compareKey items b x.item.key = some .gt := fun b hb =>
      compareKey_root hitemsr (fun y hy => (cmp_eq_gt_iff _ _).mpr (hrx y hy)) hb
    have hcolors : x.color = .red → isRed nodes (root l) = some false ∧ isRed nodes (root r) = some false := by
      intro hc
      rw [isRed_root hl, isRed_root hr, (hreds hc).1, (hreds hc).2]
      exact ⟨rfl, rfl⟩
    have hparentl : ∀ b ∈ root l, (nodes b).map Node.parent = some (some x.item.addr) := fun b hb => hl.parent_root hb
    have hparentr : ∀ b ∈ root r, (nodes b).map Node.parent = some (some x.item.addr) := fun b hb => hr.parent_root hb
    have hguard : ∀ {P : Prop} [Decidable P], P → (guard P : Option Unit) = some () := fun hP => if_pos hP
    rw [root, validateNode]
    simp only [hx, hitem, sides_self, show sides .left (root l) (root r) .right = root r from rfl, hvl, hvr, Option.bind_eq_bind,
      Option.bind_some, hguard hself, hguard hdistinct, hguard hlt, hguard hgt, hguard hcolors, hguard hparentl, hguard hparentr,
      Nat.succ_pos, and_self, hguard True.intro]
    rw [elems_node, List.length_append, List.length_cons, hn]
    simp
    omega

/-- The assertions hold. -/
theorem Valid.validate (hv : Valid s t) : MojRbTree.validate s = some () := by
  by_cases ht : t = nil
  · subst ht
    rw [MojRbTree.validate, hv.impl_nil]
  · obtain ⟨r, himpl, hroot⟩ := hv.exists_impl ht
    obtain ⟨n, hbal⟩ := hv.balanced
    have hnode := validateNode_spec hv.linked hbal hv.nodup hv.items hv.ordered (Nat.le_refl _)
    rw [hroot] at hnode
    obtain ⟨m, hm, hparent⟩ := Option.map_eq_some_iff.mp (hv.linked.parent_root hroot)
    simp [MojRbTree.validate, himpl, hnode, hm, hparent, guard]

/-! ## Runs -/

inductive Op (κ ν : Type) where
  | put (key : κ) (val : ν)
  | putTree (entries : List (κ × ν))
  | del (key : κ)
  | delTree (keys : List κ)

/-- What an operation does, and what it reports in `foundOut`. -/
def step (s : MojRbTree κ ν) : Op κ ν → Option (MojRbTree κ ν × List Bool)
  | .put key val => (put s key val).map fun s => (s, [])
  | .putTree entries => (putTree s entries).map fun s => (s, [])
  | .del key => (del s key).map fun r => (r.1, [r.2])
  | .delTree keys => (delTree s keys).map fun s => (s, [])

def run : MojRbTree κ ν → List (Op κ ν) → Option (MojRbTree κ ν × List Bool)
  | s, [] => some (s, [])
  | s, op :: ops => do
    let (s, found) ← step s op
    let (s, rest) ← run s ops
    return (s, found ++ rest)

def insertAll (f : κ → Option ν) (entries : List (κ × ν)) : κ → Option ν :=
  entries.foldl (fun f entry => Function.update f entry.1 (some entry.2)) f

def removeAll (f : κ → Option ν) (keys : List κ) : κ → Option ν :=
  keys.foldl (fun f key => Function.update f key none) f

/-- An operation of a finite map. -/
def specStep (f : κ → Option ν) : Op κ ν → (κ → Option ν) × List Bool
  | .put key val => (Function.update f key (some val), [])
  | .putTree entries => (insertAll f entries, [])
  | .del key => (Function.update f key none, [(f key).isSome])
  | .delTree keys => (removeAll f keys, [])

def specRun : (κ → Option ν) → List (Op κ ν) → (κ → Option ν) × List Bool
  | f, [] => (f, [])
  | f, op :: ops =>
    let rest := specRun (specStep f op).1 ops
    (rest.1, (specStep f op).2 ++ rest.2)

theorem put_content (hv : Valid s t) (key : κ) (val : ν) :
    ∃ s' t', put s key val = some s' ∧ Valid s' t' ∧ content t' = Function.update (content t) key (some val) := by
  obtain ⟨s', t', replaced, hput, hv', hinserted⟩ := put_spec hv key val
  exact ⟨s', t', hput, hv', hinserted.lookup hv.ordered⟩

theorem del_content (hv : Valid s t) (key : κ) :
    ∃ s' t', del s key = some (s', (content t key).isSome) ∧ Valid s' t' ∧ content t' = Function.update (content t) key none := by
  obtain ⟨s', t', f, hdel, hv', hremoved⟩ := del_spec hv key
  obtain ⟨hlookup, hfound⟩ := hremoved.lookup hv.ordered
  exact ⟨s', t', hdel.trans (by rw [hfound, content]), hv', hlookup⟩

theorem putTree_content (hv : Valid s t) (entries : List (κ × ν)) :
    ∃ s' t', putTree s entries = some s' ∧ Valid s' t' ∧ content t' = insertAll (content t) entries := by
  induction entries generalizing s t with
  | nil => exact ⟨s, t, rfl, hv, rfl⟩
  | cons entry entries ih =>
    obtain ⟨s₁, t₁, hput, hv₁, hcontent₁⟩ := put_content hv entry.1 entry.2
    obtain ⟨s', t', hrest, hv', hcontent⟩ := ih hv₁
    rw [hcontent₁] at hcontent
    exact ⟨s', t', by simp [putTree, hput, hrest], hv', hcontent⟩

theorem delTree_content (hv : Valid s t) (keys : List κ) :
    ∃ s' t', delTree s keys = some s' ∧ Valid s' t' ∧ content t' = removeAll (content t) keys := by
  induction keys generalizing s t with
  | nil => exact ⟨s, t, rfl, hv, rfl⟩
  | cons key keys ih =>
    obtain ⟨s₁, t₁, hdel, hv₁, hcontent₁⟩ := del_content hv key
    obtain ⟨s', t', hrest, hv', hcontent⟩ := ih hv₁
    rw [hcontent₁] at hcontent
    exact ⟨s', t', by simp [delTree, hdel, hrest], hv', hcontent⟩

theorem step_spec (hv : Valid s t) (op : Op κ ν) :
    ∃ s' t', step s op = some (s', (specStep (content t) op).2) ∧ Valid s' t' ∧ content t' = (specStep (content t) op).1 := by
  cases op with
  | put key val =>
    obtain ⟨s', t', hput, hrest⟩ := put_content hv key val
    exact ⟨s', t', by simp [step, hput, specStep], hrest⟩
  | putTree entries =>
    obtain ⟨s', t', hput, hrest⟩ := putTree_content hv entries
    exact ⟨s', t', by simp [step, hput, specStep], hrest⟩
  | del key =>
    obtain ⟨s', t', hdel, hrest⟩ := del_content hv key
    exact ⟨s', t', by simp [step, hdel, specStep], hrest⟩
  | delTree keys =>
    obtain ⟨s', t', hdel, hrest⟩ := delTree_content hv keys
    exact ⟨s', t', by simp [step, hdel, specStep], hrest⟩

theorem run_spec (hv : Valid s t) (ops : List (Op κ ν)) :
    ∃ s' t', run s ops = some (s', (specRun (content t) ops).2) ∧ Valid s' t' ∧ content t' = (specRun (content t) ops).1 := by
  induction ops generalizing s t with
  | nil => exact ⟨s, t, rfl, hv, rfl⟩
  | cons op ops ih =>
    obtain ⟨s₁, t₁, hstep, hv₁, hcontent₁⟩ := step_spec hv op
    obtain ⟨s', t', hrun, hv', hcontent⟩ := ih hv₁
    rw [hcontent₁] at hrun hcontent
    refine ⟨s', t', ?_, hv', hcontent⟩
    simp [run, hstep, hrun, specRun]

/-- **Every run from the empty tree.** -/
theorem tree_of_run (ops : List (Op κ ν)) :
    ∃ s t, run (start κ ν) ops = some (s, (specRun (fun _ => none) ops).2) ∧ Valid s t ∧
      content t = (specRun (fun _ => none) ops).1 ∧ validate s = some () := by
  obtain ⟨s, t, hrun, hv, hcontent⟩ := run_spec valid_start ops
  exact ⟨s, t, hrun, hv, hcontent, hv.validate⟩

end MojRbTree

end Db8
