import Db8.Core.MojRbTreeLinks

/-!
# Core.MojRbTreePut

Putting a node into a tree: two red children give their color to their parent on the way down, and a red
node with a red parent is rotated away at once.

* `PutMode`      — what the pointers to the ancestors are good for: a rotation leaves `t`, and a double one
                   also `g`, behind, and makes sure that they are not used before they are right again.
* `putStep`      — one round.
* `putLoop_spec` — the whole search, from any node of a tree.
-/

namespace Db8

open Lib Lib.BinTree

namespace MojRbTree

variable {κ ν : Type} {nodes nodes' : Nodes} {path rest : Path κ ν} {t u s : Tree κ ν} {d e : Dir} {c : Color}
  {x y p g new : Elem κ ν}

/-! ## The parts of a round -/

theorem insertOrFlip_eq (h : Stored nodes path (fork d c x t s)) (node : Nat) (p : Option Nat) (dir : Dir) :
    insertOrFlip nodes node p (some x.addr) dir =
      if red t && red s then do
        let nodes ← setColor nodes x.addr .red
        let nodes ← blackenChildren nodes x.addr
        return (nodes, x.addr, false)
      else some (nodes, x.addr, false) := by
  obtain ⟨ht, hs⟩ := h.child_eq
  obtain ⟨hredt, hreds⟩ := h.isRed_children
  cases d with
  | left =>
    simp only [Dir.opposite] at hs
    simp only [insertOrFlip, ht, hs, hredt, hreds, Option.bind_eq_bind, Option.bind_some]
    rfl
  | right =>
    simp only [Dir.opposite] at hs
    simp only [insertOrFlip, ht, hs, hredt, hreds, Option.bind_eq_bind, Option.bind_some, Bool.and_comm (red s)]
    rfl

theorem insertOrFlip_of_red (h : Stored nodes path (fork d c x t s)) (ht : red t = true) (hs : red s = true) (node : Nat)
    (p : Option Nat) (dir : Dir) :
    ∃ nodes', insertOrFlip nodes node p (some x.addr) dir = some (nodes', x.addr, false) ∧
      Stored nodes' path (fork d .red x (blacken t) (blacken s)) ∧
      Reshaped nodes (plug path (fork d c x t s)) nodes' (plug path (fork d .red x (blacken t) (blacken s))) := by
  have heq := insertOrFlip_eq h node p dir
  obtain ⟨nodes₁, hset₁, h₁, hshape₁⟩ := h.setColor .red
  obtain ⟨nodes₂, hset₂, h₂, hshape₂⟩ := h₁.blackenChildren (by rintro rfl; cases ht) (by rintro rfl; cases hs)
  refine ⟨nodes₂, ?_, h₂, hshape₁.trans hshape₂⟩
  rw [heq]
  simp [ht, hs, hset₁, hset₂]

theorem insertOrFlip_of_not (h : Stored nodes path (fork d c x t s)) (hnot : (red t && red s) = false) (node : Nat)
    (p : Option Nat) (dir : Dir) : insertOrFlip nodes node p (some x.addr) dir = some (nodes, x.addr, false) := by
  rw [insertOrFlip_eq h, hnot]
  rfl

/-- The new node at the bottom. -/
theorem insertOrFlip_nil (h : Stored nodes path nil) (hpath : path ≠ []) (hnew : nodes new.addr = some {})
    (hfresh : new.addr ∉ places (plug path nil)) :
    ∃ nodes', insertOrFlip nodes new.addr (above path) none (side path) = some (nodes', new.addr, true) ∧
      Stored nodes' path (fork .left .red new nil nil) := by
  have hnot : new.addr ∉ pathAddrs path := fun hmem => hfresh (Stored.mem_places.mpr (.inl hmem))
  obtain ⟨nodes', hset, hpath', hroot, -⟩ := h.chain.setHole (z := some new.addr) (by
    rintro _ ⟨⟩
    exact ⟨hnot, _, hnew⟩) h.nodup_path
  have habove : above path = some (up path) := by
    cases path with
    | nil => exact absurd rfl hpath
    | cons f path => rfl
  have hsides : (fun _ => none) = sides .left none none := by
    funext d
    cases d <;> rfl
  refine ⟨nodes', by simp [insertOrFlip, habove, hset], hpath', ?_, ?_⟩
  · rw [linked_fork, hroot _ _ rfl hnew, hsides]
    exact ⟨rfl, trivial, trivial⟩
  · have hnodup := h.nodup_path
    simp [List.nodup_append, addrs, elems_fork, hnodup]
    exact fun a ha he => hnot (he ▸ ha)

theorem fixRed_of_not (h : Stored nodes path t) {q : Nat} (hq : root t = some q) (hnot : (red t && redAbove path) = false)
    (a : Nat) (b : Option Nat) (last : Dir) : fixRed nodes a b (above path) q last = some nodes := by
  have hred := h.isRed_eq
  rw [hq] at hred
  simp only [fixRed, hred, isRed_above h.chain, Option.bind_eq_bind, Option.bind_some, hnot]
  rfl

/-- A red node on the outer side of its red parent. -/
theorem fixRed_single {q : Nat} (h : Stored nodes (⟨e, ⟨.red, p⟩, s⟩ :: ⟨e, ⟨c, g⟩, u⟩ :: rest) t)
    (hq : root t = some q) (ht : red t = true) :
    ∃ nodes', fixRed nodes (up rest) (some g.addr) (some p.addr) q e = some nodes' ∧
      Stored nodes' (⟨e, ⟨.black, p⟩, fork e.opposite .red g u s⟩ :: rest) t ∧
      Reshaped nodes (plug (⟨e, ⟨.red, p⟩, s⟩ :: ⟨e, ⟨c, g⟩, u⟩ :: rest) t) nodes'
        (plug (⟨e, ⟨.black, p⟩, fork e.opposite .red g u s⟩ :: rest) t) := by
  have hredt := h.isRed_eq
  have hredp := isRed_above h.chain
  have hp := stored_cons.mp h
  have hg := stored_cons.mp hp
  obtain ⟨hchild, -⟩ := hp.child_eq
  have hside : sideOf nodes (up rest) (some g.addr) = some (side rest) := by
    have hchain := hg.chain
    rw [root_fork] at hchain
    exact sideOf_up hchain (hg.apart (by simp))
  rw [← fork_turn, ← fork_turn e] at hg
  obtain ⟨nodes₁, nodes₂, hrotate, hset, h₂, hshape⟩ := hg.rotate
  rw [fork_turn] at h₂
  rw [fork_turn, fork_turn, fork_turn] at hshape
  refine ⟨nodes₂, ?_, stored_cons.mpr h₂, hshape⟩
  rw [hq] at hredt hchild
  simp only [above] at hredp
  simp [fixRed, hredt, hredp, ht, redAbove, hside, hchild, hrotate, hset]

/-- A red node on the inner side of its red parent. -/
theorem fixRed_double {v w : Tree κ ν}
    (h : Stored nodes (⟨e.opposite, ⟨.red, p⟩, s⟩ :: ⟨e, ⟨c, g⟩, u⟩ :: rest) (fork e .red x v w)) :
    ∃ nodes', fixRed nodes (up rest) (some g.addr) (some p.addr) x.addr e = some nodes' ∧
      Stored nodes' rest (fork e .black x (fork e .red p s v) (fork e.opposite .red g u w)) ∧
      Reshaped nodes (plug (⟨e.opposite, ⟨.red, p⟩, s⟩ :: ⟨e, ⟨c, g⟩, u⟩ :: rest) (fork e .red x v w)) nodes'
        (plug rest (fork e .black x (fork e .red p s v) (fork e.opposite .red g u w))) := by
  have hredx := h.isRed_eq
  have hredp := isRed_above h.chain
  have hp := stored_cons.mp h
  have hg := stored_cons.mp hp
  have hnodup := hp.nodup_tree
  obtain ⟨-, hchild⟩ := hp.child_eq
  have hside : sideOf nodes (up rest) (some g.addr) = some (side rest) := by
    have hchain := hg.chain
    rw [root_fork] at hchain
    exact sideOf_up hchain (hg.apart (by simp))
  -- the child of `p` on the outer side is another one
  have houter : root s ≠ some x.addr := fun hs =>
    (nodup_addrs_fork.mp hnodup).2.2.2.2 x.addr (by simp) (mem_addrs_of_root hs)
  have hturn : fork e c g (fork e.opposite .red p (fork e .red x v w) s) u =
      fork e.opposite c g u (fork e.opposite.opposite .red p s (fork e.opposite.opposite .red x v w)) := by
    rw [fork_turn e c, ← fork_turn e.opposite, Dir.opposite_opposite]
  rw [hturn] at hg
  obtain ⟨nodes₁, nodes₂, hrotate, hset, h₂, hshape⟩ := hg.rotateDouble
  rw [← hturn, Dir.opposite_opposite, fork_turn e .black] at hshape
  rw [Dir.opposite_opposite, fork_turn e .black] at h₂
  refine ⟨nodes₂, ?_, h₂, hshape⟩
  rw [root_fork] at hredx
  rw [Dir.opposite_opposite] at hchild
  simp only [above] at hredp
  simp [fixRed, hredx, hredp, redAbove, hside, hchild, houter, hrotate, hset]

/-! ## One round -/

theorem above_getD (path : Path κ ν) : (above path.tail).getD (up path.tail.tail) = up path.tail := by
  obtain _ | ⟨f, _ | ⟨f', path⟩⟩ := path <;> rfl

variable [LinearOrder κ] {key : κ} {es : List (Elem κ ν)} {n : Nat}

/-- The way a search goes. -/
def Sought (key : κ) (path : Path κ ν) : Prop :=
  ∀ f ∈ path, f.item.item.key ≠ key ∧ f.dir = dirOf (cmp f.item.item.key key)

/-- What is known of `t`, `g` and `last` at a subtree, and how many rounds are left at most. -/
inductive PutMode (key : κ) (fuel a : Nat) (g : Option Nat) (last : Dir) (path : Path κ ν) (t : Tree κ ν) : Prop
  /-- They are right, as they may be needed for a rotation. -/
  | ready (hfuel : 2 * (elems t).length < fuel) (ha : a = up (path.tail.tail)) (hg : g = above path.tail)
      (hlast : path.tail ≠ [] → last = side path.tail) (hroot : path = [] → red t = false)
      (hboth : red t = true → redBeside path = false)
      (habove : redAbove path = true → Quiet t ∨ path.tail ≠ [] ∧ redBeside path.tail = false)
  /-- After a rotation `t` is wrong. -/
  | rotated (hfuel : 2 * (elems t).length < fuel) (hg : g = above path.tail) (hpath : path.tail ≠ []) (hquiet : Quiet t)
  /-- After a double rotation the search goes down beside the node that has come up, and `g` is wrong, too. -/
  | twice {u v : Tree κ ν} {y : Elem κ ν} (ht : t = fork (dirOf (cmp y.key key)) .red y u v)
      (hfuel : 2 * (elems u).length + 1 < fuel) (hg : g ≠ none) (hpath : path ≠ []) (habove : redAbove path = false)
      (hquiet : Quiet u)

/-- A subtree of a balanced tree with the elements `es`, on the way to a key. -/
structure Searching (key : κ) (es : List (Elem κ ν)) (nodes : Nodes) (path : Path κ ν) (t : Tree κ ν) : Prop where
  stored : Stored nodes path t
  fits : ∃ n, Fits path n ∧ Balanced t n
  reds : redAbove path = true → red t = false
  sought : Sought key path
  elems_eq : elems (plug path t) = es

/-- A red node with a red parent whose sibling is black: both ways to rotate. -/
theorem exists_fixRed {last : Dir} (h : Stored nodes path (fork d .red x t s)) (hpath : Fits path n)
    (hbal : Balanced (fork d .red x t s) n) (habove : redAbove path = true) (htail : path.tail ≠ [])
    (hbeside : redBeside path.tail = false) (hlast : last = side path.tail) (hsought : Sought key path) :
    ∃ nodes₂ path₂ c₂ t₂ s₂, fixRed nodes (up path.tail.tail) (above path.tail) (above path) x.addr last = some nodes₂ ∧
      Searching key (elems (plug path (fork d .red x t s))) nodes₂ path₂ (fork d c₂ x t₂ s₂) ∧
      Reshaped nodes (plug path (fork d .red x t s)) nodes₂ (plug path₂ (fork d c₂ x t₂ s₂)) ∧
      (Quiet t → ∀ fuel a dir, 2 * (elems t).length + 1 < fuel →
        PutMode key fuel a (above path) dir (⟨d, ⟨c₂, x⟩, s₂⟩ :: path₂) t₂) := by
  obtain _ | ⟨fp, _ | ⟨⟨e, ⟨c, g⟩, u⟩, rest⟩⟩ := path
  · exact absurd rfl htail
  · exact absurd rfl htail
  change red u = false at hbeside
  change last = e at hlast
  subst hlast
  cases hpath with
  | black => cases habove
  | @red _ d' p s' _ hpath hredg hs' hreds' =>
    cases hpath with
    | red => cases hredg
    | black hpath hu =>
      obtain ⟨ht, hs, hredt, hreds⟩ := balanced_red.mp hbal
      obtain ⟨⟨hpkey, hpdir⟩, hgsought⟩ := List.forall_mem_cons.mp hsought
      obtain ⟨⟨hgkey, hgdir⟩, hrest⟩ := List.forall_mem_cons.mp hgsought
      by_cases hdir : d' = last
      · subst hdir
        obtain ⟨nodes₂, hfix, h₂, hshape⟩ := fixRed_single h root_fork (red_fork ..)
        refine ⟨nodes₂, ⟨d', ⟨.black, p⟩, fork d'.opposite .red g u s'⟩ :: rest, .red, t, s, hfix, ⟨h₂, ⟨n, ?_, hbal⟩, ?_, ?_, hshape.elems_eq⟩,
          hshape, fun hquiet fuel a dir hfuel => ?_⟩
        · exact .black hpath (balanced_red.mpr ⟨hu, hs', hbeside, hreds'⟩)
        · rintro ⟨⟩
        · exact List.forall_mem_cons.mpr ⟨⟨hpkey, hpdir⟩, hrest⟩
        · exact .rotated (by omega) rfl (List.cons_ne_nil _ _) hquiet
      · obtain rfl := Dir.eq_opposite_of_ne hdir
        -- the way of the search goes on below `p` or `g`, to the side from which `x` has come up
        by_cases hd : d = last
        · subst hd
          obtain ⟨nodes₂, hfix, h₂, hshape⟩ := fixRed_double h
          refine ⟨nodes₂, rest, .black, _, _, hfix, ⟨h₂, ⟨n + 1, hpath, ?_⟩, fun _ => red_fork .., hrest, hshape.elems_eq⟩, hshape,
            fun hquiet fuel a dir hfuel => ?_⟩
          · exact balanced_black.mpr ⟨n, rfl, balanced_red.mpr ⟨hs', ht, hreds', hredt⟩, balanced_red.mpr ⟨hu, hs, hbeside, hreds⟩⟩
          · exact .twice (by rw [← hpdir, fork_turn]) hfuel (Option.some_ne_none _) (List.cons_ne_nil _ _) rfl hquiet
        · obtain rfl := Dir.eq_opposite_of_ne hd
          rw [fork_turn] at h
          obtain ⟨nodes₂, hfix, h₂, hshape⟩ := fixRed_double h
          rw [← fork_turn last .black] at h₂ hshape
          rw [← fork_turn last .red x t s] at hshape
          refine ⟨nodes₂, rest, .black, _, _, hfix, ⟨h₂, ⟨n + 1, hpath, ?_⟩, fun _ => red_fork .., hrest, hshape.elems_eq⟩, hshape,
            fun hquiet fuel a dir hfuel => ?_⟩
          · exact balanced_black.mpr ⟨n, rfl, balanced_red.mpr ⟨hu, ht, hbeside, hredt⟩, balanced_red.mpr ⟨hs', hs, hreds', hreds⟩⟩
          · exact .twice (by rw [← hgdir, fork_turn]) hfuel (Option.some_ne_none _) (List.cons_ne_nil _ _) rfl hquiet

/-- **A round of the search.** -/
theorem putStep {a fuel : Nat} {g : Option Nat} {last dir : Dir} (hd : d = dirOf (cmp x.key key))
    (h : Searching key es nodes path (fork d c x t s)) (hmode : PutMode key (fuel + 1) a g last path (fork d c x t s))
    (hdir : path ≠ [] → dir = side path) (node : Nat) :
    ∃ nodes₁ nodes₂ path₂ c₂ t₂ s₂, insertOrFlip nodes node (above path) (some x.addr) dir = some (nodes₁, x.addr, false) ∧
      fixRed nodes₁ a g (above path) x.addr last = some nodes₂ ∧ Searching key es nodes₂ path₂ (fork d c₂ x t₂ s₂) ∧
      Reshaped nodes (plug path (fork d c x t s)) nodes₂ (plug path₂ (fork d c₂ x t₂ s₂)) ∧
      PutMode key fuel (g.getD a) (above path) dir (⟨d, ⟨c₂, x⟩, s₂⟩ :: path₂) t₂ := by
  obtain ⟨n, hfits, hbal⟩ := h.fits
  have hlength := length_elems_fork d c x t s
  have hreds := h.reds
  rw [red_fork] at hreds
  by_cases hflip : red t = true ∧ red s = true
  · obtain ⟨ht, hs⟩ := hflip
    obtain ⟨rfl, hbal'⟩ := balanced_flip hbal ht hs
    obtain ⟨m, rfl, hbt, -⟩ := balanced_black.mp hbal
    have hquiet : Quiet (blacken t) := hbt.quiet_blacken ht
    obtain ⟨nodes₁, hinsert, h₁, hshape₁⟩ := insertOrFlip_of_red h.stored ht hs node (above path) dir
    cases hmode with
    | rotated _ _ _ hq => exact absurd (quiet_fork.mp hq).2.1 (by simp [ht])
    | twice he => exact absurd (fork_inj he).1 (by decide)
    | ready hfuel ha hg hlast hroot hboth habove =>
      cases hredp : redAbove path with
      | false =>
        have hfix := fixRed_of_not h₁ root_fork (by simp [hredp]) a g last
        refine ⟨nodes₁, nodes₁, path, .red, _, _, hinsert, hfix, ⟨h₁, ⟨_, hfits, hbal'⟩, ?_, h.sought, ?_⟩, hshape₁, ?_⟩
        · simp [hredp]
        · exact hshape₁.elems_eq.trans h.elems_eq
        · refine .ready ?_ ?_ rfl hdir (fun he => absurd he (List.cons_ne_nil _ _)) ?_ fun _ => .inl hquiet
          · rw [elems_blacken]
            omega
          · rw [hg, ha, above_getD]
            rfl
          · simp
      | true =>
        obtain ⟨htail, hbeside⟩ := (habove hredp).resolve_left fun hq => by simpa [ht] using (quiet_fork.mp hq).2.1
        obtain ⟨nodes₂, path₂, c₂, t₂, s₂, hfix, h₂, hshape₂, hnext⟩ :=
          exists_fixRed h₁ hfits hbal' hredp htail hbeside (hlast htail) h.sought
        rw [hshape₁.elems_eq, h.elems_eq] at h₂
        subst ha hg
        refine ⟨nodes₁, nodes₂, path₂, c₂, t₂, s₂, hinsert, hfix, h₂, hshape₁.trans hshape₂, hnext hquiet _ _ _ ?_⟩
        rw [elems_blacken]
        omega
  · have hnot : (red t && red s) = false := by simpa using hflip
    have hinsert := insertOrFlip_of_not h.stored hnot node (above path) dir
    have hfix := fixRed_of_not h.stored root_fork (by
      rw [red_fork]
      cases hp : redAbove path with
      | false => simp
      | true => simp [hreds hp]) a g last
    refine ⟨nodes, nodes, path, c, t, s, hinsert, hfix, h, .refl _ _, ?_⟩
    cases hmode with
    | ready hfuel ha hg hlast hroot hboth habove =>
      refine .ready (by omega) ?_ rfl hdir (fun he => absurd he (List.cons_ne_nil _ _)) ?_ fun hred => .inr ?_
      · rw [hg, ha, above_getD]
        rfl
      · intro ht
        change red s = false
        simpa [ht] using hnot
      · rw [red_fork] at hroot hboth
        have hc : decide (c = .red) = true := hred
        exact ⟨fun hpath => by simp [hroot hpath] at hc, hboth hc⟩
    | rotated hfuel hg hpath hquiet =>
      obtain ⟨rfl, ht, hs⟩ := quiet_fork.mp hquiet
      refine .ready (by omega) ?_ rfl hdir (fun he => absurd he (List.cons_ne_nil _ _)) ?_ (by rintro ⟨⟩)
      · obtain _ | ⟨f, _ | ⟨f', path⟩⟩ := path
        · exact absurd rfl hpath
        · exact absurd rfl hpath
        · rw [hg]
          rfl
      · intro ht'
        rw [ht] at ht'
        cases ht'
    | twice he hfuel hg hpath habove hquiet =>
      obtain ⟨-, rfl, hchildren⟩ := fork_inj he
      obtain ⟨rfl, rfl⟩ := hchildren hd
      exact .rotated (by omega) rfl hpath hquiet

/-! ## The search -/

/-- What a new node does to the elements. -/
inductive Inserted (new : Elem κ ν) : List (Elem κ ν) → List (Elem κ ν) → Option Nat → Prop
  | added {l r : List (Elem κ ν)} (hl : ∀ x ∈ l, x.key < new.key) (hr : ∀ x ∈ r, new.key < x.key) :
      Inserted new (l ++ r) (l ++ new :: r) none
  | replaced {l r : List (Elem κ ν)} {x : Elem κ ν} (hx : x.key = new.key) :
      Inserted new (l ++ x :: r) (l ++ new :: r) (some x.addr)

/-- At the bottom the search has passed everything that is less on its left, and the rest on its right. -/
theorem Searching.inserted (h : Searching new.key es nodes path nil) (hsorted : es.Pairwise fun x y => x.key < y.key)
    (c : Color) : Inserted new es (elems (plug path (fork .left c new nil nil))) none := by
  have helems := h.elems_eq
  subst helems
  rw [elems, List.pairwise_map] at hsorted
  have hahead : ∀ x ∈ ahead path, x.item.key < new.key := by
    refine forall_ahead (hsorted.imp fun hxy hy => hxy.trans hy) fun f hf hd => ?_
    rw [← dirOf_cmp_right, ← (h.sought f hf).2, hd]
  have hbehind : ∀ x ∈ behind path, new.key < x.item.key := by
    refine forall_behind (hsorted.imp fun hxy hx => lt_trans hx hxy) fun f hf hd => ?_
    obtain ⟨hne, hdir⟩ := h.sought f hf
    refine lt_of_le_of_ne (not_lt.mp fun hlt => ?_) (Ne.symm hne)
    rw [← dirOf_cmp_right, ← hdir, hd] at hlt
    cases hlt
  rw [elems_plug, elems_plug, elems_fork]
  simp only [elems_nil, if_true, List.nil_append, List.append_nil, List.append_assoc, List.singleton_append]
  refine .added (fun x hx => ?_) fun x hx => ?_
  · obtain ⟨y, hy, rfl⟩ := List.mem_map.mp hx
    exact hahead y hy
  · obtain ⟨y, hy, rfl⟩ := List.mem_map.mp hx
    exact hbehind y hy

theorem inserted_replace (hx : x.key = new.key) (path : Path κ ν) (d : Dir) (c : Color) (t s : Tree κ ν) :
    Inserted new (elems (plug path (fork d c x t s))) (elems (plug path (fork d c new t s))) (some x.addr) := by
  rw [elems_plug, elems_plug, elems_fork, elems_fork]
  cases d with
  | left => simpa using Inserted.replaced (l := (ahead path).map Cell.item ++ elems t) hx
  | right => simpa using Inserted.replaced (l := (ahead path).map Cell.item ++ elems s) hx

theorem Inserted.new_mem {es' : List (Elem κ ν)} {replaced : Option Nat} (hi : Inserted new es es' replaced) :
    new ∈ es' := by
  cases hi with
  | added => simp
  | replaced => simp

theorem Inserted.mem {es' : List (Elem κ ν)} {replaced : Option Nat} (hi : Inserted new es es' replaced)
    {x : Elem κ ν} (hx : x ∈ es') : x = new ∨ x ∈ es := by
  cases hi with
  | added =>
    rcases List.mem_append.mp hx with hx | hx
    · exact .inr (List.mem_append_left _ hx)
    · rcases List.mem_cons.mp hx with hx | hx
      · exact .inl hx
      · exact .inr (List.mem_append_right _ hx)
  | replaced =>
    rcases List.mem_append.mp hx with hx | hx
    · exact .inr (List.mem_append_left _ hx)
    · rcases List.mem_cons.mp hx with hx | hx
      · exact .inl hx
      · exact .inr (List.mem_append_right _ (List.mem_cons_of_mem _ hx))

theorem Inserted.ordered {es' : List (Elem κ ν)} {replaced : Option Nat} (hi : Inserted new es es' replaced)
    (h : es.Pairwise fun x y => x.key < y.key) : es'.Pairwise fun x y => x.key < y.key := by
  cases hi with
  | added hl hr =>
    obtain ⟨hpl, hpr, hlr⟩ := List.pairwise_append.mp h
    refine List.pairwise_append.mpr ⟨hpl, List.pairwise_cons.mpr ⟨hr, hpr⟩, fun x hx => List.forall_mem_cons.mpr ⟨hl x hx, hlr x hx⟩⟩
  | replaced hx =>
    obtain ⟨hpl, hpr, hlr⟩ := List.pairwise_append.mp h
    obtain ⟨hxr, hpr⟩ := List.pairwise_cons.mp hpr
    rw [hx] at hxr
    refine List.pairwise_append.mpr ⟨hpl, List.pairwise_cons.mpr ⟨hxr, hpr⟩, fun y hy => ?_⟩
    obtain ⟨hyx, hyr⟩ := List.forall_mem_cons.mp (hlr y hy)
    exact List.forall_mem_cons.mpr ⟨hx ▸ hyx, hyr⟩

/-- The node that is replaced is not in the tree. -/
theorem Inserted.not_mem {es' : List (Elem κ ν)} {q : Nat} (hi : Inserted new es es' (some q))
    (hnodup : (es.map Elem.addr).Nodup) (hnew : new.addr ∉ es.map Elem.addr) : q ∉ es'.map Elem.addr := by
  cases hi with
  | replaced hx =>
    rw [List.map_append, List.map_cons] at hnodup hnew ⊢
    have hq := (List.nodup_cons.mp (List.perm_middle.nodup_iff.mp hnodup)).1
    have hne := List.ne_of_not_mem_cons (List.perm_middle.mem_iff.not.mp hnew)
    rw [List.perm_middle.mem_iff, List.mem_cons, not_or]
    exact ⟨Ne.symm hne, hq⟩

theorem Inserted.length {es' : List (Elem κ ν)} {replaced : Option Nat} (hi : Inserted new es es' replaced) :
    es'.length = if replaced = none then es.length + 1 else es.length := by
  cases hi with
  | added => simp [Nat.add_assoc]
  | replaced => simp

/-- **The search ends, with the new node in the tree.** -/
theorem putLoop_spec {items : Nat → Option (κ × ν)} {fuel a : Nat} {g : Option Nat} {last dir : Dir}
    (h : Searching new.key es nodes path t) (hmode : PutMode new.key fuel a g last path t)
    (hdir : path ≠ [] → dir = side path) (hroot : path = [] → t ≠ nil) (hsorted : es.Pairwise fun x y => x.key < y.key)
    (hitems : ∀ x ∈ es, items x.addr = some (x.key, x.val)) (hnew : nodes new.addr = some {})
    (hfresh : new.addr ∉ places (plug path t)) :
    ∃ nodes' replaced t' n, putLoop items new.addr new.key fuel nodes a g (above path) (root t) dir last =
        some (nodes', replaced) ∧
      Stored nodes' [] t' ∧ Balanced t' n ∧ Inserted new es (elems t') replaced := by
  induction fuel generalizing nodes path t a g last dir with
  | zero =>
    cases hmode with
    | ready hfuel => exact absurd hfuel (Nat.not_lt_zero _)
    | rotated hfuel => exact absurd hfuel (Nat.not_lt_zero _)
    | twice _ hfuel => exact absurd hfuel (Nat.not_lt_zero _)
  | succ fuel ih =>
    cases t with
    | nil =>
      cases hmode with
      | rotated _ _ _ hq => exact absurd hq not_quiet_nil
      | twice he => exact absurd he.symm fork_ne_nil
      | ready _ ha hg hlast _ _ habove =>
        have hpath : path ≠ [] := fun he => hroot he rfl
        obtain rfl := hdir hpath
        obtain ⟨n, hfits, hbal⟩ := h.fits
        cases hbal
        obtain ⟨nodes₁, hinsert, h₁⟩ := insertOrFlip_nil h.stored hpath hnew hfresh
        have hleaf : Balanced (fork .left .red new nil nil) 0 := balanced_red.mpr ⟨.nil, .nil, rfl, rfl⟩
        have hinserted := h.inserted hsorted .red
        cases hredp : redAbove path with
        | false =>
          have hfix := fixRed_of_not h₁ root_fork (by simp [hredp]) a g last
          obtain ⟨n, hbal⟩ := hfits.balanced hleaf fun hred => by simp [hredp] at hred
          refine ⟨nodes₁, none, _, n, ?_, stored_plug.mp h₁, hbal, hinserted⟩
          simp [putLoop, root, hinsert, hfix]
        | true =>
          obtain ⟨htail, hbeside⟩ := (habove hredp).resolve_left not_quiet_nil
          obtain ⟨nodes₂, path₂, c₂, t₂, s₂, hfix, h₂, hshape₂, -⟩ :=
            exists_fixRed h₁ hfits hleaf hredp htail hbeside (hlast htail) h.sought
          obtain ⟨n₂, hfits₂, hbal₂⟩ := h₂.fits
          obtain ⟨n, hbal⟩ := hfits₂.balanced hbal₂ h₂.reds
          refine ⟨nodes₂, none, _, n, ?_, stored_plug.mp h₂.stored, hbal, h₂.elems_eq ▸ hinserted⟩
          simp [putLoop, root, hinsert, ha, hg, hfix]
    | node l x r =>
      obtain ⟨t, s, he⟩ := exists_fork (dirOf (cmp x.item.key new.key)) l x r
      rw [he] at h hmode hfresh ⊢
      have hx : x.item ∈ es := h.elems_eq ▸ mem_elems_plug path (mem_elems_fork ..)
      have hcomp : compareKey items x.item.addr new.key = some (cmp x.item.key new.key) := by
        simp [compareKey, hitems _ hx]
      obtain ⟨nodes₁, nodes₂, path₂, c₂, t₂, s₂, hinsert, hfix, h₂, hshape, hmode₂⟩ := putStep rfl h hmode hdir new.addr
      have hnew₂ : nodes₂ new.addr = some {} := (hshape.same _ hfresh).trans hnew
      have hfresh₂ := hshape.places_eq.symm ▸ hfresh
      obtain ⟨n, hfits, hbal⟩ := h₂.fits
      by_cases hkey : x.item.key = new.key
      · obtain ⟨nodes₃, hreplace, h₃⟩ := h₂.stored.replace hnew₂ hfresh₂
        obtain ⟨n, hbal₃⟩ := hfits.balanced (hbal.of_item new) fun hred => by simpa using h₂.reds hred
        have hinserted := inserted_replace hkey path₂ (dirOf (cmp x.item.key new.key)) c₂ t₂ s₂
        refine ⟨nodes₃, some x.item.addr, _, n, ?_, stored_plug.mp h₃, hbal₃, h₂.elems_eq ▸ hinserted⟩
        rw [← cmp_eq_eq_iff] at hkey
        simp [putLoop, root_fork, hinsert, hfix, hcomp, hkey, hreplace]
      · obtain ⟨m, hfits', hbal', -, hred'⟩ := hfits.down hbal h₂.reds
        have hsought : Sought new.key (⟨dirOf (cmp x.item.key new.key), ⟨c₂, x.item⟩, s₂⟩ :: path₂) :=
          List.forall_mem_cons.mpr ⟨⟨hkey, rfl⟩, h₂.sought⟩
        obtain ⟨nodes', replaced, t', n', hloop, hrest⟩ := ih
          ⟨stored_cons.mpr h₂.stored, ⟨m, hfits', hbal'⟩, fun hred => (hred' (of_decide_eq_true hred)).1, hsought, h₂.elems_eq⟩
          hmode₂ (fun _ => rfl) (fun he => absurd he (List.cons_ne_nil _ _)) hnew₂ hfresh₂
        refine ⟨nodes', replaced, t', n', ?_, hrest⟩
        rw [← cmp_eq_eq_iff] at hkey
        rw [root_fork, putLoop]
        simp [hinsert, hfix, hcomp, hkey, h₂.stored.child_eq.1]
        exact hloop

end MojRbTree

end Db8
