import Db8.Core.MojRbTreeLinks

/-!
# Core.MojRbTreeDel

Deleting from a tree: on the way down a red node is pushed ahead of the search, so that the last node, which
takes the place of the one that is found, is red.

* `Pushed`       — the node above a subtree or its root is red, or both are still at the root of the tree.
* `pushStep`     — one round.
* `delLoop_spec` — the whole way down.
-/

namespace Db8

open Lib Lib.BinTree

namespace MojRbTree

variable {κ ν : Type} {nodes nodes' : Nodes} {path rest : Path κ ν} {t u s : Tree κ ν} {d e : Dir} {c : Color}
  {x y p g : Elem κ ν} {n m : Nat}

def parentOf : Path κ ν → Option Nat
  | [] => none
  | _ :: rest => some (up rest)

def Pushed (path : Path κ ν) (t : Tree κ ν) : Prop :=
  path = [] ∨ redAbove path = true ∨ red t = true ∨ path.tail = [] ∧ redBeside path = false

section Round

variable [LinearOrder κ] {key : κ} {es : List (Elem κ ν)}

def Toward (key : κ) (path : Path κ ν) : Prop := ∀ f ∈ path, f.dir = dirOf (cmp f.item.item.key key)

/-- The node with the key above a subtree. -/
def found (key : κ) : Path κ ν → Option Nat
  | [] => none
  | f :: path => if f.item.item.key = key then some (addr f) else found key path

/-- A subtree of a balanced tree with the elements `es`, on the way to a key. -/
structure Sinking (key : κ) (es : List (Elem κ ν)) (nodes : Nodes) (path : Path κ ν) (t : Tree κ ν) : Prop where
  stored : Stored nodes path t
  fits : ∃ n, Fits path n ∧ Balanced t n
  reds : redAbove path = true → red t = false
  toward : Toward key path
  elems_eq : elems (plug path t) = es

/-- An element on the other side of a node than the key is not the key, and lies the same way from it. -/
theorem dirOf_beside (h : (elems (fork d c x t s)).Pairwise fun x y => x.key < y.key) (hd : d = dirOf (cmp x.key key))
    (hy : y ∈ elems s) : d = dirOf (cmp y.key key) ∧ y.key ≠ key := by
  rw [elems_fork] at h
  cases d with
  | left =>
    have hlt : x.key < y.key := (List.pairwise_cons.mp (List.pairwise_append.mp h).2.1).1 y hy
    have hle : key ≤ x.key := not_lt.mp fun hk => by
      rw [← dirOf_cmp_right, ← hd] at hk
      cases hk
    refine ⟨?_, (hle.trans_lt hlt).ne'⟩
    cases hdir : dirOf (cmp y.key key) with
    | left => rfl
    | right => exact absurd (dirOf_cmp_right.mp hdir) (hle.trans hlt.le).not_gt
  | right =>
    have hlt : y.key < x.key := (List.pairwise_append.mp h).2.2 y hy x List.mem_cons_self
    have hx : x.key < key := dirOf_cmp_right.mp hd.symm
    exact ⟨(dirOf_cmp_right.mpr (hlt.trans hx)).symm, (hlt.trans hx).ne⟩

omit [LinearOrder κ] in
theorem pairwise_subtree {R : Elem κ ν → Elem κ ν → Prop} (h : (elems (plug path t)).Pairwise R) : (elems t).Pairwise R := by
  rw [elems_plug] at h
  exact (List.pairwise_append.mp (List.pairwise_append.mp h).1).2.1

/-- What a round leaves: the node of the search in a tree of another shape. -/
def Round (key : κ) (es : List (Elem κ ν)) (path : Path κ ν) (d : Dir) (x : Elem κ ν) (t : Tree κ ν)
    (result : Option (Nodes × Nat)) : Prop :=
  ∃ nodes₂ path₂ c₂ s₂, result = some (nodes₂, up path₂) ∧ Sinking key es nodes₂ path₂ (fork d c₂ x t s₂) ∧
    found key path₂ = found key path ∧ Pushed (⟨d, ⟨c₂, x⟩, s₂⟩ :: path₂) t

omit [LinearOrder κ] in
theorem pushRed_eq (h : Stored nodes path (fork d c x t s)) (g : Option Nat) (p : Nat) (last : Dir) :
    pushRed nodes g p x.addr d last =
      if decide (c = .red) || red t then some (nodes, p)
      else if red s then do
        let (nodes, c) ← rotate nodes x.addr d
        let nodes ← setChild nodes p last (some c)
        return (nodes, ← (← child nodes p last))
      else do
        match ← child nodes p last.opposite with
        | none => return (nodes, p)
        | some s =>
          let outer ← isRed nodes (← child nodes s last.opposite)
          let inner ← isRed nodes (← child nodes s last)
          if !outer && !inner then
            let nodes ← setColor nodes p .black
            let nodes ← setColor nodes s .red
            let nodes ← setColor nodes x.addr .red
            return (nodes, p)
          else
            let g ← g
            let dir2 ← sideOf nodes g (some p)
            let (nodes, c) ← if inner then rotateDouble nodes p last else rotate nodes p last
            let nodes ← setChild nodes g dir2 (some c)
            let nodes ← setColor nodes x.addr .red
            let top ← (← child nodes g dir2)
            let nodes ← setColor nodes top .red
            let nodes ← blackenChildren nodes top
            return (nodes, p) := by
  obtain ⟨ht, hs⟩ := h.child_eq
  obtain ⟨hredt, hreds⟩ := h.isRed_children
  have hred := h.isRed_eq
  rw [root_fork, red_fork] at hred
  simp only [pushRed, ht, hs, hredt, hreds, hred, Option.bind_eq_bind, Option.bind_some]
  rfl

/-- The red node on the other side goes up. -/
theorem round_rotate (h : Sinking key es nodes path (fork d .black x t s)) (hd : d = dirOf (cmp x.key key))
    (hsorted : es.Pairwise fun x y => x.key < y.key) (ht : red t = false) (hs : red s = true) :
    Round key es path d x t (pushRed nodes (parentOf path) (up path) x.addr d (side path)) := by
  obtain ⟨y, u, v, rfl⟩ := exists_fork_of_red hs d
  obtain ⟨n, hfits, hbal⟩ := h.fits
  obtain ⟨m, rfl, hbt, hby⟩ := balanced_black.mp hbal
  obtain ⟨hbu, hbv, hu, hv⟩ := balanced_red.mp hby
  obtain ⟨nodes₁, nodes₂, hrotate, hset, h₂, hshape⟩ := h.stored.rotate
  obtain ⟨hydir, hykey⟩ := dirOf_beside (pairwise_subtree (h.elems_eq ▸ hsorted)) hd (mem_elems_fork d .red y u v)
  have hchild := child_up h₂.chain
  rw [root_fork] at hchild
  refine ⟨nodes₂, ⟨d, ⟨.black, y⟩, v⟩ :: path, .red, u, ?_, ⟨stored_cons.mpr h₂, ⟨m, .black hfits hbv, ?_⟩, by rintro ⟨⟩, ?_, ?_⟩, ?_, ?_⟩
  · rw [pushRed_eq h.stored]
    simp [ht, hrotate, hset, hchild]
  · exact balanced_red.mpr ⟨hbt, hbu, ht, hu⟩
  · exact List.forall_mem_cons.mpr ⟨hydir, h.toward⟩
  · exact hshape.elems_eq.trans h.elems_eq
  · simp [found, hykey]
  · exact .inr (.inl rfl)

/-- The dummy root has no other child. -/
theorem round_root (h : Sinking key es nodes [] (fork d .black x t s)) (ht : red t = false) (hs : red s = false) :
    Round key es [] d x t (pushRed nodes (parentOf ([] : Path κ ν)) (up ([] : Path κ ν)) x.addr d (side ([] : Path κ ν))) := by
  have hhead : child nodes head .left = some none := by
    have hchain : nodes head = some ⟨.red, none, sides .right (root (fork d .black x t s)) none⟩ := h.stored.chain
    simp [child, hchain, sides]
  refine ⟨nodes, [], .black, s, ?_, h, rfl, .inr (.inr (.inr ⟨rfl, hs⟩))⟩
  rw [pushRed_eq h.stored]
  simp [ht, hs, side, Dir.opposite, hhead]

omit [LinearOrder κ] in
/-- A black node whose parent is not: its sibling is black, and the parent can become black. -/
theorem exists_sibling {b : Tree κ ν} (hfits : Fits (⟨e, ⟨c, p⟩, b⟩ :: rest) n) (hbal : Balanced (fork d .black x t s) n)
    (hpushed : Pushed (⟨e, ⟨c, p⟩, b⟩ :: rest) (fork d .black x t s)) :
    ∃ y inner outer m, b = fork e .black y inner outer ∧ Fits rest (m + 1) ∧ redAbove rest = false ∧ Balanced t m ∧
      Balanced s m ∧ Balanced inner m ∧ Balanced outer m := by
  obtain ⟨m, rfl, ht, hs⟩ := balanced_black.mp hbal
  obtain ⟨hrest, hred, hb, hredb⟩ : Fits rest (m + 1) ∧ redAbove rest = false ∧ Balanced b (m + 1) ∧ red b = false := by
    cases hfits with
    | red hrest hred hb hredb => exact ⟨hrest, hred, hb, hredb⟩
    | black hrest hb =>
      rcases hpushed with hp | hp | hp | ⟨hp, hredb⟩
      · cases hp
      · cases hp
      · simp at hp
      · obtain rfl : rest = [] := hp
        exact ⟨.nil, rfl, hb, hredb⟩
  have hne : b ≠ nil := by
    rintro rfl
    cases hb
  obtain ⟨c', y, inner, outer, rfl⟩ := exists_fork_of_ne_nil hne e
  cases c' with
  | red => simp at hredb
  | black =>
    obtain ⟨m', hm, hinner, houter⟩ := balanced_black.mp hb
    obtain rfl : m = m' := Nat.succ.inj hm
    exact ⟨y, inner, outer, m, rfl, hrest, hred, ht, hs, hinner, houter⟩

/-- The color goes from the parent to both its children. -/
theorem round_flip {inner outer : Tree κ ν}
    (h : Sinking key es nodes (⟨e, ⟨c, p⟩, fork e .black y inner outer⟩ :: rest) (fork d .black x t s))
    (hpushed : Pushed (⟨e, ⟨c, p⟩, fork e .black y inner outer⟩ :: rest) (fork d .black x t s)) (ht : red t = false)
    (hs : red s = false) (hinner : red inner = false) (houter : red outer = false) :
    Round key es (⟨e, ⟨c, p⟩, fork e .black y inner outer⟩ :: rest) d x t
      (pushRed nodes (some (up rest)) p.addr x.addr d e) := by
  obtain ⟨n, hfits, hbal⟩ := h.fits
  obtain ⟨y', inner', outer', m, hb, hrest, hred, hbt, hbs, hbi, hbo⟩ := exists_sibling hfits hbal hpushed
  obtain ⟨-, rfl, hchildren⟩ := fork_inj hb
  obtain ⟨rfl, rfl⟩ := hchildren rfl
  have hp := stored_cons.mp h.stored
  have hsibling := hp.child_eq.2
  have hy := stored_cons.mpr ((fork_turn e c p _ _).symm ▸ hp)
  obtain ⟨hci, hco⟩ := hy.child_eq
  obtain ⟨hri, hro⟩ := hy.isRed_children
  obtain ⟨nodes₁, hset₁, h₁, hshape₁⟩ := hp.setColor .black
  rw [← fork_turn] at h₁
  obtain ⟨nodes₂, hset₂, h₂, hshape₂⟩ := (stored_cons.mpr h₁).setColor .red
  rw [stored_cons, fork_turn] at h₂
  rw [plug_cons, plug_cons, fork_turn, fork_turn] at hshape₂
  obtain ⟨nodes₃, hset₃, h₃, hshape₃⟩ := (stored_cons.mpr h₂).setColor .red
  refine ⟨nodes₃, ⟨e, ⟨.black, p⟩, fork e .red y inner outer⟩ :: rest, .red, s, ?_, ⟨h₃, ⟨m, ?_, ?_⟩, by rintro ⟨⟩, ?_, ?_⟩, rfl, ?_⟩
  · rw [root_fork] at hsibling
    rw [pushRed_eq h.stored]
    simp [ht, hs, hsibling, hci, hco, hri, hro, hinner, houter, hset₁, hset₂, hset₃]
  · exact .black hrest (balanced_red.mpr ⟨hbi, hbo, hinner, houter⟩)
  · exact balanced_red.mpr ⟨hbt, hbs, ht, hs⟩
  · exact List.forall_mem_cons.mpr (List.forall_mem_cons.mp h.toward)
  · exact ((hshape₁.trans hshape₂).trans hshape₃).elems_eq.trans h.elems_eq
  · exact .inr (.inl rfl)

omit [LinearOrder κ] in
/-- The colors after a rotation of the parent. -/
theorem exists_recolor {z : Elem κ ν} {w o : Tree κ ν}
    (h : Stored nodes rest (fork e .black z (fork e .red p (fork d .black x t s) w) o)) (ho : o ≠ nil) :
    ∃ nodes', (do
        let nodes ← setColor nodes x.addr .red
        let top ← (← child nodes (up rest) (side rest))
        let nodes ← setColor nodes top .red
        let nodes ← blackenChildren nodes top
        return (nodes, p.addr)) = some (nodes', p.addr) ∧
      Stored nodes' rest (fork e .red z (fork e .black p (fork d .red x t s) w) (blacken o)) ∧
      Reshaped nodes (plug rest (fork e .black z (fork e .red p (fork d .black x t s) w) o)) nodes'
        (plug rest (fork e .red z (fork e .black p (fork d .red x t s) w) (blacken o))) := by
  obtain ⟨nodes₁, hset₁, h₁, hshape₁⟩ := (stored_cons.mpr (stored_cons.mpr h)).setColor .red
  rw [stored_cons, stored_cons] at h₁
  have hchild := child_up h₁.chain
  rw [root_fork] at hchild
  obtain ⟨nodes₂, hset₂, h₂, hshape₂⟩ := h₁.setColor .red
  obtain ⟨nodes₃, hset₃, h₃, hshape₃⟩ := h₂.blackenChildren fork_ne_nil ho
  rw [blacken_fork] at h₃ hshape₃
  exact ⟨nodes₃, by simp [hset₁, hchild, hset₂, hset₃], h₃, (hshape₁.trans hshape₂).trans hshape₃⟩

/-- A rotation of the parent brings one of the red nodes beside it up. -/
theorem sinking_rotated {z : Elem κ ν} {b w o : Tree κ ν} (h : Sinking key es nodes (⟨e, ⟨c, p⟩, b⟩ :: rest) (fork d .black x t s))
    (hsorted : es.Pairwise fun x y => x.key < y.key) (ht : red t = false) (hs : red s = false)
    (hz : z ∈ elems b) (hrest : Fits rest (m + 1)) (hred : redAbove rest = false) (hbt : Balanced t m) (hbs : Balanced s m)
    (hbw : Balanced w m) (hbo : Balanced (blacken o) (m + 1))
    (h₂ : Stored nodes' rest (fork e .red z (fork e .black p (fork d .red x t s) w) (blacken o)))
    (helems : elems (plug rest (fork e .red z (fork e .black p (fork d .red x t s) w) (blacken o))) =
      elems (plug rest (fork e c p (fork d .black x t s) b))) :
    Sinking key es nodes' (⟨e, ⟨.black, p⟩, w⟩ :: ⟨e, ⟨.red, z⟩, blacken o⟩ :: rest) (fork d .red x t s) ∧
      found key (⟨e, ⟨.black, p⟩, w⟩ :: ⟨e, ⟨.red, z⟩, blacken o⟩ :: rest) = found key (⟨e, ⟨c, p⟩, b⟩ :: rest) := by
  obtain ⟨hpdir, htoward⟩ := List.forall_mem_cons.mp h.toward
  have hplug : (elems (plug rest (fork e c p (fork d .black x t s) b))).Pairwise fun x y => x.key < y.key := by
    rw [← plug_cons, h.elems_eq]
    exact hsorted
  have hsub := pairwise_subtree hplug
  obtain ⟨hzdir, hzkey⟩ := dirOf_beside hsub hpdir hz
  refine ⟨⟨stored_cons.mpr (stored_cons.mpr h₂), ⟨m, ?_, ?_⟩, by rintro ⟨⟩, ?_, helems.trans h.elems_eq⟩, ?_⟩
  · exact .black (.red hrest hred hbo (red_blacken o)) hbw
  · exact balanced_red.mpr ⟨hbt, hbs, ht, hs⟩
  · exact List.forall_mem_cons.mpr ⟨hpdir, List.forall_mem_cons.mpr ⟨hzdir, htoward⟩⟩
  · simp [found, hzkey]

theorem round_borrow {inner outer : Tree κ ν}
    (h : Sinking key es nodes (⟨e, ⟨c, p⟩, fork e .black y inner outer⟩ :: rest) (fork d .black x t s))
    (hsorted : es.Pairwise fun x y => x.key < y.key)
    (hpushed : Pushed (⟨e, ⟨c, p⟩, fork e .black y inner outer⟩ :: rest) (fork d .black x t s)) (ht : red t = false)
    (hs : red s = false) (hborrow : red inner = true ∨ red outer = true) :
    Round key es (⟨e, ⟨c, p⟩, fork e .black y inner outer⟩ :: rest) d x t
      (pushRed nodes (some (up rest)) p.addr x.addr d e) := by
  obtain ⟨n, hfits, hbal⟩ := h.fits
  obtain ⟨y', inner', outer', m, hb, hrest, hred, hbt, hbs, hbi, hbo⟩ := exists_sibling hfits hbal hpushed
  obtain ⟨-, rfl, hchildren⟩ := fork_inj hb
  obtain ⟨rfl, rfl⟩ := hchildren rfl
  have hp := stored_cons.mp h.stored
  have hsibling := hp.child_eq.2
  rw [root_fork] at hsibling
  have hy := stored_cons.mpr ((fork_turn e c p _ _).symm ▸ hp)
  obtain ⟨hci, hco⟩ := hy.child_eq
  obtain ⟨hri, hro⟩ := hy.isRed_children
  have hside : sideOf nodes (up rest) (some p.addr) = some (side rest) := by
    have hchain := hp.chain
    rw [root_fork] at hchain
    exact sideOf_up hchain (hp.apart (by simp))
  cases hinner : red inner with
  | true =>
    obtain ⟨z, v, w, rfl⟩ := exists_fork_of_red hinner e.opposite
    obtain ⟨hbv, hbw, -, -⟩ := balanced_red.mp hbi
    have hturn := hp
    rw [← fork_turn e .black] at hturn
    obtain ⟨nodes₁, nodes₂, hrotate, hset, h₂, hshape₂⟩ := hturn.rotateDouble
    obtain ⟨nodes₃, hrecolor, h₃, hshape₃⟩ := exists_recolor h₂ fork_ne_nil
    have hshape := hshape₂.trans hshape₃
    rw [fork_turn e .black] at hshape
    have hz : z ∈ elems (fork e .black y (fork e.opposite .red z v w) outer) := by
      rw [elems_fork]
      split_ifs <;> simp [mem_elems_fork]
    have hbo' : Balanced (blacken (fork e.opposite .red y outer v)) (m + 1) := by
      rw [blacken_fork]
      exact balanced_black.mpr ⟨m, rfl, hbo, hbv⟩
    obtain ⟨hsink, hfound⟩ := sinking_rotated h hsorted ht hs hz hrest hred hbt hbs hbw hbo' h₃ hshape.elems_eq
    refine ⟨nodes₃, _, .red, s, ?_, hsink, hfound, .inr (.inl rfl)⟩
    rw [root_fork] at hri
    rw [pushRed_eq h.stored]
    simp [ht, hs, hsibling, hci, hco, hri, hro, hside, hrotate, hset]
    exact hrecolor
  | false =>
    have houter : red outer = true := hborrow.resolve_left (by simp [hinner])
    obtain ⟨nodes₁, nodes₂, hrotate, hset, h₂, hshape₂⟩ := hp.rotate
    obtain ⟨nodes₃, hrecolor, h₃, hshape₃⟩ := exists_recolor h₂ (by rintro rfl; cases houter)
    obtain ⟨hsink, hfound⟩ := sinking_rotated h hsorted ht hs (mem_elems_fork ..) hrest hred hbt hbs hbi (hbo.blacken houter) h₃
      (hshape₂.trans hshape₃).elems_eq
    refine ⟨nodes₃, _, .red, s, ?_, hsink, hfound, .inr (.inl rfl)⟩
    rw [pushRed_eq h.stored]
    simp [ht, hs, hsibling, hci, hco, hri, hro, hinner, houter, hside, hrotate, hset]
    exact hrecolor

/-- **A round of the way down.** -/
theorem pushStep (h : Sinking key es nodes path (fork d c x t s)) (hd : d = dirOf (cmp x.key key))
    (hsorted : es.Pairwise fun x y => x.key < y.key) (hpushed : Pushed path (fork d c x t s)) :
    Round key es path d x t (pushRed nodes (parentOf path) (up path) x.addr d (side path)) := by
  by_cases hready : (decide (c = .red) || red t) = true
  · refine ⟨nodes, path, c, s, ?_, h, rfl, ?_⟩
    · rw [pushRed_eq h.stored, if_pos hready]
    · rcases Bool.or_eq_true_iff.mp hready with hc | ht
      · exact .inr (.inl hc)
      · exact .inr (.inr (.inl ht))
  · simp only [Bool.or_eq_true, decide_eq_true_eq, not_or, Bool.not_eq_true] at hready
    obtain ⟨hc, ht⟩ := hready
    obtain rfl : c = .black := by
      cases c with
      | black => rfl
      | red => exact absurd rfl hc
    cases hs : red s with
    | true => exact round_rotate h hd hsorted ht hs
    | false =>
      cases path with
      | nil => exact round_root h ht hs
      | cons f rest =>
        obtain ⟨e, ⟨c, p⟩, b⟩ := f
        obtain ⟨n, hfits, hbal⟩ := h.fits
        obtain ⟨y, inner, outer, m, rfl, -⟩ := exists_sibling hfits hbal hpushed
        by_cases hborrow : red inner = true ∨ red outer = true
        · exact round_borrow h hsorted hpushed ht hs hborrow
        · simp only [not_or, Bool.not_eq_true] at hborrow
          exact round_flip h hpushed ht hs hborrow.1 hborrow.2

/-- **The way down ends at a leaf.** -/
theorem delLoop_spec {items : Nat → Option (κ × ν)} {fuel : Nat} (h : Sinking key es nodes path t) (hpushed : Pushed path t)
    (hsorted : es.Pairwise fun x y => x.key < y.key) (hitems : ∀ x ∈ es, items x.addr = some (x.key, x.val))
    (hfuel : (elems t).length < fuel) :
    ∃ nodes' path', delLoop items key fuel nodes (up path) (parentOf path) (found key path) (side path) =
        some (nodes', up path', parentOf path', found key path') ∧
      Sinking key es nodes' path' nil ∧ Pushed path' nil := by
  induction fuel generalizing nodes path t with
  | zero => exact absurd hfuel (Nat.not_lt_zero _)
  | succ fuel ih =>
    have hchild := child_up h.stored.chain
    cases t with
    | nil => exact ⟨nodes, path, by simp [delLoop, hchild, root], h, hpushed⟩
    | node l x r =>
      obtain ⟨t, s, he⟩ := exists_fork (dirOf (cmp x.item.key key)) l x r
      rw [he] at h hpushed hfuel hchild
      rw [root_fork] at hchild
      have hx : x.item ∈ es := h.elems_eq ▸ mem_elems_plug path (mem_elems_fork ..)
      have hcomp : compareKey items x.item.addr key = some (cmp x.item.key key) := by simp [compareKey, hitems _ hx]
      obtain ⟨nodes₂, path₂, c₂, s₂, hpush, h₂, hfound, hpushed₂⟩ := pushStep h rfl hsorted hpushed
      obtain ⟨n, hfits, hbal⟩ := h₂.fits
      obtain ⟨m, hfits', hbal', -, hred'⟩ := hfits.down hbal h₂.reds
      have htoward : Toward key (⟨dirOf (cmp x.item.key key), ⟨c₂, x.item⟩, s₂⟩ :: path₂) :=
        List.forall_mem_cons.mpr ⟨rfl, h₂.toward⟩
      rw [length_elems_fork] at hfuel
      obtain ⟨nodes', path', hloop, hrest⟩ := ih
        ⟨stored_cons.mpr h₂.stored, ⟨m, hfits', hbal'⟩, fun hred => (hred' (of_decide_eq_true hred)).1, htoward, h₂.elems_eq⟩
        hpushed₂ (by omega)
      refine ⟨nodes', path', ?_, hrest⟩
      rw [delLoop]
      simp only [hchild, hcomp, hpush, Option.bind_eq_bind, Option.bind_some, cmp_eq_eq_iff]
      simp only [found, hfound] at hloop
      exact hloop

end Round

end MojRbTree

end Db8
