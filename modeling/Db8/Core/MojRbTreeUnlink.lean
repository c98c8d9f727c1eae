import Db8.Core.MojRbTreeDel

/-!
# Core.MojRbTreeUnlink

The end of a deletion: the last node of the way down takes the place of the one that is found.

* `LinkedMid`    — the nodes between the two.
* `Removed`      — what a deletion does to the elements.
* `unlink_spec`  — the tree without the node, also where the two are one, or the first is the child of the second.
-/

namespace Db8

open Lib Lib.BinTree

namespace MojRbTree

variable {κ ν : Type} {nodes nodes' : Nodes} {path mid rest : Path κ ν} {t u s : Tree κ ν} {d e : Dir} {c c' : Color}
  {x y f : Elem κ ν} {n a b par par' : Nat} {hole : Option Nat}

/-! ## Between two nodes -/

/-- The parent of a subtree, where `par` is the one above the path. -/
def upFrom (par : Nat) : Path κ ν → Nat
  | [] => par
  | f :: _ => addr f

/-- The pointer to the top of a path. -/
def topHole (mid : Path κ ν) (hole : Option Nat) : Option Nat := (mid.getLast?.map addr).or hole

def LinkedMid (nodes : Nodes) (par : Nat) : Path κ ν → Option Nat → Prop
  | [], _ => True
  | f :: mid, hole => nodes (addr f) = some ⟨f.item.color, some (upFrom par mid), sides f.dir hole (root f.sibling)⟩ ∧
      Linked nodes (some (addr f)) f.sibling ∧ LinkedMid nodes par mid (some (addr f))

def midAddrs (mid : Path κ ν) : List Nat := mid.flatMap fun f => addr f :: addrs f.sibling

theorem pathAddrs_append (mid path : Path κ ν) : pathAddrs (mid ++ path) = midAddrs mid ++ pathAddrs path := by
  induction mid with
  | nil => rfl
  | cons f mid ih =>
    rw [List.cons_append, pathAddrs, ih]
    simp [midAddrs]

theorem topHole_cons (f : Frame (Cell (Elem κ ν))) (mid : Path κ ν) (hole : Option Nat) :
    topHole (f :: mid) hole = topHole mid (some (addr f)) := by
  rw [topHole, topHole, List.getLast?_cons]
  cases mid.getLast? <;> simp

theorem linkedPath_append {g : Frame (Cell (Elem κ ν))} : LinkedPath nodes (mid ++ g :: rest) hole ↔
    LinkedMid nodes (addr g) mid hole ∧ LinkedPath nodes (g :: rest) (topHole mid hole) := by
  induction mid generalizing hole with
  | nil => simp [LinkedMid, topHole]
  | cons f mid ih =>
    have hup : up (mid ++ g :: rest) = upFrom (addr g) mid := by
      cases mid <;> rfl
    rw [List.cons_append, LinkedPath, ih, LinkedMid, topHole_cons, hup]
    tauto

theorem topHole_mem {b : Nat} (h : topHole mid none = some b) : b ∈ midAddrs mid := by
  rw [topHole, Option.or_none, Option.map_eq_some_iff] at h
  obtain ⟨f, hf, rfl⟩ := h
  exact List.mem_flatMap.mpr ⟨f, List.mem_of_getLast? hf, List.mem_cons_self⟩

/-- A path whose top gets another parent. -/
theorem LinkedMid.reparent (h : LinkedMid nodes par mid hole) (hnodup : (midAddrs mid).Nodup)
    (htop : ∀ b k, topHole mid none = some b → nodes b = some k → nodes' b = some { k with parent := some par' })
    (hsame : ∀ b ∈ midAddrs mid, topHole mid none ≠ some b → nodes' b = nodes b) : LinkedMid nodes' par' mid hole := by
  induction mid generalizing hole with
  | nil => trivial
  | cons f mid ih =>
    obtain ⟨hf, hs, hmid⟩ := h
    have haddrs : midAddrs (f :: mid) = addr f :: (addrs f.sibling ++ midAddrs mid) := by simp [midAddrs]
    rw [haddrs] at hnodup hsame
    obtain ⟨hfnot, hnodup⟩ := List.nodup_cons.mp hnodup
    obtain ⟨-, hnmid, hdisjoint⟩ := List.nodup_append.mp hnodup
    rw [topHole_cons] at htop hsame
    cases mid with
    | nil =>
      have hself : topHole ([] : Path κ ν) (some (addr f)) = some (addr f) := rfl
      refine ⟨htop _ _ hself hf, hs.congr fun b hb => hsame b (by simp [hb]) fun he => ?_, trivial⟩
      obtain rfl := Option.some.inj (hself.symm.trans he)
      exact hfnot (List.mem_append_left _ hb)
    | cons g mid =>
      have htopg : topHole (g :: mid) (some (addr f)) = topHole (g :: mid) none := by rw [topHole_cons, topHole_cons]
      rw [htopg] at htop hsame
      have hnot : ∀ b, topHole (g :: mid) none = some b → b ≠ addr f ∧ b ∉ addrs f.sibling := by
        intro b hb
        have hmem := topHole_mem hb
        refine ⟨?_, fun hbs => hdisjoint b hbs b hmem rfl⟩
        rintro rfl
        exact hfnot (List.mem_append_right _ hmem)
      refine ⟨?_, hs.congr fun b hb => hsame b (by simp [hb]) fun he => (hnot b he).2 hb, ih hmid hnmid htop fun b hb => ?_⟩
      · rw [hsame _ List.mem_cons_self fun he => (hnot _ he).1 rfl]
        exact hf
      · exact hsame b (by simp [hb])

/-! ## The last node -/

/-- The last node is a leaf, and its place can stay empty. -/
theorem exists_leaf {n : Nat} (hfits : Fits (⟨d, ⟨c, x⟩, s⟩ :: path) n) (hbal : Balanced (nil : Tree κ ν) n)
    (hpushed : Pushed (⟨d, ⟨c, x⟩, s⟩ :: path) nil) : s = nil ∧ Fits path 0 := by
  have hnil : ∀ u : Tree κ ν, Balanced u 0 → red u = false → u = nil := by
    intro u hu hred
    cases hu with
    | nil => rfl
    | red => cases hred
  cases hbal
  cases hfits with
  | red hpath _ hs hs' => exact ⟨hnil s hs hs', hpath⟩
  | black _ hs =>
    rcases hpushed with hp | hp | hp | ⟨hp, hs'⟩
    · cases hp
    · cases hp
    · cases hp
    · obtain rfl : path = [] := hp
      exact ⟨hnil s hs hs', .nil⟩

theorem setChild_eq_self {m : Node} {z : Option Nat} (ha : nodes a = some m) (hd : m.children d = z)
    (hz : ∀ b, z = some b → ∃ k, nodes b = some k ∧ k.parent = some a) : setChild nodes a d z = some nodes := by
  have hchildren : Function.update m.children d z = m.children := by
    rw [← hd]
    exact Function.update_eq_self d m.children
  have hself : Function.update nodes a (some m) = nodes := by
    rw [← ha]
    exact Function.update_eq_self a nodes
  cases z with
  | none => simp [setChild, ha, hchildren, hself]
  | some b =>
    obtain ⟨k, hk, hparent⟩ := hz b rfl
    have hk' : ({ k with parent := some a } : Node) = k := by rw [← hparent]
    have hselfb : Function.update nodes b (some k) = nodes := by
      rw [← hk]
      exact Function.update_eq_self b nodes
    simp [setChild, setParent, ha, hchildren, hself, hk, hk', hselfb]

/-- `replace` of a leaf by itself. -/
theorem replace_self (ha : nodes a = some ⟨c, some (up path), sides d none none⟩) (hpath : LinkedPath nodes path (some a))
    (hap : a ∉ pathAddrs path) : replace nodes a a = some nodes := by
  have hnone : ∀ e, sides d none none e = none := fun e => ite_self none
  have hset : ∀ e, setChild nodes a e none = some nodes := fun e => setChild_eq_self ha (hnone e) (by simp)
  have hcolor : setColor nodes a c = some nodes := by
    have hself := Function.update_eq_self a nodes
    rw [ha] at hself
    simp [setColor, ha, hself]
  obtain ⟨left, hleft, hside⟩ := exists_leftChild_up hpath hap
  have hchild := child_up hpath
  obtain ⟨k, hk, hkchild⟩ := Option.map_eq_some_iff.mp hchild
  have hlast : setChild nodes (up path) (side path) (some a) = some nodes := by
    refine setChild_eq_self hk hkchild ?_
    rintro _ ⟨⟩
    exact ⟨_, ha, rfl⟩
  simp [replace, child, ha, hnone, hset, hcolor]
  rw [show (nodes (up path)).map (fun k => k.children .left) = some left from hleft]
  simp only [Option.bind_some, hside]
  exact hlast

/-! ## The place of the node that is found -/

theorem topHole_of_ne {q : Nat} (h : topHole mid (some q) = some b) (hb : b ≠ q) : topHole mid none = some b := by
  rw [topHole] at h ⊢
  cases hlast : mid.getLast? with
  | none =>
    rw [hlast] at h
    exact absurd (Option.some.inj h).symm hb
  | some g =>
    rw [hlast] at h
    exact h

theorem LinkedMid.exists_top (h : LinkedMid nodes par mid hole) (hb : topHole mid none = some b) : ∃ k, nodes b = some k := by
  induction mid generalizing hole with
  | nil => cases hb
  | cons f mid ih =>
    obtain ⟨hf, -, hmid⟩ := h
    rw [topHole_cons] at hb
    by_cases he : b = addr f
    · exact ⟨_, he ▸ hf⟩
    · exact ih hmid (topHole_of_ne hb he)

/-- `f->replace(q)`, where `q` is the last node below the child of `f`. -/
theorem replace_above (h : LinkedPath nodes (mid ++ ⟨.left, ⟨c, f⟩, s⟩ :: rest) (some x.addr)) {m : Node}
    (hx : nodes x.addr = some m) (hnodup : (x.addr :: pathAddrs (mid ++ ⟨.left, ⟨c, f⟩, s⟩ :: rest)).Nodup) :
    ∃ nodes', replace nodes f.addr x.addr = some nodes' ∧ LinkedMid nodes' x.addr mid (some x.addr) ∧
      LinkedPath nodes' (⟨.left, ⟨c, x⟩, s⟩ :: rest) (topHole mid none) ∧ nodes' f.addr = nodes f.addr := by
  obtain ⟨hmid, hf, hs, hrest⟩ := linkedPath_append.mp h
  rw [pathAddrs_append, pathAddrs, List.nodup_cons] at hnodup
  simp only [List.mem_append, List.mem_cons, not_or] at hnodup
  obtain ⟨⟨hxmid, hxf, hxs, hxrest⟩, hnodup⟩ := hnodup
  obtain ⟨hnmid, hnodup, hdisjoint⟩ := List.nodup_append.mp hnodup
  obtain ⟨hfnot, hnodup⟩ : f.addr ∉ addrs s ++ pathAddrs rest ∧ _ := List.nodup_cons.mp hnodup
  obtain ⟨hns, hnrest, hsrest⟩ := List.nodup_append.mp hnodup
  simp only [List.mem_append, not_or] at hfnot
  have hmidnot : ∀ b ∈ midAddrs mid, b ≠ f.addr ∧ b ∉ addrs s ∧ b ∉ pathAddrs rest := fun b hb =>
    ⟨hdisjoint b hb f.addr List.mem_cons_self, fun hbs => hdisjoint b hb b (by simp [hbs]) rfl,
      fun hbr => hdisjoint b hb b (by simp [hbr]) rfl⟩
  -- the children of `f`
  have hchildren : ∀ e b, sides .left (topHole mid (some x.addr)) (root s) e = some b → b ≠ x.addr →
      b ≠ f.addr ∧ b ∉ pathAddrs rest ∧ ∃ k, nodes b = some k := by
    intro e b hb hbx
    cases e with
    | left =>
      have htop := topHole_of_ne hb hbx
      obtain ⟨hbf, -, hbr⟩ := hmidnot b (topHole_mem htop)
      exact ⟨hbf, hbr, hmid.exists_top htop⟩
    | right =>
      have hbs : b ∈ addrs s := mem_addrs_of_root hb
      exact ⟨fun he => hfnot.1 (he ▸ hbs), fun hbr => hsrest b hbs b hbr rfl, hs.exists_root hb⟩
  have hdistinct : ∀ b, topHole mid (some x.addr) = some b → root s ≠ some b := by
    intro b hb hbs
    have hmem := mem_addrs_of_root hbs
    exact (hmidnot b (topHole_mem (topHole_of_ne hb fun he => hxs (he ▸ hmem)))).2.1 hmem
  obtain ⟨nodes', hreplace, hx', hrest', hroots', hsame'⟩ :=
    replace_path hrest hnrest hfnot.2 hf rfl hx hxf hxrest hchildren hdistinct
  have hsides : (fun e => if sides .left (topHole mid (some x.addr)) (root s) e = some x.addr then none
      else sides .left (topHole mid (some x.addr)) (root s) e) = sides .left (topHole mid none) (root s) := by
    funext e
    cases e with
    | left =>
      change (if topHole mid (some x.addr) = some x.addr then none else topHole mid (some x.addr)) = topHole mid none
      cases hlast : topHole mid none with
      | none =>
        rw [topHole, Option.or_none] at hlast
        simp [topHole, hlast]
      | some b =>
        have hb : topHole mid (some x.addr) = some b := by
          rw [topHole, Option.or_none] at hlast
          simp [topHole, hlast]
        have hbx : b ≠ x.addr := fun he => hxmid (he ▸ topHole_mem hlast)
        rw [hb, if_neg fun he => hbx (Option.some.inj he)]
    | right => exact if_neg fun he => hxs (mem_addrs_of_root he)
  rw [hsides] at hx'
  refine ⟨nodes', hreplace, ?_, ⟨hx', ?_, hrest'⟩, ?_⟩
  · refine hmid.reparent hnmid (fun b k hb hk => ?_) fun b hb hne => ?_
    · have hbx : b ≠ x.addr := fun he => hxmid (he ▸ topHole_mem hb)
      refine hroots' .left b k ?_ hbx hk
      rw [topHole, Option.or_none] at hb
      simp [topHole, hb]
    · obtain ⟨-, hbs, hbr⟩ := hmidnot b hb
      have hbx : b ≠ x.addr := fun he => hxmid (he ▸ hb)
      refine hsame' b hbx hbr fun e he => ?_
      cases e with
      | left => exact hne (topHole_of_ne he hbx)
      | right => exact hbs (mem_addrs_of_root he)
  · refine hs.reparent hns (fun b k hb hk => ?_) fun b hb hne => ?_
    · exact hroots' .right b k hb (fun he => hxs (he ▸ mem_addrs_of_root hb)) hk
    · have hbx : b ≠ x.addr := fun he => hxs (he ▸ hb)
      refine hsame' b hbx (fun hbr => hsrest b hb b hbr rfl) fun e he => ?_
      cases e with
      | left => exact (hmidnot b (topHole_mem (topHole_of_ne he hbx))).2.1 hb
      | right => exact hne he
  · refine hsame' _ (Ne.symm hxf) hfnot.2 fun e he => ?_
    cases e with
    | left => exact (hmidnot _ (topHole_mem (topHole_of_ne he (Ne.symm hxf)))).1 rfl
    | right => exact hfnot.1 (mem_addrs_of_root he)

theorem nodup_above {d : Dir} (h : (x.addr :: pathAddrs (mid ++ ⟨d, ⟨c, f⟩, s⟩ :: rest)).Nodup) :
    (pathAddrs (mid ++ ⟨d, ⟨c, x⟩, s⟩ :: rest)).Nodup := by
  rw [pathAddrs_append] at h ⊢
  have hmiddle : (midAddrs mid ++ x.addr :: (addrs s ++ pathAddrs rest)).Nodup :=
    List.perm_middle.nodup_iff.mpr (h.sublist (.cons_cons _ (.append_left (.cons _ (.refl _)) _)))
  exact hmiddle

theorem unlink_eq (hx : nodes x.addr = some ⟨c, some b, sides d none none⟩) :
    unlink nodes a x.addr b = (replace nodes a x.addr).bind fun nodes =>
      (sideOf nodes b (some x.addr)).bind fun e => setChild nodes b e none := by
  have hnone : ∀ e, sides d none none e = none := fun e => ite_self none
  simp [unlink, child, hx, hnone]

/-- The last node is the one that is found. -/
theorem unlink_self (hx : nodes x.addr = some ⟨c, some (up path), sides d none none⟩)
    (h : LinkedPath nodes path (some x.addr)) (hnodup : (x.addr :: pathAddrs path).Nodup) :
    ∃ nodes', unlink nodes x.addr x.addr (up path) = some nodes' ∧ LinkedPath nodes' path none := by
  obtain ⟨hxp, hnpath⟩ := List.nodup_cons.mp hnodup
  obtain ⟨nodes', hset, h', -⟩ := h.setHole (z := none) (by rintro _ ⟨⟩) hnpath
  refine ⟨nodes', ?_, h'⟩
  rw [unlink_eq hx, replace_self hx h hxp, Option.bind_some, sideOf_up h hxp, Option.bind_some, hset]

/-- The last node is below the one that is found, maybe as its child. -/
theorem unlink_above (hx : nodes x.addr = some ⟨c', some (up (mid ++ ⟨.left, ⟨c, f⟩, s⟩ :: rest)), sides d none none⟩)
    (h : LinkedPath nodes (mid ++ ⟨.left, ⟨c, f⟩, s⟩ :: rest) (some x.addr))
    (hnodup : (x.addr :: pathAddrs (mid ++ ⟨.left, ⟨c, f⟩, s⟩ :: rest)).Nodup) :
    ∃ nodes', unlink nodes f.addr x.addr (up (mid ++ ⟨.left, ⟨c, f⟩, s⟩ :: rest)) = some nodes' ∧
      LinkedPath nodes' (mid ++ ⟨.left, ⟨c, x⟩, s⟩ :: rest) none := by
  obtain ⟨nodes₁, hreplace, hmid₁, hpath₁, hf₁⟩ := replace_above h hx hnodup
  have hf := (linkedPath_append.mp h).2.1
  rw [unlink_eq hx, hreplace, Option.bind_some]
  have hxnot := (List.nodup_cons.mp hnodup).1
  cases mid with
  | nil =>
    -- `f` has still `q` as its child
    have hs : root s ≠ some x.addr := fun he => hxnot (by simp [pathAddrs, mem_addrs_of_root he])
    have hside : sideOf nodes₁ f.addr (some x.addr) = some .left := by
      simp [sideOf, child, hf₁, hf, sides, hs]
    have hnotin : f.addr ∉ pathAddrs (⟨.left, ⟨c, x⟩, s⟩ :: rest) := by
      simp only [List.nil_append, pathAddrs, List.nodup_cons, List.mem_cons, not_or] at hnodup ⊢
      exact ⟨Ne.symm hnodup.1.1, hnodup.2.1⟩
    obtain ⟨nodes', hset, -, -, hsame⟩ := exists_setChild (hf₁.trans hf) .left (z := none) (by rintro _ ⟨⟩)
    refine ⟨nodes', ?_, hpath₁.congr fun b hb => hsame b ?_ (by simp)⟩
    · rw [List.nil_append, up_cons, hside]
      exact hset
    · rintro rfl
      exact hnotin hb
  | cons g mid =>
    have htop : topHole (g :: mid) none = topHole (g :: mid) (some x.addr) := by rw [topHole_cons, topHole_cons]
    rw [htop] at hpath₁
    have h₁ : LinkedPath nodes₁ (g :: mid ++ ⟨.left, ⟨c, x⟩, s⟩ :: rest) (some x.addr) := linkedPath_append.mpr ⟨hmid₁, hpath₁⟩
    have hs : root g.sibling ≠ some x.addr := fun he => hxnot (by simp [pathAddrs, mem_addrs_of_root he])
    have hside : sideOf nodes₁ (addr g) (some x.addr) = some g.dir := sideOf_cons hmid₁.1 hs
    obtain ⟨nodes', hset, h', -⟩ := h₁.setHole (z := none) (by rintro _ ⟨⟩) (nodup_above hnodup)
    refine ⟨nodes', ?_, h'⟩
    rw [List.cons_append, up_cons, hside]
    exact hset

/-! ## The elements -/

section Found

variable [LinearOrder κ] {key : κ} {es : List (Elem κ ν)}

/-- What a deletion does to the elements. -/
inductive Removed (key : κ) : List (Elem κ ν) → List (Elem κ ν) → Option Nat → Prop
  | absent {es : List (Elem κ ν)} (h : ∀ x ∈ es, x.key ≠ key) : Removed key es es none
  | removed {l r : List (Elem κ ν)} {x : Elem κ ν} (hx : x.key = key) : Removed key (l ++ x :: r) (l ++ r) (some x.addr)

omit [LinearOrder κ] in
theorem Removed.sublist {es' : List (Elem κ ν)} {f : Option Nat} (hr : Removed key es es' f) :
    es'.Sublist es := by
  cases hr with
  | absent => exact .refl _
  | removed => exact .append_left (.cons _ (.refl _)) _

omit [LinearOrder κ] in
theorem Removed.not_mem {es' : List (Elem κ ν)} {q : Nat} (hr : Removed key es es' (some q))
    (hnodup : (es.map Elem.addr).Nodup) : q ∉ es'.map Elem.addr := by
  cases hr with
  | removed =>
    rw [List.map_append, List.map_cons] at hnodup
    rw [List.map_append]
    exact (List.nodup_cons.mp (List.perm_middle.nodup_iff.mp hnodup)).1

omit [LinearOrder κ] in
theorem Removed.length {es' : List (Elem κ ν)} {f : Option Nat} (hr : Removed key es es' f) :
    es'.length = es.length - if f = none then 0 else 1 := by
  cases hr with
  | absent => rfl
  | removed => simp [← Nat.add_assoc]

theorem exists_found (h : found key path = some a) (htoward : Toward key path) :
    ∃ mid c f s rest, path = mid ++ ⟨.left, ⟨c, f⟩, s⟩ :: rest ∧ f.key = key ∧ f.addr = a := by
  induction path with
  | nil => cases h
  | cons g path ih =>
    obtain ⟨d, ⟨c, y⟩, s⟩ := g
    obtain ⟨hdir, hpath⟩ := List.forall_mem_cons.mp htoward
    rw [found] at h
    by_cases hkey : y.key = key
    · have hd : d = .left := by
        change d = dirOf (cmp y.key key) at hdir
        rw [hdir, (cmp_eq_eq_iff _ _).mpr hkey]
        rfl
      rw [if_pos hkey] at h
      exact ⟨[], c, y, s, path, by rw [hd, List.nil_append], hkey, Option.some.inj h⟩
    · rw [if_neg hkey] at h
      obtain ⟨mid, c', f, s', rest, rfl, hf⟩ := ih h hpath
      exact ⟨⟨d, ⟨c, y⟩, s⟩ :: mid, c', f, s', rest, rfl, hf⟩

theorem found_eq_none : found key path = none ↔ ∀ f ∈ path, f.item.item.key ≠ key := by
  induction path with
  | nil => simp [found]
  | cons f path ih =>
    rw [found, List.forall_mem_cons, ← ih]
    split_ifs with h <;> simp [h]

/-- The elements that the search has left on its right. -/
theorem le_behind (hsorted : (elems (plug path (nil : Tree κ ν))).Pairwise fun x y => x.key < y.key) (htoward : Toward key path) :
    ∀ x ∈ behind path, key ≤ x.item.key := by
  rw [elems, List.pairwise_map] at hsorted
  refine forall_behind (hsorted.imp fun hxy hx => hx.trans hxy.le) fun f hf hd => not_lt.mp fun hlt => ?_
  rw [← dirOf_cmp_right, ← htoward f hf, hd] at hlt
  cases hlt

theorem Sinking.absent (h : Sinking key es nodes path nil) (hsorted : es.Pairwise fun x y => x.key < y.key)
    (hfound : found key path = none) : ∀ x ∈ es, x.key ≠ key := by
  have hnot := found_eq_none.mp hfound
  have helems := h.elems_eq
  subst helems
  rw [elems, List.pairwise_map] at hsorted
  have hahead : ∀ x ∈ ahead path, x.item.key < key := by
    refine forall_ahead (hsorted.imp fun hxy hy => hxy.trans hy) fun f hf hd => ?_
    rw [← dirOf_cmp_right, ← h.toward f hf, hd]
  have hbehind : ∀ x ∈ behind path, key < x.item.key := by
    refine forall_behind (hsorted.imp fun hxy hx => hx.trans hxy) fun f hf hd => ?_
    refine lt_of_le_of_ne (not_lt.mp fun hlt => ?_) (Ne.symm (hnot f hf))
    rw [← dirOf_cmp_right, ← h.toward f hf, hd] at hlt
    cases hlt
  intro x hx
  simp only [elems_plug, elems_nil, List.append_nil, List.mem_append, List.mem_map] at hx
  obtain ⟨y, hy, rfl⟩ | ⟨y, hy, rfl⟩ := hx
  · exact (hahead y hy).ne
  · exact (hbehind y hy).ne'

/-- The last node holds the element before the one that is found. -/
theorem removed_above
    (hsorted : (elems (plug (⟨d, ⟨c, x⟩, nil⟩ :: (mid ++ ⟨.left, ⟨c', f⟩, s⟩ :: rest)) (nil : Tree κ ν))).Pairwise
      fun x y => x.key < y.key) (htoward : Toward key (⟨d, ⟨c, x⟩, nil⟩ :: (mid ++ ⟨.left, ⟨c', f⟩, s⟩ :: rest)))
    (hkey : f.key = key) :
    Removed key (elems (plug (⟨d, ⟨c, x⟩, nil⟩ :: (mid ++ ⟨.left, ⟨c', f⟩, s⟩ :: rest)) nil))
      (elems (plug (mid ++ ⟨.left, ⟨c', x⟩, s⟩ :: rest) nil)) (some f.addr) := by
  have hle := le_behind hsorted htoward
  rw [← List.cons_append, behind_append] at hle
  have hnone : behind (⟨d, ⟨c, x⟩, nil⟩ :: mid) = [] := by
    refine List.eq_nil_iff_forall_not_mem.mpr fun y hy => ?_
    rw [← List.cons_append, elems_plug, behind_append, List.map_append] at hsorted
    have hlt : y.item.key < f.key :=
      (List.pairwise_append.mp (List.pairwise_append.mp hsorted).2.1).2.2 _ (List.mem_map_of_mem hy) _ List.mem_cons_self
    rw [hkey] at hlt
    exact (hle y (List.mem_append_left _ hy)).not_gt hlt
  cases d with
  | left => cases hnone
  | right =>
    change behind mid = [] at hnone
    rw [← List.cons_append, elems_plug, elems_plug, ahead_append, behind_append, ahead_append, behind_append, hnone]
    have hremoved : Removed key (((ahead rest ++ ahead mid).map Cell.item ++ [x]) ++ f :: (elems s ++ (behind rest).map Cell.item))
        (((ahead rest ++ ahead mid).map Cell.item ++ [x]) ++ (elems s ++ (behind rest).map Cell.item)) (some f.addr) :=
      .removed hkey
    simpa [ahead, behind, inorder, hnone, elems] using hremoved

/-! ## The whole step -/

/-- **The node that is found leaves the tree.** -/
theorem unlink_spec (h : Sinking key es nodes path nil) (hpushed : Pushed path nil)
    (hsorted : es.Pairwise fun x y => x.key < y.key) (hfound : found key path = some a) :
    ∃ par nodes' t' n, parentOf path = some par ∧ unlink nodes a (up path) par = some nodes' ∧ Stored nodes' [] t' ∧
      Balanced t' n ∧ Removed key es (elems t') (some a) := by
  obtain _ | ⟨⟨d, ⟨c, x⟩, s⟩, path⟩ := path
  · cases hfound
  obtain ⟨n, hfits, hbal⟩ := h.fits
  obtain ⟨rfl, hfits'⟩ := exists_leaf hfits hbal hpushed
  obtain ⟨hx, -, hpath⟩ := h.stored.chain
  have hnodup : (x.addr :: pathAddrs path).Nodup := h.stored.nodup_path
  have hpos := h.elems_eq
  subst hpos
  by_cases hkey : x.key = key
  · obtain rfl : x.addr = a := by simpa [found, hkey] using hfound
    obtain ⟨nodes', hunlink, hpath'⟩ := unlink_self hx hpath hnodup
    obtain ⟨m, hbal'⟩ := hfits'.balanced .nil fun _ => rfl
    refine ⟨up path, nodes', plug path nil, m, rfl, hunlink, stored_plug.mp ⟨hpath', trivial, ?_⟩, hbal', ?_⟩
    · simpa using (List.nodup_cons.mp hnodup).2
    · have hremoved : Removed key ((ahead path).map Cell.item ++ x :: (behind path).map Cell.item)
          ((ahead path).map Cell.item ++ (behind path).map Cell.item) (some x.addr) := .removed hkey
      rw [plug_cons, elems_plug, elems_plug, elems_fork]
      simpa using hremoved
  · have hfound' : found key path = some a := by simpa [found, hkey] using hfound
    obtain ⟨mid, c', f, s, rest, rfl, hf, rfl⟩ := exists_found hfound' (List.forall_mem_cons.mp h.toward).2
    obtain ⟨nodes', hunlink, hpath'⟩ := unlink_above hx hpath hnodup
    obtain ⟨m, hbal'⟩ := (hfits'.of_item x).balanced .nil fun _ => rfl
    refine ⟨_, nodes', plug (mid ++ ⟨.left, ⟨c', x⟩, s⟩ :: rest) nil, m, rfl, hunlink,
      stored_plug.mp ⟨hpath', trivial, ?_⟩, hbal', removed_above hsorted h.toward hf⟩
    rw [addrs_nil, List.append_nil]
    exact nodup_above hnodup

/-- The tree after the way down, and after the node that is found has left it. -/
theorem exists_unlinked (h : Sinking key es nodes path nil) (hpushed : Pushed path nil)
    (hsorted : es.Pairwise fun x y => x.key < y.key) :
    ∃ nodes' t' n, Stored nodes' [] t' ∧ Balanced t' n ∧ Removed key es (elems t') (found key path) ∧
      (found key path = none ∧ nodes' = nodes ∨
        ∃ f par, found key path = some f ∧ parentOf path = some par ∧ unlink nodes f (up path) par = some nodes') := by
  cases hfound : found key path with
  | none =>
    obtain ⟨n, hfits, hbal⟩ := h.fits
    obtain ⟨m, hbal'⟩ := hfits.balanced hbal h.reds
    refine ⟨nodes, plug path nil, m, stored_plug.mp h.stored, hbal', ?_, .inl ⟨rfl, rfl⟩⟩
    rw [h.elems_eq]
    exact .absent (h.absent hsorted hfound)
  | some f =>
    obtain ⟨par, nodes', t', n, hparent, hunlink, hstored, hbal, hremoved⟩ := unlink_spec h hpushed hsorted hfound
    exact ⟨nodes', t', n, hstored, hbal, hremoved, .inr ⟨f, par, rfl, hparent, hunlink⟩⟩

end Found

end MojRbTree

end Db8
