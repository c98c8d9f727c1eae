import Db8.Core.MojHashBaseTable
import Db8.Lib.RefCount

/-!
# Core.MojHashBaseShared

The memory with all tables, and containers that share them.

* `Ok`             — each table is one, with its own nodes, and counts the containers that point to it.
* `Ok.modify`      — what is written in one table changes no other.
* `Ok.release`, `Ok.attach` — a container gives its table up, or gets one.
* `Ok.ensureWritable` — a container gets a table that no other one has, with the same content.
-/

namespace Db8

open Lib

namespace MojHashBase

variable {κ α ι : Type} [Fintype ι]

variable (hash : κ → Nat)

/-- `nodes` are the nodes of the tables. A table that is being copied into, `copy`, is pointed to once more. -/
structure Ok (h : Heap κ α) (impls : ι → Option Nat) (nodes : Nat → List Nat) (copy : Option Nat) : Prop where
  tables : ∀ i m, h.impls i = some m → Table hash h i m (nodes i)
  refcount : ∀ i m, h.impls i = some m → m.refcount = refs impls i + (if copy = some i then 1 else 0) ∧ 0 < m.refcount
  live : ∀ c i, impls c = some i → ∃ m, h.impls i = some m
  apart : ∀ i j a, a ∈ nodes i → a ∈ nodes j → i = j
  nodes_lt : ∀ i, ∀ a ∈ nodes i, a < h.newNode
  impls_lt : ∀ i m, h.impls i = some m → i < h.newImpl
  nodes_nil : ∀ i, h.impls i = none → nodes i = []

variable {hash} {h h' : Heap κ α} {impls : ι → Option Nat} {nodes : Nat → List Nat} {copy : Option Nat} {i : Nat} {m m' : Impl}
  {l' : List Nat}

namespace Ok

theorem length_le (hok : Ok hash h impls nodes copy) (him : h.impls i = some m) : (nodes i).length ≤ h.newNode := by
  have hsub : nodes i ⊆ List.range h.newNode := fun a ha => List.mem_range.mpr (hok.nodes_lt i a ha)
  simpa using ((hok.tables i m him).nodup.subperm hsub).length_le

/-- No table is made yet where the next one goes. -/
theorem impls_newImpl (hok : Ok hash h impls nodes copy) : h.impls h.newImpl = none := by
  cases hi : h.impls h.newImpl with
  | none => rfl
  | some m => exact absurd (hok.impls_lt _ m hi) (lt_irrefl _)

theorem refs_newImpl (hok : Ok hash h impls nodes copy) : refs impls h.newImpl = 0 := by
  refine refs_eq_zero fun d hd => ?_
  obtain ⟨m, hm⟩ := hok.live d _ hd
  rw [hok.impls_newImpl] at hm
  cases hm

/-- One table is written to, made or freed, with nodes that no other one has. -/
theorem modify {impls' : ι → Option Nat} {copy' : Option Nat} (hok : Ok hash h impls nodes copy)
    (ht : ∀ m, h'.impls i = some m → Table hash h' i m l' ∧
      m.refcount = refs impls' i + (if copy' = some i then 1 else 0) ∧ 0 < m.refcount ∧ i < h'.newImpl)
    (hnil : h'.impls i = none → l' = [])
    (hother : ∀ j, j ≠ i → refs impls' j + (if copy' = some j then 1 else 0) = refs impls j + if copy = some j then 1 else 0)
    (hlive : ∀ c j, impls' c = some j → ∃ m, h'.impls j = some m)
    (himpls : ∀ j, j ≠ i → h'.impls j = h.impls j) (hnodes : ∀ j, j ≠ i → ∀ a ∈ nodes j, h'.nodes a = h.nodes a)
    (hl : ∀ a ∈ l', a < h'.newNode ∧ ∀ j, j ≠ i → a ∉ nodes j) (hnew : h.newNode ≤ h'.newNode)
    (hnewImpl : h.newImpl ≤ h'.newImpl) : Ok hash h' impls' (Function.update nodes i l') copy' := by
  have hold : ∀ j, j ≠ i → Function.update nodes i l' j = nodes j := fun j hj => Function.update_of_ne hj _ _
  have hself : Function.update nodes i l' i = l' := Function.update_self _ _ _
  refine ⟨fun j mj hj => ?_, fun j mj hj => ?_, hlive, fun j k a hj hk => ?_, fun j a ha => ?_, fun j mj hj => ?_,
    fun j hj => ?_⟩
  · by_cases hji : j = i
    · subst hji
      rw [hself]
      exact (ht mj hj).1
    · rw [hold j hji]
      exact (hok.tables j mj (himpls j hji ▸ hj)).congr (himpls j hji) (hnodes j hji)
  · by_cases hji : j = i
    · subst hji
      exact ⟨(ht mj hj).2.1, (ht mj hj).2.2.1⟩
    · rw [hother j hji]
      exact hok.refcount j mj (himpls j hji ▸ hj)
  · by_cases hji : j = i
    · subst hji
      by_contra hne
      rw [hself] at hj
      rw [hold k (Ne.symm hne)] at hk
      exact (hl a hj).2 k (Ne.symm hne) hk
    · rw [hold j hji] at hj
      by_cases hki : k = i
      · subst hki
        rw [hself] at hk
        exact absurd hj ((hl a hk).2 j hji)
      · rw [hold k hki] at hk
        exact hok.apart j k a hj hk
  · by_cases hji : j = i
    · subst hji
      exact (hl a (hself ▸ ha)).1
    · exact (hok.nodes_lt j a (hold j hji ▸ ha)).trans_le hnew
  · by_cases hji : j = i
    · subst hji
      exact (ht mj hj).2.2.2
    · exact (hok.impls_lt j mj (himpls j hji ▸ hj)).trans_le hnewImpl
  · by_cases hji : j = i
    · subst hji
      rw [hself]
      exact hnil hj
    · rw [hold j hji]
      exact hok.nodes_nil j (himpls j hji ▸ hj)

end Ok

/-! ## Containers get and give up tables -/

variable [DecidableEq ι]

namespace Ok

/-- A container gives its table up. -/
theorem release {c : ι} (hok : Ok hash h impls nodes copy) (hc : impls c = some i) :
    ∃ h' nodes', MojHashBase.release h (some i) = some h' ∧ Ok hash h' (Function.update impls c none) nodes' copy ∧
      (∀ j m, h'.impls j = some m → nodes' j = nodes j ∧ ∀ a ∈ nodes j, h'.nodes a = h.nodes a) ∧
      (∀ j, j ≠ i → h'.impls j = h.impls j) ∧ h'.newNode = h.newNode ∧ h'.newImpl = h.newImpl := by
  obtain ⟨m, him⟩ := hok.live c i hc
  obtain ⟨href, hpos⟩ := hok.refcount i m him
  have hupdate := refs_update impls c none i
  rw [if_pos hc, if_neg nofun] at hupdate
  have hother : ∀ j, j ≠ i → refs (Function.update impls c none) j + (if copy = some j then 1 else 0) =
      refs impls j + if copy = some j then 1 else 0 := by
    intro j hj
    rw [refs_update_of_ne (p := none) (fun he => hj (Option.some.inj (he.symm.trans hc))) nofun]
  have ht := hok.tables i m him
  by_cases hlast : m.refcount - 1 = 0
  · obtain ⟨h₁, hdelete, hnodes, himpls, hnewNode, hnewImpl⟩ := exists_deleteNodeList ht.linked.chain (hok.length_le him)
    have hapart : ∀ j, j ≠ i → ∀ a ∈ nodes j, h₁.nodes a = h.nodes a := fun j hj a ha =>
      hnodes a fun hai => hj (hok.apart j i a ha hai)
    have hnone : refs (Function.update impls c none) i = 0 := by omega
    have himpls' : ∀ j, j ≠ i → (h₁.deleteImpl i).impls j = h.impls j := fun j hj =>
      (Function.update_of_ne hj _ _).trans (congrFun himpls j)
    have hi' : (h₁.deleteImpl i).impls i = none := Function.update_self _ _ _
    refine ⟨h₁.deleteImpl i, Function.update nodes i [], ?_, ?_, fun j mj hj => ?_, himpls', hnewNode, hnewImpl⟩
    · simp [MojHashBase.release, him, hlast, hdelete]
    · refine hok.modify (fun mi hmi => ?_) (fun _ => rfl) hother (fun d j hd => ?_) himpls' hapart (by simp) hnewNode.ge
        hnewImpl.ge
      · rw [hi'] at hmi
        cases hmi
      · have hji : j ≠ i := by
          rintro rfl
          exact absurd (refs_pos hd) (by omega)
        rw [himpls' j hji]
        rcases eq_or_ne d c with rfl | hdc
        · simp at hd
        · exact hok.live d j (by rwa [Function.update_of_ne hdc] at hd)
    · have hji : j ≠ i := by
        rintro rfl
        rw [hi'] at hj
        cases hj
      exact ⟨Function.update_of_ne hji _ _, hapart j hji⟩
  · let m' : Impl := { m with refcount := m.refcount - 1 }
    have hi' : (h.setImpl i m').impls i = some m' := by simp
    have himpls' : ∀ j, j ≠ i → (h.setImpl i m').impls j = h.impls j := fun j hj => by simp [hj]
    have ht' : Table hash (h.setImpl i m') i m' (nodes i) :=
      ⟨hi', ht.linked, ht.size_eq, ht.pos, ht.buckets, ht.keys⟩
    refine ⟨h.setImpl i m', nodes, ?_, ?_, fun _ _ _ => ⟨rfl, fun _ _ => rfl⟩, himpls', rfl, rfl⟩
    · simp [MojHashBase.release, him, hlast, m']
    · rw [← Function.update_eq_self i nodes]
      refine hok.modify (fun mi hmi => ?_) (fun hnone => ?_) hother (fun d j hd => ?_) himpls' (fun _ _ _ _ => rfl)
        (fun a ha => ⟨hok.nodes_lt i a ha, fun j hj haj => hj (hok.apart j i a haj ha)⟩) le_rfl le_rfl
      · obtain rfl := Option.some.inj (hmi.symm.trans hi')
        refine ⟨ht', ?_, ?_, hok.impls_lt i m him⟩
        · change m.refcount - 1 = _
          omega
        · change 0 < m.refcount - 1
          omega
      · rw [hi'] at hnone
        cases hnone
      · rcases eq_or_ne j i with rfl | hji
        · exact ⟨m', hi'⟩
        · rw [himpls' j hji]
          rcases eq_or_ne d c with rfl | hdc
          · simp at hd
          · exact hok.live d j (by rwa [Function.update_of_ne hdc] at hd)

/-- A container gets the table that was copied. -/
theorem attach {c : ι} {j : Nat} (hok : Ok hash h impls nodes (some j)) (hc : impls c = none)
    (hj : ∃ m, h.impls j = some m) : Ok hash h (Function.update impls c (some j)) nodes none := by
  refine ⟨hok.tables, fun k mk hk => ?_, fun d k hd => ?_, hok.apart, hok.nodes_lt, hok.impls_lt, hok.nodes_nil⟩
  · obtain ⟨href, hpos⟩ := hok.refcount k mk hk
    have hupdate := refs_update impls c (some j) k
    rw [if_neg (by simp [hc])] at hupdate
    rw [if_neg nofun]
    omega
  · rcases eq_or_ne d c with rfl | hdc
    · rw [Function.update_self] at hd
      exact Option.some.inj hd ▸ hj
    · exact hok.live d k (by rwa [Function.update_of_ne hdc] at hd)

/-- A container gets the table of another one. -/
theorem init {c : ι} {j : Nat} (hok : Ok hash h impls nodes none) (hc : impls c = none) (hj : h.impls j = some m) :
    ∃ h', MojHashBase.init h (some j) = some h' ∧ Ok hash h' (Function.update impls c (some j)) nodes none ∧
      h'.nodes = h.nodes := by
  obtain ⟨href, hpos⟩ := hok.refcount j m hj
  have ht := hok.tables j m hj
  let m' : Impl := { m with refcount := m.refcount + 1 }
  have hj' : (h.setImpl j m').impls j = some m' := by simp
  have himpls' : ∀ k, k ≠ j → (h.setImpl j m').impls k = h.impls k := fun k hk => by simp [hk]
  have hupdate := refs_update impls c (some j) j
  rw [if_neg (by simp [hc]), if_pos rfl] at hupdate
  refine ⟨h.setImpl j m', by simp [MojHashBase.init, hj, m'], ?_, rfl⟩
  rw [← Function.update_eq_self j nodes]
  refine hok.modify (fun mj hmj => ?_) (fun hnone => ?_) (fun k hk => ?_) (fun d k hd => ?_) himpls' (fun _ _ _ _ => rfl)
    (fun a ha => ⟨hok.nodes_lt j a ha, fun k hk hak => hk (hok.apart k j a hak ha)⟩) le_rfl le_rfl
  · obtain rfl := Option.some.inj (hmj.symm.trans hj')
    refine ⟨⟨hj', ht.linked, ht.size_eq, ht.pos, ht.buckets, ht.keys⟩, ?_, Nat.succ_pos _, hok.impls_lt j m hj⟩
    change m.refcount + 1 = _
    simp only [if_neg (nofun : ¬(none : Option Nat) = some j)] at href ⊢
    omega
  · rw [hj'] at hnone
    cases hnone
  · rw [refs_update_of_ne (by simp [hc]) fun he => hk (Option.some.inj he).symm]
  · rcases eq_or_ne k j with rfl | hkj
    · exact ⟨m', hj'⟩
    · rw [himpls' k hkj]
      rcases eq_or_ne d c with rfl | hdc
      · rw [Function.update_self] at hd
        exact absurd (Option.some.inj hd).symm hkj
      · exact hok.live d k (by rwa [Function.update_of_ne hdc] at hd)

end Ok

/-! ## Copies -/

/-- The nodes that a container shows. -/
def nodesOf (nodes : Nat → List Nat) : Option Nat → List Nat
  | none => []
  | some i => nodes i

namespace Ok

/-- What a container writes to is its own, with the content it had; what was there before stays as it is. -/
theorem ensureWritable (hok : Ok hash h impls nodes none) (c : ι) :
    ∃ h' p nodes', MojHashBase.ensureWritable hash h (impls c) = some (h', p) ∧
      Ok hash h' (Function.update impls c p) nodes' none ∧ (∀ i, p = some i → refs (Function.update impls c p) i = 1) ∧
      ((nodesOf nodes' p).map (entryOf h')).Perm ((nodesOf nodes (impls c)).map (entryOf h)) ∧
      numBuckets h' p = numBuckets h (impls c) ∧
      ∀ k m, h.impls k = some m → nodes' k = nodes k ∧ ∀ a ∈ nodes k, h'.nodes a = h.nodes a := by
  cases hc : impls c with
  | none =>
    have hupdate : Function.update impls c none = impls := hc ▸ Function.update_eq_self c impls
    exact ⟨h, none, nodes, rfl, hupdate.symm ▸ hok, nofun, .refl _, rfl, fun _ _ _ => ⟨rfl, fun _ _ => rfl⟩⟩
  | some i =>
    have hupdate : Function.update impls c (some i) = impls := hc ▸ Function.update_eq_self c impls
    obtain ⟨m, him⟩ := hok.live c i hc
    obtain ⟨href, hpos⟩ := hok.refcount i m him
    have ht := hok.tables i m him
    rw [if_neg nofun, Nat.add_zero] at href
    by_cases hshared : 1 < m.refcount
    · let j := h.newImpl
      let h₁ := h.allocImpl m.buckets.length
      let m₁ : Impl := ⟨List.replicate m.buckets.length none, none, 0, 1⟩
      have ht₁ : Table hash h₁ j m₁ [] := ⟨Function.update_self _ _ _, .nil, rfl, by simpa [m₁] using ht.pos, .nil _, List.nodup_nil⟩
      have hlen := hok.length_le him
      obtain ⟨h₂, m₂, l₂, hloop, ht₂, href₂, hnum₂, hentries₂, hl₂, hold₂, himpls₂, hnewNode₂, hnewImpl₂⟩ :=
        ht₁.cloneLoop (p := m.begin) ht.linked.chain nofun
          (fun a ha => ⟨hok.nodes_lt i a ha, List.not_mem_nil⟩) (by rw [List.append_nil]; exact ht.keys) hlen
      have hjnone : h.impls j = none := hok.impls_newImpl
      have hjrefs : refs impls j = 0 := hok.refs_newImpl
      have himpls : ∀ k, k ≠ j → h₂.impls k = h.impls k := fun k hk =>
        (himpls₂ k hk).trans (Function.update_of_ne hk _ _)
      have hold : ∀ k, ∀ a ∈ nodes k, h₂.nodes a = h.nodes a := fun k a ha =>
        hold₂ a (hok.nodes_lt k a ha) List.not_mem_nil
      have hok₂ : Ok hash h₂ impls (Function.update nodes j l₂) (some j) := by
        refine hok.modify (fun mj hmj => ?_) (fun hnone => ?_) (fun k hk => ?_) (fun d k hd => ?_) himpls
          (fun k _ => hold k) (fun a ha => ?_) hnewNode₂ ?_
        · obtain rfl := Option.some.inj (hmj.symm.trans ht₂.impl_eq)
          have hone : m₁.refcount = 1 := rfl
          refine ⟨ht₂, ?_, by omega, ?_⟩
          · rw [if_pos rfl]
            omega
          · rw [hnewImpl₂]
            exact Nat.lt_succ_self _
        · rw [ht₂.impl_eq] at hnone
          cases hnone
        · rw [if_neg fun he => hk (Option.some.inj he).symm, if_neg nofun]
        · obtain ⟨mk, hmk⟩ := hok.live d k hd
          have hkj : k ≠ j := by
            rintro rfl
            rw [hjnone] at hmk
            cases hmk
          exact ⟨mk, (himpls k hkj).trans hmk⟩
        · obtain ⟨hmem, hlt⟩ := hl₂ a ha
          refine ⟨hlt, fun k _ hak => ?_⟩
          exact absurd (hok.nodes_lt k a hak) (not_lt.mpr (hmem.resolve_left List.not_mem_nil))
        · rw [hnewImpl₂]
          exact Nat.le_succ _
      obtain ⟨h₃, nodes₃, hrelease, hok₃, hkeep₃, himpls₃, -, -⟩ := hok₂.release hc
      have hij : i ≠ j := by
        intro hij
        rw [hij, hjnone] at him
        cases him
      have hj₃ : h₃.impls j = some m₂ := (himpls₃ j hij.symm).trans ht₂.impl_eq
      obtain ⟨hnodesj, hsamej⟩ := hkeep₃ j m₂ hj₃
      rw [Function.update_self] at hnodesj hsamej
      have hi₃ : ∃ mi, h₃.impls i = some mi := by
        have hupdate := refs_update impls c none i
        rw [if_pos hc, if_neg nofun] at hupdate
        obtain ⟨d, hd⟩ := Finset.card_pos.mp (by omega : 0 < refs (Function.update impls c none) i)
        exact hok₃.live d i (Finset.mem_filter.mp hd).2
      have hok' := hok₃.attach (c := c) (Function.update_self _ _ _) ⟨m₂, hj₃⟩
      rw [Function.update_idem] at hok'
      refine ⟨h₃, some j, nodes₃, ?_, hok', fun k hk => ?_, ?_, ?_, fun k mk hk => ?_⟩
      · simp only [MojHashBase.ensureWritable, him, Option.bind_eq_bind, Option.bind_some, if_pos hshared, clone]
        change (((MojHashBase.cloneLoop hash h₁ j h.newNode m.begin).bind _).bind _) = _
        rw [hloop]
        simp [hrelease, j]
      · obtain rfl := Option.some.inj hk
        have hupdate := refs_update impls c (some j) j
        rw [if_neg (by simp [hc, hij]), if_pos rfl] at hupdate
        omega
      · have hentries : l₂.map (entryOf h₃) = l₂.map (entryOf h₂) :=
          List.map_congr_left fun a ha => congrArg (Option.map _) (hsamej a ha)
        simp only [nodesOf]
        rw [hnodesj, hentries, hentries₂, List.map_nil, List.append_nil]
        exact List.reverse_perm _
      · have hnum : m₂.buckets.length = m.buckets.length := by simpa [m₁] using hnum₂
        simp [numBuckets, hj₃, him, hnum]
      · have hkj : k ≠ j := by
          rintro rfl
          rw [hjnone] at hk
          cases hk
        have hk₃ : ∃ mk, h₃.impls k = some mk := by
          rcases eq_or_ne k i with rfl | hki
          · exact hi₃
          · exact ⟨mk, (himpls₃ k hki).trans ((himpls k hkj).trans hk)⟩
        obtain ⟨mk', hmk'⟩ := hk₃
        obtain ⟨hnodesk, hsamek⟩ := hkeep₃ k mk' hmk'
        rw [Function.update_of_ne hkj] at hnodesk hsamek
        exact ⟨hnodesk, fun a ha => (hsamek a ha).trans (hold k a ha)⟩
    · refine ⟨h, some i, nodes, ?_, hupdate.symm ▸ hok, fun k hk => ?_, .refl _, rfl, fun _ _ _ => ⟨rfl, fun _ _ => rfl⟩⟩
      · simp [MojHashBase.ensureWritable, him, hshared]
      · rw [hupdate, ← Option.some.inj hk]
        omega

end Ok

end MojHashBase

end Db8
