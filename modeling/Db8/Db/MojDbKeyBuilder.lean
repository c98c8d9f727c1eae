import Db8.Db.MojDbKey

/-!
# Db.MojDbKeyBuilder

The loop of `MojDbKeyBuilder::keys`, which enumerates the combinations with one iterator for each
set of the stack.

* `step`, `walk`   — one turn of the loop, and the loop with a bound on its turns.
* `walk_visits`    — from a set on, the loop visits the combinations of the sets from there on.
* `keysOf_eq`      — the loop ends, with the keys `MojDbKeyBuilder.keys` has.
* `keysOf_spec`    — which keys these are, and when no two choices give the same.
-/

namespace Db8

open Lib

namespace MojDbKeyBuilder

/-! ## The loop -/

/-- A set with an iterator: `iter` are the values from `m_iter` up to `m_vals.end()`. -/
structure PropRec where
  vals : KeySet
  iter : List MojDbKey
  deriving DecidableEq

namespace PropRec

def reset (r : PropRec) : PropRec := { r with iter := r.vals.elems }

/-- `++m_iter`. -/
def advance (r : PropRec) : PropRec := { r with iter := r.iter.tail }

def push (vals : KeySet) : PropRec := ⟨vals, vals.elems⟩

end PropRec

/-- `m_stack` around `pos`: the records before it, the nearest first, the one it points at, and the
records behind it up to `last`; and the keys put so far. -/
structure State where
  before : List PropRec
  pos : PropRec
  after : List PropRec
  keysOut : KeySet

namespace State

/-- The values the iterators of the records stand on, from the beginning of the stack. -/
def key (s : State) : MojDbKey :=
  ((s.before.reverse ++ [s.pos]).map fun r => r.iter.headD []).flatten

end State

/-- One turn of the loop; `none` is the `break`. -/
def step (s : State) : Option State :=
  match s.pos.iter, s.before, s.after with
  | [], [], _ => none
  | [], r :: before, after => some ⟨before, r.advance, s.pos.reset :: after, s.keysOut⟩
  | _ :: _, before, [] => some ⟨before, s.pos.advance, [], s.keysOut.put s.key⟩
  | _ :: _, before, r :: after => some ⟨s.pos :: before, r, after, s.keysOut⟩

/-- The loop, for at most `fuel` turns. -/
def walk : Nat → State → Option KeySet
  | 0, _ => none
  | fuel + 1, s =>
    match step s with
    | none => some s.keysOut
    | some s' => walk fuel s'

/-- `keys` on the sets that were pushed. -/
def keysOf (fuel : Nat) (stack : List KeySet) : Option KeySet :=
  match stack.map PropRec.push with
  | [] => some .empty
  | first :: rest => walk fuel ⟨[], first.reset, rest.map PropRec.reset, .empty⟩

/-! ## What the loop visits -/

/-- Some number of turns leads from one state to the other, whatever is left of the fuel. -/
def Reaches (s t : State) : Prop := ∃ turns, ∀ fuel, walk (turns + fuel) s = walk fuel t

theorem Reaches.refl (s : State) : Reaches s s := ⟨0, fun fuel => by rw [Nat.zero_add]⟩

theorem Reaches.trans {s t u : State} (hst : Reaches s t) (htu : Reaches t u) : Reaches s u := by
  obtain ⟨m, hm⟩ := hst
  obtain ⟨n, hn⟩ := htu
  exact ⟨m + n, fun fuel => by rw [Nat.add_assoc, hm, hn]⟩

theorem Reaches.of_step {s t : State} (h : step s = some t) : Reaches s t := by
  refine ⟨1, fun fuel => ?_⟩
  rw [Nat.add_comm, walk, h]

/-- The current values of the records before the one at hand. -/
def chosen (before : List PropRec) : MojDbKey :=
  (before.reverse.map fun r => r.iter.headD []).flatten

theorem chosen_cons (r : PropRec) (before : List PropRec) :
    chosen (r :: before) = chosen before ++ r.iter.headD [] := by
  simp [chosen]

theorem State.key_eq (s : State) : s.key = chosen s.before ++ s.pos.iter.headD [] := by
  simp [State.key, chosen]

/-- The combinations of the values left at one record with those of the records behind it. -/
def remaining (iter : List MojDbKey) (after : List KeySet) : List MojDbKey :=
  iter.flatMap fun val => (combinations after).map (val ++ ·)

theorem remaining_cons (val : MojDbKey) (iter : List MojDbKey) (after : List KeySet) :
    remaining (val :: iter) after =
      (combinations after).map (val ++ ·) ++ remaining iter after := rfl

theorem remaining_elems (vals : KeySet) (after : List KeySet) :
    remaining vals.elems after = combinations (vals :: after) := rfl

theorem putAll_append (s : KeySet) (xs ys : List MojDbKey) :
    s.putAll (xs ++ ys) = (s.putAll xs).putAll ys := List.foldl_append

/-- With all records behind it at their beginning, the record at hand runs to its end; what is left
of it is combined with all the sets behind. Induction on the records behind, and on the values left:
for each of them the records behind run once. -/
theorem walk_visits (after : List KeySet) :
    ∀ (before : List PropRec) (vals : KeySet) (iter : List MojDbKey) (keysOut : KeySet),
      Reaches ⟨before, ⟨vals, iter⟩, after.map PropRec.push, keysOut⟩
        ⟨before, ⟨vals, []⟩, after.map PropRec.push,
          keysOut.putAll ((remaining iter after).map (chosen before ++ ·))⟩ := by
  induction after with
  | nil =>
    intro before vals iter
    induction iter with
    | nil => exact fun keysOut => .refl _
    | cons val iter ih =>
      intro keysOut
      have hstep : step ⟨before, ⟨vals, val :: iter⟩, [], keysOut⟩ =
          some ⟨before, ⟨vals, iter⟩, [], keysOut.put (chosen before ++ val)⟩ := by
        simp [step, State.key_eq, PropRec.advance]
      refine (Reaches.of_step hstep).trans ?_
      have h := ih (keysOut.put (chosen before ++ val))
      rw [remaining_cons, List.map_append, putAll_append]
      simpa [combinations, SortedSet.putAll] using h
  | cons next after ihafter =>
    intro before vals iter
    induction iter with
    | nil => exact fun keysOut => .refl _
    | cons val iter ih =>
      intro keysOut
      let r : PropRec := ⟨vals, val :: iter⟩
      have hpush : step ⟨before, r, (next :: after).map PropRec.push, keysOut⟩ =
          some ⟨r :: before, ⟨next, next.elems⟩, after.map PropRec.push, keysOut⟩ := rfl
      -- the sets behind run to their end with this value in front
      have hinner := ihafter (r :: before) next next.elems keysOut
      rw [remaining_elems, chosen_cons] at hinner
      have hpop : ∀ out, step ⟨r :: before, ⟨next, []⟩, after.map PropRec.push, out⟩ =
          some ⟨before, ⟨vals, iter⟩, (next :: after).map PropRec.push, out⟩ := fun out => rfl
      refine (Reaches.of_step hpush).trans (hinner.trans ((Reaches.of_step (hpop _)).trans ?_))
      have h := ih (keysOut.putAll ((combinations (next :: after)).map
        (chosen before ++ r.iter.headD [] ++ ·)))
      rw [remaining_cons, List.map_append, putAll_append, List.map_map]
      simpa [Function.comp_def, r, List.append_assoc] using h

/-- With turns enough, and with any more of them, the loop ends with the combinations of the sets. -/
theorem keysOf_eq (stack : List KeySet) :
    ∃ turns, ∀ fuel ≥ turns, keysOf fuel stack = some (keys stack) := by
  cases stack with
  | nil => exact ⟨0, fun fuel _ => rfl⟩
  | cons vals stack =>
    obtain ⟨turns, h⟩ := walk_visits stack [] vals vals.elems .empty
    refine ⟨turns + 1, fun fuel hfuel => ?_⟩
    obtain ⟨extra, rfl⟩ := Nat.exists_eq_add_of_le hfuel
    have hreset : (stack.map PropRec.push).map PropRec.reset = stack.map PropRec.push := by
      simp [PropRec.push, PropRec.reset]
    have hstart : keysOf (turns + 1 + extra) (vals :: stack) =
        walk (turns + (extra + 1)) ⟨[], ⟨vals, vals.elems⟩, stack.map PropRec.push, .empty⟩ := by
      rw [Nat.add_assoc, Nat.add_comm 1]
      simp only [keysOf, List.map_cons, hreset]
      rfl
    rw [hstart, h, walk]
    simp [step, keys, SortedSet.ofList, remaining_elems, chosen]

/-! ## The keys -/

/-- Parts from sets without prefixes are told apart in their concatenation. -/
theorem flatten_inj_of_prefixFree {stack : List KeySet} {parts parts' : List MojDbKey}
    (hfree : ∀ vals ∈ stack, ∀ p ∈ vals, ∀ q ∈ vals, p <+: q → p = q)
    (hparts : List.Forall₂ (· ∈ ·) parts stack) (hparts' : List.Forall₂ (· ∈ ·) parts' stack)
    (h : parts.flatten = parts'.flatten) : parts = parts' := by
  induction hparts generalizing parts' with
  | nil => exact (List.forall₂_nil_right_iff.mp hparts').symm
  | @cons part vals parts stack hpart hparts ih =>
    obtain ⟨part', rest', hpart', hrest', rfl⟩ := List.forall₂_cons_right_iff.mp hparts'
    rw [List.flatten_cons, List.flatten_cons] at h
    have hvals := hfree vals (by simp)
    -- one of the two first parts begins the other
    have hhead : part = part' := by
      rcases List.prefix_or_prefix_of_prefix (List.prefix_append part parts.flatten)
        (h ▸ List.prefix_append part' rest'.flatten) with hpre | hpre
      exacts [hvals _ hpart _ hpart' hpre, (hvals _ hpart' _ hpart hpre).symm]
    subst hhead
    rw [ih (fun v hv => hfree v (by simp [hv])) hrest' (List.append_cancel_left h)]

/-- The loop ends for every stack of sets. With at least one set the keys are the concatenations of
one value from each set, different ones for different choices if no value of a set begins another
of that set; without sets there are none. -/
theorem keysOf_spec (stack : List KeySet) :
    ∃ keysOut turns, (∀ fuel ≥ turns, keysOf fuel stack = some keysOut) ∧
      (stack ≠ [] → ∀ key, key ∈ keysOut ↔
        ∃ parts, List.Forall₂ (· ∈ ·) parts stack ∧ key = parts.flatten) ∧
      (stack = [] → keysOut = .empty) ∧
      ((∀ vals ∈ stack, ∀ p ∈ vals, ∀ q ∈ vals, p <+: q → p = q) →
        ∀ parts parts', List.Forall₂ (· ∈ ·) parts stack → List.Forall₂ (· ∈ ·) parts' stack →
          parts.flatten = parts'.flatten → parts = parts') := by
  obtain ⟨turns, h⟩ := keysOf_eq stack
  refine ⟨keys stack, turns, h, fun hstack key => mem_keys hstack, ?_, ?_⟩
  · rintro rfl
    rfl
  · exact fun hfree parts parts' => flatten_inj_of_prefixFree hfree

/-- Without sets there is one concatenation, the empty key, and the result does not have it. -/
theorem not_product_of_nil :
    ¬ ∀ fuel keysOut, keysOf fuel [] = some keysOut → ∀ key, key ∈ keysOut ↔
      ∃ parts, List.Forall₂ (· ∈ ·) parts ([] : List KeySet) ∧ key = parts.flatten := by
  intro h
  have hempty := (h 0 .empty rfl []).mpr ⟨[], .nil, rfl⟩
  exact SortedSet.not_mem_empty _ hempty

end MojDbKeyBuilder

end Db8
