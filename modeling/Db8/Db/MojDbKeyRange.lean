import Db8.Db.MojDbKey

/-!
# Db.MojDbKeyRange

What `increment` and the two `contains` mean, for all keys.

* `isLeast_increment`  — the increment of a key is the least key above all its extensions.
* `containsRange_iff`  — when `contains` on ranges is the inclusion of their keys.
* `rangeLaws_iff`      — both together, with the ranges for which they hold.
-/

namespace Db8

namespace MojDbKey

/-! ## The increment of a key -/

theorem increment_eq_nil_iff {key : MojDbKey} : increment key = [] ↔ ∀ b ∈ key, b = 255 := by
  induction key with
  | nil => simp
  | cons b key ih =>
    have hmax : ¬ b < 255 ↔ b = 255 := not_lt.trans (Fin.last_le_iff (n := 255))
    rw [increment_cons, List.forall_mem_cons, ← ih, ← hmax]
    split_ifs with hkey hb <;> simp_all

/-- What `increment` promises of one key. -/
structure IncrementLaw (key : MojDbKey) : Prop where
  /-- Its extensions are the keys from it up to its increment, which is the first key behind them. -/
  least : (∃ b ∈ key, b ≠ 255) →
    (∀ x, key ≤ x ∧ x < increment key ↔ key <+: x) ∧
      IsLeast {bound | ∀ x, key <+: x → x < bound} (increment key)
  /-- Nothing is above all extensions; as an upper key the result bounds no range. -/
  unbounded : (∀ b ∈ key, b = 255) → increment key = [] ∧
    ∀ lower x group, MojDbKeyRange.contains ⟨lower, increment key, group⟩ x = true ↔ lower ≤ x

theorem extension_iff {key x : MojDbKey} (hkey : increment key ≠ []) :
    key ≤ x ∧ x < increment key ↔ key <+: x := by
  rw [prefix_iff]
  simp [Below, hkey]

theorem isLeast_increment {key : MojDbKey} (hkey : increment key ≠ []) :
    IsLeast {bound | ∀ x, key <+: x → x < bound} (increment key) := by
  refine ⟨fun x hx => ((extension_iff hkey).mpr hx).2, fun bound hbound => ?_⟩
  -- a smaller bound would be below the key or one of its extensions
  by_contra hlt
  rcases (lt_increment_iff hkey).mp (not_le.mp hlt) with h | h
  · exact (hbound key (List.prefix_refl key)).asymm h
  · exact lt_irrefl bound (hbound bound h)

theorem incrementLaw (key : MojDbKey) : IncrementLaw key where
  least := by
    intro hb
    have hkey : increment key ≠ [] := by
      rw [ne_eq, increment_eq_nil_iff]
      push Not
      exact hb
    exact ⟨fun x => extension_iff hkey, isLeast_increment hkey⟩
  unbounded := by
    intro hb
    have hkey := increment_eq_nil_iff.mpr hb
    refine ⟨hkey, fun lower x group => ?_⟩
    rw [MojDbKeyRange.contains_iff, hkey]
    exact and_iff_left (.inl rfl)

end MojDbKey

/-! ## Ranges and their keys -/

namespace MojDbKeyRange

/-- From the lower key on and below the upper key; an empty upper key is no bound. -/
def keys (range : MojDbKeyRange) : Set MojDbKey :=
  {key | range.lowerKey ≤ key ∧ MojDbKey.Below key range.upperKey}

theorem mem_keys_iff {range : MojDbKeyRange} {key : MojDbKey} :
    key ∈ range.keys ↔ range.contains key = true := contains_iff.symm

/-- A range has keys just when it has its lower key. -/
theorem keys_nonempty_iff {range : MojDbKeyRange} :
    range.keys.Nonempty ↔ MojDbKey.Below range.lowerKey range.upperKey := by
  constructor
  · rintro ⟨key, hlo, hempty | hlt⟩
    exacts [.inl hempty, .inr (hlo.trans_lt hlt)]
  · exact fun h => ⟨range.lowerKey, le_refl _, h⟩

theorem containsRange_eq_true {outer range : MojDbKeyRange} :
    outer.containsRange range = true ↔
      outer.contains range.lowerKey = true ∧
        (outer.upperKey = [] ∨ range.upperKey ≤ outer.upperKey) := by
  simp [containsRange]

/-- Between ranges that end the same way, of which the second has keys. -/
theorem keys_subset_iff {outer range : MojDbKeyRange} (hkeys : range.keys.Nonempty) :
    range.keys ⊆ outer.keys ↔
      outer.contains range.lowerKey = true ∧
        (outer.upperKey = [] ∨ range.upperKey ≠ [] ∧ range.upperKey ≤ outer.upperKey) := by
  have hlower := keys_nonempty_iff.mp hkeys
  constructor
  · intro hsub
    refine ⟨mem_keys_iff.mp (hsub ⟨le_refl _, hlower⟩), ?_⟩
    by_contra hcut
    push Not at hcut
    obtain ⟨hbounded, hcut⟩ := hcut
    -- the larger of the lower key and the bound of the outer range is in the range only
    have hmem : max range.lowerKey outer.upperKey ∈ range.keys := by
      refine ⟨le_max_left _ _, ?_⟩
      by_cases hempty : range.upperKey = []
      · exact .inl hempty
      · exact .inr (max_lt (hlower.resolve_left hempty) (hcut hempty))
    exact (((hsub hmem).2).resolve_left hbounded).not_ge (le_max_right _ _)
  · rintro ⟨hlo, hcut⟩ key ⟨hkey, hbelow⟩
    refine ⟨(contains_iff.mp hlo).1.trans hkey, ?_⟩
    rcases hcut with hempty | ⟨hne, hle⟩
    · exact .inl hempty
    · exact .inr ((hbelow.resolve_left hne).trans_le hle)

/-- `contains` on ranges says whether all keys of the second range are in the first. -/
def InclusionLaw (outer range : MojDbKeyRange) : Prop :=
  outer.containsRange range = true ↔ range.keys ⊆ outer.keys

/-- A range without keys has its lower key in the outer range; a range with keys that goes on
without end does not begin in an outer range that ends. -/
def EndsCompared (outer range : MojDbKeyRange) : Prop :=
  if MojDbKey.Below range.lowerKey range.upperKey then
    ¬ (range.upperKey = [] ∧ outer.upperKey ≠ [] ∧ outer.contains range.lowerKey = true)
  else outer.contains range.lowerKey = true

instance (outer range : MojDbKeyRange) : Decidable (EndsCompared outer range) := by
  unfold EndsCompared
  infer_instance

/-- The bounds of a range without keys are in any range that has its lower key. -/
theorem containsRange_of_empty {outer range : MojDbKeyRange}
    (hempty : ¬ MojDbKey.Below range.lowerKey range.upperKey) :
    outer.containsRange range = outer.contains range.lowerKey := by
  rw [Bool.eq_iff_iff, containsRange_eq_true, and_iff_left_iff_imp]
  intro hlo
  have hle : range.upperKey ≤ range.lowerKey := not_lt.mp fun h => hempty (.inr h)
  exact (contains_iff.mp hlo).2.imp_right fun h => hle.trans h.le

theorem inclusionLaw_iff {outer range : MojDbKeyRange} :
    InclusionLaw outer range ↔ EndsCompared outer range := by
  unfold InclusionLaw EndsCompared
  by_cases hkeys : MojDbKey.Below range.lowerKey range.upperKey
  · rw [if_pos hkeys, keys_subset_iff (keys_nonempty_iff.mpr hkeys), containsRange_eq_true]
    by_cases hempty : range.upperKey = []
    · by_cases houter : outer.upperKey = []
      · simp [hempty, houter]
      · cases hlo : outer.contains range.lowerKey <;> simp [hempty, houter]
    · simp [hempty]
  · have hnone : range.keys = ∅ :=
      Set.not_nonempty_iff_eq_empty.mp fun h => hkeys (keys_nonempty_iff.mp h)
    rw [if_neg hkeys, containsRange_of_empty hkeys, hnone]
    simp

/-- The increment of every key is what it must be; two ranges are compared as their sets of keys
just when a range that goes on without end is not taken for one that ends at once. -/
theorem rangeLaws_iff (key : MojDbKey) (outer range : MojDbKeyRange) :
    MojDbKey.IncrementLaw key ∧ InclusionLaw outer range ↔ EndsCompared outer range := by
  rw [inclusionLaw_iff]
  exact and_iff_right (MojDbKey.incrementLaw key)

/-- The range from `01` on without end is taken to be in the range from `01` up to `02`. -/
theorem not_inclusionLaw_open :
    ¬ (MojDbKey.IncrementLaw [1] ∧ InclusionLaw ⟨[1], [2], 0⟩ ⟨[1], [], 0⟩) := by
  rintro ⟨-, h⟩
  exact absurd (inclusionLaw_iff.mp h) (by decide)

end MojDbKeyRange

end Db8
