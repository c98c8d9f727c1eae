import Db8.Db.MojDbPermissionEngine
import Db8.Lib.Links

/-!
# Db.MojDbPermissionCheck

What a check of permissions answers after any puts, and what a kind makes of the answer.

* `PutCall`, `putAll`  — calls of `put`, with those that are rejected.
* `given`              — the operations that were put last for a type, an object and a caller.
* `matching_eq_some`   — the entry that answers: the caller's own, or the longest pattern that matches.
* `checkPermission`    — `MojDbKind::checkPermission` along the first supers.
* `check_answers`      — both, after any calls of `put`.
-/

namespace Db8

open Lib MojDbQuotaEngine

/-! ## Patterns -/

namespace MojDbPutHandler

/-- `'.'`. -/
def dot : MojByte := 46

/-- The part before the `*` is empty or ends in a dot, and the caller begins with it. -/
def Matches (pattern caller : MojString) : Prop :=
  ∃ head rest, pattern.chars = head ++ [wildcard] ∧ caller.chars = head ++ rest ∧ (head = [] ∨ head.getLast? = some dot)

theorem matchWildcard_iff_append {expr val : MojString} :
    matchWildcard expr val = true ↔ ∃ head rest, expr.chars = head ++ [wildcard] ∧ val.chars = head ++ rest := by
  unfold matchWildcard
  rw [decide_eq_true_eq]
  constructor
  · intro h
    obtain ⟨hlast, -, htake⟩ := h
    refine ⟨expr.chars.dropLast, val.chars.drop (expr.chars.length - 1), ?_, ?_⟩
    · exact (List.dropLast_append_getLast? _ hlast).symm
    · rw [← htake, List.take_append_drop]
  · intro h
    obtain ⟨head, rest, hexpr, hval⟩ := h
    rw [hexpr, hval]
    simp

/-- An accepted caller with a `*` ends in it, alone or after a dot. -/
theorem head_of_validateWildcard {expr : MojString} {err : MojErr} {head : List MojByte}
    (h : validateWildcard expr err = .ok ()) (hexpr : expr.chars = head ++ [wildcard]) :
    head = [] ∨ head.getLast? = some dot := by
  unfold validateWildcard at h
  split_ifs at h with hempty
  cases hpos : expr.chars.idxOf? 42 with
  | none =>
    rw [List.idxOf?_eq_none_iff, hexpr] at hpos
    exact absurd (List.mem_append_right head (List.mem_singleton_self _)) hpos
  | some pos =>
    rw [hpos] at h
    dsimp only at h
    split_ifs at h with hbad
    rw [not_or, not_not, not_and] at hbad
    obtain ⟨hend, hdot⟩ := hbad
    have hlen : pos = head.length := by
      rw [hend, hexpr, List.length_append, List.length_singleton, Nat.add_sub_cancel]
    cases head with
    | nil => exact .inl rfl
    | cons b bs =>
      right
      have hne : pos ≠ 0 := by
        rw [hlen]
        exact Nat.succ_ne_zero _
      have hat := not_not.mp (hdot hne)
      rw [hexpr, hlen, List.getElem?_append_left (by simp)] at hat
      rw [List.getLast?_eq_getElem?]
      exact hat

theorem matchWildcard_iff {pattern caller : MojString} {err : MojErr} (h : validateWildcard pattern err = .ok ()) :
    matchWildcard pattern caller = true ↔ Matches pattern caller := by
  rw [matchWildcard_iff_append]
  constructor
  · intro hmatch
    obtain ⟨head, rest, hexpr, hval⟩ := hmatch
    exact ⟨head, rest, hexpr, hval, head_of_validateWildcard h hexpr⟩
  · intro hmatch
    obtain ⟨head, rest, hexpr, hval, -⟩ := hmatch
    exact ⟨head, rest, hexpr, hval⟩

/-- Two patterns of one length that match one caller are the same. -/
theorem matchWildcard_unique {p q caller : MojString} (hp : matchWildcard p caller = true)
    (hq : matchWildcard q caller = true) (hlen : p.chars.length = q.chars.length) : p = q := by
  obtain ⟨head, rest, hexpr, hval⟩ := matchWildcard_iff_append.mp hp
  obtain ⟨head', rest', hexpr', hval'⟩ := matchWildcard_iff_append.mp hq
  rw [hexpr, hexpr', List.length_append, List.length_append] at hlen
  have hhead := List.append_inj_left (hval.symm.trans hval') (Nat.add_right_cancel hlen)
  obtain ⟨pc, hpnul⟩ := p
  obtain ⟨qc, hqnul⟩ := q
  dsimp only at hexpr hexpr'
  subst hexpr hexpr' hhead
  rfl

theorem length_le_of_le {k l : CallerKey} (h : k ≤ l) : l.name.chars.length ≤ k.name.chars.length := by
  have hle : toLex (OrderDual.toDual k.name.chars.length, k.name) ≤ toLex (OrderDual.toDual l.name.chars.length, l.name) := h
  rw [Prod.Lex.toLex_le_toLex] at hle
  cases hle with
  | inl hlt => exact (OrderDual.toDual_lt_toDual.mp hlt).le
  | inr heq => exact (OrderDual.toDual_inj.mp heq.1).ge

end MojDbPutHandler

open MojDbPutHandler

namespace MojDbPermissionEngine

/-! ## The entry that answers -/

abbrev CallerEntry := MojDbPutHandler.CallerKey × OperationMap

/-- The entries come longest first, so the first pattern that matches is the longest one. -/
theorem length_le_of_first {callers : CallerMap} {caller other : MojString} {first : CallerEntry}
    (hfirst : (callers.entries.find? fun e : CallerEntry => matchWildcard e.1.name caller) = some first)
    (hother : callers.find ⟨other⟩ ≠ none) (hmatch : matchWildcard other caller = true) :
    other.chars.length ≤ first.1.name.chars.length := by
  obtain ⟨-, before, after, hsplit, hbefore⟩ := List.find?_eq_some_iff_append.mp hfirst
  obtain ⟨m, hm⟩ := Option.ne_none_iff_exists'.mp hother
  have hmem := SortedMap.mem_entries.mpr hm
  have hsorted := callers.sorted
  rw [hsplit] at hmem hsorted
  cases List.mem_append.mp hmem with
  | inl hb =>
    have hno := hbefore _ hb
    rw [hmatch] at hno
    cases hno
  | inr hrest =>
    cases List.mem_cons.mp hrest with
    | inl he => rw [← he]
    | inr ha => exact length_le_of_le ((List.pairwise_cons.mp (List.pairwise_append.mp hsorted).2.1).1 _ ha).le

theorem matches_first {callers : CallerMap} {caller : MojString} {first : CallerEntry}
    (hfirst : (callers.entries.find? fun e : CallerEntry => matchWildcard e.1.name caller) = some first) :
    matchWildcard first.1.name caller = true := by
  have h := List.find?_some hfirst
  exact h

theorem matching_eq_some {callers : CallerMap} {caller : MojString} {opMap : OperationMap} :
    matching callers caller = some opMap ↔
      callers.find ⟨caller⟩ = some opMap ∨
        callers.find ⟨caller⟩ = none ∧ ∃ pattern, callers.find ⟨pattern⟩ = some opMap ∧
          matchWildcard pattern caller = true ∧ ∀ other, callers.find ⟨other⟩ ≠ none → matchWildcard other caller = true →
            other.chars.length ≤ pattern.chars.length := by
  unfold matching
  cases hown : callers.find ⟨caller⟩ with
  | some own => simp
  | none =>
    simp only [reduceCtorEq, true_and, false_or, Option.map_eq_some_iff]
    constructor
    · intro h
      obtain ⟨⟨⟨pattern⟩, m⟩, hfirst, rfl⟩ := h
      have hmem := SortedMap.mem_entries.mp (List.mem_of_find?_eq_some hfirst)
      exact ⟨pattern, hmem, matches_first hfirst, fun other => length_le_of_first hfirst⟩
    · intro h
      obtain ⟨pattern, hfind, hmatch, hlongest⟩ := h
      cases hfirst : callers.entries.find? fun e : CallerEntry => matchWildcard e.1.name caller with
      | none => exact absurd hmatch (List.find?_eq_none.mp hfirst _ (SortedMap.mem_entries.mpr hfind))
      | some first =>
        refine ⟨first, rfl, ?_⟩
        obtain ⟨⟨name⟩, m⟩ := first
        have hm : callers.find ⟨name⟩ = some m := SortedMap.mem_entries.mp (List.mem_of_find?_eq_some hfirst)
        have hmatch' := matches_first hfirst
        have hle := hlongest name (by rw [hm]; exact Option.some_ne_none m) hmatch'
        have hge := length_le_of_first hfirst (by rw [hfind]; exact Option.some_ne_none opMap) hmatch
        -- of one length, two patterns of one caller are the same entry
        have heq := matchWildcard_unique hmatch' hmatch (le_antisymm hle hge)
        subst heq
        exact Option.some.inj (hm.symm.trans hfind)

theorem matching_eq_none {callers : CallerMap} {caller : MojString} :
    matching callers caller = none ↔
      callers.find ⟨caller⟩ = none ∧ ∀ pattern, callers.find ⟨pattern⟩ ≠ none → matchWildcard pattern caller = false := by
  unfold matching
  cases hown : callers.find ⟨caller⟩ with
  | some own => simp
  | none =>
    rw [Option.map_eq_none_iff, List.find?_eq_none]
    constructor
    · intro h
      refine ⟨rfl, fun pattern hpattern => ?_⟩
      obtain ⟨m, hm⟩ := Option.ne_none_iff_exists'.mp hpattern
      exact Bool.eq_false_of_not_eq_true (h _ (SortedMap.mem_entries.mpr hm))
    · intro h e he
      have hfind : callers.find ⟨e.1.name⟩ = some e.2 := SortedMap.mem_entries.mp he
      rw [h.2 e.1.name (by rw [hfind]; exact Option.some_ne_none e.2)]
      exact Bool.false_ne_true

/-! ## Calls of put -/

/-- A call of `put`: the object, what the kinds say when they are asked, and an error of the object's own put. -/
structure PutCall where
  perm : MojObject
  checkKind : MojString → Except MojErr Unit
  failure : Option MojErr

/-- The permission of a call that is not rejected. -/
def PutCall.accepted (call : PutCall) : Option Permission :=
  match permissionOf call.checkKind call.perm, call.failure with
  | .ok p, none => some p
  | _, _ => none

/-- A call that is rejected leaves the maps as they are. -/
def putCall (engine : MojDbPermissionEngine) (call : PutCall) : MojDbPermissionEngine :=
  match call.accepted with
  | some p => engine.put p
  | none => engine

/-- The calls, from no permissions on. -/
def putAll (enabled : Bool) (calls : List PutCall) : MojDbPermissionEngine := calls.foldl putCall ⟨[], enabled⟩

/-- The operations of the last accepted call for the three names. -/
def given (calls : List PutCall) (type object caller : MojString) : Option OperationMap :=
  (((calls.filterMap PutCall.accepted).filter fun p =>
    p.type = type ∧ p.object = object ∧ p.caller = caller).getLast?).map Permission.operations

theorem validate_of_accepted {call : PutCall} {p : Permission} (h : call.accepted = some p) :
    validateWildcard p.caller .dbInvalidCaller = .ok () := by
  unfold PutCall.accepted at h
  split at h
  · obtain rfl := Option.some.inj h
    rename_i hperm _
    unfold permissionOf at hperm
    simp only [bind_eq_ok, pure_eq_ok] at hperm
    obtain ⟨type, -, object, -, caller, -, operations, -, ⟨⟩, hvalid, -, -, opMap, -, rfl⟩ := hperm
    exact hvalid
  · cases h

theorem enabled_putCall (engine : MojDbPermissionEngine) (call : PutCall) :
    (engine.putCall call).enabled = engine.enabled := by
  unfold putCall
  cases call.accepted with
  | none => rfl
  | some p => rfl

theorem enabled_putAll (enabled : Bool) (calls : List PutCall) : (putAll enabled calls).enabled = enabled := by
  have hfold : ∀ engine : MojDbPermissionEngine, (calls.foldl putCall engine).enabled = engine.enabled := by
    induction calls with
    | nil => exact fun engine => rfl
    | cons call calls ih => exact fun engine => (ih _).trans (enabled_putCall engine call)
  exact hfold _

/-- **What the maps hold** after the calls is what was given last. -/
theorem operations_putAll (enabled : Bool) (calls : List PutCall) (type object caller : MojString) :
    (putAll enabled calls).operations type object caller = given calls type object caller := by
  unfold putAll
  induction calls using List.reverseRecOn with
  | nil => rfl
  | append_singleton calls call ih =>
    rw [List.foldl_append, List.foldl_cons, List.foldl_nil]
    unfold given at ih ⊢
    rw [List.filterMap_append, List.filter_append]
    unfold putCall
    cases hcall : call.accepted with
    | none =>
      rw [List.filterMap_cons_none hcall, List.filterMap_nil, List.filter_nil, List.append_nil]
      exact ih
    | some p =>
      rw [List.filterMap_cons_some hcall, List.filterMap_nil]
      dsimp only
      rw [operations_put]
      by_cases hsame : p.type = type ∧ p.object = object ∧ p.caller = caller
      · rw [if_pos hsame, List.filter_cons_of_pos (by simpa using hsame), List.filter_nil, List.getLast?_append,
          List.getLast?_singleton, Option.some_or]
        rfl
      · rw [if_neg hsame, List.filter_cons_of_neg (by simpa using hsame), List.filter_nil, List.append_nil]
        exact ih

theorem exists_of_given {calls : List PutCall} {type object caller : MojString}
    (h : given calls type object caller ≠ none) :
    ∃ call ∈ calls, ∃ p, call.accepted = some p ∧ p.caller = caller := by
  unfold given at h
  rw [ne_eq, Option.map_eq_none_iff] at h
  obtain ⟨p, hp⟩ := Option.ne_none_iff_exists'.mp h
  have hmem := List.mem_of_mem_getLast? hp
  rw [List.mem_filter, decide_eq_true_eq] at hmem
  obtain ⟨call, hcall, hp⟩ := List.mem_filterMap.mp hmem.1
  exact ⟨call, hcall, p, hp, hmem.2.2.2⟩

theorem validate_of_given {calls : List PutCall} {type object caller : MojString}
    (h : given calls type object caller ≠ none) : validateWildcard caller .dbInvalidCaller = .ok () := by
  obtain ⟨call, -, p, hp, rfl⟩ := exists_of_given h
  exact validate_of_accepted hp

/-- **What a check answers**: the caller's own entry, else the longest pattern, else nothing. -/
theorem check_putAll (enabled : Bool) (calls : List PutCall) (type object caller op : MojString) :
    (∀ opMap, given calls type object caller = some opMap →
      (putAll enabled calls).check type object caller op = (opMap.find op).getD .undefined) ∧
    (∀ pattern opMap, given calls type object caller = none → given calls type object pattern = some opMap →
      Matches pattern caller →
      (∀ other, given calls type object other ≠ none → Matches other caller →
        other.chars.length ≤ pattern.chars.length) →
      (putAll enabled calls).check type object caller op = (opMap.find op).getD .undefined) ∧
    (given calls type object caller = none →
      (∀ pattern, given calls type object pattern ≠ none → ¬Matches pattern caller) →
      (putAll enabled calls).check type object caller op = .undefined) := by
  have hfind : ∀ name, ((putAll enabled calls).callers type object).find ⟨name⟩ = given calls type object name :=
    operations_putAll enabled calls type object
  have hmatches : ∀ name, given calls type object name ≠ none → (matchWildcard name caller = true ↔ Matches name caller) :=
    fun name hname => matchWildcard_iff (validate_of_given hname)
  have hsome : ∀ opMap, matching ((putAll enabled calls).callers type object) caller = some opMap →
      (putAll enabled calls).check type object caller op = (opMap.find op).getD .undefined := by
    intro opMap hopMap
    rw [check_eq, hopMap]
  refine ⟨fun opMap hown => hsome opMap ?_, fun pattern opMap hown hpattern hmatch hlongest => hsome opMap ?_,
    fun hown hnone => ?_⟩
  · exact matching_eq_some.mpr (.inl ((hfind caller).trans hown))
  · refine matching_eq_some.mpr (.inr ⟨(hfind caller).trans hown, pattern, (hfind pattern).trans hpattern, ?_, ?_⟩)
    · exact (hmatches pattern (by rw [hpattern]; exact Option.some_ne_none opMap)).mpr hmatch
    · intro other hother hmo
      rw [hfind] at hother
      exact hlongest other hother ((hmatches other hother).mp hmo)
  · have hmatching : matching ((putAll enabled calls).callers type object) caller = none := by
      refine matching_eq_none.mpr ⟨(hfind caller).trans hown, fun pattern hpattern => ?_⟩
      rw [hfind] at hpattern
      exact Bool.eq_false_of_not_eq_true fun hmatch => hnone pattern hpattern ((hmatches pattern hpattern).mp hmatch)
    rw [check_eq, hmatching]

/-- Only the order of calls for the same three names matters. -/
theorem check_order (enabled : Bool) {calls calls' : List PutCall}
    (h : ∀ type object caller, ((calls.filterMap PutCall.accepted).filter fun p =>
        p.type = type ∧ p.object = object ∧ p.caller = caller) =
      (calls'.filterMap PutCall.accepted).filter fun p => p.type = type ∧ p.object = object ∧ p.caller = caller)
    (type object caller op : MojString) :
    (putAll enabled calls).check type object caller op = (putAll enabled calls').check type object caller op := by
  refine check_congr (fun type object caller => ?_) type object caller op
  rw [operations_putAll, operations_putAll, given, given, h]

end MojDbPermissionEngine

/-! ## Permission on a kind -/

inductive MojDbOp where
  | none | undefined | create | read | update | delete | extend | kindUpdate
  deriving DecidableEq

/-- The operations on objects. -/
def MojDbOp.onObjects : MojDbOp → Bool
  | .create | .read | .update | .delete => true
  | _ => false

/-- What the checks of a kind look at: the engine of the permissions, the owners and the supers of the kinds, and the
request. -/
structure PermissionCheck where
  engine : MojDbPermissionEngine
  owner : MojString → MojString
  links : Links MojString
  domain : MojString
  admin : Bool

namespace PermissionCheck

open MojDbPermissionEngine (PermissionType)

def stringFromOperation : MojDbOp → MojString
  | .none => ⟨[110, 111, 110, 101], by decide⟩
  | .create => ⟨[99, 114, 101, 97, 116, 101], by decide⟩
  | .read => ⟨[114, 101, 97, 100], by decide⟩
  | .update => ⟨[117, 112, 100, 97, 116, 101], by decide⟩
  | .delete => ⟨[100, 101, 108, 101, 116, 101], by decide⟩
  | .extend => ⟨[101, 120, 116, 101, 110, 100], by decide⟩
  | _ => ⟨[117, 110, 107, 110, 111, 119, 110], by decide⟩

variable (c : PermissionCheck)

def hasOwnerPermission (id : MojString) : Bool := c.admin || c.domain = c.owner id

def deny : Except MojErr Unit := if c.engine.enabled then .error .dbPermissionDenied else .ok ()

/-- A kind without a value asks its first super. Without an answer the fuel has run out. -/
def objectPermission (op : MojString) : Nat → MojString → Option PermissionValue
  | 0, _ => none
  | fuel + 1, id =>
    match c.engine.check PermissionType id c.domain op, c.links.supers id with
    | .undefined, super :: _ => objectPermission op fuel super
    | val, _ => some val

def checkPermission (op : MojDbOp) (fuel : Nat) (id : MojString) : Option (Except MojErr Unit) :=
  if hasOwnerPermission c id then some (.ok ())
  else if op = .kindUpdate then some (deny c)
  else
    match objectPermission c (stringFromOperation op) fuel id with
    | none => none
    | some .allow => some (.ok ())
    | some _ => some (deny c)

/-- The first defined value on the way up the first supers. -/
inductive FirstDefined (op : MojString) : MojString → PermissionValue → Prop where
  | here {id : MojString} {val : PermissionValue} (hval : c.engine.check PermissionType id c.domain op = val)
      (hdef : val ≠ .undefined) : FirstDefined op id val
  | up {id super : MojString} {supers : List MojString} {val : PermissionValue}
      (hundef : c.engine.check PermissionType id c.domain op = .undefined)
      (hsuper : c.links.supers id = super :: supers) (hrest : FirstDefined op super val) : FirstDefined op id val

variable {c}

theorem objectPermission_of_firstDefined {op id : MojString} {val : PermissionValue} (h : FirstDefined c op id val) :
    ∃ fuel, objectPermission c op fuel id = some val := by
  induction h with
  | here hval hdef =>
    refine ⟨1, ?_⟩
    rw [objectPermission, hval]
    split
    · exact absurd rfl hdef
    · rfl
  | up hundef hsuper hrest ih =>
    obtain ⟨fuel, hfuel⟩ := ih
    refine ⟨fuel + 1, ?_⟩
    rw [objectPermission, hundef, hsuper]
    exact hfuel

theorem firstDefined_of_objectPermission {op id : MojString} {val : PermissionValue} {fuel : Nat}
    (h : objectPermission c op fuel id = some val) (hdef : val ≠ .undefined) : FirstDefined c op id val := by
  induction fuel generalizing id with
  | zero => cases h
  | succ fuel ih =>
    rw [objectPermission] at h
    split at h
    · rename_i super supers hundef hsuper
      exact .up hundef hsuper (ih h)
    · exact .here (Option.some.inj h) hdef

/-- Among kinds without a cycle the check comes to an end. -/
theorem exists_objectPermission {nodes : List MojString} (hg : c.links.Sound nodes) (op id : MojString) {fuel : Nat}
    (hfuel : c.links.rank nodes id < fuel) : ∃ val, objectPermission c op fuel id = some val := by
  induction fuel generalizing id with
  | zero => exact absurd hfuel (Nat.not_lt_zero _)
  | succ fuel ih =>
    rw [objectPermission]
    split
    · rename_i super supers _ hsuper
      have hstep : c.links.Super id super := by
        unfold Links.Super
        rw [hsuper]
        exact List.mem_cons_self
      have hlt := Links.rank_lt hg.acyclic (hg.mem_nodes id super hstep).2 hstep
      exact ih super (by omega)
    · exact ⟨_, rfl⟩

/-- **Who may**: an admin, the owner, and who is allowed by the first value on the way up. -/
theorem checkPermission_passes_iff (henabled : c.engine.enabled = true) {op : MojDbOp} (hop : op.onObjects = true)
    (id : MojString) :
    (∃ fuel, checkPermission c op fuel id = some (.ok ())) ↔
      c.admin = true ∨ c.domain = c.owner id ∨ FirstDefined c (stringFromOperation op) id .allow := by
  have hkind : op ≠ .kindUpdate := by
    intro he
    subst he
    cases hop
  have hdeny : deny c = .error .dbPermissionDenied := if_pos henabled
  unfold checkPermission hasOwnerPermission
  simp only [if_neg hkind, hdeny]
  by_cases hadmin : c.admin = true
  · simp [hadmin]
  by_cases howner : c.domain = c.owner id
  · simp [howner]
  have hother : ¬(c.admin || decide (c.domain = c.owner id)) = true := by simp [hadmin, howner]
  simp only [if_neg hother]
  rw [or_iff_right hadmin, or_iff_right howner]
  constructor
  · intro h
    obtain ⟨fuel, hfuel⟩ := h
    split at hfuel
    · cases hfuel
    · rename_i hval
      exact firstDefined_of_objectPermission hval PermissionValue.noConfusion
    · cases hfuel
  · intro h
    obtain ⟨fuel, hfuel⟩ := objectPermission_of_firstDefined h
    refine ⟨fuel, ?_⟩
    rw [hfuel]

theorem exists_checkPermission {nodes : List MojString} (hg : c.links.Sound nodes) (op : MojDbOp) (id : MojString) :
    ∃ r, checkPermission c op (nodes.length + 1) id = some r := by
  unfold checkPermission
  split_ifs
  · exact ⟨_, rfl⟩
  · exact ⟨_, rfl⟩
  · obtain ⟨val, hval⟩ := exists_objectPermission hg (stringFromOperation op) id
      (Nat.lt_succ_of_le (Links.rank_le c.links nodes id))
    rw [hval]
    cases val with
    | undefined => exact ⟨_, rfl⟩
    | allow => exact ⟨_, rfl⟩
    | deny => exact ⟨_, rfl⟩

/-! ## The whole check -/

open MojDbPermissionEngine

/-- **Permissions.** After any calls of `put`, `check` answers with the entry of the caller, or else with that of the
longest pattern that matches, or not at all; the order of calls counts only where they are for the same names. With
permissions enabled an operation on objects passes just for an admin, the owner and a caller whom the first value on the
way up the first supers allows, and among kinds without a cycle the check always returns. -/
theorem check_answers (enabled : Bool) (calls : List PutCall) (type object caller op : MojString) :
    ((∀ opMap, given calls type object caller = some opMap →
        (putAll enabled calls).check type object caller op = (opMap.find op).getD .undefined) ∧
      (∀ pattern opMap, given calls type object caller = none → given calls type object pattern = some opMap →
        Matches pattern caller →
        (∀ other, given calls type object other ≠ none → Matches other caller →
          other.chars.length ≤ pattern.chars.length) →
        (putAll enabled calls).check type object caller op = (opMap.find op).getD .undefined) ∧
      (given calls type object caller = none →
        (∀ pattern, given calls type object pattern ≠ none → ¬Matches pattern caller) →
        (putAll enabled calls).check type object caller op = .undefined)) ∧
    (∀ calls', (∀ type object caller, ((calls.filterMap PutCall.accepted).filter fun p =>
          p.type = type ∧ p.object = object ∧ p.caller = caller) =
        (calls'.filterMap PutCall.accepted).filter fun p => p.type = type ∧ p.object = object ∧ p.caller = caller) →
      (putAll enabled calls).check type object caller op = (putAll enabled calls').check type object caller op) ∧
    ∀ (owner : MojString → MojString) (links : Links MojString) (domain : MojString) (admin : Bool) (kindOp : MojDbOp),
      kindOp.onObjects = true → ∀ id,
        ((∃ fuel, checkPermission ⟨putAll true calls, owner, links, domain, admin⟩ kindOp fuel id = some (.ok ())) ↔
          admin = true ∨ domain = owner id ∨
            FirstDefined ⟨putAll true calls, owner, links, domain, admin⟩ (stringFromOperation kindOp) id .allow) ∧
        ∀ nodes, links.Sound nodes →
          ∃ r, checkPermission ⟨putAll true calls, owner, links, domain, admin⟩ kindOp (nodes.length + 1) id = some r := by
  refine ⟨check_putAll enabled calls type object caller op, fun calls' h => check_order enabled h type object caller op,
    fun owner links domain admin kindOp hop id => ⟨?_, fun nodes hg => exists_checkPermission hg kindOp id⟩⟩
  exact checkPermission_passes_iff (enabled_putAll true calls) hop id

/-- `p.*`. -/
def callerPattern : MojString := ⟨[112, 46, 42], by decide⟩
/-- `p.q`. -/
def callerInside : MojString := ⟨[112, 46, 113], by decide⟩
theorem nul_free_kindR : 0 ∉ ([114] : List MojByte) := by decide

/-- `r`. -/
def kindR : MojString := ⟨[114], nul_free_kindR⟩

def readCall (caller val : MojString) : PutCall where
  perm := .object [(CallerKey, .string caller), (ObjectKey, .string kindR),
    (OperationsKey, .object [(stringFromOperation .read, .string val)]), (TypeKey, .string PermissionType)]
  checkKind _ := .ok ()
  failure := none

/-- `p.*` may read, `*` may not. -/
def patternCalls : List PutCall := [readCall MojDbPropExtractor.WildcardKey DenyKey, readCall callerPattern AllowKey]

theorem length_le_patternCalls : ∀ call ∈ patternCalls, ∀ p, call.accepted = some p → p.caller.chars.length ≤ 3 := by
  have hall : ∀ call ∈ patternCalls, ∀ p ∈ call.accepted, p.caller.chars.length ≤ 3 := by decide
  exact fun call hcall p hp => hall call hcall p hp

/-- The longer pattern answers for a caller inside of it, and lets it read the objects of a kind. -/
theorem check_answers_pattern :
    (putAll true patternCalls).check PermissionType kindR callerInside (stringFromOperation .read) = .allow ∧
      ∃ fuel, checkPermission ⟨putAll true patternCalls, fun _ => .empty, .empty, callerInside, false⟩ .read fuel kindR =
        some (.ok ()) := by
  obtain ⟨hcheck, -, hkind⟩ := check_answers true patternCalls PermissionType kindR callerInside (stringFromOperation .read)
  have hallow : (putAll true patternCalls).check PermissionType kindR callerInside (stringFromOperation .read) = .allow := by
    refine hcheck.2.1 callerPattern (SortedMap.empty.insert (stringFromOperation .read) .allow) (by decide) (by decide)
      ⟨[112, 46], [113], rfl, rfl, .inr rfl⟩ fun other hother _ => ?_
    obtain ⟨call, hcall, p, hp, rfl⟩ := exists_of_given hother
    exact length_le_patternCalls call hcall p hp
  exact ⟨hallow, ((hkind _ _ _ _ .read rfl kindR).1.mpr (.inr (.inr (.here hallow PermissionValue.noConfusion))))⟩

end PermissionCheck

end Db8
