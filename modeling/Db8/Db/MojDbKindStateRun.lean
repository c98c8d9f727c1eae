import Db8.Db.MojDbKindState
import Db8.Lib.Run

/-!
# Db.MojDbKindStateRun

Runs of a kind's token table with the readers and writers that hold copies of it.

* `Action`, `step`   — a copy is taken, a holder asks for a token, the table is loaded again.
* `Keeps`            — what the table should keep in a step.
* `Safe`             — the steps that keep it.
* `keeps_of_run`     — a run keeps the table exactly when its steps are safe.
-/

namespace Db8

open Lib MojObject MojObjectWriter MojTokenSet MojDbKindState

/-- A kind's table, and the sets of the readers and writers that are open. -/
structure TokenSystem where
  state : MojDbKindState
  holders : List HeldTokenSet

namespace TokenSystem

/-- `request` is `MojTokenSet::tokenFromString` of one holder. A `reload` makes a new state under the schema's
write lock, when no reader or writer is open. -/
inductive Action where
  | hold
  | request (holder : Nat) (str : MojString) (add : Bool) (failure : Option MojErr)
  | reload (strings : List MojString) (failure : Option MojErr)

/-- The error, the token handed out, and the system after the step. -/
def perform (sys : TokenSystem) : Action → Option MojErr × MojByte × TokenSystem
  | .hold => (none, InvalidToken, { sys with holders := sys.holders ++ [sys.state.tokenSet] })
  | .request holder str add failure =>
    match sys.holders[holder]? with
    | none => (none, InvalidToken, sys)
    | some held =>
      let (err, token, held, state) := sys.state.tokenFromString held str add failure
      (err, token, ⟨state, sys.holders.set holder held⟩)
  | .reload strings failure =>
    ((initTokens sys.state.record strings failure).1, InvalidToken,
      ⟨(initTokens sys.state.record strings failure).2, []⟩)

def step (sys : TokenSystem) (a : Action) : TokenSystem := (sys.perform a).2.2

/-- A kind without anything stored, before its state is loaded. -/
def init : TokenSystem := ⟨⟨.undefined, .undefined, [], TokenStartMarker⟩, []⟩

/-- The holder whose set a step hands out. -/
def served (sys : TokenSystem) : Action → Option Nat
  | .hold => some sys.holders.length
  | .request holder _ _ _ => if holder < sys.holders.length then some holder else none
  | .reload _ _ => none

def requested : Action → Option MojString
  | .request _ str _ _ => some str
  | _ => none

/-- What the table should keep in a step: it maps distinct names to distinct tokens, no token changes or
disappears, a failed write changes nothing in memory, the set that was asked for is the current table, and a
token that was handed out stands for its name. -/
structure Keeps (sys : TokenSystem) (a : Action) : Prop where
  coherent : Coherent (sys.step a).state
  grows : sys.state.tokenVec <+: (sys.step a).state.tokenVec
  failed : (sys.perform a).1 ≠ none → (sys.step a).state.tokenSet = sys.state.tokenSet
  held : ∀ holder, sys.served a = some holder → (sys.step a).holders[holder]? = some (sys.step a).state.tokenSet
  named : ∀ str, requested a = some str → (sys.perform a).2.1 ≠ InvalidToken →
    stringFromToken (sys.step a).state.tokenVec (sys.perform a).2.1 = .ok str

/-- A request of a holder with the current table must not ask for a new name when no token is left, and one of
any other holder must add a name that is new. A load whose write fails must not have had a name to add. -/
def Safe (sys : TokenSystem) : Action → Prop
  | .hold => True
  | .request holder str add failure => ∀ held, sys.holders[holder]? = some held →
    if held = sys.state.tokenSet then
      add = true → str ∈ sys.state.tokenVec ∨ sys.state.nextToken < 255
    else add = true ∧ str ∉ sys.state.tokenVec ∧ sys.state.nextToken < 255 ∧ failure = none
  | .reload strings failure =>
    failure = none ∨ (∀ str ∈ strings, str ∈ sys.state.tokenVec) ∨ ¬sys.state.nextToken < 255

/-! ## One request -/

variable {s : MojDbKindState} {held : HeldTokenSet} {str : MojString} {add : Bool} {failure : Option MojErr}

def emptySet : HeldTokenSet := ⟨[], .undefined⟩

/-- The six ways a request goes. The set comes back empty when another holder has added the name and when no
token is left. -/
theorem tokenFromString_cases (h : Coherent s) (hlists : Lists held.obj held.tokenVec)
    (hpre : held.tokenVec <+: s.tokenVec) :
    (∃ i, s.tokenVec[i]? = some str ∧
      s.tokenFromString held str add failure = (none, tokenMarker i, held, s)) ∨
    (add = false ∧ s.tokenFromString held str add failure = (none, InvalidToken, held, s)) ∨
    (add = true ∧ ∃ i, s.tokenVec[i]? = some str ∧ str ∉ held.tokenVec ∧
      s.tokenFromString held str add failure = (none, tokenMarker i, emptySet, s)) ∨
    (add = true ∧ str ∉ s.tokenVec ∧ s.nextToken < 255 ∧ failure = none ∧
      s.tokenFromString held str add failure =
        (none, tokenMarker s.tokenVec.length, (s.push str).tokenSet, (s.push str).written)) ∨
    (add = true ∧ str ∉ s.tokenVec ∧ s.nextToken < 255 ∧ ∃ err, failure = some err ∧
      s.tokenFromString held str add failure = (some err, InvalidToken, held, s)) ∨
    (add = true ∧ str ∉ s.tokenVec ∧ ¬s.nextToken < 255 ∧
      s.tokenFromString held str add failure = (none, InvalidToken, emptySet, s)) := by
  by_cases hheld : str ∈ held.tokenVec
  · obtain ⟨i, hi, hget⟩ := hlists.getUInt32_of_mem hheld
    refine .inl ⟨i, getElem?_mono hpre hi, ?_⟩
    unfold MojDbKindState.tokenFromString
    rw [hget]
    rfl
  · have hget := hlists.getUInt32_of_not_mem hheld
    unfold MojDbKindState.tokenFromString
    rw [hget]
    cases add with
    | false => exact .inr (.inl ⟨rfl, rfl⟩)
    | true =>
      by_cases hmem : str ∈ s.tokenVec
      · obtain ⟨i, hi, hadd⟩ := @addPropImpl_known s _ true failure h hmem
        refine .inr (.inr (.inl ⟨rfl, i, hi, hheld, ?_⟩))
        simp only [if_true, hadd]
        rfl
      · by_cases hroom : s.nextToken < 255
        · cases failure with
          | none =>
            refine .inr (.inr (.inr (.inl ⟨rfl, hmem, hroom, rfl, ?_⟩)))
            simp only [if_true, addPropImpl_added h hmem hroom]
            rfl
          | some err =>
            refine .inr (.inr (.inr (.inr (.inl ⟨rfl, hmem, hroom, err, rfl, ?_⟩))))
            simp only [if_true, addPropImpl_failed h hmem hroom err]
        · refine .inr (.inr (.inr (.inr (.inr ⟨rfl, hmem, hroom, ?_⟩))))
          simp only [if_true, addPropImpl_full h hmem hroom]
          rfl

theorem perform_request {sys : TokenSystem} {holder : Nat} {err : Option MojErr} {token : MojByte}
    {held' : HeldTokenSet} {s' : MojDbKindState} (hget : sys.holders[holder]? = some held)
    (heq : sys.state.tokenFromString held str add failure = (err, token, held', s')) :
    sys.perform (.request holder str add failure) = (err, token, ⟨s', sys.holders.set holder held'⟩) := by
  simp only [perform, hget, heq]

theorem perform_request_none {sys : TokenSystem} {holder : Nat} (hget : sys.holders[holder]? = none) :
    sys.perform (.request holder str add failure) = (none, InvalidToken, sys) := by
  simp only [perform, hget]

/-! ## The invariant -/

structure Inv (sys : TokenSystem) : Prop where
  coherent : Coherent sys.state
  persisted : ∃ vec, Lists (storedTokens sys.state.record) vec ∧ vec <+: sys.state.tokenVec
  holders : ∀ held ∈ sys.holders, Lists held.obj held.tokenVec ∧ held.tokenVec <+: sys.state.tokenVec

/-- What is stored is what is in memory. -/
def Synced (sys : TokenSystem) : Prop := storedTokens sys.state.record = sys.state.tokensObj

theorem init_inv : Inv init := by
  refine ⟨⟨.nil, rfl⟩, ⟨[], .nil, List.prefix_rfl⟩, ?_⟩
  intro held hheld
  cases hheld

theorem init_synced : Synced init := rfl

/-- A request that leaves the state as it was, with a holder's set that is listed in it. -/
theorem Inv.set {sys : TokenSystem} (h : Inv sys) (holder : Nat) (hlists : Lists held.obj held.tokenVec)
    (hpre : held.tokenVec <+: sys.state.tokenVec) : Inv ⟨sys.state, sys.holders.set holder held⟩ := by
  refine ⟨h.coherent, h.persisted, ?_⟩
  intro held' hheld'
  cases List.mem_or_eq_of_mem_set hheld' with
  | inl hmem => exact h.holders held' hmem
  | inr he =>
    subst he
    exact ⟨hlists, hpre⟩

theorem inv_step {sys : TokenSystem} (h : Inv sys) (a : Action) : Inv (sys.step a) := by
  cases a with
  | hold =>
    refine ⟨h.coherent, h.persisted, ?_⟩
    intro held hheld
    cases List.mem_append.mp hheld with
    | inl hmem => exact h.holders held hmem
    | inr hmem =>
      obtain rfl := List.mem_singleton.mp hmem
      exact ⟨h.coherent.lists, List.prefix_rfl⟩
  | request holder str add failure =>
    unfold step
    cases hget : sys.holders[holder]? with
    | none =>
      rw [perform_request_none hget]
      exact h
    | some held =>
      obtain ⟨hlists, hpre⟩ := h.holders held (List.mem_of_getElem? hget)
      obtain ⟨i, -, heq⟩ | ⟨-, heq⟩ | ⟨-, i, -, -, heq⟩ | ⟨-, hmem, hroom, -, heq⟩ | ⟨-, -, -, err, -, heq⟩ |
        ⟨-, -, -, heq⟩ := @tokenFromString_cases _ _ str add failure h.coherent hlists hpre
      · rw [perform_request hget heq]
        exact h.set holder hlists hpre
      · rw [perform_request hget heq]
        exact h.set holder hlists hpre
      · rw [perform_request hget heq]
        exact h.set holder .nil List.nil_prefix
      · rw [perform_request hget heq]
        have hco := h.coherent.push hmem hroom
        have hgrows : sys.state.tokenVec <+: (sys.state.push str).tokenVec := List.prefix_append _ _
        refine ⟨hco.written, ⟨_, (storedTokens_written (sys.state.push str)).symm ▸ hco.lists, List.prefix_rfl⟩, ?_⟩
        intro held' hheld'
        cases List.mem_or_eq_of_mem_set hheld' with
        | inl hmem' => exact ⟨(h.holders held' hmem').1, (h.holders held' hmem').2.trans hgrows⟩
        | inr he =>
          subst he
          exact ⟨hco.lists, List.prefix_rfl⟩
      · rw [perform_request hget heq]
        exact h.set holder hlists hpre
      · rw [perform_request hget heq]
        exact h.set holder .nil List.nil_prefix
  | reload strings failure =>
    obtain ⟨stored, hstored, -⟩ := h.persisted
    have hload := initTokens_loaded hstored strings failure
    refine ⟨hload.coherent, hload.persisted, ?_⟩
    intro held hheld
    cases hheld

/-- A request keeps the table when the set the holder ends up with is the table, and what else it should keep
is kept. -/
theorem keeps_request_iff {sys : TokenSystem} {holder : Nat} {err : Option MojErr} {token : MojByte}
    {held' : HeldTokenSet} {s' : MojDbKindState} (hget : sys.holders[holder]? = some held)
    (heq : sys.state.tokenFromString held str add failure = (err, token, held', s')) (hco : Coherent s')
    (hgrows : sys.state.tokenVec <+: s'.tokenVec) (hfailed : err ≠ none → s'.tokenSet = sys.state.tokenSet)
    (hnamed : token ≠ InvalidToken → stringFromToken s'.tokenVec token = .ok str) :
    Keeps sys (.request holder str add failure) ↔ held' = s'.tokenSet := by
  have hperform := perform_request hget heq
  have hstep : sys.step (.request holder str add failure) = ⟨s', sys.holders.set holder held'⟩ := by
    rw [step, hperform]
  have hlt := (List.getElem?_eq_some_iff.mp hget).1
  have hset : (sys.holders.set holder held')[holder]? = some held' := List.getElem?_set_self hlt
  constructor
  · intro h
    have hheld := h.held holder (if_pos hlt)
    rw [hstep, hset] at hheld
    exact Option.some.inj hheld
  · intro h
    refine ⟨?_, ?_, ?_, ?_, ?_⟩
    · rw [hstep]
      exact hco
    · rw [hstep]
      exact hgrows
    · rw [hperform, hstep]
      exact hfailed
    · intro other hother
      simp only [served, hlt, if_true, Option.some.injEq] at hother
      subst hother
      rw [hstep, hset, h]
    · intro str' hstr
      cases hstr
      rw [hperform, hstep]
      exact hnamed

theorem ne_emptySet (hmem : str ∈ s.tokenVec) : emptySet ≠ s.tokenSet := by
  intro he
  have hvec : [] = s.tokenVec := congrArg HeldTokenSet.tokenVec he
  rw [← hvec] at hmem
  cases hmem

/-- A full table is not empty. -/
theorem exists_mem_of_full (h : Coherent s) (hfull : ¬s.nextToken < 255) : ∃ name, name ∈ s.tokenVec := by
  have hnext := h.next
  simp only [TokenStartMarker] at hnext
  have hpos : 0 < s.tokenVec.length := by omega
  exact ⟨s.tokenVec[0], List.getElem_mem hpos⟩

theorem keeps_request_iff_safe {sys : TokenSystem} (h : Inv sys) (holder : Nat) (str : MojString) (add : Bool)
    (failure : Option MojErr) :
    Keeps sys (.request holder str add failure) ↔ Safe sys (.request holder str add failure) := by
  cases hget : sys.holders[holder]? with
  | none =>
    have hstep : sys.step (.request holder str add failure) = sys := by rw [step, perform_request_none hget]
    have hle := List.getElem?_eq_none_iff.mp hget
    refine ⟨fun _ held hheld => ?_, fun _ => ⟨?_, ?_, ?_, ?_, ?_⟩⟩
    · rw [hget] at hheld
      cases hheld
    · rw [hstep]
      exact h.coherent
    · rw [hstep]
    · rw [hstep]
      exact fun _ => rfl
    · intro other hother
      simp only [served] at hother
      rw [if_neg (by omega)] at hother
      cases hother
    · intro str' _ hne
      rw [perform_request_none hget] at hne
      exact absurd rfl hne
  | some held =>
    obtain ⟨hlists, hpre⟩ := h.holders held (List.mem_of_getElem? hget)
    have hsafe : Safe sys (.request holder str add failure) ↔
        if held = sys.state.tokenSet then add = true → str ∈ sys.state.tokenVec ∨ sys.state.nextToken < 255
        else add = true ∧ str ∉ sys.state.tokenVec ∧ sys.state.nextToken < 255 ∧ failure = none := by
      simp only [Safe, hget, Option.some.injEq, forall_eq']
    have hvec : held = sys.state.tokenSet → held.tokenVec = sys.state.tokenVec := congrArg HeldTokenSet.tokenVec
    have hsame : sys.state.tokenVec <+: sys.state.tokenVec := List.prefix_rfl
    have hinvalid : ∀ {vec : List MojString}, InvalidToken ≠ InvalidToken →
        stringFromToken vec InvalidToken = .ok str := fun hne => absurd rfl hne
    rw [hsafe]
    obtain ⟨i, hi, heq⟩ | ⟨hadd, heq⟩ | ⟨hadd, i, hi, hnot, heq⟩ | ⟨hadd, hmem, hroom, hok, heq⟩ |
      ⟨hadd, hmem, hroom, err, hfail, heq⟩ | ⟨hadd, hmem, hfull, heq⟩ :=
      @tokenFromString_cases _ _ str add failure h.coherent hlists hpre
    · have hmem := List.mem_of_getElem? hi
      rw [keeps_request_iff hget heq h.coherent hsame (fun hne => absurd rfl hne)
        (fun _ => h.coherent.token_names hi)]
      split_ifs with hcur
      · exact ⟨fun _ _ => .inl hmem, fun _ => hcur⟩
      · exact ⟨fun he => absurd he hcur, fun hnew => absurd hmem hnew.2.1⟩
    · rw [keeps_request_iff hget heq h.coherent hsame (fun hne => absurd rfl hne) hinvalid]
      split_ifs with hcur
      · exact ⟨fun _ htrue => absurd (hadd ▸ htrue) Bool.false_ne_true, fun _ => hcur⟩
      · exact ⟨fun he => absurd he hcur, fun hnew => absurd (hadd ▸ hnew.1) Bool.false_ne_true⟩
    · have hmem := List.mem_of_getElem? hi
      rw [keeps_request_iff hget heq h.coherent hsame (fun hne => absurd rfl hne)
        (fun _ => h.coherent.token_names hi)]
      rw [if_neg (fun hcur => hnot (hvec hcur ▸ hmem))]
      exact ⟨fun he => absurd he (ne_emptySet hmem), fun hnew => absurd hmem hnew.2.1⟩
    · have hco := h.coherent.push hmem hroom
      have hlast : (sys.state.push str).tokenVec[sys.state.tokenVec.length]? = some str := List.getElem?_concat_length
      rw [keeps_request_iff hget heq hco.written (List.prefix_append _ _) (fun hne => absurd rfl hne)
        (fun _ => hco.token_names hlast)]
      refine ⟨fun _ => ?_, fun _ => rfl⟩
      split_ifs
      · exact fun _ => .inr hroom
      · exact ⟨hadd, hmem, hroom, hok⟩
    · rw [keeps_request_iff hget heq h.coherent hsame (fun _ => rfl) hinvalid]
      split_ifs with hcur
      · exact ⟨fun _ _ => .inr hroom, fun _ => hcur⟩
      · refine ⟨fun he => absurd he hcur, fun hnew => ?_⟩
        rw [hfail] at hnew
        cases hnew.2.2.2
    · obtain ⟨name, hname⟩ := exists_mem_of_full h.coherent hfull
      rw [keeps_request_iff hget heq h.coherent hsame (fun hne => absurd rfl hne) hinvalid]
      refine ⟨fun he => absurd he (ne_emptySet hname), fun hnew => ?_⟩
      split_ifs at hnew with hcur
      · cases hnew hadd with
        | inl hin => exact absurd hin hmem
        | inr hroom => exact absurd hroom hfull
      · exact absurd hnew.2.2.1 hfull

/-! ## One load -/

theorem Inv.loaded {sys : TokenSystem} (h : Inv sys) (hs : Synced sys) (strings : List MojString)
    (failure : Option MojErr) :
    Loaded sys.state.record sys.state.tokenVec strings failure (initTokens sys.state.record strings failure).1
      (initTokens sys.state.record strings failure).2 :=
  initTokens_loaded (hs ▸ h.coherent.lists) strings failure

theorem keeps_reload_iff_safe {sys : TokenSystem} (h : Inv sys) (hs : Synced sys) (strings : List MojString)
    (failure : Option MojErr) : Keeps sys (.reload strings failure) ↔ Safe sys (.reload strings failure) := by
  have hload := h.loaded hs strings failure
  have hnext := h.coherent.next
  constructor
  · intro hk
    by_cases hfail : failure = none
    · exact .inl hfail
    · refine .inr ?_
      rw [hnext]
      refine hload.added ?_
      by_cases herr : (initTokens sys.state.record strings failure).1 = none
      · exact hload.unwritten hfail herr
      · exact congrArg HeldTokenSet.tokenVec (hk.failed herr)
  · intro hsafe
    refine ⟨hload.coherent, hload.grows, ?_, ?_, ?_⟩
    · intro herr
      cases hsafe with
      | inl hok => exact absurd (hload.succeeds hok) herr
      | inr hno =>
        rw [hnext] at hno
        obtain ⟨hobj, hvec⟩ := hload.kept hno
        have hobj' := hobj.trans hs
        exact congrArg₂ HeldTokenSet.mk hvec hobj'
    · intro holder hholder
      cases hholder
    · intro str hstr
      cases hstr

theorem keeps_hold {sys : TokenSystem} (h : Inv sys) : Keeps sys .hold := by
  refine ⟨h.coherent, List.prefix_rfl, fun _ => rfl, ?_, ?_⟩
  · intro holder hholder
    obtain rfl := Option.some.inj hholder
    exact List.getElem?_concat_length
  · intro str hstr
    cases hstr

theorem keeps_iff_safe {sys : TokenSystem} (h : Inv sys) (hs : Synced sys) (a : Action) :
    Keeps sys a ↔ Safe sys a := by
  cases a with
  | hold => exact ⟨fun _ => trivial, fun _ => keeps_hold h⟩
  | request holder str add failure => exact keeps_request_iff_safe h holder str add failure
  | reload strings failure => exact keeps_reload_iff_safe h hs strings failure

theorem synced_step {sys : TokenSystem} (h : Inv sys) (hs : Synced sys) {a : Action} (hsafe : Safe sys a) :
    Synced (sys.step a) := by
  cases a with
  | hold => exact hs
  | request holder str add failure =>
    unfold step
    cases hget : sys.holders[holder]? with
    | none =>
      rw [perform_request_none hget]
      exact hs
    | some held =>
      obtain ⟨hlists, hpre⟩ := h.holders held (List.mem_of_getElem? hget)
      obtain ⟨i, -, heq⟩ | ⟨-, heq⟩ | ⟨-, i, -, -, heq⟩ | ⟨-, -, -, -, heq⟩ | ⟨-, -, -, err, -, heq⟩ |
        ⟨-, -, -, heq⟩ := @tokenFromString_cases _ _ str add failure h.coherent hlists hpre
      case inr.inr.inr.inl =>
        rw [perform_request hget heq]
        exact storedTokens_written (sys.state.push str)
      all_goals
        rw [perform_request hget heq]
        exact hs
  | reload strings failure =>
    have hload := h.loaded hs strings failure
    by_cases herr : (initTokens sys.state.record strings failure).1 = none
    · exact hload.synced herr
    · have hno : (∀ str ∈ strings, str ∈ sys.state.tokenVec) ∨ ¬sys.state.nextToken < 255 :=
        hsafe.resolve_left fun hok => herr (hload.succeeds hok)
      rw [h.coherent.next] at hno
      have hrec : (sys.step (.reload strings failure)).state.record = sys.state.record := hload.failed herr
      unfold Synced
      rw [hrec]
      exact (hload.kept hno).1.symm

theorem along_keeps_iff {sys : TokenSystem} (h : Inv sys) (hs : Synced sys) (as : List Action) :
    Along step Keeps sys as ↔ Along step Safe sys as := by
  refine Along.congr_of_invariant (fun sys => Inv sys ∧ Synced sys) ?_ ?_ ⟨h, hs⟩
  · intro sys a hinv
    exact keeps_iff_safe hinv.1 hinv.2 a
  · intro sys a hinv hkeeps
    exact ⟨inv_step hinv.1 a, synced_step hinv.1 hinv.2 ((keeps_iff_safe hinv.1 hinv.2 a).mp hkeeps)⟩

theorem grows_of_run {sys : TokenSystem} {as : List Action} (h : Along step Keeps sys as) :
    sys.state.tokenVec <+: (run step sys as).state.tokenVec := by
  induction as generalizing sys with
  | nil => exact List.prefix_rfl
  | cons a as ih => exact h.1.grows.trans (ih h.2)

/-- **The token table of a kind.** In every run the table maps distinct names to distinct tokens. A run keeps
its tokens, leaves the table alone when a write fails and hands every request the current table exactly when
all its steps are safe; the bytes written of an object at any time of such a run, with whatever tokens the table
had by then, are read back as the object at its end. -/
theorem keeps_of_run (as : List Action) :
    Coherent (run step init as).state ∧
    (Along step Keeps init as ↔ Along step Safe init as) ∧
    (Along step Safe init as → ∀ bs, bs <+: as → ∀ (o : MojObject) (bss : List (List MojByte)),
      o.isDefined = true → o.isOrdered = true →
      List.Forall₂ (Spells (some (run step init bs).state.tokenVec)) o.visit bss →
      fromBytes (some (run step init as).state.tokenVec) bss.flatten = .ok o) := by
  refine ⟨?_, along_keeps_iff init_inv init_synced as, ?_⟩
  · have hinv : Inv (run step init as) :=
      Along.invariant Inv (fun _ a h _ => inv_step h a) init_inv (Along.of_forall (C := fun _ _ => True)
        (fun _ _ => trivial) init as)
    exact hinv.coherent
  · intro hsafe bs hbs o bss hdef hord hspells
    have hkeeps := (along_keeps_iff init_inv init_synced as).mpr hsafe
    obtain ⟨cs, rfl⟩ := hbs
    have hgrows := grows_of_run hkeeps.rest
    rw [run_append]
    exact fromBytes_spells hdef hord (hspells.imp fun _ _ h => h.mono (.some hgrows))

/-- Two writers are open and both add the name `"a"`. -/
def twoWriters : List Action :=
  [.reload [] none, .hold, .hold, .request 0 nameA true none, .request 1 nameA true none]

/-- The second writer is left with an empty set; and a load that cannot write its names keeps them in memory, so
that the next load gives their tokens to other names. -/
theorem keeps_of_run_twoWriters :
    ¬Along step Keeps init twoWriters ∧
    (run step init twoWriters).holders[1]? = some emptySet ∧
    (run step init twoWriters).state.tokenVec = [nameA] ∧
    ¬Along step Keeps init [.reload [nameA] (some .dbIo)] ∧
    (run step init [.reload [nameA] (some .dbIo)]).state.tokenVec = [nameA] ∧
    (run step init [.reload [nameA] (some .dbIo), .reload [nameB] none]).state.tokenVec = [nameB] := by
  refine ⟨fun h => ?_, by decide, by decide, fun h => ?_, by decide, by decide⟩
  · have hheld := (@Along.last _ _ _ _ _ (twoWriters.take 4) _ h).held 1 (by decide)
    revert hheld
    decide
  · have hfailed := h.1.failed (by decide)
    revert hfailed
    decide

end TokenSystem

end Db8
