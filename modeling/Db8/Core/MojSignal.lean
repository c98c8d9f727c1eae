import Db8.Lib.Run

/-!
# Core.MojSignal

A signal and its slots. A fire or call takes the list of slots and invokes one after the other with the lock released,
and so does a cancel with the signal's handler: between two steps of a frame anything may happen on the signal.

* `SlotList`     — the linked entries, with the size that is kept beside them.
* `Frame`        — a fire, call or cancel that is under way.
* `step`         — what runs from one release of the lock to the next.
* `Holds`        — what is asked of every state.
* `holds_of_run` — it is so while cancel finds its slot on the signal's own list.
-/

namespace Db8

open Lib

/-- `MojList`: the entries that are linked, and the size. -/
structure SlotList (S : Type*) where
  elems : List S
  size : Int
  deriving DecidableEq

namespace SlotList

variable {S : Type*} [DecidableEq S]

def empty : SlotList S := ⟨[], 0⟩

def isEmpty (l : SlotList S) : Bool := l.size = 0

def pushBack (l : SlotList S) (s : S) : SlotList S := ⟨l.elems ++ [s], l.size + 1⟩

/-- An entry is unlinked from the list it is linked in, whichever that is. -/
def unlink (l : SlotList S) (s : S) : SlotList S := { l with elems := l.elems.filter (· ≠ s) }

/-- The copy takes the entries, and what is left of the list; an empty list keeps what it has. -/
def move (l : SlotList S) : SlotList S × SlotList S := if l.isEmpty then (empty, l) else (l, empty)

end SlotList

namespace MojSignal

inductive Kind where
  | call | fire
  deriving DecidableEq

/-- `emitting`: `slot` is being invoked and `list` is the local copy. `cancelling`: the handler of the signal is being
told. -/
inductive Frame (S : Type*) where
  | emitting (kind : Kind) (slot : S) (list : SlotList S)
  | cancelling (slot : S)
  | done
  deriving DecidableEq

namespace Frame

variable {S : Type*} [DecidableEq S]

def elems : Frame S → List S
  | .emitting _ _ list => list.elems
  | _ => []

def SizeOk : Frame S → Prop
  | .emitting _ _ list => list.size = list.elems.length
  | _ => True

def unlink (f : Frame S) (s : S) : Frame S :=
  match f with
  | .emitting kind slot list => .emitting kind slot (list.unlink s)
  | f => f

end Frame

/-- A connection retains the handler of its slot, until `release`. `cancelled` is the return of a cancel. -/
inductive Event (S : Type*) where
  | connect (s : S)
  | release (s : S)
  | cancelled (s : S)
  | invoke (frame : Nat) (s : S)
  deriving DecidableEq

end MojSignal

open MojSignal

/-- `log` has the latest event first. `defined` is false after an entry has been taken from a list without one, or
linked twice. -/
structure MojSignal (S : Type*) where
  slots : SlotList S
  connected : S → Bool
  frames : List (Frame S)
  log : List (Event S)
  defined : Bool

namespace MojSignal

variable {S : Type*} [DecidableEq S]

def init : MojSignal S := ⟨.empty, fun _ => false, [], [], true⟩

inductive Action (S : Type*) where
  | connect (s : S)
  | cancel (s : S)
  /-- The handler of the signal returns to the cancel of the frame. -/
  | handled (i : Nat)
  | emit (kind : Kind)
  /-- The invoked slot returns to the fire or call of the frame. -/
  | returned (i : Nat) (failed : Bool)

def disconnect (st : MojSignal S) (s : S) : MojSignal S :=
  { st with connected := Function.update st.connected s false, log := .release s :: st.log }

/-- What a fire or call does with a slot it takes from its list. -/
def put (st : MojSignal S) (s : S) : Kind → MojSignal S
  | .call => { st with slots := st.slots.pushBack s }
  | .fire => st.disconnect s

/-- The loop up to the next slot. -/
def advance (st : MojSignal S) (i : Nat) (kind : Kind) (list : SlotList S) : MojSignal S :=
  if list.isEmpty then st
  else
    match list.elems with
    | [] => { st with defined := false }
    | s :: rest =>
      let st := st.put s kind
      { st with frames := st.frames.set i (.emitting kind s ⟨rest, list.size - 1⟩), log := .invoke i s :: st.log }

/-- The loop after a slot that failed. -/
def drain (kind : Kind) : List S → Int → MojSignal S → MojSignal S
  | [], size, st => if size = 0 then st else { st with defined := false }
  | s :: rest, size, st => if size = 0 then st else drain kind rest (size - 1) (st.put s kind)

/-- `MojSignalBase::cancel` counts the entry as one of the signal's own list. -/
def erase (st : MojSignal S) (s : S) : MojSignal S :=
  { st with
    slots := { st.slots.unlink s with size := st.slots.size - 1 }
    frames := st.frames.map (·.unlink s) }

def step (st : MojSignal S) (a : Action S) : MojSignal S :=
  if !st.defined then st
  else
    match a with
    | .connect s =>
      if st.connected s then { st with defined := false }
      else
        { st with
          slots := st.slots.pushBack s
          connected := Function.update st.connected s true
          log := .connect s :: st.log }
    | .cancel s =>
      if st.connected s then { st with frames := st.frames ++ [.cancelling s] }
      else { st with log := .cancelled s :: st.log }
    | .handled i =>
      match st.frames[i]? with
      | some (.cancelling s) =>
        let st := { st with frames := st.frames.set i .done }
        let st := if st.connected s then (st.erase s).disconnect s else st
        { st with log := .cancelled s :: st.log }
      | _ => st
    | .emit kind =>
      let st' : MojSignal S := { st with slots := st.slots.move.2, frames := st.frames ++ [.done] }
      st'.advance st.frames.length kind st.slots.move.1
    | .returned i failed =>
      match st.frames[i]? with
      | some (.emitting kind _ list) =>
        let st := { st with frames := st.frames.set i .done }
        if failed then drain kind list.elems list.size st else st.advance i kind list
      | _ => st

/-! ## What is asked of every state -/

/-- The slot was connected and no cancel of it has returned since. -/
def live (s : S) : List (Event S) → Bool
  | [] => false
  | .connect t :: log => t = s || live s log
  | .cancelled t :: log => t ≠ s && live s log
  | .release _ :: log => live s log
  | .invoke _ _ :: log => live s log

/-- Each invoked slot was live. -/
def InvokedLive : List (Event S) → Prop
  | [] => True
  | .invoke _ s :: log => live s log ∧ InvokedLive log
  | .connect _ :: log => InvokedLive log
  | .cancelled _ :: log => InvokedLive log
  | .release _ :: log => InvokedLive log

/-- A slot is on the list of the signal, or on the local list of a fire or call that has yet to invoke it. -/
structure Holds (st : MojSignal S) : Prop where
  defined : st.defined = true
  once : ∀ i s, st.log.count (.invoke i s) ≤ 1
  never_cancelled : InvokedLive st.log
  connected_iff : ∀ s, st.connected s = true ↔ s ∈ st.slots.elems ∨ ∃ f ∈ st.frames, s ∈ f.elems
  nodup : st.slots.elems.Nodup
  size : st.slots.size = st.slots.elems.length
  released : ∀ s, st.log.count (.connect s) = st.log.count (.release s) + if st.connected s then 1 else 0

/-! ## The invariant -/

/-- How often a slot is linked in the lists. -/
def copies (st : MojSignal S) (s : S) : Nat := st.slots.elems.count s + (st.frames.map fun f => f.elems.count s).sum

/-- How often a frame has yet to invoke a slot. -/
def listed (st : MojSignal S) (i : Nat) (s : S) : Nat := ((st.frames[i]?).map fun f => f.elems.count s).getD 0

/-- The invariant, while the step of the frame `i` holds `hand` in its local list. -/
structure InvWith (st : MojSignal S) (i : Nat) (hand : List S) : Prop where
  defined : st.defined = true
  copies : ∀ s, st.copies s + hand.count s = if st.connected s then 1 else 0
  size : st.slots.size = st.slots.elems.length
  sizes : ∀ f ∈ st.frames, f.SizeOk
  once : ∀ j s, st.log.count (.invoke j s) + st.listed j s + (if j = i then hand.count s else 0) ≤
    if j < st.frames.length then 1 else 0
  live : ∀ s, st.connected s = true → live s st.log = true
  never_cancelled : InvokedLive st.log
  released : ∀ s, st.log.count (.connect s) = st.log.count (.release s) + if st.connected s then 1 else 0

def Inv (st : MojSignal S) : Prop := st.InvWith 0 []

variable {st : MojSignal S} {i : Nat} {hand : List S} {s : S}

theorem inv_init : Inv (init : MojSignal S) where
  defined := rfl
  copies _ := rfl
  size := rfl
  sizes _ hf := nomatch hf
  once j s := by simp [listed, init]
  live _ h := nomatch h
  never_cancelled := trivial
  released _ := rfl

/-- With nothing in hand it does not matter for whom. -/
theorem InvWith.inv (h : st.InvWith i []) : Inv st where
  defined := h.defined
  copies := h.copies
  size := h.size
  sizes := h.sizes
  once j s := by
    have honce := h.once j s
    simp only [List.count_nil, ite_self] at honce ⊢
    exact honce
  live := h.live
  never_cancelled := h.never_cancelled
  released := h.released

theorem sum_set {frames : List (Frame S)} {f : Frame S} (hf : frames[i]? = some f) (f' : Frame S) (s : S) :
    ((frames.set i f').map fun f => f.elems.count s).sum + f.elems.count s =
      (frames.map fun f => f.elems.count s).sum + f'.elems.count s := by
  induction frames generalizing i with
  | nil => cases hf
  | cons g frames ih =>
    cases i with
    | zero =>
      obtain rfl := Option.some.inj hf
      simp only [List.set_cons_zero, List.map_cons, List.sum_cons]
      omega
    | succ i =>
      have hrest := ih hf
      simp only [List.set_cons_succ, List.map_cons, List.sum_cons]
      omega

theorem listed_set {frames : List (Frame S)} (hi : i < frames.length) (f' : Frame S) (j : Nat) (s : S) :
    (((frames.set i f')[j]?).map fun f => f.elems.count s).getD 0 =
      if j = i then f'.elems.count s else ((frames[j]?).map fun f => f.elems.count s).getD 0 := by
  rw [List.getElem?_set]
  by_cases hj : i = j
  · subst hj
    rw [if_pos rfl, if_pos hi, if_pos rfl]
    rfl
  · rw [if_neg hj, if_neg fun h => hj h.symm]

/-- What is linked is connected, and linked once. -/
theorem Inv.holds (h : Inv st) : Holds st where
  defined := h.defined
  once i s := by
    have honce := h.once i s
    split_ifs at honce <;> omega
  never_cancelled := h.never_cancelled
  connected_iff s := by
    have hcopies := h.copies s
    rw [List.count_nil, Nat.add_zero, MojSignal.copies] at hcopies
    have hframes : (∃ f ∈ st.frames, s ∈ f.elems) ↔ 0 < (st.frames.map fun f => f.elems.count s).sum := by
      rw [Nat.pos_iff_ne_zero, ne_eq, List.sum_eq_zero_iff]
      simp [List.count_eq_zero]
    rw [hframes, ← List.count_pos_iff]
    cases hconn : st.connected s with
    | true =>
      rw [hconn, if_pos rfl] at hcopies
      exact iff_of_true rfl (by omega)
    | false =>
      rw [hconn, if_neg Bool.false_ne_true] at hcopies
      exact iff_of_false Bool.false_ne_true (by omega)
  nodup := by
    rw [List.nodup_iff_count_le_one]
    intro s
    have hcopies := h.copies s
    rw [List.count_nil, Nat.add_zero, MojSignal.copies] at hcopies
    split_ifs at hcopies <;> omega
  size := h.size
  released := h.released

/-! ## The loops -/

/-- A slot in hand is connected. -/
theorem InvWith.connected (h : st.InvWith i hand) (hs : s ∈ hand) : st.connected s = true := by
  by_contra hnot
  have hcopies := h.copies s
  have hpos := List.count_pos_iff.mpr hs
  rw [if_neg hnot] at hcopies
  omega

/-- A slot is put back on the list of the signal, or disconnected. -/
theorem inv_put {rest : List S} (h : st.InvWith i (s :: rest)) (kind : Kind) : (st.put s kind).InvWith i rest := by
  have hconn := h.connected List.mem_cons_self
  have hcopies := h.copies
  have honce : ∀ j t, st.log.count (.invoke j t) + st.listed j t + (if j = i then rest.count t else 0) ≤
      if j < st.frames.length then 1 else 0 := by
    intro j t
    have hj := h.once j t
    rw [List.count_cons] at hj
    split_ifs at hj ⊢ <;> omega
  cases kind with
  | call =>
    refine ⟨h.defined, fun t => ?_, ?_, h.sizes, honce, h.live, h.never_cancelled, h.released⟩
    · have ht := hcopies t
      rw [List.count_cons] at ht
      change (st.slots.elems ++ [s]).count t + (st.frames.map fun f => f.elems.count t).sum + rest.count t =
        if st.connected t then 1 else 0
      rw [List.count_append, List.count_singleton, ← ht, copies]
      omega
    · have hsize := h.size
      change st.slots.size + 1 = ((st.slots.elems ++ [s]).length : Int)
      rw [List.length_append, List.length_singleton]
      omega
  | fire =>
    refine ⟨h.defined, fun t => ?_, h.size, h.sizes, fun j t => ?_, fun t ht => ?_, h.never_cancelled, fun t => ?_⟩
    · have ht := hcopies t
      rw [List.count_cons] at ht
      change st.copies t + rest.count t = if Function.update st.connected s false t then 1 else 0
      by_cases hts : t = s
      · subst hts
        rw [hconn] at ht
        simp at ht ⊢
        omega
      · rw [Function.update_of_ne hts, ← ht]
        simp [Ne.symm hts]
    · change (Event.release s :: st.log).count (.invoke j t) + st.listed j t + _ ≤ _
      rw [List.count_cons_of_ne (by simp)]
      exact honce j t
    · have hold : st.connected t = true := by
        by_cases hts : t = s
        · exact hts ▸ hconn
        · rwa [show (st.put s .fire).connected t = st.connected t from Function.update_of_ne hts _ _] at ht
      exact h.live t hold
    · have hreleased := h.released t
      change (Event.release s :: st.log).count (.connect t) = (Event.release s :: st.log).count (.release t) +
        if Function.update st.connected s false t then 1 else 0
      rw [List.count_cons_of_ne (by simp), hreleased, List.count_cons]
      by_cases hts : t = s
      · subst hts
        simp [hconn]
      · simp [hts, Ne.symm hts]

theorem frames_put (kind : Kind) : (st.put s kind).frames = st.frames := by cases kind <;> rfl

theorem live_put (t : S) (kind : Kind) : live t (st.put s kind).log = live t st.log := by cases kind <;> rfl

/-- The loop goes on with the next slot of its list, or is over. -/
theorem inv_advance {list : SlotList S} (h : st.InvWith i list.elems) (hsize : list.size = list.elems.length)
    (hover : st.frames[i]? = some .done) (kind : Kind) : Inv (st.advance i kind list) := by
  obtain ⟨elems, size⟩ := list
  dsimp only at h hsize
  unfold advance
  cases elems with
  | nil =>
    have hempty : (SlotList.mk ([] : List S) size).isEmpty = true := decide_eq_true hsize
    rw [if_pos hempty]
    exact h.inv
  | cons s rest =>
    rw [List.length_cons, Nat.cast_succ] at hsize
    have hempty : ¬(SlotList.mk (s :: rest) size).isEmpty = true := by
      rw [SlotList.isEmpty, decide_eq_true_eq]
      dsimp only
      omega
    rw [if_neg hempty]
    dsimp only
    have hput := inv_put h kind
    have hlive : live s (st.put s kind).log = true := by
      rw [live_put]
      exact h.live s (h.connected List.mem_cons_self)
    have hfresh := h.once i s
    have hcount : (st.put s kind).log.count (.invoke i s) = st.log.count (.invoke i s) := by
      cases kind with
      | call => rfl
      | fire => exact List.count_cons_of_ne (by simp)
    rw [List.count_cons_self, if_pos rfl] at hfresh
    rw [← @frames_put S _ st s kind] at hover
    have hi := (List.getElem?_eq_some_iff.mp hover).1
    have hset := sum_set hover (.emitting kind s ⟨rest, size - 1⟩)
    refine InvWith.inv (i := i) ⟨hput.defined, fun t => ?_, hput.size, fun f hf => ?_, fun j t => ?_, hput.live,
      ⟨hlive, hput.never_cancelled⟩, fun t => ?_⟩
    · have ht := hput.copies t
      have hsum := hset t
      simp only [copies, Frame.elems, List.count_nil] at ht hsum ⊢
      omega
    · cases List.mem_or_eq_of_mem_set hf with
      | inl hmem => exact hput.sizes f hmem
      | inr he =>
        subst he
        change size - 1 = (rest.length : Int)
        omega
    · have hj := hput.once j t
      have hlisted := listed_set hi (.emitting kind s ⟨rest, size - 1⟩) j t
      simp only [listed, List.length_set, Frame.elems, List.count_nil, ite_self, Nat.add_zero] at hj hlisted hfresh ⊢
      rw [hlisted, List.count_cons]
      by_cases hji : j = i
      · subst hji
        rw [hover] at hj
        rw [if_pos rfl, if_pos hi] at hj ⊢
        simp only [Option.map_some, Option.getD_some, List.count_nil] at hj
        by_cases hts : t = s
        · subst hts
          rw [frames_put] at hi
          rw [if_pos hi] at hfresh
          simp only [beq_self_eq_true, if_true]
          omega
        · have hne : (Event.invoke j s == Event.invoke j t) = false := by simp [Ne.symm hts]
          rw [hne]
          simp only [Bool.false_eq_true, if_false]
          omega
      · have hne : (Event.invoke i s == Event.invoke j t) = false := by simp [Ne.symm hji]
        rw [if_neg hji] at hj ⊢
        rw [hne]
        simp only [Bool.false_eq_true, if_false]
        omega
    · rw [List.count_cons_of_ne (by simp), List.count_cons_of_ne (by simp)]
      exact hput.released t

/-- What is left of the list after an error is put back or disconnected. -/
theorem inv_drain {size : Int} (h : st.InvWith i hand) (hsize : size = hand.length) (kind : Kind) :
    Inv (drain kind hand size st) := by
  induction hand generalizing st size with
  | nil =>
    rw [drain, if_pos (by simpa using hsize)]
    exact h.inv
  | cons s rest ih =>
    rw [List.length_cons, Nat.cast_succ] at hsize
    rw [drain, if_neg (by omega)]
    exact ih (inv_put h kind) (by omega)

/-! ## The steps -/

theorem inv_connect (h : Inv st) (hs : st.connected s = false) :
    Inv { st with
      slots := st.slots.pushBack s
      connected := Function.update st.connected s true
      log := .connect s :: st.log } := by
  refine ⟨h.defined, fun t => ?_, ?_, h.sizes, fun j t => ?_, fun t ht => ?_, h.never_cancelled, fun t => ?_⟩
  · have ht := h.copies t
    change (st.slots.elems ++ [s]).count t + (st.frames.map fun f => f.elems.count t).sum + List.count t [] =
      if Function.update st.connected s true t then 1 else 0
    rw [copies] at ht
    rw [List.count_append, List.count_singleton]
    by_cases hts : t = s
    · subst hts
      rw [hs] at ht
      simp at ht ⊢
      omega
    · rw [Function.update_of_ne hts, ← ht]
      simp [Ne.symm hts]
  · have hsize := h.size
    simp only [SlotList.pushBack, List.length_append, List.length_singleton]
    omega
  · change (Event.connect s :: st.log).count (.invoke j t) + st.listed j t + _ ≤ _
    rw [List.count_cons_of_ne (by simp)]
    exact h.once j t
  · change Function.update st.connected s true t = true at ht
    by_cases hts : t = s
    · simp [MojSignal.live, hts]
    · rw [Function.update_of_ne hts] at ht
      simp [MojSignal.live, h.live t ht]
  · have ht := h.released t
    change (Event.connect s :: st.log).count (.connect t) = (Event.connect s :: st.log).count (.release t) +
      if Function.update st.connected s true t then 1 else 0
    rw [List.count_cons_of_ne (show Event.connect s ≠ .release t by simp), List.count_cons, ht]
    by_cases hts : t = s
    · subst hts
      simp [hs]
    · simp [hts, Ne.symm hts]

theorem inv_cancelled (h : Inv st) (hs : st.connected s = false) : Inv { st with log := .cancelled s :: st.log } := by
  refine ⟨h.defined, h.copies, h.size, h.sizes, fun j t => ?_, fun t ht => ?_, h.never_cancelled, fun t => ?_⟩
  · change (Event.cancelled s :: st.log).count (.invoke j t) + st.listed j t + _ ≤ _
    rw [List.count_cons_of_ne (by simp)]
    exact h.once j t
  · have hne : s ≠ t := by
      intro he
      rw [← he] at ht
      exact Bool.false_ne_true (hs.symm.trans ht)
    simp [MojSignal.live, hne, h.live t ht]
  · rw [List.count_cons_of_ne (by simp), List.count_cons_of_ne (by simp)]
    exact h.released t

/-- A new frame with nothing in its list. -/
theorem inv_push {f : Frame S} (hf : f.elems = []) (hsize : f.SizeOk) (h : Inv st) :
    Inv { st with frames := st.frames ++ [f] } := by
  refine ⟨h.defined, fun t => ?_, h.size, fun g hg => ?_, fun j t => ?_, h.live, h.never_cancelled, h.released⟩
  · have ht := h.copies t
    simp only [copies, List.map_append, List.map_cons, List.map_nil, List.sum_append, List.sum_cons, List.sum_nil, hf,
      List.count_nil, Nat.add_zero] at ht ⊢
    exact ht
  · cases List.mem_append.mp hg with
    | inl hg => exact h.sizes g hg
    | inr hg => exact List.mem_singleton.mp hg ▸ hsize
  · have hj := h.once j t
    have hlisted : (((st.frames ++ [f])[j]?).map fun f => f.elems.count t).getD 0 = st.listed j t := by
      rw [listed, List.getElem?_append]
      split_ifs with hlt
      · rfl
      · rw [List.getElem?_eq_none (not_lt.mp hlt)]
        cases hlast : [f][j - st.frames.length]? with
        | none => rfl
        | some g =>
          obtain rfl := List.mem_singleton.mp (List.mem_of_getElem? hlast)
          simp [hf]
    simp only [List.length_append, List.length_singleton]
    change st.log.count (.invoke j t) + (((st.frames ++ [f])[j]?).map fun f => f.elems.count t).getD 0 + _ ≤ _
    rw [hlisted]
    split_ifs at hj ⊢ <;> omega

/-- The step of a frame takes its list in hand. -/
theorem inv_take (h : Inv st) {f : Frame S} (hf : st.frames[i]? = some f) :
    InvWith { st with frames := st.frames.set i .done } i f.elems := by
  have hi := (List.getElem?_eq_some_iff.mp hf).1
  have hnone : ∀ t, (Frame.done : Frame S).elems.count t = 0 := fun _ => rfl
  refine ⟨h.defined, fun t => ?_, h.size, fun g hg => ?_, fun j t => ?_, h.live, h.never_cancelled, h.released⟩
  · have ht := h.copies t
    have hsum := sum_set hf .done t
    rw [hnone] at hsum
    simp only [copies, List.count_nil] at ht ⊢
    omega
  · cases List.mem_or_eq_of_mem_set hg with
    | inl hg => exact h.sizes g hg
    | inr he =>
      rw [he]
      trivial
  · have hj := h.once j t
    have hlisted := listed_set hi .done j t
    rw [hnone] at hlisted
    simp only [listed, List.length_set, List.count_nil, ite_self, Nat.add_zero] at hj hlisted ⊢
    rw [hlisted]
    by_cases hji : j = i
    · subst hji
      rw [hf] at hj
      simp only [Option.map_some, Option.getD_some] at hj
      rw [if_pos rfl, if_pos rfl]
      omega
    · rw [if_neg hji, if_neg hji]
      omega

omit [DecidableEq S] in
theorem over_of_set {f : Frame S} (hf : st.frames[i]? = some f) :
    (st.frames.set i .done)[i]? = some (.done : Frame S) := by
  rw [List.getElem?_set_self (List.getElem?_eq_some_iff.mp hf).1]

omit [DecidableEq S] in
/-- All that is on the list goes to the copy. -/
theorem move_eq {list : SlotList S} (hsize : list.size = list.elems.length) : list.move = (list, .empty) := by
  obtain ⟨elems, size⟩ := list
  dsimp only at hsize
  unfold SlotList.move
  by_cases hempty : (SlotList.mk elems size).isEmpty = true
  · have hzero : size = 0 := of_decide_eq_true hempty
    have hnil : elems = [] := List.length_eq_zero_iff.mp (by omega)
    rw [if_pos hempty, hzero, hnil]
    rfl
  · rw [if_neg hempty]

/-- The list of the signal in the hand of a frame that has invoked nothing. -/
theorem inv_move (h : Inv st) (hover : st.frames[i]? = some .done) (hnone : ∀ t, st.log.count (.invoke i t) = 0) :
    InvWith { st with slots := .empty } i st.slots.elems := by
  have hi := (List.getElem?_eq_some_iff.mp hover).1
  refine ⟨h.defined, fun t => ?_, rfl, h.sizes, fun j t => ?_, h.live, h.never_cancelled, h.released⟩
  · have ht := h.copies t
    change (SlotList.empty : SlotList S).elems.count t + (st.frames.map fun f => f.elems.count t).sum +
      st.slots.elems.count t = if st.connected t then 1 else 0
    rw [copies, List.count_nil] at ht
    rw [show (SlotList.empty : SlotList S).elems.count t = 0 from rfl]
    omega
  · have hj := h.once j t
    have ht := h.copies t
    change st.log.count (.invoke j t) + st.listed j t + _ ≤ if j < st.frames.length then 1 else 0
    rw [List.count_nil, ite_self, Nat.add_zero] at hj
    rw [copies, List.count_nil] at ht
    by_cases hji : j = i
    · subst hji
      have hzero : st.listed j t = 0 := by
        rw [listed, hover]
        rfl
      rw [hnone, hzero, if_pos rfl, if_pos hi]
      split_ifs at ht <;> omega
    · rw [if_neg hji]
      omega

theorem inv_emit (h : Inv st) (kind : Kind) : Inv (st.step (.emit kind)) := by
  rw [step, if_neg (by simp [h.defined])]
  simp only [move_eq h.size]
  have hpush := inv_push (f := .done) rfl trivial h
  have hover : (st.frames ++ [Frame.done])[st.frames.length]? = some Frame.done := List.getElem?_concat_length
  have hnone : ∀ t, st.log.count (.invoke st.frames.length t) = 0 := by
    intro t
    have honce := h.once st.frames.length t
    rw [if_neg (lt_irrefl st.frames.length)] at honce
    omega
  exact inv_advance (inv_move hpush hover hnone) h.size hover kind

/-- A connected slot on the list of the signal is on no other. -/
theorem not_mem_of_mem (h : Inv st) (hs : s ∈ st.slots.elems) {f : Frame S} (hf : f ∈ st.frames) : s ∉ f.elems := by
  have hcopies := h.copies s
  have hpos := List.count_pos_iff.mpr hs
  rw [copies, List.count_nil] at hcopies
  have hzero : (st.frames.map fun f => f.elems.count s).sum = 0 := by split_ifs at hcopies <;> omega
  have hall := List.sum_eq_zero_iff.mp hzero
  exact List.count_eq_zero.mp (hall _ (List.mem_map_of_mem hf))

theorem frames_erase (h : Inv st) (hs : s ∈ st.slots.elems) : (st.erase s).frames = st.frames := by
  have heach : ∀ f ∈ st.frames, f.unlink s = f := by
    intro f hf
    have hnot := not_mem_of_mem h hs hf
    cases f with
    | emitting kind slot list =>
      have hsame : list.elems.filter (· ≠ s) = list.elems := by
        rw [List.filter_eq_self]
        intro t ht
        exact decide_eq_true fun he => hnot (he ▸ ht)
      simp only [Frame.unlink, SlotList.unlink, hsame]
    | cancelling slot => rfl
    | done => rfl
  exact (List.map_congr_left heach).trans (List.map_id _)

theorem inv_erase (h : Inv st) (hconn : st.connected s = true) (hs : s ∈ st.slots.elems) :
    Inv ((st.erase s).disconnect s) := by
  have hframes := frames_erase h hs
  have hone : st.slots.elems.count s = 1 := by
    have hcopies := h.copies s
    have hpos := List.count_pos_iff.mpr hs
    rw [copies, hconn, if_pos rfl, List.count_nil] at hcopies
    omega
  refine ⟨h.defined, fun t => ?_, ?_, ?_, fun j t => ?_, fun t ht => ?_, h.never_cancelled, fun t => ?_⟩
  · have ht := h.copies t
    change (st.slots.elems.filter (· ≠ s)).count t + ((st.erase s).frames.map fun f => f.elems.count t).sum +
      List.count t [] = if Function.update st.connected s false t then 1 else 0
    rw [copies] at ht
    rw [hframes]
    by_cases hts : t = s
    · subst hts
      have hgone : (st.slots.elems.filter (· ≠ t)).count t = 0 := List.count_eq_zero.mpr (by simp)
      rw [hconn, if_pos rfl, hone] at ht
      rw [hgone, Function.update_self, if_neg Bool.false_ne_true]
      omega
    · rw [Function.update_of_ne hts, List.count_filter (by simpa using hts)]
      exact ht
  · have hsize := h.size
    have hlength := List.length_eq_length_filter_add (l := st.slots.elems) (· ≠ s)
    have hrest : (st.slots.elems.filter fun t => !decide (t ≠ s)).length = 1 := by
      rw [← hone, List.count_eq_length_filter]
      congr 2
      funext t
      simp [beq_eq_decide]
    change st.slots.size - 1 = ((st.slots.elems.filter (· ≠ s)).length : Int)
    omega
  · change ∀ f ∈ (st.erase s).frames, f.SizeOk
    rw [hframes]
    exact h.sizes
  · change (Event.release s :: st.log).count (.invoke j t) +
      (((st.erase s).frames[j]?).map fun f => f.elems.count t).getD 0 + _ ≤ if j < (st.erase s).frames.length then 1 else 0
    rw [List.count_cons_of_ne (by simp), hframes]
    exact h.once j t
  · change Function.update st.connected s false t = true at ht
    have hne : t ≠ s := by
      intro he
      rw [he, Function.update_self] at ht
      exact Bool.false_ne_true ht
    rw [Function.update_of_ne hne] at ht
    exact h.live t ht
  · have ht := h.released t
    change (Event.release s :: st.log).count (.connect t) = (Event.release s :: st.log).count (.release t) +
      if Function.update st.connected s false t then 1 else 0
    rw [List.count_cons_of_ne (show Event.release s ≠ .connect t by simp), List.count_cons, ht]
    by_cases hts : t = s
    · subst hts
      simp [hconn]
    · simp [hts, Ne.symm hts]

/-- A slot is connected once at a time, and the entry that cancel erases is on the list that it erases it from. -/
def Safe (st : MojSignal S) : Action S → Prop
  | .connect s => st.connected s = false
  | .handled i => ∀ s, st.frames[i]? = some (.cancelling s) → st.connected s = true → s ∈ st.slots.elems
  | _ => True

theorem inv_handled (h : Inv st) (hsafe : st.Safe (.handled i)) : Inv (st.step (.handled i)) := by
  rw [step, if_neg (by simp [h.defined])]
  dsimp only
  split
  next s hframe =>
    have hdone := (inv_take h hframe).inv
    cases hconn : st.connected s with
    | false =>
      rw [if_neg Bool.false_ne_true]
      exact inv_cancelled hdone hconn
    | true =>
      rw [if_pos rfl]
      have herase := inv_erase hdone hconn (hsafe s hframe hconn)
      exact inv_cancelled herase (Function.update_self _ _ _)
  next => exact h

theorem inv_returned (h : Inv st) (i : Nat) (failed : Bool) : Inv (st.step (.returned i failed)) := by
  rw [step, if_neg (by simp [h.defined])]
  dsimp only
  split
  next kind slot list hframe =>
    have htake := inv_take h hframe
    have hsize : list.size = list.elems.length := h.sizes _ (List.mem_of_getElem? hframe)
    cases failed with
    | true => exact inv_drain htake hsize kind
    | false => exact inv_advance htake hsize (over_of_set hframe) kind
  next => exact h

theorem inv_step (h : Inv st) (a : Action S) (hsafe : st.Safe a) : Inv (st.step a) := by
  have hgo : ¬(!st.defined) = true := by simp [h.defined]
  cases a with
  | connect s =>
    rw [step, if_neg hgo, if_neg (ne_true_of_eq_false hsafe)]
    exact inv_connect h hsafe
  | cancel s =>
    rw [step, if_neg hgo]
    split_ifs with hconn
    · exact inv_push rfl trivial h
    · exact inv_cancelled h (eq_false_of_ne_true hconn)
  | handled i => exact inv_handled h hsafe
  | emit kind => exact inv_emit h kind
  | returned i failed => exact inv_returned h i failed

theorem holds_of_run {acts : List (Action S)} (hsafe : Along step Safe (init : MojSignal S) acts) :
    Holds (run step (init : MojSignal S) acts) :=
  (Along.invariant Inv (fun _ a h ha => inv_step h a ha) inv_init hsafe).holds

/-- A slot of a call fires, and the slot that this invokes connects itself again and cancels that. -/
theorem holds_of_run_nested :
    Along step Safe (init : MojSignal Nat)
      [.connect 1, .connect 2, .emit .call, .emit .fire, .connect 1, .cancel 1, .handled 2, .returned 1 false,
        .returned 0 true] ∧
      Holds (run step (init : MojSignal Nat)
        [.connect 1, .connect 2, .emit .call, .emit .fire, .connect 1, .cancel 1, .handled 2, .returned 1 false,
          .returned 0 true]) := by
  have hsafe : Along step Safe (init : MojSignal Nat)
      [.connect 1, .connect 2, .emit .call, .emit .fire, .connect 1, .cancel 1, .handled 2, .returned 1 false,
        .returned 0 true] := by
    refine ⟨rfl, rfl, trivial, trivial, rfl, trivial, fun s hs hconn => ?_, trivial, trivial, trivial⟩
    obtain rfl : s = 1 := by
      have hframe : some (Frame.cancelling 1) = some (Frame.cancelling s) := hs
      exact (Frame.cancelling.inj (Option.some.inj hframe)).symm
    decide
  exact ⟨hsafe, holds_of_run hsafe⟩

/-- While the first of two slots of a fire is invoked the second is connected, and on the local list of the fire. -/
theorem not_connected_iff_on_list :
    ¬∀ acts : List (Action Nat), Along step Safe (init : MojSignal Nat) acts → ∀ s,
      (run step (init : MojSignal Nat) acts).connected s = true ↔ s ∈ (run step (init : MojSignal Nat) acts).slots.elems := by
  intro h
  have hsafe : Along step Safe (init : MojSignal Nat) [.connect 1, .connect 2, .emit .fire] := ⟨rfl, rfl, trivial, trivial⟩
  have hconn : (run step (init : MojSignal Nat) [.connect 1, .connect 2, .emit .fire]).connected 2 = true := by decide
  have hempty : 2 ∉ (run step (init : MojSignal Nat) [.connect 1, .connect 2, .emit .fire]).slots.elems := by decide
  exact hempty ((h _ hsafe 2).mp hconn)

/-- The first of two slots of a fire cancels the second: the loop then takes an entry that is not there. -/
theorem not_holds_of_cancel :
    ¬∀ acts : List (Action Nat), Holds (run step (init : MojSignal Nat) acts) := by
  intro h
  have hrun := (h [.connect 1, .connect 2, .emit .fire, .cancel 2, .handled 1, .returned 0 false]).defined
  have hnot : (run step (init : MojSignal Nat)
      [.connect 1, .connect 2, .emit .fire, .cancel 2, .handled 1, .returned 0 false]).defined = false := by decide
  exact Bool.false_ne_true (hnot.symm.trans hrun)

end MojSignal

end Db8
