import Db8.Core.MojObject
import Db8.Lib.Run

/-!
# Core.MojMessageDispatcher

Threads that dispatch messages from queues by name. A queue is on the scheduled list, or on the pending list while a
thread dispatches a message of it.

* `MojMessageDispatcher` — the threads, each at a point where it does not hold the mutex, and the two lists.
* `step`                 — what one hold of the mutex does; a thread that wakes up.
* `Inv`                  — a queue is on one list, for one name, and pending for one thread.
* `fifo_of_run`          — each queue's messages are dispatched in order, one at a time, and none is lost.
* `awake_of_run`         — while a thread is blocked, there is another on its way for each scheduled queue.
* `drained_of_run`       — the threads stop when there is nothing left to dispatch.

A wait that fails ends `dispatch`, and the thread calls it again: it is ready as it was. A new queue that cannot be
allocated changes nothing.
-/

namespace Db8

open Lib

namespace MojMessageDispatcher

/-- `Queue`, with its address. -/
structure Queue (M : Type) where
  ptr : Nat
  name : MojString
  messages : List M

def Queue.push {M : Type} (q : Queue M) (msg : M) : Queue M := { q with messages := q.messages ++ [msg] }

inductive Thread (M : Type) where
  /-- About to take the mutex in `dispatch`. -/
  | ready
  | waiting
  /-- In the `dispatch` of a message, which was in the queue at the address. -/
  | dispatching (queue : Nat) (msg : M)
  | stopped
  deriving DecidableEq

namespace Thread

variable {M : Type}

def isReady : Thread M → Bool
  | ready => true
  | _ => false

def isWaiting : Thread M → Bool
  | waiting => true
  | _ => false

def queue? : Thread M → Option Nat
  | dispatching ptr _ => some ptr
  | _ => none

def woken : Thread M → Thread M
  | waiting => ready
  | th => th

end Thread

/-- `m_cond.signal`: it wakes one of the threads that wait, if there is one; when it wakes more, they wake with no signal. -/
inductive Signal where
  | wakes (thread : Nat)
  | fails

inductive Action (M : Type) where
  /-- A thread of `start`. -/
  | start
  /-- `ptr` is where a new queue is. -/
  | schedule (msg : M) (ptr : Nat) (signal : Signal)
  /-- From where a thread locks the mutex in `dispatch` to where it releases it. -/
  | dispatch (thread : Nat)
  /-- The `dispatch` of the message returned. -/
  | finish (thread : Nat)
  /-- A wait that returns with no signal. -/
  | wake (thread : Nat)
  | stop (fails : Bool)

end MojMessageDispatcher

open MojMessageDispatcher

structure MojMessageDispatcher (M : Type) where
  threads : List (Thread M)
  scheduled : List (Queue M)
  pending : List (Queue M)
  stop : Bool
  /-- The assertion that the queue has a message failed. -/
  asserts : Bool
  /-- The messages that `schedule` accepted and those that a thread began to dispatch, in order. -/
  accepted : List M
  dispatched : List M

namespace MojMessageDispatcher

variable {M : Type}

def init : MojMessageDispatcher M := ⟨[], [], [], false, false, [], []⟩

def queues (d : MojMessageDispatcher M) : List (Queue M) := d.scheduled ++ d.pending

def findQueue (name : MojString) (list : List (Queue M)) : Option (Queue M) := list.find? fun q => q.name = name

/-- The list, when the queue at the address has got a message. -/
def pushTo (ptr : Nat) (msg : M) (list : List (Queue M)) : List (Queue M) :=
  list.map fun q => if q.ptr = ptr then q.push msg else q

/-- The threads after the signal wakes one; none when it cannot be this one. -/
def signalled (t : Nat) (threads : List (Thread M)) : Option (List (Thread M)) :=
  if threads.any Thread.isWaiting then
    match threads[t]? with
    | some .waiting => some (threads.set t .ready)
    | _ => none
  else some threads

variable (queue : M → MojString)

def schedule (d : MojMessageDispatcher M) (msg : M) (ptr : Nat) (signal : Signal) : MojMessageDispatcher M :=
  match (findQueue (queue msg) d.scheduled).or (findQueue (queue msg) d.pending) with
  | some q =>
    { d with
      scheduled := pushTo q.ptr msg d.scheduled
      pending := pushTo q.ptr msg d.pending
      accepted := d.accepted ++ [msg] }
  | none =>
    if ptr ∈ d.queues.map (·.ptr) then d
    else
      match signal with
      -- the queue is on the list already, and the error leaves the message out
      | .fails => { d with scheduled := d.scheduled ++ [⟨ptr, queue msg, []⟩] }
      | .wakes t =>
        match signalled t d.threads with
        | none => d
        | some threads =>
          { d with
            scheduled := d.scheduled ++ [⟨ptr, queue msg, [msg]⟩]
            threads
            accepted := d.accepted ++ [msg] }

def dispatch (d : MojMessageDispatcher M) (t : Nat) : MojMessageDispatcher M :=
  match d.threads[t]? with
  | some .ready =>
    match d.scheduled with
    | [] => { d with threads := d.threads.set t (if d.stop then .stopped else .waiting) }
    | q :: rest =>
      match q.messages with
      | [] => { d with asserts := true }
      | msg :: messages =>
        { d with
          scheduled := rest
          pending := d.pending ++ [{ q with messages }]
          threads := d.threads.set t (.dispatching q.ptr msg)
          dispatched := d.dispatched ++ [msg] }
  | _ => d

def finish (d : MojMessageDispatcher M) (t : Nat) : MojMessageDispatcher M :=
  match d.threads[t]? with
  | some (.dispatching ptr _) =>
    match d.pending.find? fun q => q.ptr = ptr with
    | none => d
    | some q =>
      { d with
        pending := d.pending.eraseP fun q => q.ptr = ptr
        -- no signal: this thread loops back around and picks it up
        scheduled := if q.messages.isEmpty then d.scheduled else d.scheduled ++ [q]
        threads := d.threads.set t .ready }
  | _ => d

def wake (d : MojMessageDispatcher M) (t : Nat) : MojMessageDispatcher M :=
  match d.threads[t]? with
  | some .waiting => { d with threads := d.threads.set t .ready }
  | _ => d

def step (d : MojMessageDispatcher M) : Action M → MojMessageDispatcher M
  | .start => { d with threads := d.threads ++ [.ready] }
  | .schedule msg ptr signal => d.schedule queue msg ptr signal
  | .dispatch t => d.dispatch t
  | .finish t => d.finish t
  | .wake t => d.wake t
  | .stop fails => { d with stop := true, threads := if fails then d.threads else d.threads.map Thread.woken }

/-- The messages for the queue with the name. -/
def messagesFor (name : MojString) (msgs : List M) : List M := msgs.filter fun msg => queue msg = name

/-- The messages in the queue with the name, if there is one. -/
def queued (d : MojMessageDispatcher M) (name : MojString) : List M := (findQueue name d.queues).elim [] (·.messages)

/-! ## The invariant -/

structure Inv (d : MojMessageDispatcher M) : Prop where
  asserts : d.asserts = false
  ptrs : (d.queues.map (·.ptr)).Nodup
  names : (d.queues.map (·.name)).Nodup
  filled : ∀ q ∈ d.scheduled, q.messages ≠ []
  /-- Each pending queue is that of one thread. -/
  busy : (d.threads.filterMap Thread.queue?).Perm (d.pending.map (·.ptr))
  held : ∀ ptr msg, .dispatching ptr msg ∈ d.threads → ∀ q ∈ d.pending, q.ptr = ptr → queue msg = q.name
  fifo : ∀ q ∈ d.queues,
    messagesFor queue q.name d.accepted = messagesFor queue q.name d.dispatched ++ q.messages
  quiet : ∀ name ∉ d.queues.map (·.name), messagesFor queue name d.accepted = messagesFor queue name d.dispatched
  awake : .waiting ∈ d.threads → d.scheduled.length ≤ d.threads.countP Thread.isReady

theorem inv_init : Inv queue (init : MojMessageDispatcher M) where
  asserts := rfl
  ptrs := List.nodup_nil
  names := List.nodup_nil
  filled _ h := nomatch h
  busy := .nil
  held _ _ h := nomatch h
  fifo _ h := nomatch h
  quiet _ _ := rfl
  awake h := nomatch h

variable {queue} {d : MojMessageDispatcher M} {t : Nat}

theorem messagesFor_append (name : MojString) (msgs msgs' : List M) :
    messagesFor queue name (msgs ++ msgs') = messagesFor queue name msgs ++ messagesFor queue name msgs' :=
  List.filter_append ..

theorem messagesFor_singleton (name : MojString) (msg : M) :
    messagesFor queue name [msg] = if queue msg = name then [msg] else [] := by
  simp [messagesFor, List.filter_cons]

/-- The messages of a queue are for its name. -/
theorem Inv.queue_eq (h : Inv queue d) {q : Queue M} (hq : q ∈ d.queues) {msg : M} (hmsg : msg ∈ q.messages) :
    queue msg = q.name := by
  have hmem : msg ∈ messagesFor queue q.name d.accepted := by
    rw [h.fifo q hq]
    exact List.mem_append_right _ hmsg
  simpa [messagesFor] using (List.mem_filter.mp hmem).2

theorem Inv.eq_of_name (h : Inv queue d) {q q' : Queue M} (hq : q ∈ d.queues) (hq' : q' ∈ d.queues)
    (he : q.name = q'.name) : q = q' := List.inj_on_of_nodup_map h.names hq hq' he

theorem Inv.eq_of_ptr (h : Inv queue d) {q q' : Queue M} (hq : q ∈ d.queues) (hq' : q' ∈ d.queues)
    (he : q.ptr = q'.ptr) : q = q' := List.inj_on_of_nodup_map h.ptrs hq hq' he

/-! ## The threads -/

/-- Where the others are does not change. -/
theorem exists_others {α : Type} {l : List α} {y : α} (h : l[t]? = some y) :
    ∃ others, l.Perm (y :: others) ∧ ∀ x, (l.set t x).Perm (x :: others) := by
  obtain ⟨hlt, rfl⟩ := List.getElem?_eq_some_iff.mp h
  exact ⟨l.eraseIdx t, (List.getElem_cons_eraseIdx_perm hlt).symm, fun x => List.set_perm_cons_eraseIdx hlt x⟩

theorem countP_ready (others : List (Thread M)) :
    (Thread.ready :: others).countP Thread.isReady = others.countP Thread.isReady + 1 := List.countP_cons_of_pos rfl

theorem countP_waiting (others : List (Thread M)) :
    (Thread.waiting :: others).countP Thread.isReady = others.countP Thread.isReady :=
  List.countP_cons_of_neg Bool.false_ne_true

/-- The steps that only change threads, and give no queue to one. -/
theorem inv_threads (h : Inv queue d) {threads : List (Thread M)} {stop : Bool}
    (hbusy : (threads.filterMap Thread.queue?).Perm (d.threads.filterMap Thread.queue?))
    (hheld : ∀ ptr msg, .dispatching ptr msg ∈ threads → .dispatching ptr msg ∈ d.threads)
    (hawake : .waiting ∈ threads → d.scheduled.length ≤ threads.countP Thread.isReady) :
    Inv queue { d with threads, stop } :=
  { h with
    busy := hbusy.trans h.busy
    held := fun ptr msg hmem => h.held ptr msg (hheld ptr msg hmem)
    awake := hawake }

theorem inv_ready (h : Inv queue d) (hget : d.threads[t]? = some .waiting) :
    Inv queue { d with threads := d.threads.set t .ready } := by
  obtain ⟨others, hperm, hset⟩ := exists_others hget
  refine inv_threads h ?_ ?_ ?_
  · have hsame : (Thread.ready :: others).filterMap Thread.queue? = (Thread.waiting :: others).filterMap Thread.queue? := rfl
    have hbefore := hperm.symm.filterMap Thread.queue?
    rw [← hsame] at hbefore
    exact ((hset .ready).filterMap _).trans hbefore
  · intro ptr msg hmem
    have hmem := List.mem_of_ne_of_mem (by simp) ((hset .ready).mem_iff.mp hmem)
    exact hperm.mem_iff.mpr (List.mem_cons_of_mem _ hmem)
  · intro _
    have hle := h.awake (List.mem_of_getElem? hget)
    rw [hperm.countP_eq, countP_waiting] at hle
    rw [(hset .ready).countP_eq, countP_ready]
    exact Nat.le_succ_of_le hle

theorem inv_wake (h : Inv queue d) (t : Nat) : Inv queue (d.wake t) := by
  unfold wake
  split
  · next hget => exact inv_ready h hget
  · exact h

theorem inv_start (h : Inv queue d) : Inv queue (step queue d .start) := by
  refine inv_threads h ?_ ?_ ?_
  · rw [List.filterMap_append]
    exact .of_eq (List.append_nil _)
  · intro ptr msg hmem
    simpa using hmem
  · intro hwait
    have hle := h.awake (by simpa using hwait)
    rw [List.countP_append]
    omega

theorem queue?_woken (th : Thread M) : th.woken.queue? = th.queue? := by cases th <;> rfl

theorem woken_ne_waiting (th : Thread M) : th.woken ≠ .waiting := by cases th <;> simp [Thread.woken]

theorem woken_eq_dispatching {th : Thread M} {ptr : Nat} {msg : M} (h : th.woken = .dispatching ptr msg) :
    th = .dispatching ptr msg := by
  cases th <;> simp_all [Thread.woken]

theorem inv_stop (h : Inv queue d) (fails : Bool) : Inv queue (step queue d (.stop fails)) := by
  cases fails with
  | true => exact inv_threads h (.refl _) (fun _ _ hmem => hmem) h.awake
  | false =>
    refine inv_threads h ?_ ?_ ?_
    · simp only [Bool.false_eq_true, if_false, List.filterMap_map]
      exact .of_eq (List.filterMap_congr fun th _ => queue?_woken th)
    · intro ptr msg hmem
      obtain ⟨th, hth, he⟩ := List.mem_map.mp hmem
      exact woken_eq_dispatching he ▸ hth
    · intro hwait
      obtain ⟨th, -, he⟩ := List.mem_map.mp hwait
      exact absurd he (woken_ne_waiting th)

/-! ## Scheduling -/

theorem map_ptr_pushTo (ptr : Nat) (msg : M) (qs : List (Queue M)) :
    (pushTo ptr msg qs).map (·.ptr) = qs.map (·.ptr) := by
  rw [pushTo, List.map_map]
  refine List.map_congr_left fun q _ => ?_
  dsimp only [Function.comp]
  split <;> rfl

theorem map_name_pushTo (ptr : Nat) (msg : M) (qs : List (Queue M)) :
    (pushTo ptr msg qs).map (·.name) = qs.map (·.name) := by
  rw [pushTo, List.map_map]
  refine List.map_congr_left fun q _ => ?_
  dsimp only [Function.comp]
  split <;> rfl

theorem mem_pushTo {ptr : Nat} {msg : M} {qs : List (Queue M)} {x : Queue M} (h : x ∈ pushTo ptr msg qs) :
    ∃ q ∈ qs, x.ptr = q.ptr ∧ x.name = q.name ∧ x.messages = if q.ptr = ptr then q.messages ++ [msg] else q.messages := by
  obtain ⟨q, hq, rfl⟩ := List.mem_map.mp h
  refine ⟨q, hq, ?_⟩
  split <;> exact ⟨rfl, rfl, rfl⟩

theorem inv_push (h : Inv queue d) {q : Queue M} (hq : q ∈ d.queues) {msg : M} (hname : queue msg = q.name) :
    Inv queue { d with
      scheduled := pushTo q.ptr msg d.scheduled
      pending := pushTo q.ptr msg d.pending
      accepted := d.accepted ++ [msg] } := by
  have hqueues : pushTo q.ptr msg d.scheduled ++ pushTo q.ptr msg d.pending = pushTo q.ptr msg d.queues :=
    List.map_append.symm
  refine ⟨h.asserts, ?_, ?_, ?_, ?_, ?_, ?_, ?_, ?_⟩
  · rw [queues, hqueues, map_ptr_pushTo]
    exact h.ptrs
  · rw [queues, hqueues, map_name_pushTo]
    exact h.names
  · intro x hx
    obtain ⟨q', hq', -, -, hmsgs⟩ := mem_pushTo hx
    rw [hmsgs]
    split
    · simp
    · exact h.filled q' hq'
  · dsimp only
    rw [map_ptr_pushTo]
    exact h.busy
  · intro ptr m hm x hx hptr
    obtain ⟨q', hq', hptr', hname', -⟩ := mem_pushTo hx
    rw [hname']
    exact h.held ptr m hm q' hq' (hptr' ▸ hptr)
  · intro x hx
    rw [queues, hqueues] at hx
    obtain ⟨q', hq', -, hname', hmsgs⟩ := mem_pushTo hx
    dsimp only
    rw [hname', hmsgs, messagesFor_append, messagesFor_singleton, h.fifo q' hq', List.append_assoc, hname]
    by_cases hptr : q'.ptr = q.ptr
    · obtain rfl := h.eq_of_ptr hq' hq hptr
      rw [if_pos rfl, if_pos rfl]
    · have hne : q.name ≠ q'.name := fun he => hptr (congrArg Queue.ptr (h.eq_of_name hq' hq he.symm))
      rw [if_neg hne, if_neg hptr, List.append_nil]
  · intro name hnot
    rw [queues, hqueues, map_name_pushTo] at hnot
    have hne : queue msg ≠ name := fun he => hnot (he ▸ hname ▸ List.mem_map_of_mem hq)
    dsimp only
    rw [messagesFor_append, messagesFor_singleton, if_neg hne, List.append_nil]
    exact h.quiet name hnot
  · dsimp only
    rw [pushTo, List.length_map]
    exact h.awake

theorem inv_new (h : Inv queue d) {ptr : Nat} {msg : M} (hptr : ptr ∉ d.queues.map (·.ptr))
    (hname : queue msg ∉ d.queues.map (·.name))
    (hawake : .waiting ∈ d.threads → d.scheduled.length + 1 ≤ d.threads.countP Thread.isReady) :
    Inv queue { d with
      scheduled := d.scheduled ++ [⟨ptr, queue msg, [msg]⟩]
      accepted := d.accepted ++ [msg] } := by
  have hqueues : (d.scheduled ++ [(⟨ptr, queue msg, [msg]⟩ : Queue M)] ++ d.pending).Perm
      (⟨ptr, queue msg, [msg]⟩ :: d.queues) := by
    rw [List.append_assoc]
    exact List.perm_middle
  refine ⟨h.asserts, ?_, ?_, ?_, h.busy, h.held, ?_, ?_, ?_⟩
  · exact (hqueues.map _).nodup_iff.mpr (List.nodup_cons.mpr ⟨hptr, h.ptrs⟩)
  · exact (hqueues.map _).nodup_iff.mpr (List.nodup_cons.mpr ⟨hname, h.names⟩)
  · intro x hx
    cases List.mem_append.mp hx with
    | inl hx => exact h.filled x hx
    | inr hx => rw [List.mem_singleton.mp hx]; simp
  · intro x hx
    dsimp only
    rw [messagesFor_append, messagesFor_singleton]
    cases List.mem_cons.mp (hqueues.mem_iff.mp hx) with
    | inl he =>
      subst he
      rw [if_pos rfl, h.quiet _ hname]
    | inr hx =>
      have hne : queue msg ≠ x.name := fun he => hname (he ▸ List.mem_map_of_mem hx)
      rw [if_neg hne, List.append_nil]
      exact h.fifo x hx
  · intro name hnot
    have hnot : name ∉ queue msg :: d.queues.map (·.name) := fun hmem => hnot ((hqueues.map _).mem_iff.mpr hmem)
    dsimp only
    have hne : queue msg ≠ name := fun he => hnot (he ▸ List.mem_cons_self)
    rw [messagesFor_append, messagesFor_singleton, if_neg hne, List.append_nil]
    exact h.quiet name fun hmem => hnot (List.mem_cons_of_mem _ hmem)
  · intro hwait
    rw [List.length_append]
    exact hawake hwait

theorem any_isWaiting {threads : List (Thread M)} : threads.any Thread.isWaiting = true ↔ .waiting ∈ threads := by
  rw [List.any_eq_true]
  constructor
  · intro hany
    obtain ⟨th, hth, hwait⟩ := hany
    cases th with
    | waiting => exact hth
    | _ => cases hwait
  · intro hmem
    exact ⟨_, hmem, rfl⟩

theorem findQueue_eq_some {name : MojString} {qs : List (Queue M)} {q : Queue M} (h : findQueue name qs = some q) :
    q ∈ qs ∧ q.name = name :=
  ⟨List.mem_of_find?_eq_some h, by simpa using List.find?_some h⟩

theorem findQueue_eq_none {name : MojString} {qs : List (Queue M)} :
    findQueue name qs = none ↔ name ∉ qs.map (·.name) := by
  rw [findQueue, List.find?_eq_none, List.mem_map]
  simp

/-- An action in which no signal fails. -/
def Clear : Action M → Prop
  | .schedule _ _ .fails => False
  | _ => True

instance decidableClear (a : Action M) : Decidable (Clear a) :=
  match a with
  | .schedule _ _ .fails => .isFalse id
  | .schedule _ _ (.wakes _) | .start | .dispatch _ | .finish _ | .wake _ | .stop _ => .isTrue trivial

theorem inv_schedule (h : Inv queue d) (msg : M) (ptr : Nat) (t : Nat) :
    Inv queue (d.schedule queue msg ptr (.wakes t)) := by
  unfold schedule
  split
  · next q hfind =>
    cases Option.or_eq_some_iff.mp hfind with
    | inl hfind => exact inv_push h (List.mem_append_left _ (findQueue_eq_some hfind).1) (findQueue_eq_some hfind).2.symm
    | inr hfind =>
      have hfind := hfind.2
      exact inv_push h (List.mem_append_right _ (findQueue_eq_some hfind).1) (findQueue_eq_some hfind).2.symm
  · next hnone =>
    rw [Option.or_eq_none_iff, findQueue_eq_none, findQueue_eq_none] at hnone
    have hname : queue msg ∉ d.queues.map (·.name) := by
      rw [queues, List.map_append, List.mem_append, not_or]
      exact hnone
    split_ifs with hptr
    · exact h
    · dsimp only
      split
      · exact h
      · next threads hsignal =>
        unfold signalled at hsignal
        split_ifs at hsignal with hany
        · split at hsignal
          · next hget =>
            obtain rfl := Option.some.inj hsignal
            -- the thread that was woken is the one on its way for the new queue
            refine inv_new (inv_ready h hget) hptr hname fun _ => ?_
            have hle := h.awake (any_isWaiting.mp hany)
            obtain ⟨others, hperm, hset⟩ := exists_others hget
            rw [hperm.countP_eq, countP_waiting] at hle
            dsimp only
            rw [(hset .ready).countP_eq, countP_ready]
            exact Nat.succ_le_succ hle
          · cases hsignal
        · obtain rfl := Option.some.inj hsignal
          exact inv_new h hptr hname fun hwait => absurd (any_isWaiting.mpr hwait) hany

/-! ## Dispatching -/

/-- A queue moves to the pending list, with the thread that took a message from it. -/
theorem inv_take (h : Inv queue d) (hget : d.threads[t]? = some .ready) {q : Queue M} {rest : List (Queue M)}
    (hscheduled : d.scheduled = q :: rest) {msg : M} {messages : List M} (hmessages : q.messages = msg :: messages) :
    Inv queue { d with
      scheduled := rest
      pending := d.pending ++ [{ q with messages }]
      threads := d.threads.set t (.dispatching q.ptr msg)
      dispatched := d.dispatched ++ [msg] } := by
  obtain ⟨others, hperm, hset⟩ := exists_others hget
  have hbefore : d.queues = q :: (rest ++ d.pending) := by rw [queues, hscheduled, List.cons_append]
  have hqueues : (rest ++ (d.pending ++ [{ q with messages }])).Perm ({ q with messages } :: (rest ++ d.pending)) := by
    rw [← List.append_assoc]
    exact List.perm_append_singleton _ _
  have hq : q ∈ d.queues := hbefore ▸ List.mem_cons_self
  have hname : queue msg = q.name := h.queue_eq hq (hmessages ▸ List.mem_cons_self)
  have hptrs := h.ptrs
  have hnames := h.names
  rw [hbefore, List.map_cons] at hptrs hnames
  refine ⟨h.asserts, (hqueues.map _).nodup_iff.mpr hptrs, (hqueues.map _).nodup_iff.mpr hnames, ?_, ?_, ?_, ?_, ?_, ?_⟩
  · exact fun x hx => h.filled x (hscheduled ▸ List.mem_cons_of_mem _ hx)
  · rw [List.map_append]
    refine ((hset _).filterMap _).trans (.trans ?_ (List.perm_append_singleton _ _).symm)
    exact .cons _ ((hperm.symm.filterMap Thread.queue?).trans h.busy)
  · intro ptr m hm x hx hptr
    cases List.mem_append.mp hx with
    | inl hpending =>
      cases List.mem_cons.mp ((hset _).mem_iff.mp hm) with
      | inl he =>
        obtain ⟨rfl, rfl⟩ := Thread.dispatching.inj he
        exact absurd (hptr ▸ List.mem_map_of_mem (List.mem_append_right rest hpending)) (List.nodup_cons.mp hptrs).1
      | inr hm => exact h.held ptr m (hperm.mem_iff.mpr (List.mem_cons_of_mem _ hm)) x hpending hptr
    | inr hlast =>
      rw [List.mem_singleton.mp hlast] at hptr ⊢
      cases List.mem_cons.mp ((hset _).mem_iff.mp hm) with
      | inl he =>
        obtain ⟨rfl, rfl⟩ := Thread.dispatching.inj he
        exact hname
      | inr hm =>
        -- no thread had the queue before
        have hold := h.busy.mem_iff.mp (List.mem_filterMap.mpr ⟨_, hperm.mem_iff.mpr (List.mem_cons_of_mem _ hm), rfl⟩)
        rw [← hptr] at hold
        obtain ⟨x', hx', he⟩ := List.mem_map.mp hold
        exact absurd (he ▸ List.mem_map_of_mem (List.mem_append_right rest hx')) (List.nodup_cons.mp hptrs).1
  · intro x hx
    dsimp only
    rw [messagesFor_append, messagesFor_singleton]
    cases List.mem_cons.mp (hqueues.mem_iff.mp hx) with
    | inl he =>
      subst he
      rw [if_pos hname, h.fifo q hq, hmessages, List.append_assoc, List.singleton_append]
    | inr hx =>
      have hne : queue msg ≠ x.name := fun he =>
        absurd (hname ▸ he ▸ List.mem_map_of_mem hx) (List.nodup_cons.mp hnames).1
      rw [if_neg hne, List.append_nil]
      exact h.fifo x (hbefore ▸ List.mem_cons_of_mem _ hx)
  · intro name hnot
    have hnot : name ∉ q.name :: (rest ++ d.pending).map (·.name) := fun hmem => hnot ((hqueues.map _).mem_iff.mpr hmem)
    have hne : queue msg ≠ name := fun he => hnot (he ▸ hname ▸ List.mem_cons_self)
    dsimp only
    rw [messagesFor_append, messagesFor_singleton, if_neg hne, List.append_nil]
    exact h.quiet name (by rwa [hbefore])
  · intro hwait
    have hwait := List.mem_of_ne_of_mem (by simp) ((hset _).mem_iff.mp hwait)
    have hle := h.awake (hperm.mem_iff.mpr (List.mem_cons_of_mem _ hwait))
    rw [hscheduled, List.length_cons, hperm.countP_eq, countP_ready] at hle
    dsimp only
    rw [(hset _).countP_eq, List.countP_cons_of_neg Bool.false_ne_true]
    exact Nat.le_of_succ_le_succ hle

theorem inv_dispatch (h : Inv queue d) (t : Nat) : Inv queue (d.dispatch t) := by
  unfold dispatch
  split
  · next hget =>
    obtain ⟨others, hperm, hset⟩ := exists_others hget
    split
    · next hscheduled =>
      refine inv_threads h ?_ ?_ ?_
      · refine ((hset _).filterMap _).trans (.trans (.of_eq ?_) (hperm.symm.filterMap _))
        split <;> rfl
      · intro ptr msg hmem
        have hmem := List.mem_of_ne_of_mem (by split <;> simp) ((hset _).mem_iff.mp hmem)
        exact hperm.mem_iff.mpr (List.mem_cons_of_mem _ hmem)
      · intro _
        rw [hscheduled]
        exact Nat.zero_le _
    · next q rest hscheduled =>
      split
      · next hempty => exact absurd hempty (h.filled q (hscheduled ▸ List.mem_cons_self))
      · next msg messages hmessages => exact inv_take h hget hscheduled hmessages
  · exact h

theorem perm_cons_eraseP {α : Type} {p : α → Bool} {l : List α} {x : α} (h : l.find? p = some x) :
    l.Perm (x :: l.eraseP p) := by
  induction l with
  | nil => cases h
  | cons y l ih =>
    rw [List.find?_cons] at h
    rw [List.eraseP_cons]
    cases hy : p y with
    | true =>
      rw [hy] at h
      obtain rfl := Option.some.inj h
      exact .refl _
    | false =>
      rw [hy] at h
      exact ((ih h).cons y).trans (.swap _ _ _)

theorem inv_finish (h : Inv queue d) (t : Nat) : Inv queue (d.finish t) := by
  unfold finish
  split
  · next ptr msg hget =>
    split
    · exact h
    · next q hfind =>
      obtain ⟨others, hperm, hset⟩ := exists_others hget
      have hpending := perm_cons_eraseP hfind
      have hptr : q.ptr = ptr := by simpa using List.find?_some hfind
      have hbusy : (others.filterMap Thread.queue?).Perm ((d.pending.eraseP fun q => q.ptr = ptr).map (·.ptr)) := by
        have hboth := (hperm.symm.filterMap Thread.queue?).trans (h.busy.trans (hpending.map (·.ptr)))
        rw [List.map_cons, hptr] at hboth
        exact hboth.cons_inv
      have hheld : ∀ p m, .dispatching p m ∈ d.threads.set t .ready → ∀ x ∈ d.pending.eraseP fun q => q.ptr = ptr,
          x.ptr = p → queue m = x.name := by
        intro p m hm x hx hxp
        have hm := List.mem_of_ne_of_mem (by simp) ((hset .ready).mem_iff.mp hm)
        exact h.held p m (hperm.mem_iff.mpr (List.mem_cons_of_mem _ hm)) x (List.mem_of_mem_eraseP hx) hxp
      have hwaiting : .waiting ∈ d.threads.set t .ready → d.scheduled.length ≤ others.countP Thread.isReady := by
        intro hwait
        have hwait := List.mem_of_ne_of_mem (by simp) ((hset .ready).mem_iff.mp hwait)
        have hle := h.awake (hperm.mem_iff.mpr (List.mem_cons_of_mem _ hwait))
        rwa [hperm.countP_eq, List.countP_cons_of_neg Bool.false_ne_true] at hle
      cases hmsgs : q.messages with
      | nil =>
        have hqueues : d.queues.Perm (q :: (d.scheduled ++ d.pending.eraseP fun q => q.ptr = ptr)) :=
          (hpending.append_left _).trans List.perm_middle
        have hq : q ∈ d.queues := hqueues.mem_iff.mpr List.mem_cons_self
        have hptrs := (hqueues.map _).nodup_iff.mp h.ptrs
        have hnames := (hqueues.map _).nodup_iff.mp h.names
        refine ⟨h.asserts, (List.nodup_cons.mp hptrs).2, (List.nodup_cons.mp hnames).2, h.filled,
          ((hset .ready).filterMap _).trans hbusy, hheld, ?_, ?_, ?_⟩
        · exact fun x hx => h.fifo x (hqueues.mem_iff.mpr (List.mem_cons_of_mem _ hx))
        · intro name hnot
          by_cases he : name = q.name
          · have hfifo := h.fifo q hq
            rwa [hmsgs, List.append_nil, ← he] at hfifo
          · refine h.quiet name fun hmem => ?_
            exact (List.mem_cons.mp ((hqueues.map _).mem_iff.mp hmem)).elim he hnot
        · intro hwait
          dsimp only
          rw [(hset .ready).countP_eq, countP_ready]
          exact Nat.le_succ_of_le (hwaiting hwait)
      | cons m ms =>
        have hqueues : (d.scheduled ++ [q] ++ d.pending.eraseP fun q => q.ptr = ptr).Perm d.queues := by
          rw [List.append_assoc, List.singleton_append]
          exact (hpending.append_left _).symm
        refine ⟨h.asserts, (hqueues.map _).nodup_iff.mpr h.ptrs, (hqueues.map _).nodup_iff.mpr h.names, ?_,
          ((hset .ready).filterMap _).trans hbusy, hheld, ?_, ?_, ?_⟩
        · intro x hx
          cases List.mem_append.mp hx with
          | inl hx => exact h.filled x hx
          | inr hx =>
            rw [List.mem_singleton.mp hx, hmsgs]
            exact List.cons_ne_nil _ _
        · exact fun x hx => h.fifo x (hqueues.mem_iff.mp hx)
        · exact fun name hnot => h.quiet name fun hmem => hnot ((hqueues.map _).mem_iff.mpr hmem)
        · intro hwait
          dsimp only [List.isEmpty_cons]
          rw [(hset .ready).countP_eq, countP_ready]
          exact (List.length_append ..).trans_le (Nat.succ_le_succ (hwaiting hwait))
  · exact h

theorem inv_step (h : Inv queue d) (a : Action M) (ha : Clear a) : Inv queue (step queue d a) := by
  cases a with
  | start => exact inv_start h
  | schedule msg ptr signal =>
    cases signal with
    | wakes t => exact inv_schedule h msg ptr t
    | fails => exact ha.elim
  | dispatch t => exact inv_dispatch h t
  | finish t => exact inv_finish h t
  | wake t => exact inv_wake h t
  | stop fails => exact inv_stop h fails

theorem inv_run {as : List (Action M)} (h : ∀ a ∈ as, Clear a) : Inv queue (run (step queue) init as) := by
  refine Along.invariant (Inv queue) (fun d a hd => inv_step hd a) (inv_init queue) ?_
  exact Along.of_forall_step fun bs a hbs => h a (hbs.subset (by simp))

/-! ## Runs -/

/-- Two threads do not both dispatch a message for one queue. -/
def Apart (queue : M → MojString) (th th' : Thread M) : Prop :=
  ∀ ptr msg ptr' msg', th = .dispatching ptr msg → th' = .dispatching ptr' msg' → queue msg ≠ queue msg'

theorem Inv.exists_pending (h : Inv queue d) {ptr : Nat} {msg : M} (hmem : .dispatching ptr msg ∈ d.threads) :
    ∃ q ∈ d.pending, q.ptr = ptr ∧ queue msg = q.name := by
  obtain ⟨q, hq, hptr⟩ := List.mem_map.mp (h.busy.mem_iff.mp (List.mem_filterMap.mpr ⟨_, hmem, rfl⟩))
  exact ⟨q, hq, hptr, h.held ptr msg hmem q hq hptr⟩

theorem Inv.apart (h : Inv queue d) : d.threads.Pairwise (Apart queue) := by
  have hnodup : (d.threads.filterMap Thread.queue?).Nodup := by
    have hptrs := h.ptrs
    rw [queues, List.map_append] at hptrs
    exact h.busy.nodup_iff.mpr hptrs.of_append_right
  refine (List.pairwise_filterMap.mp hnodup).imp_of_mem fun {th th'} hth hth' hne => ?_
  intro ptr msg ptr' msg' he he' hname
  subst he he'
  obtain ⟨q, hq, hptr, hqname⟩ := h.exists_pending hth
  obtain ⟨q', hq', hptr', hqname'⟩ := h.exists_pending hth'
  have hsame : q = q' := h.eq_of_name (List.mem_append_right _ hq) (List.mem_append_right _ hq')
    (hqname.symm.trans (hname.trans hqname'))
  exact hne ptr rfl ptr' rfl (hptr.symm.trans ((congrArg Queue.ptr hsame).trans hptr'))

theorem Inv.fifo_queued (h : Inv queue d) (name : MojString) :
    messagesFor queue name d.accepted = messagesFor queue name d.dispatched ++ queued d name := by
  unfold queued
  cases hfind : findQueue name d.queues with
  | none =>
    rw [h.quiet name (findQueue_eq_none.mp hfind)]
    exact (List.append_nil _).symm
  | some q =>
    obtain ⟨hq, rfl⟩ := findQueue_eq_some hfind
    exact h.fifo q hq

/-- When no signal fails: for each queue the messages dispatched so far, and then those still in it, are the messages
accepted, in order, and no two threads dispatch messages for one queue at a time. -/
theorem fifo_of_run (queue : M → MojString) (as : List (Action M)) (h : ∀ a ∈ as, Clear a) :
    (run (step queue) init as).asserts = false ∧
      (run (step queue) init as).threads.Pairwise (Apart queue) ∧
      ∀ name, messagesFor queue name (run (step queue) init as).accepted =
        messagesFor queue name (run (step queue) init as).dispatched ++ queued (run (step queue) init as) name :=
  ⟨(inv_run h).asserts, (inv_run h).apart, (inv_run h).fifo_queued⟩

def threeThreads : List (Action (MojString × Nat)) :=
  [.start, .start, .start, .dispatch 1, .dispatch 2, .schedule (.empty, 1) 5 (.wakes 1), .dispatch 0, .dispatch 1,
    .schedule (.empty, 2) 6 (.wakes 0), .finish 0, .dispatch 0, .finish 0, .stop false, .dispatch 0, .dispatch 1,
    .dispatch 2]

theorem fifo_of_run_three :
    (∀ a ∈ threeThreads, Clear a) ∧
      ∀ name, messagesFor Prod.fst name (run (step Prod.fst) init threeThreads).accepted =
        messagesFor Prod.fst name (run (step Prod.fst) init threeThreads).dispatched ++
          queued (run (step Prod.fst) init threeThreads) name := by
  have hclear : ∀ a ∈ threeThreads, Clear a := by decide
  exact ⟨hclear, (fifo_of_run Prod.fst threeThreads hclear).2.2⟩

/-- When no signal fails, no wake-up is lost: while a thread is blocked, there is another on its way for each scheduled queue,
and until all threads have stopped, a message in a queue leaves one ready or dispatching. -/
theorem awake_of_run (queue : M → MojString) (as : List (Action M)) (h : ∀ a ∈ as, Clear a) :
    (.waiting ∈ (run (step queue) init as).threads →
        (run (step queue) init as).scheduled.length ≤ (run (step queue) init as).threads.countP Thread.isReady) ∧
      ∀ name, queued (run (step queue) init as) name ≠ [] → (∃ th ∈ (run (step queue) init as).threads, th ≠ .stopped) →
        ∃ th ∈ (run (step queue) init as).threads, th = .ready ∨ ∃ ptr msg, th = .dispatching ptr msg := by
  have hinv : Inv queue (run (step queue) init as) := inv_run h
  refine ⟨hinv.awake, fun name hqueued hlive => ?_⟩
  obtain ⟨th, hth, hstopped⟩ := hlive
  cases th with
  | ready => exact ⟨_, hth, .inl rfl⟩
  | dispatching ptr msg => exact ⟨_, hth, .inr ⟨ptr, msg, rfl⟩⟩
  | stopped => exact absurd rfl hstopped
  | waiting =>
    unfold queued at hqueued
    cases hfind : findQueue name (run (step queue) init as).queues with
    | none =>
      rw [hfind] at hqueued
      exact absurd rfl hqueued
    | some q =>
      cases List.mem_append.mp (findQueue_eq_some hfind).1 with
      | inl hscheduled =>
        have hpos := (List.length_pos_of_mem hscheduled).trans_le (hinv.awake hth)
        obtain ⟨th, hth, hready⟩ := List.countP_pos_iff.mp hpos
        cases th with
        | ready => exact ⟨_, hth, .inl rfl⟩
        | _ => cases hready
      | inr hpending =>
        obtain ⟨th, hth, hptr⟩ := List.mem_filterMap.mp (hinv.busy.mem_iff.mpr (List.mem_map_of_mem hpending))
        cases th with
        | dispatching ptr msg => exact ⟨_, hth, .inr ⟨ptr, msg, rfl⟩⟩
        | _ => cases hptr

/-- One thread is blocked, and the others have yet to take the first message. -/
theorem awake_of_run_three :
    .waiting ∈ (run (step Prod.fst) init (threeThreads.take 6)).threads ∧
      (run (step Prod.fst) init (threeThreads.take 6)).scheduled.length ≤
        (run (step Prod.fst) init (threeThreads.take 6)).threads.countP Thread.isReady := by
  have hwaiting : .waiting ∈ (run (step Prod.fst) init (threeThreads.take 6)).threads :=
    .tail _ (.tail _ (.head _))
  refine ⟨hwaiting, (awake_of_run Prod.fst (threeThreads.take 6) fun a ha => ?_).1 hwaiting⟩
  have hclear : ∀ a ∈ threeThreads, Clear a := by decide
  exact hclear a (List.mem_of_mem_take ha)

/-! ## The stop -/

/-- All threads have stopped. -/
def AllStopped (d : MojMessageDispatcher M) : Prop := d.threads ≠ [] ∧ ∀ th ∈ d.threads, th = .stopped

/-- A message is scheduled before the last thread has stopped. -/
def InTime (d : MojMessageDispatcher M) : Action M → Prop
  | .schedule _ _ _ => ¬AllStopped d
  | _ => True

instance decidableAllStopped [DecidableEq M] (d : MojMessageDispatcher M) : Decidable (AllStopped d) :=
  inferInstanceAs (Decidable (_ ∧ _))

instance decidableInTime [DecidableEq M] (d : MojMessageDispatcher M) (a : Action M) : Decidable (InTime d a) :=
  match a with
  | .schedule _ _ _ => inferInstanceAs (Decidable ¬AllStopped d)
  | .start | .dispatch _ | .finish _ | .wake _ | .stop _ => .isTrue trivial

theorem not_allStopped {d : MojMessageDispatcher M} {th : Thread M} (hth : th ∈ d.threads) (hne : th ≠ .stopped) :
    ¬AllStopped d := fun hall => hne (hall.2 th hth)

theorem mem_set_self {α : Type} {l : List α} {y : α} (h : l[t]? = some y) (x : α) : x ∈ l.set t x :=
  List.mem_set (List.getElem?_eq_some_iff.mp h).1 x

theorem schedule_threads (queue : M → MojString) (d : MojMessageDispatcher M) (msg : M) (ptr : Nat) (signal : Signal) :
    (d.schedule queue msg ptr signal).threads = d.threads ∨ .ready ∈ (d.schedule queue msg ptr signal).threads := by
  unfold schedule
  split
  · exact .inl rfl
  · split
    · exact .inl rfl
    · split
      · exact .inl rfl
      · split
        · exact .inl rfl
        · next threads hsignal =>
          unfold signalled at hsignal
          split_ifs at hsignal with hany
          · split at hsignal
            · next hget =>
              obtain rfl := Option.some.inj hsignal
              exact .inr (mem_set_self hget .ready)
            · cases hsignal
          · exact .inl (Option.some.inj hsignal).symm

/-- A thread that goes on is left, or nothing is scheduled. -/
theorem scheduled_of_step {a : Action M} (h : AllStopped d → d.scheduled = []) (ha : InTime d a)
    (hall : AllStopped (step queue d a)) : (step queue d a).scheduled = [] := by
  cases a with
  | start =>
    have hready : .ready ∈ (step queue d .start).threads := List.mem_append_right _ (.head _)
    exact absurd hall (not_allStopped hready (by simp))
  | schedule msg ptr signal =>
    refine absurd ?_ ha
    cases schedule_threads queue d msg ptr signal with
    | inl hsame => exact ⟨hsame ▸ hall.1, hsame ▸ hall.2⟩
    | inr hready => exact absurd hall (not_allStopped hready (by simp))
  | dispatch t =>
    change AllStopped (d.dispatch t) at hall
    change (d.dispatch t).scheduled = []
    unfold dispatch at hall ⊢
    split at hall
    · next hget =>
      split at hall
      · next hscheduled => rw [hscheduled]
      · next q rest hscheduled =>
        split at hall
        · exact absurd hall (not_allStopped (List.mem_of_getElem? hget) (by simp))
        · exact absurd hall (not_allStopped (mem_set_self hget _) (by simp))
    · exact h hall
  | finish t =>
    change AllStopped (d.finish t) at hall
    change (d.finish t).scheduled = []
    unfold finish at hall ⊢
    split at hall
    · next hget =>
      split at hall
      · exact absurd hall (not_allStopped (List.mem_of_getElem? hget) (by simp))
      · exact absurd hall (not_allStopped (mem_set_self hget .ready) (by simp))
    · exact h hall
  | wake t =>
    change AllStopped (d.wake t) at hall
    change (d.wake t).scheduled = []
    unfold wake at hall ⊢
    split at hall
    · next hget => exact absurd hall (not_allStopped (mem_set_self hget .ready) (by simp))
    · exact h hall
  | stop fails =>
    refine h ?_
    cases fails with
    | true => exact hall
    | false =>
      obtain ⟨hne, hstopped⟩ := hall
      refine ⟨fun hnil => hne (by simp [step, hnil]), fun th hth => ?_⟩
      have hwoken := hstopped th.woken (List.mem_map_of_mem hth)
      cases th with
      | stopped => rfl
      | _ => cases hwoken

/-- When all threads have stopped, every message that was accepted before the last one did has been dispatched. -/
theorem drained_of_run (queue : M → MojString) (as : List (Action M))
    (h : Along (step queue) (fun d a => Clear a ∧ InTime d a) init as) (hall : AllStopped (run (step queue) init as))
    (name : MojString) :
    messagesFor queue name (run (step queue) init as).accepted =
      messagesFor queue name (run (step queue) init as).dispatched := by
  have hinv := h.invariant (fun d => Inv queue d ∧ (AllStopped d → d.scheduled = []))
    (fun d a hd ha => ⟨inv_step hd.1 a ha.1, scheduled_of_step hd.2 ha.2⟩) ⟨inv_init queue, fun _ => rfl⟩
  have hpending : (run (step queue) init as).pending = [] := by
    have hnone : (run (step queue) init as).threads.filterMap Thread.queue? = [] := by
      refine List.filterMap_eq_nil_iff.mpr fun th hth => ?_
      rw [hall.2 th hth]
      rfl
    have hbusy := hinv.1.busy
    rw [hnone] at hbusy
    exact List.map_eq_nil_iff.mp hbusy.nil_eq.symm
  refine hinv.1.quiet name ?_
  rw [queues, hinv.2 hall, hpending]
  exact List.not_mem_nil

theorem drained_of_run_three :
    messagesFor Prod.fst .empty (run (step Prod.fst) init threeThreads).accepted =
      messagesFor Prod.fst .empty (run (step Prod.fst) init threeThreads).dispatched :=
  drained_of_run Prod.fst threeThreads (by decide) (by decide) .empty

end MojMessageDispatcher

end Db8
