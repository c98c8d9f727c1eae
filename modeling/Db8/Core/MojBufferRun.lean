import Db8.Core.MojBufferQueue

/-!
# Core.MojBufferRun

Several buffers over a run of operations: when each is a queue of its own.

* `specStep`           — the operations on queues.
* `Answers`            — a result is the one of the queue.
* `Clear`, `Clears`    — the state before an operation, or before each of a run, leads to no defect.
* `Behaves`            — a run gives the results of the queues, and the buffers hold them after each step.
* `Inv.step`, `Inv.clear_of_shown` — an operation on a clear state does what it does on the queues, and only there.
* `behaves_iff_clears` — a run behaves just when each of its states is clear.
-/

namespace Db8

namespace MojBuffer

variable {ι : Type} [DecidableEq ι] {s : State ι} {f f' : ι → List MojByte} {op : Op ι}

/-- An operation on a queue for each buffer; none for more bytes than there are. -/
def specStep (f : ι → List MojByte) : Op ι → Option (ι → List MojByte)
  | .write c bytes => some (Function.update f c (f c ++ bytes))
  | .writeByte c b => some (Function.update f c (f c ++ [b]))
  | .advance c size => if size ≤ (f c).length then some (Function.update f c ((f c).drop size)) else none
  | .empty _ | .iovec _ _ | .data _ | .toByteVec _ => some f
  | .release c | .clear c => some (Function.update f c [])
  | .assign c rhs => if c = rhs then some f else some (Function.update (Function.update f c (f rhs)) rhs [])

/-- The result is the one of the queues `f`. -/
def Answers (f : ι → List MojByte) : Op ι → Result → Prop
  | .empty c, result => result = .empty (f c).isEmpty
  | .iovec c vecSize, result => ∃ vec, result = .segments vec ∧ Segments (f c) vecSize vec
  | .data c, result | .toByteVec c, result => result = .bytes (f c)
  | .release c, result => ∃ chunk, result = .chunk chunk ∧ chunk.elim [] Chunk.data = f c
  | _, result => result = .done

/-- `data` and `release` find no consumed byte in the first chunk, a write or `empty` finds no read position that `release` left,
and a buffer that is assigned to itself has no bytes. -/
def Clear (s : State ι) : Op ι → Prop
  | .write c bytes => bytes = [] ∨ Fresh (s.buffers c)
  | .writeByte c _ | .empty c => Fresh (s.buffers c)
  | .data c | .release c => AtBegin (s.buffers c)
  | .assign c rhs => c = rhs → Drained (s.buffers c)
  | _ => True

/-- Each operation of the run is clear in the state before it. -/
def Clears : State ι → List (Op ι) → Prop
  | _, [] => True
  | s, op :: ops => Clear s op ∧ ∀ s' result, step s op = some (s', result) → Clears s' ops

/-- While the operations are such that queues have them, they give the results of the queues, and after each of them
what is read of a buffer is its queue. -/
def Behaves : State ι → (ι → List MojByte) → List (Op ι) → Prop
  | _, _, [] => True
  | s, f, op :: ops =>
    ∀ f', specStep f op = some f' →
      ∃ s' result, step s op = some (s', result) ∧ Answers f op result ∧
        (∀ c, (s'.buffers c).toByteVec = some (f' c)) ∧ Behaves s' f' ops

/-- Each buffer holds its queue. -/
def Inv (s : State ι) (f : ι → List MojByte) : Prop := ∀ c, Shows s.next (s.buffers c) (f c)

theorem inv_start (ι : Type) : Inv (start ι) fun _ => [] := fun _ => shows_nil nofun rfl

theorem Inv.update (h : Inv s f) {c : ι} {next : Nat} {buf : MojBuffer} {q : List MojByte} (hle : s.next ≤ next)
    (hbuf : Shows next buf q) : Inv ⟨Function.update s.buffers c buf, next⟩ (Function.update f c q) := by
  intro d
  rcases eq_or_ne d c with rfl | hd
  · simpa using hbuf
  · simpa [hd] using (h d).mono hle

/-- An operation that leaves the queue of its buffer as it is. -/
theorem Inv.keep (h : Inv s f) {c : ι} {next : Nat} {buf : MojBuffer} (hle : s.next ≤ next)
    (hbuf : Shows next buf (f c)) : Inv ⟨Function.update s.buffers c buf, next⟩ f := by
  have hupdate : Inv ⟨Function.update s.buffers c buf, next⟩ (Function.update f c (f c)) := h.update hle hbuf
  rwa [Function.update_eq_self] at hupdate

theorem assign_of_ne (buffers : ι → MojBuffer) {c rhs : ι} (hne : c ≠ rhs) :
    assign buffers c rhs = Function.update (Function.update buffers c (buffers rhs)) rhs new := by
  funext d
  rcases eq_or_ne d rhs with rfl | hd
  · simp [assign, hne, hne.symm, new]
  · rcases eq_or_ne d c with rfl | hc
    · simp [assign, hne, hne.symm]
    · simp [assign, hne, hd, hc]

theorem assign_self (buffers : ι → MojBuffer) (c : ι) : assign buffers c c = Function.update buffers c new := by
  funext d
  rcases eq_or_ne d c with rfl | hd
  · simp [assign, clear_chunks, new]
  · simp [assign, hd]

theorem specStep_eq_none (h : specStep f op = none) : ∃ c size, op = .advance c size ∧ (f c).length < size := by
  cases op with
  | advance c size =>
    refine ⟨c, size, rfl, ?_⟩
    simp only [specStep, ite_eq_right_iff] at h
    by_contra hle
    exact absurd (h (by omega)) nofun
  | assign c rhs =>
    by_cases hc : c = rhs <;> simp [specStep, hc] at h
  | _ => cases h

/-- **An operation on a clear state does what it does on the queues.** -/
theorem Inv.step (h : Inv s f) (hclear : Clear s op) (hspec : specStep f op = some f') :
    ∃ s' result, MojBuffer.step s op = some (s', result) ∧ Answers f op result ∧ Inv s' f' := by
  cases op with
  | write c bytes =>
    cases hspec
    rcases hclear with rfl | hfresh
    · exact ⟨_, _, rfl, rfl, h.update le_rfl (by simpa using h c)⟩
    · obtain ⟨next', buf', hwrite, hle, hbuf⟩ := (h c).write hfresh bytes
      exact ⟨_, _, by simp [MojBuffer.step, hwrite], rfl, h.update hle hbuf⟩
  | writeByte c b =>
    cases hspec
    obtain ⟨next', buf', hwrite, hle, hbuf⟩ := (h c).writeByte hclear b
    exact ⟨_, _, by simp [MojBuffer.step, hwrite], rfl, h.update hle hbuf⟩
  | advance c size =>
    simp only [specStep, Option.ite_none_right_eq_some, Option.some.injEq] at hspec
    obtain ⟨hsize, rfl⟩ := hspec
    obtain ⟨buf', hadvance, hbuf⟩ := (h c).advance hsize
    exact ⟨_, _, by simp [MojBuffer.step, hadvance], rfl, h.update le_rfl hbuf⟩
  | empty c =>
    cases hspec
    exact ⟨_, _, rfl, congrArg Result.empty ((h c).content.empty_eq hclear), h⟩
  | iovec c vecSize =>
    cases hspec
    obtain ⟨vec, hvec, hsegments⟩ := (h c).content.iovec vecSize
    exact ⟨_, _, by simp [MojBuffer.step, hvec], ⟨vec, rfl, hsegments⟩, h⟩
  | data c =>
    cases hspec
    obtain ⟨next', buf', hdata, hle, hbuf⟩ := (h c).data
    have hwritten := (h c).content.atBegin_iff.mp hclear
    exact ⟨_, _, by simp [MojBuffer.step, hdata], congrArg Result.bytes hwritten, h.keep hle (hbuf hclear)⟩
  | toByteVec c =>
    cases hspec
    exact ⟨_, _, by simp [MojBuffer.step, (h c).content.toByteVec], rfl, h⟩
  | release c =>
    cases hspec
    obtain ⟨next', buf', chunk, hrelease, hle, hchunk, hbuf⟩ := (h c).release
    have hwritten := (h c).content.atBegin_iff.mp hclear
    exact ⟨_, _, by simp [MojBuffer.step, hrelease], ⟨chunk, rfl, hchunk.trans hwritten⟩, h.update hle hbuf⟩
  | clear c =>
    cases hspec
    exact ⟨_, _, rfl, rfl, h.update le_rfl (h c).clear⟩
  | assign c rhs =>
    refine ⟨_, _, rfl, rfl, ?_⟩
    rcases eq_or_ne c rhs with rfl | hne
    · simp only [specStep, if_true, Option.some.injEq] at hspec
      have hnil := (h c).content.drained_iff.mp (hclear rfl)
      rw [assign_self, ← hspec]
      exact h.keep le_rfl (hnil ▸ shows_nil (by simp [new]) rfl)
    · simp only [specStep, if_neg hne, Option.some.injEq] at hspec
      rw [assign_of_ne _ hne, ← hspec]
      exact (h.update le_rfl (h rhs)).update le_rfl (shows_nil (by simp [new]) rfl)

theorem Inv.step_eq_none (h : Inv s f) (hspec : specStep f op = none) : MojBuffer.step s op = none := by
  obtain ⟨c, size, rfl, hlt⟩ := specStep_eq_none hspec
  have hadvance : (s.buffers c).advance size = none := advanceLoop_of_lt (h c).content hlt
  simp [MojBuffer.step, hadvance]

theorem eq_of_not_fresh {buf : MojBuffer} (h : ¬Fresh buf) : ∃ pos, buf = ⟨[], some pos⟩ := by
  obtain ⟨chunks, readPos⟩ := buf
  simp only [Fresh, Classical.not_imp] at h
  obtain ⟨rfl, hpos⟩ := h
  obtain ⟨pos, rfl⟩ := Option.ne_none_iff_exists'.mp hpos
  exact ⟨pos, rfl⟩

omit [DecidableEq ι] in
/-- The first write after `release`. -/
theorem Inv.toByteVec_of_stale (h : Inv s f) {c : ι} {pos : Pos} (hstale : s.buffers c = ⟨[], some pos⟩)
    (bytes : List MojByte) (size : Nat) : toByteVec ⟨[⟨s.next, bytes, size⟩], some pos⟩ = none := by
  have hlt : pos.id < s.next := (h c).released (by rw [hstale]) pos (by rw [hstale])
  exact toByteVec_of_ne hlt.ne

/-- **Only an operation on a clear state gives the result of the queue and leaves its bytes.** -/
theorem Inv.clear_of_shown {s' : State ι} {result : Result} (h : Inv s f) (hspec : specStep f op = some f')
    (hstep : MojBuffer.step s op = some (s', result)) (hanswers : Answers f op result)
    (hshown : ∀ c, (s'.buffers c).toByteVec = some (f' c)) : Clear s op := by
  by_contra hnot
  cases op with
  | write c bytes =>
    simp only [Clear, not_or] at hnot
    obtain ⟨pos, hstale⟩ := eq_of_not_fresh hnot.2
    simp only [MojBuffer.step, hstale, write_of_nil pos hnot.1, Option.bind_eq_bind, Option.bind_some,
      Option.some.injEq, Prod.mk.injEq] at hstep
    have hc := hshown c
    simp [← hstep.1, h.toByteVec_of_stale hstale] at hc
  | writeByte c b =>
    obtain ⟨pos, hstale⟩ := eq_of_not_fresh hnot
    simp only [MojBuffer.step, hstale, writeByte_of_nil pos b, Option.bind_eq_bind, Option.bind_some,
      Option.some.injEq, Prod.mk.injEq] at hstep
    have hc := hshown c
    simp [← hstep.1, h.toByteVec_of_stale hstale] at hc
  | empty c =>
    obtain ⟨pos, hstale⟩ := eq_of_not_fresh hnot
    have hcontent := (h c).content
    simp only [MojBuffer.step, hstale, empty, Option.some.injEq, Prod.mk.injEq] at hstep
    rw [hstale] at hcontent
    generalize hq : f c = q at hcontent
    cases hcontent
    simp [Answers, ← hstep.2, hq] at hanswers
  | data c =>
    obtain ⟨next', buf', hdata, -⟩ := (h c).data
    simp only [MojBuffer.step, hdata, Option.bind_eq_bind, Option.bind_some, Option.some.injEq, Prod.mk.injEq] at hstep
    refine hnot ((h c).content.atBegin_iff.mpr ?_)
    simpa [Answers, ← hstep.2] using hanswers
  | release c =>
    obtain ⟨next', buf', chunk, hrelease, -, hchunk, -⟩ := (h c).release
    simp only [MojBuffer.step, hrelease, Option.bind_eq_bind, Option.bind_some, Option.some.injEq, Prod.mk.injEq] at hstep
    refine hnot ((h c).content.atBegin_iff.mpr ?_)
    rw [← hchunk]
    simpa [Answers, ← hstep.2] using hanswers
  | assign c rhs =>
    simp only [Clear, Classical.not_imp] at hnot
    obtain ⟨rfl, hdrained⟩ := hnot
    simp only [specStep, if_true, Option.some.injEq] at hspec
    simp only [MojBuffer.step, assign_self, Option.some.injEq, Prod.mk.injEq] at hstep
    have hc := hshown c
    simp only [← hstep.1, ← hspec, Function.update_self] at hc
    exact hdrained ((h c).content.drained_iff.mpr (Option.some.inj hc).symm)
  | _ => exact hnot trivial

theorem Inv.behaves_iff {ops : List (Op ι)} (h : Inv s f) : Behaves s f ops ↔ Clears s ops := by
  induction ops generalizing s f with
  | nil => exact Iff.rfl
  | cons op ops ih =>
    constructor
    · intro hbehaves
      cases hspec : specStep f op with
      | none =>
        obtain ⟨c, size, rfl, -⟩ := specStep_eq_none hspec
        exact ⟨trivial, fun s' result hstep => absurd (hstep.symm.trans (h.step_eq_none hspec)) nofun⟩
      | some f' =>
        obtain ⟨s', result, hstep, hanswers, hshown, hrest⟩ := hbehaves f' hspec
        have hclear := h.clear_of_shown hspec hstep hanswers hshown
        obtain ⟨s₁, result₁, hstep₁, -, hinv⟩ := h.step hclear hspec
        refine ⟨hclear, fun s₂ result₂ hstep₂ => ?_⟩
        cases hstep.symm.trans hstep₁
        cases hstep.symm.trans hstep₂
        exact (ih hinv).mp hrest
    · rintro ⟨hclear, hrest⟩ f' hspec
      obtain ⟨s', result, hstep, hanswers, hinv⟩ := h.step hclear hspec
      exact ⟨s', result, hstep, hanswers, fun c => (hinv c).content.toByteVec, (ih hinv).mpr (hrest s' result hstep)⟩

/-- **Buffers are byte queues just when no operation of the run reaches one of the defects.** -/
theorem behaves_iff_clears (ops : List (Op ι)) : Behaves (start ι) (fun _ => []) ops ↔ Clears (start ι) ops :=
  (inv_start ι).behaves_iff

/-- A consumed byte comes again with `data`; a byte is lost after `release`; so is one in a buffer that is assigned to itself. -/
theorem not_behaves_consumed :
    ¬Behaves (start Unit) (fun _ => []) [.write () [1, 2], .advance () 1, .data ()] ∧
      ¬Behaves (start Unit) (fun _ => []) [.write () [1], .release (), .write () [2]] ∧
      ¬Behaves (start Unit) (fun _ => []) [.write () [1], .assign () ()] := by
  refine ⟨fun h => ?_, fun h => ?_, fun h => ?_⟩
  · obtain ⟨-, hrest⟩ := (inv_start Unit).behaves_iff.mp h
    obtain ⟨-, hrest⟩ := hrest _ _ rfl
    exact absurd ((hrest _ _ rfl).1 _ rfl) (by decide)
  · obtain ⟨-, hrest⟩ := (inv_start Unit).behaves_iff.mp h
    obtain ⟨-, hrest⟩ := hrest _ _ rfl
    rcases (hrest _ _ rfl).1 with hnil | hfresh
    · cases hnil
    · cases hfresh rfl
  · obtain ⟨-, hrest⟩ := (inv_start Unit).behaves_iff.mp h
    exact absurd ((hrest _ _ rfl).1 rfl _ rfl).2 (by decide)

end MojBuffer

end Db8
