import Db8.Db.MojDbDumpPass

/-!
# Db.MojDbDumpPages

The pages of a backup, one after the other.

* `DumpPos`            — how far the two passes have come; `Reads`: a key has this.
* `dumpImpl_spec`      — a pass: what it writes, and what it puts in the response.
* `preBackup_spec`     — a page: the kinds, then the live objects, then the deleted ones, as far as they fit.
* `dumpPages_spec`     — the pages are those of `Lib.Fill`.
* `exists_backsUp`     — they have every object once, unless one does not fit on a page that begins with it.
-/

namespace Db8

open Lib MojObject
open MojDbIsamQuery (Fault)
open MojDbQuotaEngine (RootKindId)

namespace MojDb

open MojDbData (Valid SoundObj)

variable {env : MojDbEnv} {root table : MojDbKindIndex} {d : MojDbData}

/-! ## Positions -/

/-- How far the pass over the live objects and the one over the deleted objects have come. -/
structure DumpPos where
  rev : Int64
  delRev : Int64

namespace DumpPos

def of (pos : DumpPos) (incDel : Bool) : Int64 := if incDel then pos.delRev else pos.rev

/-- Behind an object of a pass. -/
def advance (pos : DumpPos) (item : Bool × MojObject) : DumpPos :=
  if item.1 then { pos with delRev := objRev item.2 } else { pos with rev := objRev item.2 }

/-- A position that is not that of an object is -1. -/
def Sound (pos : DumpPos) : Prop := ∀ incDel, pos.of incDel = -1 ∨ 1 ≤ pos.of incDel

theorem of_advance (pos : DumpPos) (item : Bool × MojObject) (incDel : Bool) :
    (pos.advance item).of incDel = if incDel = item.1 then objRev item.2 else pos.of incDel := by
  obtain ⟨pass, obj⟩ := item
  cases pass <;> cases incDel <;> rfl

/-- The objects of one pass. -/
theorem of_foldl (pos : DumpPos) (pass incDel : Bool) (objs : List MojObject) :
    ((objs.map (Prod.mk pass)).foldl advance pos).of incDel =
      if incDel = pass then (objs.getLast?.map objRev).getD (pos.of incDel) else pos.of incDel := by
  induction objs generalizing pos with
  | nil => simp
  | cons obj objs ih =>
    rw [List.map_cons, List.foldl_cons, ih, of_advance]
    split_ifs with hpass
    · rw [List.getLast?_cons]
      cases objs.getLast? with
      | none => rfl
      | some last => rfl
    · rfl

end DumpPos

/-- The name that a pass has in the key. -/
def keyNameOf (incDel : Bool) : MojString := if incDel then DeletedRevKey else RevNumKey

theorem keyNameOf_ne (incDel : Bool) : keyNameOf (!incDel) ≠ keyNameOf incDel := by
  cases incDel <;> decide

/-- A key has the position. -/
def Reads (key : Option MojObject) (pos : DumpPos) : Prop :=
  ∀ incDel, ((key.bind fun k => k.get (keyNameOf incDel)).getD (.int (-1))) = .int (pos.of incDel)

/-- What the key of a response has under a name. -/
def keyAt (response : MojObject) (name : MojString) : Option MojObject :=
  (response.get IncrementalKey).bind fun k => k.get name

theorem get_incremental (response : MojObject) (name : MojString) :
    ((response.get IncrementalKey).getD .undefined).get name = keyAt response name := by
  rw [keyAt]
  cases response.get IncrementalKey with
  | none => rfl
  | some key => rfl

theorem keyAt_put_incremental (response key : MojObject) (name : MojString) :
    keyAt (response.put IncrementalKey key) name = key.get name := by
  rw [keyAt, get_put_self]
  rfl

section Response

variable {response : MojObject} {name other : MojString} {n : Int64}

theorem keyAt_insert (h : 1 ≤ n) : keyAt (insertIncrementalKey name (.int n) response) name = some (.int n) := by
  rw [insertIncrementalKey, if_neg, keyAt_put_incremental, get_put_self]
  exact Int64.not_lt.mpr h

theorem keyAt_insert_none (h : ¬1 ≤ n) : keyAt (insertIncrementalKey name (.int n) response) other = keyAt response other := by
  rw [insertIncrementalKey, if_pos, keyAt_put_incremental, get_incremental]
  exact Int64.not_le.mp h

theorem keyAt_insert_of_ne (hne : other ≠ name) :
    keyAt (insertIncrementalKey name (.int n) response) other = keyAt response other := by
  by_cases h : 1 ≤ n
  · rw [insertIncrementalKey, if_neg, keyAt_put_incremental, get_put_of_ne hne, get_incremental]
    exact Int64.not_lt.mpr h
  · exact keyAt_insert_none h

theorem hasMore_insert : (insertIncrementalKey name (.int n) response).get HasMoreKey = response.get HasMoreKey := by
  rw [insertIncrementalKey]
  split_ifs
  · exact get_put_of_ne (by decide) _ _
  · exact get_put_of_ne (by decide) _ _

/-- A position that the key did not have. -/
theorem getD_insert (h : n = -1 ∨ 1 ≤ n) (hnone : keyAt response name = none) :
    (keyAt (insertIncrementalKey name (.int n) response) name).getD (.int (-1)) = .int n := by
  by_cases hle : 1 ≤ n
  · rw [keyAt_insert hle]
    rfl
  · rw [keyAt_insert_none hle, hnone]
    rw [h.resolve_right hle]
    rfl

end Response

/-- The other pass has its place too. -/
theorem handleBackupFull_eq (pos : DumpPos) (incDel : Bool) (response : MojObject) :
    handleBackupFull (.int pos.rev) (.int pos.delRev) (keyNameOf incDel) response =
      if (keyAt response (keyNameOf !incDel)).isNone then
        insertIncrementalKey (keyNameOf !incDel) (.int (pos.of !incDel))
          ((response.put HasMoreKey (.bool true)).put IncrementalKey ((response.get IncrementalKey).getD .undefined))
      else (response.put HasMoreKey (.bool true)).put IncrementalKey ((response.get IncrementalKey).getD .undefined) := by
  rw [← get_incremental]
  cases incDel with
  | false => rfl
  | true => rfl

/-- **When the backup is full the key has the place of both passes**: that of the full pass, and that of the other one as it
was recorded before or as it came with the request. -/
theorem full_spec {pos : DumpPos} (hpos : pos.Sound) {incDel : Bool} {response : MojObject} {m n : Int64}
    (hm : m = -1 ∨ 1 ≤ m) (hown : keyAt response (keyNameOf incDel) = none)
    (hother : keyAt response (keyNameOf !incDel) = some (.int n) ∨
      keyAt response (keyNameOf !incDel) = none ∧ n = pos.of !incDel) :
    let response' := handleBackupFull (.int pos.rev) (.int pos.delRev) (keyNameOf incDel)
      (insertIncrementalKey (keyNameOf incDel) (.int m) response)
    response'.get HasMoreKey = some (.bool true) ∧
      (keyAt response' (keyNameOf incDel)).getD (.int (-1)) = .int m ∧
      (keyAt response' (keyNameOf !incDel)).getD (.int (-1)) = .int n := by
  intro response'
  have hne := keyNameOf_ne incDel
  have hput : ∀ name, keyAt (((insertIncrementalKey (keyNameOf incDel) (.int m) response).put HasMoreKey (.bool true)).put
      IncrementalKey (((insertIncrementalKey (keyNameOf incDel) (.int m) response).get IncrementalKey).getD .undefined)) name =
      keyAt (insertIncrementalKey (keyNameOf incDel) (.int m) response) name := by
    intro name
    rw [keyAt_put_incremental, get_incremental]
  have heq := handleBackupFull_eq pos incDel (insertIncrementalKey (keyNameOf incDel) (.int m) response)
  rw [keyAt_insert_of_ne hne] at heq
  cases hother with
  | inl hsome =>
    rw [if_neg (by rw [hsome]; exact Bool.false_ne_true)] at heq
    change response' = _ at heq
    rw [heq]
    refine ⟨?_, ?_, ?_⟩
    · rw [get_put_of_ne (by decide), get_put_self]
    · rw [hput]
      exact getD_insert hm hown
    · rw [hput, keyAt_insert_of_ne hne, hsome]
      rfl
  | inr hnone =>
    obtain ⟨hnone, rfl⟩ := hnone
    rw [if_pos (by rw [hnone]; rfl)] at heq
    change response' = _ at heq
    rw [heq]
    refine ⟨?_, ?_, ?_⟩
    · rw [hasMore_insert, get_put_of_ne (by decide), get_put_self]
    · rw [keyAt_insert_of_ne hne.symm, hput]
      exact getD_insert hm hown
    · refine getD_insert (hpos _) ?_
      rw [hput, keyAt_insert_of_ne hne, hnone]

/-! ## A pass -/

theorem lastRev_eq (curRev : Option MojObject) (objs : List MojObject) :
    lastRev curRev objs = (objs.getLast?.map fun obj => MojObject.int (objRev obj)).or curRev := by
  induction objs generalizing curRev with
  | nil => rfl
  | cons obj objs ih =>
    change lastRev (some (.int (objRev obj))) objs = _
    rw [ih, List.getLast?_cons]
    cases objs.getLast? with
    | none => rfl
    | some last => rfl

/-- What a pass puts in the response. -/
def passResponse (pos : DumpPos) (incDel : Bool) (taken : List MojObject) (full : Bool) (response : MojObject) : MojObject :=
  match taken.getLast?, full with
  | none, false => response
  | some obj, false => insertIncrementalKey (keyNameOf incDel) (.int (objRev obj)) response
  | last, true =>
    handleBackupFull (.int pos.rev) (.int pos.delRev) (keyNameOf incDel)
      (insertIncrementalKey (keyNameOf incDel) (.int ((last.map objRev).getD (pos.of incDel))) response)

theorem map_passResponse (pos : DumpPos) (incDel : Bool) (taken : List MojObject) (full : Bool) (response : Option MojObject) :
    (if full then
      response.map fun response => handleBackupFull (.int pos.rev) (.int pos.delRev) (keyNameOf incDel)
        (insertIncrementalKey (keyNameOf incDel) ((lastRev none taken).getD (if incDel then .int pos.delRev else .int pos.rev)) response)
    else
      match lastRev none taken with
      | none => response
      | some curRev => response.map (insertIncrementalKey (keyNameOf incDel) curRev)) =
      response.map (passResponse pos incDel taken full) := by
  rw [lastRev_eq, Option.or_none]
  unfold passResponse
  cases full with
  | false =>
    cases taken.getLast? with
    | none => exact Option.map_id'.symm
    | some last => rfl
  | true =>
    cases taken.getLast? with
    | none =>
      cases incDel with
      | false => rfl
      | true => rfl
    | some last => rfl

/-- **A pass** writes what it has to, up to the first object that does not fit. -/
theorem dumpImpl_spec (hb : Builtins env root table) (h : Valid env d) (hnumbered : Numbered d) (hfew : Few d) {args : DumpArgs}
    (hbackup : args.backup = true) (pos : DumpPos) (incDel : Bool) {objs : List MojObject}
    (hdue : Due env d incDel (pos.of incDel) objs) (s : DumpState) :
    let page := Fill.fill (fitsIn args.maxBytes) lineSize s.file.bytesWritten objs
    ∃ s' warns, dumpImpl env d args incDel (.int pos.rev) (.int pos.delRev) (!incDel) (keyNameOf incDel) s = .ok (s', warns) ∧
      s'.file = s.file.add page.1 ∧ s'.response = s.response.map (passResponse pos incDel page.1 (!page.2.isEmpty)) := by
  intro page
  have hplans := plans_synced hb incDel (pos.of incDel)
  obtain ⟨items, found, hcome, hobjs, hstored, hfound⟩ := exists_due hb h hnumbered hfew incDel (pos.of incDel)
  obtain ⟨hok, -⟩ := hplans.planned.open_rest d
  have hread : ∀ obj ∈ found, Readable obj := by
    intro obj hobj
    obtain ⟨k, hobj⟩ := hstored obj hobj
    exact readable_of_sound (h.sound k obj hobj)
  obtain ⟨pass', full, hloop, hfile, hcurRev, hfull⟩ := @dumpLoop_fill
    ((cursorOf root (syncedQuery incDel (pos.of incDel))).source env d) (d.isamStore root (syncedQuery incDel (pos.of incDel)).distinct)
    (!incDel) args.maxBytes _ _ hok (Nat.lt_succ_of_le (MojDbIsamQuery.length_rest_le _ _)) items hcome found hobjs hread
    ⟨s.file, s.count, none, 0⟩
  rw [Bool.not_not] at hfile hcurRev hfull
  obtain rfl := hdue.unique hfound
  have himpl : dumpImpl env d args incDel (.int pos.rev) (.int pos.delRev) (!incDel) (keyNameOf incDel) s =
      .ok (⟨pass'.file, pass'.count, if full then
        s.response.map fun response => handleBackupFull (.int pos.rev) (.int pos.delRev) (keyNameOf incDel)
          (insertIncrementalKey (keyNameOf incDel) (pass'.curRev.getD (if incDel then .int pos.delRev else .int pos.rev)) response)
        else
          match pass'.curRev with
          | none => s.response
          | some curRev => s.response.map (insertIncrementalKey (keyNameOf incDel) curRev)⟩, pass'.warns) := by
    rw [dumpImpl, hbackup, dumpQuery_eq, ok_bind]
    rw [show (if incDel then pos.delRev else pos.rev) = pos.of incDel from rfl, hplans.planned.findImpl_eq]
    dsimp only
    refine Eq.trans (congrArg (· >>= _) hloop) ?_
    rfl
  refine ⟨_, _, himpl, hfile, ?_⟩
  rw [hfull, hcurRev]
  exact map_passResponse pos incDel page.1 (!page.2.isEmpty) s.response

/-- The kinds that have changed since a position. -/
def kindsDue (kinds : List MojObject) (pos : DumpPos) : List MojObject :=
  kinds.filter fun kind => kind.getBool MojDbKind.SyncKey false && decide (pos.of (kind.getBool DelKey false) < objRev kind)

theorem fitsIn_mono {maxBytes m n : Nat} (hle : m ≤ n) (h : fitsIn maxBytes n = true) : fitsIn maxBytes m = true := by
  simp only [fitsIn, Bool.or_eq_true, decide_eq_true_eq] at h ⊢
  exact h.imp_right hle.trans

/-- The kinds come first, and have to fit. -/
theorem dumpKinds_eq {args : DumpArgs} (hbackup : args.backup = true) (pos : DumpPos) {kinds : List MojObject}
    (hkinds : ∀ kind ∈ kinds, kind.get RevKey = some (.int (objRev kind))) {s : DumpState}
    (hfits : fitsIn args.maxBytes s.file.bytesWritten = true) :
    dumpKinds args (.int pos.rev) (.int pos.delRev) kinds s =
      if fitsIn args.maxBytes (s.file.bytesWritten + ((kindsDue kinds pos).map lineSize).sum) then
        .ok { s with file := s.file.add (kindsDue kinds pos), count := s.count + (kindsDue kinds pos).length }
      else .error .dbBackupFull := by
  induction kinds generalizing s with
  | nil =>
    rw [kindsDue, List.filter_nil, List.map_nil, List.sum_nil, Nat.add_zero, if_pos hfits, DumpFile.add_nil]
    rfl
  | cons kind kinds ih =>
    have hrev := hkinds kind List.mem_cons_self
    have hnext := fun {s} => @ih (fun k hk => hkinds k (List.mem_cons_of_mem kind hk)) s
    rw [dumpKinds, hbackup, Bool.true_and]
    cases hsync : kind.getBool MojDbKind.SyncKey false with
    | false =>
      have hdue : kindsDue (kind :: kinds) pos = kindsDue kinds pos :=
        List.filter_cons_of_neg (by rw [hsync]; exact Bool.false_ne_true)
      rw [hdue]
      exact hnext hfits
    | true =>
      have hget : kind.getRequired RevKey = .ok (.int (objRev kind)) := by rw [MojObject.getRequired, hrev]
      have hsince : (if kind.getBool DelKey false then MojObject.int pos.delRev else .int pos.rev) =
          .int (pos.of (kind.getBool DelKey false)) := by
        rw [DumpPos.of]
        split_ifs <;> rfl
      have hcompare : (MojObject.int (objRev kind)).compare (.int (pos.of (kind.getBool DelKey false))) = .gt ↔
          pos.of (kind.getBool DelKey false) < objRev kind := by
        change cmp (objRev kind) _ = .gt ↔ _
        rw [Int64.cmp_eq_cmp_toInt, cmp_eq_gt_iff, Int64.lt_iff_toInt_lt]
      rw [Bool.not_true, if_neg Bool.false_ne_true, hget, ok_bind]
      dsimp only
      rw [hsince, dumpObj_eq]
      by_cases hlt : pos.of (kind.getBool DelKey false) < objRev kind
      · have hdue : kindsDue (kind :: kinds) pos = kind :: kindsDue kinds pos :=
          List.filter_cons_of_pos (by rw [hsync, Bool.true_and, decide_eq_true_eq]; exact hlt)
        rw [if_pos (hcompare.mpr hlt), hdue, List.map_cons, List.sum_cons, ← Nat.add_assoc]
        by_cases hkind : fitsIn args.maxBytes (s.file.bytesWritten + lineSize kind) = true
        · have hused : (s.file.add [kind]).bytesWritten = s.file.bytesWritten + lineSize kind := by
            rw [DumpFile.add, List.map_singleton, List.sum_singleton]
          have hcount : s.count + 1 + (kindsDue kinds pos).length = s.count + (kind :: kindsDue kinds pos).length := by
            rw [List.length_cons]
            omega
          rw [if_pos hkind]
          dsimp only
          rw [hnext (by rwa [hused]), hused]
          dsimp only
          rw [DumpFile.add_add, List.singleton_append, hcount]
        · rw [if_neg hkind, if_neg]
          exact fun hall => hkind (fitsIn_mono (Nat.le_add_right _ _) hall)
      · have hdue : kindsDue (kind :: kinds) pos = kindsDue kinds pos :=
          List.filter_cons_of_neg (by rw [hsync, Bool.true_and, decide_eq_true_eq]; exact hlt)
        rw [if_neg (fun hgt => hlt (hcompare.mp hgt)), hdue]
        exact hnext hfits

/-! ## A page -/

section Response

variable {pos : DumpPos} {incDel : Bool} {taken : List MojObject} {response : MojObject}

/-- A pass that is done records the place of its last object. -/
theorem passResponse_done (htaken : ∀ obj ∈ taken, 1 ≤ objRev obj) :
    (passResponse pos incDel taken false response).get HasMoreKey = response.get HasMoreKey ∧
      keyAt (passResponse pos incDel taken false response) (keyNameOf incDel) =
        (taken.getLast?.map fun obj => MojObject.int (objRev obj)).or (keyAt response (keyNameOf incDel)) ∧
      keyAt (passResponse pos incDel taken false response) (keyNameOf !incDel) = keyAt response (keyNameOf !incDel) := by
  unfold passResponse
  cases hlast : taken.getLast? with
  | none => exact ⟨rfl, rfl, rfl⟩
  | some last =>
    have hpos := htaken last (List.mem_of_getLast? hlast)
    exact ⟨hasMore_insert, keyAt_insert hpos, keyAt_insert_of_ne (keyNameOf_ne incDel)⟩

/-- What two passes have recorded that are done. -/
theorem keyAt_done (pos : DumpPos) {live gone : List MojObject} (hlive : ∀ obj ∈ live, 1 ≤ objRev obj)
    (hgone : ∀ obj ∈ gone, 1 ≤ objRev obj) (incDel : Bool) :
    (keyAt (passResponse pos true gone false (passResponse pos false live false .undefined)) (keyNameOf incDel)).getD (.int (-1)) =
      .int (((if incDel then gone else live).getLast?.map objRev).getD (-1)) := by
  obtain ⟨-, hfirst, hother⟩ := @passResponse_done pos false live .undefined hlive
  obtain ⟨-, hsecond, hkept⟩ := @passResponse_done pos true gone (passResponse pos false live false .undefined) hgone
  cases incDel with
  | false =>
    have hkey := hkept.trans hfirst
    change keyAt _ (keyNameOf false) = _ at hkey
    rw [hkey, if_neg Bool.false_ne_true]
    cases live.getLast? with
    | none => rfl
    | some last => rfl
  | true =>
    change keyAt _ (keyNameOf true) = _ at hother
    rw [hsecond, hother, if_pos rfl]
    cases gone.getLast? with
    | none => rfl
    | some last => rfl

/-- A pass that is not done records the place of both. -/
theorem passResponse_full (hpos : pos.Sound) (htaken : ∀ obj ∈ taken, 1 ≤ objRev obj) {n : Int64}
    (hown : keyAt response (keyNameOf incDel) = none)
    (hother : keyAt response (keyNameOf !incDel) = some (.int n) ∨
      keyAt response (keyNameOf !incDel) = none ∧ n = pos.of !incDel) :
    (passResponse pos incDel taken true response).get HasMoreKey = some (.bool true) ∧
      (keyAt (passResponse pos incDel taken true response) (keyNameOf incDel)).getD (.int (-1)) =
        .int ((taken.getLast?.map objRev).getD (pos.of incDel)) ∧
      (keyAt (passResponse pos incDel taken true response) (keyNameOf !incDel)).getD (.int (-1)) = .int n := by
  have hplace : (taken.getLast?.map objRev).getD (pos.of incDel) = -1 ∨ 1 ≤ (taken.getLast?.map objRev).getD (pos.of incDel) := by
    cases hlast : taken.getLast? with
    | none => exact hpos incDel
    | some last => exact .inr (htaken last (List.mem_of_getLast? hlast))
  have hfull := full_spec hpos hplace hown hother
  unfold passResponse
  cases htakenLast : taken.getLast? with
  | none =>
    rw [htakenLast] at hfull
    exact hfull
  | some last =>
    rw [htakenLast] at hfull
    exact hfull

end Response

/-- What the two passes have to write, one behind the other. -/
def itemsOf (live gone : List MojObject) : List (Bool × MojObject) := live.map (Prod.mk false) ++ gone.map (Prod.mk true)

/-- The bytes of the kinds on a page. -/
def headSize (kinds : List MojObject) (pos : DumpPos) : Nat := ((kindsDue kinds pos).map lineSize).sum

def itemSize (item : Bool × MojObject) : Nat := lineSize item.2

/-- The key of a response has the place behind the objects of the page. -/
theorem reads_of_keyAt {response : MojObject} {pos : DumpPos}
    (h : ∀ incDel, (keyAt response (keyNameOf incDel)).getD (.int (-1)) = .int (pos.of incDel)) :
    Reads (response.get IncrementalKey) pos := h

theorem bind_filter_isEmpty (key : Option MojObject) (name : MojString) :
    ((key.filter (!isEmpty ·)).bind fun k => k.get name) = key.bind fun k => k.get name := by
  cases key with
  | none => rfl
  | some k =>
    cases hempty : isEmpty k with
    | false => rw [Option.filter_some_pos (by rw [hempty]; rfl)]
    | true =>
      rw [Option.filter_some_neg (by rw [hempty]; rfl)]
      cases k with
      | object ps =>
        rw [List.isEmpty_iff.mp hempty]
        rfl
      | _ => rfl

/-- A page begins at the position with the kinds, then has the items; there are more or not. The key of the last page has
only the places that were recorded on it. -/
structure IsPage (kinds : List MojObject) (pos : DumpPos) (taken : List (Bool × MojObject)) (more : Bool) (page : DumpState) : Prop where
  file : page.file = (DumpFile.mk [] 0).add (kindsDue kinds pos ++ taken.map Prod.snd)
  more_eq : ((page.response.getD .undefined).get HasMoreKey).isNone = !more
  key : Reads ((page.response.getD .undefined).get IncrementalKey) (taken.foldl DumpPos.advance (if more then pos else ⟨-1, -1⟩))

/-- The other properties of the response. -/
theorem IsPage.put {kinds : List MojObject} {pos : DumpPos} {taken : List (Bool × MojObject)} {more : Bool} {page : DumpState}
    (h : IsPage kinds pos taken more page) (full version warns : MojObject) :
    IsPage kinds pos taken more { page with
      response := page.response.map fun response =>
        ((response.put FullKey full).put VersionKey version).put WarningsKey warns } := by
  have hget : ∀ key : MojString, key ≠ FullKey → key ≠ VersionKey → key ≠ WarningsKey →
      ((page.response.map fun (response : MojObject) => ((response.put FullKey full).put VersionKey version).put WarningsKey warns).getD
        .undefined).get key = (page.response.getD .undefined).get key := by
    intro key hfull hversion hwarns
    cases page.response with
    | none => rfl
    | some response =>
      dsimp only [Option.map_some, Option.getD_some]
      rw [get_put_of_ne hwarns, get_put_of_ne hversion, get_put_of_ne hfull]
  refine ⟨h.file, ?_, ?_⟩
  · dsimp only
    rw [hget HasMoreKey (by decide) (by decide) (by decide)]
    exact h.more_eq
  · dsimp only
    rw [hget IncrementalKey (by decide) (by decide) (by decide)]
    exact h.key

/-- The place behind the objects of both passes. -/
theorem of_itemsOf (pos : DumpPos) (live gone : List MojObject) (incDel : Bool) :
    ((itemsOf live gone).foldl DumpPos.advance pos).of incDel =
      ((if incDel then gone else live).getLast?.map objRev).getD (pos.of incDel) := by
  rw [itemsOf, List.foldl_append, DumpPos.of_foldl, DumpPos.of_foldl]
  cases incDel <;> rfl

theorem map_snd_itemsOf (live gone : List MojObject) : (itemsOf live gone).map Prod.snd = live ++ gone := by
  rw [itemsOf, List.map_append, List.map_map, List.map_map]
  exact congrArg₂ _ (List.map_id live) (List.map_id gone)

/-- The live objects fill the page, or the deleted ones come behind them. -/
theorem fill_itemsOf (bytes used : Nat) (live gone : List MojObject) :
    let first := Fill.fill (fitsIn bytes) lineSize used live
    let second := Fill.fill (fitsIn bytes) lineSize (used + (live.map lineSize).sum) gone
    Fill.fill (fitsIn bytes) itemSize used (itemsOf live gone) =
      if first.2.isEmpty then (itemsOf live second.1, second.2.map (Prod.mk true))
      else (itemsOf first.1 [], itemsOf first.2 gone) := by
  intro first second
  have hlive := @Fill.fill_map _ (fitsIn bytes) used live _ itemSize (Prod.mk false)
  have hgone := @Fill.fill_map _ (fitsIn bytes) (used + (live.map lineSize).sum) gone _ itemSize (Prod.mk true)
  have hsizes : ((live.map (Prod.mk false)).map itemSize).sum = (live.map lineSize).sum := by
    rw [List.map_map]
    rfl
  rw [itemsOf, Fill.fill_behind, hlive, hsizes, hgone, List.isEmpty_map]
  change (if first.2.isEmpty = true then (live.map (Prod.mk false) ++ second.1.map (Prod.mk true), second.2.map (Prod.mk true))
    else (first.1.map (Prod.mk false), first.2.map (Prod.mk false) ++ gone.map (Prod.mk true))) = _
  rw [itemsOf, itemsOf, itemsOf, List.map_nil, List.append_nil]

theorem Due.pos {incDel : Bool} {n : Int64} {objs : List MojObject} (hnumbered : Numbered d) (h : Due env d incDel n objs) :
    ∀ obj ∈ objs, 1 ≤ objRev obj := by
  intro obj hobj
  obtain ⟨⟨k, hstored⟩, -⟩ := (h.mem_iff obj).mp hobj
  exact hnumbered.pos k obj hstored

theorem mem_of_fill {fits : Nat → Bool} {weight : MojObject → Nat} {used : Nat} {objs : List MojObject} :
    ∀ obj ∈ (Fill.fill fits weight used objs).1, obj ∈ objs := by
  intro obj hobj
  have happend := @Fill.fill_append _ fits weight used objs
  rw [← happend]
  exact List.mem_append_left _ hobj

section Page

variable {pos : DumpPos} {kinds live gone : List MojObject} {bytes : Nat} {s : DumpState} (hpos : pos.Sound)
  (hlive : ∀ obj ∈ live, 1 ≤ objRev obj)

include hpos hlive

/-- The page is full in the pass over the live objects. -/
theorem isPage_live :
    let first := Fill.fill (fitsIn bytes) lineSize (headSize kinds pos) live
    let filled := Fill.fill (fitsIn bytes) itemSize (headSize kinds pos) (itemsOf live gone)
    first.2.isEmpty = false → s.file = ((DumpFile.mk [] 0).add (kindsDue kinds pos)).add first.1 →
    s.response = some (passResponse pos false first.1 true .undefined) → IsPage kinds pos filled.1 (!filled.2.isEmpty) s := by
  intro first filled hleft hfile hresponse
  have htaken : ∀ obj ∈ first.1, 1 ≤ objRev obj := fun obj hobj => hlive obj (mem_of_fill obj hobj)
  have hfull := @passResponse_full pos false first.1 .undefined hpos htaken (pos.of true) rfl (.inr ⟨rfl, rfl⟩)
  have hfilled : filled = (itemsOf first.1 [], itemsOf first.2 gone) :=
    (fill_itemsOf bytes (headSize kinds pos) live gone).trans (if_neg (by rw [hleft]; exact Bool.false_ne_true))
  have hsome : first.2 ≠ [] := fun hnil => by
    rw [hnil] at hleft
    cases hleft
  have hmore : filled.2.isEmpty = false := by simp [hfilled, itemsOf, hsome]
  refine ⟨?_, ?_, ?_⟩
  · rw [hfile, DumpFile.add_add, hfilled, map_snd_itemsOf, List.append_nil]
  · rw [hresponse, hmore]
    exact congrArg Option.isNone hfull.1
  · rw [hresponse, hmore, hfilled]
    refine reads_of_keyAt fun incDel => ?_
    rw [of_itemsOf]
    cases incDel with
    | false => exact hfull.2.1
    | true => exact hfull.2.2

/-- The page is full in the pass over the deleted objects, or both passes are done. -/
theorem isPage_gone (hgone : ∀ obj ∈ gone, 1 ≤ objRev obj) :
    let first := Fill.fill (fitsIn bytes) lineSize (headSize kinds pos) live
    let second := Fill.fill (fitsIn bytes) lineSize (headSize kinds pos + (live.map lineSize).sum) gone
    let filled := Fill.fill (fitsIn bytes) itemSize (headSize kinds pos) (itemsOf live gone)
    first.2.isEmpty = true → s.file = (((DumpFile.mk [] 0).add (kindsDue kinds pos)).add live).add second.1 →
    s.response = some (passResponse pos true second.1 (!second.2.isEmpty) (passResponse pos false live false .undefined)) →
    IsPage kinds pos filled.1 (!filled.2.isEmpty) s := by
  intro first second filled hdone hfile hresponse
  have htaken : ∀ obj ∈ second.1, 1 ≤ objRev obj := fun obj hobj => hgone obj (mem_of_fill obj hobj)
  have hfirst := @passResponse_done pos false live .undefined hlive
  have hrecorded : keyAt (passResponse pos false live false .undefined) (keyNameOf false) =
      some (.int ((live.getLast?.map objRev).getD (pos.of false))) ∨
      keyAt (passResponse pos false live false .undefined) (keyNameOf false) = none ∧
        (live.getLast?.map objRev).getD (pos.of false) = pos.of false := by
    rw [hfirst.2.1]
    cases live.getLast? with
    | none => exact .inr ⟨rfl, rfl⟩
    | some last => exact .inl rfl
  have hfull := @passResponse_full pos true second.1 _ hpos htaken _ hfirst.2.2 hrecorded
  have hfilled : filled = (itemsOf live second.1, second.2.map (Prod.mk true)) :=
    (fill_itemsOf bytes (headSize kinds pos) live gone).trans (if_pos hdone)
  have hmore : filled.2.isEmpty = second.2.isEmpty := by rw [hfilled, List.isEmpty_map]
  refine ⟨?_, ?_, ?_⟩
  · rw [hfile, DumpFile.add_add, DumpFile.add_add, hfilled, map_snd_itemsOf]
  · rw [hmore, hresponse]
    cases second.2.isEmpty with
    | true => exact congrArg Option.isNone ((passResponse_done htaken).1.trans hfirst.1)
    | false => exact congrArg Option.isNone hfull.1
  · rw [hresponse, hmore, hfilled]
    refine reads_of_keyAt fun incDel => ?_
    rw [of_itemsOf]
    cases second.2.isEmpty with
    | true =>
      refine (keyAt_done pos hlive htaken incDel).trans ?_
      cases incDel <;> rfl
    | false =>
      cases incDel with
      | false => exact hfull.2.2
      | true => exact hfull.2.1

end Page

variable (hb : Builtins env root table) (h : Valid env d) (hnumbered : Numbered d) (hfew : Few d) {kindVec : List MojObject}
  (hkinds : ∀ kind ∈ kindVec, kind.get RevKey = some (.int (objRev kind)))

include hb h hnumbered hfew hkinds

/-- **A page** has the kinds that are due, then of the live objects and of the deleted ones what fits. -/
theorem preBackup_spec {key : Option MojObject} {pos : DumpPos} (hpos : pos.Sound) (hkey : Reads key pos) (bytes : Nat)
    {live gone : List MojObject} (hlive : Due env d false pos.rev live) (hgone : Due env d true pos.delRev gone) :
    let filled := Fill.fill (fitsIn bytes) itemSize (headSize kindVec pos) (itemsOf live gone)
    if fitsIn bytes (headSize kindVec pos) then
      ∃ page, preBackup env d kindVec bytes key = .ok page ∧ IsPage kindVec pos filled.1 (!filled.2.isEmpty) page
    else preBackup env d kindVec bytes key = .error (.err .dbBackupFull) := by
  intro filled
  have hrev : ((key.filter (!isEmpty ·)).bind fun k => k.get RevNumKey).getD (.int (-1)) = .int pos.rev := by
    rw [bind_filter_isEmpty]
    exact hkey false
  have hdelRev : ((key.filter (!isEmpty ·)).bind fun k => k.get DeletedRevKey).getD (.int (-1)) = .int pos.delRev := by
    rw [bind_filter_isEmpty]
    exact hkey true
  generalize hargs : (⟨true, true, true, bytes, key.filter (!isEmpty ·), true⟩ : DumpArgs) = args
  have hbackup : args.backup = true := hargs ▸ rfl
  have hbytes : args.maxBytes = bytes := hargs ▸ rfl
  have hdump := @dumpKinds_eq args hbackup pos kindVec hkinds ⟨⟨[], 0⟩, 0, some .undefined⟩ (by simp [fitsIn])
  rw [hbytes] at hdump
  dsimp only at hdump
  rw [Nat.zero_add] at hdump
  change dumpKinds args _ _ _ _ = (if fitsIn bytes (headSize kindVec pos) = true then _ else _) at hdump
  rw [preBackup, hargs, dump]
  have hadmin : args.admin = true := hargs ▸ rfl
  have hincDel : args.incDel = true := hargs ▸ rfl
  have hresponse : args.response = true := hargs ▸ rfl
  have hincremental : args.incrementalKey = key.filter (!isEmpty ·) := hargs ▸ rfl
  dsimp only
  rw [hadmin, hincremental, hrev, hdelRev, hresponse, hincDel, hbackup]
  simp only [Bool.not_true, Bool.false_eq_true, if_false, if_true, Bool.true_and]
  rw [hdump]
  by_cases hfits : fitsIn bytes (headSize kindVec pos) = true
  · rw [if_pos hfits, if_pos hfits]
    dsimp only
    obtain ⟨s₁, warns₁, hfirst, hfile₁, hresponse₁⟩ := dumpImpl_spec hb h hnumbered hfew hbackup pos false hlive
      ⟨(DumpFile.mk [] 0).add (kindsDue kindVec pos), 0 + (kindsDue kindVec pos).length, some .undefined⟩
    change dumpImpl env d args false (.int pos.rev) (.int pos.delRev) true RevNumKey _ = _ at hfirst
    have hused : ((DumpFile.mk [] 0).add (kindsDue kindVec pos)).bytesWritten = headSize kindVec pos := Nat.zero_add _
    dsimp only at hfile₁ hresponse₁
    rw [hbytes, hused] at hfile₁ hresponse₁
    have hlivePos := hlive.pos hnumbered
    rw [hfirst, ok_bind]
    dsimp only
    cases hdone : (Fill.fill (fitsIn bytes) lineSize (headSize kindVec pos) live).2.isEmpty with
    | false =>
      rw [hdone] at hresponse₁
      have htaken : ∀ obj ∈ (Fill.fill (fitsIn bytes) lineSize (headSize kindVec pos) live).1, 1 ≤ objRev obj :=
        fun obj hobj => hlivePos obj (mem_of_fill obj hobj)
      have hmore := (@passResponse_full pos false _ .undefined hpos htaken (pos.of true) rfl (.inr ⟨rfl, rfl⟩)).1
      -- the deleted objects come only if the live ones are done
      have hgo : (s₁.response.isSome && (s₁.response.bind fun response => response.get HasMoreKey).isNone) = false := by
        rw [hresponse₁]
        exact congrArg Option.isNone hmore
      rw [if_neg (by rw [hgo]; exact Bool.false_ne_true), ok_bind]
      exact ⟨_, rfl, (isPage_live hpos hlivePos hdone hfile₁ hresponse₁).put _ _ _⟩
    | true =>
      have hall : (Fill.fill (fitsIn bytes) lineSize (headSize kindVec pos) live).1 = live :=
        Fill.fill_of_nil (List.isEmpty_iff.mp hdone)
      rw [hdone, hall] at hresponse₁
      rw [hall] at hfile₁
      have hmore := (@passResponse_done pos false live .undefined hlivePos).1
      rw [if_pos (by rw [hresponse₁]; exact congrArg Option.isNone hmore)]
      obtain ⟨s₂, warns₂, hsecond, hfile₂, hresponse₂⟩ := dumpImpl_spec hb h hnumbered hfew hbackup pos true hgone s₁
      change dumpImpl env d args true (.int pos.rev) (.int pos.delRev) false DeletedRevKey _ = _ at hsecond
      have hused₁ : s₁.file.bytesWritten = headSize kindVec pos + (live.map lineSize).sum := by
        rw [hfile₁, DumpFile.add, hused]
      rw [hbytes, hused₁] at hfile₂ hresponse₂
      rw [hfile₁] at hfile₂
      rw [hresponse₁] at hresponse₂
      rw [hsecond, ok_bind]
      exact ⟨_, rfl, (isPage_gone hpos hlivePos (hgone.pos hnumbered) hdone hfile₂ hresponse₂).put _ _ _⟩
  · rw [if_neg hfits, if_neg hfits]

/-! ## Pages -/

omit hb h hnumbered hfew hkinds

/-- What is still to be written from a position on. -/
structure Pending (env : MojDbEnv) (d : MojDbData) (pos : DumpPos) (items : List (Bool × MojObject)) : Prop where
  sound : pos.Sound
  due : ∃ live gone, items = itemsOf live gone ∧ Due env d false pos.rev live ∧ Due env d true pos.delRev gone

theorem Due.lt {incDel : Bool} {n : Int64} {objs : List MojObject} (h : Due env d incDel n objs) :
    ∀ obj ∈ objs, n < objRev obj := fun obj hobj => ((h.mem_iff obj).mp hobj).2.1.lt

/-- Behind the first item. -/
theorem Pending.tail (hnumbered : Numbered d) {pos : DumpPos} {item : Bool × MojObject} {items : List (Bool × MojObject)}
    (h : Pending env d pos (item :: items)) :
    pos.of item.1 < objRev item.2 ∧ Pending env d (pos.advance item) items := by
  obtain ⟨hsound, live, gone, heq, hlive, hgone⟩ := h
  have hstep : ∀ obj incDel, item = (incDel, obj) → 1 ≤ objRev obj → (pos.advance item).Sound := by
    rintro obj incDel rfl hpos pass
    rw [DumpPos.of_advance]
    split_ifs
    · exact .inr hpos
    · exact hsound pass
  cases live with
  | cons x live =>
    obtain ⟨rfl, rfl⟩ := List.cons.inj heq
    exact ⟨hlive.lt x List.mem_cons_self, hstep x false rfl (hlive.pos hnumbered x List.mem_cons_self),
      live, gone, rfl, hlive.tail, hgone⟩
  | nil =>
    cases gone with
    | cons x gone =>
      obtain ⟨rfl, rfl⟩ := List.cons.inj heq
      exact ⟨hgone.lt x List.mem_cons_self, hstep x true rfl (hgone.pos hnumbered x List.mem_cons_self),
        [], gone, rfl, hlive, hgone.tail⟩
    | nil => cases heq

theorem Pending.behind (hnumbered : Numbered d) {pos : DumpPos} {taken left : List (Bool × MojObject)}
    (h : Pending env d pos (taken ++ left)) : Pending env d (taken.foldl DumpPos.advance pos) left := by
  induction taken generalizing pos with
  | nil => exact h
  | cons item taken ih => exact ih (h.tail hnumbered).2

/-- Fewer kinds are due at a later position. -/
theorem headSize_advance {kinds : List MojObject} {pos : DumpPos} {item : Bool × MojObject} (hlt : pos.of item.1 < objRev item.2) :
    headSize kinds (pos.advance item) ≤ headSize kinds pos := by
  have hof : ∀ incDel i, (pos.advance item).of incDel < i → pos.of incDel < i := by
    intro incDel i
    rw [DumpPos.of_advance]
    split_ifs with hpass
    · rw [hpass]
      exact Int64.lt_trans hlt
    · exact fun h => h
  have hsub : (kindsDue kinds (pos.advance item)).Sublist (kindsDue kinds pos) := by
    refine List.monotone_filter_right kinds fun kind hkind => ?_
    simp only [Bool.and_eq_true, decide_eq_true_eq] at hkind ⊢
    exact ⟨hkind.1, hof _ _ hkind.2⟩
  exact (hsub.map lineSize).sum_le_sum fun _ _ => Nat.zero_le _

theorem Pending.shrinks (hnumbered : Numbered d) {kinds : List MojObject} {pos : DumpPos} {items : List (Bool × MojObject)}
    (h : Pending env d pos items) : Fill.Shrinks DumpPos.advance (headSize kinds) pos items := by
  induction items generalizing pos with
  | nil => trivial
  | cons item items ih =>
    obtain ⟨hlt, htail⟩ := h.tail hnumbered
    exact ⟨headSize_advance hlt, ih htail⟩

/-- The pages of a backup from a position on, as they should be. -/
def plannedPages (kinds : List MojObject) (bytes fuel : Nat) (pos : DumpPos) (items : List (Bool × MojObject)) :
    Option (List (DumpPos × List (Bool × MojObject))) :=
  Fill.pages (fitsIn bytes) itemSize DumpPos.advance (headSize kinds) fuel pos items

/-- The page is the last one of a backup. -/
def DumpState.isLast (page : DumpState) : Bool := ((page.response.getD .undefined).get HasMoreKey).isNone

/-- The key that a page is answered with. -/
def DumpState.nextKey (page : DumpState) : Option MojObject := (page.response.getD .undefined).get IncrementalKey

/-- A page is as planned: the kinds that are due where it begins, then its items, within the bytes. The key has the places
behind the items, that of the last page only those of passes with items on it. -/
structure AsPlanned (kinds : List MojObject) (bytes : Nat) (page : DumpState) (plan : DumpPos × List (Bool × MojObject)) : Prop where
  objs : page.file.objs = kindsDue kinds plan.1 ++ plan.2.map Prod.snd
  bytesWritten : page.file.bytesWritten = page.file.text.length
  within : fitsIn bytes page.file.text.length = true
  key : Reads page.nextKey (plan.2.foldl DumpPos.advance (if page.isLast then ⟨-1, -1⟩ else plan.1))

theorem length_text_add (objs : List MojObject) : ((DumpFile.mk [] 0).add objs).text.length = (objs.map lineSize).sum := by
  rw [DumpFile.text, DumpFile.add, List.nil_append, List.length_flatMap]
  rfl

theorem asPlanned_of_isPage {kinds : List MojObject} {bytes : Nat} {pos : DumpPos} {items : List (Bool × MojObject)} {more : Bool}
    {page : DumpState} (hfits : fitsIn bytes (headSize kinds pos) = true)
    (h : IsPage kinds pos (Fill.fill (fitsIn bytes) itemSize (headSize kinds pos) items).1 more page) :
    AsPlanned kinds bytes page (pos, (Fill.fill (fitsIn bytes) itemSize (headSize kinds pos) items).1) := by
  have hwithin := @Fill.fits_of_fill _ (fitsIn bytes) itemSize (headSize kinds pos) items hfits
  have hsum : ((kindsDue kinds pos ++ (Fill.fill (fitsIn bytes) itemSize (headSize kinds pos) items).1.map Prod.snd).map lineSize).sum =
      headSize kinds pos + ((Fill.fill (fitsIn bytes) itemSize (headSize kinds pos) items).1.map itemSize).sum := by
    rw [List.map_append, List.sum_append, List.map_map]
    rfl
  refine ⟨?_, ?_, ?_, ?_⟩
  · rw [h.file]
    exact List.nil_append _
  · rw [h.file, length_text_add]
    exact Nat.zero_add _
  · rw [h.file, length_text_add, hsum]
    exact hwithin
  · have hkey := h.key
    rw [DumpState.isLast, h.more_eq]
    cases more with
    | false => exact hkey
    | true => exact hkey

/-- **The pages are as planned.** -/
theorem dumpPages_spec (hb : Builtins env root table) (h : Valid env d) (hnumbered : Numbered d) (hfew : Few d)
    {kindVec : List MojObject} (hkinds : ∀ kind ∈ kindVec, kind.get RevKey = some (.int (objRev kind))) {bytes fuel : Nat}
    {key : Option MojObject} {pos : DumpPos} {items : List (Bool × MojObject)} (hpending : Pending env d pos items)
    (hkey : Reads key pos) (hfits : fitsIn bytes (headSize kindVec pos) = true) :
    match plannedPages kindVec bytes fuel pos items with
    | none => dumpPages env d kindVec bytes fuel key = .ok none
    | some plans => ∃ pages, dumpPages env d kindVec bytes fuel key = .ok (some pages) ∧
        List.Forall₂ (AsPlanned kindVec bytes) pages plans := by
  induction fuel generalizing key pos items with
  | zero => rfl
  | succ fuel ih =>
    obtain ⟨live, gone, hitems, hlive, hgone⟩ := hpending.due
    have hpage := preBackup_spec hb h hnumbered hfew hkinds hpending.sound hkey bytes hlive hgone
    rw [if_pos hfits, ← hitems] at hpage
    obtain ⟨page, hpage, hispage⟩ := hpage
    have hplan := asPlanned_of_isPage hfits hispage
    have happend := @Fill.fill_append _ (fitsIn bytes) itemSize (headSize kindVec pos) items
    rw [plannedPages, Fill.pages, dumpPages, hpage, ok_bind]
    generalize Fill.fill (fitsIn bytes) itemSize (headSize kindVec pos) items = filled at hispage hplan happend ⊢
    obtain ⟨taken, left⟩ := filled
    dsimp only at hispage hplan happend ⊢
    rw [hispage.more_eq]
    cases hleft : left.isEmpty with
    | true => exact ⟨[page], rfl, .cons hplan .nil⟩
    | false =>
      have hnext : Pending env d (taken.foldl DumpPos.advance pos) left := (happend ▸ hpending).behind hnumbered
      have hless : headSize kindVec (taken.foldl DumpPos.advance pos) ≤ headSize kindVec pos :=
        Fill.head_foldl_le (Fill.shrinks_append.mp ((happend ▸ hpending).shrinks hnumbered)).1
      have hkeyNext := hispage.key
      rw [hleft] at hkeyNext
      have hrest := ih hnext hkeyNext (fitsIn_mono hless hfits)
      rw [plannedPages] at hrest
      simp only [Bool.not_false, Bool.not_true, Bool.false_eq_true, if_false]
      cases hplans : Fill.pages (fitsIn bytes) itemSize DumpPos.advance (headSize kindVec) fuel
          (taken.foldl DumpPos.advance pos) left with
      | none =>
        rw [hplans] at hrest
        dsimp only at hrest
        rw [hrest]
        rfl
      | some plans =>
        rw [hplans] at hrest
        obtain ⟨pages, hpages, hplanned⟩ := hrest
        rw [hpages]
        exact ⟨page :: pages, rfl, .cons hplan hplanned⟩

/-- Each object that is to be written fits on a page that begins with it. -/
def RoomForEach (kinds : List MojObject) (bytes : Nat) (pos : DumpPos) (items : List (Bool × MojObject)) : Prop :=
  Fill.Room (fitsIn bytes) itemSize DumpPos.advance (headSize kinds) pos items

/-- A backup from a position on: it fails where the kinds do not fit, it ends with every object written once, in order, or
it never ends since an object does not fit. -/
structure BacksUp (env : MojDbEnv) (d : MojDbData) (kinds : List MojObject) (bytes : Nat) (key : Option MojObject) (pos : DumpPos)
    (live gone : List MojObject) : Prop where
  liveDue : Due env d false pos.rev live
  goneDue : Due env d true pos.delRev gone
  fails : fitsIn bytes (headSize kinds pos) = false →
    ∀ fuel, dumpPages env d kinds bytes (fuel + 1) key = .error (.err .dbBackupFull)
  ends : fitsIn bytes (headSize kinds pos) = true → RoomForEach kinds bytes pos (itemsOf live gone) →
    ∀ fuel, live.length + gone.length < fuel → ∃ pages plans, dumpPages env d kinds bytes fuel key = .ok (some pages) ∧
      plannedPages kinds bytes fuel pos (itemsOf live gone) = some plans ∧ List.Forall₂ (AsPlanned kinds bytes) pages plans ∧
      plans.flatMap Prod.snd = itemsOf live gone
  stuck : fitsIn bytes (headSize kinds pos) = true → ¬RoomForEach kinds bytes pos (itemsOf live gone) →
    ∀ fuel, dumpPages env d kinds bytes fuel key = .ok none

theorem length_itemsOf (live gone : List MojObject) : (itemsOf live gone).length = live.length + gone.length := by
  rw [itemsOf, List.length_append, List.length_map, List.length_map]

/-- **A backup of a database.** -/
theorem exists_backsUp (hb : Builtins env root table) (h : Valid env d) (hnumbered : Numbered d) (hfew : Few d)
    {kindVec : List MojObject} (hkinds : ∀ kind ∈ kindVec, kind.get RevKey = some (.int (objRev kind))) (bytes : Nat)
    {key : Option MojObject} {pos : DumpPos} (hpos : pos.Sound) (hkey : Reads key pos) :
    ∃ live gone, BacksUp env d kindVec bytes key pos live gone := by
  obtain ⟨-, live, -, -, -, hlive⟩ := exists_due hb h hnumbered hfew false pos.rev
  obtain ⟨-, gone, -, -, -, hgone⟩ := exists_due hb h hnumbered hfew true pos.delRev
  have hpending : Pending env d pos (itemsOf _ _) := ⟨hpos, _, _, rfl, hlive, hgone⟩
  have hspec := fun fuel hfits => @dumpPages_spec env root table d hb h hnumbered hfew kindVec hkinds bytes fuel key pos _ hpending
    hkey hfits
  have hmono : ∀ m n, m ≤ n → fitsIn bytes n = true → fitsIn bytes m = true := fun m n hle hfits => fitsIn_mono hle hfits
  have hshrinks : Fill.Shrinks DumpPos.advance (headSize kindVec) pos _ := hpending.shrinks hnumbered
  refine ⟨_, _, hlive, hgone, fun hfits fuel => ?_, fun hfits hroom fuel hfuel => ?_, fun hfits hroom fuel => ?_⟩
  · have hpage := preBackup_spec hb h hnumbered hfew hkinds hpos hkey bytes hlive hgone
    rw [if_neg (by rw [hfits]; exact Bool.false_ne_true)] at hpage
    rw [dumpPages, hpage]
    rfl
  · rw [← length_itemsOf] at hfuel
    obtain ⟨plans, hplans⟩ := Fill.exists_pages hroom hfuel
    have hpages := hspec fuel hfits
    rw [plannedPages, hplans] at hpages
    obtain ⟨pages, hpages, hplanned⟩ := hpages
    exact ⟨pages, plans, hpages, hplans, hplanned, Fill.pages_flatten hplans⟩
  · have hpages := hspec fuel hfits
    rw [plannedPages] at hpages
    cases hplans : Fill.pages (fitsIn bytes) itemSize DumpPos.advance (headSize kindVec) fuel pos (itemsOf _ _) with
    | none =>
      rw [hplans] at hpages
      exact hpages
    | some plans => exact absurd (Fill.room_of_pages hmono hshrinks hplans) hroom

end MojDb

end Db8
