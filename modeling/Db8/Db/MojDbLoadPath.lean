import Db8.Core.MojErr
import Db8.Core.MojString
import Db8.Lib.Fallible

/-!
# Db.MojDbLoadPath

Which files a load or a restore may read: the checks on the path, and the walk that opens it.

* `pieces`, `components` — a path between its slashes, with and without the empty pieces at its end.
* `dirDepth`             — how deep an allowed directory is, if the path is at or below it.
* `openNoFollow`         — the checks, then the walk from `/`, one component at a time.
* `loadChecked`          — the choice of the allowed directories.
* `restorePath`          — the path of a file that is restored.
* `loadPaths_below`      — a path that is opened is plain and strictly below an allowed directory.
-/

namespace Db8

open Lib

/-! ## Paths -/

namespace LoadPath

/-- `'/'`. -/
def slash : MojByte := 47

/-- What is between the slashes behind the first one. -/
def pieces (path : List MojByte) : List (List MojByte) := (path.drop 1).splitOn slash

/-- The directory `/a/b/` has the components of `/a/b`, and `/` has none. -/
def components (path : List MojByte) : List (List MojByte) := (pieces path).rdropWhile List.isEmpty

/-- A name of a file: not empty, not `.` or `..`, and without a slash. -/
structure Plain (comp : List MojByte) : Prop where
  ne_nil : comp ≠ []
  ne_dot : comp ≠ [46]
  ne_dotdot : comp ≠ [46, 46]
  no_slash : slash ∉ comp

theorem length_splitOn (xs : List MojByte) : (xs.splitOn slash).length = xs.count slash + 1 := by
  induction xs with
  | nil => rfl
  | cons x xs ih =>
    rw [List.splitOn_cons_eq_if_modifyHead, List.count_cons]
    split_ifs with hx
    · rw [List.length_cons, ih]
    · rw [List.length_modifyHead, ih]

theorem no_slash_of_mem_splitOn {xs piece : List MojByte} (h : piece ∈ xs.splitOn slash) : slash ∉ piece := by
  induction xs generalizing piece with
  | nil =>
    rw [List.splitOn_nil, List.mem_singleton] at h
    rw [h]
    exact List.not_mem_nil
  | cons x xs ih =>
    rw [List.splitOn_cons_eq_if_modifyHead] at h
    obtain ⟨p, ps, hps⟩ := List.exists_cons_of_ne_nil (List.splitOn_ne_nil slash xs)
    rw [hps] at h ih
    split_ifs at h with hx
    · cases List.mem_cons.mp h with
      | inl he =>
        rw [he]
        exact List.not_mem_nil
      | inr hmem => exact ih hmem
    · cases List.mem_cons.mp h with
      | inl he =>
        rw [he, List.mem_cons, not_or]
        exact ⟨fun heq => hx (beq_iff_eq.mpr heq.symm), ih List.mem_cons_self⟩
      | inr hmem => exact ih (List.mem_cons_of_mem p hmem)

/-- The last piece of what does not end in a slash is not empty. -/
theorem getLast?_splitOn {xs : List MojByte} (hne : xs ≠ []) (hlast : xs.getLast? ≠ some slash) :
    (xs.splitOn slash).getLast? ≠ some [] := by
  induction xs with
  | nil => exact absurd rfl hne
  | cons x xs ih =>
    rw [List.splitOn_cons_eq_if_modifyHead]
    obtain ⟨p, ps, hps⟩ := List.exists_cons_of_ne_nil (List.splitOn_ne_nil slash xs)
    cases xs with
    | nil =>
      have hx : ¬(x == slash) = true := fun he => hlast (by simp [beq_iff_eq.mp he])
      simp [hx]
    | cons y ys =>
      have hrest := ih (List.cons_ne_nil y ys) (by rwa [List.getLast?_cons_cons] at hlast)
      rw [hps] at hrest ⊢
      split_ifs
      · rwa [List.getLast?_cons_cons]
      · cases ps with
        | nil => simp
        | cons q qs =>
          rw [List.modifyHead_cons, List.getLast?_cons_cons]
          rwa [List.getLast?_cons_cons] at hrest

/-- The loops that take the slashes off the end of a directory leave its first one. -/
def trimmed (dir : List MojByte) : List MojByte := dir.take 1 ++ (dir.drop 1).rdropWhile (· = slash)

theorem splitOn_rdropWhile (xs : List MojByte) :
    ∃ n, xs.splitOn slash = (xs.rdropWhile (· = slash)).splitOn slash ++ List.replicate n [] := by
  induction xs using List.reverseRecOn with
  | nil => exact ⟨0, rfl⟩
  | append_singleton xs x ih =>
    rw [List.rdropWhile_concat]
    split_ifs with hx
    · obtain ⟨n, hn⟩ := ih
      have hxs : x = slash := of_decide_eq_true hx
      refine ⟨n + 1, ?_⟩
      rw [hxs, List.splitOn_append_cons_self xs [], hn, List.append_assoc, List.replicate_succ']
      rfl
    · exact ⟨0, (List.append_nil _).symm⟩

theorem rdropWhile_replicate (l : List (List MojByte)) (n : Nat) :
    (l ++ List.replicate n []).rdropWhile List.isEmpty = l.rdropWhile List.isEmpty := by
  induction n with
  | zero => rw [List.replicate_zero, List.append_nil]
  | succ n ih =>
    rw [List.replicate_succ', ← List.append_assoc, List.rdropWhile_concat_pos _ _ _ rfl, ih]

theorem rdropWhile_of_getLast? {l : List (List MojByte)} (h : l.getLast? ≠ some []) :
    l.rdropWhile List.isEmpty = l := by
  rw [List.rdropWhile_eq_self_iff]
  intro hl hempty
  rw [List.getLast?_eq_some_getLast hl, List.isEmpty_iff.mp hempty] at h
  exact h rfl

/-- **The components of a directory** are the pieces of its trimmed text. -/
theorem components_eq (dir : List MojByte) :
    components dir =
      if (dir.drop 1).rdropWhile (· = slash) = [] then [] else ((dir.drop 1).rdropWhile (· = slash)).splitOn slash := by
  obtain ⟨n, hn⟩ := splitOn_rdropWhile (dir.drop 1)
  rw [components, pieces, hn, rdropWhile_replicate]
  split_ifs with hnil
  · rw [hnil]
    rfl
  · refine rdropWhile_of_getLast? (getLast?_splitOn hnil ?_)
    rw [List.getLast?_eq_some_getLast hnil]
    intro he
    exact List.rdropWhile_last_not _ _ hnil (decide_eq_true (Option.some.inj he))

/-! ## The system's files -/

inductive Errno where
  | eloop | enotdir | other (code : Nat)
  deriving DecidableEq

/-- What is read of `struct stat`. -/
structure Stat where
  uid : Nat
  mode : Nat

/-- The calls of the system. `openDir` and `openFile` are `openat` with `O_NOFOLLOW`, for a directory and for a file. -/
structure Files (φ : Type) where
  openRoot : Except Errno φ
  openDir : φ → List MojByte → Except Errno φ
  openFile : φ → List MojByte → Except Errno φ
  fstat : φ → Option Stat

inductive LoadErr where
  | thrown (err : MojErr) (msg : String)
  | errno (e : Errno)
  deriving DecidableEq

end LoadPath

open LoadPath

namespace MojDb

/-- `S_IWGRP | S_IWOTH`. -/
def writableByOthers : Nat := 18
/-- `S_ISVTX`. -/
def sticky : Nat := 512
/-- `S_IROTH`. -/
def readableByOthers : Nat := 4

/-- `S_ISREG`. -/
def isRegular (mode : Nat) : Bool := mode &&& 61440 = 32768

def trustedLoadDir (uid mode owner : Nat) : Bool :=
  if uid ≠ 0 ∧ uid ≠ owner then false
  else mode &&& writableByOthers = 0 || mode &&& sticky ≠ 0

def trustedLoadFile (uid mode owner : Nat) : Bool :=
  (uid = 0 || uid = owner) && mode &&& writableByOthers = 0 && mode &&& readableByOthers ≠ 0

/-- `PATH_MAX`. -/
def MojPathMax : Nat := 4096

variable {φ : Type}

/-- A negative depth says that the path is outside of the directory. -/
def dirDepth (path : List MojByte) : Option MojString → Int
  | none => -1
  | some dir =>
    if dir.chars.head? ≠ some slash then -1
    else
      let top := trimmed dir.chars
      if top.length = 1 then 0
      else if path.take top.length ≠ top ∨ ((path.drop top.length).head? ≠ none ∧ (path.drop top.length).head? ≠ some slash)
        then -1
      else top.count slash

/-- The deepest of the directories that the path is in. -/
def depthBelow (path : List MojByte) (dirs : List (Option MojString)) : Int :=
  dirs.foldl (fun depth dir => if dirDepth path dir > depth then dirDepth path dir else depth) (-1)

def checkPiece (piece : List MojByte) : Except LoadErr (List MojByte) :=
  if piece = [] ∨ piece = [46] ∨ piece = [46, 46] then .error (.thrown .invalidArg "db: invalid load path") else .ok piece

/-- The checks before anything is opened: the components of the path. -/
def checkPath (path : List MojByte) (dirs : List (Option MojString)) : Except LoadErr (List (List MojByte)) :=
  if path.head? ≠ some slash ∨ (path.takeWhile (· ≠ 0)).length ≠ path.length ∨ path.length ≥ MojPathMax then
    .error (.thrown .invalidArg "db: load path must be an absolute path")
  else do
    let comps ← (pieces path).mapM checkPiece
    if depthBelow path dirs < 0 ∨ (depthBelow path dirs).toNat ≥ comps.length then
      .error (.thrown .dbAccessDenied "db: load path is outside the allowed directories")
    else .ok comps

def checkTrustedDir (files : Files φ) (fd : φ) (trustedOwner : Option Nat) : Except LoadErr Unit :=
  match trustedOwner, files.fstat fd with
  | none, _ => .ok ()
  | some owner, some stat =>
    if trustedLoadDir stat.uid stat.mode owner then .ok ()
    else .error (.thrown .dbAccessDenied "db: load path has a directory that is not root's alone")
  | some _, none => .error (.thrown .dbAccessDenied "db: load path has a directory that is not root's alone")

def openComponent (files : Files φ) (fd : φ) (comp : List MojByte) : Except LoadErr φ :=
  match files.openDir fd comp with
  | .ok next => .ok next
  | .error e =>
    if e = .eloop ∨ e = .enotdir then
      .error (.thrown .dbAccessDenied "db: load path has a symbolic link or non-directory component")
    else .error (.errno e)

/-- The walk over the directories. -/
def walk (files : Files φ) (trustedOwner : Option Nat) : φ → List (List MojByte) → Except LoadErr φ
  | fd, [] => .ok fd
  | fd, comp :: comps => do
    let next ← openComponent files fd comp
    checkTrustedDir files next trustedOwner
    walk files trustedOwner next comps

def checkFile (files : Files φ) (file : φ) (trustedOwner : Option Nat) : Except LoadErr φ :=
  match files.fstat file with
  | none => .error (.thrown .dbAccessDenied "db: load file is not a regular file")
  | some stat =>
    if !isRegular stat.mode then .error (.thrown .dbAccessDenied "db: load file is not a regular file")
    else
      match trustedOwner with
      | none => .ok file
      | some owner =>
        if trustedLoadFile stat.uid stat.mode owner then .ok file
        else .error (.thrown .dbAccessDenied "db: system load file must be root's, read-only to others")

def openLast (files : Files φ) (fd : φ) (comp : List MojByte) : Except LoadErr φ :=
  match files.openFile fd comp with
  | .ok file => .ok file
  | .error e =>
    if e = .eloop then .error (.thrown .dbAccessDenied "db: load file is a symbolic link") else .error (.errno e)

def openRoot (files : Files φ) : Except LoadErr φ :=
  match files.openRoot with
  | .ok fd => .ok fd
  | .error e => .error (.errno e)

def openNoFollow (files : Files φ) (path : List MojByte) (allowedDirs : List (Option MojString))
    (trustedOwner : Option Nat) : Except LoadErr φ := do
  let comps ← checkPath path allowedDirs
  let root ← openRoot files
  checkTrustedDir files root trustedOwner
  let fd ← walk files trustedOwner root comps.dropLast
  let file ← openLast files fd (comps.getLastD [])
  checkFile files file trustedOwner

/-! ## The allowed directories -/

/-- The directories of the database, for the temporary files and for the configuration. -/
structure LoadDirs where
  loadDirs : List (Option MojString)
  systemLoadDirs : List (Option MojString)
  systemLoadOwner : Nat

def belowAny (path : List MojByte) (dirs : List (Option MojString)) : Bool := dirs.any fun dir => dirDepth path dir ≥ 0

/-- `loadChecked`, up to the opened file. -/
def loadChecked (files : Files φ) (db : LoadDirs) (path : List MojByte) : Except LoadErr φ :=
  if (path.takeWhile (· ≠ 0)).length ≠ path.length then .error (.thrown .invalidArg "db: invalid load path")
  else if db.loadDirs = [] ∧ db.systemLoadDirs = [] then .error (.thrown .dbAccessDenied "db: no load directories")
  else if db.systemLoadDirs ≠ [] ∧ belowAny path db.loadDirs = false ∧ belowAny path db.systemLoadDirs = true then
    openNoFollow files path db.systemLoadDirs (some db.systemLoadOwner)
  else openNoFollow files path db.loadDirs none

/-- The name comes with all of its bytes. -/
def restorePath (dir : MojString) (fileName : List MojByte) : Except LoadErr (List MojByte) :=
  if dir.chars.head? ≠ some slash then
    .error (.thrown .invalidArg "db: restore directory must be an absolute path")
  else if fileName = [] ∨ (fileName.takeWhile (· ≠ 0)).length ≠ fileName.length ∨ slash ∈ fileName ∨
      fileName = [46] ∨ fileName = [46, 46] then
    .error (.thrown .invalidArg "db: invalid restore file name")
  else
    let top := trimmed dir.chars
    .ok ((if top.length > 1 then top ++ [slash] else top) ++ fileName)

/-- `restore`: every name is checked before anything is opened, and the files may be anywhere. -/
def restorePaths (dir : MojString) (fileNames : List (List MojByte)) : Except LoadErr (List (List MojByte)) :=
  fileNames.mapM (restorePath dir)

/-! ## What the checks accept -/

theorem cons_of_head? {xs : List MojByte} (h : xs.head? = some slash) : xs = slash :: xs.drop 1 := by
  cases xs with
  | nil => cases h
  | cons x xs => rw [Option.some.inj h]; rfl

theorem trimmed_eq {dir : List MojByte} (h : dir.head? = some slash) :
    trimmed dir = slash :: (dir.drop 1).rdropWhile (· = slash) := by
  unfold trimmed
  rw [cons_of_head? h]
  rfl

/-- **The depth** of a directory that the path is in is the number of its components, with which the path begins. -/
theorem dirDepth_spec {path : List MojByte} {dir : Option MojString} (h : 0 ≤ dirDepth path dir) :
    ∃ d, dir = some d ∧ d.chars.head? = some slash ∧ components d.chars <+: pieces path ∧
      dirDepth path dir = (components d.chars).length := by
  cases dir with
  | none => cases h
  | some d =>
    unfold dirDepth at h ⊢
    dsimp only at h ⊢
    split_ifs at h with hhead hroot hout
    · exact absurd h (by decide)
    · have habs := not_not.mp hhead
      have hnil : components d.chars = [] := by
        rw [trimmed_eq habs, List.length_cons, Nat.add_eq_right, List.length_eq_zero_iff] at hroot
        rw [components_eq, if_pos hroot]
      refine ⟨d, rfl, habs, ?_, ?_⟩
      · rw [hnil]
        exact List.nil_prefix
      · rw [if_neg hhead, if_pos hroot, hnil]
        rfl
    · exact absurd h (by decide)
    · have habs := not_not.mp hhead
      have htop := trimmed_eq habs
      rw [if_neg hhead, if_neg hroot, if_neg hout]
      have hne : (d.chars.drop 1).rdropWhile (· = slash) ≠ [] := by
        intro hnil
        rw [hnil] at htop
        exact hroot (congrArg List.length htop)
      rw [not_or, not_not, not_and_or, not_not, not_not] at hout
      obtain ⟨htake, hnext⟩ := hout
      have hcomps : components d.chars = ((d.chars.drop 1).rdropWhile (· = slash)).splitOn slash := by
        rw [components_eq, if_neg hne]
      have hcount : ((trimmed d.chars).count slash : Int) = (components d.chars).length := by
        rw [hcomps, length_splitOn, htop, List.count_cons_self]
      refine ⟨d, rfl, habs, ?_, hcount⟩
      have hpath : path = trimmed d.chars ++ path.drop (trimmed d.chars).length := by
        conv_lhs => rw [← List.take_append_drop (trimmed d.chars).length path, htake]
      have hpieces : pieces path =
          ((d.chars.drop 1).rdropWhile (· = slash) ++ path.drop (trimmed d.chars).length).splitOn slash := by
        rw [pieces]
        conv_lhs => rw [hpath]
        rw [htop]
        rfl
      rw [hcomps, hpieces]
      -- behind the directory the path ends, or a slash follows
      cases hnext with
      | inl hend =>
        rw [List.head?_eq_none_iff.mp hend, List.append_nil]
      | inr hslash =>
        rw [cons_of_head? hslash, List.splitOn_append_cons_self]
        exact List.prefix_append _ _

theorem exists_of_depthBelow {path : List MojByte} {dirs : List (Option MojString)} (h : 0 ≤ depthBelow path dirs) :
    ∃ dir ∈ dirs, dirDepth path dir = depthBelow path dirs := by
  have hfold : ∀ (ds : List (Option MojString)) (acc : Int),
      ds.foldl (fun depth dir => if dirDepth path dir > depth then dirDepth path dir else depth) acc = acc ∨
        ∃ dir ∈ ds, dirDepth path dir =
          ds.foldl (fun depth dir => if dirDepth path dir > depth then dirDepth path dir else depth) acc := by
    intro ds
    induction ds with
    | nil => exact fun acc => .inl rfl
    | cons dir ds ih =>
      intro acc
      rw [List.foldl_cons]
      cases ih (if dirDepth path dir > acc then dirDepth path dir else acc) with
      | inl hsame =>
        rw [hsame]
        split_ifs with hdeeper
        · exact .inr ⟨dir, List.mem_cons_self, rfl⟩
        · exact .inl rfl
      | inr hmem =>
        obtain ⟨other, hother, heq⟩ := hmem
        exact .inr ⟨other, List.mem_cons_of_mem dir hother, heq⟩
  cases hfold dirs (-1) with
  | inl hsame =>
    rw [depthBelow, hsame] at h
    exact absurd h (by decide)
  | inr hmem => exact hmem

/-- The path is strictly below the directory, component by component. -/
def StrictlyBelow (path : List MojByte) (dir : Option MojString) : Prop :=
  ∃ d, dir = some d ∧ d.chars.head? = some slash ∧ components d.chars <+: pieces path ∧
    (components d.chars).length < (pieces path).length

theorem mapM_checkPiece {ps comps : List (List MojByte)} (h : ps.mapM checkPiece = .ok comps) :
    comps = ps ∧ ∀ p ∈ ps, p ≠ [] ∧ p ≠ [46] ∧ p ≠ [46, 46] := by
  induction ps generalizing comps with
  | nil =>
    obtain rfl := Except.ok.inj h
    exact ⟨rfl, List.forall_mem_nil _⟩
  | cons p ps ih =>
    rw [List.mapM_cons, bind_eq_ok] at h
    obtain ⟨q, hq, hrest⟩ := h
    obtain ⟨qs, hqs, hcomps⟩ := bind_eq_ok.mp hrest
    obtain rfl := pure_eq_ok.mp hcomps
    obtain ⟨rfl, hall⟩ := ih hqs
    unfold checkPiece at hq
    split_ifs at hq with hbad
    obtain rfl := Except.ok.inj hq
    rw [not_or, not_or] at hbad
    exact ⟨rfl, List.forall_mem_cons.mpr ⟨hbad, hall⟩⟩

/-- **The check of a path.** -/
theorem checkPath_spec {path : List MojByte} {dirs : List (Option MojString)} {comps : List (List MojByte)}
    (h : checkPath path dirs = .ok comps) :
    comps = pieces path ∧ path.head? = some slash ∧ (∀ comp ∈ pieces path, Plain comp) ∧
      ∃ dir ∈ dirs, StrictlyBelow path dir := by
  unfold checkPath at h
  split_ifs at h with hbad
  rw [not_or, not_not] at hbad
  obtain ⟨ps, hps, hdepth⟩ := bind_eq_ok.mp h
  obtain ⟨rfl, hplain⟩ := mapM_checkPiece hps
  split_ifs at hdepth with hout
  obtain rfl := Except.ok.inj hdepth
  rw [not_or, not_lt] at hout
  obtain ⟨hdeep, hlen⟩ := hout
  obtain ⟨dir, hdir, hd⟩ := exists_of_depthBelow hdeep
  obtain ⟨d, hsome, hhead, hbegins, hcount⟩ := dirDepth_spec (hd ▸ hdeep)
  refine ⟨rfl, hbad.1, fun comp hcomp => ?_, dir, hdir, d, hsome, hhead, hbegins, ?_⟩
  · obtain ⟨hnil, hdot, hdotdot⟩ := hplain comp hcomp
    exact ⟨hnil, hdot, hdotdot, no_slash_of_mem_splitOn hcomp⟩
  · omega

theorem openNoFollow_spec {files : Files φ} {path : List MojByte} {dirs : List (Option MojString)} {owner : Option Nat}
    {file : φ} (h : openNoFollow files path dirs owner = .ok file) :
    path.head? = some slash ∧ (∀ comp ∈ pieces path, Plain comp) ∧ ∃ dir ∈ dirs, StrictlyBelow path dir := by
  obtain ⟨comps, hcomps, -⟩ := bind_eq_ok.mp h
  exact (checkPath_spec hcomps).2

theorem loadChecked_spec {files : Files φ} {db : LoadDirs} {path : List MojByte} {file : φ}
    (h : loadChecked files db path = .ok file) :
    path.head? = some slash ∧ (∀ comp ∈ pieces path, Plain comp) ∧
      ∃ dir ∈ db.loadDirs ++ db.systemLoadDirs, StrictlyBelow path dir := by
  unfold loadChecked at h
  split_ifs at h
  · obtain ⟨hhead, hplain, dir, hdir, hbelow⟩ := openNoFollow_spec h
    exact ⟨hhead, hplain, dir, List.mem_append_right _ hdir, hbelow⟩
  · obtain ⟨hhead, hplain, dir, hdir, hbelow⟩ := openNoFollow_spec h
    exact ⟨hhead, hplain, dir, List.mem_append_left _ hdir, hbelow⟩

/-- **A restored file** is a plain name in the directory. -/
theorem restorePath_spec {dir : MojString} {fileName path : List MojByte} (h : restorePath dir fileName = .ok path) :
    path.head? = some slash ∧ pieces path = components dir.chars ++ [fileName] ∧ Plain fileName := by
  unfold restorePath at h
  split_ifs at h with hhead hbad
  have hhead := not_not.mp hhead
  simp only [not_or] at hbad
  obtain ⟨hnil, -, hslash, hdot, hdotdot⟩ := hbad
  have htop := trimmed_eq hhead
  have hplain : Plain fileName := ⟨hnil, hdot, hdotdot, hslash⟩
  obtain rfl := Except.ok.inj h
  by_cases hroot : (dir.chars.drop 1).rdropWhile (· = slash) = []
  · have htrim : trimmed dir.chars = [slash] := by rw [htop, hroot]
    refine ⟨?_, ?_, hplain⟩
    · rw [htrim]
      rfl
    · rw [components_eq, if_pos hroot, htrim]
      exact List.splitOn_eq_singleton hslash
  · have hlen : (trimmed dir.chars).length > 1 := by
      rw [htop, List.length_cons]
      exact Nat.succ_lt_succ (List.length_pos_iff.mpr hroot)
    rw [if_pos hlen, htop]
    refine ⟨rfl, ?_, hplain⟩
    rw [components_eq, if_neg hroot, pieces, List.append_assoc, List.cons_append, List.drop_succ_cons, List.drop_zero]
    rw [List.singleton_append, List.splitOn_append_cons_self, List.splitOn_eq_singleton hslash]

theorem mapM_restorePath {dir : MojString} {fileNames paths : List (List MojByte)}
    (h : restorePaths dir fileNames = .ok paths) :
    List.Forall₂ (fun fileName path => restorePath dir fileName = .ok path) fileNames paths := by
  unfold restorePaths at h
  induction fileNames generalizing paths with
  | nil =>
    obtain rfl := Except.ok.inj h
    exact .nil
  | cons fileName fileNames ih =>
    rw [List.mapM_cons, bind_eq_ok] at h
    obtain ⟨path, hpath, hrest⟩ := h
    obtain ⟨rest, hrests, hpaths⟩ := bind_eq_ok.mp hrest
    obtain rfl := pure_eq_ok.mp hpaths
    exact .cons hpath (ih hrests)

/-- **Files that are read.** A path that is opened, whatever the files are, is absolute, has no empty component, no `.` and
no `..`, and is strictly below one of the allowed directories; the paths of a restore are the components of the directory
and one plain name. -/
theorem loadPaths_below (files : Files φ) :
    (∀ path dirs owner file, openNoFollow files path dirs owner = .ok file →
      path.head? = some slash ∧ (∀ comp ∈ pieces path, Plain comp) ∧ ∃ dir ∈ dirs, StrictlyBelow path dir) ∧
    (∀ db path file, loadChecked files db path = .ok file →
      path.head? = some slash ∧ (∀ comp ∈ pieces path, Plain comp) ∧
        ∃ dir ∈ db.loadDirs ++ db.systemLoadDirs, StrictlyBelow path dir) ∧
    ∀ dir fileNames paths, restorePaths dir fileNames = .ok paths →
      List.Forall₂ (fun fileName path => path.head? = some slash ∧ pieces path = components dir.chars ++ [fileName] ∧
        Plain fileName) fileNames paths := by
  refine ⟨fun path dirs owner file => openNoFollow_spec, fun db path file => loadChecked_spec,
    fun dir fileNames paths h => ?_⟩
  exact (mapM_restorePath h).imp fun fileName path => restorePath_spec

/-- All files are there, regular and of the super user. -/
def allFiles : Files Unit where
  openRoot := .ok ()
  openDir _ _ := .ok ()
  openFile _ _ := .ok ()
  fstat _ := some ⟨0, 32768 + 4⟩

/-- `/etc/palm/`, with a slash at its end. -/
def etcPalm : MojString := ⟨[47, 101, 116, 99, 47, 112, 97, 108, 109, 47], by decide⟩

/-- `/etc/palm/s` is below `/etc/palm/`, and `f` is restored into it. -/
theorem loadPaths_below_etcPalm :
    (∃ dir ∈ [some etcPalm], StrictlyBelow [47, 101, 116, 99, 47, 112, 97, 108, 109, 47, 115] dir) ∧
    (∃ dir ∈ [none, some etcPalm], StrictlyBelow [47, 101, 116, 99, 47, 112, 97, 108, 109, 47, 115] dir) ∧
    pieces [47, 101, 116, 99, 47, 112, 97, 108, 109, 47, 102] = components etcPalm.chars ++ [[102]] := by
  obtain ⟨hopen, hload, hrestore⟩ := loadPaths_below allFiles
  refine ⟨?_, ?_, ?_⟩
  · exact (hopen [47, 101, 116, 99, 47, 112, 97, 108, 109, 47, 115] [some etcPalm] none () (by decide)).2.2
  · exact (hload ⟨[none], [some etcPalm], 0⟩ [47, 101, 116, 99, 47, 112, 97, 108, 109, 47, 115] () (by decide)).2.2
  · have h := hrestore etcPalm [[102]] [[47, 101, 116, 99, 47, 112, 97, 108, 109, 47, 102]] (by decide)
    cases h with
    | cons hfile _ => exact hfile.2.1

end MojDb

end Db8
