import Mathlib.Data.Prod.Lex
import Termesh.Core.Git
import Termesh.Core.Texts
import Termesh.Lib.Sorting
import Termesh.Lib.WellFormed
import Termesh.Lsp.Framing

/-!
# Reading `git status`

Paths stay bytes here: Git does not promise more.

* `OsPath`, `pathKey`: a path and the order of paths;
* `ChangeKind`, `FileStatus`, `BranchStatus`: what is read;
* `parseBranchHeader`, `parseOrdinary`, `parseRenamed`, `parseUnmerged`, `parseStatus`;
* `entryRecords`: the records that tell of a file;
* **`parseRecords_entries`**: each of them has its entry.
-/

namespace Termesh

namespace Git

open Sorting Utf8
open Lsp (parseUsize)

/-! ## Paths -/

/-- A path as its bytes. -/
abbrev OsPath := List UInt8

/-- The byte of an ASCII character. -/
def ascii (c : Char) : UInt8 := UInt8.ofNat c.toNat

/-- One component of a path. -/
inductive OsComponent where
  | rootDir
  | curDir
  | parentDir
  | normal (name : List UInt8)
deriving DecidableEq, Repr

/-- What components are compared by. -/
def OsComponent.key : OsComponent → ℕ ×ₗ List ℕ
  | rootDir => toLex (0, [])
  | curDir => toLex (1, [])
  | parentDir => toLex (2, [])
  | normal name => toLex (3, name.map UInt8.toNat)

/-- A piece behind the first one; empty pieces and `.` vanish. -/
def osComponent (piece : List UInt8) : Option OsComponent :=
  if piece = [] ∨ piece = [ascii '.'] then none
  else if piece = [ascii '.', ascii '.'] then some .parentDir
  else some (.normal piece)

/-- `Path::components`. -/
def components (path : OsPath) : List OsComponent :=
  match path.splitOn (ascii '/') with
  | [] => []
  | first :: pieces =>
    if first = [] then
      if pieces = [] then [] else .rootDir :: pieces.filterMap osComponent
    else if first = [ascii '.'] then .curDir :: pieces.filterMap osComponent
    else (first :: pieces).filterMap osComponent

/-- What paths are compared by. -/
def pathKey (path : OsPath) : List (ℕ ×ₗ List ℕ) := (components path).map OsComponent.key

/-! ## What is read -/

/-- `GitChangeKind`. -/
inductive ChangeKind where
  | modified
  | added
  | deleted
  | renamed (source : OsPath)
  | untracked
  | conflicted
deriving DecidableEq, Repr

/-- `GitFileStatus`. -/
structure FileStatus where
  path : OsPath
  index : Option ChangeKind
  worktree : Option ChangeKind
deriving DecidableEq, Repr

/-- `GitBranchStatus`. -/
structure BranchStatus where
  oid : Option (List Char) := none
  head : Option (List Char) := none
  upstream : Option (List Char) := none
  ahead : ℕ := 0
  behind : ℕ := 0
  detached : Bool := false
deriving DecidableEq, Repr

/-! ## The branch -/

def invalid (root : Path) (message : String) : GitFailure :=
  { kind := .invalidOutput, message := root.display ++ ": " ++ message }

/-- `split_whitespace`. -/
def splitWhitespace (text : List Char) : List (List Char) :=
  (text.splitOnP isWhitespace).filter (· ≠ [])

/-- `parse_count`. -/
def parseCount (root : Path) (value : Option (List Char)) (start : Char) (name : String) :
    Except GitFailure ℕ :=
  match value with
  | none => .error (invalid root ("branch.ab is missing " ++ name))
  | some value =>
    match value.dropPrefix? [start] with
    | none => .error (invalid root ("branch.ab has malformed " ++ name))
    | some digits =>
      match parseUsize digits with
      | none => .error (invalid root ("branch.ab has invalid " ++ name))
      | some n => .ok n

/-- `parse_branch_header`, of a header that is text. -/
def parseHeaderText (root : Path) (text : List Char) (branch : BranchStatus) :
    Except GitFailure BranchStatus :=
  match text.dropPrefix? "# branch.oid ".toList with
  | some oid => .ok { branch with oid := if oid = "(initial)".toList then none else some oid }
  | none =>
    match text.dropPrefix? "# branch.head ".toList with
    | some head =>
      if head = "(detached)".toList then .ok { branch with detached := true, head := none }
      else .ok { branch with detached := false, head := some head }
    | none =>
      match text.dropPrefix? "# branch.upstream ".toList with
      | some upstream => .ok { branch with upstream := some upstream }
      | none =>
        match text.dropPrefix? "# branch.ab ".toList with
        | some counts => do
          let parts := splitWhitespace counts
          let ahead ← parseCount root parts[0]? '+' "ahead"
          let behind ← parseCount root parts[1]? '-' "behind"
          if parts[2]?.isSome then .error (invalid root "branch.ab has extra fields")
          else .ok { branch with ahead, behind }
        | none => .ok branch

/-- `parse_branch_header`. -/
def parseBranchHeader (root : Path) (record : List UInt8) (branch : BranchStatus) :
    Except GitFailure BranchStatus :=
  match fromUtf8 record with
  | .error _ => .error (invalid root "branch header is not valid UTF-8")
  | .ok text => parseHeaderText root text branch

/-! ## Entries -/

/-- `splitn(n, ' ')`. -/
def splitn : ℕ → List UInt8 → List (List UInt8)
  | 0, _ => []
  | 1, record => [record]
  | n + 2, record =>
    match record.dropWhile (· ≠ ascii ' ') with
    | [] => [record]
    | _ :: rest => record.takeWhile (· ≠ ascii ' ') :: splitn (n + 1) rest

def fields (root : Path) (record : List UInt8) (expected : ℕ) (kind : String) :
    Except GitFailure (List (List UInt8)) :=
  let values := splitn expected record
  if values.length ≠ expected ∨ values.getLast? = some [] then
    .error (invalid root ("malformed " ++ kind ++ " record"))
  else .ok values

/-- `parse_xy`. -/
def parseXy (root : Path) (value : List UInt8) (kind : String) :
    Except GitFailure (UInt8 × UInt8) :=
  match value with
  | [x, y] => .ok (x, y)
  | _ => .error (invalid root ("malformed " ++ kind ++ " XY status"))

def change (root : Path) (code : UInt8) (original : Option OsPath) :
    Except GitFailure (Option ChangeKind) :=
  if code = ascii '.' ∨ code = ascii ' ' then .ok none
  else if code = ascii 'M' ∨ code = ascii 'T' then .ok (some .modified)
  else if code = ascii 'A' ∨ code = ascii 'C' then .ok (some .added)
  else if code = ascii 'D' then .ok (some .deleted)
  else if code = ascii 'R' then
    match original with
    | some source => .ok (some (.renamed source))
    | none => .error (invalid root "rename status is missing its original path")
  else if code = ascii 'U' then .ok (some .conflicted)
  else .error (invalid root ("unknown porcelain-v2 status code " ++ toString code.toNat))

/-- `parse_ordinary`. -/
def parseOrdinary (root : Path) (record : List UInt8) : Except GitFailure FileStatus := do
  let values ← fields root record 9 "ordinary"
  let xy ← parseXy root (values.getD 1 []) "ordinary"
  let index ← change root xy.1 none
  let worktree ← change root xy.2 none
  return { path := values.getD 8 [], index, worktree }

/-- `parse_renamed`. -/
def parseRenamed (root : Path) (record original : List UInt8) : Except GitFailure FileStatus := do
  let values ← fields root record 10 "rename"
  let xy ← parseXy root (values.getD 1 []) "rename"
  let index ← change root xy.1 (some original)
  let worktree ← change root xy.2 (some original)
  return { path := values.getD 9 [], index, worktree }

/-- `parse_unmerged`. -/
def parseUnmerged (root : Path) (record : List UInt8) : Except GitFailure FileStatus := do
  let values ← fields root record 11 "unmerged"
  let _ ← parseXy root (values.getD 1 []) "unmerged"
  return { path := values.getD 10 [], index := some .conflicted, worktree := some .conflicted }

/-- What `parse_status` makes of an untracked record. -/
def parseUntracked (root : Path) (record : List UInt8) : Except GitFailure FileStatus :=
  match record with
  | mark :: space :: path =>
    if mark = ascii '?' ∧ space = ascii ' ' then
      .ok { path, index := none, worktree := some .untracked }
    else .error (invalid root "malformed untracked record")
  | _ => .error (invalid root "malformed untracked record")

/-! ## The status -/

/-- The loop of `parse_status`. -/
@[simp] def parseRecords (root : Path) : List (List UInt8) → BranchStatus → List FileStatus →
    Except GitFailure (BranchStatus × List FileStatus)
  | [], branch, files => .ok (branch, files)
  | [] :: records, branch, files => parseRecords root records branch files
  | (kind :: record) :: records, branch, files =>
    if kind = ascii '#' then do
      let branch ← parseBranchHeader root (kind :: record) branch
      parseRecords root records branch files
    else if kind = ascii '1' then do
      let file ← parseOrdinary root (kind :: record)
      parseRecords root records branch (files ++ [file])
    else if kind = ascii '2' then
      match records with
      | [] => .error (invalid root "rename record is missing its original path")
      | original :: records => do
        let file ← parseRenamed root (kind :: record) original
        parseRecords root records branch (files ++ [file])
    else if kind = ascii 'u' then do
      let file ← parseUnmerged root (kind :: record)
      parseRecords root records branch (files ++ [file])
    else if kind = ascii '?' then do
      let file ← parseUntracked root (kind :: record)
      parseRecords root records branch (files ++ [file])
    else if kind = ascii '!' then parseRecords root records branch files
    else .error (invalid root ("unknown porcelain-v2 record type " ++ toString kind.toNat))

/-- The records of an output, as `parse_status` sees them: none is empty. -/
def recordsOf (bytes : List UInt8) : List (List UInt8) := (bytes.splitOn 0).filter (· ≠ [])

/-- `parse_status`. -/
def parseStatus (root : Path) (bytes : List UInt8) :
    Except GitFailure (BranchStatus × List FileStatus) :=
  (parseRecords root (recordsOf bytes) {} []).map fun (branch, files) =>
    (branch, sortBy (fun file : FileStatus => pathKey file.path) files)

/-- The records of type `1`, `2`, `u` or `?`. What follows a record of type `2` is the path it tells
of, whatever it looks like. -/
@[simp] def entryRecords : List (List UInt8) → List (List UInt8)
  | [] => []
  | record :: records =>
    if record.head? = some (ascii '2') then
      match records with
      | [] => [record]
      | _ :: records => record :: entryRecords records
    else if record.head? ∈ [some (ascii '1'), some (ascii 'u'), some (ascii '?')] then
      record :: entryRecords records
    else entryRecords records

theorem entryRecords_nil (records : List (List UInt8)) :
    entryRecords ([] :: records) = entryRecords records := by
  rw [entryRecords.eq_def]
  simp

theorem entryRecords_skip {kind : UInt8} (record : List UInt8) (records : List (List UInt8))
    (h : kind ∉ [ascii '1', ascii '2', ascii 'u', ascii '?']) :
    entryRecords ((kind :: record) :: records) = entryRecords records := by
  simp only [List.mem_cons, List.not_mem_nil, or_false, not_or] at h
  rw [entryRecords.eq_def]
  simp [h]

theorem entryRecords_entry {kind : UInt8} (record : List UInt8) (records : List (List UInt8))
    (h : kind ∈ [ascii '1', ascii 'u', ascii '?']) :
    entryRecords ((kind :: record) :: records) = (kind :: record) :: entryRecords records := by
  have hother : kind ≠ ascii '2' := by
    rintro rfl
    revert h
    decide
  have hmem : some kind ∈ [some (ascii '1'), some (ascii 'u'), some (ascii '?')] :=
    List.mem_map_of_mem h
  rw [entryRecords.eq_def]
  simp only [List.head?_cons, Option.some.injEq, if_neg hother]
  exact if_pos hmem

theorem entryRecords_renamed (record original : List UInt8) (records : List (List UInt8)) :
    entryRecords ((ascii '2' :: record) :: original :: records) =
      (ascii '2' :: record) :: entryRecords records := by
  rw [entryRecords.eq_def]
  simp

/-! ## Each record has its entry -/

theorem ok_of_bind {α β ε : Type} {x : Except ε α} {f : α → Except ε β} {b : β}
    (h : x >>= f = .ok b) : ∃ a, x = .ok a ∧ f a = .ok b := by
  cases x with
  | error e => cases h
  | ok a => exact ⟨a, rfl, h⟩

theorem splitn_suffix (n : ℕ) (record : List UInt8) :
    (splitn (n + 1) record).getD n [] <:+ record := by
  induction n generalizing record with
  | zero => exact List.suffix_rfl
  | succ n ih =>
    rw [splitn]
    split
    · exact List.nil_suffix
    · rename_i hrest
      rw [List.getD_cons_succ]
      refine (ih _).trans (List.IsSuffix.trans ?_ (List.dropWhile_suffix (· ≠ ascii ' ')))
      rw [hrest]
      exact List.suffix_cons _ _

theorem path_of_fields {root : Path} {record : List UInt8} {n : ℕ} {kind : String}
    {values : List (List UInt8)} (h : fields root record (n + 1) kind = .ok values) :
    values.getD n [] <:+ record := by
  rw [fields] at h
  split_ifs at h
  rw [← Except.ok.inj h]
  exact splitn_suffix n record

theorem parseOrdinary_path {root : Path} {record : List UInt8} {file : FileStatus}
    (h : parseOrdinary root record = .ok file) : file.path <:+ record := by
  obtain ⟨values, hvalues, h⟩ := ok_of_bind h
  obtain ⟨xy, -, h⟩ := ok_of_bind h
  obtain ⟨index, -, h⟩ := ok_of_bind h
  obtain ⟨worktree, -, h⟩ := ok_of_bind h
  rw [← Except.ok.inj h]
  exact path_of_fields hvalues

theorem parseRenamed_path {root : Path} {record original : List UInt8} {file : FileStatus}
    (h : parseRenamed root record original = .ok file) : file.path <:+ record := by
  obtain ⟨values, hvalues, h⟩ := ok_of_bind h
  obtain ⟨xy, -, h⟩ := ok_of_bind h
  obtain ⟨index, -, h⟩ := ok_of_bind h
  obtain ⟨worktree, -, h⟩ := ok_of_bind h
  rw [← Except.ok.inj h]
  exact path_of_fields hvalues

theorem parseUnmerged_path {root : Path} {record : List UInt8} {file : FileStatus}
    (h : parseUnmerged root record = .ok file) : file.path <:+ record := by
  obtain ⟨values, hvalues, h⟩ := ok_of_bind h
  obtain ⟨xy, -, h⟩ := ok_of_bind h
  rw [← Except.ok.inj h]
  exact path_of_fields hvalues

theorem parseUntracked_path {root : Path} {record : List UInt8} {file : FileStatus}
    (h : parseUntracked root record = .ok file) : file.path <:+ record := by
  unfold parseUntracked at h
  split at h
  · rename_i mark space path
    split_ifs at h
    rw [← Except.ok.inj h]
    exact ⟨[mark, space], rfl⟩
  · cases h

/-- **Each record of a file has its entry**, in order, with the path it ends with. -/
theorem parseRecords_entries {root : Path} {records : List (List UInt8)}
    {branch branch' : BranchStatus} {files files' : List FileStatus}
    (h : parseRecords root records branch files = .ok (branch', files')) :
    ∃ parsed, files' = files ++ parsed ∧
      List.Forall₂ (fun record file => file.path <:+ record) (entryRecords records) parsed := by
  have hentry {record : List UInt8} {rest : List (List UInt8)} {file : FileStatus}
      {files files' : List FileStatus} (hpath : file.path <:+ record)
      (ih : ∃ parsed, files' = files ++ [file] ++ parsed ∧
        List.Forall₂ (fun record file => file.path <:+ record) rest parsed) :
      ∃ parsed, files' = files ++ parsed ∧
        List.Forall₂ (fun record file => file.path <:+ record) (record :: rest) parsed := by
    obtain ⟨parsed, rfl, hparsed⟩ := ih
    exact ⟨file :: parsed, by simp, .cons hpath hparsed⟩
  fun_induction parseRecords root records branch files with
  | case1 branch files =>
    obtain ⟨-, rfl⟩ := Prod.mk.inj (Except.ok.inj h)
    exact ⟨[], by simp, .nil⟩
  | case2 records branch files ih =>
    rw [entryRecords_nil]
    exact ih h
  | case3 record records branch files ih =>
    obtain ⟨branch₁, -, h⟩ := ok_of_bind h
    rw [entryRecords_skip record records (by decide)]
    exact ih branch₁ h
  | case4 record records branch files _ ih =>
    obtain ⟨file, hfile, h⟩ := ok_of_bind h
    rw [entryRecords_entry record records (by decide)]
    exact hentry (parseOrdinary_path hfile) (ih file h)
  | case5 => cases h
  | case6 record branch files original records _ _ ih =>
    obtain ⟨file, hfile, h⟩ := ok_of_bind h
    rw [entryRecords_renamed record original records]
    exact hentry (parseRenamed_path hfile) (ih file h)
  | case7 record records branch files _ _ _ ih =>
    obtain ⟨file, hfile, h⟩ := ok_of_bind h
    rw [entryRecords_entry record records (by decide)]
    exact hentry (parseUnmerged_path hfile) (ih file h)
  | case8 record records branch files _ _ _ _ ih =>
    obtain ⟨file, hfile, h⟩ := ok_of_bind h
    rw [entryRecords_entry record records (by decide)]
    exact hentry (parseUntracked_path hfile) (ih file h)
  | case9 record records branch files _ _ _ _ _ ih =>
    rw [entryRecords_skip record records (by decide)]
    exact ih h
  | case10 => cases h

end Git

end Termesh
