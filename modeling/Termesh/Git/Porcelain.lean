import Mathlib.Algebra.GroupWithZero.Nat
import Termesh.Git.Status

/-!
# The porcelain format

What `git status --porcelain=v2 --branch -z` prints is read back.

* `BranchHeaders`, `Code`, `StatusEntry`, `render`: a status and its rendering;
* **`parse_inverts`**: a rendered status is read as it is, and no output is read without an entry
  for each of its records.
-/

namespace Termesh

namespace Git

open Sorting Utf8

/-! ## What is printed -/

/-- The headers of a branch, each of them there or not. -/
structure BranchHeaders where
  oid : Option (List Char)
  head : Option (List Char)
  upstream : Option (List Char)
  counts : Option (ℕ × ℕ)

namespace BranchHeaders

/-- The records that print the headers. -/
def records (h : BranchHeaders) : List (List UInt8) :=
  h.oid.toList.map (fun oid => utf8 ("# branch.oid ".toList ++ oid)) ++
    h.head.toList.map (fun head => utf8 ("# branch.head ".toList ++ head)) ++
    h.upstream.toList.map (fun upstream => utf8 ("# branch.upstream ".toList ++ upstream)) ++
    h.counts.toList.map fun counts => utf8 ("# branch.ab ".toList ++
      '+' :: (Nat.toDigits 10 counts.1 ++ ' ' :: '-' :: Nat.toDigits 10 counts.2))

/-- What the headers say; `(initial)` and `(detached)` stand for no commit and no branch. -/
def status (h : BranchHeaders) : BranchStatus where
  oid := h.oid.bind fun oid => if oid = "(initial)".toList then none else some oid
  head := h.head.bind fun head => if head = "(detached)".toList then none else some head
  upstream := h.upstream
  ahead := (h.counts.map Prod.fst).getD 0
  behind := (h.counts.map Prod.snd).getD 0
  detached := h.head = some "(detached)".toList

/-- Headers without the character that ends a record, and with counts that are machine words. -/
structure Valid (h : BranchHeaders) : Prop where
  oid : ∀ oid ∈ h.oid, '\x00' ∉ oid
  head : ∀ head ∈ h.head, '\x00' ∉ head
  upstream : ∀ upstream ∈ h.upstream, '\x00' ∉ upstream
  counts : ∀ counts ∈ h.counts, counts.1 < 2 ^ 64 ∧ counts.2 < 2 ^ 64

end BranchHeaders

/-- What a column of an entry says. -/
inductive Code where
  | unmodified
  | modified
  | typeChanged
  | added
  | deleted
  | renamed
  | copied
  | updated
deriving DecidableEq, Repr

namespace Code

def letter : Code → Char
  | unmodified => '.'
  | modified => 'M'
  | typeChanged => 'T'
  | added => 'A'
  | deleted => 'D'
  | renamed => 'R'
  | copied => 'C'
  | updated => 'U'

/-- What a code says of a file that was at `source`. -/
def kind (source : OsPath) : Code → Option ChangeKind
  | unmodified => none
  | modified => some .modified
  | typeChanged => some .modified
  | added => some .added
  | deleted => some .deleted
  | renamed => some (.renamed source)
  | copied => some .added
  | updated => some .conflicted

end Code

/-- An entry: the codes of its columns, what is printed between these and the path, and the path. -/
inductive StatusEntry where
  | ordinary (x y : Code) (details : List (List UInt8)) (path : OsPath)
  | renamed (x y : Code) (details : List (List UInt8)) (path original : OsPath)
  | unmerged (x y : Code) (details : List (List UInt8)) (path : OsPath)
  | untracked (path : OsPath)

/-- Fields with a space between them. -/
def line (values : List (List UInt8)) (path : List UInt8) : List UInt8 :=
  values.foldr (fun value rest => value ++ ascii ' ' :: rest) path

namespace StatusEntry

/-- The records that print an entry. -/
def records : StatusEntry → List (List UInt8)
  | ordinary x y details path =>
    [line ([ascii '1'] :: [ascii x.letter, ascii y.letter] :: details) path]
  | renamed x y details path original =>
    [line ([ascii '2'] :: [ascii x.letter, ascii y.letter] :: details) path, original]
  | unmerged x y details path =>
    [line ([ascii 'u'] :: [ascii x.letter, ascii y.letter] :: details) path]
  | untracked path => [ascii '?' :: ascii ' ' :: path]

/-- What an entry says of its file. -/
def status : StatusEntry → FileStatus
  | ordinary x y _ path => { path, index := x.kind [], worktree := y.kind [] }
  | renamed x y _ path original => { path, index := x.kind original, worktree := y.kind original }
  | unmerged _ _ _ path => { path, index := some .conflicted, worktree := some .conflicted }
  | untracked path => { path, index := none, worktree := some .untracked }

/-- A path that can be printed: any bytes but the one that ends a record. -/
def IsPath (path : OsPath) : Prop := path ≠ [] ∧ 0 ∉ path

/-- `n` fields between the codes and the path. -/
def AreDetails (n : ℕ) (details : List (List UInt8)) : Prop :=
  details.length = n ∧ ∀ detail ∈ details, 0 ∉ detail ∧ ascii ' ' ∉ detail

/-- An entry as Git prints it: only an entry with an original path is renamed. -/
def Valid : StatusEntry → Prop
  | ordinary x y details path =>
    x ≠ .renamed ∧ y ≠ .renamed ∧ AreDetails 6 details ∧ IsPath path
  | renamed _ _ details path original => AreDetails 7 details ∧ IsPath path ∧ IsPath original
  | unmerged _ _ details path => AreDetails 8 details ∧ IsPath path
  | untracked path => IsPath path

end StatusEntry

/-- A status as it is printed: each record behind the one before, with a byte 0 behind it. -/
def render (headers : BranchHeaders) (entries : List StatusEntry) : List UInt8 :=
  (headers.records ++ entries.flatMap StatusEntry.records).flatMap (· ++ [0])

/-! ## Records and fields -/

theorem recordsOf_flatMap {records : List (List UInt8)} (h : ∀ record ∈ records,
    record ≠ [] ∧ 0 ∉ record) : recordsOf (records.flatMap (· ++ [0])) = records := by
  unfold recordsOf
  induction records with
  | nil => rfl
  | cons record records ih =>
    obtain ⟨hne, hzero⟩ := h record List.mem_cons_self
    rw [List.flatMap_cons, List.append_assoc, List.singleton_append,
      List.splitOn_append_cons_self_of_not_mem hzero, List.filter_cons_of_pos (by simpa using hne),
      ih fun r hr => h r (List.mem_cons_of_mem _ hr)]

theorem splitn_line {values : List (List UInt8)} (h : ∀ value ∈ values, ascii ' ' ∉ value)
    (path : List UInt8) : splitn (values.length + 1) (line values path) = values ++ [path] := by
  induction values with
  | nil => rfl
  | cons value values ih =>
    have hvalue : ∀ b ∈ value, decide (b ≠ ascii ' ') = true := fun b hb => by
      rw [decide_eq_true_iff]
      rintro rfl
      exact h value List.mem_cons_self hb
    have hdrop : (line (value :: values) path).dropWhile (· ≠ ascii ' ') =
        ascii ' ' :: line values path := by
      rw [line, List.foldr_cons, List.dropWhile_append_of_pos hvalue,
        List.dropWhile_cons_of_neg (by simp)]
      rfl
    have htake : (line (value :: values) path).takeWhile (· ≠ ascii ' ') = value := by
      rw [line, List.foldr_cons, List.takeWhile_append_of_pos hvalue,
        List.takeWhile_cons_of_neg (by simp), List.append_nil]
    rw [List.length_cons, splitn, hdrop, htake]
    simp only [ih fun v hv => h v (List.mem_cons_of_mem _ hv)]
    rfl

theorem mem_line {b : UInt8} {values : List (List UInt8)} {path : List UInt8}
    (h : b ∈ line values path) : b = ascii ' ' ∨ b ∈ path ∨ ∃ value ∈ values, b ∈ value := by
  induction values with
  | nil => exact .inr (.inl h)
  | cons value values ih =>
    rcases List.mem_append.mp h with hb | hb
    · exact .inr (.inr ⟨value, List.mem_cons_self, hb⟩)
    · rcases List.mem_cons.mp hb with hb | hb
      · exact .inl hb
      · rcases ih hb with hb | hb | ⟨v, hv, hb⟩
        · exact .inl hb
        · exact .inr (.inl hb)
        · exact .inr (.inr ⟨v, List.mem_cons_of_mem _ hv, hb⟩)

/-! ## Headers -/

theorem utf8_ascii {c : Char} (h : c.toNat < 128) (t : List Char) :
    utf8 (c :: t) = ascii c :: utf8 t := by
  rw [utf8_cons, utf8EncodeChar_of_lt h]
  rfl

theorem parseRecords_header {root : Path} {text : List Char} {branch branch' : BranchStatus}
    (hhash : text.head? = some '#') (h : parseHeaderText root text branch = .ok branch')
    (records : List (List UInt8)) (files : List FileStatus) :
    parseRecords root (utf8 text :: records) branch files =
      parseRecords root records branch' files := by
  obtain ⟨rest, rfl⟩ := List.head?_eq_some_iff.mp hhash
  rw [utf8_ascii (by decide), parseRecords.eq_def]
  dsimp only
  rw [if_pos rfl, ← utf8_ascii (by decide), parseBranchHeader, fromUtf8_utf8]
  dsimp only
  rw [h]
  rfl

theorem parseHeaderText_oid (root : Path) (oid : List Char) (branch : BranchStatus) :
    parseHeaderText root ("# branch.oid ".toList ++ oid) branch =
      .ok { branch with oid := if oid = "(initial)".toList then none else some oid } := by
  rw [parseHeaderText, dropPrefix?_append]

theorem parseHeaderText_head (root : Path) (head : List Char) (branch : BranchStatus) :
    parseHeaderText root ("# branch.head ".toList ++ head) branch =
      if head = "(detached)".toList then .ok { branch with detached := true, head := none }
      else .ok { branch with detached := false, head := some head } := by
  have hother : ("# branch.head ".toList ++ head).dropPrefix? "# branch.oid ".toList = none := rfl
  rw [parseHeaderText, hother, dropPrefix?_append]

theorem parseHeaderText_upstream (root : Path) (upstream : List Char) (branch : BranchStatus) :
    parseHeaderText root ("# branch.upstream ".toList ++ upstream) branch =
      .ok { branch with upstream := some upstream } := by
  have hoid : ("# branch.upstream ".toList ++ upstream).dropPrefix? "# branch.oid ".toList =
      none := rfl
  have hhead : ("# branch.upstream ".toList ++ upstream).dropPrefix? "# branch.head ".toList =
      none := rfl
  rw [parseHeaderText, hoid, hhead, dropPrefix?_append]

theorem parseCount_digits (root : Path) (start : Char) {n : ℕ} (h : n < 2 ^ 64) (name : String) :
    parseCount root (some (start :: Nat.toDigits 10 n)) start name = .ok n := by
  rw [parseCount, dropPrefix?_char, if_pos rfl]
  dsimp only
  rw [Lsp.parseUsize_toDigits h]

theorem parseHeaderText_ab (root : Path) {ahead behind : ℕ} (ha : ahead < 2 ^ 64)
    (hb : behind < 2 ^ 64) (branch : BranchStatus) :
    parseHeaderText root ("# branch.ab ".toList ++
        '+' :: (Nat.toDigits 10 ahead ++ ' ' :: '-' :: Nat.toDigits 10 behind)) branch =
      .ok { branch with ahead, behind } := by
  have hblank : ∀ (c : Char) (n : ℕ), isWhitespace c = false →
      ∀ d ∈ c :: Nat.toDigits 10 n, isWhitespace d = false := by
    intro c n hc d hd
    rcases List.mem_cons.mp hd with rfl | hd
    · exact hc
    · exact Lsp.not_isWhitespace_of_isDigit
        (Nat.isDigit_of_mem_toDigits (by decide) (by decide) hd)
  have hparts : splitWhitespace
      ('+' :: (Nat.toDigits 10 ahead ++ ' ' :: '-' :: Nat.toDigits 10 behind)) =
        ['+' :: Nat.toDigits 10 ahead, '-' :: Nat.toDigits 10 behind] := by
    rw [splitWhitespace, ← List.cons_append,
      List.splitOnP_append_cons_of_forall_mem (hblank '+' ahead (by decide)) ' ' (by decide),
      List.splitOnP_eq_singleton (hblank '-' behind (by decide))]
    rfl
  have hnone : ∀ pattern ∈ ["# branch.oid ", "# branch.head ", "# branch.upstream "],
      ("# branch.ab ".toList ++ '+' :: (Nat.toDigits 10 ahead ++ ' ' :: '-' ::
        Nat.toDigits 10 behind)).dropPrefix? pattern.toList = none := by
    simp only [List.mem_cons, List.not_mem_nil, or_false]
    rintro pattern (rfl | rfl | rfl) <;> rfl
  rw [parseHeaderText, hnone _ (by simp), hnone _ (by simp), hnone _ (by simp),
    dropPrefix?_append]
  dsimp only
  rw [hparts]
  have hahead := parseCount_digits root '+' ha "ahead"
  have hbehind := parseCount_digits root '-' hb "behind"
  simp only [List.getElem?_cons_zero, List.getElem?_cons_succ, hahead, hbehind]
  rfl

section

variable (root : Path) (rest : List (List UInt8)) (files : List FileStatus)

/-! Each header may be missing: what it would have set is then as it was at first. -/

theorem parseRecords_oid (oid : Option (List Char)) : parseRecords root
    (oid.toList.map (fun oid => utf8 ("# branch.oid ".toList ++ oid)) ++ rest) {} files =
      parseRecords root rest { oid := oid.bind fun oid =>
        if oid = "(initial)".toList then none else some oid } files := by
  cases oid with
  | none => rfl
  | some oid => exact parseRecords_header rfl (parseHeaderText_oid root oid {}) rest files

theorem parseRecords_head (head : Option (List Char)) {branch : BranchStatus}
    (hb : branch.head = none) (hd : branch.detached = false) : parseRecords root
    (head.toList.map (fun head => utf8 ("# branch.head ".toList ++ head)) ++ rest) branch files =
      parseRecords root rest { branch with
        head := head.bind fun head => if head = "(detached)".toList then none else some head
        detached := head = some "(detached)".toList } files := by
  cases head with
  | none =>
    have hsame : { branch with head := none, detached := false } = branch := by rw [← hb, ← hd]
    exact congrArg (parseRecords root rest · files) hsame.symm
  | some head =>
    refine parseRecords_header rfl ?_ rest files
    rw [parseHeaderText_head, Option.bind_some]
    by_cases hdetached : head = "(detached)".toList
    · rw [if_pos hdetached, if_pos hdetached, decide_eq_true (congrArg some hdetached)]
    · rw [if_neg hdetached, if_neg hdetached,
        decide_eq_false fun heq => hdetached (Option.some.inj heq)]

theorem parseRecords_upstream (upstream : Option (List Char)) {branch : BranchStatus}
    (hb : branch.upstream = none) : parseRecords root
    (upstream.toList.map (fun upstream => utf8 ("# branch.upstream ".toList ++ upstream)) ++ rest)
      branch files = parseRecords root rest { branch with upstream } files := by
  cases upstream with
  | none =>
    have hsame : { branch with upstream := none } = branch := by rw [← hb]
    exact congrArg (parseRecords root rest · files) hsame.symm
  | some upstream =>
    exact parseRecords_header rfl (parseHeaderText_upstream root upstream branch) rest files

theorem parseRecords_counts {counts : Option (ℕ × ℕ)}
    (hcounts : ∀ c ∈ counts, c.1 < 2 ^ 64 ∧ c.2 < 2 ^ 64) {branch : BranchStatus}
    (ha : branch.ahead = 0) (hb : branch.behind = 0) : parseRecords root
    (counts.toList.map (fun counts => utf8 ("# branch.ab ".toList ++
      '+' :: (Nat.toDigits 10 counts.1 ++ ' ' :: '-' :: Nat.toDigits 10 counts.2))) ++ rest)
      branch files = parseRecords root rest { branch with
        ahead := (counts.map Prod.fst).getD 0
        behind := (counts.map Prod.snd).getD 0 } files := by
  cases counts with
  | none =>
    have hsame : { branch with ahead := 0, behind := 0 } = branch :=
      congrArg₂ (fun ahead behind => { branch with ahead, behind }) ha.symm hb.symm
    exact congrArg (parseRecords root rest · files) hsame.symm
  | some counts =>
    obtain ⟨hahead, hbehind⟩ := hcounts counts rfl
    exact parseRecords_header rfl (parseHeaderText_ab root hahead hbehind branch) rest files

end

/-- The headers are read as what they say. -/
theorem parseRecords_headers (root : Path) {headers : BranchHeaders} (h : headers.Valid)
    (records : List (List UInt8)) (files : List FileStatus) :
    parseRecords root (headers.records ++ records) {} files =
      parseRecords root records headers.status files := by
  rw [BranchHeaders.records, List.append_assoc, List.append_assoc, List.append_assoc,
    parseRecords_oid, parseRecords_head _ _ _ _ rfl rfl, parseRecords_upstream _ _ _ _ rfl,
    parseRecords_counts _ _ _ h.counts rfl rfl]
  rfl

/-! ## Entries -/

theorem fields_line (root : Path) {values : List (List UInt8)} {path : List UInt8}
    (h : ∀ value ∈ values, ascii ' ' ∉ value) (hpath : path ≠ []) (kind : String) :
    fields root (line values path) (values.length + 1) kind = .ok (values ++ [path]) := by
  rw [fields, splitn_line h, if_neg]
  rw [List.length_append, List.getLast?_append, not_or]
  simp [hpath]

theorem change_letter (root : Path) (code : Code) (source : OsPath) :
    change root (ascii code.letter) (some source) = .ok (code.kind source) := by
  cases code <;> rfl

theorem change_letter_none (root : Path) {code : Code} (h : code ≠ .renamed) :
    change root (ascii code.letter) none = .ok (code.kind []) := by
  cases code with
  | renamed => exact absurd rfl h
  | _ => rfl

theorem letter_ne (code : Code) : ascii code.letter ≠ ascii ' ' ∧ ascii code.letter ≠ 0 := by
  cases code <;> decide

namespace StatusEntry

theorem fields_details (root : Path) {n : ℕ} {details : List (List UInt8)} {path : OsPath}
    (hdetails : AreDetails n details) (hpath : IsPath path) (mark : Char)
    (hmark : ascii mark ≠ ascii ' ') (x y : Code) (kind : String) :
    ∃ values, fields root (line ([ascii mark] :: [ascii x.letter, ascii y.letter] :: details) path)
        (n + 3) kind = .ok values ∧
      values.getD 1 [] = [ascii x.letter, ascii y.letter] ∧ values.getD (n + 2) [] = path := by
  have hspace : ∀ value ∈ [ascii mark] :: [ascii x.letter, ascii y.letter] :: details,
      ascii ' ' ∉ value := by
    simp only [List.forall_mem_cons]
    refine ⟨by simpa using hmark.symm, ?_, fun detail hd => (hdetails.2 detail hd).2⟩
    simp [(letter_ne x).1.symm, (letter_ne y).1.symm]
  have hfields := fields_line root hspace hpath.1 kind
  rw [List.length_cons, List.length_cons, hdetails.1] at hfields
  refine ⟨_, hfields, rfl, ?_⟩
  rw [← hdetails.1]
  simp

theorem parseOrdinary_line (root : Path) {x y : Code} {details : List (List UInt8)} {path : OsPath}
    (h : (ordinary x y details path).Valid) :
    parseOrdinary root (line ([ascii '1'] :: [ascii x.letter, ascii y.letter] :: details) path) =
      .ok (ordinary x y details path).status := by
  obtain ⟨hx, hy, hdetails, hpath⟩ := h
  obtain ⟨values, hfields, hcodes, hlast⟩ :=
    fields_details root hdetails hpath '1' (by decide) x y "ordinary"
  rw [parseOrdinary, hfields]
  dsimp only [bind, Except.bind]
  rw [hcodes, hlast]
  dsimp only [parseXy]
  rw [change_letter_none root hx, change_letter_none root hy]
  rfl

theorem parseRenamed_line (root : Path) {x y : Code} {details : List (List UInt8)}
    {path original : OsPath} (h : (renamed x y details path original).Valid) :
    parseRenamed root (line ([ascii '2'] :: [ascii x.letter, ascii y.letter] :: details) path)
      original = .ok (renamed x y details path original).status := by
  obtain ⟨hdetails, hpath, -⟩ := h
  obtain ⟨values, hfields, hcodes, hlast⟩ :=
    fields_details root hdetails hpath '2' (by decide) x y "rename"
  rw [parseRenamed, hfields]
  dsimp only [bind, Except.bind]
  rw [hcodes, hlast]
  dsimp only [parseXy]
  rw [change_letter, change_letter]
  rfl

theorem parseUnmerged_line (root : Path) {x y : Code} {details : List (List UInt8)} {path : OsPath}
    (h : (unmerged x y details path).Valid) :
    parseUnmerged root (line ([ascii 'u'] :: [ascii x.letter, ascii y.letter] :: details) path) =
      .ok (unmerged x y details path).status := by
  obtain ⟨hdetails, hpath⟩ := h
  obtain ⟨values, hfields, hcodes, hlast⟩ :=
    fields_details root hdetails hpath 'u' (by decide) x y "unmerged"
  rw [parseUnmerged, hfields]
  dsimp only [bind, Except.bind]
  rw [hcodes, hlast]
  rfl

/-- An entry is read as what it says. -/
theorem parseRecords_entry (root : Path) {entry : StatusEntry} (h : entry.Valid)
    (records : List (List UInt8)) (branch : BranchStatus) (files : List FileStatus) :
    parseRecords root (entry.records ++ records) branch files =
      parseRecords root records branch (files ++ [entry.status]) := by
  cases entry with
  | ordinary x y details path =>
    have hread := parseOrdinary_line root h
    show parseRecords root ((ascii '1' :: _) :: records) branch files = _
    rw [parseRecords.eq_def]
    dsimp only
    rw [if_neg (by decide), if_pos rfl]
    exact congrArg (· >>= _) hread
  | renamed x y details path original =>
    have hread := parseRenamed_line root h
    show parseRecords root ((ascii '2' :: _) :: original :: records) branch files = _
    rw [parseRecords.eq_def]
    dsimp only
    rw [if_neg (by decide), if_neg (by decide), if_pos rfl]
    exact congrArg (· >>= _) hread
  | unmerged x y details path =>
    have hread := parseUnmerged_line root h
    show parseRecords root ((ascii 'u' :: _) :: records) branch files = _
    rw [parseRecords.eq_def]
    dsimp only
    rw [if_neg (by decide), if_neg (by decide), if_neg (by decide), if_pos rfl]
    exact congrArg (· >>= _) hread
  | untracked path =>
    have hread : parseUntracked root (ascii '?' :: ascii ' ' :: path) =
        .ok (untracked path).status := by
      rw [parseUntracked, if_pos ⟨rfl, rfl⟩]
      rfl
    show parseRecords root ((ascii '?' :: ascii ' ' :: path) :: records) branch files = _
    rw [parseRecords.eq_def]
    dsimp only
    rw [if_neg (by decide), if_neg (by decide), if_neg (by decide), if_neg (by decide), if_pos rfl,
      hread]
    rfl

theorem parseRecords_statuses (root : Path) {entries : List StatusEntry}
    (h : ∀ entry ∈ entries, entry.Valid) (branch : BranchStatus) (files : List FileStatus) :
    parseRecords root (entries.flatMap records) branch files =
      .ok (branch, files ++ entries.map status) := by
  induction entries generalizing files with
  | nil => simp [parseRecords]
  | cons entry entries ih =>
    rw [List.flatMap_cons, parseRecords_entry root (h entry List.mem_cons_self),
      ih fun e he => h e (List.mem_cons_of_mem _ he)]
    simp

theorem records_proper {entry : StatusEntry} (h : entry.Valid) :
    ∀ record ∈ entry.records, record ≠ [] ∧ 0 ∉ record := by
  have hline {n : ℕ} {details : List (List UInt8)} {path : OsPath} (hdetails : AreDetails n details)
      (hpath : IsPath path) {mark : Char} (hmark : ascii mark ≠ 0) (x y : Code) :
      line ([ascii mark] :: [ascii x.letter, ascii y.letter] :: details) path ≠ [] ∧
        0 ∉ line ([ascii mark] :: [ascii x.letter, ascii y.letter] :: details) path := by
    refine ⟨List.cons_ne_nil _ _, fun hzero => ?_⟩
    rcases mem_line hzero with hzero | hzero | ⟨value, hvalue, hzero⟩
    · cases hzero
    · exact hpath.2 hzero
    · rcases List.mem_cons.mp hvalue with rfl | hvalue
      · exact hmark (List.mem_singleton.mp hzero).symm
      · rcases List.mem_cons.mp hvalue with rfl | hvalue
        · rcases List.mem_cons.mp hzero with hzero | hzero
          · exact (letter_ne x).2 hzero.symm
          · exact (letter_ne y).2 (List.mem_singleton.mp hzero).symm
        · exact (hdetails.2 value hvalue).1 hzero
  cases entry with
  | ordinary x y details path =>
    obtain ⟨-, -, hdetails, hpath⟩ := h
    rw [records, List.forall_mem_singleton]
    exact hline hdetails hpath (by decide) x y
  | renamed x y details path original =>
    obtain ⟨hdetails, hpath, horiginal⟩ := h
    simp only [records, List.forall_mem_cons]
    exact ⟨hline hdetails hpath (by decide) x y, horiginal, by simp⟩
  | unmerged x y details path =>
    obtain ⟨hdetails, hpath⟩ := h
    rw [records, List.forall_mem_singleton]
    exact hline hdetails hpath (by decide) x y
  | untracked path =>
    rw [records, List.forall_mem_singleton]
    refine ⟨List.cons_ne_nil _ _, ?_⟩
    simp only [List.mem_cons, not_or]
    exact ⟨by decide, by decide, h.2⟩

end StatusEntry

theorem BranchHeaders.records_proper {headers : BranchHeaders} (h : headers.Valid) :
    ∀ record ∈ headers.records, record ≠ [] ∧ 0 ∉ record := by
  have htext {pattern t : List Char} (hpattern : pattern ≠ [] ∧ '\x00' ∉ pattern)
      (ht : '\x00' ∉ t) : utf8 (pattern ++ t) ≠ [] ∧ 0 ∉ utf8 (pattern ++ t) := by
    refine ⟨utf8_ne_nil (by simp [hpattern.1]), fun hzero => ?_⟩
    have hmem : '\x00' ∈ pattern ++ t := (mem_utf8_iff (by decide)).mp hzero
    exact (List.mem_append.mp hmem).elim hpattern.2 ht
  have hdigits (n : ℕ) : '\x00' ∉ Nat.toDigits 10 n := fun hmem =>
    absurd (Nat.isDigit_of_mem_toDigits (by decide) (by decide) hmem) (by decide)
  intro record hrecord
  simp only [BranchHeaders.records, List.mem_append, List.mem_map, Option.mem_toList] at hrecord
  obtain ((⟨oid, hoid, rfl⟩ | ⟨head, hhead, rfl⟩) | ⟨upstream, hupstream, rfl⟩) |
    ⟨counts, -, rfl⟩ := hrecord
  · exact htext (by decide) (h.oid oid hoid)
  · exact htext (by decide) (h.head head hhead)
  · exact htext (by decide) (h.upstream upstream hupstream)
  · exact htext (by decide) (by simp [hdigits])

/-! ## The status -/

/-- **Reading a status inverts printing it**: the branch is what the headers say, and each entry is
there, in the order of the paths, with the kinds of its codes and the path it was renamed from. And
no output at all is read without an entry for each record of a file. -/
theorem parse_inverts (root : Path) :
    (∀ headers entries, headers.Valid → (∀ entry ∈ entries, entry.Valid) →
      parseStatus root (render headers entries) = .ok (headers.status,
        sortBy (fun file : FileStatus => pathKey file.path) (entries.map StatusEntry.status))) ∧
    ∀ bytes branch files, parseStatus root bytes = .ok (branch, files) →
      ∃ parsed, files = sortBy (fun file : FileStatus => pathKey file.path) parsed ∧
        List.Forall₂ (fun record file => file.path <:+ record)
          (entryRecords (recordsOf bytes)) parsed ∧
        files.length = (entryRecords (recordsOf bytes)).length := by
  constructor
  · intro headers entries hheaders hentries
    have hproper : ∀ record ∈ headers.records ++ entries.flatMap StatusEntry.records,
        record ≠ [] ∧ 0 ∉ record := by
      intro record hrecord
      rcases List.mem_append.mp hrecord with hrecord | hrecord
      · exact BranchHeaders.records_proper hheaders record hrecord
      · obtain ⟨entry, hentry, hrecord⟩ := List.mem_flatMap.mp hrecord
        exact StatusEntry.records_proper (hentries entry hentry) record hrecord
    rw [parseStatus, render, recordsOf_flatMap hproper, parseRecords_headers root hheaders,
      StatusEntry.parseRecords_statuses root hentries]
    rfl
  · intro bytes branch files h
    rw [parseStatus] at h
    cases hloop : parseRecords root (recordsOf bytes) {} [] with
    | error failure =>
      rw [hloop] at h
      cases h
    | ok read =>
      obtain ⟨branch', files'⟩ := read
      rw [hloop] at h
      obtain ⟨-, rfl⟩ := Prod.mk.inj (Except.ok.inj h)
      obtain ⟨parsed, rfl, hparsed⟩ := parseRecords_entries hloop
      refine ⟨_, rfl, hparsed, ?_⟩
      rw [length_sortBy]
      exact hparsed.length_eq.symm

/-- A branch with a header of each kind. -/
def mainBranch : BranchHeaders where
  oid := some "(initial)".toList
  head := some "main".toList
  upstream := some "origin/main".toList
  counts := some (2, 10)

/-- A rename whose original path looks like a record, and a file named with a space. -/
def renameAndSpace : List StatusEntry :=
  [.untracked [ascii 'b', ascii ' ', ascii '?'],
    .renamed .renamed .unmodified (List.replicate 7 [ascii '0']) [ascii 'a']
      [ascii '?', ascii ' ', ascii 'b']]

/-- Both are read, in the order of their paths. -/
theorem parse_inverts_rename :
    parseStatus [.rootDir] (render mainBranch renameAndSpace) = .ok (
      { head := some "main".toList, upstream := some "origin/main".toList, ahead := 2,
        behind := 10 },
      [{ path := [ascii 'a'], index := some (.renamed [ascii '?', ascii ' ', ascii 'b']),
         worktree := none },
       { path := [ascii 'b', ascii ' ', ascii '?'], index := none,
         worktree := some .untracked }]) := by
  have hheaders : mainBranch.Valid := by
    constructor <;> intro t ht <;> obtain rfl := Option.some.inj ht <;> decide
  have hentries : ∀ entry ∈ renameAndSpace, entry.Valid := by
    rw [renameAndSpace, List.forall_mem_cons, List.forall_mem_singleton]
    refine ⟨⟨by decide, by decide⟩, ⟨rfl, fun detail hdetail => ?_⟩, ⟨by decide, by decide⟩,
      by decide, by decide⟩
    rw [List.eq_of_mem_replicate hdetail]
    decide
  refine ((parse_inverts [.rootDir]).1 mainBranch renameAndSpace hheaders hentries).trans ?_
  rfl

end Git

end Termesh
