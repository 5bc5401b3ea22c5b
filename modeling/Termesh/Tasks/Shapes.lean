import Termesh.Core.Spelling
import Termesh.Lib.Splits
import Termesh.Tasks.TextProblems

/-!
# The shapes of compiler lines

A line in one of the shapes is decoded to the location it prints, unless the message looks like a
location of its own: the shapes look for the last bracket of the line, and for the first two numbers
between colons.

* `PrintedPath`, `PrintedMessage`; `tscText`, `gccText`, `javacText`: the lines;
* `MessageLocates`: the numbers that a message brings in;
* **`shapes_iff`**: exactly the messages with which all three are.
-/

namespace Termesh

namespace Tasks

open Utf8
open Lsp (parseUsize)

/-- A relative path as a compiler prints it. -/
structure PrintedPath (p : List Char) : Prop where
  relative : (Path.ofString (String.ofList p)).isAbsolute = false
  extension : hasExtension (Path.ofString (String.ofList p)) = true
  colon : ':' ∉ p
  bracket : '(' ∉ p
  quote : '"' ∉ p
  square : '[' ∉ p
  within : .parentDir ∉ Path.ofString (String.ofList p)
  trimmed : Trimmed p

/-- A message on one line. -/
structure PrintedMessage (m : List Char) : Prop where
  nonempty : m ≠ []
  trimmed : Trimmed m
  oneLine : '\n' ∉ m ∧ '\r' ∉ m

/-- `path(line,column): message`. -/
def tscText (p : List Char) (line column : ℕ) (m : List Char) : List Char :=
  p ++ '(' :: (Nat.toDigits 10 line ++ ',' :: (Nat.toDigits 10 column ++ "): ".toList ++ m))

/-- `path:line:column: message`. -/
def gccText (p : List Char) (line column : ℕ) (m : List Char) : List Char :=
  p ++ ':' :: (Nat.toDigits 10 line ++ ':' :: (Nat.toDigits 10 column ++ ':' :: ' ' :: m))

/-- `path:line: message`. -/
def javacText (p : List Char) (line : ℕ) (m : List Char) : List Char :=
  p ++ ':' :: (Nat.toDigits 10 line ++ ':' :: ' ' :: m)

/-- The line is decoded to a location and a message. -/
def DecodesTo (cwd : Path) (text p : List Char) (line column : ℕ) (m : List Char) : Prop :=
  ∃ problem, decodeLine cwd (utf8 text) = some problem ∧
    problem.path = App.PermissionStore.joinPath cwd (Path.ofString (String.ofList p)) ∧
    problem.line = line ∧ problem.column = column ∧ problem.message = String.ofList m

/-- Two numbers stand in the text, each between two colons. -/
def NumbersAt (text before rest : List Char) : Prop :=
  ∃ x y, text = before ++ ':' :: (x ++ ':' :: (y ++ ':' :: rest)) ∧ ':' ∉ x ∧ ':' ∉ y ∧
    (parseUsize (trimText x)).isSome ∧ (parseUsize (trimText y)).isSome

/-- The first two numbers between colons are taken for a location: there is something behind them,
and no `..` in what stands in front of them. -/
def MessageLocates (text : List Char) : Prop :=
  ∃ before rest, NumbersAt text before rest ∧
    (∀ before' rest', NumbersAt text before' rest' → before.length ≤ before'.length) ∧
    trimText rest ≠ [] ∧ .parentDir ∉ Path.ofString (String.ofList (trimText before))

/-! ## Problems -/

theorem buildProblem_eq_some {cwd : Path} {rawPath message : List Char} {line column : ℕ}
    {problem : Problem} (h : buildProblem cwd rawPath line column message = some problem) :
    rawPath ≠ [] ∧ message ≠ [] ∧ .parentDir ∉ Path.ofString (String.ofList rawPath) ∧
      problem.path = underCwd cwd (Path.ofString (String.ofList rawPath)) ∧
      problem.line = line ∧ problem.column = column ∧ problem.message = String.ofList message := by
  rw [buildProblem] at h
  split_ifs at h with hempty hdots
  obtain ⟨hpath, hmessage⟩ := not_or.mp hempty
  rw [← Option.some.inj h]
  exact ⟨hpath, hmessage, hdots, rfl, rfl, rfl, rfl⟩

theorem buildProblem_isSome (cwd : Path) {rawPath message : List Char} (line column : ℕ)
    (hpath : rawPath ≠ []) (hmessage : message ≠ [])
    (hdots : .parentDir ∉ Path.ofString (String.ofList rawPath)) :
    ∃ problem, buildProblem cwd rawPath line column message = some problem := by
  rw [buildProblem, if_neg (not_or.mpr ⟨hpath, hmessage⟩), if_neg hdots]
  exact ⟨_, rfl⟩

/-! ## The loop over the colons -/

theorem atColons_eq_some {α : Type} {attempt : List Char → List Char → Option α} {a : α}
    (before text : List Char) :
    atColons attempt before text = some a ↔ ∃ u tail, text = u ++ ':' :: tail ∧
      attempt (before ++ u) tail = some a ∧ ∀ u' tail', text = u' ++ ':' :: tail' →
        u'.length < u.length → attempt (before ++ u') tail' = none := by
  induction text generalizing before with
  | nil => simp [atColons]
  | cons c rest ih =>
    have hshift (u : List Char) : before ++ c :: u = before ++ [c] ++ u := by simp
    rw [atColons]
    by_cases hc : c = ':'
    · rw [if_pos hc]
      cases hattempt : attempt before rest with
      | some b =>
        constructor
        · intro h
          refine ⟨[], rest, by rw [hc]; rfl, by simpa [hattempt] using h, ?_⟩
          intro u' _ _ hlt
          exact absurd hlt (Nat.not_lt_zero _)
        · rintro ⟨u, tail, htext, hsome, hfirst⟩
          cases u with
          | nil =>
            obtain rfl := (List.cons.inj htext).2
            simpa [hattempt] using hsome
          | cons d u =>
            have hnone := hfirst [] rest (by rw [hc]; rfl) (by simp)
            rw [List.append_nil, hattempt] at hnone
            cases hnone
      | none =>
        rw [ih]
        constructor
        · rintro ⟨u, tail, rfl, hsome, hfirst⟩
          refine ⟨c :: u, tail, rfl, by rwa [hshift], fun u' tail' htext hlt => ?_⟩
          cases u' with
          | nil =>
            obtain rfl := (List.cons.inj htext).2
            simpa using hattempt
          | cons d u' =>
            obtain ⟨rfl, hrest⟩ := List.cons.inj htext
            rw [hshift]
            exact hfirst u' tail' hrest (by simpa using hlt)
        · rintro ⟨u, tail, htext, hsome, hfirst⟩
          cases u with
          | nil =>
            obtain rfl := (List.cons.inj htext).2
            rw [List.append_nil, hattempt] at hsome
            cases hsome
          | cons d u =>
            obtain ⟨rfl, hrest⟩ := List.cons.inj htext
            refine ⟨u, tail, hrest, by rwa [hshift] at hsome, fun u' tail' hu' hlt => ?_⟩
            rw [← hshift]
            exact hfirst (c :: u') tail' (by rw [hu']; rfl) (by simpa using hlt)
    · rw [if_neg hc, ih]
      have hcons {u tail : List Char} (h : c :: rest = u ++ ':' :: tail) :
          ∃ u', u = c :: u' ∧ rest = u' ++ ':' :: tail := by
        cases u with
        | nil => exact absurd (List.cons.inj h).1 hc
        | cons d u => exact ⟨u, by rw [(List.cons.inj h).1], (List.cons.inj h).2⟩
      constructor
      · rintro ⟨u, tail, rfl, hsome, hfirst⟩
        refine ⟨c :: u, tail, rfl, by rwa [hshift], fun u' tail' htext hlt => ?_⟩
        obtain ⟨u'', rfl, hrest⟩ := hcons htext
        rw [hshift]
        exact hfirst u'' tail' hrest (by simpa using hlt)
      · rintro ⟨u, tail, htext, hsome, hfirst⟩
        obtain ⟨u', rfl, hrest⟩ := hcons htext
        refine ⟨u', tail, hrest, by rwa [hshift] at hsome, fun u'' tail' hu hlt => ?_⟩
        rw [← hshift]
        exact hfirst (c :: u'') tail' (by rw [hu]; rfl) (by simpa using hlt)

/-! ## Numbers -/

theorem parseUsize_lt {t : List Char} {n : ℕ} (h : parseUsize t = some n) : n < 2 ^ 64 := by
  unfold parseUsize at h
  dsimp only at h
  split_ifs at h with _ hn
  rwa [← Option.some.inj h]

theorem length_of_parses {t : List Char} (h : (parseUsize (trimText t)).isSome) : 0 < t.length := by
  cases t with
  | nil => cases h
  | cons c t => exact Nat.succ_pos _

theorem isDigit_toDigits {n : ℕ} : ∀ c ∈ Nat.toDigits 10 n, c.isDigit = true := fun _ hc =>
  Nat.isDigit_of_mem_toDigits (by decide) (by decide) hc

theorem notMem_toDigits {c : Char} (h : c.isDigit = false) (n : ℕ) : c ∉ Nat.toDigits 10 n := by
  intro hc
  rw [isDigit_toDigits c hc] at h
  cases h

theorem trimText_toDigits (n : ℕ) : trimText (Nat.toDigits 10 n) = Nat.toDigits 10 n := by
  have hblank : ∀ c ∈ Nat.toDigits 10 n, isWhitespace c = false := fun c hc =>
    Lsp.not_isWhitespace_of_isDigit (isDigit_toDigits c hc)
  exact (trimmed_iff Nat.toDigits_ne_nil).mpr
    ⟨hblank _ (List.head_mem _), hblank _ (List.getLast_mem _)⟩

theorem parseUsize_printed {n : ℕ} (h : n < 2 ^ 64) :
    parseUsize (trimText (Nat.toDigits 10 n)) = some n := by
  rw [trimText_toDigits, Lsp.parseUsize_toDigits h]

theorem lineOnly_eq_some {t rest : List Char} {line : ℕ} :
    lineOnly t = some (line, rest) ↔
      ∃ x, t = x ++ ':' :: rest ∧ ':' ∉ x ∧ parseUsize (trimText x) = some line := by
  unfold lineOnly
  constructor
  · intro h
    obtain ⟨⟨x, message⟩, hsplit, h⟩ := Option.bind_eq_some_iff.mp h
    obtain ⟨n, hline, h⟩ := Option.bind_eq_some_iff.mp h
    obtain ⟨rfl, rfl⟩ := Prod.mk.inj (Option.some.inj h)
    obtain ⟨ht, hx⟩ := splitFirst_char_notMem hsplit
    exact ⟨x, ht, hx, hline⟩
  · rintro ⟨x, rfl, hx, hline⟩
    simp [splitFirst_char hx, hline]

theorem lineAndColumn_eq_some {t rest : List Char} {line column : ℕ} :
    lineAndColumn t = some (line, column, rest) ↔
      ∃ x y, t = x ++ ':' :: (y ++ ':' :: rest) ∧ ':' ∉ x ∧ ':' ∉ y ∧
        parseUsize (trimText x) = some line ∧ parseUsize (trimText y) = some column := by
  unfold lineAndColumn
  constructor
  · intro h
    obtain ⟨⟨x, behind⟩, hsplit, h⟩ := Option.bind_eq_some_iff.mp h
    obtain ⟨n, hline, h⟩ := Option.bind_eq_some_iff.mp h
    obtain ⟨⟨y, message⟩, hsplit', h⟩ := Option.bind_eq_some_iff.mp h
    obtain ⟨k, hcolumn, h⟩ := Option.bind_eq_some_iff.mp h
    simp only [Option.pure_def, Option.some.injEq, Prod.mk.injEq] at h
    obtain ⟨rfl, rfl, rfl⟩ := h
    obtain ⟨ht, hx⟩ := splitFirst_char_notMem hsplit
    obtain ⟨hbehind, hy⟩ := splitFirst_char_notMem hsplit'
    exact ⟨x, y, by rw [ht, hbehind], hx, hy, hline, hcolumn⟩
  · rintro ⟨x, y, rfl, hx, hy, hline, hcolumn⟩
    simp [splitFirst_char hx, splitFirst_char hy, hline, hcolumn]

/-! ## What stands behind a colon -/

/-- No colon leaves more behind it than the first one. -/
theorem length_behind_le {front behind u tail : List Char} (hfront : ':' ∉ front)
    (h : front ++ ':' :: behind = u ++ ':' :: tail) :
    front.length ≤ u.length ∧ tail.length ≤ behind.length := by
  have hlen := congrArg List.length h
  simp only [List.length_append, List.length_cons] at hlen
  suffices front.length ≤ u.length by omega
  by_contra hlt
  rw [not_le] at hlt
  have hcolon : (front ++ ':' :: behind)[u.length]? = some ':' := by rw [h]; simp
  rw [List.getElem?_append_left hlt] at hcolon
  exact hfront (List.mem_of_getElem? hcolon)

/-- No colon but the first leaves more behind it than the second. -/
theorem length_behind_second_le {front middle behind u x tail : List Char} (hfront : ':' ∉ front)
    (hmiddle : ':' ∉ middle)
    (h : front ++ ':' :: (middle ++ ':' :: behind) = u ++ ':' :: (x ++ ':' :: tail)) :
    tail.length ≤ behind.length := by
  have hjoined : front ++ ':' :: middle ++ ':' :: behind = u ++ ':' :: x ++ ':' :: tail := by
    simpa using h
  have hlen := congrArg List.length hjoined
  simp only [List.length_append, List.length_cons] at hlen
  have hu := (length_behind_le hfront h).1
  suffices front.length + middle.length ≤ u.length + x.length by omega
  by_contra hlt
  rw [not_le] at hlt
  have hcolon : (front ++ ':' :: middle ++ ':' :: behind)[(u ++ ':' :: x).length]? = some ':' := by
    rw [hjoined, List.getElem?_append_right le_rfl, Nat.sub_self]
    rfl
  have hplace : (u ++ ':' :: x).length =
      front.length + (u.length + x.length - front.length + 1) := by
    rw [List.length_append, List.length_cons]
    omega
  have hinside : (u ++ ':' :: x).length < (front ++ ':' :: middle).length := by
    simp only [List.length_append, List.length_cons]
    omega
  rw [List.getElem?_append_left hinside, hplace, List.getElem?_append_right (Nat.le_add_right _ _),
    Nat.add_sub_cancel_left, List.getElem?_cons_succ] at hcolon
  exact hmiddle (List.mem_of_getElem? hcolon)

/-! ## The shapes -/

theorem tsc_message {cwd : Path} {text : List Char} {problem : Problem}
    (h : tscProblem cwd text = some problem) :
    ∃ front behind, splitLast "):".toList text = some (front, behind) ∧ '(' ∈ front ∧
      problem.message = String.ofList (trimText behind) ∧
      problem.line < 2 ^ 64 ∧ problem.column < 2 ^ 64 := by
  unfold tscProblem at h
  obtain ⟨⟨front, behind⟩, hsplit, h⟩ := Option.bind_eq_some_iff.mp h
  obtain ⟨⟨rawPath, coordinates⟩, hbracket, h⟩ := Option.bind_eq_some_iff.mp h
  dsimp only at h
  split at h
  · obtain ⟨line, hline, h⟩ := Option.bind_eq_some_iff.mp h
    obtain ⟨column, hcolumn, h⟩ := Option.bind_eq_some_iff.mp h
    obtain ⟨-, -, -, -, rfl, rfl, hmessage⟩ := buildProblem_eq_some h
    have hmem : '(' ∈ front := by
      rw [splitLast_append hbracket]
      simp
    exact ⟨front, behind, hsplit, hmem, hmessage, parseUsize_lt hline, parseUsize_lt hcolumn⟩
  · cases h

theorem gcc_message {cwd : Path} {text : List Char} {problem : Problem}
    (h : gccProblem cwd text = some problem) :
    ∃ u x y rest, text = u ++ ':' :: (x ++ ':' :: (y ++ ':' :: rest)) ∧ 0 < y.length ∧
      problem.message = String.ofList (trimText rest) ∧
      problem.line < 2 ^ 64 ∧ problem.column < 2 ^ 64 := by
  unfold gccProblem at h
  obtain ⟨u, tail, htext, hattempt, -⟩ :=
    (atColons_eq_some [] text).mp (Option.join_eq_some_iff.mp h)
  obtain ⟨⟨line, column, rest⟩, hnumbers, hbuild⟩ := Option.map_eq_some_iff.mp hattempt
  obtain ⟨x, y, rfl, -, -, hline, hcolumn⟩ := lineAndColumn_eq_some.mp hnumbers
  obtain ⟨-, -, -, -, rfl, rfl, hmessage⟩ := buildProblem_eq_some hbuild
  exact ⟨u, x, y, rest, htext, length_of_parses (by rw [hcolumn]; rfl), hmessage,
    parseUsize_lt hline, parseUsize_lt hcolumn⟩

theorem javac_message {cwd : Path} {text : List Char} {problem : Problem}
    (h : javacProblem cwd text = some problem) :
    ∃ u x rest, text = u ++ ':' :: (x ++ ':' :: rest) ∧ 0 < x.length ∧
      problem.message = String.ofList (trimText rest) ∧
      problem.line < 2 ^ 64 ∧ problem.column < 2 ^ 64 := by
  unfold javacProblem at h
  obtain ⟨u, tail, htext, hattempt, -⟩ :=
    (atColons_eq_some [] text).mp (Option.join_eq_some_iff.mp h)
  obtain ⟨⟨line, rest⟩, hnumber, hbuild⟩ := Option.bind_eq_some_iff.mp hattempt
  obtain ⟨x, rfl, -, hline⟩ := lineOnly_eq_some.mp hnumber
  dsimp only at hbuild
  split_ifs at hbuild
  obtain ⟨-, -, -, -, rfl, hcolumn, hmessage⟩ := buildProblem_eq_some (Option.some.inj hbuild)
  refine ⟨u, x, rest, htext, length_of_parses (by rw [hline]; rfl), hmessage,
    parseUsize_lt hline, ?_⟩
  rw [hcolumn]
  decide

theorem python_message {cwd : Path} {text : List Char} {problem : Problem}
    (h : pythonProblem cwd text = some problem) :
    problem.message = String.ofList (trimText text) ∧
      problem.line < 2 ^ 64 ∧ problem.column < 2 ^ 64 := by
  unfold pythonProblem at h
  obtain ⟨frame, -, h⟩ := Option.bind_eq_some_iff.mp h
  obtain ⟨⟨rawPath, tail⟩, -, h⟩ := Option.bind_eq_some_iff.mp h
  obtain ⟨line, hline, h⟩ := Option.bind_eq_some_iff.mp h
  obtain ⟨-, -, -, -, rfl, hcolumn, hmessage⟩ := buildProblem_eq_some h
  refine ⟨hmessage, parseUsize_lt hline, ?_⟩
  rw [hcolumn]
  decide

/-! ## Printed lines -/

section Printed

variable {cwd : Path} {p m : List Char} {line column : ℕ}

theorem PrintedPath.ne_nil (hp : PrintedPath p) : p ≠ [] := by
  rintro rfl
  have hextension := hp.extension
  revert hextension
  decide

theorem last_printed (hp : PrintedPath p) (hm : PrintedMessage m) (middle : List Char)
    (hne : p ++ (middle ++ m) ≠ []) :
    (p ++ (middle ++ m)).head hne = p.head hp.ne_nil ∧
      (p ++ (middle ++ m)).getLast hne = m.getLast hm.nonempty := by
  refine ⟨List.head_append_left hp.ne_nil, ?_⟩
  rw [List.getLast_append_right (by simp [hm.nonempty]), List.getLast_append_right hm.nonempty]

/-- A line that begins with a printed path and ends with a message has no white space around it. -/
theorem trimText_printed (hp : PrintedPath p) (hm : PrintedMessage m) (middle : List Char) :
    trimText (p ++ (middle ++ m)) = p ++ (middle ++ m) := by
  have hne : p ++ (middle ++ m) ≠ [] := by simp [hp.ne_nil]
  obtain ⟨hhead, hlast⟩ := last_printed hp hm middle hne
  refine (trimmed_iff hne).mpr ⟨?_, ?_⟩
  · rw [hhead]
    exact ((trimmed_iff hp.ne_nil).mp hp.trimmed).1
  · rw [hlast]
    exact ((trimmed_iff hm.nonempty).mp hm.trimmed).2

theorem decodeLine_printed (hp : PrintedPath p) (hm : PrintedMessage m) (middle : List Char) :
    decodeLine cwd (utf8 (p ++ (middle ++ m))) =
      (tscProblem cwd (p ++ (middle ++ m)) <|> gccProblem cwd (p ++ (middle ++ m)) <|>
        javacProblem cwd (p ++ (middle ++ m)) <|> pythonProblem cwd (p ++ (middle ++ m))) := by
  have hne : p ++ (middle ++ m) ≠ [] := by simp [hp.ne_nil]
  obtain ⟨hhead, hlast⟩ := last_printed hp hm middle hne
  have hline : (p ++ (middle ++ m)).rdropWhile (fun c => c = '\r' ∨ c = '\n') =
      p ++ (middle ++ m) := by
    rw [List.rdropWhile_eq_self_iff]
    intro hl
    have hmem : (p ++ (middle ++ m)).getLast hl ∈ m := by
      rw [hlast]
      exact List.getLast_mem _
    rw [decide_eq_true_iff, not_or]
    constructor
    · rintro heq
      exact hm.oneLine.2 (heq ▸ hmem)
    · rintro heq
      exact hm.oneLine.1 (heq ▸ hmem)
  have hmaven : ∀ pattern : List Char, pattern.head? = some '[' →
      (p ++ (middle ++ m)).dropPrefix? pattern = none := by
    intro pattern hpattern
    refine dropPrefix?_none ?_
    rintro ⟨behind, hbehind⟩
    refine hp.square ?_
    have hsquare : (p ++ (middle ++ m)).head? = some '[' := by
      rw [← hbehind, List.head?_append, hpattern]
      rfl
    rw [List.head?_eq_some_head hne, hhead] at hsquare
    rw [← Option.some.inj hsquare]
    exact List.head_mem _
  rw [decodeLine, fromUtf8_utf8]
  dsimp only [decodeText]
  rw [hline, stripMavenPrefix, hmaven _ rfl, hmaven _ rfl]
  exact bind_pure _

theorem tscText_eq : tscText p line column m =
    p ++ (('(' :: (Nat.toDigits 10 line ++ ',' :: (Nat.toDigits 10 column ++ "): ".toList))) ++
      m) := by
  simp [tscText]

theorem gccText_eq : gccText p line column m =
    p ++ ((':' :: (Nat.toDigits 10 line ++ ':' :: (Nat.toDigits 10 column ++ ": ".toList))) ++
      m) := by
  simp [gccText]

theorem javacText_eq : javacText p line m =
    p ++ ((':' :: (Nat.toDigits 10 line ++ ": ".toList)) ++ m) := by
  simp [javacText]

theorem message_ne {message : String} {rest : List Char}
    (h : message = String.ofList (trimText rest)) (hlt : rest.length < m.length) :
    message ≠ String.ofList m := by
  rw [h]
  intro heq
  have hlen := length_trimText_le rest
  rw [String.ofList_inj.mp heq] at hlen
  omega

theorem DecodesTo.lt (hp : PrintedPath p) (hm : PrintedMessage m) {middle p' m' : List Char}
    (h : DecodesTo cwd (p ++ (middle ++ m)) p' line column m') :
    line < 2 ^ 64 ∧ column < 2 ^ 64 := by
  obtain ⟨problem, hdecode, -, rfl, rfl, -⟩ := h
  rw [decodeLine_printed hp hm middle] at hdecode
  simp only [Option.orElse_eq_some] at hdecode
  obtain htsc | ⟨-, hgcc | ⟨-, hjavac | ⟨-, hpython⟩⟩⟩ := hdecode
  · obtain ⟨-, -, -, -, -, hlt⟩ := tsc_message htsc
    exact hlt
  · obtain ⟨-, -, -, -, -, -, -, hlt⟩ := gcc_message hgcc
    exact hlt
  · obtain ⟨-, -, -, -, -, -, hlt⟩ := javac_message hjavac
    exact hlt
  · exact (python_message hpython).2

theorem python_misread (hp : PrintedPath p) (hm : PrintedMessage m) {middle : List Char}
    {problem : Problem} (h : pythonProblem cwd (p ++ (middle ++ m)) = some problem) :
    problem.message ≠ String.ofList m := by
  rw [(python_message h).1, trimText_printed hp hm middle]
  intro heq
  have hlen := congrArg List.length (String.ofList_inj.mp heq)
  have hpos := List.length_pos_of_ne_nil hp.ne_nil
  simp only [List.length_append] at hlen
  omega

/-- A message with `):` in it is cut there, or the line is taken for another shape. -/
theorem tsc_misread (hp : PrintedPath p) (hm : PrintedMessage m) (hinside : "):".toList <:+: m) :
    ¬DecodesTo cwd (tscText p line column m) p line column m := by
  rintro ⟨problem, hdecode, -, -, -, hmessage⟩
  revert hmessage
  have hcolon : ∀ n, ':' ∉ Nat.toDigits 10 n := notMem_toDigits (by decide)
  have hfront :
      ':' ∉ p ++ '(' :: (Nat.toDigits 10 line ++ ',' :: (Nat.toDigits 10 column ++ [')'])) := by
    simp [hp.colon, hcolon]
  have htext : tscText p line column m =
      (p ++ '(' :: (Nat.toDigits 10 line ++ ',' :: (Nat.toDigits 10 column ++ [')']))) ++
        ':' :: ' ' :: m := by
    simp [tscText]
  rw [tscText_eq, decodeLine_printed hp hm _, ← tscText_eq] at hdecode
  simp only [Option.orElse_eq_some] at hdecode
  obtain htsc | ⟨-, hgcc | ⟨-, hjavac | ⟨-, hpython⟩⟩⟩ := hdecode
  · obtain ⟨front, behind, hsplit, -, hmessage, -⟩ := tsc_message htsc
    cases hlast : splitLast "):".toList m with
    | none => exact absurd hinside ((splitLast_eq_none (by decide)).mp hlast)
    | some parts =>
      obtain ⟨front', behind'⟩ := parts
      rw [tscText_eq, ← List.append_assoc, splitLast_append_left hlast] at hsplit
      obtain ⟨-, rfl⟩ := Prod.mk.inj (Option.some.inj hsplit)
      refine message_ne hmessage ?_
      have hlen := congrArg List.length (splitLast_append hlast)
      simp only [List.length_append, String.length_toList] at hlen
      have hpattern : "):".length = 2 := rfl
      omega
  · obtain ⟨u, x, y, rest, hu, hy, hmessage, -⟩ := gcc_message hgcc
    refine message_ne hmessage ?_
    have hle := (length_behind_le hfront (htext.symm.trans hu)).2
    simp only [List.length_append, List.length_cons] at hle
    omega
  · obtain ⟨u, x, rest, hu, hx, hmessage, -⟩ := javac_message hjavac
    refine message_ne hmessage ?_
    have hle := (length_behind_le hfront (htext.symm.trans hu)).2
    simp only [List.length_append, List.length_cons] at hle
    omega
  · rw [tscText_eq] at hpython
    exact python_misread hp hm hpython

/-- Without a bracket in front of the message or `):` in it, the line has not the first shape. -/
theorem tsc_none {front : List Char} (hfront : '(' ∉ front) (h : ¬"):".toList <:+: m) :
    tscProblem cwd (front ++ ':' :: ' ' :: m) = none := by
  cases htsc : tscProblem cwd (front ++ ':' :: ' ' :: m) with
  | none => rfl
  | some problem =>
    obtain ⟨before, behind, hsplit, hbracket, -⟩ := tsc_message htsc
    have htext := splitLast_append hsplit
    refine absurd ?_ h
    rcases List.append_eq_append_iff.mp htext with ⟨middle, rfl, hm⟩ | ⟨middle, hfront', -⟩
    · cases middle with
      | nil =>
        rw [List.append_nil] at hbracket
        exact absurd hbracket hfront
      | cons c middle =>
        obtain ⟨-, hm⟩ := List.cons.inj hm
        cases middle with
        | nil => cases hm
        | cons d middle =>
          rw [(List.cons.inj hm).2]
          exact ⟨middle, behind, by simp⟩
    · refine absurd ?_ hfront
      rw [hfront']
      exact List.mem_append_left _ hbracket

/-- A message that locates takes the line. -/
theorem javac_misread (hp : PrintedPath p) (hm : PrintedMessage m) (h : ¬"):".toList <:+: m)
    (hlocates : MessageLocates (javacText p line m)) :
    ¬DecodesTo cwd (javacText p line m) p line 1 m := by
  rintro ⟨problem, hdecode, -, -, -, hmessage⟩
  revert hmessage
  have hdigits : ∀ c : Char, c.isDigit = false → c ∉ Nat.toDigits 10 line :=
    fun c hc => notMem_toDigits hc line
  obtain ⟨before, rest, ⟨x, y, htext, hx, hy, hline, hcolumn⟩, hfirst, hrest, hdots⟩ := hlocates
  obtain ⟨n, hn⟩ := Option.isSome_iff_exists.mp hline
  obtain ⟨k, hk⟩ := Option.isSome_iff_exists.mp hcolumn
  have hbefore : trimText before ≠ [] := by
    intro hblank
    have hle := (length_behind_le hp.colon htext).1
    obtain ⟨before', rfl⟩ : p <+: before := by
      refine List.prefix_of_prefix_length_le ⟨_, rfl⟩ ⟨_, htext.symm⟩ hle
    have hwhite := isWhitespace_of_trimText hblank
      (List.mem_append_left before' (List.head_mem hp.ne_nil))
    rw [((trimmed_iff hp.ne_nil).mp hp.trimmed).1] at hwhite
    cases hwhite
  obtain ⟨located, hlocated⟩ := buildProblem_isSome cwd n k hbefore hrest hdots
  have hgcc : gccProblem cwd (javacText p line m) = some located := by
    refine Option.join_eq_some_iff.mpr ((atColons_eq_some [] _).mpr ⟨before, _, htext, ?_, ?_⟩)
    · rw [List.nil_append, gccAttempt, lineAndColumn_eq_some.mpr ⟨x, y, rfl, hx, hy, hn, hk⟩,
        Option.map_some]
      exact congrArg some hlocated
    · intro u' tail' htext' hlt
      rw [gccAttempt, Option.map_eq_none_iff]
      cases hnumbers : lineAndColumn tail' with
      | none => rfl
      | some numbers =>
        obtain ⟨n', k', rest'⟩ := numbers
        obtain ⟨x', y', rfl, hx', hy', hn', hk'⟩ := lineAndColumn_eq_some.mp hnumbers
        have hle := hfirst u' rest' ⟨x', y', htext', hx', hy', by rw [hn']; rfl, by rw [hk']; rfl⟩
        omega
  have htsc : tscProblem cwd (javacText p line m) = none := by
    have hshape : javacText p line m =
        (p ++ ':' :: Nat.toDigits 10 line) ++ ':' :: ' ' :: m := by simp [javacText]
    rw [hshape]
    refine tsc_none ?_ h
    simp [hp.bracket, hdigits]
  rw [javacText_eq, decodeLine_printed hp hm _, ← javacText_eq, htsc, hgcc] at hdecode
  obtain rfl := Option.some.inj hdecode
  refine message_ne (buildProblem_eq_some hlocated).2.2.2.2.2.2 ?_
  have hle := length_behind_second_le hp.colon (hdigits ':' (by decide)) htext
  have hpos := length_of_parses hcolumn
  simp only [List.length_append, List.length_cons] at hle
  omega

theorem decodesTo_printed (hp : PrintedPath p) (hm : PrintedMessage m) {middle : List Char}
    (h : ∀ problem, buildProblem cwd p line column (trimText (' ' :: m)) = some problem →
      (tscProblem cwd (p ++ (middle ++ m)) <|> gccProblem cwd (p ++ (middle ++ m)) <|>
        javacProblem cwd (p ++ (middle ++ m)) <|> pythonProblem cwd (p ++ (middle ++ m))) =
          some problem) :
    DecodesTo cwd (p ++ (middle ++ m)) p line column m := by
  rw [trimText_space, hm.trimmed] at h
  obtain ⟨problem, hbuild⟩ := buildProblem_isSome cwd line column hp.ne_nil hm.nonempty
    hp.within
  obtain ⟨-, -, -, hpath, hline, hcolumn, hmessage⟩ := buildProblem_eq_some hbuild
  rw [underCwd, if_neg (by simp [hp.relative])] at hpath
  refine ⟨problem, ?_, hpath, hline, hcolumn, hmessage⟩
  rw [decodeLine_printed hp hm middle]
  exact h problem hbuild

theorem splitLast_tscText (h : ¬"):".toList <:+: m) :
    splitLast "):".toList (tscText p line column m) =
      some (p ++ '(' :: (Nat.toDigits 10 line ++ ',' :: Nat.toDigits 10 column), ' ' :: m) := by
  have htext : tscText p line column m =
      (p ++ '(' :: (Nat.toDigits 10 line ++ ',' :: Nat.toDigits 10 column)) ++
        (')' :: ":".toList ++ ' ' :: m) := by
    simp [tscText]
  rw [htext]
  refine splitLast_here ((splitLast_eq_none (by decide)).mpr fun hinside => h ?_) _
  have hhead {c : Char} {t : List Char} (hc : c ≠ ')') (ht : ')' :: ":".toList <:+: c :: t) :
      ')' :: ":".toList <:+: t := by
    rcases List.infix_cons_iff.mp ht with hprefix | hinside
    · exact absurd (List.cons_prefix_cons.mp hprefix).1.symm hc
    · exact hinside
  exact hhead (by decide) (hhead (by decide) hinside)

theorem tsc_shape (hp : PrintedPath p) (hm : PrintedMessage m) (hline : line < 2 ^ 64)
    (hcolumn : column < 2 ^ 64) (h : ¬"):".toList <:+: m) :
    DecodesTo cwd (tscText p line column m) p line column m := by
  have hdigits : ∀ (c : Char) n, c.isDigit = false → c ∉ Nat.toDigits 10 n :=
    fun c n hc => notMem_toDigits hc n
  have hbracket : '(' ∉ Nat.toDigits 10 line ++ ',' :: Nat.toDigits 10 column := by
    simp [hdigits]
  have hcoordinates : (Nat.toDigits 10 line ++ ',' :: Nat.toDigits 10 column).splitOn ',' =
      [Nat.toDigits 10 line, Nat.toDigits 10 column] := by
    rw [List.splitOn_append_cons_self_of_not_mem (hdigits ',' line (by decide)),
      List.splitOn_eq_singleton (hdigits ',' column (by decide))]
  have htsc : tscProblem cwd (tscText p line column m) =
      buildProblem cwd p line column (trimText (' ' :: m)) := by
    rw [tscProblem, splitLast_tscText h, Option.bind_eq_bind, Option.bind_some]
    dsimp only
    rw [splitLast_char hbracket, Option.bind_some]
    dsimp only
    rw [hcoordinates]
    dsimp only
    rw [parseUsize_printed hline, parseUsize_printed hcolumn]
    rfl
  rw [tscText_eq]
  refine decodesTo_printed hp hm fun problem hbuild => ?_
  rw [← tscText_eq, htsc, hbuild]
  rfl

theorem atColons_printed {α : Type} {attempt : List Char → List Char → Option α} {a : α}
    {behind : List Char} (hp : PrintedPath p) (h : attempt p behind = some a) :
    atColons attempt [] (p ++ ':' :: behind) = some a := by
  refine (atColons_eq_some [] _).mpr ⟨p, behind, rfl, h, fun u tail htext hlt => ?_⟩
  have hle := (length_behind_le hp.colon htext).1
  omega

theorem gcc_shape (hp : PrintedPath p) (hm : PrintedMessage m) (hline : line < 2 ^ 64)
    (hcolumn : column < 2 ^ 64) (h : ¬"):".toList <:+: m) :
    DecodesTo cwd (gccText p line column m) p line column m := by
  have hdigits : ∀ (c : Char) n, c.isDigit = false → c ∉ Nat.toDigits 10 n :=
    fun c n hc => notMem_toDigits hc n
  have htsc : tscProblem cwd (gccText p line column m) = none := by
    have hshape : gccText p line column m =
        (p ++ ':' :: (Nat.toDigits 10 line ++ ':' :: Nat.toDigits 10 column)) ++
          ':' :: ' ' :: m := by simp [gccText]
    rw [hshape]
    refine tsc_none ?_ h
    simp [hp.bracket, hdigits]
  have hattempt : gccAttempt cwd p
      (Nat.toDigits 10 line ++ ':' :: (Nat.toDigits 10 column ++ ':' :: ' ' :: m)) =
        some (buildProblem cwd p line column (trimText (' ' :: m))) := by
    rw [gccAttempt, lineAndColumn_eq_some.mpr ⟨_, _, rfl, hdigits ':' line (by decide),
      hdigits ':' column (by decide), parseUsize_printed hline, parseUsize_printed hcolumn⟩,
      Option.map_some, hp.trimmed]
  have hgcc : gccProblem cwd (gccText p line column m) =
      buildProblem cwd p line column (trimText (' ' :: m)) := by
    rw [gccProblem, gccText, atColons_printed hp hattempt]
    rfl
  rw [gccText_eq]
  refine decodesTo_printed hp hm fun problem hbuild => ?_
  rw [← gccText_eq, htsc, hgcc, hbuild]
  rfl

theorem subset_of_normal {t : List Char} {name : String}
    (h : .normal name ∈ Path.ofString (String.ofList t)) : name.toList ⊆ t := by
  have hpieces : ∀ piece ∈ Path.splitSlash t, piece ⊆ t := by
    rw [Path.splitSlash_eq]
    exact Splits.subset_splitOn '/' t
  have hname {pieces : List (List Char)} (hsub : ∀ piece ∈ pieces, piece ⊆ t)
      (hmem : .normal name ∈ pieces.filterMap Path.component) : name.toList ⊆ t := by
    obtain ⟨piece, hpiece, hcomponent⟩ := List.mem_filterMap.mp hmem
    rw [Path.component] at hcomponent
    split_ifs at hcomponent
    · cases hcomponent
    · rw [← Component.normal.inj (Option.some.inj hcomponent), String.toList_ofList]
      exact hsub piece hpiece
  rw [Path.ofString, String.toList_ofList] at h
  split at h
  · cases h
  · rename_i pieces heq
    rw [heq] at hpieces
    split_ifs at h
    · cases h
    · exact hname (fun piece hp => hpieces piece (.tail _ hp))
        ((List.mem_cons.mp h).resolve_left (by simp))
  · rename_i pieces heq
    rw [heq] at hpieces
    exact hname (fun piece hp => hpieces piece (.tail _ hp))
      ((List.mem_cons.mp h).resolve_left (by simp))
  · exact hname hpieces h

theorem plausible_printed (hp : PrintedPath p) : plausibleTwoPartPath p = true := by
  have hdot : '.' ∈ p := by
    have hextension := hp.extension
    rw [hasExtension] at hextension
    split at hextension
    · rename_i name hname
      have hlast : .normal name ∈ Path.ofString (String.ofList p) := by
        rw [Path.fileName] at hname
        split at hname
        · rename_i hgetLast
          rw [← Option.some.inj hname]
          exact List.mem_of_getLast? hgetLast
        · cases hname
      split at hextension
      · rename_i hsplit
        refine subset_of_normal hlast ?_
        rw [splitLast_append hsplit]
        simp
      · cases hextension
    · cases hextension
  rw [plausibleTwoPartPath, hp.extension]
  simp [hp.ne_nil, hdot]

theorem javac_shape (hp : PrintedPath p) (hm : PrintedMessage m) (hline : line < 2 ^ 64)
    (h : ¬"):".toList <:+: m) (hlocates : ¬MessageLocates (javacText p line m)) :
    DecodesTo cwd (javacText p line m) p line 1 m := by
  have hdigits : ∀ c : Char, c.isDigit = false → c ∉ Nat.toDigits 10 line :=
    fun c hc => notMem_toDigits hc line
  have htsc : tscProblem cwd (javacText p line m) = none := by
    have hshape : javacText p line m =
        (p ++ ':' :: Nat.toDigits 10 line) ++ ':' :: ' ' :: m := by simp [javacText]
    rw [hshape]
    refine tsc_none ?_ h
    simp [hp.bracket, hdigits]
  have hgcc : gccProblem cwd (javacText p line m) = none := by
    cases hsome : gccProblem cwd (javacText p line m) with
    | none => rfl
    | some problem =>
      refine absurd ?_ hlocates
      obtain ⟨before, tail, htext, hattempt, hfirst⟩ :=
        (atColons_eq_some [] _).mp (Option.join_eq_some_iff.mp hsome)
      obtain ⟨⟨n, k, rest⟩, hnumbers, hbuild⟩ := Option.map_eq_some_iff.mp hattempt
      obtain ⟨x, y, rfl, hx, hy, hn, hk⟩ := lineAndColumn_eq_some.mp hnumbers
      obtain ⟨-, hrest, hdots, -⟩ := buildProblem_eq_some hbuild
      refine ⟨before, rest, ⟨x, y, htext, hx, hy, by rw [hn]; rfl, by rw [hk]; rfl⟩, ?_, hrest,
        hdots⟩
      rintro before' rest' ⟨x', y', htext', hx', hy', hn', hk'⟩
      by_contra hlt
      rw [not_le] at hlt
      obtain ⟨n', hn'⟩ := Option.isSome_iff_exists.mp hn'
      obtain ⟨k', hk'⟩ := Option.isSome_iff_exists.mp hk'
      have hnone := hfirst before' _ htext' hlt
      rw [gccAttempt, lineAndColumn_eq_some.mpr ⟨x', y', rfl, hx', hy', hn', hk'⟩] at hnone
      cases hnone
  have hattempt : javacAttempt cwd p (Nat.toDigits 10 line ++ ':' :: ' ' :: m) =
      some (buildProblem cwd p line 1 (trimText (' ' :: m))) := by
    rw [javacAttempt, lineOnly_eq_some.mpr ⟨_, rfl, hdigits ':' (by decide),
      parseUsize_printed hline⟩, Option.bind_some, hp.trimmed]
    exact if_pos (plausible_printed hp)
  have hjavac : javacProblem cwd (javacText p line m) =
      buildProblem cwd p line 1 (trimText (' ' :: m)) := by
    rw [javacProblem, javacText, atColons_printed hp hattempt]
    rfl
  rw [javacText_eq]
  refine decodesTo_printed hp hm fun problem hbuild => ?_
  rw [← javacText_eq, htsc, hgcc, hjavac, hbuild]
  rfl

/-- **A compiler line decodes to the location it prints exactly when its numbers fit in a word and
its message brings no location in**: no `):`, and with no column printed no two numbers between
colons that are taken for one. -/
theorem shapes_iff (cwd : Path) (hp : PrintedPath p) (hm : PrintedMessage m) (line column : ℕ) :
    (DecodesTo cwd (tscText p line column m) p line column m ∧
        DecodesTo cwd (gccText p line column m) p line column m ∧
        DecodesTo cwd (javacText p line m) p line 1 m) ↔
      line < 2 ^ 64 ∧ column < 2 ^ 64 ∧ ¬"):".toList <:+: m ∧
        ¬MessageLocates (javacText p line m) := by
  constructor
  · rintro ⟨htsc, -, hjavac⟩
    have hlt : line < 2 ^ 64 ∧ column < 2 ^ 64 := by
      rw [tscText_eq] at htsc
      exact htsc.lt hp hm
    have hinside : ¬"):".toList <:+: m := fun hinside => tsc_misread hp hm hinside htsc
    exact ⟨hlt.1, hlt.2, hinside, fun hlocates => javac_misread hp hm hinside hlocates hjavac⟩
  · rintro ⟨hline, hcolumn, hinside, hlocates⟩
    exact ⟨tsc_shape hp hm hline hcolumn hinside, gcc_shape hp hm hline hcolumn hinside,
      javac_shape hp hm hline hinside hlocates⟩

end Printed

theorem printedPath_example : PrintedPath "a.ts".toList where
  relative := by decide
  extension := by decide
  colon := by decide
  bracket := by decide
  quote := by decide
  square := by decide
  within := by decide
  trimmed := by unfold Trimmed; decide

/-- Both sides at a line that is decoded right. -/
theorem shapes_iff_plain :
    (DecodesTo [.rootDir] (tscText "a.ts".toList 3 1 "x".toList) "a.ts".toList 3 1 "x".toList ∧
        DecodesTo [.rootDir] (gccText "a.ts".toList 3 1 "x".toList) "a.ts".toList 3 1 "x".toList ∧
        DecodesTo [.rootDir] (javacText "a.ts".toList 3 "x".toList) "a.ts".toList 3 1 "x".toList) ↔
      3 < 2 ^ 64 ∧ 1 < 2 ^ 64 ∧ ¬"):".toList <:+: "x".toList ∧
        ¬MessageLocates (javacText "a.ts".toList 3 "x".toList) :=
  shapes_iff [.rootDir] printedPath_example
    ⟨by decide, by unfold Trimmed; decide, by decide⟩ 3 1

/-- A message that names a call with two numbers hides the location of its line, and one that names
a location is taken for it. -/
theorem location_hidden :
    PrintedPath "a.ts".toList ∧ PrintedMessage "f(1,2): x".toList ∧
      PrintedMessage "see f:1:2: x".toList ∧
      (∀ ds rest, "f(1,2): x".toList = ds ++ ':' :: rest → ¬∀ c ∈ ds, c.isDigit = true) ∧
      (∀ ds rest, "see f:1:2: x".toList = ds ++ ':' :: rest → ¬∀ c ∈ ds, c.isDigit = true) ∧
      (decodeLine [.rootDir] (utf8 (tscText "a.ts".toList 3 1 "f(1,2): x".toList))).map
          (fun problem => (problem.path, problem.line, problem.column, problem.message)) =
        some ([.rootDir, .normal "a.ts(3,1): f"], 1, 2, "x") ∧
      (decodeLine [.rootDir] (utf8 (javacText "a.ts".toList 3 "see f:1:2: x".toList))).map
          (fun problem => (problem.path, problem.line, problem.column, problem.message)) =
        some ([.rootDir, .normal "a.ts:3: see f"], 1, 2, "x") ∧
      ¬DecodesTo [.rootDir] (tscText "a.ts".toList 3 1 "f(1,2): x".toList) "a.ts".toList 3 1
        "f(1,2): x".toList ∧
      ¬DecodesTo [.rootDir] (javacText "a.ts".toList 3 "see f:1:2: x".toList) "a.ts".toList 3 1
        "see f:1:2: x".toList := by
  have hstart {c : Char} {m ds rest : List Char} (hc : c.isDigit = false ∧ c ≠ ':')
      (h : c :: m = ds ++ ':' :: rest) : ¬∀ c ∈ ds, c.isDigit = true := by
    intro hall
    cases ds with
    | nil => exact hc.2 (List.cons.inj h).1
    | cons d ds =>
      rw [(List.cons.inj h).1, hall d List.mem_cons_self] at hc
      exact absurd hc.1 (by decide)
  have htsc : decodeLine [.rootDir] (utf8 (tscText "a.ts".toList 3 1 "f(1,2): x".toList)) =
      some ⟨[.rootDir, .normal "a.ts(3,1): f"], 1, 2, .error, "x"⟩ := by
    rw [decodeLine, fromUtf8_utf8]
    decide +kernel
  have hjavac : decodeLine [.rootDir] (utf8 (javacText "a.ts".toList 3 "see f:1:2: x".toList)) =
      some ⟨[.rootDir, .normal "a.ts:3: see f"], 1, 2, .error, "x"⟩ := by
    rw [decodeLine, fromUtf8_utf8]
    decide +kernel
  refine ⟨printedPath_example, ⟨by decide, by unfold Trimmed; decide, by decide⟩,
    ⟨by decide, by unfold Trimmed; decide, by decide⟩, fun ds rest h => hstart (by decide) h,
    fun ds rest h => hstart (by decide) h, by rw [htsc]; rfl, by rw [hjavac]; rfl, ?_, ?_⟩
  · rintro ⟨problem, hdecode, -, hline, -⟩
    rw [htsc] at hdecode
    rw [← Option.some.inj hdecode] at hline
    cases hline
  · rintro ⟨problem, hdecode, -, hline, -⟩
    rw [hjavac] at hdecode
    rw [← Option.some.inj hdecode] at hline
    cases hline

end Tasks

end Termesh
